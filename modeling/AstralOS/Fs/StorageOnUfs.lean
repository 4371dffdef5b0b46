import AstralOS.Drivers.BlockRoundTrip
import AstralOS.Fs.CutCalls

/-! The file system over the UFS driver: calls whose block requests go through memory to the
device, mounts, and losses of power after any request. -/
namespace AstralOS.Fs
open Foundation
open AstralOS.Drivers (Machine diskOf blockAt)

/-- A run of the machine and the blocks it writes, from buffers away from the driver's descriptors.
In between memory changes and blocks are read, to any buffer. -/
inductive Served : Machine → List (BlockNum × Block) → Machine → Prop
  | start (m : Machine) : Served m [] m
  | compute {m m' : Machine} {writes : List (BlockNum × Block)} (mem : Memory) : Served m writes m' →
      Served m writes { m' with mem := mem }
  | read {m m' : Machine} {writes : List (BlockNum × Block)} (n : BlockNum) (buffer : Addr) : Served m writes m' →
      Served m writes (Drivers.readBlock n buffer m').2
  | write {m m' : Machine} {writes : List (BlockNum × Block)} (n : BlockNum) (buffer : Addr)
      (off : Drivers.OffDescriptors buffer) : Served m writes m' →
      Served m (writes ++ [(n, blockAt m' buffer)]) (Drivers.writeBlock n buffer m').2

/-- A machine with the UFS device active, as `kernel_main` sets it. -/
def OnUfs (m : Machine) : Prop := m.activeBlockDeviceType = .ufs

/-- The file system and the machine it runs on. A machine that is switched on again has the device's
blocks, and anything in memory. -/
inductive Storage : World → Machine → Prop
  | mount {w w' : World} {m m' : Machine} (inodeJunk blockJunk : Bytes) : Powered w → OnUfs m → diskOf m = w.disk →
      Healthy w' → w'.disk = diskOf m → Served m [] m' → Storage (fsInit inodeJunk blockJunk w').2 m'
  | call {w : World} {m m' : Machine} (c : Call) : Storage w m → CallFromRoot w c → Served m (issuedBy w c) m' →
      Storage (step w c) m'
  | reboot {w w' : World} {m off on m' : Machine} (c : Call) (k : Nat) (inodeJunk blockJunk : Bytes) : Storage w m →
      CallFromRoot w c → Served m ((issuedBy w c).take k) off → OnUfs on → on.ufs = off.ufs → Healthy w' →
      w'.disk = diskOf on → Served on [] m' → Storage (fsInit inodeJunk blockJunk w').2 m'

/-- The machine has made the first `k` of a call's write requests. The device can be checked, and a
read request returns 0 with the block last written. -/
structure CutSafely (w : World) (c : Call) (k : Nat) (m : Machine) : Prop where
  disk : diskOf m = cutImage w c k
  crashSafe : CrashSafe (imageVolume (diskOf m))
  reads : ∀ n buffer, (Drivers.readBlock n buffer m).1 = 0 ∧
    blockAt (Drivers.readBlock n buffer m).2 buffer = cutImage w c k n

/-- The device holds the disk of the file system, and can serve all calls, safely at every request. -/
structure DeviceKept (w : World) (m : Machine) : Prop where
  powered : Powered w
  disk : diskOf m = w.disk
  serves : ∀ c, ∃ m', Served m (issuedBy w c) m'
  safe : ∀ c, CallFromRoot w c → ∀ k m', Served m ((issuedBy w c).take k) m' → CutSafely w c k m'

section
variable {m m' : Machine} {w : World} {writes : List (BlockNum × Block)} {n : BlockNum} {buffer : Addr}

/-! One request. -/

/-- A world with the device's blocks, to compare the drivers with. -/
theorem exists_world (m : Machine) : ∃ w : World, Healthy w ∧ w.disk = diskOf m :=
  ⟨⟨diskOf m, fun _ => none, fun _ => false, fun _ => false, [], [], [], Superblock.zero, none, none⟩,
    ⟨rfl, rfl, rfl⟩, rfl⟩

theorem readBlock_device (onUfs : OnUfs m) (n : BlockNum) (buffer : Addr) :
    OnUfs (Drivers.readBlock n buffer m).2 ∧ diskOf (Drivers.readBlock n buffer m).2 = diskOf m := by
  obtain ⟨mem, ufs, emmc, sector, word, type⟩ := m
  obtain rfl : type = .ufs := onUfs
  change OnUfs (Drivers.ufsReadBlocks (n.setWidth 64) 1#32 buffer _).2 ∧
    diskOf (Drivers.ufsReadBlocks (n.setWidth 64) 1#32 buffer _).2 = _
  rw [Drivers.ufsRead_one]
  exact ⟨rfl, rfl⟩

theorem readBlock_gives (onUfs : OnUfs m) (n : BlockNum) (buffer : Addr) :
    (Drivers.readBlock n buffer m).1 = 0 ∧ blockAt (Drivers.readBlock n buffer m).2 buffer = diskOf m n := by
  obtain ⟨w, healthy, same⟩ := exists_world m
  have refines := Drivers.ufs_read_refines onUfs same (congrFun healthy.reads 0) n buffer
  rw [readBlock, congrFun healthy.reads 0] at refines
  obtain ⟨status, block⟩ := Prod.mk.inj refines
  rw [← same]
  exact ⟨status.symm, block.symm⟩

theorem writeBlock_device (onUfs : OnUfs m) (n : BlockNum) (off : Drivers.OffDescriptors buffer) :
    OnUfs (Drivers.writeBlock n buffer m).2 ∧
      diskOf (Drivers.writeBlock n buffer m).2 = Function.update (diskOf m) n (blockAt m buffer) := by
  obtain ⟨w, healthy, same⟩ := exists_world m
  have active : m.activeBlockDeviceType ≠ .none := onUfs ▸ by decide
  obtain ⟨_, _, type, _⟩ := Drivers.writeBlock_spec active n buffer
  obtain ⟨_, disk⟩ := Drivers.ufs_write_refines onUfs same (congrFun healthy.writes 0) n buffer (off.keeps m n)
  rw [writeBlock, congrFun healthy.writes 0] at disk
  refine ⟨type.trans onUfs, ?_⟩
  rw [← disk, ← same]
  rfl

/-! Any run of requests. -/

theorem applyWrites_append (disk : BlockNum → Block) (writes later : List (BlockNum × Block)) :
    applyWrites disk (writes ++ later) = applyWrites (applyWrites disk writes) later := List.foldl_append

/-- The device has the written blocks, whatever was read or computed in between. -/
theorem served_device (onUfs : OnUfs m) (served : Served m writes m') :
    OnUfs m' ∧ diskOf m' = applyWrites (diskOf m) writes := by
  induction served with
  | start => exact ⟨onUfs, rfl⟩
  | compute mem _ ih => exact ih
  | read n buffer _ ih =>
      obtain ⟨still, disk⟩ := ih
      obtain ⟨after, same⟩ := readBlock_device still n buffer
      exact ⟨after, same.trans disk⟩
  | write n buffer off _ ih =>
      obtain ⟨still, disk⟩ := ih
      obtain ⟨after, changed⟩ := writeBlock_device still n off
      rw [applyWrites_append, ← disk]
      exact ⟨after, changed⟩

/-- Any writes can be requested: each block is put in a buffer first. -/
theorem exists_served (m : Machine) (writes : List (BlockNum × Block)) : ∃ m', Served m writes m' := by
  induction writes using List.reverseRecOn with
  | nil => exact ⟨m, .start m⟩
  | append_singleton writes last ih =>
      obtain ⟨n, b⟩ := last
      obtain ⟨m', served⟩ := ih
      have filled := served.compute fun x => b.bytes x.toNat
      have block : blockAt { m' with mem := fun x => b.bytes x.toNat } 0#64 = b := by
        refine Eq.trans (Block.ofBytes_congr fun i inside => congrArg b.bytes ?_) b.ofBytes_bytes
        rw [BitVec.zero_add, BitVec.toNat_ofNat]
        omega
      exact ⟨_, block ▸ filled.write n 0#64 (Drivers.offDescriptors_below (by decide))⟩

/-! Any run of the two together. -/

theorem Powered.disk_step (powered : Powered w) (c : Call) : (step w c).disk = applyWrites w.disk (issuedBy w c) := by
  obtain ⟨v, l, shows_, _⟩ := powered_sound powered
  have whole := applyWrites_take v (v.perform c).2 ((v.issueAll (v.perform c).2).length + (v.perform c).2.length)
  rw [List.take_of_length_le (Nat.le_add_right ..), List.take_of_length_le (Nat.le_add_left ..)] at whole
  rw [issuedBy, shows_.issued, List.drop_left, shows_.disk, whole, (shows_.step c).disk]
  rfl

/-- Mounting, also what a cut call has left, does not change the disk. -/
theorem Powered.disk_mount (powered : Powered w) {c : Call} (allowed : CallFromRoot w c) (k : Nat) {w' : World}
    (healthy : Healthy w') (image : w'.disk = cutImage w c k) (inodeJunk blockJunk : Bytes) :
    (fsInit inodeJunk blockJunk w').2.disk = cutImage w c k := by
  obtain ⟨v, l, shows_, ⟨live, blocks, inodes⟩, consistent⟩ := powered_sound powered
  obtain ⟨l', _, mounted, _⟩ := shows_.reboot consistent allowed k healthy image inodeJunk blockJunk
  rw [mounted.disk, shows_.cutImage_eq]

theorem Powered.cut_crashSafe (powered : Powered w) {c : Call} (allowed : CallFromRoot w c) (k : Nat) :
    CrashSafe (imageVolume (cutImage w c k)) := by
  obtain ⟨v, l, shows_, ⟨live, blocks, inodes⟩, consistent⟩ := powered_sound powered
  obtain ⟨member, typed⟩ := shows_.allowed consistent allowed
  obtain ⟨live', track⟩ := track_perform consistent c member typed
  obtain ⟨b', cut⟩ := Always.take track.always k
  rw [shows_.cutImage_eq, cut.synced.image_eq]
  exact Sound.crashSafe ⟨b', cut⟩

/-- The machine follows the file system in every run. -/
theorem storage_follows (storage : Storage w m) : Powered w ∧ OnUfs m ∧ diskOf m = w.disk := by
  induction storage with
  | @mount w w' m m' inodeJunk blockJunk powered onUfs same healthy disk served =>
      have rooted : CallFromRoot w (.lookup 1#32 ⟨[], List.forall_mem_nil _⟩) := ⟨.root, trivial⟩
      have image := disk.trans same
      obtain ⟨after, kept⟩ := served_device onUfs served
      refine ⟨powered.reboot _ 0 inodeJunk blockJunk rooted healthy image, after, ?_⟩
      exact (kept.trans same).trans (powered.disk_mount rooted 0 healthy image inodeJunk blockJunk).symm
  | call c _ allowed served ih =>
      obtain ⟨powered, onUfs, same⟩ := ih
      obtain ⟨after, written⟩ := served_device onUfs served
      refine ⟨.call c powered allowed, after, ?_⟩
      rw [written, same, powered.disk_step]
  | @reboot w w' m off on m' c k inodeJunk blockJunk _ allowed served onUfs device healthy disk quiet ih =>
      obtain ⟨powered, before, same⟩ := ih
      obtain ⟨_, written⟩ := served_device before served
      obtain ⟨after, kept⟩ := served_device onUfs quiet
      have kept : diskOf m' = diskOf on := kept
      have left : diskOf on = cutImage w c k := by
        have alike : diskOf on = diskOf off :=
          congrArg (fun (ufs : Nat → Bytes) (n : BlockNum) => Block.ofBytes (ufs n.toNat)) device
        rw [alike, written, same, cutImage]
      have image := disk.trans left
      refine ⟨powered.reboot c k inodeJunk blockJunk allowed healthy image, after, ?_⟩
      rw [kept, left, powered.disk_mount allowed k healthy image]

end

/-- In every run over the UFS driver the device holds the file system's disk, and wherever a call is
cut it can be checked and read. -/
theorem storage_safe {w : World} {m : Machine} (storage : Storage w m) : DeviceKept w m := by
  obtain ⟨powered, onUfs, same⟩ := storage_follows storage
  refine ⟨powered, same, fun c => exists_served m _, fun c allowed k m' served => ?_⟩
  obtain ⟨after, written⟩ := served_device onUfs served
  have image : diskOf m' = cutImage w c k := by
    rw [written, same]
    rfl
  refine ⟨image, ?_, fun n buffer => ?_⟩
  · rw [image]
    exact powered.cut_crashSafe allowed k
  · obtain ⟨status, block⟩ := readBlock_gives after n buffer
    rw [image] at block
    exact ⟨status, block⟩

/-- A machine with the UFS device active and this disk on it. -/
def machineWith (disk : BlockNum → Block) : Machine where
  mem := fun _ => 0#8
  ufs := fun u => (disk (BitVec.ofNat 32 u)).bytes
  emmc := fun _ _ => 0#8
  emmcSector := 0
  emmcWord := 0
  activeBlockDeviceType := .ufs

theorem diskOf_machineWith (disk : BlockNum → Block) : diskOf (machineWith disk) = disk := by
  funext n
  change Block.ofBytes (disk (BitVec.ofNat 32 n.toNat)).bytes = disk n
  rw [BitVec.ofNat_toNat, BitVec.setWidth_eq, Block.ofBytes_bytes]

/-- A formatted volume is mounted. -/
theorem storage_safe_mounted :
    let w := (fsInit (fun _ => 0) (fun _ => 0) blankWorld).2
    DeviceKept (fsInit (fun _ => 0) (fun _ => 0) (powerCycle w)).2 (machineWith w.disk) := by
  intro w
  obtain ⟨v, l, shows_, _⟩ := fsInit_formats blankWorld_formattable (fun _ => 0) fun _ => 0
  have powered : Powered w := .format (fun _ => 0) (fun _ => 0) blankWorld_formattable
  have onUfs : OnUfs (machineWith w.disk) := rfl
  have device := diskOf_machineWith w.disk
  exact storage_safe (.mount (fun _ => 0) (fun _ => 0) powered onUfs device shows_.healthy.powerCycle
    device.symm (.start _))

end AstralOS.Fs
