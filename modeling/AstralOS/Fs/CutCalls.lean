import AstralOS.Fs.CrashSafety
import AstralOS.Fs.WriteAnywhere

/-! What a call leaves alone, also when power is lost after any of its block writes: the records
and the blocks of all inodes in use but the one it is made on. -/
namespace AstralOS.Fs
open Foundation AstralOS.Lib

/-- The record of the inode and its blocks are as they were. -/
structure Untouched (v v' : Volume) (x : BitVec 32) : Prop where
  record : v'.inode x = v.inode x
  disk : ∀ k, (v.inode x).directBlocks k ≠ 0#32 →
    v'.disk ((v.inode x).directBlocks k) = v.disk ((v.inode x).directBlocks k)

section
variable {v v' : Volume} {b b' : Ledger} {live ids : Set (BitVec 32)} {blocks : Set BlockNum}
  {inodes : Set (BitVec 32)} {id d x : BitVec 32} {us : List Update} {buffer : Bytes} {offset count done : Nat}

theorem Untouched.refl (v : Volume) (x : BitVec 32) : Untouched v v x := ⟨rfl, fun _ _ => rfl⟩

theorem disk_applyAll_spared {n : BlockNum} (low : 6 ≤ n.toNat) (plain : ∀ u ∈ us, u.Plain)
    (spared : ∀ u ∈ us, n ∉ u.data) : (v.applyAll us).disk n = v.disk n := by
  induction us generalizing v with
  | nil => rfl
  | cons u rest ih =>
      obtain ⟨plainU, plain⟩ := List.forall_mem_cons.mp plain
      obtain ⟨sparedU, spared⟩ := List.forall_mem_cons.mp spared
      refine (ih plain spared).trans (Volume.disk_apply u ?_)
      have marked : ∀ y ∈ ({(n, 0)} : Set Place), 6 ≤ y.1.toNat := by
        rintro y rfl
        exact low
      exact issue_unmarked marked plainU (Set.mem_singleton (n, 0)) sparedU

/-- Updates that store neither the record nor a block of the inode, or only some of them. -/
theorem untouched_spared (c : Consistent b v) (member : x ∈ b.live) (plain : ∀ u ∈ us, u.Plain)
    (data : ∀ u ∈ us, ∀ n ∈ u.data, 6 ≤ n.toNat) (records : ∀ u ∈ us, ∀ r, u ≠ .inode x r)
    (spared : ∀ u ∈ us, ∀ i, (v.inode x).directBlocks i ≠ 0#32 → (v.inode x).directBlocks i ∉ u.data)
    (k : Nat) : Untouched v (v.applyAll (us.take k)) x := by
  have part : ∀ u ∈ us.take k, u ∈ us := fun u taken => List.mem_of_mem_take taken
  constructor
  · exact inode_applyAll (c.valid x member) (fun u taken => plain u (part u taken))
      (fun u taken => data u (part u taken)) fun u taken => records u (part u taken)
  · intro i used
    have low := (c.range x member i used).1
    exact disk_applyAll_spared (by omega) (fun u taken => plain u (part u taken))
      fun u taken => spared u (part u taken) i used

/-- The updates store blocks of one inode of a consistent volume, and records of a few inodes. -/
structure StoresFor (v : Volume) (us : List Update) (d : BitVec 32) (ids : Set (BitVec 32)) : Prop where
  plain : ∀ u ∈ us, u.Plain
  records : StoresOnly us ids
  data : ∀ u ∈ us, ∀ n ∈ u.data, n ≠ 0#32 ∧ ∃ k, (v.inode d).directBlocks k = n

theorem StoresFor.nil (v : Volume) (d : BitVec 32) (ids : Set (BitVec 32)) : StoresFor v [] d ids :=
  ⟨List.forall_mem_nil _, storesOnly_nil, List.forall_mem_nil _⟩

theorem StoresFor.range (stores : StoresFor v us d ids) (c : Consistent b v) (member : d ∈ b.live) :
    ∀ u ∈ us, ∀ n ∈ u.data, 6 ≤ n.toNat := by
  intro u memberU n stored
  obtain ⟨used, k, rfl⟩ := stores.data u memberU n stored
  have low := (c.range d member k used).1
  omega

theorem StoresFor.record (stores : StoresFor v' us d ids) (c' : Consistent b' v') (member : d ∈ b'.live)
    (valid : ValidId x) (other : x ∉ ids) : (v.applyAll us).inode x = v.inode x := by
  refine inode_applyAll valid stores.plain (stores.range c' member) fun u memberU r same => ?_
  exact other (stores.records u memberU x r same)

/-- No prefix of the updates touches another inode of that volume. -/
theorem StoresFor.untouched (stores : StoresFor v' us d ids) (c : Consistent b v) (memberX : x ∈ b.live)
    (c' : Consistent b' v') (member : d ∈ b'.live) (memberX' : x ∈ b'.live) (same : v'.inode x = v.inode x)
    (apart : x ≠ d) (other : x ∉ ids) (k : Nat) : Untouched v (v.applyAll (us.take k)) x := by
  refine untouched_spared c memberX stores.plain (stores.range c' member) ?_ ?_ k
  · intro u memberU r store
    exact other (stores.records u memberU x r store)
  · intro u memberU i used stored
    obtain ⟨_, j, block⟩ := stores.data u memberU _ stored
    rw [← same] at used block
    exact apart (c'.single x memberX' d member i j used block.symm).1

/-! The updates of each call. -/

theorem storesFor_create (c : Consistent ⟨live, blocks, inodes⟩ v) (member : d ∈ live) (name : CString)
    {type : BitVec 16} (kind : type = fsInodeTypeFile ∨ type = fsInodeTypeDir) (padding : Bytes) :
    StoresFor (v.applyAll (v.create d name type padding).2) (v.create d name type padding).2 d
      {d, (v.create d name type padding).1} := by
  obtain ⟨_, edit, _⟩ := directoryEdit_create c member name kind padding
  refine ⟨edit.plain, stores_create v d name type padding, fun u memberU n stored => ?_⟩
  exact (edit.stored u memberU n stored).2

/-- A deletion is refused, or removes the entry it finds. -/
theorem delete_removes (c : Consistent b v) (member : d ∈ b.live) (name : CString) :
    v.delete d name = (-1, []) ∨
      ∃ k j, strlen name ≤ fsMaxFilenameLen ∧ isDir (v.inode d) ∧ v.find (v.inode d) name indices = some (k, j) ∧
        v.delete d name = (0, removal v d k j (entryId (v.disk ((v.inode d).directBlocks k)) j)) := by
  by_cases long : fsMaxFilenameLen < strlen name
  · refine .inl ?_
    rw [Volume.delete, if_pos long]
  by_cases missing : isDir (v.inode d) → v.find (v.inode d) name indices = none
  · exact .inl (delete_missing missing)
  push Not at missing
  obtain ⟨dir, found⟩ := missing
  obtain ⟨⟨k, j⟩, found⟩ := Option.ne_none_iff_exists'.mp found
  exact .inr ⟨k, j, Nat.le_of_not_lt long, dir, found, delete_found c member long dir found⟩

/-- The only block a removal stores is one of the directory. -/
theorem storesFor_delete (c : Consistent ⟨live, blocks, inodes⟩ v) (member : d ∈ live) (name : CString) :
    StoresFor v (v.delete d name).2 d {d} := by
  obtain ⟨_, edit, _⟩ := directoryEdit_delete c member name
  refine ⟨edit.plain, stores_delete v d name, ?_⟩
  rcases delete_removes c member name with refused | ⟨k, j, _, dir, found, done⟩
  · rw [refused]
    exact List.forall_mem_nil _
  rw [done, removal]
  intro u memberU n stored
  rcases List.mem_append.mp memberU with unlinks | frees
  · rcases List.mem_cons.mp unlinks with rfl | records
    · obtain rfl : n = (v.inode d).directBlocks k := stored
      exact ⟨(holds_of_find dir found).used, k, rfl⟩
    · rw [List.mem_singleton.mp records] at stored
      exact absurd stored (Set.notMem_empty n)
  · have bits : ∃ i set, u = .inodeBit i set ∨ u = .blockBit i set := by
      rcases List.mem_append.mp frees with released | cleared
      · exact release_bits _ _ u released
      · exact ⟨_, _, .inl (List.mem_singleton.mp cleared)⟩
    obtain ⟨i, set, rfl | rfl⟩ := bits
    · exact absurd stored (Set.notMem_empty n)
    · exact absurd stored (Set.notMem_empty n)

/-- The loop stores blocks that its file then has. -/
theorem writeFrom_data (buffer : Bytes) (offset count : Nat) (inode : Inode) (done : Nat)
    (c : Consistent ⟨live, blocks, inodes⟩ v) (member : id ∈ live) (file : isFile (v.inode id))
    (cached : v.inode id = inode) :
    ∀ u ∈ (v.writeFrom id buffer offset count inode done).2.2, u.Plain ∧ ∀ n ∈ u.data, n ≠ 0#32 ∧
      ∃ k, (v.writeFrom id buffer offset count inode done).1.directBlocks k = n := by
  induction v, inode, done using Volume.writeFrom.induct id buffer offset count with
  | case1 v inode done more index full =>
      rw [Volume.writeFrom, dif_pos more, dif_pos index, full]
      exact List.forall_mem_nil _
  | case2 v inode done more index n owner us found u ih =>
      subst cached
      obtain ⟨_, filled, ownerFile, record⟩ := track_iteration c member file found
        (((v.applyAll us).disk n).patch (blockOffset offset done) (chunk offset count done) (buffer.drop done))
      obtain ⟨_, _, block, nonzero, _⟩ := track_target c member file found
      obtain ⟨plain, noData⟩ := target_updates found (c.valid id member)
      obtain ⟨kept, _⟩ := writeFrom_reaches buffer offset count owner _ filled member ownerFile record
      rw [writeFrom_turn more index found]
      dsimp only
      refine List.forall_mem_append.mpr ⟨fun w targets => ⟨plain w targets, fun m stored => ?_⟩,
        List.forall_mem_cons.mpr ⟨⟨trivial, fun m stored => ?_⟩, ih filled ownerFile record⟩⟩
      · rw [noData w targets] at stored
        exact absurd stored (Set.notMem_empty m)
      · obtain rfl : m = n := stored
        exact ⟨nonzero, _, (kept _ (block ▸ nonzero)).trans block⟩
  | case3 v inode done more beyond =>
      rw [Volume.writeFrom, dif_pos more, dif_neg beyond]
      exact List.forall_mem_nil _
  | case4 v inode done finished =>
      rw [Volume.writeFrom, dif_neg finished]
      exact List.forall_mem_nil _

theorem storesFor_write (c : Consistent ⟨live, blocks, inodes⟩ v) (member : id ∈ live) (offset : BitVec 64)
    (buffer : Bytes) (count : BitVec 64) : StoresFor (v.applyAll (v.write id offset buffer count).2)
      (v.write id offset buffer count).2 id {id} := by
  have valid := c.valid id member
  by_cases file : isFile (v.inode id)
  · obtain ⟨_, record⟩ := track_writeFrom buffer offset.toNat count.toNat (v.inode id) 0 c member file rfl
    have written := writeFrom_data buffer offset.toNat count.toNat (v.inode id) 0 c member file rfl
    have records := stores_write v id offset buffer count
    rw [applyAll_write valid file]
    rw [Volume.write, Volume.openAs_some valid file] at records ⊢
    dsimp only at records ⊢
    set r := v.writeFrom id buffer offset.toNat count.toNat (v.inode id) 0
    have extended : (((v.applyAll r.2.2).applyAll
        (Volume.extend id r.1 (offset + BitVec.ofNat 64 r.2.1))).inode id).directBlocks = r.1.directBlocks := by
      unfold Volume.extend
      split
      · have own : ∀ r', ((v.applyAll r.2.2).apply (.inode id r')).inode id = r' :=
          fun r' => Volume.inode_inode_same valid
        have sized := congrArg Inode.directBlocks (own { r.1 with size := offset + BitVec.ofNat 64 r.2.1 })
        exact sized
      · exact congrArg Inode.directBlocks record
    have ends : ∀ u ∈ Volume.extend id r.1 (offset + BitVec.ofNat 64 r.2.1), u.Plain ∧ u.data = ∅ := by
      unfold Volume.extend
      split
      · exact List.forall_mem_singleton.mpr ⟨valid, rfl⟩
      · exact List.forall_mem_nil _
    refine ⟨List.forall_mem_append.mpr ⟨fun u memberU => (written u memberU).1, fun u memberU => (ends u memberU).1⟩,
      records, List.forall_mem_append.mpr ⟨fun u memberU n stored => ?_, fun u memberU n stored => ?_⟩⟩
    · rw [extended]
      exact (written u memberU).2 n stored
    · rw [(ends u memberU).2] at stored
      exact absurd stored (Set.notMem_empty n)
  · rw [Volume.write, Volume.openAs_none file]
    exact .nil _ _ _

/-- After every block write of a call, the inodes in use are untouched but for its own. -/
theorem perform_untouched (c : Consistent ⟨live, blocks, inodes⟩ v) (call : Call) (member : call.inode ∈ live)
    (typed : call.Typed) (memberX : x ∈ live) (other : x ≠ call.inode) (k : Nat) :
    Untouched v (v.applyAll ((v.perform call).2.take k)) x := by
  have valid := c.valid x memberX
  cases call with
  | create d name type padding =>
      have member : d ∈ live := member
      rcases create_cases (c.valid d member) name type padding with ⟨_, refused⟩ | ⟨i, ⟨_, _, _, found⟩, number, done⟩
      · have nothing : (v.perform (.create d name type padding)).2 = [] := congrArg Prod.snd refused
        rw [nothing, List.take_nil]
        exact .refl v x
      have result : (v.create d name type padding).1 = BitVec.ofNat 32 (i + 1) := congrArg Prod.fst done
      have old : x ∉ ({d, (v.create d name type padding).1} : Set (BitVec 32)) := by
        rintro (self | made)
        · exact other self
        · exact c.fresh_inode found (result ▸ made ▸ memberX)
      obtain ⟨live', track, _, grown⟩ := track_create c member name typed padding
      obtain rfl := grown (by rwa [result])
      have stores := storesFor_create c member name typed padding
      exact stores.untouched c memberX track.final (.inr member) (.inr memberX)
        (stores.record track.final (.inr member) valid old) other old k
  | delete d name =>
      have stores := storesFor_delete c member name
      exact stores.untouched c memberX c member memberX rfl other other k
  | lookup d name => exact (List.take_nil (i := k)).symm ▸ .refl v x
  | read id offset count => exact (List.take_nil (i := k)).symm ▸ .refl v x
  | write id offset buffer count =>
      have stores := storesFor_write c member offset buffer count
      have after := (track_write c member offset buffer count).final
      exact stores.untouched c memberX after member memberX (stores.record after member valid other) other other k

/-! The world after the power comes back. -/

theorem Shows.allowed {w : World} {l : List Ptr} (shows_ : Shows v l w) (c : Consistent b v) {call : Call}
    (allowed : CallFromRoot w call) : call.inode ∈ b.live ∧ call.Typed := by
  obtain ⟨reached, typed⟩ := allowed
  rw [shows_.disk, c.synced.image_eq] at reached
  exact ⟨c.fromRoot reached, typed⟩

/-- It shows the volume as the block writes of the cut call left it. -/
theorem Shows.reboot {w w' : World} {l : List Ptr} (shows_ : Shows v l w)
    (c : Consistent ⟨live, blocks, inodes⟩ v) {call : Call} (allowed : CallFromRoot w call) (k : Nat)
    (healthy : Healthy w') (image : w'.disk = cutImage w call k) (inodeJunk blockJunk : Bytes) :
    ∃ l' b', Shows (v.applyAll ((v.perform call).2.take k)) l' (fsInit inodeJunk blockJunk w').2 ∧
      Consistent b' (v.applyAll ((v.perform call).2.take k)) := by
  obtain ⟨member, typed⟩ := shows_.allowed c allowed
  obtain ⟨live', track⟩ := track_perform c call member typed
  obtain ⟨b', cut⟩ := Always.take track.always k
  rw [shows_.cutImage_eq] at image
  have layout := cut.synced.layout
  rw [← image] at layout
  obtain ⟨l', mounted⟩ := fsInit_mounts healthy layout inodeJunk blockJunk
  have same := cut.synced.image_eq
  rw [← image, imageVolume] at same
  rw [same] at mounted
  exact ⟨l', b', mounted, cut⟩

end
theorem Healthy.powerCycle {w : World} (healthy : Healthy w) : Healthy (powerCycle w) :=
  ⟨healthy.reads, healthy.writes, healthy.kmallocs⟩

/-- The machine off, after the first `k` block writes of a call. -/
def cutPower (w : World) (c : Call) (k : Nat) : World := { powerCycle w with disk := cutImage w c k }

theorem Healthy.cutPower {w : World} (healthy : Healthy w) (c : Call) (k : Nat) : Healthy (cutPower w c k) :=
  ⟨healthy.reads, healthy.writes, healthy.kmallocs⟩

theorem cutPower_disk (w : World) (c : Call) (k : Nat) : (cutPower w c k).disk = cutImage w c k := rfl

end AstralOS.Fs
