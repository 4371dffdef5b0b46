import AstralOS.Fs.Ownership

/-! Crash consistency: whatever single write a run is cut after, the device image it leaves
is a sound file system, and mounting it goes on from there. -/
namespace AstralOS.Fs
open Foundation

/-- What a mount of this image would work on. -/
def imageVolume (disk : BlockNum → Block) : Volume := ⟨disk, disk 1#32, disk 2#32⟩

/-- The image after block writes. -/
def applyWrites (disk : BlockNum → Block) (writes : List (BlockNum × Block)) : BlockNum → Block :=
  writes.foldl (fun d write => Function.update d write.1 write.2) disk

/-- The block writes a call issues. -/
def issuedBy (w : World) (c : Call) : List (BlockNum × Block) :=
  (step w c).issued.drop w.issued.length

/-- The image when power is lost after the first `k` writes of a call. -/
def cutImage (w : World) (c : Call) (k : Nat) : BlockNum → Block :=
  applyWrites w.disk ((issuedBy w c).take k)

/-- A call on an inode reachable from the root. -/
def CallFromRoot (w : World) (c : Call) : Prop := FromRoot (imageVolume w.disk) c.inode ∧ c.Typed

/-- The worlds between two calls of a run that may lose power after any write of any call:
memory is lost, the image stays, and `fs_init` mounts it. -/
inductive Powered : World → Prop
  | format {w : World} {buffer : Block} (inodeJunk blockJunk : Bytes) : Formattable w buffer →
      Powered (fsInit inodeJunk blockJunk w).2
  | call {w : World} (c : Call) : Powered w → CallFromRoot w c → Powered (step w c)
  | reboot {w w' : World} (c : Call) (k : Nat) (inodeJunk blockJunk : Bytes) : Powered w →
      CallFromRoot w c → Healthy w' → w'.disk = cutImage w c k →
      Powered (fsInit inodeJunk blockJunk w').2

/-- What the check after an unclean reboot looks for. -/
structure CrashSafe (v : Volume) : Prop where
  entries : ∀ d, FromRoot v d → ∀ k j id, Holds v d k j id →
    ValidId id ∧ v.ibit (id.toNat - 1) = true
  marked : ∀ id, FromRoot v id → ∀ k, (v.inode id).directBlocks k ≠ 0#32 →
    v.bbit (((v.inode id).directBlocks k).toNat - 1) = true
  once : ∀ id, FromRoot v id → ∀ other, FromRoot v other → ∀ k k',
    (v.inode id).directBlocks k ≠ 0#32 →
    (v.inode id).directBlocks k = (v.inode other).directBlocks k' → id = other ∧ k = k'
  noMetadata : ∀ id, FromRoot v id → ∀ k, (v.inode id).directBlocks k ≠ 0#32 →
    6 ≤ ((v.inode id).directBlocks k).toNat

section
variable {v : Volume} {b : Ledger} {l : List Ptr} {w : World} {us : List Update} {c : Call}

theorem Sound.crashSafe (sound : Sound v) : CrashSafe v := by
  obtain ⟨b, c⟩ := sound
  refine ⟨fun d reached k j id held => ?_, fun id reached => c.taken id (c.fromRoot reached),
    fun id reached other reached' =>
      c.single id (c.fromRoot reached) other (c.fromRoot reached'), fun id reached k used => ?_⟩
  · have member := (c.names d (c.fromRoot reached) k j id held).1
    exact ⟨c.valid id member, c.marked id member⟩
  · have := (c.range id (c.fromRoot reached) k used).1
    omega

theorem Volume.Synced.image_eq (synced : v.Synced) : imageVolume v.disk = v := by
  rw [imageVolume, synced.inodes, synced.blocks]

theorem Sound.synced (sound : Sound v) : v.Synced := by
  obtain ⟨b, c⟩ := sound
  exact c.synced

/-- The first `k` block writes of a list of updates are the writes of its first `k` updates. -/
theorem applyWrites_take (v : Volume) (us : List Update) (k : Nat) :
    applyWrites v.disk ((v.issueAll us).take k) = (v.applyAll (us.take k)).disk := by
  induction us generalizing v k with
  | nil => simp [Volume.issueAll, applyWrites]
  | cons u rest ih =>
      cases k with
      | zero => rfl
      | succ k => exact ih (v.apply u) k

theorem Always.take {P : Volume → Prop} (h : Always Volume.apply P v us) (k : Nat) :
    P (v.applyAll (us.take k)) := by
  induction us generalizing v k with
  | nil =>
      rw [List.take_nil]
      exact h
  | cons u rest ih =>
      cases k with
      | zero => exact h.1
      | succ k => exact ih h.2 k

theorem Shows.cutImage_eq (shows_ : Shows v l w) (c : Call) (k : Nat) :
    cutImage w c k = (v.applyAll ((v.perform c).2.take k)).disk := by
  rw [cutImage, issuedBy, shows_.issued, List.drop_left, shows_.disk, applyWrites_take]

/-- The world between two calls of a run with power cuts shows a sound volume. -/
theorem powered_sound (powered : Powered w) : ∃ v l, Shows v l w ∧ Sound v := by
  have tracks : ∀ {w : World} {v : Volume} {l : List Ptr} {c : Call}, Shows v l w → Sound v →
      CallFromRoot w c → Always Volume.apply Sound v (v.perform c).2 := by
    intro w v l c shows_ sound allowed
    obtain ⟨b, consistent⟩ := sound
    have reached := allowed.1
    rw [shows_.disk, consistent.synced.image_eq] at reached
    obtain ⟨live', track⟩ := track_perform consistent c (consistent.fromRoot reached) allowed.2
    exact track.always
  induction powered with
  | format inodeJunk blockJunk formattable =>
      obtain ⟨v, l, shows_, fresh, _⟩ := fsInit_formats formattable inodeJunk blockJunk
      exact ⟨v, l, shows_, _, fresh.consistent⟩
  | call c _ allowed ih =>
      obtain ⟨v, l, shows_, sound⟩ := ih
      exact ⟨v.step c, l, shows_.step c, (tracks shows_ sound allowed).last⟩
  | reboot c k inodeJunk blockJunk _ allowed healthy image ih =>
      obtain ⟨v, l, shows_, sound⟩ := ih
      have cut := Always.take (tracks shows_ sound allowed) k
      rw [shows_.cutImage_eq] at image
      have layout := cut.synced.layout
      rw [← image] at layout
      obtain ⟨l', mounted⟩ := fsInit_mounts healthy layout inodeJunk blockJunk
      refine ⟨_, l', mounted, ?_⟩
      have same := cut.synced.image_eq
      rw [← image] at same
      rw [imageVolume] at same
      rw [same]
      exact cut

end

/-- Between two calls, and at every point inside a call where power may be lost, the image
passes the check. -/
theorem crash_consistency {w : World} (powered : Powered w) :
    CrashSafe (imageVolume w.disk) ∧
      ∀ c, CallFromRoot w c → ∀ k, CrashSafe (imageVolume (cutImage w c k)) := by
  obtain ⟨v, l, shows_, sound⟩ := powered_sound powered
  constructor
  · rw [shows_.disk, sound.synced.image_eq]
    exact sound.crashSafe
  · intro c allowed k
    obtain ⟨b, consistent⟩ := sound
    have reached := allowed.1
    rw [shows_.disk, consistent.synced.image_eq] at reached
    obtain ⟨live', track⟩ := track_perform consistent c (consistent.fromRoot reached) allowed.2
    have cut := Always.take track.always k
    rw [shows_.cutImage_eq, cut.synced.image_eq]
    exact cut.crashSafe

theorem crash_consistency_blank :
    CrashSafe (imageVolume (fsInit (fun _ => 0) (fun _ => 0) blankWorld).2.disk) ∧
      ∀ c, CallFromRoot (fsInit (fun _ => 0) (fun _ => 0) blankWorld).2 c → ∀ k,
        CrashSafe (imageVolume (cutImage (fsInit (fun _ => 0) (fun _ => 0) blankWorld).2 c k)) :=
  crash_consistency (.format (fun _ => 0) (fun _ => 0) blankWorld_formattable)

end AstralOS.Fs
