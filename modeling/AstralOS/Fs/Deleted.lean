import AstralOS.Fs.Rejected
import AstralOS.Fs.WriteExtent

/-! Calls on an inode that was removed: its record and the blocks it lists stay readable. -/
namespace AstralOS.Fs
open Foundation AstralOS.Lib

/-- The world after a call, and the inodes that were removed and not made again. -/
def bury (s : World × Set (BitVec 32)) (c : Call) : World × Set (BitVec 32) :=
  (step s.1 c, match c with
    | .delete d name => if (fsDelete d name s.1).1 = 0 then insert (fsLookup d name s.1).1 s.2 else s.2
    | .create d name type padding => s.2 \ {(fsCreate d name type padding s.1).1}
    | _ => s.2)

/-- The call is made on an inode in use or on one that was removed. -/
def CallKnown (s : World × Set (BitVec 32)) (c : Call) : Prop :=
  (InodeInUse s.1 c.inode ∨ c.inode ∈ s.2) ∧ c.Typed

/-- The call fails and changes nothing. -/
structure Dead (w : World) (c : Call) : Prop where
  value : (c.perform w).1.1 = c.failure
  unchanged : Unchanged w (step w c)

/-- The blocks of the record hold an entry of this name. -/
structure Lists (r : Inode) (disk : BlockNum → Block) (name : CString) : Prop where
  dir : isDir r
  short : strlen name ≤ fsMaxFilenameLen
  entry : ∃ k, r.directBlocks k ≠ 0#32 ∧ ∃ j < entriesPerBlock, Names (disk (r.directBlocks k)) j name

/-- What the record left of an inode and the blocks it lists do not let a call do. -/
def Harmless (r : Inode) (disk : BlockNum → Block) : Call → Prop
  | .read .. => ¬ isFile r
  | .write .. => ¬ isFile r
  | .lookup _ name => ¬ Lists r disk name
  | .delete _ name => ¬ Lists r disk name
  | .create _ name _ _ => isDir r → strlen name ≤ fsMaxFilenameLen → Lists r disk name

section
variable {v : Volume} {l : List Ptr} {w : World} {live : Set (BitVec 32)} {x d : BitVec 32}
  {name : CString} {inode : Inode} {buffer : Bytes} {offset count done : Nat}

/-! A directory record lists a name if and only if the search finds it. -/

theorem lists_iff : Lists (v.inode x) v.disk name ↔
    isDir (v.inode x) ∧ strlen name ≤ fsMaxFilenameLen ∧ v.find (v.inode x) name indices ≠ none := by
  have found : v.find (v.inode x) name indices ≠ none ↔ ∃ k, (v.inode x).directBlocks k ≠ 0#32 ∧
      ∃ j < entriesPerBlock, Names (v.disk ((v.inode x).directBlocks k)) j name := by
    rw [ne_eq, find_none]
    push Not
    exact exists_congr fun k => and_iff_right (mem_indices k)
  rw [found]
  constructor
  · intro lists
    exact ⟨lists.dir, lists.short, lists.entry⟩
  · rintro ⟨dir, short, entry⟩
    exact ⟨dir, short, entry⟩

theorem lookup_listed (valid : ValidId x) (listed : Lists (v.inode x) v.disk name) :
    v.lookup x name ≠ 0#32 := by
  obtain ⟨dir, short, found⟩ := lists_iff.mp listed
  obtain ⟨place, found⟩ := Option.ne_none_iff_exists'.mp found
  obtain ⟨k, j⟩ := place
  rw [lookup_of_find (Nat.not_lt.mpr short) (Volume.openAs_some valid dir) found]
  exact (find_some found).2.2.2.1

theorem lookup_unlisted (unlisted : ¬ Lists (v.inode x) v.disk name) : v.lookup x name = 0#32 := by
  rw [Volume.lookup]
  by_cases long : fsMaxFilenameLen < strlen name
  · rw [if_pos long]
  rw [if_neg long]
  cases opened : v.openAs isDir x with
  | none => rfl
  | some dir =>
      obtain ⟨_, isDirectory, rfl⟩ := Volume.openAs_valid opened
      have missing : v.find (v.inode x) name indices = none :=
        by_contra fun found => unlisted (lists_iff.mpr ⟨isDirectory, Nat.not_lt.mp long, found⟩)
      dsimp only
      rw [missing]

theorem delete_unlisted (unlisted : ¬ Lists (v.inode x) v.disk name) : v.delete x name = (-1, []) := by
  by_cases long : fsMaxFilenameLen < strlen name
  · rw [Volume.delete, if_pos long]
  · exact delete_missing fun dir =>
      by_contra fun found => unlisted (lists_iff.mpr ⟨dir, Nat.not_lt.mp long, found⟩)

/-- Removing a listed entry clears it on the disk, whether or not the number in it is valid. -/
theorem delete_listed (valid : ValidId x) (clear : NoMetadata (v.inode x))
    (listed : Lists (v.inode x) v.disk name) :
    (v.delete x name).1 = 0 ∨ (v.applyAll (v.delete x name).2).disk ≠ v.disk := by
  obtain ⟨dir, short, found⟩ := lists_iff.mp listed
  obtain ⟨place, found⟩ := Option.ne_none_iff_exists'.mp found
  obtain ⟨k, j⟩ := place
  obtain ⟨_, used, slot, named⟩ := find_some found
  have data := (clear k).resolve_left used
  rw [Volume.delete, if_neg (Nat.not_lt.mpr short), Volume.openAs_some valid dir]
  dsimp only
  rw [found]
  dsimp only
  by_cases invalid : entryId (v.disk ((v.inode x).directBlocks k)) j = 0#32 ∨
      128#32 < entryId (v.disk ((v.inode x).directBlocks k)) j
  · rw [if_pos invalid]
    refine .inr fun same => named.1 ?_
    have cleared : (v.applyAll (v.unlink x (v.inode x) k j)).disk ((v.inode x).directBlocks k) =
        clearEntry (v.disk ((v.inode x).directBlocks k)) j :=
      (Volume.disk_inode valid data).trans Volume.disk_block
    have entry := congrArg (fun b => entryId b j) (cleared.symm.trans (congrFun same _))
    exact entry.symm.trans (entryId_clear_same _ slot)
  · rw [if_neg invalid]
    exact .inl rfl

/-- There is an inode to be made as long as this one is not in use. -/
theorem create_unlisted (valid : ValidId x) (unused : v.ibit (x.toNat - 1) = false) (dir : isDir (v.inode x))
    (short : strlen name ≤ fsMaxFilenameLen) (unlisted : ¬ Lists (v.inode x) v.disk name)
    (type : BitVec 16) (padding : Bytes) : (v.create x name type padding).1 ≠ 0#32 := by
  have small : x.toNat - 1 < 128 := by
    have := valid.2
    omega
  have some_ := Volume.unusedInode_of_clear small unused
  obtain ⟨i, found⟩ := Option.ne_none_iff_exists'.mp some_
  have small := (Volume.unusedInode_some found).1
  rw [create_done valid dir short (lookup_unlisted unlisted) found]
  exact ofNat_succ_ne_zero (by omega)

/-! A file record takes reads and writes, whoever owns its blocks by now. -/

theorem within_chunk {last : Nat} (more : done < count) (index : blockIndex offset done < 10)
    (later : done + chunk offset count done ≤ last)
    (within : last = done + chunk offset count done ∨
      (offset + (done + chunk offset count done)) % 2 ^ 44 + (last - (done + chunk offset count done)) ≤
        maxFileSize) : (offset + done) % 2 ^ 44 + (last - done) ≤ maxFileSize := by
  have fits := chunk_fits offset count done
  have positive := chunk_pos offset more
  rw [blockIndex, fsBlockSize] at index
  rw [blockOffset, fsBlockSize] at fits
  rw [maxFileSize, fsBlockSize] at within ⊢
  omega

theorem writeFrom_within (v : Volume) (id : BitVec 32) (buffer : Bytes) (offset count : Nat)
    (inode : Inode) (done : Nat) :
    (v.writeFrom id buffer offset count inode done).2.1 = done ∨ (offset + done) % 2 ^ 44 +
      ((v.writeFrom id buffer offset count inode done).2.1 - done) ≤ maxFileSize := by
  induction v, inode, done using Volume.writeFrom.induct id buffer offset count with
  | case1 v inode done more index full =>
      rw [Volume.writeFrom, dif_pos more, dif_pos index, full]
      exact .inl rfl
  | case2 v inode done more index n owner us found u ih =>
      rw [Volume.writeFrom, dif_pos more, dif_pos index, found]
      exact .inr (within_chunk more index (writeFrom_size _ id buffer offset count owner _).2 ih)
  | case3 v inode done more beyond =>
      rw [Volume.writeFrom, dif_pos more, dif_neg beyond]
      exact .inl rfl
  | case4 v inode done finished =>
      rw [Volume.writeFrom, dif_neg finished]
      exact .inl rfl

theorem write_accepted (valid : ValidId x) (file : isFile (v.inode x)) (offset : BitVec 64) (buffer : Bytes)
    (count : BitVec 64) : 0 ≤ (v.write x offset buffer count).1 := by
  rw [Volume.write, Volume.openAs_some valid file]
  dsimp only
  have within := writeFrom_within v x buffer offset.toNat count.toNat (v.inode x) 0
  rw [toInt_eq (by omega)]
  exact Int.natCast_nonneg _

theorem read_accepted (valid : ValidId x) (file : isFile (v.inode x)) (offset count : BitVec 64) :
    0 ≤ (v.read x offset count).1 := by
  obtain ⟨last, _, result, _⟩ := @read_extends v x offset count valid file
  rw [result]
  exact Int.natCast_nonneg last

/-! A call on an inode that is not in use. -/

/-- A harmless call fails and stores nothing. -/
theorem harmless_idle {c : Call} (harmless : Harmless (v.inode c.inode) v.disk c)
    (valid : ValidId c.inode) : (v.perform c).1.1 = c.failure ∧ (v.perform c).2 = [] := by
  cases c with
  | create d name type padding =>
      have refused : fsMaxFilenameLen < strlen name ∨ ¬ isDir (v.inode d) ∨ v.lookup d name ≠ 0#32 ∨
          v.unusedInode = none := by
        by_cases long : fsMaxFilenameLen < strlen name
        · exact .inl long
        by_cases dir : isDir (v.inode d)
        · exact .inr (.inr (.inl (lookup_listed valid (harmless dir (Nat.not_lt.mp long)))))
        · exact .inr (.inl dir)
      rw [Volume.perform, create_refused refused]
      exact ⟨rfl, rfl⟩
  | delete d name =>
      have harmless : ¬ Lists (v.inode d) v.disk name := harmless
      rw [Volume.perform, delete_unlisted harmless]
      exact ⟨rfl, rfl⟩
  | lookup d name =>
      have harmless : ¬ Lists (v.inode d) v.disk name := harmless
      rw [Volume.perform, lookup_unlisted harmless]
      exact ⟨rfl, rfl⟩
  | read id offset count =>
      have harmless : ¬ isFile (v.inode id) := harmless
      rw [Volume.perform, Volume.read, Volume.openAs_none harmless]
      exact ⟨rfl, rfl⟩
  | write id offset buffer count =>
      have harmless : ¬ isFile (v.inode id) := harmless
      rw [Volume.perform, Volume.write, Volume.openAs_none harmless]
      exact ⟨rfl, rfl⟩

/-- A call that fails and leaves the disk alone is harmless. -/
theorem harmless_of_idle {c : Call} (valid : ValidId c.inode) (unused : v.ibit (c.inode.toNat - 1) = false)
    (clear : NoMetadata (v.inode c.inode)) (fails : (v.perform c).1.1 = c.failure)
    (still : (v.applyAll (v.perform c).2).disk = v.disk) : Harmless (v.inode c.inode) v.disk c := by
  cases c with
  | create d name type padding =>
      intro dir short
      by_contra unlisted
      have fails : (((v.create d name type padding).1.toNat : Nat) : Int) = 0 := fails
      exact create_unlisted valid unused dir short unlisted type padding
        (BitVec.eq_of_toNat_eq (Int.ofNat_inj.mp fails))
  | delete d name =>
      intro listed
      have effect : (v.delete d name).1 = 0 ∨ (v.applyAll (v.delete d name).2).disk ≠ v.disk :=
        delete_listed valid clear listed
      rcases effect with done | changed
      · have fails : (v.delete d name).1 = -1 := fails
        omega
      · exact changed still
  | lookup d name =>
      intro listed
      have fails : ((v.lookup d name).toNat : Int) = 0 := fails
      exact lookup_listed valid listed (BitVec.eq_of_toNat_eq (Int.ofNat_inj.mp fails))
  | read id offset count =>
      intro file
      have accepted : 0 ≤ (v.read id offset count).1 := read_accepted valid file offset count
      have fails : (v.read id offset count).1 = -1 := fails
      omega
  | write id offset buffer count =>
      intro file
      have accepted : 0 ≤ (v.write id offset buffer count).1 := write_accepted valid file offset buffer count
      have fails : (v.write id offset buffer count).1 = -1 := fails
      omega

theorem dead_iff (shows_ : Shows v l w) {c : Call} (valid : ValidId c.inode)
    (unused : ¬ InodeInUse w c.inode) (clear : NoMetadata (v.inode c.inode)) :
    Dead w c ↔ Harmless (storedInode w c.inode) w.disk c := by
  have unused : v.ibit (c.inode.toNat - 1) = false := by
    rw [shows_.inodeInUse_iff] at unused
    exact Bool.eq_false_of_not_eq_true fun set => unused ⟨valid, set⟩
  rw [shows_.storedInode, shows_.disk]
  constructor
  · intro dead
    refine harmless_of_idle valid unused clear ?_ ?_
    · rw [← shows_.result]
      exact dead.value
    · have still := dead.unchanged.disk
      rw [(shows_.step c).disk, shows_.disk] at still
      exact still
  · intro harmless
    obtain ⟨fails, nothing⟩ := harmless_idle harmless valid
    refine ⟨?_, shows_.unchanged c nothing⟩
    rw [shows_.result]
    exact fails

/-! What a call on an inode in use does to the inodes that are not. -/

/-- The removed inode is no longer live, and every record lists the blocks it did. -/
theorem delete_cases (c : Consistent ⟨live, ∅, ∅⟩ v) (member : d ∈ live) (name : CString) :
    v.delete d name = (-1, []) ∨ ((v.delete d name).1 = 0 ∧ v.lookup d name ∈ live ∧
      Consistent ⟨live \ {v.lookup d name}, ∅, ∅⟩ (v.step (.delete d name)) ∧
      ∀ x ∈ live, ((v.step (.delete d name)).inode x).directBlocks = (v.inode x).directBlocks) := by
  by_cases listed : Lists (v.inode d) v.disk name
  · obtain ⟨dir, short, found⟩ := lists_iff.mp listed
    obtain ⟨place, found⟩ := Option.ne_none_iff_exists'.mp found
    obtain ⟨k, j⟩ := place
    have long := Nat.not_lt.mpr short
    have held := holds_of_find dir found
    have memberId := (c.names d member k j _ held).1
    have deleted := delete_found c member long dir found
    rw [← lookup_of_find long (Volume.openAs_some (c.valid d member) dir) found] at held memberId deleted
    have removed : v.step (.delete d name) = v.applyAll (removal v d k j (v.lookup d name)) :=
      congrArg v.applyAll (congrArg Prod.snd deleted)
    rw [removed]
    exact .inr ⟨congrArg Prod.fst deleted, memberId, (track_removal c member held).final,
      fun x memberX => direct_removal c member held memberX⟩
  · exact .inl (delete_unlisted listed)

/-- An inode is in use after a call only if it was before or the call made it. -/
theorem live_after (c : Consistent ⟨live, ∅, ∅⟩ v) {call : Call} (member : call.inode ∈ live)
    (typed : call.Typed) : ∃ live', Consistent ⟨live', ∅, ∅⟩ (v.step call) ∧
      ∀ y ∈ live', y ∈ live ∨ call.Makes (v.perform call).1.1 y := by
  cases call with
  | create d name type padding =>
      obtain ⟨live', track, same, grown⟩ := track_create c member name typed padding
      refine ⟨live', track.final, fun y memberY => ?_⟩
      by_cases refused : (v.create d name type padding).1 = 0#32
      · exact .inl (same refused ▸ memberY)
      · rw [grown refused] at memberY
        rcases memberY with rfl | memberY
        · exact .inr rfl
        · exact .inl memberY
  | delete d name =>
      obtain ⟨live', _, fewer, track⟩ := directoryEdit_delete c member name
      exact ⟨live', track.final, fun y memberY => .inl (fewer memberY)⟩
  | lookup d name => exact ⟨live, c, fun y memberY => .inl memberY⟩
  | read id offset count => exact ⟨live, c, fun y memberY => .inl memberY⟩
  | write id offset buffer count =>
      exact ⟨live, (track_write c member offset buffer count).final, fun y memberY => .inl memberY⟩

/-- A removed inode that no call made again. -/
structure Gone (v : Volume) (live : Set (BitVec 32)) (x : BitVec 32) : Prop where
  valid : ValidId x
  dead : x ∉ live
  clear : NoMetadata (v.inode x)

theorem Gone.step (gone : Gone v live x) (shows_ : Shows v l w) (c : Consistent ⟨live, ∅, ∅⟩ v) {call : Call}
    (member : call.inode ∈ live) (old : ¬ call.Makes (v.perform call).1.1 x) {live' : Set (BitVec 32)}
    (fewer : ∀ y ∈ live', y ∈ live ∨ call.Makes (v.perform call).1.1 y) : Gone (v.step call) live' x where
  valid := gone.valid
  dead := fun memberX => (fewer x memberX).elim gone.dead old
  clear := by
    have other : x ≠ call.inode := fun same => gone.dead (same ▸ member)
    rw [record_kept shows_ c member gone.valid other old]
    exact gone.clear

/-- The volume a world shows is consistent, and the removed inodes are gone from it. -/
def Buried (s : World × Set (BitVec 32)) : Prop :=
  ∃ v l live, Shows v l s.1 ∧ Consistent ⟨live, ∅, ∅⟩ v ∧ ∀ x ∈ s.2, Gone v live x

theorem Consistent.noMetadata (c : Consistent ⟨live, ∅, ∅⟩ v) (member : x ∈ live) :
    NoMetadata (v.inode x) := by
  intro k
  by_cases unused : (v.inode x).directBlocks k = 0#32
  · exact .inl unused
  · exact .inr (Nat.le_trans (by decide) (c.range x member k unused).1)

variable {gone : Set (BitVec 32)}

theorem bury_delete (result : (fsDelete d name w).1 = 0) :
    (bury (w, gone) (.delete d name)).2 = insert (fsLookup d name w).1 gone := if_pos result

theorem bury_old {c : Call} (kept : ∀ d name, c = .delete d name → (fsDelete d name w).1 ≠ 0)
    (member : x ∈ (bury (w, gone) c).2) : x ∈ gone ∧ ¬ c.Makes (c.perform w).1.1 x := by
  cases c with
  | create d name type padding =>
      obtain ⟨member, other⟩ := member
      refine ⟨member, fun made => other ?_⟩
      have made : (((fsCreate d name type padding w).1.toNat : Nat) : Int) = x.toNat := made
      exact (BitVec.eq_of_toNat_eq (Int.ofNat_inj.mp made)).symm
  | delete d name =>
      have member : x ∈ if (fsDelete d name w).1 = 0 then insert (fsLookup d name w).1 gone else gone := member
      rw [if_neg (kept d name rfl)] at member
      exact ⟨member, fun made => made⟩
  | lookup d name => exact ⟨member, fun made => made⟩
  | read id offset count => exact ⟨member, fun made => made⟩
  | write id offset buffer count => exact ⟨member, fun made => made⟩

theorem buried_delete (shows_ : Shows v l w) (c : Consistent ⟨live, ∅, ∅⟩ v) (each : ∀ x ∈ gone, Gone v live x)
    (member : d ∈ live) (result : (fsDelete d name w).1 = 0) : Buried (bury (w, gone) (.delete d name)) := by
  have found := (does_fsLookup d name w shows_).1
  rcases delete_cases c member name with missing | ⟨_, memberId, c', blocks⟩
  · rw [(does_fsDelete d name w shows_).1, missing] at result
    cases result
  · refine ⟨_, l, _, shows_.step _, c', fun x memberX => ?_⟩
    rw [bury_delete result, found] at memberX
    rcases memberX with rfl | memberX
    · refine ⟨c.valid _ memberId, fun memberX => memberX.2 rfl, fun k => ?_⟩
      rw [blocks _ memberId]
      exact c.noMetadata memberId k
    · have old : ¬ (Call.delete d name).Makes (v.perform (.delete d name)).1.1 x := fun made => made
      have member : (Call.delete d name).inode ∈ live := member
      exact (each x memberX).step shows_ c member old fun y memberY => .inl memberY.1

/-- A call on an inode in use buries what it removes. -/
theorem buried_live (shows_ : Shows v l w) (c : Consistent ⟨live, ∅, ∅⟩ v) (each : ∀ x ∈ gone, Gone v live x)
    {call : Call} (member : call.inode ∈ live) (typed : call.Typed) : Buried (bury (w, gone) call) := by
  by_cases removed : ∃ d name, call = .delete d name ∧ (fsDelete d name w).1 = 0
  · obtain ⟨d, name, rfl, result⟩ := removed
    exact buried_delete shows_ c each member result
  · obtain ⟨live', c', fewer⟩ := live_after c member typed
    refine ⟨_, l, live', shows_.step call, c', fun x memberX => ?_⟩
    have kept : ∀ d name, call = .delete d name → (fsDelete d name w).1 ≠ 0 :=
      fun d name same result => removed ⟨d, name, same, result⟩
    obtain ⟨memberX, old⟩ := bury_old kept memberX
    rw [shows_.result] at old
    exact (each x memberX).step shows_ c member old fewer

/-- A harmless call on a removed inode buries nothing. -/
theorem buried_harmless (shows_ : Shows v l w) (c : Consistent ⟨live, ∅, ∅⟩ v)
    (each : ∀ x ∈ gone, Gone v live x) {call : Call} (valid : ValidId call.inode)
    (harmless : Harmless (v.inode call.inode) v.disk call) : Buried (bury (w, gone) call) := by
  obtain ⟨fails, nothing⟩ := harmless_idle harmless valid
  have after := shows_.step call
  rw [Volume.step, nothing] at after
  have kept : ∀ d name, call = .delete d name → (fsDelete d name w).1 ≠ 0 := by
    rintro d name rfl result
    have same : (fsDelete d name w).1 = (v.delete d name).1 := (does_fsDelete d name w shows_).1
    have fails : (v.delete d name).1 = -1 := fails
    omega
  exact ⟨v, l, live, after, c, fun x memberX => each x (bury_old kept memberX).1⟩

/-- A removed inode is dead for a call if and only if the call is harmless to what is left of it. -/
theorem buried_dead_iff {s : World × Set (BitVec 32)} (buried : Buried s) (c : Call) :
    (c.inode ∈ s.2 → Dead s.1 c) ↔ (c.inode ∈ s.2 → Harmless (storedInode s.1 c.inode) s.1.disk c) := by
  obtain ⟨v, l, live, shows_, consistent, each⟩ := buried
  refine forall_congr' fun member => ?_
  have gone := each _ member
  exact dead_iff shows_ gone.valid (fun inUse => gone.dead ((consistent.inUse_iff shows_).mp inUse)) gone.clear

theorem buried_step {s : World × Set (BitVec 32)} {c : Call} (buried : Buried s) (known : CallKnown s c)
    (dead : c.inode ∈ s.2 → Dead s.1 c) : Buried (bury s c) := by
  have harmless := (buried_dead_iff buried c).mp dead
  obtain ⟨w, gone⟩ := s
  obtain ⟨v, l, live, shows_, consistent, each⟩ := buried
  have shows_ : Shows v l w := shows_
  obtain ⟨inUse | member, typed⟩ := known
  · exact buried_live shows_ consistent each ((consistent.inUse_iff shows_).mp inUse) typed
  · have harmless : Harmless (storedInode w c.inode) w.disk c := harmless member
    rw [shows_.storedInode, shows_.disk] at harmless
    exact buried_harmless shows_ consistent each (each _ member).valid harmless

theorem buried_format {buffer : Block} (formattable : Formattable w buffer) (inodeJunk blockJunk : Bytes) :
    Buried ((fsInit inodeJunk blockJunk w).2, ∅) := by
  obtain ⟨v, l, live, shows_, c⟩ := settled_format formattable inodeJunk blockJunk
  exact ⟨v, l, live, shows_, c, fun x member => absurd member (Set.notMem_empty x)⟩

end

/-- In a run every call on a removed inode fails and changes nothing, if and only if each of them
is harmless to the record the inode left and the blocks that record still lists. -/
theorem removed_inode_dead_iff {w : World} {buffer : Block} (formattable : Formattable w buffer)
    (inodeJunk blockJunk : Bytes) (calls : List Call)
    (known : Admitted bury CallKnown ((fsInit inodeJunk blockJunk w).2, ∅) calls) :
    Admitted bury (fun s c => c.inode ∈ s.2 → Dead s.1 c) ((fsInit inodeJunk blockJunk w).2, ∅) calls ↔
      Admitted bury (fun s c => c.inode ∈ s.2 → Harmless (storedInode s.1 c.inode) s.1.disk c)
        ((fsInit inodeJunk blockJunk w).2, ∅) calls :=
  admitted_congr_while Buried (fun _ _ buried known dead => buried_step buried known dead)
    (fun _ c buried _ => buried_dead_iff buried c) (buried_format formattable inodeJunk blockJunk) known

/-- A file is made in the root and removed, and then read. -/
def readRemoved : List Call := [newFile nameA, .delete 1#32 nameA, .read 2#32 0#64 0#64]

section
variable {v : Volume} {l : List Ptr} {w : World} {live : Set (BitVec 32)}

theorem removed_record (shows_ : Shows v l (step w (newFile nameA))) (c : Consistent ⟨live, ∅, ∅⟩ v)
    (one : OneFile v nameA 8 (newInode 2#32 fsInodeTypeFile)) :
    isFile ((v.step (.delete 1#32 nameA)).inode 2#32) ∧
      2#32 ∈ (bury (bury (w, ∅) (newFile nameA)) (.delete 1#32 nameA)).2 := by
  have deleted := delete_found c c.root (by decide) one.dir one.found
  have result := (does_fsDelete 1#32 nameA _ shows_).1.trans (congrArg Prod.fst deleted)
  have found := (does_fsLookup 1#32 nameA _ shows_).1.trans (one.lookup (by decide))
  constructor
  · have old : ¬ (Call.delete 1#32 nameA).Makes (v.perform (.delete 1#32 nameA)).1.1 2#32 := fun made => made
    have root : (Call.delete 1#32 nameA).inode ∈ live := c.root
    rw [record_kept shows_ c root valid_two (by decide) old, one.record]
    decide
  · have member : 2#32 ∈ (bury (step w (newFile nameA), (bury (w, ∅) (newFile nameA)).2)
        (.delete 1#32 nameA)).2 := by
      rw [bury_delete result, found]
      exact Set.mem_insert _ _
    exact member

theorem known_readRemoved (root : InodeInUse w 1#32) (shows_ : Shows v l (step w (newFile nameA)))
    (c : Consistent ⟨live, ∅, ∅⟩ v) (one : OneFile v nameA 8 (newInode 2#32 fsInodeTypeFile)) :
    Admitted bury CallKnown (w, ∅) readRemoved :=
  ⟨⟨.inl root, .inl rfl⟩, ⟨.inl ((c.inUse_iff shows_).mpr c.root), trivial⟩,
    ⟨.inr (removed_record shows_ c one).2, trivial⟩, trivial⟩

theorem undead_readRemoved (shows_ : Shows v l (step w (newFile nameA))) (c : Consistent ⟨live, ∅, ∅⟩ v)
    (one : OneFile v nameA 8 (newInode 2#32 fsInodeTypeFile)) :
    ¬ Admitted bury (fun s c => c.inode ∈ s.2 → Dead s.1 c) (w, ∅) readRemoved := by
  rintro ⟨_, _, dead, _⟩
  obtain ⟨file, member⟩ := removed_record shows_ c one
  have accepted := read_accepted valid_two file 0#64 0#64
  have failed := (dead member).value
  have result := congrArg Prod.fst ((shows_.step (.delete 1#32 nameA)).result (.read 2#32 0#64 0#64))
  have same : ((v.step (.delete 1#32 nameA)).read 2#32 0#64 0#64).1 = -1 := result.symm.trans failed
  omega

end

theorem readRemoved_known : Admitted bury CallKnown ((fsInit (fun _ => 0) (fun _ => 0) blankWorld).2, ∅)
    readRemoved := by
  obtain ⟨v, l, live, shows_, c, one⟩ := one_file (fun _ => 0) fun _ => 0
  exact known_readRemoved (root_inUse _ _) shows_ c one

theorem removed_inode_dead_iff_read :
    Admitted bury (fun s c => c.inode ∈ s.2 → Dead s.1 c)
        ((fsInit (fun _ => 0) (fun _ => 0) blankWorld).2, ∅) readRemoved ↔
      Admitted bury (fun s c => c.inode ∈ s.2 → Harmless (storedInode s.1 c.inode) s.1.disk c)
        ((fsInit (fun _ => 0) (fun _ => 0) blankWorld).2, ∅) readRemoved :=
  removed_inode_dead_iff blankWorld_formattable (fun _ => 0) (fun _ => 0) readRemoved readRemoved_known

/-- Reading the removed file still works. -/
theorem removed_file_is_read :
    Admitted bury CallKnown ((fsInit (fun _ => 0) (fun _ => 0) blankWorld).2, ∅) readRemoved ∧
      ¬ Admitted bury (fun s c => c.inode ∈ s.2 → Dead s.1 c)
        ((fsInit (fun _ => 0) (fun _ => 0) blankWorld).2, ∅) readRemoved := by
  obtain ⟨v, l, live, shows_, c, one⟩ := one_file (fun _ => 0) fun _ => 0
  exact ⟨readRemoved_known, undead_readRemoved shows_ c one⟩

end AstralOS.Fs
