import AstralOS.Foundation.Known
import AstralOS.Fs.AtomicNames

/-! What a lookup answered stays the answer until the name itself is made or removed in that
directory, through later calls, mounts, and cuts of power after any block write. -/
namespace AstralOS.Fs
open Foundation AstralOS.Lib

/-- A name in a directory, which is given by the number of its inode. -/
abbrev Entry := BitVec 32 × CString

/-- The names in the directories that can be reached from the root, bound or not. -/
def entries (w : World) : Set Entry :=
  {x | FromRoot (imageVolume w.disk) x.1 ∧ isDir (storedInode w x.1)}

/-- The name that a call with this result made or removed. -/
def Call.renames (result : Int) : Call → Set Entry
  | .create parentId name _ _ => {x | x = (parentId, name) ∧ result ≠ 0}
  | .delete parentId name => {x | x = (parentId, name) ∧ result = 0}
  | _ => ∅

open Classical in
noncomputable def Call.answers (result : Int) : Call → Known Entry Int
  | .lookup parentId name => fun x => if x = (parentId, name) then some result else none
  | _ => Known.nothing

/-- A run that may lose power after any write of any call, and the answers of its lookups. One is
forgotten when its directory is no longer there, or its name is made or removed in it. -/
inductive Inquiry : World → Known Entry Int → Prop
  | format {w : World} {buffer : Block} (inodeJunk blockJunk : Bytes) : Formattable w buffer →
      Inquiry (fsInit inodeJunk blockJunk w).2 Known.nothing
  | call {w : World} {known : Known Entry Int} (c : Call) : Inquiry w known → CallFromRoot w c →
      Inquiry (step w c)
        ((known.only (entries w \ c.renames (c.perform w).1.1)).learn (c.answers (c.perform w).1.1))
  | reboot {w w' : World} {known : Known Entry Int} (c : Call) (k : Nat) (inodeJunk blockJunk : Bytes) :
      Inquiry w known → CallFromRoot w c → Healthy w' → w'.disk = cutImage w c k →
      Inquiry (fsInit inodeJunk blockJunk w').2 (known.only (entries w \ c.renames (c.perform w).1.1))

section
variable {v : Volume} {l : List Ptr} {w : World} {b : Ledger} {live : Set (BitVec 32)} {blocks : Set BlockNum}
  {inodes : Set (BitVec 32)} {d : BitVec 32} {name : CString}

theorem answers_lookup {result answer : Int} {x : Entry} :
    (Call.lookup d name).answers result x = some answer ↔ x = (d, name) ∧ result = answer := by
  unfold Call.answers
  by_cases asked : x = (d, name)
  · simp [asked]
  · simp [asked]

/-! Calls that are refused. -/

theorem create_nothing (valid : ValidId d) {type : BitVec 16} {padding : Bytes}
    (zero : (v.create d name type padding).1 = 0#32) : (v.create d name type padding).2 = [] := by
  rcases create_cases valid name type padding with ⟨_, refused⟩ | ⟨i, _, number, done⟩
  · exact congrArg Prod.snd refused
  · exact absurd ((congrArg Prod.fst done).symm.trans zero) number

theorem delete_nothing (c : Consistent b v) (member : d ∈ b.live) (failed : (v.delete d name).1 ≠ 0) :
    (v.delete d name).2 = [] := by
  rcases delete_removes c member name with refused | ⟨k, j, _, _, _, done⟩
  · exact congrArg Prod.snd refused
  · exact absurd (congrArg Prod.fst done) failed

/-! A call keeps the answers for all names but the one it makes or removes. -/

theorem create_lookup (c : Consistent ⟨live, blocks, inodes⟩ v) (member : d ∈ live) (name' : CString)
    {type : BitVec 16} (kind : type = fsInodeTypeFile ∨ type = fsInodeTypeDir) (padding : Bytes)
    (spared : name = name' → (v.create d name' type padding).1 = 0#32) :
    (v.applyAll (v.create d name' type padding).2).lookup d name = v.lookup d name := by
  have valid := c.valid d member
  by_cases same : name = name'
  · rw [create_nothing valid (spared same)]
    rfl
  · obtain ⟨type, renamed⟩ := create_renames c member name' kind padding
    exact lookup_same valid type (renamed.elsewhere same)

theorem delete_lookup (c : Consistent ⟨live, blocks, inodes⟩ v) (member : d ∈ live) (name' : CString)
    (spared : name = name' → (v.delete d name').1 ≠ 0) :
    (v.applyAll (v.delete d name').2).lookup d name = v.lookup d name := by
  by_cases same : name = name'
  · rw [delete_nothing c member (spared same)]
    rfl
  · obtain ⟨type, renamed⟩ := delete_renames c member name'
    exact lookup_same (c.valid d member) type (renamed.elsewhere same)

theorem step_lookup (c : Consistent ⟨live, blocks, inodes⟩ v) (call : Call) (member : call.inode ∈ live)
    (typed : call.Typed) (memberD : d ∈ live) (dir : isDir (v.inode d))
    (spared : (d, name) ∉ call.renames (v.perform call).1.1) :
    (v.step call).lookup d name = v.lookup d name := by
  by_cases other : d ≠ call.inode
  · have kept := perform_untouched c call member typed memberD other (v.perform call).2.length
    rw [List.take_length] at kept
    exact lookup_of_listing (c.valid d memberD) kept.listing name
  obtain rfl : d = call.inode := not_not.mp other
  cases call with
  | create d name' type padding =>
      refine create_lookup c member name' typed padding fun same => ?_
      by_contra made
      refine spared ⟨congrArg (Prod.mk d) same, fun zero => made ?_⟩
      exact BitVec.eq_of_toNat_eq (Int.ofNat_inj.mp zero)
  | delete d name' =>
      refine delete_lookup c member name' fun same removed => ?_
      exact spared ⟨congrArg (Prod.mk d) same, removed⟩
  | lookup d name' => rfl
  | read id offset count => rfl
  | write id offset buffer count =>
      have noFile : ¬isFile (v.inode id) := fun file => c.not_dir member file dir
      have refused : v.step (.write id offset buffer count) = v := by
        rw [Volume.step, Volume.perform, Volume.write, Volume.openAs_none noFile]
        rfl
      rw [refused]

/-- Wherever a call is cut, the answers are kept for all names but the one it makes or removes. -/
theorem cut_lookup (c : Consistent ⟨live, blocks, inodes⟩ v) (call : Call) (member : call.inode ∈ live)
    (typed : call.Typed) (memberD : d ∈ live) (dir : isDir (v.inode d))
    (spared : (d, name) ∉ call.renames (v.perform call).1.1) (k : Nat) :
    (v.applyAll ((v.perform call).2.take k)).lookup d name = v.lookup d name := by
  have valid := c.valid d memberD
  rcases perform_listings c call member typed k with before | after
  · exact lookup_of_listing valid (before d memberD dir) name
  · exact (lookup_of_listing valid (after d memberD dir) name).trans
      (step_lookup c call member typed memberD dir spared)

/-! The run. -/

/-- The volume gives the known answers for the directories that can be reached. -/
theorem inquiry_right {known : Known Entry Int} (inquiry : Inquiry w known) :
    ∃ v l b, Shows v l w ∧ Consistent b v ∧
      known.Right {x | FromRoot v x.1} fun x answer => ((v.lookup x.1 x.2).toNat : Int) = answer := by
  have counted : ∀ {w : World} {v : Volume} {l : List Ptr} {b : Ledger}, Shows v l w → Consistent b v →
      entries w ⊆ {x | FromRoot v x.1} ∧ ∀ x ∈ entries w, x.1 ∈ b.live ∧ isDir (v.inode x.1) := by
    intro w v l b shows_ c
    have image : imageVolume w.disk = v := by rw [shows_.disk, c.synced.image_eq]
    unfold entries
    rw [image]
    refine ⟨fun x member => member.1, fun x member => ⟨c.fromRoot member.1, ?_⟩⟩
    rw [← shows_.storedInode]
    exact member.2
  induction inquiry with
  | format inodeJunk blockJunk formattable =>
      obtain ⟨v, l, shows_, fresh, _⟩ := fsInit_formats formattable inodeJunk blockJunk
      exact ⟨v, l, _, shows_, fresh.consistent, Known.right_nothing⟩
  | call c _ allowed ih =>
      obtain ⟨v, l, ⟨live, blocks, inodes⟩, shows_, consistent, right⟩ := ih
      obtain ⟨member, typed⟩ := shows_.allowed consistent allowed
      obtain ⟨live', track⟩ := track_perform consistent c member typed
      obtain ⟨within, alive⟩ := counted shows_ consistent
      rw [shows_.result]
      refine ⟨v.step c, l, _, shows_.step c, track.final,
        right.learn (fun x inside => within inside.1) ?_ fun x inside _ answer found => ?_⟩
      · intro x _ answer learned
        cases c with
        | lookup d name =>
            obtain ⟨rfl, same⟩ := answers_lookup.mp learned
            exact same
        | _ => cases learned
      · obtain ⟨memberX, dir⟩ := alive x inside.1
        rw [step_lookup consistent c member typed memberX dir inside.2]
        exact found
  | reboot c k inodeJunk blockJunk _ allowed healthy image ih =>
      obtain ⟨v, l, ⟨live, blocks, inodes⟩, shows_, consistent, right⟩ := ih
      obtain ⟨member, typed⟩ := shows_.allowed consistent allowed
      obtain ⟨within, alive⟩ := counted shows_ consistent
      obtain ⟨l', b', mounted, cut⟩ := shows_.reboot consistent allowed k healthy image inodeJunk blockJunk
      rw [shows_.result]
      refine ⟨_, l', b', mounted, cut, right.only (fun x inside => within inside.1) ?_⟩
      intro x inside answer found
      obtain ⟨memberX, dir⟩ := alive x inside.1
      rw [cut_lookup consistent c member typed memberX dir inside.2]
      exact found

end

/-- Whatever is done to the volume and whenever power is lost, a lookup gives the known answer. -/
theorem names_survive {w : World} {known : Known Entry Int} (inquiry : Inquiry w known) {d : BitVec 32}
    (reached : FromRoot (imageVolume w.disk) d) {name : CString} {answer : Int}
    (found : known (d, name) = some answer) : ((fsLookup d name w).1.toNat : Int) = answer := by
  obtain ⟨v, l, b, shows_, c, right⟩ := inquiry_right inquiry
  rw [shows_.disk, c.synced.image_eq] at reached
  rw [(does_fsLookup d name w shows_).1]
  exact right (d, name) reached answer found

def askForA : Call := .lookup 1#32 nameA

/-- A file is made and looked up. -/
def askedWorld : World := step (step (fsInit (fun _ => 0) (fun _ => 0) blankWorld).2 (newFile nameA)) askForA

theorem askedWorld_inquiry : ∃ known v l, Inquiry askedWorld known ∧ known (1#32, nameA) = some 2 ∧
    Shows v l askedWorld ∧ isDir (v.inode 1#32) := by
  obtain ⟨v, l, live, shows_, c, one⟩ := one_file (fun _ => 0) fun _ => 0
  refine ⟨_, v.step askForA, l, .call askForA (.call (newFile nameA)
    (.format (fun _ => 0) (fun _ => 0) blankWorld_formattable) ⟨.root, .inl rfl⟩) ⟨.root, trivial⟩, ?_,
    shows_.step askForA, one.dir⟩
  refine Known.learn_eq_some.mpr (.inl ?_)
  rw [shows_.result]
  refine answers_lookup.mpr ⟨rfl, ?_⟩
  change ((v.lookup 1#32 nameA).toNat : Int) = 2
  rw [one.lookup (by decide)]
  rfl

/-- It is found after a loss of power, which came while another file was made. -/
theorem names_survive_reboot : ((fsLookup 1#32 nameA
    (fsInit (fun _ => 0) (fun _ => 0) (cutPower askedWorld (newFile nameB) 4)).2).1.toNat : Int) = 2 := by
  obtain ⟨known, v, l, inquiry, found, shows_, dir⟩ := askedWorld_inquiry
  have rebooted := inquiry.reboot (newFile nameB) 4 (fun _ => 0) (fun _ => 0) ⟨.root, .inl rfl⟩
    (shows_.healthy.cutPower (newFile nameB) 4) (cutPower_disk askedWorld (newFile nameB) 4)
  refine names_survive rebooted .root (Known.only_eq_some.mpr ⟨⟨⟨.root, ?_⟩, ?_⟩, found⟩)
  · rw [shows_.storedInode]
    exact dir
  · rintro ⟨same, _⟩
    exact absurd (Prod.mk.inj same).2 (by decide)

end AstralOS.Fs
