import AstralOS.Fs.VfsTree

/-! Names of siblings. Nothing stops a creation from using a name a second time, and lookup then
hides the later node behind the earlier one. -/
namespace AstralOS.Vfs
open Foundation AstralOS.Lib

/-- No directory has two children of one name. -/
def SiblingsUnique (s : Session) : Prop :=
  ∀ d, ∀ p ∈ s.children d, ∀ q ∈ s.children d, (s.vfs.nodes p).name = (s.vfs.nodes q).name → p = q

/-- What a call is to create: the directory and the name. -/
def Call.target : Call → Option (NodePtr × CString)
  | .createDir parent name _ | .createFile parent name _ _ => some (parent, name)
  | _ => none

/-- The call returns `x`, a node it has created under `d`. -/
def Created (s : Session) (c : Call) (d : NodePtr) (name : CString) (x : NodePtr) : Prop :=
  c.target = some (d, name) ∧ x ≠ 0#64 ∧ ∃ v, perform s.vfs c = some (.node x, v)

/-- What a call creates is found from then on. -/
def StaysFound : Session → List Call → Prop
  | _, [] => True
  | s, c :: rest => (∀ d name x, Created s c d name x →
      Always step (fun t => vfsLookup t.vfs d name = some x) (step s c) rest) ∧ StaysFound (step s c) rest

/-- With memory for the node, the name is not yet found in the directory. -/
def Unshadowed (s : Session) : Call → Prop
  | .createDir parent name given => given ≠ 0#64 → vfsLookup s.vfs parent name = some 0#64
  | .createFile parent name _ given => given ≠ 0#64 → vfsLookup s.vfs parent name = some 0#64
  | _ => True

/-- The node keeps the name and the place it was created with. -/
structure Named (s : Session) (d : NodePtr) (name : CString) (x : NodePtr) : Prop where
  child : x ∈ s.children d
  name : (s.vfs.nodes x).name = name

section
variable {s : Session} {v w : Vfs} {c : Call} {p q d given parent x : NodePtr} {name : CString} {type : NodeType}
  {fsData : BitVec 64}

theorem appendChild_fields (done : appendChild v parent given = some w) : SameFields v w := by
  rw [appendChild] at done
  split at done
  · cases done
    exact setChild_fields v parent given
  · obtain ⟨cur, _, rfl⟩ := Option.map_eq_some_iff.mp done
    exact setSibling_fields v cur given

/-- A creation touches name and parent of no other node. -/
theorem createNode_fields (done : createNode type fsData given parent name v = some (p, w)) (other : q ≠ given) :
    (w.nodes q).name = (v.nodes q).name ∧ (w.nodes q).parent = (v.nodes q).parent := by
  rw [createNode] at done
  split at done
  · cases done
    exact ⟨rfl, rfl⟩
  split at done
  · cases done
    exact ⟨rfl, rfl⟩
  obtain ⟨w', appended, same⟩ := Option.map_eq_some_iff.mp done
  obtain ⟨rfl, rfl⟩ := Prod.mk.inj same
  have fields := appendChild_fields appended
  rw [fields.name, fields.parent, setNode_other other]
  exact ⟨rfl, rfl⟩

/-- Under unique names lookup finds every child. -/
theorem Named.found (named : Named s d name x) (tree : IsTree s) (unique : SiblingsUnique s) :
    vfsLookup s.vfs d name = some x := by
  obtain ⟨made, under⟩ := mem_children.mp named.child
  have held : s.Held d := by
    rw [← under]
    exact .inr (List.mem_cons.mp (tree.parent_mem made).1)
  obtain ⟨p, found, ⟨_, missing⟩ | ⟨_, before, after, split, child, called, _⟩⟩ := vfsLookup_spec name tree held
  · exact absurd named.name (missing x made under)
  · have first : p ∈ s.children d := mem_children.mpr ⟨by simp [split], child⟩
    rw [found, unique d p first x named.child (called.trans named.name.symm)]

theorem lookup_missing (tree : IsTree s) (held : s.Held d) :
    vfsLookup s.vfs d name = some 0#64 ↔ ∀ q ∈ s.children d, (s.vfs.nodes q).name ≠ name := by
  obtain ⟨p, found, ⟨null, missing⟩ | ⟨used, before, after, split, child, called, _⟩⟩ := vfsLookup_spec name tree held
  · rw [found, null]
    refine iff_of_true rfl fun q member => ?_
    obtain ⟨made, under⟩ := mem_children.mp member
    exact missing q made under
  · rw [found]
    refine iff_of_false (fun same => used (Option.some.inj same)) fun missing => ?_
    exact missing p (mem_children.mpr ⟨by simp [split], child⟩) called

/-- The nodes after a call that creates none: the same, with the same names and places. -/
structure Alike (s t : Session) : Prop where
  made : t.made = s.made
  name : ∀ q, (t.vfs.nodes q).name = (s.vfs.nodes q).name
  parent : ∀ q, (t.vfs.nodes q).parent = (s.vfs.nodes q).parent

/-- One node more. -/
structure Grown (s t : Session) (d : NodePtr) (name : CString) (x : NodePtr) : Prop where
  made : t.made = s.made ++ [x]
  new : x ∉ s.made
  held : s.Held d
  parent : (t.vfs.nodes x).parent = d
  named : (t.vfs.nodes x).name = name
  kept : ∀ q ∈ s.made, (t.vfs.nodes q).name = (s.vfs.nodes q).name ∧ (t.vfs.nodes q).parent = (s.vfs.nodes q).parent

theorem Alike.refl : Alike s s := ⟨rfl, fun _ => rfl, fun _ => rfl⟩

theorem Alike.children {t : Session} (alike : Alike s t) (d : NodePtr) : t.children d = s.children d := by
  simp only [Session.children, alike.made, alike.parent]

theorem Grown.mem_children {t : Session} (grown : Grown s t d name x) :
    q ∈ t.children p ↔ q ∈ s.children p ∨ (q = x ∧ p = d) := by
  rw [Vfs.mem_children, Vfs.mem_children, grown.made, List.mem_append, List.mem_singleton]
  constructor
  · rintro ⟨old | rfl, under⟩
    · rw [(grown.kept q old).2] at under
      exact .inl ⟨old, under⟩
    · exact .inr ⟨rfl, under.symm.trans grown.parent⟩
  · rintro (⟨old, under⟩ | ⟨rfl, rfl⟩)
    · rw [(grown.kept q old).2]
      exact ⟨.inl old, under⟩
    · exact ⟨.inr (rfl), grown.parent⟩

/-- The names stay apart exactly when no child of the directory had this one. -/
theorem Grown.unique_iff {t : Session} (grown : Grown s t d name x) (unique : SiblingsUnique s) :
    SiblingsUnique t ↔ ∀ q ∈ s.children d, (s.vfs.nodes q).name ≠ name := by
  have kept : ∀ {p q}, q ∈ s.children p → (t.vfs.nodes q).name = (s.vfs.nodes q).name := fun member =>
    (grown.kept _ (Vfs.mem_children.mp member).1).1
  constructor
  · intro apart q member called
    have old : q ∈ t.children d := grown.mem_children.mpr (.inl member)
    have new : x ∈ t.children d := grown.mem_children.mpr (.inr ⟨rfl, rfl⟩)
    have same : q = x := by
      refine apart d q old x new ?_
      rw [kept member, called, grown.named]
    exact grown.new (same ▸ (Vfs.mem_children.mp member).1)
  · intro missing e p inP q inQ same
    rcases grown.mem_children.mp inP with oldP | ⟨rfl, rfl⟩
    · rcases grown.mem_children.mp inQ with oldQ | ⟨rfl, rfl⟩
      · rw [kept oldP, kept oldQ] at same
        exact unique e p oldP q oldQ same
      · rw [kept oldP, grown.named] at same
        exact absurd same (missing p oldP)
    · rcases grown.mem_children.mp inQ with oldQ | ⟨rfl, _⟩
      · rw [kept oldQ, grown.named] at same
        exact absurd same.symm (missing q oldQ)
      · exact rfl

theorem createNode_cases (tree : IsTree s) (held : s.Held parent) (fresh : s.Fresh given) (type : NodeType)
    (fsData : BitVec 64) (name : CString) :
    (createNode type fsData given parent name s.vfs = some (0#64, s.vfs) ∧
      (given ≠ 0#64 → vfsLookup s.vfs parent name = some 0#64)) ∨
    (given ≠ 0#64 ∧ ∃ w, createNode type fsData given parent name s.vfs = some (given, w) ∧
      Grown s ⟨w, s.made ++ [given]⟩ parent name given) := by
  by_cases refused : parent = 0#64 ∨ s.type parent ≠ .dir ∨ given = 0#64
  · refine .inl ⟨createNode_refused refused, fun memory => ?_⟩
    have invalid : parent = 0#64 ∨ (s.vfs.nodes parent).type ≠ .dir := by
      rcases refused with null | other | noMemory
      · exact .inl null
      · exact .inr other
      · exact absurd noMemory memory
    exact if_pos invalid
  · have memory : given ≠ 0#64 := fun null => refused (.inr (.inr null))
    have new := (fresh.resolve_left memory).2
    obtain ⟨p, w, made, _, as_asked, _⟩ := create_step type fsData name tree held fresh
    rw [CreatedAs, if_neg refused] at as_asked
    obtain ⟨rfl, called, _, under⟩ := as_asked
    refine .inr ⟨memory, w, made, rfl, new, held, under, called, fun q member => ?_⟩
    exact createNode_fields made fun same => new (same ▸ member)

/-- What a call does to the names: nothing, or it adds the one it was asked for. -/
def NamesStep (s : Session) (c : Call) : Prop :=
  (Alike s (step s c) ∧ Unshadowed s c ∧ ∀ d name x, ¬ Created s c d name x) ∨
  (∃ d name x, Grown s (step s c) d name x ∧ (Unshadowed s c ↔ vfsLookup s.vfs d name = some 0#64) ∧
    ∀ d' name' x', Created s c d' name' x' ↔ d' = d ∧ name' = name ∧ x' = x)

theorem names_create (tree : IsTree s) (held : s.Held parent) (fresh : s.Fresh given)
    (target : c.target = some (parent, name))
    (performed : perform s.vfs c =
      (createNode type fsData given parent name s.vfs).map fun r => (.node r.1, r.2))
    (made : ∀ p, c.made (.node p) = if p = 0#64 then [] else [p])
    (unshadowed : Unshadowed s c ↔ (given ≠ 0#64 → vfsLookup s.vfs parent name = some 0#64)) : NamesStep s c := by
  rcases createNode_cases tree held fresh type fsData name with ⟨refused, missing⟩ | ⟨memory, w, created, grown⟩
  · rw [refused, Option.map_some] at performed
    have run : step s c = s := by
      rw [step, performed]
      simp [made]
    refine .inl ⟨run.symm ▸ Alike.refl, unshadowed.mpr missing, ?_⟩
    rintro d called x ⟨_, used, v, result⟩
    rw [performed] at result
    cases result
    exact used (rfl)
  · rw [created, Option.map_some] at performed
    have run : step s c = ⟨w, s.made ++ [given]⟩ := by
      rw [step, performed]
      simp [made, memory]
    refine .inr ⟨parent, name, given, run.symm ▸ grown, ?_, fun d called x => ⟨?_, ?_⟩⟩
    · rw [unshadowed]
      exact ⟨fun missing => missing memory, fun missing _ => missing⟩
    · rintro ⟨asked, _, v, result⟩
      rw [target] at asked
      rw [performed] at result
      cases asked
      cases result
      exact ⟨rfl, rfl, rfl⟩
    · rintro ⟨rfl, rfl, rfl⟩
      exact ⟨target, memory, w, performed⟩

theorem names_step (tree : IsTree s) (allowed : Allowed s c) : NamesStep s c := by
  cases c with
  | lookup node name =>
      obtain ⟨p, found, _⟩ := vfsLookup_spec name tree allowed
      have run : step s (.lookup node name) = s := by
        simp [step, perform, found, Call.made]
      exact .inl ⟨run.symm ▸ Alike.refl, trivial, fun d name x created => Option.some_ne_none _ created.1.symm⟩
  | mount mountPoint fsRoot =>
      refine .inl ⟨?_, trivial, fun d name x created => Option.some_ne_none _ created.1.symm⟩
      by_cases null : mountPoint = 0#64
      · have run : step s (.mount mountPoint fsRoot) = s := by
          simp [step, perform, vfsMount, null, Call.made]
        exact run.symm ▸ Alike.refl
      · have run : step s (.mount mountPoint fsRoot) = ⟨s.vfs.setFsData mountPoint fsRoot, s.made⟩ := by
          simp [step, perform, vfsMount, null, Call.made]
        have same := setFsData_fields s.vfs mountPoint fsRoot
        rw [run]
        exact ⟨rfl, same.name, same.parent⟩
  | createDir parent name given =>
      exact names_create tree allowed.1 allowed.2 (rfl) (rfl) (fun p => rfl) Iff.rfl
  | createFile parent name fsData given =>
      exact names_create tree allowed.1 allowed.2 (rfl) (rfl) (fun p => rfl) Iff.rfl

theorem unique_step_iff (tree : IsTree s) (unique : SiblingsUnique s) (allowed : Allowed s c) :
    SiblingsUnique (step s c) ↔ Unshadowed s c := by
  rcases names_step tree allowed with ⟨alike, unshadowed, _⟩ | ⟨d, name, x, grown, unshadowed, _⟩
  · refine iff_of_true (fun d p inP q inQ same => ?_) unshadowed
    rw [alike.children] at inP inQ
    rw [alike.name, alike.name] at same
    exact unique d p inP q inQ same
  · rw [unshadowed, lookup_missing tree grown.held]
    exact grown.unique_iff unique

theorem Named.kept (named : Named s d name x) (tree : IsTree s) (allowed : Allowed s c) :
    Named (step s c) d name x := by
  rcases names_step tree allowed with ⟨alike, _, _⟩ | ⟨d', name', x', grown, _, _⟩
  · refine ⟨?_, (alike.name x).trans named.name⟩
    rw [alike.children]
    exact named.child
  · refine ⟨grown.mem_children.mpr (.inl named.child), ?_⟩
    rw [(grown.kept x (mem_children.mp named.child).1).1]
    exact named.name

theorem Created.named (created : Created s c d name x) (tree : IsTree s) (allowed : Allowed s c) :
    Named (step s c) d name x := by
  rcases names_step tree allowed with ⟨_, _, none_⟩ | ⟨d', name', x', grown, _, only⟩
  · exact absurd created (none_ d name x)
  · obtain ⟨rfl, rfl, rfl⟩ := (only d name x).mp created
    exact ⟨grown.mem_children.mpr (.inr ⟨rfl, rfl⟩), grown.named⟩

/-- While names are unique, a node that has been created is found. -/
theorem Named.always_found (named : Named s d name x) {calls : List Call} (tree : IsTree s)
    (allowed : Admitted step Allowed s calls) (unique : Always step SiblingsUnique s calls) :
    Always step (fun t => vfsLookup t.vfs d name = some x) s calls := by
  induction calls generalizing s with
  | nil => exact named.found tree unique
  | cons c rest ih =>
      exact ⟨named.found tree unique.1, ih (named.kept tree allowed.1) (call_spec tree allowed.1).2 allowed.2 unique.2⟩

theorem staysFound_of_unique {calls : List Call} (tree : IsTree s) (allowed : Admitted step Allowed s calls)
    (unique : Always step SiblingsUnique s calls) : StaysFound s calls := by
  induction calls generalizing s with
  | nil => trivial
  | cons c rest ih =>
      have after := (call_spec tree allowed.1).2
      refine ⟨fun d name x created => ?_, ih after allowed.2 unique.2⟩
      exact (created.named tree allowed.1).always_found after allowed.2 unique.2

theorem started_unique (given : NodePtr) (v : Vfs) : SiblingsUnique (started given v) :=
  fun _ _ member => absurd member List.not_mem_nil

end

/-- Names of siblings are unique and created nodes stay found exactly in the runs in which no
creation uses a name that the directory has already. -/
theorem sibling_names_iff (given : NodePtr) (v : Vfs) (calls : List Call)
    (allowed : Admitted step Allowed (started given v) calls) :
    Always step SiblingsUnique (started given v) calls ∧ StaysFound (started given v) calls ↔
      Admitted step Unshadowed (started given v) calls := by
  have tree := started_tree given v
  have exact_run := always_iff_admitted_of (fun _ _ tree ok => (call_spec tree ok).2)
    (fun _ _ tree unique ok => unique_step_iff tree unique ok) tree (started_unique given v) allowed
  rw [← exact_run]
  exact ⟨fun both => both.1, fun unique => ⟨unique, staysFound_of_unique tree allowed unique⟩⟩

/-- Memory without nodes. -/
def emptyVfs : Vfs := ⟨0#64, fun _ => ⟨rootName, .file, 0#64, 0#64, 0#64, 0#64⟩⟩

def binName : CString := ⟨[0x62#8, 0x69#8, 0x6e#8], by decide⟩

/-- `vfs_create_dir(root, "bin")` -/
def makeBin (given : NodePtr) : Call := .createDir 0x1000#64 binName given

theorem makeBin_allowed : Allowed (started 0x1000#64 emptyVfs) (makeBin 0x2000#64) :=
  ⟨.inr (.inl rfl), .inr ⟨by decide, List.not_mem_nil⟩⟩

theorem sibling_names_iff_bin :
    Always step SiblingsUnique (started 0x1000#64 emptyVfs) [makeBin 0x2000#64] ∧
        StaysFound (started 0x1000#64 emptyVfs) [makeBin 0x2000#64] ↔
      Admitted step Unshadowed (started 0x1000#64 emptyVfs) [makeBin 0x2000#64] :=
  sibling_names_iff _ _ _ ⟨makeBin_allowed, trivial⟩

/-- The second `bin` is a sibling of the first, and hidden by it. -/
theorem second_bin_hidden : ¬ ∀ calls, Admitted step Allowed (started 0x1000#64 emptyVfs) calls →
    Always step SiblingsUnique (started 0x1000#64 emptyVfs) calls ∧ StaysFound (started 0x1000#64 emptyVfs) calls := by
  intro always
  have tree := started_tree 0x1000#64 emptyVfs
  have allowed2 : Allowed (step (started 0x1000#64 emptyVfs) (makeBin 0x2000#64)) (makeBin 0x3000#64) :=
    ⟨.inr (.inl rfl), .inr ⟨by decide, by decide⟩⟩
  obtain ⟨unique, _⟩ := always [makeBin 0x2000#64, makeBin 0x3000#64] ⟨makeBin_allowed, allowed2, trivial⟩
  have after := (call_spec tree makeBin_allowed).2
  have unshadowed := (unique_step_iff after unique.2.first allowed2).mp unique.2.2.first
  have created : Created (started 0x1000#64 emptyVfs) (makeBin 0x2000#64) 0x1000#64 binName 0x2000#64 :=
    ⟨rfl, by decide, _, rfl⟩
  have found := (created.named tree makeBin_allowed).found after unique.2.first
  rw [unshadowed (by decide)] at found
  exact absurd found (by decide)

end AstralOS.Vfs
