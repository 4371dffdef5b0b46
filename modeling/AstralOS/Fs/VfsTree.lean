import AstralOS.Foundation.Runs
import AstralOS.Fs.Vfs

/-! The nodes form a tree in every run of calls on them, and lookup finds the first child of
a name. -/
namespace AstralOS.Vfs
open Foundation AstralOS.Lib

theorem strcmp_same {s t : CString} : strcmp s.bytes t = 0 ↔ s = t := by
  rw [strcmp_eq_zero]
  exact ⟨fun same => (CString.eq_of_bytes same).symm, fun same _ _ => by rw [same]⟩

/-- The calls of a user, with what `kmalloc` answers them. -/
inductive Call where
  | createDir (parent : NodePtr) (name : CString) (given : NodePtr)
  | createFile (parent : NodePtr) (name : CString) (fsData : BitVec 64) (given : NodePtr)
  | lookup (node : NodePtr) (name : CString)
  | mount (mountPoint : NodePtr) (fsRoot : BitVec 64)

inductive Answer where
  | node (p : NodePtr)
  | status (code : Int)

/-- `none` when a loop of the call does not end. -/
def perform (v : Vfs) : Call → Option (Answer × Vfs)
  | .createDir parent name given =>
      (vfsCreateDir given parent name v).map fun r => (.node r.1, r.2)
  | .createFile parent name fsData given =>
      (vfsCreateFile given parent name fsData v).map fun r => (.node r.1, r.2)
  | .lookup node name => (vfsLookup v node name).map fun p => (.node p, v)
  | .mount mountPoint fsRoot =>
      let r := vfsMount mountPoint fsRoot v
      some (.status r.1, r.2)

/-- The node a call has made. -/
def Call.made : Call → Answer → List NodePtr
  | .createDir .., .node p | .createFile .., .node p => if p = 0#64 then [] else [p]
  | _, _ => []

/-- A run so far: the nodes and, in order of creation, the ones that calls have made. -/
structure Session where
  vfs : Vfs
  made : List NodePtr

def step (s : Session) (c : Call) : Session :=
  match perform s.vfs c with
  | some (answer, v) => ⟨v, s.made ++ c.made answer⟩
  | none => s

namespace Session
variable (s : Session)

/-- What a caller may hold: null, the root or a node some call has returned. -/
def Held (p : NodePtr) : Prop := p = 0#64 ∨ p = s.vfs.root ∨ p ∈ s.made

/-- Null, or memory that is no node yet. -/
def Fresh (given : NodePtr) : Prop := given = 0#64 ∨ given ≠ s.vfs.root ∧ given ∉ s.made

/-- The nodes that name `d` as their parent, in order of creation. -/
def children (d : NodePtr) : List NodePtr := s.made.filter fun p => (s.vfs.nodes p).parent = d

def type (p : NodePtr) : NodeType := (s.vfs.nodes p).type

end Session

def Allowed (s : Session) : Call → Prop
  | .createDir parent _ given => s.Held parent ∧ s.Fresh given
  | .createFile parent _ _ given => s.Held parent ∧ s.Fresh given
  | .lookup node _ => s.Held node
  | .mount mountPoint _ => s.Held mountPoint

/-- The nodes are a tree: parents are directories made before their children, and each
node's chain runs through the nodes that name it as their parent, in order of creation. -/
structure IsTree (s : Session) : Prop where
  rootless : s.vfs.root = 0#64 → s.made = []
  distinct : (s.vfs.root :: s.made).Nodup
  used : 0#64 ∉ s.made
  top : s.vfs.root ≠ 0#64 → (s.vfs.nodes s.vfs.root).parent = 0#64 ∧ s.vfs.sibling s.vfs.root = 0#64
  earlier : ∀ before p, before ++ [p] <+: s.made →
    (s.vfs.nodes p).parent ∈ s.vfs.root :: before ∧ s.type (s.vfs.nodes p).parent = .dir
  chains : ∀ d, d ≠ 0#64 → d ∈ s.vfs.root :: s.made →
    Chained 0#64 s.vfs.sibling (s.vfs.nodes d).child (s.children d)

variable {s : Session} {c : Call} {p d given parent x : NodePtr} {name : CString} {type : NodeType}
  {fsData : BitVec 64}

theorem mem_children : p ∈ s.children d ↔ p ∈ s.made ∧ (s.vfs.nodes p).parent = d := by
  rw [Session.children, List.mem_filter, decide_eq_true_eq]

namespace IsTree
variable (tree : IsTree s)
include tree

theorem made_nodup : s.made.Nodup := (List.nodup_cons.mp tree.distinct).2

theorem parent_mem (made : p ∈ s.made) :
    (s.vfs.nodes p).parent ∈ s.vfs.root :: s.made ∧ s.type (s.vfs.nodes p).parent = .dir := by
  obtain ⟨before, after, split⟩ := List.append_of_mem made
  obtain ⟨above, directory⟩ := tree.earlier before p ⟨after, by simp [split]⟩
  refine ⟨?_, directory⟩
  rw [split]
  exact List.cons_subset_cons _ (List.subset_append_left _ _) above

theorem children_nodup : (s.children d).Nodup := tree.made_nodup.filter _

theorem children_few : (s.children d).length < loopBound :=
  length_lt_of_distinct tree.children_nodup fun member => tree.used (mem_children.mp member).1

theorem root_used (made : p ∈ s.made) : s.vfs.root ≠ 0#64 := fun rootless => by
  rw [tree.rootless rootless] at made
  cases made

/-- What no directory is has no children. -/
theorem no_children (not_directory : s.type d ≠ .dir) : s.children d = [] := by
  refine List.eq_nil_iff_forall_not_mem.mpr fun p member => not_directory ?_
  obtain ⟨made, parent⟩ := mem_children.mp member
  rw [← parent]
  exact (tree.parent_mem made).2

theorem no_children_outside (outside : d ∉ s.vfs.root :: s.made) : s.children d = [] := by
  refine List.eq_nil_iff_forall_not_mem.mpr fun p member => outside ?_
  obtain ⟨made, parent⟩ := mem_children.mp member
  rw [← parent]
  exact (tree.parent_mem made).1

theorem no_children_null : s.children 0#64 = [] := by
  refine List.eq_nil_iff_forall_not_mem.mpr fun p member => ?_
  obtain ⟨made, parent⟩ := mem_children.mp member
  have above := (tree.parent_mem made).1
  rw [parent] at above
  rcases List.mem_cons.mp above with rootless | made'
  · exact tree.root_used made rootless.symm
  · exact tree.used made'

end IsTree

/-- The edits an append makes: they keep every field but the links to children and siblings. -/
structure SameFields (v w : Vfs) : Prop where
  root : w.root = v.root
  name : ∀ q, (w.nodes q).name = (v.nodes q).name
  type : ∀ q, (w.nodes q).type = (v.nodes q).type
  parent : ∀ q, (w.nodes q).parent = (v.nodes q).parent

theorem setChild_fields (v : Vfs) (x y : NodePtr) : SameFields v (v.setChild x y) where
  root := rfl
  name _ := setNode_keeps VfsNode.name rfl
  type _ := setNode_keeps VfsNode.type rfl
  parent _ := setNode_keeps VfsNode.parent rfl

theorem setSibling_fields (v : Vfs) (x y : NodePtr) : SameFields v (v.setSibling x y) where
  root := rfl
  name _ := setNode_keeps VfsNode.name rfl
  type _ := setNode_keeps VfsNode.type rfl
  parent _ := setNode_keeps VfsNode.parent rfl

theorem setFsData_fields (v : Vfs) (x : NodePtr) (data : BitVec 64) : SameFields v (v.setFsData x data) where
  root := rfl
  name _ := setNode_keeps VfsNode.name rfl
  type _ := setNode_keeps VfsNode.type rfl
  parent _ := setNode_keeps VfsNode.parent rfl

/-- The children once `given` is a child of `parent`. -/
def childrenWith (s : Session) (parent given d : NodePtr) : List NodePtr :=
  if d = parent then s.children parent ++ [given] else s.children d

section
variable (tree : IsTree s) (fresh : given ∉ s.vfs.root :: s.made)
include tree fresh

/-- Before it is linked in, the new node disturbs no chain and has an empty one. -/
theorem chains_setNode (node : VfsNode) (empty : node.child = 0#64) (ne : d ≠ 0#64) (member : d = given ∨ d ∈ s.vfs.root :: s.made) :
    Chained 0#64 (s.vfs.setNode given node).sibling ((s.vfs.setNode given node).nodes d).child
      (s.children d) := by
  by_cases new : d = given
  · rw [new, setNode_same, tree.no_children_outside fresh]
    exact empty
  · rw [setNode_other new]
    refine (tree.chains d ne (member.resolve_left new)).congr fun y child => ?_
    have old : y ≠ given := fun same => fresh (same ▸ List.mem_cons_of_mem _ (mem_children.mp child).1)
    rw [Vfs.sibling, setNode_other old]
    rfl

variable (held : parent ∈ s.vfs.root :: s.made) (used : parent ≠ 0#64) (memory : given ≠ 0#64)
include held used memory

/-- The walk ends at the last child, and the new node comes after it. -/
theorem appendChild_linked (node : VfsNode) (empty : node.child = 0#64) (ends : node.sibling = 0#64) : ∃ w,
    appendChild (s.vfs.setNode given node) parent given = some w ∧
    SameFields (s.vfs.setNode given node) w ∧
    w.sibling s.vfs.root = s.vfs.sibling s.vfs.root ∧
    ∀ d, d ≠ 0#64 → d = given ∨ d ∈ s.vfs.root :: s.made →
      Chained 0#64 w.sibling (w.nodes d).child (childrenWith s parent given d) := by
  set v := s.vfs.setNode given node with v_eq
  have chains : ∀ d, d ≠ 0#64 → d = given ∨ d ∈ s.vfs.root :: s.made →
      Chained 0#64 v.sibling (v.nodes d).child (s.children d) := fun d =>
    chains_setNode tree fresh node empty
  have own := chains parent used (.inr held)
  have last : v.sibling given = 0#64 := by
    rw [Vfs.sibling, v_eq, setNode_same, ends]
  have above : v.sibling s.vfs.root = s.vfs.sibling s.vfs.root := by
    have old : s.vfs.root ≠ given := fun same => fresh (same ▸ List.mem_cons_self)
    rw [Vfs.sibling, v_eq, setNode_other old]
    rfl
  rcases List.eq_nil_or_concat' (s.children parent) with none | ⟨l, x, split⟩
  · have first : (v.nodes parent).child = 0#64 := own.start.mpr none
    have siblings : (v.setChild parent given).sibling = v.sibling :=
      funext fun _ => setNode_keeps VfsNode.sibling rfl
    refine ⟨v.setChild parent given, ?_, setChild_fields v parent given, ?_, ?_⟩
    · rw [appendChild, if_pos first]
    · rw [siblings, above]
    · intro d ne member
      rw [siblings, childrenWith]
      by_cases here : d = parent
      · rw [if_pos here, here, none, Vfs.setChild, setNode_same]
        exact ⟨rfl, memory, last⟩
      · rw [if_neg here, Vfs.setChild, setNode_other here]
        exact chains d ne member
  · have more : (v.nodes parent).child ≠ 0#64 := fun ends => by
      have empty := own.start.mp ends
      simp [split] at empty
    rw [split] at own
    have few : l.length < loopBound := by
      have := tree.children_few (d := parent)
      rw [split, List.length_append] at this
      omega
    have distinct : (l ++ [x]).Nodup := split ▸ tree.children_nodup
    have new : given ∉ l ++ [x] := fun member =>
      fresh (List.mem_cons_of_mem _ (mem_children.mp (split ▸ member)).1)
    have is_child : x ∈ s.children parent := by simp [split]
    obtain ⟨made, child⟩ := mem_children.mp is_child
    refine ⟨v.setSibling x given, ?_, setSibling_fields v x given, ?_, ?_⟩
    · rw [appendChild, if_neg more, lastLink_chained own few]
      rfl
    · have apart : s.vfs.root ≠ x := fun same => (List.nodup_cons.mp tree.distinct).1 (same ▸ made)
      rw [setSibling_sibling, Function.update_of_ne apart, above]
    · intro d ne member
      have same : ((v.setSibling x given).nodes d).child = (v.nodes d).child :=
        setNode_keeps VfsNode.child rfl
      rw [setSibling_sibling, same, childrenWith]
      by_cases here : d = parent
      · rw [if_pos here, here, split, List.append_assoc]
        exact own.append distinct new memory last
      · rw [if_neg here]
        refine (chains d ne member).congr fun y other => Function.update_of_ne ?_ ..
        intro sameChild
        rw [sameChild] at other
        exact here ((mem_children.mp other).2.symm.trans child)

/-- What a creation does: it ends, hands out the new node, and the nodes are a tree again. -/
theorem createNode_made (type : NodeType) (fsData : BitVec 64) (name : CString) (directory : s.type parent = .dir) : ∃ w,
    createNode type fsData given parent name s.vfs = some (given, w) ∧
    ((w.nodes given).name = name ∧ (w.nodes given).type = type ∧ (w.nodes given).parent = parent) ∧
    IsTree ⟨w, s.made ++ [given]⟩ := by
  obtain ⟨w, linked, same, above, chains⟩ :=
    appendChild_linked tree fresh held used memory ⟨name, type, parent, 0#64, 0#64, fsData⟩ rfl rfl
  have new : (w.nodes given).parent = parent := by
    rw [same.parent, setNode_same]
  refine ⟨w, ?_, ⟨?_, ?_, new⟩, ?_⟩
  · have accepted : ¬(parent = 0#64 ∨ (s.vfs.nodes parent).type ≠ .dir) := by
      rintro (null | other)
      · exact used null
      · exact other directory
    rw [createNode, if_neg accepted, if_neg memory]
    exact congrArg _ linked
  · rw [same.name, setNode_same]
  · rw [same.type, setNode_same]
  have root : w.root = s.vfs.root := same.root
  have old {q : NodePtr} (ne : q ≠ given) :
      (w.nodes q).parent = (s.vfs.nodes q).parent ∧ (w.nodes q).type = (s.vfs.nodes q).type := by
    rw [same.parent, same.type, setNode_other ne]
    exact ⟨rfl, rfl⟩
  have apart {q : NodePtr} (member : q ∈ s.vfs.root :: s.made) : q ≠ given := fun here => fresh (here ▸ member)
  have kids (d : NodePtr) : Session.children ⟨w, s.made ++ [given]⟩ d = childrenWith s parent given d := by
    rw [Session.children, List.filter_append, childrenWith]
    have before : s.made.filter (fun p => (w.nodes p).parent = d) = s.children d :=
      List.filter_congr fun p member => by
        rw [(old (apart (List.mem_cons_of_mem _ member))).1]
    rw [before]
    by_cases here : d = parent
    · rw [if_pos here, List.filter_cons_of_pos (by rw [new, here]; exact decide_eq_true rfl), here]
      rfl
    · rw [if_neg here, List.filter_cons_of_neg (by rw [new]; simpa using fun e => here e.symm)]
      simp
  refine ⟨?_, ?_, ?_, ?_, ?_, ?_⟩
  · intro rootless
    rw [root] at rootless
    rw [tree.rootless rootless, rootless, List.mem_singleton] at held
    exact absurd held used
  · rw [root, ← List.cons_append]
    refine List.nodup_append.mpr ⟨tree.distinct, List.nodup_singleton given, fun q member z here => ?_⟩
    rw [List.mem_singleton.mp here]
    exact apart member
  · intro null
    rcases List.mem_append.mp null with member | here
    · exact tree.used member
    · exact memory (List.mem_singleton.mp here).symm
  · intro ne
    rw [root] at ne
    have top := tree.top ne
    refine ⟨?_, ?_⟩
    · rw [root, (old (apart List.mem_cons_self)).1]
      exact top.1
    · rw [root, above]
      exact top.2
  · intro before p prefix_
    rw [Session.type, root]
    rcases List.prefix_concat_iff.mp prefix_ with whole | shorter
    · obtain ⟨rfl, last⟩ := List.append_inj' whole rfl
      obtain rfl := List.singleton_inj.mp last
      rw [new, (old (apart held)).2]
      exact ⟨held, directory⟩
    · have member : p ∈ s.made := shorter.subset (by simp)
      have earlier := tree.earlier before p shorter
      have parent_held := (tree.parent_mem member).1
      rw [(old (apart (List.mem_cons_of_mem _ member))).1, (old (apart parent_held)).2]
      exact earlier
  · intro d ne member
    rw [kids]
    refine chains d ne ?_
    rw [root, ← List.cons_append, List.mem_append] at member
    exact member.symm.imp_left List.mem_singleton.mp

end

/-- A creation that makes nothing changes nothing. -/
theorem createNode_refused (refused : parent = 0#64 ∨ s.type parent ≠ .dir ∨ given = 0#64) :
    createNode type fsData given parent name s.vfs = some (0#64, s.vfs) := by
  rw [createNode]
  by_cases invalid : parent = 0#64 ∨ (s.vfs.nodes parent).type ≠ .dir
  · rw [if_pos invalid]
  · have noMemory : given = 0#64 := by
      rcases refused with null | other | memory
      · exact absurd (.inl null) invalid
      · exact absurd (.inr other) invalid
      · exact memory
    rw [if_neg invalid, if_pos noMemory]

/-- Mounting touches no link. -/
theorem mount_tree (tree : IsTree s) (x : NodePtr) (data : BitVec 64) :
    IsTree ⟨s.vfs.setFsData x data, s.made⟩ := by
  have same := setFsData_fields s.vfs x data
  have siblings : (s.vfs.setFsData x data).sibling = s.vfs.sibling :=
    funext fun _ => setNode_keeps VfsNode.sibling rfl
  have child (d : NodePtr) : ((s.vfs.setFsData x data).nodes d).child = (s.vfs.nodes d).child :=
    setNode_keeps VfsNode.child rfl
  have kids (d : NodePtr) : Session.children ⟨s.vfs.setFsData x data, s.made⟩ d = s.children d := by
    simp only [Session.children, same.parent]
  refine ⟨tree.rootless, tree.distinct, tree.used, fun ne => ?_, fun before p prefix_ => ?_,
    fun d ne member => ?_⟩
  · dsimp only
    rw [same.parent, siblings]
    exact tree.top ne
  · dsimp only [Session.type]
    rw [same.parent, same.type]
    exact tree.earlier before p prefix_
  · dsimp only
    rw [kids, siblings, child]
    exact tree.chains d ne member

/-- `p` is the first made of the children of `d` with the name, or null when there is none. -/
def IsEarliest (s : Session) (d : NodePtr) (name : CString) (p : NodePtr) : Prop :=
  (p = 0#64 ∧ ∀ q ∈ s.made, (s.vfs.nodes q).parent = d → (s.vfs.nodes q).name ≠ name) ∨
  (p ≠ 0#64 ∧ ∃ before after, s.made = before ++ p :: after ∧ (s.vfs.nodes p).parent = d ∧
    (s.vfs.nodes p).name = name ∧
    ∀ q ∈ before, (s.vfs.nodes q).parent = d → (s.vfs.nodes q).name ≠ name)

theorem isEarliest_find (tree : IsTree s) :
    IsEarliest s d name (((s.children d).find? fun p => decide ((s.vfs.nodes p).name = name)).getD 0#64) := by
  rw [Session.children, List.find?_filter]
  cases found : s.made.find? _ with
  | none =>
      refine .inl ⟨rfl, fun q member parent named => ?_⟩
      have := List.find?_eq_none.mp found q member
      simp [parent, named] at this
  | some p =>
      obtain ⟨hit, before, after, split, missed⟩ := List.find?_eq_some_iff_append.mp found
      simp only [decide_eq_true_eq] at hit
      have made : p ∈ s.made := by simp [split]
      refine .inr ⟨fun null => tree.used (null ▸ made), before, after, split, hit.1, hit.2, ?_⟩
      intro q member parent named
      have := missed q member
      simp [parent, named] at this

theorem vfsLookup_spec (name : CString) (tree : IsTree s) (held : s.Held d) :
    ∃ p, vfsLookup s.vfs d name = some p ∧ IsEarliest s d name p := by
  refine ⟨_, ?_, isEarliest_find tree⟩
  rw [vfsLookup]
  by_cases invalid : d = 0#64 ∨ (s.vfs.nodes d).type ≠ .dir
  · have empty : s.children d = [] := by
      rcases invalid with null | other
      · rw [null, tree.no_children_null]
      · exact tree.no_children other
    rw [if_pos invalid, empty]
    rfl
  · obtain ⟨used, _⟩ := not_or.mp invalid
    rw [if_neg invalid, findLink_chained (tree.chains d used (List.mem_cons.mpr (held.resolve_left used))) _
      tree.children_few]
    simp only [strcmp_same]

/-- Each node made is in one chain, once, and files have none. -/
structure Placed (s : Session) : Prop where
  once : ∀ p ∈ s.made, (s.children (s.vfs.nodes p).parent).count p = 1
  elsewhere : ∀ p d, d ≠ (s.vfs.nodes p).parent → p ∉ s.children d
  ordered : ∀ d, (s.children d).Sublist s.made
  files : ∀ p ∈ s.made, s.type p = .file → (s.vfs.nodes p).child = 0#64

theorem IsTree.placed (tree : IsTree s) : Placed s where
  once p made := List.count_eq_one_of_mem tree.children_nodup (mem_children.mpr ⟨made, rfl⟩)
  elsewhere p d apart member := apart (mem_children.mp member).2.symm
  ordered d := List.filter_sublist
  files p made file := by
    have used : p ≠ 0#64 := fun null => tree.used (null ▸ made)
    have other : s.type p ≠ .dir := by
      rw [file]
      decide
    exact (tree.chains p used (List.mem_cons_of_mem _ made)).start.mpr (tree.no_children other)

def Answer.Failed : Answer → Prop
  | .node p => p = 0#64
  | .status code => code ≠ 0

/-- A creation succeeds under a directory when there is memory, and then the node is as asked for. -/
def CreatedAs (s : Session) (type : NodeType) (parent : NodePtr) (name : CString) (given : NodePtr) :
    Answer → Vfs → Prop
  | .node p, v =>
      if parent = 0#64 ∨ s.type parent ≠ .dir ∨ given = 0#64 then p = 0#64
      else p = given ∧ (v.nodes p).name = name ∧ (v.nodes p).type = type ∧ (v.nodes p).parent = parent
  | .status _, _ => False

def AnsweredRight (s : Session) : Call → Answer → Vfs → Prop
  | .createDir parent name given, answer, v => CreatedAs s .dir parent name given answer v
  | .createFile parent name _ given, answer, v => CreatedAs s .file parent name given answer v
  | .lookup node name, .node p, v => IsEarliest s node name p ∧ v = s.vfs
  | .lookup _ _, .status _, _ => False
  | .mount _ _, _, _ => True

/-- The call ends, changes nothing when it fails, and answers as it should. -/
def CallRight (s : Session) (c : Call) : Prop :=
  ∃ answer v, perform s.vfs c = some (answer, v) ∧ (answer.Failed → v = s.vfs) ∧ AnsweredRight s c answer v

theorem create_step (type : NodeType) (fsData : BitVec 64) (name : CString) (tree : IsTree s) (held : s.Held parent) (fresh : s.Fresh given) :
    ∃ p v, createNode type fsData given parent name s.vfs = some (p, v) ∧ (p = 0#64 → v = s.vfs) ∧
      CreatedAs s type parent name given (.node p) v ∧
      IsTree ⟨v, s.made ++ if p = 0#64 then [] else [p]⟩ := by
  by_cases refused : parent = 0#64 ∨ s.type parent ≠ .dir ∨ given = 0#64
  · refine ⟨0#64, s.vfs, createNode_refused refused, fun _ => rfl, ?_, ?_⟩
    · rw [CreatedAs, if_pos refused]
    · rw [if_pos rfl, List.append_nil]
      exact tree
  · have used : parent ≠ 0#64 := fun null => refused (.inl null)
    have directory : s.type parent = .dir := Classical.not_not.mp fun other => refused (.inr (.inl other))
    have memory : given ≠ 0#64 := fun null => refused (.inr (.inr null))
    have new : given ∉ s.vfs.root :: s.made := by
      obtain ⟨notRoot, notMade⟩ := fresh.resolve_left memory
      exact List.not_mem_cons_of_ne_of_not_mem notRoot notMade
    obtain ⟨w, made, as_asked, after⟩ := createNode_made tree new
      (List.mem_cons.mpr (held.resolve_left used)) used memory type fsData name directory
    refine ⟨given, w, made, fun null => absurd null memory, ?_, ?_⟩
    · rw [CreatedAs, if_neg refused]
      exact ⟨rfl, as_asked⟩
    · rw [if_neg memory]
      exact after

/-- What one call does to a tree. -/
theorem call_spec (tree : IsTree s) (allowed : Allowed s c) : CallRight s c ∧ IsTree (step s c) := by
  cases c with
  | createDir parent name given =>
      obtain ⟨p, v, made, failed, as_asked, after⟩ := create_step .dir 0#64 name tree
        allowed.1 allowed.2
      have run : perform s.vfs (.createDir parent name given) = some (.node p, v) := by
        rw [perform, vfsCreateDir, made]
        rfl
      refine ⟨⟨.node p, v, run, failed, as_asked⟩, ?_⟩
      rw [step, run]
      exact after
  | createFile parent name fsData given =>
      obtain ⟨p, v, made, failed, as_asked, after⟩ := create_step .file fsData name tree
        allowed.1 allowed.2
      have run : perform s.vfs (.createFile parent name fsData given) = some (.node p, v) := by
        rw [perform, vfsCreateFile, made]
        rfl
      refine ⟨⟨.node p, v, run, failed, as_asked⟩, ?_⟩
      rw [step, run]
      exact after
  | lookup node name =>
      obtain ⟨p, found, earliest⟩ := vfsLookup_spec name tree allowed
      have run : perform s.vfs (.lookup node name) = some (.node p, s.vfs) := by
        rw [perform, found]
        rfl
      refine ⟨⟨.node p, s.vfs, run, fun _ => rfl, earliest, rfl⟩, ?_⟩
      rw [step, run]
      simpa [Call.made] using tree
  | mount mountPoint fsRoot =>
      by_cases null : mountPoint = 0#64
      · have run : perform s.vfs (.mount mountPoint fsRoot) = some (.status (-1), s.vfs) := by
          simp [perform, vfsMount, null]
        refine ⟨⟨.status (-1), s.vfs, run, fun _ => rfl, trivial⟩, ?_⟩
        rw [step, run]
        simpa [Call.made] using tree
      · have run : perform s.vfs (.mount mountPoint fsRoot) =
            some (.status 0, s.vfs.setFsData mountPoint fsRoot) := by
          simp [perform, vfsMount, null]
        refine ⟨⟨.status 0, _, run, fun failed => absurd rfl failed, trivial⟩, ?_⟩
        rw [step, run]
        simpa [Call.made] using mount_tree tree mountPoint fsRoot

/-- The file system once `vfs_init` has run on some memory. -/
def started (given : NodePtr) (v : Vfs) : Session := ⟨(vfsInit given v).2, []⟩

theorem started_tree (given : NodePtr) (v : Vfs) : IsTree (started given v) := by
  have root : (started given v).vfs.root = given := by
    rw [started, vfsInit]
    split
    · rfl
    · rfl
  have top (used : given ≠ 0#64) :
      (started given v).vfs.nodes given = ⟨rootName, .dir, 0#64, 0#64, 0#64, 0#64⟩ := by
    simp only [started, vfsInit, if_neg used]
    exact setNode_same
  refine ⟨fun _ => rfl, List.nodup_singleton _, List.not_mem_nil, fun used => ?_, fun before p prefix_ => ?_,
    fun d used member => ?_⟩
  · rw [root] at used ⊢
    rw [Vfs.sibling, top used]
    exact ⟨rfl, rfl⟩
  · have := List.prefix_nil.mp prefix_
    simp at this
  · have here : d = given := (List.mem_singleton.mp member).trans root
    rw [here] at used ⊢
    rw [top used]
    rfl

/-- In every run of calls after `vfs_init` the nodes form a tree, every call ends, a call that
fails changes nothing, and lookup finds the first made child of the name. -/
theorem vfs_stays_tree (given : NodePtr) (v : Vfs) (calls : List Call)
    (allowed : Admitted step Allowed (started given v) calls) :
    Always step (fun s => IsTree s ∧ Placed s) (started given v) calls ∧
      Admitted step CallRight (started given v) calls := by
  have keeps : ∀ s c, IsTree s → Allowed s c → IsTree (step s c) := fun _ _ tree ok => (call_spec tree ok).2
  have start := started_tree given v
  have trees := always_of_admitted keeps start allowed
  refine ⟨trees.mono fun s tree => ⟨tree, tree.placed⟩, ?_⟩
  exact Admitted.under IsTree keeps (fun s c tree ok => (call_spec tree ok).1) start allowed

theorem vfs_stays_tree_after_mkdir :
    Always step (fun s => IsTree s ∧ Placed s)
        (started 0x1000#64 ⟨0#64, fun _ => ⟨rootName, .file, 0#64, 0#64, 0#64, 0#64⟩⟩)
        [.createDir 0x1000#64 rootName 0x2000#64, .lookup 0x2000#64 rootName] ∧
      Admitted step CallRight
        (started 0x1000#64 ⟨0#64, fun _ => ⟨rootName, .file, 0#64, 0#64, 0#64, 0#64⟩⟩)
        [.createDir 0x1000#64 rootName 0x2000#64, .lookup 0x2000#64 rootName] := by
  refine vfs_stays_tree _ _ _ ⟨⟨.inr (.inl rfl), .inr ⟨by decide, List.not_mem_nil⟩⟩, ?_, trivial⟩
  exact .inr (.inr List.mem_cons_self)

end AstralOS.Vfs
