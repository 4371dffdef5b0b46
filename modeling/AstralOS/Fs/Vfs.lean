import AstralOS.Foundation.Chains
import AstralOS.Lib.CString
import Mathlib.Logic.Function.Basic

/-! The virtual file system: directory and file nodes linked by pointers. What `kmalloc`
answers is an argument of the functions that call it. -/
namespace AstralOS.Vfs
open Foundation AstralOS.Lib

abbrev NodePtr := BitVec 64

/-- `VFS_NODE_DIR` and `VFS_NODE_FILE`. -/
inductive NodeType where
  | dir
  | file
  deriving DecidableEq

structure VfsNode where
  name : CString
  type : NodeType
  parent : NodePtr
  child : NodePtr
  sibling : NodePtr
  fsData : BitVec 64

/-- The static `root` and the memory the nodes live in. -/
structure Vfs where
  root : NodePtr
  nodes : NodePtr → VfsNode

namespace Vfs
variable (v : Vfs) (p : NodePtr)

def setNode (node : VfsNode) : Vfs := { v with nodes := Function.update v.nodes p node }

def setChild (q : NodePtr) : Vfs := v.setNode p { v.nodes p with child := q }

def setSibling (q : NodePtr) : Vfs := v.setNode p { v.nodes p with sibling := q }

def setFsData (data : BitVec 64) : Vfs := v.setNode p { v.nodes p with fsData := data }

def sibling : NodePtr := (v.nodes p).sibling

end Vfs

/-- More iterations than a chain of distinct nodes can take. -/
def loopBound : Nat := 2 ^ 64

def rootName : CString := ⟨[0x72#8, 0x6f#8, 0x6f#8, 0x74#8], by decide⟩

def vfsInit (given : NodePtr) (v : Vfs) : Int × Vfs :=
  let v := { v with root := given }
  if given = 0#64 then (-1, v)
  else (0, v.setNode given ⟨rootName, .dir, 0#64, 0#64, 0#64, 0#64⟩)

/-- The new node becomes the last child; `none` when the walk does not end. -/
def appendChild (v : Vfs) (parent node : NodePtr) : Option Vfs :=
  if (v.nodes parent).child = 0#64 then some (v.setChild parent node)
  else (lastLink 0#64 v.sibling loopBound (v.nodes parent).child).map fun cur => v.setSibling cur node

/-- What `vfs_create_dir` and `vfs_create_file` have in common. -/
def createNode (type : NodeType) (fsData : BitVec 64) (given parent : NodePtr) (name : CString) (v : Vfs) :
    Option (NodePtr × Vfs) :=
  if parent = 0#64 ∨ (v.nodes parent).type ≠ .dir then some (0#64, v)
  else if given = 0#64 then some (0#64, v)
  else (appendChild (v.setNode given ⟨name, type, parent, 0#64, 0#64, fsData⟩) parent given).map fun v =>
    (given, v)

def vfsCreateDir (given parent : NodePtr) (name : CString) : Vfs → Option (NodePtr × Vfs) :=
  createNode .dir 0#64 given parent name

def vfsCreateFile (given parent : NodePtr) (name : CString) (fsData : BitVec 64) :
    Vfs → Option (NodePtr × Vfs) :=
  createNode .file fsData given parent name

def vfsLookup (v : Vfs) (node : NodePtr) (name : CString) : Option NodePtr :=
  if node = 0#64 ∨ (v.nodes node).type ≠ .dir then some 0#64
  else findLink 0#64 v.sibling (fun cur => strcmp (v.nodes cur).name.bytes name = 0) loopBound
    (v.nodes node).child

def vfsMount (mountPoint : NodePtr) (fsRoot : BitVec 64) (v : Vfs) : Int × Vfs :=
  if mountPoint = 0#64 then (-1, v) else (0, v.setFsData mountPoint fsRoot)

section
variable {v : Vfs} {p q : NodePtr} {node : VfsNode}

@[simp] theorem setNode_same : (v.setNode p node).nodes p = node := Function.update_self ..

theorem setNode_other (apart : q ≠ p) : (v.setNode p node).nodes q = v.nodes q :=
  Function.update_of_ne apart ..

/-- An edit that keeps a field of the node it edits keeps that field of all nodes. -/
theorem setNode_keeps {β : Type} (field : VfsNode → β) (same : field node = field (v.nodes p)) :
    field ((v.setNode p node).nodes q) = field (v.nodes q) := by
  by_cases here : q = p
  · rw [here, setNode_same, same]
  · rw [setNode_other here]

theorem setSibling_sibling (x y : NodePtr) : (v.setSibling x y).sibling = Function.update v.sibling x y := by
  funext q
  by_cases here : q = x
  · rw [here, Function.update_self, Vfs.sibling, Vfs.setSibling, setNode_same]
  · rw [Function.update_of_ne here, Vfs.sibling, Vfs.setSibling, setNode_other here]
    rfl

end

end AstralOS.Vfs
