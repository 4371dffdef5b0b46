import AstralOS.Boot.Lookup

/-! The tokens that the bytes of a blob give, whatever the bytes are, and where a search among them ends. -/
namespace AstralOS.Boot
open Foundation AstralOS.Lib

/-- A token as its bytes give it, with a property's length and the offset of its name. -/
inductive RawToken
  | beginNode (name : CString)
  | endNode
  | prop (length nameOffset : BitVec 32)
  | finish
  | other

/-- The token at an address. A name goes as far as its terminator. -/
def rawToken (m : Memory) (p : Addr) : RawToken :=
  if be32 m p = fdtBeginNode then .beginNode (stringAt m (p + 4#64))
  else if be32 m p = fdtEndNode then .endNode
  else if be32 m p = fdtProp then .prop (be32 m (p + 4#64)) (be32 m (p + 8#64))
  else if be32 m p = fdtEnd then .finish
  else .other

/-- Where the next token is. -/
def RawToken.next (p : Addr) : RawToken → Addr
  | .beginNode name => alignUp4 (p + 4#64 + BitVec.ofNat 64 (strlen name + 1))
  | .prop length _ => alignUp4 (p + 12#64 + length.setWidth 64)
  | _ => p + 4#64

/-- Where the token of a number is, the first being where the header says. -/
def place (m : Memory) (base : Addr) : Nat → Addr
  | 0 => structBlock m base
  | i + 1 => (rawToken m (place m base i)).next (place m base i)

def tokenAt (m : Memory) (base : Addr) (i : Nat) : RawToken := rawToken m (place m base i)

def RawToken.rise : RawToken → Int
  | .beginNode _ => 1
  | .endNode => -1
  | _ => 0

/-- The nodes that begin before a token, less those that end. -/
def depthBefore (m : Memory) (base : Addr) (i : Nat) : Int := ((List.range i).map fun j => (tokenAt m base j).rise).sum

/-- The name of the node that begins with a token, if it does and at that depth. -/
def nameAt (m : Memory) (base : Addr) (target : Int) (i : Nat) : Option CString :=
  match tokenAt m base i with
  | .beginNode name => if depthBefore m base i = target then some name else none
  | _ => none

/-- The names of the nodes at a depth that begin before a token. -/
def namesBefore (m : Memory) (base : Addr) (target : Int) (i : Nat) : List CString :=
  (List.range i).filterMap (nameAt m base target)

/-- Before a token the parts of the path have all been met by nodes at its depth, in order and one a node. -/
def MetBefore (m : Memory) (base : Addr) (path : CString) (i : Nat) : Prop :=
  List.SublistForall₂ Takes (parts path) (namesBefore m base (targetDepth path) i)

/-- Where the name of a property is. -/
def nameAddr (m : Memory) (base : Addr) (nameOffset : BitVec 32) : Addr := stringsBlock m base + nameOffset.setWidth 64

/-- The search ends at a token: the tree ends there, or the path has been met and a node ends or the property
has the name. -/
def EndsAt (m : Memory) (base : Addr) (path propName : CString) (i : Nat) : Prop :=
  match tokenAt m base i with
  | .finish => True
  | .endNode => MetBefore m base path i
  | .prop _ nameOffset => MetBefore m base path i ∧ HoldsString m (nameAddr m base nameOffset) propName
  | _ => False

/-- The search does not end before a token. -/
def Searched (m : Memory) (base : Addr) (path propName : CString) (i : Nat) : Prop :=
  ∀ j < i, ¬ EndsAt m base path propName j

section
variable {m : Memory} {base : Addr} {path propName : CString} {w : Walk} {i : Nat}

theorem rawToken_beginNode {p : Addr} (tag : be32 m p = fdtBeginNode) :
    rawToken m p = .beginNode (stringAt m (p + 4#64)) := if_pos tag

theorem rawToken_prop {p : Addr} (tag : be32 m p = fdtProp) :
    rawToken m p = .prop (be32 m (p + 4#64)) (be32 m (p + 8#64)) := by
  rw [rawToken, tag]
  rfl

theorem rawToken_finish {p : Addr} (tag : be32 m p = fdtEnd) : rawToken m p = .finish := by
  rw [rawToken, tag]
  rfl

theorem depthBefore_succ (m : Memory) (base : Addr) (i : Nat) :
    depthBefore m base (i + 1) = depthBefore m base i + (tokenAt m base i).rise := by
  rw [depthBefore, List.range_succ, List.map_append, List.sum_append, List.map_singleton, List.sum_singleton]
  rfl

theorem namesBefore_succ (m : Memory) (base : Addr) (target : Int) (i : Nat) :
    namesBefore m base target (i + 1) = namesBefore m base target i ++ (nameAt m base target i).toList := by
  rw [namesBefore, List.range_succ, List.filterMap_append]
  refine congrArg _ ?_
  rw [List.filterMap_cons, List.filterMap_nil]
  cases nameAt m base target i <;> rfl

/-- The parts of the path that are left to be met at a token. -/
def leftBefore (m : Memory) (base : Addr) (path : CString) (i : Nat) : List (Bool × List Byte) :=
  (namesBefore m base (targetDepth path) i).foldl (advance Takes) (parts path)

theorem leftBefore_eq_nil_iff : leftBefore m base path i = [] ↔ MetBefore m base path i := foldl_advance_eq_nil_iff Takes

theorem leftBefore_succ (m : Memory) (base : Addr) (path : CString) (i : Nat) :
    leftBefore m base path (i + 1) =
      (nameAt m base (targetDepth path) i).elim (leftBefore m base path i) (advance Takes (leftBefore m base path i)) := by
  rw [leftBefore, namesBefore_succ, List.foldl_append]
  cases nameAt m base (targetDepth path) i <;> rfl

theorem MetBefore.succ (met : MetBefore m base path i) : MetBefore m base path (i + 1) := by
  obtain ⟨names, taken, among⟩ := List.sublistForall₂_iff.mp met
  refine List.sublistForall₂_iff.mpr ⟨names, taken, ?_⟩
  rw [namesBefore_succ]
  exact among.trans (List.sublist_append_left _ _)

/-- The walk has come to a token: its pointer is there, its depth is that of the token, and it has found its node
if the path has been met. -/
structure Abreast (m : Memory) (base : Addr) (path : CString) (i : Nat) (w : Walk) : Prop where
  pointer : w.structPtr = place m base i
  depth : w.depth = depthBefore m base i
  search : (w.nodeFound = true ∧ MetBefore m base path i) ∨ Looking path (leftBefore m base path i) w

theorem abreast_start (m : Memory) (base strings : Addr) (path : CString) :
    Abreast m base path 0 (startWalk m ⟨base, strings⟩ path) where
  pointer := by
    change base + (cell m (base + 8#64)).setWidth 64 = structBlock m base
    rw [cell_eq]
    rfl
  depth := rfl
  search := .inr ⟨rfl, rfl, rfl⟩

theorem Looking.unmet (looking : Looking path (leftBefore m base path i) w) : ¬ MetBefore m base path i := by
  intro met
  have left := looking.left
  rw [leftBefore_eq_nil_iff.mpr met] at left
  exact partsFrom_ne_nil left

theorem Abreast.found_iff (abreast : Abreast m base path i w) : w.nodeFound = true ↔ MetBefore m base path i := by
  rcases abreast.search with ⟨found, met⟩ | looking
  · exact iff_of_true found met
  · refine iff_of_false ?_ looking.unmet
    rw [looking.missing]
    exact Bool.false_ne_true

/-- A token that is no node's beginning leaves the search where it was. -/
theorem Abreast.pass (abreast : Abreast m base path i w) (unnamed : nameAt m base (targetDepth path) i = none)
    {next : Addr} {depth : Int} (there : next = place m base (i + 1)) (deep : depth = depthBefore m base (i + 1)) :
    Abreast m base path (i + 1) { w with structPtr := next, depth := depth } := by
  refine ⟨there, deep, ?_⟩
  rcases abreast.search with ⟨found, met⟩ | looking
  · exact .inl ⟨found, met.succ⟩
  · refine .inr ?_
    rw [leftBefore_succ, unnamed]
    exact ⟨looking.missing, looking.slash, looking.left⟩

theorem Abreast.beginNode (abreast : Abreast m base path i w) {name : CString} (token : tokenAt m base i = .beginNode name)
    {next : Addr} (there : next = place m base (i + 1)) :
    Abreast m base path (i + 1)
      (if w.nodeFound = false ∧ w.depth + 1 = targetDepth path + 1 then
        matchNode path name { w with structPtr := next, depth := w.depth + 1 }
      else { w with structPtr := next, depth := w.depth + 1 }) := by
  have deeper : w.depth + 1 = depthBefore m base (i + 1) := by
    rw [depthBefore_succ, token, abreast.depth]
    rfl
  by_cases level : depthBefore m base i = targetDepth path
  · have named : nameAt m base (targetDepth path) i = some name := by
      rw [nameAt, token]
      exact if_pos level
    have left := leftBefore_succ m base path i
    rw [named] at left
    rcases abreast.search with ⟨found, met⟩ | looking
    · rw [if_neg fun both => by rw [found] at both; exact Bool.noConfusion both.1]
      exact ⟨there, deeper, .inl ⟨found, met.succ⟩⟩
    · rw [if_pos ⟨looking.missing, by rw [abreast.depth, level]⟩]
      refine ⟨(matchNode_structPtr _ _ _).trans there, (matchNode_depth _ _ _).trans deeper, ?_⟩
      have still : Looking path (leftBefore m base path i) { w with structPtr := next, depth := w.depth + 1 } :=
        ⟨looking.missing, looking.slash, looking.left⟩
      rcases still.matchNode name with ⟨met, found⟩ | still
      · exact .inl ⟨found, leftBefore_eq_nil_iff.mp (left.trans met)⟩
      · exact .inr (left ▸ still)
  · have unnamed : nameAt m base (targetDepth path) i = none := by
      rw [nameAt, token]
      exact if_neg level
    rw [if_neg fun both => level (by rw [← abreast.depth]; omega)]
    exact abreast.pass unnamed there deeper

/-- One turn of the loop at a token: the search ends there, or the walk comes to the next one. -/
theorem Abreast.turn (abreast : Abreast m base path i w) (propName : CString) :
    (EndsAt m base path propName i ∧ ∀ w', ¬ Turn m ⟨base, stringsBlock m base⟩ path propName w w') ∨
      ¬ EndsAt m base path propName i ∧ ∃ w', Turn m ⟨base, stringsBlock m base⟩ path propName w w' ∧
        Abreast m base path (i + 1) w' := by
  have found := abreast.found_iff
  have token : tokenAt m base i = rawToken m (place m base i) := rfl
  have next : (tokenAt m base i).next (place m base i) = place m base (i + 1) := rfl
  have depth : w.depth + (tokenAt m base i).rise = depthBefore m base (i + 1) := by
    rw [depthBefore_succ, abreast.depth]
  simp only [Turn, walkStep, EndsAt, cell_eq, abreast.pointer]
  rw [rawToken] at token
  split_ifs at token with beginNode endNode prop ended
  · rw [token] at next depth ⊢
    rw [beginNode, if_pos rfl]
    exact .inr ⟨id, _, ⟨by decide, rfl⟩, abreast.beginNode token next⟩
  · have unnamed : nameAt m base (targetDepth path) i = none := by rw [nameAt, token]
    rw [token] at next depth ⊢
    rw [endNode, if_neg (by decide), if_pos rfl]
    by_cases met : MetBefore m base path i
    · rw [if_pos (found.mpr met)]
      exact .inl ⟨met, fun w' turn => Sum.inr_ne_inl turn.2⟩
    · rw [if_neg (mt found.mp met)]
      exact .inr ⟨met, _, ⟨by decide, rfl⟩, abreast.pass unnamed next depth⟩
  · have unnamed : nameAt m base (targetDepth path) i = none := by rw [nameAt, token]
    have offset : place m base i + 4#64 + 4#64 = place m base i + 8#64 := by bv_omega
    have value : place m base i + 4#64 + 8#64 = place m base i + 12#64 := by bv_omega
    have same : (w.nodeFound = true ∧ strcmp (m.view (nameAddr m base (be32 m (place m base i + 8#64)))) propName = 0) ↔
        MetBefore m base path i ∧ HoldsString m (nameAddr m base (be32 m (place m base i + 8#64))) propName :=
      and_congr found strcmp_eq_zero
    rw [token] at next depth ⊢
    rw [prop, if_neg (by decide), if_neg (by decide), if_pos rfl, offset, value]
    by_cases named : MetBefore m base path i ∧ HoldsString m (nameAddr m base (be32 m (place m base i + 8#64))) propName
    · exact .inl ⟨named, fun w' turn => Sum.inr_ne_inl ((if_pos (same.mpr named)).symm.trans turn.2)⟩
    · have depth := (Int.add_zero w.depth).symm.trans depth
      exact .inr ⟨named, _, ⟨by decide, if_neg (mt same.mp named)⟩, abreast.pass unnamed next depth⟩
  · rw [token, ended]
    exact .inl ⟨trivial, fun w' turn => turn.1 rfl⟩
  · have unnamed : nameAt m base (targetDepth path) i = none := by rw [nameAt, token]
    rw [token] at next depth ⊢
    rw [if_neg beginNode, if_neg endNode, if_neg prop]
    have depth := (Int.add_zero w.depth).symm.trans depth
    exact .inr ⟨id, _, ⟨ended, rfl⟩, abreast.pass unnamed next depth⟩

/-- Every state of the walk is at a token that the search comes to. -/
theorem Visited.abreast (visited : Visited m ⟨base, stringsBlock m base⟩ path propName w) :
    ∃ i, Searched m base path propName i ∧ Abreast m base path i w := by
  induction visited with
  | refl => exact ⟨0, fun j below => absurd below (Nat.not_lt_zero j), abreast_start m base _ path⟩
  | tail _ turn ih =>
      obtain ⟨i, searched, abreast⟩ := ih
      rcases abreast.turn propName with ⟨_, stays⟩ | ⟨goesOn, w', turn', abreast'⟩
      · exact absurd turn (stays _)
      · obtain rfl : _ = w' := Sum.inl.inj (turn.2.symm.trans turn'.2)
        refine ⟨i + 1, fun j below => ?_, abreast'⟩
        rcases Nat.lt_succ_iff_lt_or_eq.mp below with earlier | rfl
        · exact searched j earlier
        · exact goesOn

/-- The walk comes to every token that the search comes to. -/
theorem Searched.visited (searched : Searched m base path propName i) :
    ∃ w, Visited m ⟨base, stringsBlock m base⟩ path propName w ∧ Abreast m base path i w := by
  induction i with
  | zero => exact ⟨_, .refl, abreast_start m base _ path⟩
  | succ i ih =>
      obtain ⟨w, visited, abreast⟩ := ih fun j below => searched j (Nat.lt_succ_of_lt below)
      rcases abreast.turn propName with ⟨ends, _⟩ | ⟨_, w', turn, abreast'⟩
      · exact absurd ends (searched i (Nat.lt_succ_self i))
      · exact ⟨w', visited.tail turn, abreast'⟩

end
end AstralOS.Boot
