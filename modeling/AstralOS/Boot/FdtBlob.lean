import AstralOS.Boot.DeviceTree
import AstralOS.Boot.DtbReads

/-! Blobs with the sizes in their headers, and the walk in step with their tokens. -/
namespace AstralOS.Boot
open Foundation Foundation.Traced AstralOS.Lib

/-- A length rounded up to a multiple of four. -/
def padded (n : Nat) : Nat := (n + 3) / 4 * 4

/-- The bytes of a token, its padding included. -/
def Token.width : Token → Nat
  | .nop => 4
  | .endNode => 4
  | .beginNode name => 4 + padded (strlen name + 1)
  | .prop q => 12 + padded q.value.length

def width (tokens : List Token) : Nat := (tokens.map Token.width).sum

/-- The token is at `p`, and the name of a property in the strings block. -/
def Token.LiesAt (m : Memory) (strings : Addr) (sizeStrings : Nat) (p : Addr) : Token → Prop
  | .nop => be32 m p = fdtNop
  | .endNode => be32 m p = fdtEndNode
  | .beginNode name => be32 m p = fdtBeginNode ∧ HoldsString m (p + 4#64) name
  | .prop q =>
      be32 m p = fdtProp ∧ be32 m (p + 4#64) = BitVec.ofNat 32 q.value.length ∧
        (be32 m (p + 8#64)).toNat + strlen q.name < sizeStrings ∧
        HoldsString m (strings + (be32 m (p + 8#64)).setWidth 64) q.name ∧ HoldsBytes m (p + 12#64) q.value

/-- The tokens are one after another from `p` on, and the end token after them. -/
def Encoded (m : Memory) (strings : Addr) (sizeStrings : Nat) : Addr → List Token → Prop
  | p, [] => be32 m p = fdtEnd
  | p, t :: rest =>
      t.LiesAt m strings sizeStrings p ∧ Encoded m strings sizeStrings (p + BitVec.ofNat 64 t.width) rest

/-- A word of the header. -/
def headerWord (m : Memory) (base : Addr) (offset : BitVec 64) : BitVec 32 := be32 m (base + offset)

def structBlock (m : Memory) (base : Addr) : Addr := base + (headerWord m base 8#64).setWidth 64

def stringsBlock (m : Memory) (base : Addr) : Addr := base + (headerWord m base 12#64).setWidth 64

/-- The name of a property ends inside the strings block. -/
def Token.NameInside (m : Memory) (sizeStrings : Nat) (p : Addr) : Token → Prop
  | .prop q => (be32 m (p + 8#64)).toNat + strlen q.name < sizeStrings
  | _ => True

def NamesInside (m : Memory) (sizeStrings : Nat) : Addr → List Token → Prop
  | _, [] => True
  | p, t :: rest => t.NameInside m sizeStrings p ∧ NamesInside m sizeStrings (p + BitVec.ofNat 64 t.width) rest

instance (m : Memory) (sizeStrings : Nat) (p : Addr) : ∀ t : Token, Decidable (t.NameInside m sizeStrings p)
  | .prop _ => inferInstanceAs (Decidable (_ < _))
  | .nop => isTrue trivial
  | .endNode => isTrue trivial
  | .beginNode _ => isTrue trivial

instance decidableNamesInside (m : Memory) (sizeStrings : Nat) :
    ∀ p tokens, Decidable (NamesInside m sizeStrings p tokens)
  | _, [] => isTrue trivial
  | p, t :: rest =>
      have := decidableNamesInside m sizeStrings (p + BitVec.ofNat 64 t.width) rest
      inferInstanceAs (Decidable (_ ∧ _))

/-- A well-formed blob: one that is aligned, with its structure and strings blocks inside it. -/
structure FdtBlob (m : Memory) (base : Addr) extends Blob m base where
  nonnull : base ≠ 0#64
  aligned : base.toNat % 4 = 0
  header : 40 ≤ (headerWord m base 4#64).toNat
  whole : base.toNat + (headerWord m base 4#64).toNat < 2 ^ 64
  structAligned : (headerWord m base 8#64).toNat % 4 = 0
  structSize : (headerWord m base 36#64).toNat = width tokens + 4
  structInside : (headerWord m base 8#64).toNat + (headerWord m base 36#64).toNat ≤ (headerWord m base 4#64).toNat
  stringsInside : (headerWord m base 12#64).toNat + (headerWord m base 32#64).toNat ≤ (headerWord m base 4#64).toNat
  namesInside : NamesInside m (headerWord m base 32#64).toNat (structBlock m base) tokens

theorem chosenBase_nonnull : chosenBase ≠ 0#64 := by decide
theorem chosenBase_aligned : chosenBase.toNat % 4 = 0 := by decide

def chosenFdtBlob : FdtBlob chosenMemory chosenBase where
  toBlob := chosenBlob
  nonnull := chosenBase_nonnull
  aligned := chosenBase_aligned
  header := by decide +kernel
  whole := by decide +kernel
  structAligned := by decide +kernel
  structSize := by decide +kernel
  structInside := by decide +kernel
  stringsInside := by decide +kernel
  namesInside := by decide +kernel

/-- The names of the open nodes after a token, from the root on. -/
def openStep (names : List CString) : Token → List CString
  | .beginNode name => names ++ [name]
  | .endNode => names.dropLast
  | _ => names

/-- The names of the nodes that some tokens leave open. -/
def opened (tokens : List Token) : List CString := tokens.foldl openStep []

/-- No node ends that has not begun, `n` of them being open before. -/
def Balanced : Nat → List Token → Prop
  | _, [] => True
  | n, .beginNode _ :: rest => Balanced (n + 1) rest
  | n, .endNode :: rest => 1 ≤ n ∧ Balanced (n - 1) rest
  | n, .prop _ :: rest => Balanced n rest
  | n, .nop :: rest => Balanced n rest

section
variable {m : Memory} {base strings p : Addr} {n sizeStrings : Nat} {tokens rest : List Token} {t : Token}

theorem balanced_of_nested (nested : Nested n tokens) : Balanced n tokens := by
  induction tokens generalizing n with
  | nil => trivial
  | cons t rest ih =>
      cases t with
      | beginNode name => exact ih nested.2.2
      | endNode => exact ⟨nested.1, ih nested.2⟩
      | prop q => exact ih (n := n) nested
      | nop => exact ih (n := n) nested

theorem balanced_filter (balanced : Balanced n (tokens.filter Token.Counts)) : Balanced n tokens := by
  induction tokens generalizing n with
  | nil => trivial
  | cons t rest ih =>
      cases t with
      | beginNode name => exact ih (n := n + 1) balanced
      | endNode => exact ⟨balanced.1, ih balanced.2⟩
      | prop q => exact ih (n := n) balanced
      | nop => exact ih (n := n) balanced

theorem FdtBlob.balanced (blob : FdtBlob m base) : Balanced 0 blob.tokens := by
  refine balanced_filter ?_
  rw [blob.encoded]
  have wellNamed := blob.wellNamed
  cases root : blob.root with
  | mk name properties subnodes =>
      rw [root] at wellNamed
      rw [Node.tokens]
      change Balanced 1 _
      exact balanced_of_nested (nested_inner wellNamed)

theorem padded_mod (n : Nat) : padded n % 4 = 0 := Nat.mul_mod_left _ _

theorem Token.width_mod (t : Token) : t.width % 4 = 0 := by
  cases t with
  | nop => rfl
  | endNode => rfl
  | beginNode name =>
      have := padded_mod (strlen name + 1)
      rw [Token.width]
      omega
  | prop q =>
      have := padded_mod q.value.length
      rw [Token.width]
      omega

theorem Token.width_ge (t : Token) : 4 ≤ t.width := by
  cases t with
  | nop => exact le_rfl
  | endNode => exact le_rfl
  | beginNode name => exact Nat.le_add_right _ _
  | prop q => exact Nat.le_add_right_of_le (by decide)

/-- Padding the address pads the length, where the token is at a multiple of four. -/
theorem alignUp4_padded (aligned : p.toNat % 4 = 0) {h k : Nat} (head : h % 4 = 0)
    (fits : p.toNat + h + padded k < 2 ^ 64) :
    alignUp4 (p + BitVec.ofNat 64 h + BitVec.ofNat 64 k) = p + BitVec.ofNat 64 (h + padded k) := by
  rw [padded] at fits ⊢
  have three : (3#64).toNat = 3 := rfl
  have sum : (p + BitVec.ofNat 64 h + BitVec.ofNat 64 k + 3#64).toNat = p.toNat + h + k + 3 := by
    rw [BitVec.toNat_add, toNat_add_ofNat, toNat_add_ofNat (by omega)]
    · exact Nat.mod_eq_of_lt (by omega)
    · rw [toNat_add_ofNat (by omega)]
      omega
  refine BitVec.eq_of_toNat_eq ((toNat_clear 2 _).trans ?_)
  rw [sum, toNat_add_ofNat (by omega)]
  omega

end

section
variable {m : Memory} {base : Addr} {g : Globals} {path propName : CString} {target : Int} {w : Walk} {t : Token}
  {sizeStrings : Nat}

/-- What the loop makes of a token, with the pointer after it. -/
def Token.step (path propName : CString) (target : Int) (p : Addr) (w : Walk) : Token → Walk ⊕ Answer
  | .nop => .inl { w with structPtr := p }
  | .endNode => if w.nodeFound then .inr (0#64, none) else .inl { w with structPtr := p, depth := w.depth - 1 }
  | .beginNode name =>
      let w' : Walk := { w with structPtr := p, depth := w.depth + 1 }
      .inl (if w.nodeFound = false ∧ w.depth = target then matchNode path name w' else w')
  | .prop q =>
      if w.nodeFound = true ∧ q.name = propName then
        .inr (w.structPtr + 12#64, some (BitVec.ofNat 32 q.value.length))
      else .inl { w with structPtr := p }

/-- The string that a property's name is compared with is the name itself. -/
theorem strcmp_held {f : Bytes} {name : CString} (held : ∀ i ≤ strlen name, f i = name.bytes i) :
    strcmp f propName = 0 ↔ name = propName := by
  rw [strcmp_eq_zero]
  constructor
  · intro same
    rcases Nat.le_total (strlen name) (strlen propName) with shorter | longer
    · exact CString.eq_of_bytes fun i inside => (same i (inside.trans shorter)).symm.trans (held i inside)
    · exact (CString.eq_of_bytes fun i inside => (held i (inside.trans longer)).symm.trans (same i inside)).symm
  · rintro rfl
    exact held

/-- The pointer after a node's name. -/
theorem beginNode_next {p : Addr} {name : CString} (aligned : p.toNat % 4 = 0)
    (fits : p.toNat + (Token.beginNode name).width < 2 ^ 64) : strlen name < 2 ^ 64 ∧
      alignUp4 (p + 4#64 + BitVec.ofNat 64 (strlen name + 1)) = p + BitVec.ofNat 64 (Token.beginNode name).width := by
  rw [Token.width] at fits
  refine ⟨?_, alignUp4_padded aligned (h := 4) rfl (by omega)⟩
  rw [padded] at fits
  omega

/-- The pointer after a property's value. -/
theorem prop_next {p : Addr} {q : Property} (aligned : p.toNat % 4 = 0) (fits : p.toNat + (Token.prop q).width < 2 ^ 64) :
    alignUp4 (p + 4#64 + 8#64 + (BitVec.ofNat 32 q.value.length).setWidth 64) =
      p + BitVec.ofNat 64 (Token.prop q).width := by
  have place : p + 4#64 + 8#64 = p + 12#64 := by bv_omega
  have whole : (BitVec.ofNat 32 q.value.length).setWidth 64 = BitVec.ofNat 64 q.value.length := by
    have := q.short
    bv_omega
  rw [Token.width] at fits
  rw [place, whole]
  exact alignUp4_padded aligned (h := 12) rfl (by omega)

/-- From a multiple of four on, an aligned pointer is past the padding: the tokens follow each other by their widths. -/
theorem encoded_of_lays {strings p : Addr} {tokens : List Token} (aligned : p.toNat % 4 = 0)
    (fits : p.toNat + width tokens < 2 ^ 64) (laid : Lays m strings p tokens)
    (inside : NamesInside m sizeStrings p tokens) : Encoded m strings sizeStrings p tokens := by
  induction tokens generalizing p with
  | nil => exact laid
  | cons t rest ih =>
      have first : width (t :: rest) = t.width + width rest := List.sum_cons
      have moved : (p + BitVec.ofNat 64 t.width).toNat = p.toNat + t.width := toNat_add_ofNat (by omega)
      have multiple := t.width_mod
      have next (later : Lays m strings (p + BitVec.ofNat 64 t.width) rest) :=
        ih (by omega) (by omega) later inside.2
      cases t with
      | nop => exact ⟨laid.1, next laid.2⟩
      | endNode => exact ⟨laid.1, next laid.2⟩
      | beginNode name =>
          obtain ⟨here, held, _, later⟩ := laid
          rw [(beginNode_next aligned (by omega)).2] at later
          exact ⟨⟨here, held⟩, next later⟩
      | prop q =>
          obtain ⟨here, length, named, held, later⟩ := laid
          have padding : alignUp4 (p + 12#64 + BitVec.ofNat 64 q.value.length) = p + BitVec.ofNat 64 (Token.prop q).width :=
            alignUp4_padded aligned (h := 12) rfl (by rw [Token.width] at first; omega)
          rw [padding] at later
          exact ⟨⟨here, length, inside.1, named, held⟩, next later⟩

theorem walkStep_token (lies : t.LiesAt m g.dtStringsPtr sizeStrings w.structPtr) (aligned : w.structPtr.toNat % 4 = 0)
    (fits : w.structPtr.toNat + t.width < 2 ^ 64) : walkStep m g path propName target w =
      t.step path propName target (w.structPtr + BitVec.ofNat 64 t.width) w := by
  cases t with
  | nop => exact walkStep_nop lies
  | endNode =>
      have here : be32 m w.structPtr = fdtEndNode := lies
      rw [walkStep, cell_eq, here]
      rfl
  | beginNode name =>
      obtain ⟨here, held⟩ := lies
      obtain ⟨short, next⟩ := beginNode_next aligned fits
      have level : w.depth + 1 = target + 1 ↔ w.depth = target := by omega
      rw [walkStep, cell_eq, here, if_pos rfl, stringAt_eq held short]
      simp only [next, level, Token.step]
  | prop q =>
      obtain ⟨here, length, _, named, _⟩ := lies
      have place : w.structPtr + 4#64 + 8#64 = w.structPtr + 12#64 := by bv_omega
      have offset : w.structPtr + 4#64 + 4#64 = w.structPtr + 8#64 := by bv_omega
      rw [walkStep, cell_eq, here, if_neg (by decide), if_neg (by decide), if_pos rfl, cell_eq, cell_eq, offset, length]
      dsimp only
      rw [prop_next aligned fits, place]
      simp only [strcmp_held named, Token.step]

@[simp] theorem matchNode_structPtr (path name : CString) (w : Walk) :
    (matchNode path name w).structPtr = w.structPtr := by
  rw [matchNode]
  cases w.nextSlash <;> dsimp only <;> split_ifs <;> rfl

@[simp] theorem matchNode_depth (path name : CString) (w : Walk) : (matchNode path name w).depth = w.depth := by
  rw [matchNode]
  cases w.nextSlash <;> dsimp only <;> split_ifs <;> rfl

end

/-! The walk in step with the tokens. -/

/-- One turn of the loop that does not return. -/
def Turn (m : Memory) (g : Globals) (path propName : CString) (w w' : Walk) : Prop :=
  cell m w.structPtr ≠ fdtEnd ∧ walkStep m g path propName (targetDepth path) w = .inl w'

/-- The loop comes to the state. -/
def Visited (m : Memory) (g : Globals) (path propName : CString) : Walk → Prop :=
  Relation.ReflTransGen (Turn m g path propName) (startWalk m g path)

/-- The pointer is at a token, or at the end, and the depth is the number of open nodes. -/
structure InStep {m : Memory} {base : Addr} (blob : FdtBlob m base) (w : Walk) (before rest : List Token) : Prop where
  split : blob.tokens = before ++ rest
  pointer : w.structPtr = structBlock m base + BitVec.ofNat 64 (width before)
  depth : w.depth = (opened before).length

section
variable {m : Memory} {base strings p : Addr} {sizeStrings : Nat} {blob : FdtBlob m base} {path propName : CString}
  {target : Int} {w w' : Walk} {before rest : List Token} {t : Token} {g : Globals}

theorem width_append (before rest : List Token) : width (before ++ rest) = width before + width rest := by
  rw [width, List.map_append, List.sum_append]
  rfl

/-- The pointer past one more token. -/
theorem pointer_next (start : Addr) (before : List Token) (t : Token) :
    start + BitVec.ofNat 64 (width before) + BitVec.ofNat 64 t.width = start + BitVec.ofNat 64 (width (before ++ [t])) := by
  rw [BitVec.add_assoc, ← BitVec.ofNat_add, width_append]
  rfl

theorem split_next (split : blob.tokens = before ++ t :: rest) : blob.tokens = (before ++ [t]) ++ rest := by
  rw [split, List.append_assoc]
  rfl

theorem width_mod (tokens : List Token) : width tokens % 4 = 0 := by
  induction tokens with
  | nil => rfl
  | cons t rest ih =>
      have := t.width_mod
      rw [width] at ih ⊢
      rw [List.map_cons, List.sum_cons]
      omega

theorem encoded_append (laid : Encoded m strings sizeStrings p (before ++ rest)) :
    Encoded m strings sizeStrings (p + BitVec.ofNat 64 (width before)) rest := by
  induction before generalizing p with
  | nil => exact (BitVec.add_zero p).symm ▸ laid
  | cons t before ih =>
      have moved : p + BitVec.ofNat 64 t.width + BitVec.ofNat 64 (width before) =
          p + BitVec.ofNat 64 (width (t :: before)) := by
        rw [BitVec.add_assoc, ← BitVec.ofNat_add]
        rfl
      exact moved ▸ ih laid.2

theorem balanced_append {names : List CString} (balanced : Balanced names.length (before ++ rest)) :
    Balanced (before.foldl openStep names).length rest := by
  induction before generalizing names with
  | nil => exact balanced
  | cons t before ih =>
      rw [List.foldl_cons]
      cases t with
      | beginNode name =>
          refine ih ?_
          rw [openStep, List.length_append]
          exact balanced
      | endNode =>
          refine ih ?_
          rw [openStep, List.length_dropLast]
          exact balanced.2
      | prop q => exact ih balanced
      | nop => exact ih balanced

theorem opened_concat (before : List Token) (t : Token) : opened (before ++ [t]) = openStep (opened before) t :=
  List.foldl_concat _ _ _ _

/-- A node ends only where one is open. -/
theorem FdtBlob.open_at_end (blob : FdtBlob m base) (split : blob.tokens = before ++ .endNode :: rest) :
    1 ≤ (opened before).length := by
  have balanced : Balanced ([] : List CString).length (before ++ .endNode :: rest) := split ▸ blob.balanced
  exact (balanced_append balanced).1

theorem Token.LiesAt.going (lies : t.LiesAt m strings sizeStrings p) : cell m p ≠ fdtEnd := by
  rw [cell_eq]
  cases t with
  | nop => exact (show be32 m p = fdtNop from lies) ▸ by decide
  | endNode => exact (show be32 m p = fdtEndNode from lies) ▸ by decide
  | beginNode name => exact lies.1 ▸ by decide
  | prop q => exact lies.1 ▸ by decide

theorem toNat_word {offset : BitVec 32} {limit : Nat} (inside : offset.toNat ≤ limit) (whole : base.toNat + limit < 2 ^ 64) :
    (base + offset.setWidth 64).toNat = base.toNat + offset.toNat := by
  rw [← BitVec.ofNat_toNat]
  exact toNat_add_ofNat (by omega)

theorem FdtBlob.structBlock_toNat (blob : FdtBlob m base) :
    (structBlock m base).toNat = base.toNat + (headerWord m base 8#64).toNat :=
  toNat_word ((Nat.le_add_right _ _).trans blob.structInside) blob.whole

theorem FdtBlob.encodedAt (blob : FdtBlob m base) :
    Encoded m (stringsBlock m base) (headerWord m base 32#64).toNat (structBlock m base) blob.tokens := by
  have start := blob.structBlock_toNat
  have aligned := blob.aligned
  have structAligned := blob.structAligned
  have size := blob.structSize
  have inside := blob.structInside
  have whole := blob.whole
  exact encoded_of_lays (by omega) (by omega) blob.laid blob.namesInside

theorem InStep.lies (inStep : InStep blob w before (t :: rest)) :
    t.LiesAt m (stringsBlock m base) (headerWord m base 32#64).toNat w.structPtr := by
  have laid := blob.encodedAt
  rw [inStep.split] at laid
  rw [inStep.pointer]
  exact (encoded_append laid).1

theorem InStep.ended (inStep : InStep blob w before []) : cell m w.structPtr = fdtEnd := by
  have laid := blob.encodedAt
  rw [inStep.split] at laid
  have ended : be32 m _ = fdtEnd := encoded_append laid
  rw [cell_eq, inStep.pointer, ended]

theorem FdtBlob.stringsBlock_toNat (blob : FdtBlob m base) :
    (stringsBlock m base).toNat = base.toNat + (headerWord m base 12#64).toNat :=
  toNat_word ((Nat.le_add_right _ _).trans blob.stringsInside) blob.whole

theorem FdtBlob.strings_nonnull (blob : FdtBlob m base) : stringsBlock m base ≠ 0#64 := by
  intro null
  have place := blob.stringsBlock_toNat
  have zero : base.toNat = 0 := by
    rw [null] at place
    change 0 = _ at place
    omega
  exact blob.nonnull (BitVec.eq_of_toNat_eq zero)

theorem InStep.size (inStep : InStep blob w before rest) :
    width before + width rest + 4 = (headerWord m base 36#64).toNat := by
  rw [blob.structSize, inStep.split, width_append]

theorem InStep.toNat (inStep : InStep blob w before rest) :
    w.structPtr.toNat = (structBlock m base).toNat + width before := by
  have size := inStep.size
  have inside := blob.structInside
  have whole := blob.whole
  have start := blob.structBlock_toNat
  rw [inStep.pointer]
  exact toNat_add_ofNat (by omega)

theorem InStep.aligned (inStep : InStep blob w before rest) : w.structPtr.toNat % 4 = 0 := by
  have aligned := blob.aligned
  have structAligned := blob.structAligned
  have multiple := width_mod before
  rw [inStep.toNat, blob.structBlock_toNat]
  omega

theorem InStep.fits (inStep : InStep blob w before (t :: rest)) : w.structPtr.toNat + t.width < 2 ^ 64 := by
  have size := inStep.size
  have inside := blob.structInside
  have whole := blob.whole
  have start := blob.structBlock_toNat
  have first : width (t :: rest) = t.width + width rest := List.sum_cons
  rw [inStep.toNat]
  omega

theorem dtbInit_blob (blob : FdtBlob m base) (g : Globals) : dtbInit m base g = ⟨base, stringsBlock m base⟩ := by
  rw [dtbInit, cell_eq, cell_eq, if_neg (not_not.mpr blob.magic)]
  rfl

theorem InStep.step (inStep : InStep blob w before (t :: rest)) (base' : Addr) (path propName : CString) (target : Int) :
    walkStep m ⟨base', stringsBlock m base⟩ path propName target w =
      t.step path propName target (w.structPtr + BitVec.ofNat 64 t.width) w :=
  walkStep_token inStep.lies inStep.aligned inStep.fits

/-- The step lemma: a token is gone past, and the depth follows the nodes that are open. -/
theorem InStep.next (inStep : InStep blob w before (t :: rest))
    (stepped : t.step path propName target (w.structPtr + BitVec.ofNat 64 t.width) w = .inl w') :
    InStep blob w' (before ++ [t]) rest := by
  have split := split_next inStep.split
  have place : w.structPtr + BitVec.ofNat 64 t.width = structBlock m base + BitVec.ofNat 64 (width (before ++ [t])) := by
    rw [inStep.pointer]
    exact pointer_next _ _ _
  have depth := inStep.depth
  cases t with
  | nop =>
      cases stepped
      exact ⟨split, place, by rw [opened_concat]; exact depth⟩
  | endNode =>
      have open_ := blob.open_at_end inStep.split
      rw [Token.step] at stepped
      split_ifs at stepped
      cases stepped
      refine ⟨split, place, ?_⟩
      rw [opened_concat, openStep, List.length_dropLast]
      change w.depth - 1 = _
      omega
  | beginNode name =>
      cases stepped
      have deeper : w.depth + 1 = (opened (before ++ [.beginNode name])).length := by
        rw [opened_concat, openStep, List.length_append, depth]
        rfl
      split_ifs
      · exact ⟨split, (matchNode_structPtr _ _ _).trans place, (matchNode_depth _ _ _).trans deeper⟩
      · exact ⟨split, place, deeper⟩
  | prop q =>
      rw [Token.step] at stepped
      split_ifs at stepped
      cases stepped
      exact ⟨split, place, by rw [opened_concat]; exact depth⟩

theorem InStep.start (blob : FdtBlob m base) (strings : Addr) (path : CString) :
    InStep blob (startWalk m ⟨base, strings⟩ path) [] blob.tokens := by
  refine ⟨rfl, ?_, rfl⟩
  change base + (cell m (base + 8#64)).setWidth 64 = structBlock m base + 0#64
  rw [cell_eq, BitVec.add_zero]
  rfl

theorem Visited.inStep (visited : Visited m ⟨base, stringsBlock m base⟩ path propName w) :
    ∃ before rest, InStep blob w before rest := by
  induction visited with
  | refl => exact ⟨_, _, InStep.start blob _ path⟩
  | tail _ turn ih =>
      obtain ⟨before, rest, inStep⟩ := ih
      cases rest with
      | nil => exact absurd inStep.ended turn.1
      | cons t rest => exact ⟨_, _, inStep.next ((inStep.step base _ _ _).symm.trans turn.2)⟩

/-- A walk that is past some tokens. -/
theorem inStep_of_split (split : blob.tokens = before ++ rest) :
    InStep blob ⟨structBlock m base + BitVec.ofNat 64 (width before), 0, none, false, (opened before).length⟩ before rest :=
  ⟨split, rfl, rfl⟩

/-! What is read of the blob. -/

/-- In the header, the structure block or the strings block. -/
def InBlocks (m : Memory) (base a : Addr) : Prop :=
  (a - base).toNat < 40 ∨
    ((headerWord m base 8#64).toNat ≤ (a - base).toNat ∧
      (a - base).toNat < (headerWord m base 8#64).toNat + (headerWord m base 36#64).toNat) ∨
    ((headerWord m base 12#64).toNat ≤ (a - base).toNat ∧
      (a - base).toNat < (headerWord m base 12#64).toNat + (headerWord m base 32#64).toNat)

theorem toNat_word_sub {offset : BitVec 32} {k : Nat} (small : k < 2 ^ 63) :
    (base + offset.setWidth 64 + BitVec.ofNat 64 k - base).toNat = offset.toNat + k := by
  have := offset.isLt
  rw [← BitVec.ofNat_toNat, BitVec.add_assoc, ← BitVec.ofNat_add]
  exact toNat_sub_self_add base (by omega)

theorem read_struct {k n : Nat} (inside : k + n ≤ (headerWord m base 36#64).toNat) :
    Read.Within (InBlocks m base) ⟨structBlock m base + BitVec.ofNat 64 k, n⟩ := by
  intro i below
  have below : i < n := below
  have small := (headerWord m base 36#64).isLt
  refine .inr (.inl ?_)
  change _ ≤ (structBlock m base + BitVec.ofNat 64 k + BitVec.ofNat 64 i - base).toNat ∧ _
  rw [BitVec.add_assoc, ← BitVec.ofNat_add, structBlock, toNat_word_sub (by omega)]
  omega

theorem read_strings {offset : BitVec 32} {n : Nat}
    (inside : offset.toNat + n ≤ (headerWord m base 32#64).toNat) :
    Read.Within (InBlocks m base) ⟨stringsBlock m base + offset.setWidth 64, n⟩ := by
  intro i below
  have below : i < n := below
  have small := (headerWord m base 32#64).isLt
  refine .inr (.inr ?_)
  change _ ≤ (stringsBlock m base + offset.setWidth 64 + BitVec.ofNat 64 i - base).toNat ∧ _
  rw [← BitVec.ofNat_toNat, BitVec.add_assoc, ← BitVec.ofNat_add, stringsBlock, toNat_word_sub (by omega)]
  omega

theorem InStep.reads (inStep : InStep blob w before (t :: rest)) (path propName : CString) (target : Int) :
    Logs (Read.Within (InBlocks m base))
      (Traced.walkStep m ⟨base, stringsBlock m base⟩ path propName target w) := by
  have size := inStep.size
  have first : width (t :: rest) = t.width + width rest := List.sum_cons
  have lies := inStep.lies
  have later (k n : Nat) (inside : k + n ≤ t.width + 4) :
      Read.Within (InBlocks m base) ⟨w.structPtr + BitVec.ofNat 64 k, n⟩ := by
    rw [inStep.pointer, BitVec.add_assoc, ← BitVec.ofNat_add]
    exact read_struct (by omega)
  refine Traced.walkStep_logs.mpr ⟨?_, fun here => ?_, fun here => ?_⟩
  · have word := later 0 4 (by omega)
    rwa [show w.structPtr + BitVec.ofNat 64 0 = w.structPtr from BitVec.add_zero _] at word
  · rw [cell_eq] at here
    cases t with
    | nop => exact absurd (lies.symm.trans here) (by decide)
    | endNode => exact absurd (lies.symm.trans here) (by decide)
    | prop q => exact absurd (lies.1.symm.trans here) (by decide)
    | beginNode name =>
        have fits := inStep.fits
        rw [Token.width, padded] at fits later
        rw [stringAt_eq lies.2 (by omega)]
        exact later 4 (strlen name + 1) (by omega)
  · rw [cell_eq] at here
    cases t with
    | nop => exact absurd (lies.symm.trans here) (by decide)
    | endNode => exact absurd (lies.symm.trans here) (by decide)
    | beginNode name => exact absurd (lies.1.symm.trans here) (by decide)
    | prop q =>
        obtain ⟨_, _, inside, named, _⟩ := lies
        have offset : w.structPtr + 4#64 + 4#64 = w.structPtr + 8#64 := by bv_omega
        rw [Token.width] at later
        rw [offset, cell_eq]
        have ended := (named _ le_rfl).trans (bytes_strlen q.name)
        have name : Read.Within (InBlocks m base) ⟨_, strlen q.name + 1⟩ := read_strings (m := m) inside
        exact ⟨later 4 4 (by omega), later 8 4 (by omega), fun _ => name.mono (compared_le ended _)⟩

/-- From where the tokens are in step the loop ends, and reads what it should. -/
theorem InStep.terminates (inStep : InStep blob w before rest) (path propName : CString) (target : Int) :
    ∃ answer, walkFrom m ⟨base, stringsBlock m base⟩ path propName target (rest.length + 1) w = some answer ∧
      Logs (Read.Within (InBlocks m base))
        (Traced.walkFrom m ⟨base, stringsBlock m base⟩ path propName target (rest.length + 1) w) := by
  have word : Read.Within (InBlocks m base) ⟨w.structPtr, 4⟩ := by
    rw [inStep.pointer]
    exact read_struct (by have := inStep.size; omega)
  induction rest generalizing w before with
  | nil =>
      refine ⟨(0#64, none), ?_, ?_⟩
      · rw [walkFrom, if_pos inStep.ended]
      · rw [Traced.walkFrom, logs_bind, logs_event,
          if_pos (show (Traced.cell m w.structPtr).value = fdtEnd from inStep.ended)]
        exact ⟨word, logs_pure _⟩
  | cons t rest ih =>
      have going := inStep.lies.going
      have stepped := inStep.step base path propName target
      have reads := inStep.reads path propName target
      rw [walkFrom, if_neg going, stepped, Traced.walkFrom, logs_bind, logs_event,
        if_neg (show (Traced.cell m w.structPtr).value ≠ fdtEnd from going), logs_bind,
        Traced.walkStep_value, stepped]
      cases next : t.step path propName target (w.structPtr + BitVec.ofNat 64 t.width) w with
      | inr answer => exact ⟨answer, rfl, word, reads, logs_pure _⟩
      | inl w' =>
          have inStep' := inStep.next next
          obtain ⟨answer, found, logs⟩ := ih inStep' (by
            rw [inStep'.pointer]
            exact read_struct (by have := inStep'.size; omega))
          exact ⟨answer, found, word, reads, logs⟩

end

/-- At every turn the pointer is at a token and the depth is the number of nodes that are open; the loop
ends, and only the three blocks are read. -/
theorem walk_in_step {m : Memory} {base : Addr} (blob : FdtBlob m base) (g : Globals) (path propName : CString) :
    (∀ w, Visited m (dtbInit m base g) path propName w → ∃ before rest, InStep blob w before rest) ∧
      ∃ fuel answer, dtbGetProperty fuel m (dtbInit m base g) path propName = some answer ∧
        Logs (Read.Within (InBlocks m base))
          (Traced.dtbGetProperty fuel m (dtbInit m base g) path propName) := by
  rw [dtbInit_blob blob]
  refine ⟨fun w visited => visited.inStep, blob.tokens.length + 1, ?_⟩
  have nonnull := not_or.mpr ⟨blob.nonnull, blob.strings_nonnull⟩
  obtain ⟨answer, found, logs⟩ := (InStep.start blob (stringsBlock m base) path).terminates path propName (targetDepth path)
  rw [dtbGetProperty, if_neg nonnull, Traced.dtbGetProperty, if_neg nonnull, logs_bind,
    logs_event]
  refine ⟨answer, found, fun i below => .inl ?_, logs⟩
  have below : i < 4 := below
  have offset : base + 8#64 + BitVec.ofNat 64 i = base + BitVec.ofNat 64 (8 + i) := by
    rw [BitVec.ofNat_add, ← BitVec.add_assoc]
  change (base + 8#64 + BitVec.ofNat 64 i - base).toNat < 40
  rw [offset, toNat_sub_self_add base (by omega)]
  omega

end AstralOS.Boot
