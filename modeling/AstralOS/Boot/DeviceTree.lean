import AstralOS.Boot.Dtb
import AstralOS.Foundation.Loops

/-! Device trees, the blobs that encode them, and what a lookup in one finds. -/
namespace AstralOS.Boot
open Foundation AstralOS.Lib

structure Property where
  name : CString
  value : List Byte
  short : value.length < 2 ^ 32

/-- A node with its properties and its subnodes. -/
inductive Node
  | mk (name : CString) (properties : List Property) (subnodes : List Node)

namespace Node

def name : Node → CString
  | mk name _ _ => name

def properties : Node → List Property
  | mk _ properties _ => properties

def subnodes : Node → List Node
  | mk _ _ subnodes => subnodes

end Node

/-- The name without its unit address. -/
def baseName (name : CString) : List Byte := name.chars.takeWhile (· ≠ 0x40#8)

/-- A node below the root has a name of its own, and no name holds a slash. -/
inductive WellNamed : Node → Prop
  | mk {name properties subnodes} (named : baseName name ≠ []) (whole : 0x2F#8 ∉ name.chars)
      (below : ∀ n ∈ subnodes, WellNamed n) : WellNamed (.mk name properties subnodes)

/-- The tokens of the structure block. -/
inductive Token
  | beginNode (name : CString)
  | endNode
  | prop (p : Property)
  | nop

/-- The properties before the subnodes. -/
def Node.tokens : Node → List Token
  | .mk name properties subnodes =>
      .beginNode name :: (properties.map .prop ++ (subnodes.flatMap Node.tokens ++ [.endNode]))

def Token.Counts : Token → Bool
  | .nop => false
  | _ => true

/-- A big-endian word. -/
def be32 (m : Memory) (p : Addr) : BitVec 32 :=
  ((m p ++ m (p + 1#64)) ++ (m (p + 2#64) ++ m (p + 3#64)) : BitVec 32)

/-- The string and its terminator. -/
def HoldsString (m : Memory) (p : Addr) (s : CString) : Prop := ∀ i ≤ strlen s, m.view p i = s.bytes i

/-- The bytes of the value. -/
def HoldsBytes (m : Memory) (p : Addr) (value : List Byte) : Prop :=
  ∀ i, (h : i < value.length) → m.view p i = value[i]

/-- The tokens lie one after another from `p` on, each at a multiple of four, and the end
token after them. -/
def Lays (m : Memory) (strings : Addr) : Addr → List Token → Prop
  | p, [] => be32 m p = fdtEnd
  | p, .nop :: rest => be32 m p = fdtNop ∧ Lays m strings (p + 4#64) rest
  | p, .endNode :: rest => be32 m p = fdtEndNode ∧ Lays m strings (p + 4#64) rest
  | p, .beginNode name :: rest =>
      be32 m p = fdtBeginNode ∧ HoldsString m (p + 4#64) name ∧ strlen name < 2 ^ 64 ∧
        Lays m strings (alignUp4 (p + 4#64 + BitVec.ofNat 64 (strlen name + 1))) rest
  | p, .prop q :: rest =>
      be32 m p = fdtProp ∧ be32 m (p + 4#64) = BitVec.ofNat 32 q.value.length ∧
        HoldsString m (strings + (be32 m (p + 8#64)).setWidth 64) q.name ∧
        HoldsBytes m (p + 12#64) q.value ∧
        Lays m strings (alignUp4 (p + 12#64 + BitVec.ofNat 64 q.value.length)) rest

instance (m : Memory) (p : Addr) (s : CString) : Decidable (HoldsString m p s) :=
  inferInstanceAs (Decidable (∀ i ≤ strlen s, m.view p i = s.bytes i))

instance (m : Memory) (p : Addr) (value : List Byte) : Decidable (HoldsBytes m p value) :=
  inferInstanceAs (Decidable (∀ i, (h : i < value.length) → m.view p i = value[i]))

instance decidableLays (m : Memory) (strings : Addr) : ∀ p tokens, Decidable (Lays m strings p tokens)
  | p, [] => inferInstanceAs (Decidable (be32 m p = fdtEnd))
  | p, .nop :: rest =>
      have := decidableLays m strings (p + 4#64) rest
      inferInstanceAs (Decidable (_ ∧ _))
  | p, .endNode :: rest =>
      have := decidableLays m strings (p + 4#64) rest
      inferInstanceAs (Decidable (_ ∧ _))
  | p, .beginNode name :: rest =>
      have := decidableLays m strings (alignUp4 (p + 4#64 + BitVec.ofNat 64 (strlen name + 1))) rest
      inferInstanceAs (Decidable (_ ∧ _))
  | p, .prop q :: rest =>
      have := decidableLays m strings (alignUp4 (p + 12#64 + BitVec.ofNat 64 q.value.length)) rest
      inferInstanceAs (Decidable (_ ∧ _))

/-- A blob at `base`, with its tree. Nothing is said yet of its sizes. -/
structure Blob (m : Memory) (base : Addr) where
  root : Node
  tokens : List Token
  rootName : root.name = ⟨[], List.forall_mem_nil _⟩
  wellNamed : ∀ n ∈ root.subnodes, WellNamed n
  encoded : tokens.filter Token.Counts = root.tokens
  magic : be32 m base = fdtMagic
  laid : Lays m (base + (be32 m (base + 12#64)).setWidth 64) (base + (be32 m (base + 8#64)).setWidth 64) tokens

/-- A segment of a path fits a name; the last one may leave the unit address out. -/
def Fits (last : Bool) (segment : List Byte) (name : CString) : Prop :=
  name.chars = segment ∨ (last = true ∧ baseName name = segment)

/-- The nodes a path leads to, each given by its position in the list of subnodes. -/
inductive Leads : Node → List (List Byte) → List Nat → Node → Prop
  | last {parent n : Node} {segment : List Byte} {i : Nat} (at_ : parent.subnodes[i]? = some n)
      (fits : Fits true segment n.name) : Leads parent [segment] [i] n
  | step {parent n target : Node} {segment next : List Byte} {rest : List (List Byte)} {i : Nat}
      {is : List Nat} (at_ : parent.subnodes[i]? = some n) (fits : Fits false segment n.name)
      (leads : Leads n (next :: rest) is target) : Leads parent (segment :: next :: rest) (i :: is) target

/-- `/s1/.../sk` -/
def pathChars (segments : List (List Byte)) : List Byte := segments.flatMap (0x2F#8 :: ·)

/-- A lookup that ought to succeed: the path leads to one node, which has the property. -/
structure Query {m : Memory} {base : Addr} (blob : Blob m base) where
  segments : List (List Byte)
  path : CString
  spelled : path.chars = pathChars segments
  position : List Nat
  node : Node
  leads : Leads blob.root segments position node
  only : ∀ is n, Leads blob.root segments is n → is = position
  property : Property
  has : property ∈ node.properties

/-- The pointer is to the property's value, and its length is stored. -/
def Query.Answered {m : Memory} {base : Addr} {blob : Blob m base} (q : Query blob) (answer : Answer) : Prop :=
  answer.1 ≠ 0#64 ∧ HoldsBytes m answer.1 q.property.value ∧
    answer.2 = some (BitVec.ofNat 32 q.property.value.length)

/-- What the lookup gives, the globals being those `dtb_init` leaves. -/
def Query.Completes {m : Memory} {base : Addr} {blob : Blob m base} (q : Query blob) : Prop :=
  ∃ fuel answer, dtbGetProperty fuel m (dtbInit m base .start) q.path q.property.name = some answer ∧
    q.Answered answer

section
variable {m : Memory} {g : Globals} {base strings p : Addr} {path propName : CString} {target : Int}
  {w : Walk} {n : Nat} {rest : List Token}

theorem toNat_append {n k : Nat} (x : BitVec n) (y : BitVec k) :
    (x ++ y).toNat = x.toNat * 2 ^ k + y.toNat := by
  rw [BitVec.toNat_append, ← Nat.shiftLeft_add_eq_or_of_lt y.isLt, Nat.shiftLeft_eq]

theorem leByte_append (a b c d : Byte) {i : Nat} (below : i < 4) :
    leByte ((d ++ c) ++ (b ++ a) : BitVec 32) i = [a, b, c, d].getD i 0#8 := by
  have byte := a.isLt
  have byte1 := b.isLt
  have byte2 := c.isLt
  refine BitVec.eq_of_toNat_eq ?_
  rw [leByte, BitVec.toNat_ofNat, toNat_append, toNat_append, toNat_append]
  interval_cases i <;> simp <;> omega

theorem bswap32_append (a b c d : Byte) :
    bswap32 ((d ++ c) ++ (b ++ a) : BitVec 32) = ((a ++ b) ++ (c ++ d) : BitVec 32) := by
  refine BitVec.eq_of_getLsbD_eq fun i below => ?_
  simp only [bswap32, BitVec.getLsbD_or, BitVec.getLsbD_and, BitVec.getLsbD_shiftLeft,
    BitVec.getLsbD_ushiftRight, BitVec.getLsbD_append]
  interval_cases i <;> simp

/-- Four bytes read and swapped are a big-endian word. -/
theorem cell_eq (m : Memory) (p : Addr) : cell m p = be32 m p := by
  have little : load 32 4 m p = ((m (p + 3#64) ++ m (p + 2#64)) ++ (m (p + 1#64) ++ m p) : BitVec 32) := by
    refine le_eq_of_bytes (by decide) _ fun i below => ?_
    rw [leByte_append _ _ _ _ below]
    interval_cases i
    · exact congrArg m (BitVec.add_zero p)
    all_goals rfl
  rw [cell, little, bswap32_append, be32]

theorem stringAt_eq {name : CString} (held : HoldsString m p name) (short : strlen name < 2 ^ 64) :
    stringAt m p = name :=
  (strcmp_eq_zero_iff_ofField short).mp (strcmp_eq_zero.mpr held)

theorem indexFrom_base (chars : List Byte) :
    (indexFrom 0x40#8 chars).getD chars.length = (chars.takeWhile (· ≠ 0x40#8)).length := by
  induction chars with
  | nil => rfl
  | cons c rest ih =>
      by_cases unit : c = 0x40#8
      · simp [indexFrom, unit]
      · cases found : indexFrom 0x40#8 rest <;> simp_all [indexFrom]

/-- `name_len` -/
theorem nameLen_eq (name : CString) :
    (strchr name 0x40#8).getD (strlen name) = (baseName name).length := indexFrom_base name.chars

/-! A walk that is past the root changes nothing but its place. -/

/-- Past the root, `n` nodes deep. -/
def Nested : Nat → List Token → Prop
  | _, [] => True
  | n, .beginNode name :: rest => 1 ≤ n ∧ baseName name ≠ [] ∧ Nested (n + 1) rest
  | n, .endNode :: rest => 1 ≤ n ∧ Nested (n - 1) rest
  | n, .prop _ :: rest => Nested n rest
  | n, .nop :: rest => Nested n rest

theorem nested_filter {tokens : List Token} (nested : Nested n (tokens.filter Token.Counts)) :
    Nested n tokens := by
  induction tokens generalizing n with
  | nil => exact nested
  | cons token rest ih =>
      cases token with
      | beginNode name => exact ⟨nested.1, nested.2.1, ih nested.2.2⟩
      | endNode => exact ⟨nested.1, ih nested.2⟩
      | prop q => exact ih (n := n) nested
      | nop => exact ih (n := n) nested

theorem nested_properties (properties : List Property) (nested : Nested n rest) :
    Nested n (properties.map .prop ++ rest) := by
  induction properties with
  | nil => exact nested
  | cons q properties ih => exact ih

theorem nested_subnodes {subnodes : List Node}
    (each : ∀ node ∈ subnodes, ∀ rest, Nested n rest → Nested n (node.tokens ++ rest))
    (nested : Nested n rest) : Nested n (subnodes.flatMap Node.tokens ++ rest) := by
  induction subnodes with
  | nil => exact nested
  | cons node subnodes ih =>
      rw [List.flatMap_cons, List.append_assoc]
      exact each node List.mem_cons_self _ (ih fun other member => each other (List.mem_cons_of_mem _ member))

theorem nested_node {node : Node} (named : WellNamed node) (deep : 1 ≤ n) (nested : Nested n rest) :
    Nested n (node.tokens ++ rest) := by
  induction named generalizing n rest with
  | @mk name properties subnodes base whole below ih =>
      rw [Node.tokens, List.cons_append, List.append_assoc, List.append_assoc]
      refine ⟨deep, base, nested_properties properties (nested_subnodes (fun node member rest inner => ?_) ?_)⟩
      · exact ih node member (Nat.le_add_left 1 n) inner
      · exact ⟨Nat.le_add_left 1 n, nested⟩

/-- What is left of a tree after the root has begun. -/
theorem nested_inner {properties : List Property} {subnodes : List Node} (wellNamed : ∀ n ∈ subnodes, WellNamed n) :
    Nested 1 (properties.map .prop ++ (subnodes.flatMap Node.tokens ++ [.endNode])) := by
  refine nested_properties properties (nested_subnodes (fun node member rest inner => ?_) ?_)
  · exact nested_node (wellNamed node member) le_rfl inner
  · exact ⟨le_rfl, trivial⟩

/-- No name below the root can match: either the walk looks at the root's depth, or it looks for
an empty segment. -/
structure Stuck (target : Int) (w : Walk) : Prop where
  missing : w.nodeFound = false
  idle : target = 0 ∨ w.nextSlash = some w.currentNodePath

theorem matchNode_empty {name : CString} (named : baseName name ≠ [])
    (segment : w.nextSlash = some w.currentNodePath) : matchNode path name w = w := by
  have long : ¬ w.currentNodePath - w.currentNodePath = (baseName name).length := by
    rw [Nat.sub_self]
    exact fun zero => named (List.eq_nil_of_length_eq_zero zero.symm)
  rw [matchNode, segment, nameLen_eq]
  exact if_neg fun both => long both.2

/-- What one token does to a walk that found nothing yet. -/
theorem walkStep_nop (here : be32 m w.structPtr = fdtNop) :
    walkStep m g path propName target w = .inl { w with structPtr := w.structPtr + 4#64 } := by
  rw [walkStep, cell_eq, here]
  rfl

theorem walkStep_endNode (missing : w.nodeFound = false) (here : be32 m w.structPtr = fdtEndNode) :
    walkStep m g path propName target w =
      .inl { w with structPtr := w.structPtr + 4#64, depth := w.depth - 1 } := by
  rw [walkStep, cell_eq, here, if_neg (by decide), if_pos rfl, missing]
  rfl

theorem walkStep_prop (missing : w.nodeFound = false) (here : be32 m w.structPtr = fdtProp) :
    walkStep m g path propName target w = .inl { w with
      structPtr := alignUp4 (w.structPtr + 12#64 + (be32 m (w.structPtr + 4#64)).setWidth 64) } := by
  have place : w.structPtr + 4#64 + 8#64 = w.structPtr + 12#64 := by bv_omega
  rw [walkStep, cell_eq, here, if_neg (by decide), if_neg (by decide), if_pos rfl, cell_eq, missing, place]
  rfl

theorem walkStep_beginNode (missing : w.nodeFound = false) (here : be32 m w.structPtr = fdtBeginNode)
    {name : CString} (held : HoldsString m (w.structPtr + 4#64) name) (short : strlen name < 2 ^ 64)
    {w' : Walk} (moved : w' = { w with
      structPtr := alignUp4 (w.structPtr + 4#64 + BitVec.ofNat 64 (strlen name + 1))
      depth := w.depth + 1 }) : walkStep m g path propName target w =
      .inl (if w.depth = target then matchNode path name w' else w') := by
  have level : w.depth + 1 = target + 1 ↔ w.depth = target := by omega
  rw [walkStep, cell_eq, here, if_pos rfl, stringAt_eq held short]
  simp only [moved, missing, level, true_and]

theorem walk_null {tokens : List Token} (laid : Lays m strings w.structPtr tokens) (nested : Nested n tokens)
    (stuck : Stuck target w) (deep : w.depth = n) :
    walkFrom m g path propName target (tokens.length + 1) w = some (0#64, none) := by
  induction tokens generalizing w n with
  | nil =>
      have here : be32 m w.structPtr = fdtEnd := laid
      rw [walkFrom, cell_eq, if_pos here]
  | cons token rest ih =>
      cases token with
      | nop =>
          obtain ⟨here, later⟩ := laid
          rw [walkFrom, cell_eq, here, if_neg (by decide), walkStep_nop here]
          exact ih later nested ⟨stuck.missing, stuck.idle⟩ deep
      | endNode =>
          obtain ⟨here, later⟩ := laid
          obtain ⟨inside, nested⟩ := nested
          rw [walkFrom, cell_eq, here, if_neg (by decide), walkStep_endNode stuck.missing here]
          refine ih later nested ⟨stuck.missing, stuck.idle⟩ ?_
          dsimp only
          omega
      | prop q =>
          obtain ⟨here, length, _, _, later⟩ := laid
          have whole : (BitVec.ofNat 32 q.value.length).setWidth 64 = BitVec.ofNat 64 q.value.length := by
            have := q.short
            bv_omega
          rw [walkFrom, cell_eq, here, if_neg (by decide), walkStep_prop stuck.missing here, length, whole]
          exact ih later nested ⟨stuck.missing, stuck.idle⟩ deep
      | beginNode name =>
          obtain ⟨here, held, short, later⟩ := laid
          obtain ⟨inside, named, nested⟩ := nested
          rw [walkFrom, cell_eq, here, if_neg (by decide), walkStep_beginNode stuck.missing here held short rfl]
          set w' : Walk := { w with
            structPtr := alignUp4 (w.structPtr + 4#64 + BitVec.ofNat 64 (strlen name + 1))
            depth := w.depth + 1 }
          have unmatched : (if w.depth = target then matchNode path name w' else w') = w' := by
            by_cases level : w.depth = target
            · rw [if_pos level]
              exact matchNode_empty named (stuck.idle.resolve_left (by omega))
            · exact if_neg level
          rw [unmatched]
          exact ih (w := w') later nested ⟨stuck.missing, stuck.idle⟩ (by change w.depth + 1 = _; omega)

/-- The root uses up the empty segment before the first slash, or is not looked at. -/
theorem matchNode_root (atStart : w.currentNodePath = 0) (slash : w.nextSlash = some 0)
    (missing : w.nodeFound = false) (more : path.bytes 1 ≠ 0#8) :
    matchNode path ⟨[], List.forall_mem_nil _⟩ w =
      { w with currentNodePath := 1, nextSlash := slashFrom path 1 } := by
  rw [matchNode, slash, atStart]
  refine (if_pos ⟨rfl, rfl⟩).trans ?_
  rw [missing, decide_eq_false more]
  rfl

theorem walk_root {tokens inner : List Token} (nested : Nested 1 inner) (more : path.bytes 1 ≠ 0#8)
    (encoded : tokens.filter Token.Counts = .beginNode ⟨[], List.forall_mem_nil _⟩ :: inner)
    (laid : Lays m strings w.structPtr tokens) (atStart : w.currentNodePath = 0)
    (slash : w.nextSlash = some 0) (missing : w.nodeFound = false) (shallow : w.depth = 0) :
    walkFrom m g path propName target (tokens.length + 1) w = some (0#64, none) := by
  induction tokens generalizing w with
  | nil => cases encoded
  | cons token rest ih =>
      cases token with
      | nop =>
          obtain ⟨here, later⟩ := laid
          rw [walkFrom, cell_eq, here, if_neg (by decide), walkStep_nop here]
          exact ih encoded later atStart slash missing shallow
      | endNode => cases (List.cons.inj (encoded : Token.endNode :: rest.filter Token.Counts = _)).1
      | prop q => cases (List.cons.inj (encoded : Token.prop q :: rest.filter Token.Counts = _)).1
      | beginNode name =>
          obtain ⟨here, held, short, later⟩ := laid
          obtain ⟨head, tail⟩ : Token.beginNode name = _ ∧ rest.filter Token.Counts = inner :=
            List.cons.inj encoded
          obtain rfl := Token.beginNode.inj head
          rw [walkFrom, cell_eq, here, if_neg (by decide), walkStep_beginNode missing here held short rfl]
          have nested : Nested 1 rest := nested_filter (tail ▸ nested)
          set w' : Walk := { w with
            structPtr := alignUp4 (w.structPtr + 4#64 + BitVec.ofNat 64 (strlen ⟨[], List.forall_mem_nil _⟩ + 1))
            depth := w.depth + 1 }
          by_cases level : w.depth = target
          · rw [if_pos level, matchNode_root (w := w') atStart slash missing more]
            exact walk_null later nested ⟨missing, .inl (by omega)⟩ (by change w.depth + 1 = _; omega)
          · rw [if_neg level]
            exact walk_null later nested ⟨missing, .inr (by rw [slash, atStart])⟩
              (by change w.depth + 1 = _; omega)

theorem slashFrom_start (slash : path.bytes 0 = 0x2F#8) : slashFrom path 0 = some 0 := by
  obtain ⟨chars, nonzero⟩ := path
  cases chars with
  | nil =>
      have slash : (0#8 : Byte) = 0x2F#8 := slash
      cases slash
  | cons c rest =>
      obtain rfl : c = 0x2F#8 := slash
      simp [slashFrom, strchr, CString.drop, indexFrom]

/-- A lookup of an absolute path finds nothing, whatever the tree. -/
theorem dtbGetProperty_null (blob : Blob m base) (slash : path.bytes 0 = 0x2F#8) (more : path.bytes 1 ≠ 0#8)
    (propName : CString) :
    dtbGetProperty (blob.tokens.length + 1) m (dtbInit m base g) path propName = some (0#64, none) := by
  have started : dtbInit m base g = ⟨base, base + (be32 m (base + 12#64)).setWidth 64⟩ := by
    rw [dtbInit, cell_eq, cell_eq, if_neg (not_not.mpr blob.magic)]
  rw [started, dtbGetProperty]
  by_cases unset : base = 0#64 ∨ base + (be32 m (base + 12#64)).setWidth 64 = 0#64
  · exact if_pos unset
  · rw [if_neg unset]
    have encoded := blob.encoded
    have rootName := blob.rootName
    have wellNamed := blob.wellNamed
    cases root : blob.root with
    | mk name properties subnodes =>
        rw [root] at encoded rootName wellNamed
        obtain rfl : name = ⟨[], List.forall_mem_nil _⟩ := rootName
        rw [Node.tokens] at encoded
        have laid := blob.laid
        rw [← cell_eq m (base + 8#64)] at laid
        exact walk_root (nested_inner wellNamed) more encoded laid rfl (slashFrom_start slash) rfl rfl

theorem walkFrom_eq_turns (fuel : Nat) : walkFrom m g path propName target fuel w =
    turns (fun w => if cell m w.structPtr = fdtEnd then .inr (0#64, none) else walkStep m g path propName target w)
      fuel w := by
  induction fuel generalizing w with
  | zero => rfl
  | succ fuel ih =>
      rw [walkFrom, turns]
      split_ifs
      · rfl
      · cases walkStep m g path propName target w with
        | inl next => exact ih
        | inr answer => rfl

/-- The loop gives one answer, however late it is cut off. -/
theorem walkFrom_unique {fuel fuel' : Nat} {answer answer' : Answer}
    (found : walkFrom m g path propName target fuel w = some answer)
    (found' : walkFrom m g path propName target fuel' w = some answer') : answer = answer' := by
  rw [walkFrom_eq_turns] at found found'
  exact turns_unique found found'

theorem dtbGetProperty_unique {fuel fuel' : Nat} {answer answer' : Answer}
    (found : dtbGetProperty fuel m g path propName = some answer)
    (found' : dtbGetProperty fuel' m g path propName = some answer') : answer = answer' := by
  rw [dtbGetProperty] at found found'
  by_cases unset : g.dtbBaseAddress = 0#64 ∨ g.dtStringsPtr = 0#64
  · rw [if_pos unset] at found found'
    exact Option.some.inj (found.symm.trans found')
  · rw [if_neg unset] at found found'
    exact walkFrom_unique found found'

theorem WellNamed.named {node : Node} (named : WellNamed node) : baseName node.name ≠ [] := by
  cases named with
  | mk named => exact named

/-- A path that leads somewhere begins with a slash and a character. -/
theorem Leads.starts {root node : Node} {segments : List (List Byte)} {is : List Nat}
    (leads : Leads root segments is node) (named : ∀ node ∈ root.subnodes, WellNamed node)
    (spelled : path.chars = pathChars segments) : path.bytes 0 = 0x2F#8 ∧ path.bytes 1 ≠ 0#8 := by
  have first : ∃ segment rest, segments = segment :: rest ∧ segment ≠ [] := by
    have some_ : ∀ {i : Nat} {n : Node} {last : Bool} {segment : List Byte}, root.subnodes[i]? = some n →
        Fits last segment n.name → segment ≠ [] := by
      rintro i n last segment at_ fits rfl
      have base := (named n (List.mem_of_getElem? at_)).named
      rcases fits with whole | ⟨_, short⟩
      · exact base (by rw [baseName, whole]; rfl)
      · exact base short
    cases leads with
    | last at_ fits => exact ⟨_, _, rfl, some_ at_ fits⟩
    | step at_ fits _ => exact ⟨_, _, rfl, some_ at_ fits⟩
  obtain ⟨segment, rest, rfl, nonempty⟩ := first
  cases segment with
  | nil => exact absurd rfl nonempty
  | cons c segment =>
      have chars : path.chars = 0x2F#8 :: c :: (segment ++ pathChars rest) := spelled
      have second : path.bytes 1 = c := by rw [CString.bytes, chars]; rfl
      refine ⟨by rw [CString.bytes, chars]; rfl, ?_⟩
      rw [second]
      exact path.nonzero c (by rw [chars]; exact List.mem_cons_of_mem _ List.mem_cons_self)

/-- Every lookup ends with the null pointer, so none finds its property. -/
theorem lookup_never_completes {blob : Blob m base} (q : Query blob) :
    (∃ fuel, dtbGetProperty fuel m (dtbInit m base .start) q.path q.property.name = some (0#64, none)) ∧
      ¬ q.Completes := by
  obtain ⟨slash, more⟩ := q.leads.starts blob.wellNamed q.spelled
  have null := dtbGetProperty_null (g := .start) blob slash more q.property.name
  refine ⟨⟨_, null⟩, ?_⟩
  rintro ⟨fuel, answer, found, nonzero, _⟩
  obtain rfl := dtbGetProperty_unique found null
  exact nonzero rfl

/-- The framebuffer and the memory are reported missing on every blob. -/
theorem boot_lookups_fail (blob : Blob m base) :
    dtbGetFramebufferInfo (blob.tokens.length + 1) m (dtbInit m base g) = some (-1, none) ∧
      dtbGetMemoryInfo (blob.tokens.length + 1) m (dtbInit m base g) = some (-1, none) := by
  rw [dtbGetFramebufferInfo, dtbGetMemoryInfo]
  by_cases unset : (dtbInit m base g).dtbBaseAddress = 0#64
  · rw [if_pos unset, if_pos unset]
    exact ⟨rfl, rfl⟩
  · rw [if_neg unset, if_neg unset, dtbGetProperty_null blob (by decide) (by decide),
      dtbGetProperty_null blob (by decide) (by decide)]
    exact ⟨rfl, rfl⟩

end

/-! A blob whose `/chosen` node has a framebuffer. -/

def chosenName : CString := ⟨[0x63#8, 0x68#8, 0x6F#8, 0x73#8, 0x65#8, 0x6E#8], by decide⟩

theorem framebuffer_nonzero :
    ∀ c ∈ [0x66#8, 0x72#8, 0x61#8, 0x6D#8, 0x65#8, 0x62#8, 0x75#8, 0x66#8, 0x66#8, 0x65#8, 0x72#8], c ≠ 0#8 := by
  decide

def framebuffer : Property where
  name := ⟨_, framebuffer_nonzero⟩
  value := [0x3C#8, 0#8, 0#8, 0#8, 0#8, 0#8, 4#8, 0#8, 0#8, 0#8, 3#8, 0#8, 0#8, 0#8, 0x10#8, 0#8]
  short := by decide

def chosenNode : Node := .mk chosenName [framebuffer] []
def chosenTree : Node := .mk ⟨[], List.forall_mem_nil _⟩ [] [chosenNode]

/-- The header, an empty reservation map, the structure block and the strings. -/
def chosenWords : List (BitVec 32) :=
  [0xd00dfeed#32, 128#32, 56#32, 116#32, 40#32, 17#32, 16#32, 0#32, 12#32, 60#32,
    0#32, 0#32, 0#32, 0#32,
    1#32, 0#32, 1#32, 0x63686F73#32, 0x656E0000#32,
    3#32, 16#32, 0#32, 0x3C000000#32, 0x00000400#32, 0x00000300#32, 0x00001000#32,
    2#32, 2#32, 9#32,
    0x6672616D#32, 0x65627566#32, 0x66657200#32]

def chosenBase : Addr := 0x44000000#64

/-- A memory that holds some big-endian words from `base` on. -/
def wordsMemory (base : Addr) (words : List (BitVec 32)) : Memory := fun p =>
  let i := (p - base).toNat
  (words.getD (i / 4) 0#32 >>> (8 * (3 - i % 4))).setWidth 8

def chosenMemory : Memory := wordsMemory chosenBase chosenWords

def chosenBlob : Blob chosenMemory chosenBase where
  root := chosenTree
  tokens := [.beginNode ⟨[], List.forall_mem_nil _⟩, .beginNode chosenName, .prop framebuffer, .endNode, .endNode]
  rootName := rfl
  wellNamed := List.forall_mem_singleton.mpr (.mk (by decide) (by decide) (List.forall_mem_nil _))
  encoded := by simp [chosenTree, chosenNode, Node.tokens, Token.Counts]
  magic := by decide +kernel
  laid := by decide +kernel

/-- `dtb_get_property("/chosen", "framebuffer", &len)` -/
def chosenQuery : Query chosenBlob where
  segments := [chosenName.chars]
  path := ⟨0x2F#8 :: chosenName.chars, by decide⟩
  spelled := rfl
  position := [0]
  node := chosenNode
  leads := .last rfl (.inl rfl)
  only := by
    rintro is n leads
    cases leads with
    | @last _ _ _ i at_ =>
        cases i with
        | zero => rfl
        | succ i => cases at_
  property := framebuffer
  has := List.mem_singleton_self _

/-- The framebuffer of `/chosen` is not found. -/
theorem chosen_framebuffer_missed :
    ¬ ∀ (m : Memory) (base : Addr) (blob : Blob m base) (q : Query blob), q.Completes := by
  intro completes
  obtain ⟨fuel, answer, found, nonzero, _⟩ := completes _ _ chosenBlob chosenQuery
  have null := dtbGetProperty_null (g := .start) chosenBlob (show chosenQuery.path.bytes 0 = 0x2F#8 by decide)
    (show chosenQuery.path.bytes 1 ≠ 0#8 by decide) framebuffer.name
  obtain rfl := dtbGetProperty_unique found null
  exact nonzero rfl

end AstralOS.Boot
