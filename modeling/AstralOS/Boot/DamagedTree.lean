import AstralOS.Boot.TokenChain

/-! Lookups in a blob whose contents are arbitrary. -/
namespace AstralOS.Boot
open Foundation Foundation.Traced AstralOS.Lib

/-- `totalsize` -/
def totalSize (m : Memory) (base : Addr) : Nat := (headerWord m base 4#64).toNat

/-- How far an address is from the start of the blob. -/
def offsetIn (base a : Addr) : Nat := (a - base).toNat

def InBlob (m : Memory) (base a : Addr) : Prop := offsetIn base a < totalSize m base

instance (m : Memory) (base a : Addr) : Decidable (InBlob m base a) := inferInstanceAs (Decidable (_ < _))

/-- A token at an address ends inside the blob: a node's name with its terminator, the two words of a property.
Once the path has been met, so does what is compared of the property's name and, if it is the name, the value. -/
def RawToken.Inside (m : Memory) (base : Addr) (propName : CString) (met : Prop) (p : Addr) : RawToken → Prop
  | .beginNode name => offsetIn base p + 4 + (strlen name + 1) ≤ totalSize m base
  | .prop length nameOffset =>
      offsetIn base p + 12 ≤ totalSize m base ∧ (met →
        offsetIn base (nameAddr m base nameOffset) + compared (m.view (nameAddr m base nameOffset)) propName.chars ≤
            totalSize m base ∧
          (HoldsString m (nameAddr m base nameOffset) propName → offsetIn base p + 12 + length.toNat ≤ totalSize m base))
  | _ => offsetIn base p + 4 ≤ totalSize m base

/-- Up to where the search ends, the tokens that the bytes give are inside the blob. -/
def ChainInside (m : Memory) (base : Addr) (path propName : CString) : Prop :=
  ∀ i, Searched m base path propName i →
    (tokenAt m base i).Inside m base propName (MetBefore m base path i) (place m base i)

/-- The token at the walk's pointer is inside the blob. -/
def Walk.Inside (m : Memory) (base : Addr) (propName : CString) (w : Walk) : Prop :=
  (rawToken m w.structPtr).Inside m base propName (w.nodeFound = true) w.structPtr

/-- The value that is given back lies inside the blob. -/
def AnswerInside (m : Memory) (base : Addr) (answer : Answer) : Prop :=
  ∀ length, answer.2 = some length → offsetIn base answer.1 + length.toNat ≤ totalSize m base

/-- The lookup ends, reads nothing beyond `totalsize` and gives nothing back that is not inside. -/
def SafeLookup (m : Memory) (base : Addr) (g : Globals) (path propName : CString) : Prop :=
  ∃ fuel answer, dtbGetProperty fuel m g path propName = some answer ∧
    Logs (Read.Within (InBlob m base)) (Traced.dtbGetProperty fuel m g path propName) ∧ AnswerInside m base answer

section
variable {m : Memory} {base p : Addr} {g : Globals} {path propName : CString} {target : Int} {w w' : Walk} {i : Nat}

/-- Aligning a pointer moves it by less than four bytes. -/
theorem alignUp4_near (p : Addr) : ∃ k < 4, alignUp4 p = p + BitVec.ofNat 64 k := by
  have cleared : (alignUp4 p).toNat = (p + 3#64).toNat / 2 ^ 2 * 2 ^ 2 := toNat_clear 2 _
  have below := p.isLt
  have sum : (p + 3#64).toNat = (p.toNat + 3) % 2 ^ 64 := BitVec.toNat_add p 3#64
  rw [sum] at cleared
  by_cases wraps : p.toNat + 3 < 2 ^ 64
  · refine ⟨(p.toNat + 3) / 4 * 4 - p.toNat, by omega, BitVec.eq_of_toNat_eq ?_⟩
    rw [cleared, BitVec.toNat_add, BitVec.toNat_ofNat]
    omega
  · refine ⟨2 ^ 64 - p.toNat, by omega, BitVec.eq_of_toNat_eq ?_⟩
    rw [cleared, BitVec.toNat_add, BitVec.toNat_ofNat]
    omega

theorem offsetIn_add (base p : Addr) {k : Nat} (fits : offsetIn base p + k < 2 ^ 64) :
    offsetIn base (p + BitVec.ofNat 64 k) = offsetIn base p + k := by
  have moved : p + BitVec.ofNat 64 k - base = (p - base) + BitVec.ofNat 64 k := by
    rw [BitVec.sub_eq_add_neg, BitVec.sub_eq_add_neg, BitVec.add_assoc, BitVec.add_comm (BitVec.ofNat 64 k),
      BitVec.add_assoc]
  rw [offsetIn, moved]
  exact toNat_add_ofNat fits

theorem offsetIn_alignUp4 (base p : Addr) (fits : offsetIn base p + 3 < 2 ^ 64) :
    offsetIn base p ≤ offsetIn base (alignUp4 p) := by
  obtain ⟨k, small, near⟩ := alignUp4_near p
  rw [near, offsetIn_add base p (by omega)]
  exact Nat.le_add_right _ _

/-- Where a turn that does not return leaves the pointer. -/
theorem walkStep_structPtr (stepped : walkStep m g path propName target w = .inl w') :
    (cell m w.structPtr = fdtBeginNode ∧
      w'.structPtr = alignUp4 (w.structPtr + 4#64 + BitVec.ofNat 64 (strlen (stringAt m (w.structPtr + 4#64)) + 1))) ∨
    (cell m w.structPtr = fdtProp ∧
      w'.structPtr = alignUp4 (w.structPtr + 4#64 + 8#64 + (cell m (w.structPtr + 4#64)).setWidth 64)) ∨
    w'.structPtr = w.structPtr + 4#64 := by
  rw [walkStep] at stepped
  by_cases beginNode : cell m w.structPtr = fdtBeginNode
  · rw [if_pos beginNode] at stepped
    refine .inl ⟨beginNode, ?_⟩
    rw [← Sum.inl.inj stepped]
    split_ifs
    · rw [matchNode_structPtr]
    · rfl
  rw [if_neg beginNode] at stepped
  by_cases endNode : cell m w.structPtr = fdtEndNode
  · rw [if_pos endNode] at stepped
    split_ifs at stepped
    rw [← Sum.inl.inj stepped]
    exact .inr (.inr rfl)
  rw [if_neg endNode] at stepped
  by_cases prop : cell m w.structPtr = fdtProp
  · rw [if_pos prop] at stepped
    dsimp only at stepped
    split_ifs at stepped
    rw [← Sum.inl.inj stepped]
    exact .inr (.inl ⟨prop, rfl⟩)
  · rw [if_neg prop] at stepped
    rw [← Sum.inl.inj stepped]
    exact .inr (.inr rfl)

/-- A string inside the blob is short. -/
theorem length_of_within {n : Nat} (inside : Read.Within (InBlob m base) ⟨p, n⟩) (some_ : 0 < n) :
    offsetIn base p + n ≤ totalSize m base := by
  have small : totalSize m base < 2 ^ 32 := (headerWord m base 4#64).isLt
  have each : ∀ i < n, offsetIn base p + i < totalSize m base := by
    intro i below
    induction i with
    | zero =>
        have first : offsetIn base (p + 0#64) < totalSize m base := inside 0 below
        rwa [BitVec.add_zero] at first
    | succ i ih =>
        have before := ih (by omega)
        have here : offsetIn base (p + BitVec.ofNat 64 (i + 1)) < totalSize m base := inside (i + 1) below
        rwa [offsetIn_add base p (by omega)] at here
  have last := each (n - 1) (by omega)
  omega

theorem within_iff {n : Nat} (some_ : 0 < n) :
    Read.Within (InBlob m base) ⟨p, n⟩ ↔ offsetIn base p + n ≤ totalSize m base := by
  refine ⟨fun inside => length_of_within inside some_, fun inside k below => ?_⟩
  have small : totalSize m base < 2 ^ 32 := (headerWord m base 4#64).isLt
  have below : k < n := below
  change offsetIn base (p + BitVec.ofNat 64 k) < totalSize m base
  rw [offsetIn_add base p (by omega)]
  omega

theorem compared_pos (f : Bytes) (chars : List Byte) : 0 < compared f chars := by
  cases chars with
  | nil => exact Nat.one_pos
  | cons c rest =>
      rw [compared]
      split_ifs
      · exact Nat.succ_pos _
      · exact Nat.one_pos

/-- Past the word of a token that is inside the blob. -/
theorem offsetIn_past {k : Nat} (word : offsetIn base p + 4 ≤ totalSize m base) (small : k ≤ 12) :
    offsetIn base (p + BitVec.ofNat 64 k) = offsetIn base p + k := by
  have total : totalSize m base < 2 ^ 32 := (headerWord m base 4#64).isLt
  exact offsetIn_add base p (by omega)

theorem RawToken.Inside.word {t : RawToken} {met : Prop} (inside : t.Inside m base propName met p) :
    offsetIn base p + 4 ≤ totalSize m base := by
  cases t with
  | beginNode name =>
      have inside : offsetIn base p + 4 + (strlen name + 1) ≤ totalSize m base := inside
      omega
  | prop length nameOffset => exact (Nat.add_le_add_left (by decide) _).trans inside.1
  | _ => exact inside

/-- One turn inside the blob brings the pointer on by a token. -/
theorem Walk.Inside.progress (inside : w.Inside m base propName) (stepped : walkStep m g path propName target w = .inl w') :
    offsetIn base w.structPtr + 4 ≤ offsetIn base w'.structPtr := by
  have word := RawToken.Inside.word inside
  have small : totalSize m base < 2 ^ 32 := (headerWord m base 4#64).isLt
  have four : offsetIn base (w.structPtr + 4#64) = offsetIn base w.structPtr + 4 := offsetIn_past word (by decide)
  rcases walkStep_structPtr stepped with ⟨beginNode, next⟩ | ⟨prop, next⟩ | next
  · rw [Walk.Inside, rawToken_beginNode ((cell_eq m _).symm.trans beginNode)] at inside
    have name : offsetIn base w.structPtr + 4 + (strlen (stringAt m (w.structPtr + 4#64)) + 1) ≤ totalSize m base := inside
    have past := offsetIn_add base (w.structPtr + 4#64) (k := strlen (stringAt m (w.structPtr + 4#64)) + 1) (by omega)
    have aligned := offsetIn_alignUp4 base
      (w.structPtr + 4#64 + BitVec.ofNat 64 (strlen (stringAt m (w.structPtr + 4#64)) + 1)) (by omega)
    rw [next]
    omega
  · have length := (cell m (w.structPtr + 4#64)).isLt
    have words : offsetIn base (w.structPtr + 4#64 + 8#64) = _ := offsetIn_add base (w.structPtr + 4#64) (k := 8) (by omega)
    have past : offsetIn base (w.structPtr + 4#64 + 8#64 + (cell m (w.structPtr + 4#64)).setWidth 64) =
        offsetIn base (w.structPtr + 4#64 + 8#64) + (cell m (w.structPtr + 4#64)).toNat := by
      rw [← BitVec.ofNat_toNat]
      exact offsetIn_add base _ (by omega)
    have aligned := offsetIn_alignUp4 base
      (w.structPtr + 4#64 + 8#64 + (cell m (w.structPtr + 4#64)).setWidth 64) (by omega)
    rw [next]
    omega
  · rw [next, four]

/-- A turn returns at the end of the node it has found, or with the property. -/
theorem walkStep_answer {answer : Answer} : walkStep m g path propName target w = .inr answer ↔
    (cell m w.structPtr = fdtEndNode ∧ w.nodeFound = true ∧ answer = (0#64, none)) ∨
    (cell m w.structPtr = fdtProp ∧ (w.nodeFound = true ∧
      strcmp (m.view (g.dtStringsPtr + (cell m (w.structPtr + 4#64 + 4#64)).setWidth 64)) propName = 0) ∧
      answer = (w.structPtr + 4#64 + 8#64, some (cell m (w.structPtr + 4#64)))) := by
  rw [walkStep]
  by_cases beginNode : cell m w.structPtr = fdtBeginNode
  · rw [if_pos beginNode, beginNode]
    refine iff_of_false Sum.inl_ne_inr ?_
    rintro (⟨tag, _⟩ | ⟨tag, _⟩) <;> exact absurd tag (by decide)
  rw [if_neg beginNode]
  by_cases endNode : cell m w.structPtr = fdtEndNode
  · rw [if_pos endNode, endNode]
    constructor
    · intro returned
      split_ifs at returned with found
      exact .inl ⟨rfl, found, (Sum.inr.inj returned).symm⟩
    · rintro (⟨_, found, rfl⟩ | ⟨tag, _⟩)
      · exact if_pos found
      · exact absurd tag (by decide)
  rw [if_neg endNode]
  by_cases prop : cell m w.structPtr = fdtProp
  · rw [if_pos prop, prop]
    dsimp only
    constructor
    · intro returned
      split_ifs at returned with found
      exact .inr ⟨rfl, found, (Sum.inr.inj returned).symm⟩
    · rintro (⟨tag, _⟩ | ⟨_, found, rfl⟩)
      · exact absurd tag (by decide)
      · exact if_pos found
  · rw [if_neg prop]
    refine iff_of_false Sum.inl_ne_inr ?_
    rintro (⟨tag, _⟩ | ⟨tag, _⟩)
    · exact endNode tag
    · exact prop tag

/-- The token at the pointer is inside exactly when the reads of its turn are, and what it gives back. -/
theorem inside_iff (path : CString) (target : Int) : w.Inside m base propName ↔
    Logs (Read.Within (InBlob m base)) (Traced.walkStep m ⟨base, stringsBlock m base⟩ path propName target w) ∧
      ∀ answer, walkStep m ⟨base, stringsBlock m base⟩ path propName target w = .inr answer →
        AnswerInside m base answer := by
  have offset : w.structPtr + 4#64 + 4#64 = w.structPtr + 8#64 := by bv_omega
  have value : w.structPtr + 4#64 + 8#64 = w.structPtr + 12#64 := by bv_omega
  rw [Traced.walkStep_logs]
  simp only [walkStep_answer, cell_eq, offset, value]
  constructor
  · intro inside
    have word := RawToken.Inside.word inside
    have four : offsetIn base (w.structPtr + 4#64) = _ := offsetIn_past word (k := 4) (by decide)
    have eight : offsetIn base (w.structPtr + 8#64) = _ := offsetIn_past word (k := 8) (by decide)
    have twelve : offsetIn base (w.structPtr + 12#64) = _ := offsetIn_past word (k := 12) (by decide)
    have atProp (tag : be32 m w.structPtr = fdtProp) : (RawToken.prop (be32 m (w.structPtr + 4#64))
        (be32 m (w.structPtr + 8#64))).Inside m base propName (w.nodeFound = true) w.structPtr :=
      rawToken_prop tag ▸ inside
    refine ⟨⟨(within_iff (by decide)).mpr word, fun tag => ?_, fun tag => ⟨?_, ?_, fun found => ?_⟩⟩, ?_⟩
    · rw [Walk.Inside, rawToken_beginNode tag] at inside
      refine (within_iff (Nat.succ_pos _)).mpr ?_
      rwa [four]
    · have words := (atProp tag).1
      refine (within_iff (by decide)).mpr ?_
      rw [four]
      omega
    · refine (within_iff (by decide)).mpr ?_
      rw [eight]
      exact (atProp tag).1
    · exact (within_iff (compared_pos _ _)).mpr ((atProp tag).2 found).1
    · rintro _ (⟨_, _, rfl⟩ | ⟨tag, ⟨found, named⟩, rfl⟩) length given
      · cases given
      · cases given
        rw [twelve]
        exact ((atProp tag).2 found).2 (strcmp_eq_zero.mp named)
  · rintro ⟨⟨word, name, words⟩, answers⟩
    have word := (within_iff (by decide)).mp word
    rw [Walk.Inside, rawToken]
    split_ifs with beginNode endNode prop ended
    · have nameInside := (within_iff (Nat.succ_pos _)).mp (name beginNode)
      rwa [show offsetIn base (w.structPtr + 4#64) = _ from offsetIn_past word (k := 4) (by decide)] at nameInside
    · exact word
    · obtain ⟨_, second, propString⟩ := words prop
      have last := (within_iff (by decide)).mp second
      rw [show offsetIn base (w.structPtr + 8#64) = _ from offsetIn_past word (k := 8) (by decide)] at last
      refine ⟨last, fun found => ⟨(within_iff (compared_pos _ _)).mp (propString found), fun named => ?_⟩⟩
      have inside := answers _ (.inr ⟨prop, ⟨found, strcmp_eq_zero.mpr named⟩, rfl⟩) _ rfl
      rwa [show offsetIn base (w.structPtr + 12#64) = _ from offsetIn_past word (k := 12) (by decide)] at inside
    · exact word
    · exact word

theorem inside_end (ended : cell m w.structPtr = fdtEnd) (word : Read.Within (InBlob m base) ⟨w.structPtr, 4⟩) :
    w.Inside m base propName := by
  rw [Walk.Inside, rawToken_finish ((cell_eq m _).symm.trans ended)]
  exact (within_iff (by decide)).mp word

/-- From a state whose further turns are all inside the blob the loop ends, and is inside. -/
theorem walk_safe
    (all : ∀ w', Relation.ReflTransGen (Turn m ⟨base, stringsBlock m base⟩ path propName) w w' → w'.Inside m base propName) :
    ∃ fuel answer, walkFrom m ⟨base, stringsBlock m base⟩ path propName (targetDepth path) fuel w = some answer ∧
      Logs (Read.Within (InBlob m base))
        (Traced.walkFrom m ⟨base, stringsBlock m base⟩ path propName (targetDepth path) fuel w) ∧
      AnswerInside m base answer := by
  induction bytes : totalSize m base - offsetIn base w.structPtr using Nat.strong_induction_on generalizing w with
  | _ bytes ih =>
      have here := all w .refl
      have word := RawToken.Inside.word here
      have wordRead := (within_iff (by decide)).mpr word
      obtain ⟨reads, inside⟩ := (inside_iff path (targetDepth path)).mp here
      by_cases ended : cell m w.structPtr = fdtEnd
      · refine ⟨1, (0#64, none), ?_, ?_, fun length none_ => nomatch none_⟩
        · rw [walkFrom, if_pos ended]
        · rw [Traced.walkFrom, logs_bind, logs_event, if_pos (show (Traced.cell m w.structPtr).value = fdtEnd from ended)]
          exact ⟨wordRead, logs_pure _⟩
      cases stepped : walkStep m ⟨base, stringsBlock m base⟩ path propName (targetDepth path) w with
      | inr answer =>
          refine ⟨1, answer, ?_, ?_, inside answer stepped⟩
          · rw [walkFrom, if_neg ended, stepped]
          · rw [Traced.walkFrom, logs_bind, logs_event, if_neg (show (Traced.cell m w.structPtr).value ≠ fdtEnd from ended),
              logs_bind, Traced.walkStep_value, stepped]
            exact ⟨wordRead, reads, logs_pure _⟩
      | inl w' =>
          have turn : Turn m ⟨base, stringsBlock m base⟩ path propName w w' := ⟨ended, stepped⟩
          have progress := here.progress stepped
          obtain ⟨fuel, answer, found, logs, answerInside⟩ :=
            ih _ (by omega) (fun last visited => all last (.head turn visited)) rfl
          refine ⟨fuel + 1, answer, ?_, ?_, answerInside⟩
          · rw [walkFrom, if_neg ended, stepped]
            exact found
          · rw [Traced.walkFrom, logs_bind, logs_event, if_neg (show (Traced.cell m w.structPtr).value ≠ fdtEnd from ended),
              logs_bind, Traced.walkStep_value, stepped]
            exact ⟨wordRead, reads, logs⟩

theorem walk_inside {fuel : Nat} {answer : Answer}
    (found : walkFrom m ⟨base, stringsBlock m base⟩ path propName (targetDepth path) fuel w = some answer)
    (reads : Logs (Read.Within (InBlob m base))
      (Traced.walkFrom m ⟨base, stringsBlock m base⟩ path propName (targetDepth path) fuel w))
    (inside : AnswerInside m base answer) {w' : Walk}
    (visited : Relation.ReflTransGen (Turn m ⟨base, stringsBlock m base⟩ path propName) w w') :
    w'.Inside m base propName := by
  induction fuel generalizing w with
  | zero => cases found
  | succ fuel ih =>
      rw [walkFrom] at found
      rw [Traced.walkFrom, logs_bind, logs_event] at reads
      by_cases ended : cell m w.structPtr = fdtEnd
      · rcases visited.cases_head with rfl | ⟨next, turn, _⟩
        · exact inside_end ended reads.1
        · exact absurd ended turn.1
      rw [if_neg ended] at found
      rw [if_neg (show (Traced.cell m w.structPtr).value ≠ fdtEnd from ended), logs_bind, Traced.walkStep_value] at reads
      rcases visited.cases_head with rfl | ⟨next, turn, visited⟩
      · refine (inside_iff path (targetDepth path)).mpr ⟨reads.2.1, fun answer' stepped => ?_⟩
        rw [stepped] at found
        exact Option.some.inj found ▸ inside
      · rw [turn.2] at found reads
        exact ih found reads.2.2 visited

theorem Abreast.inside_iff (abreast : Abreast m base path i w) : w.Inside m base propName ↔
    (tokenAt m base i).Inside m base propName (MetBefore m base path i) (place m base i) := by
  rw [Walk.Inside, abreast.found_iff, abreast.pointer]
  rfl

/-- The walk stays inside the blob exactly when the chain of tokens does. -/
theorem chainInside_iff : ChainInside m base path propName ↔
    ∀ w, Visited m ⟨base, stringsBlock m base⟩ path propName w → w.Inside m base propName := by
  constructor
  · intro inside w visited
    obtain ⟨i, searched, abreast⟩ := visited.abreast
    exact abreast.inside_iff.mpr (inside i searched)
  · intro inside i searched
    obtain ⟨w, visited, abreast⟩ := searched.visited
    exact abreast.inside_iff.mp (inside w visited)

/-- The word of the header that says where the structure block is. -/
theorem within_offDtStruct : Read.Within (InBlob m base) ⟨base + 8#64, 4⟩ ↔ 12 ≤ totalSize m base := by
  have start : offsetIn base (base + 8#64) = 8 := toNat_sub_self_add base (i := 8) (by decide)
  rw [within_iff (by decide), start]

end

/-- A lookup is safe exactly when no blob was accepted or, up to where the search ends, the tokens that the bytes
give are inside the blob. -/
theorem damaged_lookup_iff (m : Memory) (base : Addr) (g : Globals) (path propName : CString) :
    SafeLookup m base (dtbInit m base g) path propName ↔
      (be32 m base ≠ fdtMagic ∨ base = 0#64 ∨ stringsBlock m base = 0#64) ∨
        (12 ≤ totalSize m base ∧ ChainInside m base path propName) := by
  by_cases unset : (dtbInit m base g).dtbBaseAddress = 0#64 ∨ (dtbInit m base g).dtStringsPtr = 0#64
  · refine iff_of_true ⟨0, (0#64, none), ?_, ?_, fun length none_ => nomatch none_⟩ (.inl ?_)
    · rw [dtbGetProperty, if_pos unset]
    · rw [Traced.dtbGetProperty, if_pos unset]
      exact logs_pure _
    · by_cases magic : be32 m base = fdtMagic
      · rw [dtbInit, cell_eq, cell_eq, if_neg (not_not.mpr magic)] at unset
        exact .inr unset
      · exact .inl magic
  have magic : be32 m base = fdtMagic := by
    by_contra other
    rw [dtbInit, cell_eq, if_pos other] at unset
    exact unset (.inl rfl)
  have started : dtbInit m base g = ⟨base, stringsBlock m base⟩ := by
    rw [dtbInit, cell_eq, cell_eq, if_neg (not_not.mpr magic)]
    rfl
  rw [started] at unset ⊢
  rw [or_iff_right fun none_ => unset (none_.resolve_left (not_not.mpr magic)), ← within_offDtStruct, chainInside_iff]
  constructor
  · rintro ⟨fuel, answer, found, reads, inside⟩
    rw [dtbGetProperty, if_neg unset] at found
    rw [Traced.dtbGetProperty, if_neg unset, logs_bind, logs_event] at reads
    exact ⟨reads.1, fun w visited => walk_inside found reads.2 inside visited⟩
  · rintro ⟨word, all⟩
    obtain ⟨fuel, answer, found, reads, inside⟩ := walk_safe all
    refine ⟨fuel, answer, ?_, ?_, inside⟩
    · rw [dtbGetProperty, if_neg unset]
      exact found
    · rw [Traced.dtbGetProperty, if_neg unset, logs_bind, logs_event]
      exact ⟨word, reads⟩

/-- A header and nothing else: the structure block would begin at `totalsize`. -/
def cutWords : List (BitVec 32) :=
  [0xd00dfeed#32, 40#32, 40#32, 40#32, 40#32, 17#32, 16#32, 0#32, 0#32, 0#32]

def cutMemory : Memory := wordsMemory chosenBase cutWords

/-- The first word of the structure block is read beyond `totalsize`. -/
theorem cut_blob_overruns : ¬ ∀ (m : Memory) (base : Addr) (path propName : CString), cell m base = fdtMagic →
    SafeLookup m base (dtbInit m base .start) path propName := by
  intro safe
  have started : dtbInit cutMemory chosenBase .start = ⟨chosenBase, 0x44000028#64⟩ := by decide +kernel
  obtain ⟨fuel, answer, found, reads, _⟩ := safe cutMemory chosenBase chosenName chosenName (by decide +kernel)
  have set_ : ¬ ((dtbInit cutMemory chosenBase .start).dtbBaseAddress = 0#64 ∨
      (dtbInit cutMemory chosenBase .start).dtStringsPtr = 0#64) := by
    rw [started]
    decide
  rw [dtbGetProperty, if_neg set_] at found
  rw [Traced.dtbGetProperty, if_neg set_, logs_bind] at reads
  cases fuel with
  | zero => cases found
  | succ fuel =>
      have reads := reads.2
      rw [Traced.walkFrom, logs_bind, logs_event] at reads
      have first := reads.1 0 (Nat.zero_lt_succ _)
      rw [started] at first
      revert first
      decide +kernel

end AstralOS.Boot
