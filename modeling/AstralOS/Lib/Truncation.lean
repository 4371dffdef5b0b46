import AstralOS.Foundation.Loops
import AstralOS.Lib.FormatText

/-! What a call leaves in a buffer of any size, and how far it reads its format. -/
namespace AstralOS.Lib
open Foundation

/-- The call returns `r`. -/
def Returns (str : Bytes) (size : Nat) (f : Bytes) (ap : VaList) (numBuf : Bytes) (r : Printed) : Prop :=
  ∃ fuel, vsnprintf fuel str size f ap numBuf = some r

/-- As much of the text as there is room for, then a terminator, and nothing past the buffer. -/
structure Cut (size : Nat) (str : Bytes) (text : List Byte) (r : Printed) : Prop where
  terminator : r.terminator = some (min text.length (size - 1))
  ended : r.str (min text.length (size - 1)) = 0#8
  bytes : ∀ i < min text.length (size - 1), r.str i = text.getD i 0#8
  outside : ∀ i, size ≤ i → r.str i = str i

section
variable {f numBuf : Bytes} {ap : VaList} {size : Nat} {str : Bytes} {format : CString} {text : List Byte}
  {p q : Printf}

theorem printLoop_eq_turns (fuel : Nat) : printLoop f ap numBuf size fuel p =
    turns (fun p => if f p.look.format ≠ 0#8 ∧ p.look.written < size then .inl (turn f ap numBuf size p.look) else .inr p.look)
      fuel p := by
  induction fuel generalizing p with
  | zero => rfl
  | succ fuel ih =>
      rw [printLoop, turns]
      split_ifs
      · exact ih
      · rfl

theorem printLoop_more {fuel more : Nat} (enough : fuel ≤ more) (run : printLoop f ap numBuf size fuel p = some q) :
    printLoop f ap numBuf size more p = some q := by
  rw [printLoop_eq_turns] at run ⊢
  exact turns_more enough run

theorem Returns.unique {r r' : Printed} (first : Returns str size f ap numBuf r)
    (second : Returns str size f ap numBuf r') : r = r' := by
  obtain ⟨fuel, first⟩ := first
  obtain ⟨fuel', second⟩ := second
  obtain ⟨q, run, rfl⟩ := Option.map_eq_some_iff.mp first
  obtain ⟨q', run', rfl⟩ := Option.map_eq_some_iff.mp second
  rw [printLoop_eq_turns] at run run'
  rw [turns_unique run run']

theorem Holds.finish (holds : Holds size str text p) (some_ : 0 < size) : Cut size str text (p.finish size) := by
  have small := holds.lt some_
  obtain ⟨pointer, written, bytes, outside⟩ := holds
  rw [Printf.finish, if_pos small]
  refine ⟨?_, ?_, fun i inside => ?_, fun i beyond => ?_⟩
  · change some p.strPtr = _
    rw [pointer, written]
  · change Function.update p.str p.strPtr 0#8 _ = _
    rw [pointer, ← written, Function.update_self]
  · change Function.update p.str p.strPtr 0#8 i = _
    rw [pointer, Function.update_of_ne (by omega)]
    exact bytes i (by omega)
  · change Function.update p.str p.strPtr 0#8 i = _
    rw [pointer, Function.update_of_ne (by omega)]
    exact outside i beyond

/-- The terminator replaces the literal that took its place. -/
theorem Filled.finish (filled : Filled size str text p) (some_ : 0 < size) : Cut size str text (p.finish size) := by
  obtain ⟨pointer, written, long, bytes, outside⟩ := filled
  have last : min text.length (size - 1) = size - 1 := by omega
  rw [Printf.finish, if_neg (by omega), if_pos some_]
  refine ⟨?_, ?_, fun i inside => ?_, fun i beyond => ?_⟩
  · rw [last]
  · rw [last]
    exact Function.update_self _ _ _
  · change Function.update p.str (size - 1) 0#8 i = _
    rw [Function.update_of_ne (by omega)]
    exact bytes i (by omega)
  · change Function.update p.str (size - 1) 0#8 i = _
    rw [Function.update_of_ne (by omega)]
    exact outside i beyond

theorem outcome_start (str : Bytes) (ap : VaList) (numBuf : Bytes) (some_ : 0 < size) (spells : Spells f format) :
    Outcome f numBuf ap size str format [] ⟨str, 0, 0, 0, 0, []⟩ (pieces format.chars) := by
  refine outcome_pieces some_ spells ⟨Nat.zero_le _, rfl, fun i listed => ?_⟩ ⟨rfl, ?_, fun i inside => ?_, fun _ _ => rfl⟩
  · cases listed
  · rw [List.length_nil, Nat.zero_min]
  · cases inside

theorem finish_reads : (p.finish size).reads = p.reads := by
  rw [Printf.finish]
  split_ifs <;> rfl

/-- Without an unpaired `%` the call returns the text, cut to the size. -/
theorem vsnprintf_cut (str : Bytes) (ap : VaList) (numBuf : Bytes) (some_ : 0 < size) (spells : Spells f format) (paired : endsUnpaired format = false) :
    ∃ r, Returns str size f ap numBuf r ∧ Cut size str (texts ap 0 (pieces format.chars).1) r ∧
      ∀ i ∈ r.reads, i ≤ strlen format := by
  rcases outcome_start str ap numBuf some_ spells with
    ⟨_, fuel, q, run, filled, reads⟩ | ⟨_, q, run, holds, placed⟩
  · refine ⟨q.finish size, ⟨fuel, congrArg _ run⟩, filled.finish some_, ?_⟩
    rw [finish_reads]
    exact reads
  · rw [endsUnpaired] at paired
    rw [paired] at placed
    have ended : ¬ (f q.format ≠ 0#8 ∧ q.written < size) := fun both => both.1 (placed.nil spells).2
    have looked : Holds size str (texts ap 0 (pieces format.chars).1) q.look :=
      ⟨holds.pointer, holds.written, holds.bytes, holds.outside⟩
    refine ⟨q.look.finish size, ⟨_, congrArg _ ((run 1).trans (printLoop_stop ended 0))⟩, looked.finish some_, ?_⟩
    rw [finish_reads]
    exact look_reads placed.inside placed.reads

theorem vsnprintf_nothing (str : Bytes) (f : Bytes) (ap : VaList) (numBuf : Bytes) :
    Returns str 0 f ap numBuf ⟨str, 0, none, [0]⟩ := by
  have ended : ¬ (f 0 ≠ 0#8 ∧ 0 < 0) := fun both => absurd both.2 (Nat.lt_irrefl 0)
  exact ⟨1, congrArg _ (printLoop_stop (p := ⟨str, 0, 0, 0, 0, []⟩) ended 0)⟩

end

/-- A smaller buffer gets the same text with its tail cut off, and a buffer of no bytes is left alone. -/
theorem truncation_cuts_tail {f : Bytes} {format : CString} (spells : Spells f format)
    (paired : endsUnpaired format = false) (ap : VaList) {n m : Nat} (some_ : 1 ≤ n) (le : n ≤ m)
    (str str' numBuf numBuf' : Bytes) :
    (∃ long short L, Returns str' m f ap numBuf' long ∧ Returns str n f ap numBuf short ∧
      long.terminator = some L ∧ short.terminator = some (min L (n - 1)) ∧ short.str (min L (n - 1)) = 0#8 ∧
      (∀ i < min L (n - 1), short.str i = long.str i) ∧ ∀ i, n ≤ i → short.str i = str i) ∧
      ∃ none_, Returns str 0 f ap numBuf none_ ∧ none_.str = str := by
  obtain ⟨long, ran, cut, _⟩ :=
    vsnprintf_cut str' ap numBuf' (Nat.le_trans some_ le) spells paired
  obtain ⟨short, ran', cut', _⟩ := vsnprintf_cut str ap numBuf some_ spells paired
  have least : ∀ l, min (min l (m - 1)) (n - 1) = min l (n - 1) := fun l => by omega
  refine ⟨⟨long, short, _, ran, ran', cut.terminator, ?_, ?_, fun i inside => ?_, cut'.outside⟩,
    _, vsnprintf_nothing str f ap numBuf, rfl⟩
  · rw [least]
    exact cut'.terminator
  · rw [least]
    exact cut'.ended
  · have inside' : i < min (texts ap 0 (pieces format.chars).1).length (n - 1) := least _ ▸ inside
    rw [cut'.bytes i inside', cut.bytes i (lt_of_lt_of_le inside (Nat.min_le_left _ _))]

/-- The format "a%d". -/
def letterNumber : CString := ⟨[0x61#8, 0x25#8, 0x64#8], by decide⟩

def noArguments : VaList := ⟨fun _ => 0#64, fun _ => 0#8⟩

theorem truncation_cuts_tail_letter :
    (∃ long short L, Returns (fun _ => 0#8) 9 letterNumber.bytes noArguments (fun _ => 0#8) long ∧
      Returns (fun _ => 0#8) 2 letterNumber.bytes noArguments (fun _ => 0#8) short ∧ long.terminator = some L ∧
      short.terminator = some (min L (2 - 1)) ∧ short.str (min L (2 - 1)) = 0#8 ∧
      (∀ i < min L (2 - 1), short.str i = long.str i) ∧ ∀ i, 2 ≤ i → short.str i = (fun _ => 0#8) i) ∧
      ∃ none_, Returns (fun _ => 0#8) 0 letterNumber.bytes noArguments (fun _ => 0#8) none_ ∧
        none_.str = fun _ => 0#8 :=
  have spells : Spells letterNumber.bytes letterNumber := fun _ _ => rfl
  truncation_cuts_tail spells rfl noArguments (by decide) (by decide) (fun _ => 0#8) (fun _ => 0#8) (fun _ => 0#8)
    (fun _ => 0#8)

theorem fills_iff {ap : VaList} {size i n : Nat} {ps : List Piece} :
    Fills ap size i n ps ↔ ∃ before c after, ps = before ++ .literal c :: after ∧
      size ≤ n + (texts ap i before).length + 1 := by
  induction ps generalizing i n with
  | nil =>
      refine iff_of_false id ?_
      rintro ⟨before, c, after, split, _⟩
      cases before <;> cases split
  | cons q rest ih =>
      rw [Fills, ih]
      constructor
      · rintro (⟨c, rfl, full⟩ | ⟨before, c, after, rfl, full⟩)
        · exact ⟨[], c, rest, rfl, full⟩
        · refine ⟨q :: before, c, after, rfl, ?_⟩
          rw [texts, List.length_append]
          omega
      · rintro ⟨before, c, after, split, full⟩
        cases before with
        | nil => exact .inl ⟨c, (List.cons.inj split).1, full⟩
        | cons first before =>
            obtain ⟨rfl, rfl⟩ := List.cons.inj split
            rw [texts, List.length_append] at full
            exact .inr ⟨before, c, after, rfl, by omega⟩

section
variable {f numBuf : Bytes} {ap : VaList} {size : Nat} {str : Bytes} {format : CString} {text : List Byte}
  {p q : Printf}

theorem directive_reads (ap : VaList) (numBuf : Bytes) (size : Nat) (letter : Byte) (p : Printf) :
    (directive ap numBuf size letter p).reads = p.reads := by
  rw [directive, Printf.putIfRoom, Printf.putIfRoom]
  split_ifs <;> rfl

theorem turn_reads : p.reads ⊆ (turn f ap numBuf size p).reads := by
  intro i listed
  rw [turn]
  split_ifs
  · change i ∈ (directive _ _ _ _ _).reads
    rw [directive_reads]
    exact List.mem_append_left _ listed
  · exact listed

/-- What has been read stays listed. -/
theorem printLoop_reads {fuel : Nat} (run : printLoop f ap numBuf size fuel p = some q) : p.look.reads ⊆ q.reads := by
  induction fuel generalizing p with
  | zero => cases run
  | succ fuel ih =>
      rw [printLoop] at run
      split_ifs at run with going
      · intro i listed
        exact ih run (List.mem_append_left _ (turn_reads listed))
      · cases run
        exact List.Subset.refl _

/-- A `%` with nothing after it makes the loop go on past the terminator. -/
theorem overrun (placed : Placed format [percentSign] p) (spells : Spells f format) (small : p.written < size)
    {fuel : Nat} (run : printLoop f ap numBuf size fuel p = some q) : strlen format + 1 ∈ q.reads := by
  obtain ⟨here, nonzero, inside, rest⟩ := placed.cons spells
  have last : p.format + 1 = strlen format := by
    have := List.drop_eq_nil_iff.mp rest
    have : strlen format ≤ p.format + 1 := this
    omega
  have terminator : f (p.format + 1) = 0#8 := by
    rw [last, spells _ le_rfl]
    exact List.getD_eq_default _ _ le_rfl
  cases fuel with
  | zero => cases run
  | succ fuel =>
      rw [printLoop_turn ap numBuf (here ▸ nonzero) small, turn_directive here, terminator] at run
      refine printLoop_reads run (List.mem_append_right _ (List.mem_singleton.mpr ?_))
      change strlen format + 1 = p.format + 1 + 1
      rw [last]

end

/-- The format is left at its terminator, unless it ends in a `%` that the loop comes to. -/
theorem format_reads_iff {f : Bytes} {format : CString} (spells : Spells f format) (str : Bytes) (size : Nat)
    (ap : VaList) (numBuf : Bytes) :
    (∃ r, Returns str size f ap numBuf r ∧ ∀ i ∈ r.reads, i ≤ strlen format) ↔
      endsUnpaired format = false ∨ size = 0 ∨
        ∃ before c after, (pieces format.chars).1 = before ++ .literal c :: after ∧
          size ≤ (texts ap 0 before).length + 1 := by
  have fills : Fills ap size 0 0 (pieces format.chars).1 ↔ _ := fills_iff
  simp only [Nat.zero_add] at fills
  rw [← fills]
  rcases Nat.eq_zero_or_pos size with rfl | some_
  · refine iff_of_true ⟨_, vsnprintf_nothing str f ap numBuf, fun i listed => ?_⟩ (.inr (.inl rfl))
    rw [List.mem_singleton.mp listed]
    exact Nat.zero_le _
  cases paired : endsUnpaired format with
  | false =>
      obtain ⟨r, ran, _, reads⟩ := vsnprintf_cut str ap numBuf some_ spells paired
      exact iff_of_true ⟨r, ran, reads⟩ (.inl rfl)
  | true =>
      rcases outcome_start str ap numBuf some_ spells with ⟨full, fuel, q, run, _, reads⟩ | ⟨roomy, q, run, holds, placed⟩
      · refine iff_of_true ⟨q.finish size, ⟨fuel, congrArg _ run⟩, ?_⟩ (.inr (.inr full))
        rw [finish_reads]
        exact reads
      · rw [endsUnpaired] at paired
        rw [paired] at placed
        refine iff_of_false ?_ (not_or.mpr ⟨by decide, not_or.mpr ⟨some_.ne', roomy⟩⟩)
        rintro ⟨r, ⟨fuel, ran⟩, inside⟩
        obtain ⟨last, ended, rfl⟩ := Option.map_eq_some_iff.mp ran
        rw [finish_reads] at inside
        have longer := printLoop_more (Nat.le_add_left fuel (pieces format.chars).1.length) ended
        rw [run] at longer
        have past := inside _ (overrun placed spells (holds.lt some_) longer)
        omega

/-- The format "%". -/
def lonePercent : CString := ⟨[percentSign], by decide⟩

theorem format_reads_lone_percent :
    (∃ r, Returns (fun _ => 0#8) 0 lonePercent.bytes noArguments (fun _ => 0#8) r ∧
      ∀ i ∈ r.reads, i ≤ strlen lonePercent) ↔
      endsUnpaired lonePercent = false ∨ 0 = 0 ∨
        ∃ before c after, (pieces lonePercent.chars).1 = before ++ .literal c :: after ∧
          0 ≤ (texts noArguments 0 before).length + 1 :=
  have spells : Spells lonePercent.bytes lonePercent := fun _ _ => rfl
  format_reads_iff spells _ 0 noArguments _

/-- The byte after the terminator of "%" is read. -/
theorem lone_percent_overruns : ¬ ∃ r, Returns (fun _ => 0#8) 2 lonePercent.bytes noArguments (fun _ => 0#8) r ∧
    ∀ i ∈ r.reads, i ≤ strlen lonePercent := by
  rintro ⟨r, ran, inside⟩
  have run : Returns (fun _ => 0#8) 2 lonePercent.bytes noArguments (fun _ => 0#8)
      ⟨Function.update (fun _ => 0#8) 0 0#8, 0, some 0, [0, 1, 2]⟩ := ⟨2, rfl⟩
  rw [ran.unique run] at inside
  exact absurd (inside 2 (by decide)) (by decide)

end AstralOS.Lib
