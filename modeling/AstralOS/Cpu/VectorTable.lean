import AstralOS.Cpu.Exceptions
import AstralOS.Foundation.ExceptionEntry

/-! The table at `_exception_vectors` has a branch in each word, where the entry points of the
architecture are 128 bytes apart: all but the first lie in the handlers behind the table. -/
namespace AstralOS.Cpu
open Foundation Foundation.Aarch64

inductive Callee where
  | exceptionHandler | timerHandleInterrupt
  deriving DecidableEq

/-- How control leaves `exceptions.s`. -/
inductive Exit where
  | calls (f : Callee)
  | eret
  deriving DecidableEq

/-- The operations of a handler: besides loads and stores `mov x0, sp` and `mov x1, #n`. -/
inductive Op where
  | instr (i : Instr)
  | movSp (n : Fin 31)
  | mov (n : Fin 31) (imm : BitVec 64)
  deriving DecidableEq

def Op.perform (s : State) : Op → State
  | .instr i => exec s i
  | .movSp n => s.write (.x n) s.sp
  | .mov n imm => s.write (.x n) imm

inductive Handler where
  | el1Sync | el1Irq | el1Fiq | el1Serror | el0Sync | el0Irq | el0Fiq | el0Serror
  deriving DecidableEq

namespace Handler

def all : List Handler := [el1Sync, el1Irq, el1Fiq, el1Serror, el0Sync, el0Irq, el0Fiq, el0Serror]

/-- The place among the handlers, and the type it passes in `x1`. -/
def number : Handler → Fin 8
  | el1Sync => 0
  | el1Irq => 1
  | el1Fiq => 2
  | el1Serror => 3
  | el0Sync => 4
  | el0Irq => 5
  | el0Fiq => 6
  | el0Serror => 7

def callee : Handler → Callee
  | el1Irq => .timerHandleInterrupt
  | _ => .exceptionHandler

/-- What comes before the call. -/
def prologue (h : Handler) : List Op :=
  saveContext.map .instr ++ [.movSp 0, .mov 1 (BitVec.ofNat 64 h.number)]

def code (h : Handler) : List (Word Op Exit) :=
  h.prologue.map .op ++ .leave (.calls h.callee) :: (restoreContext.map fun i => .op (.instr i)) ++ [.leave .eret]

/-- The word with the handler's label. -/
def label (h : Handler) : Nat := 16 + 42 * h.number

end Handler

open Handler in
/-- `_exception_vectors` -/
def exceptionVectors : List Handler :=
  [ el1Sync, el1Irq, el1Fiq, el1Serror,
    el1Sync, el1Irq, el1Fiq, el1Serror,
    el0Sync, el0Irq, el0Fiq, el0Serror,
    el0Sync, el0Irq, el0Fiq, el0Serror ]

/-- All of `exceptions.s`. -/
def text : List (Word Op Exit) :=
  (exceptionVectors.map fun h => .branch h.label) ++ Handler.all.flatMap Handler.code

/-- Where the linker puts `_exception_vectors`, whose address `kernel_main` writes to `VBAR_EL1`. -/
structure Placement where
  table : Addr
  words : 4 ∣ table.toNat

/-- The word of `exceptions.s` that an exception enters; none if there is no such word. -/
def entered (p : Placement) (e : Exception) : Nat := (e.entryPoint p.table - p.table).toNat / 4

/-- The registers are those after the core saved the return state in `ELR_EL1` and `SPSR_EL1`. -/
def takeException (p : Placement) (e : Exception) (s : State) : Option (Exit × State) :=
  follow Op.perform text text.length (entered p e) s

/-- The handler that the table names for an exception. -/
def intended (e : Exception) : Handler := exceptionVectors.getD e.number .el1Sync

/-- Within `exceptions.s` the exception gets to the call of its handler with the whole context saved. -/
def Dispatched (p : Placement) (e : Exception) (s : State) : Prop :=
  takeException p e s = some (.calls (intended e).callee, (intended e).prologue.foldl Op.perform s)

/-- The entry point happens to be a branch to the handler, or the first word of it. -/
def LandsRight (p : Placement) (e : Exception) : Prop :=
  exceptionVectors[entered p e]? = some (intended e) ∨ entered p e = (intended e).label

instance (p : Placement) (e : Exception) : Decidable (LandsRight p e) := inferInstanceAs (Decidable (_ ∨ _))

/-- The timer interrupt of the kernel, which runs at EL1 on its own stack pointer. -/
def timerInterrupt : Exception := ⟨.currentSpElx, .irq⟩

namespace Handler
variable {h : Handler}

theorem mem_all (h : Handler) : h ∈ all := by
  cases h <;> decide

theorem number_injective : Function.Injective number := by
  intro h h' same
  cases h <;> cases h' <;> first | rfl | cases same

theorem prologue_length (h : Handler) : h.prologue.length = 21 := rfl

theorem code_length (h : Handler) : h.code.length = 42 := rfl

/-- The handlers lie one behind the other. -/
theorem drop_label (h : Handler) : ∃ rest, text.drop h.label = h.code ++ rest := by
  cases h <;> exact ⟨_, rfl⟩

/-- The handlers lie behind the table. -/
theorem label_behind (h : Handler) (k : Nat) : 16 ≤ h.label + k :=
  Nat.le_add_right_of_le (Nat.le_add_right _ _)

end Handler

theorem no_branch {n : Nat} (behind : 16 ≤ n) : exceptionVectors[n]? = none := List.getElem?_eq_none behind

theorem text_length : text.length = 352 := by
  simp [text, Handler.all, Handler.code_length, exceptionVectors]

/-! Code entered at one of its words. -/

section
variable {h : Handler} {s : State} {p : Placement} {e : Exception} {n k fuel : Nat}

theorem follow_prologue (h : Handler) (before : k ≤ 21) (enough : 21 < fuel) (s : State) :
    follow Op.perform text fuel (h.label + k) s =
      some (.calls h.callee, (h.prologue.drop k).foldl Op.perform s) := by
  obtain ⟨rest, here⟩ := h.drop_label
  have within : k ≤ (h.prologue.map Word.op : List (Word Op Exit)).length := by
    rwa [List.length_map, h.prologue_length]
  have entry : text.drop (h.label + k) = (h.prologue.drop k).map .op ++ .leave (.calls h.callee) ::
      ((restoreContext.map fun i => .op (.instr i)) ++ [.leave .eret] ++ rest) := by
    rw [← List.drop_drop, here, Handler.code, List.append_assoc, List.append_assoc,
      List.drop_append_of_le_length within, List.map_drop]
    rfl
  refine follow_ops entry ?_
  rw [List.length_drop, h.prologue_length]
  omega

/-- Behind the call the context is popped, in part, and the exception is over. -/
theorem follow_epilogue (h : Handler) (behind : k ≤ 19) (enough : 21 < fuel) (s : State) :
    ∃ t, follow Op.perform text fuel (h.label + (22 + k)) s = some (.eret, t) := by
  obtain ⟨rest, here⟩ := h.drop_label
  have within : k ≤ ((restoreContext.map Op.instr).map Word.op : List (Word Op Exit)).length := behind
  have parts : h.code ++ rest = (h.prologue.map .op ++ [.leave (.calls h.callee)]) ++
      ((restoreContext.map Op.instr).map .op ++ .leave .eret :: rest) := by
    simp [Handler.code]
  have entry : text.drop (h.label + (22 + k)) = ((restoreContext.map Op.instr).drop k).map .op ++ .leave .eret :: rest := by
    have first : (h.prologue.map Word.op ++ [.leave (.calls h.callee)] : List (Word Op Exit)).length = 22 := rfl
    rw [← List.drop_drop, here, parts, ← List.drop_drop, ← first, List.drop_left,
      List.drop_append_of_le_length within, List.map_drop]
  refine ⟨_, follow_ops entry ?_⟩
  rw [List.length_drop, List.length_map]
  exact Nat.lt_of_le_of_lt (Nat.sub_le ..) (Nat.lt_of_lt_of_le (by decide) enough.le)

theorem follow_table (inside : n < 16) (enough : 22 < fuel) (s : State) : ∃ h, exceptionVectors[n]? = some h ∧
    follow Op.perform text fuel n s = some (.calls h.callee, h.prologue.foldl Op.perform s) := by
  have few : n < exceptionVectors.length := inside
  obtain ⟨fuel, rfl⟩ : ∃ m, fuel = m + 1 := ⟨fuel - 1, by omega⟩
  have here : text[n]? = some (.branch exceptionVectors[n].label) := by
    rw [text, List.getElem?_append_left (by rwa [List.length_map]), List.getElem?_map, List.getElem?_eq_getElem few]
    rfl
  refine ⟨exceptionVectors[n], List.getElem?_eq_getElem few, ?_⟩
  rw [follow_branch here]
  exact follow_prologue (k := 0) exceptionVectors[n] (Nat.zero_le _) (by omega) s

/-! The right landings. -/

def Op.shift : Op → Addr
  | .instr i => i.shift
  | _ => 0#64

theorem perform_sp (ops : List Op) (s : State) :
    (ops.foldl Op.perform s).sp = s.sp + (ops.map Op.shift).sum := by
  induction ops generalizing s with
  | nil => exact (BitVec.add_zero s.sp).symm
  | cons o rest ih =>
      have one : (Op.perform s o).sp = s.sp + o.shift := by
        cases o with
        | instr i => exact exec_sp s i
        | movSp n => exact (BitVec.add_zero s.sp).symm
        | mov n imm => exact (BitVec.add_zero s.sp).symm
      rw [List.foldl_cons, ih, one, BitVec.add_assoc]
      rfl

/-- Entered later, a handler pushes less. -/
theorem prologue_shift (h h' : Handler) (before : k ≤ 21)
    (same : ((h.prologue.drop k).map Op.shift).sum = (h'.prologue.map Op.shift).sum) : k = 0 := by
  have shifts : ∀ h : Handler, h.prologue.map Op.shift = saveContext.map Instr.shift ++ [0#64, 0#64] := fun _ => rfl
  rw [List.map_drop, shifts, shifts] at same
  have all : ∀ k : Fin 22, ((saveContext.map Instr.shift ++ [0#64, 0#64]).drop k).sum =
      (saveContext.map Instr.shift ++ [0#64, 0#64]).sum → k = 0 := by decide
  exact congrArg Fin.val (all ⟨k, by omega⟩ same)

theorem perform_mov (s : State) (n : Fin 31) (imm : BitVec 64) : (Op.perform s (.mov n imm)).x n = imm := by
  unfold Op.perform State.write
  exact Function.update_self ..

/-- The type of the handler is in `x1` when it calls, unless it was entered behind that. -/
theorem prologue_type (h : Handler) (before : k ≤ 20) (s : State) :
    ((h.prologue.drop k).foldl Op.perform s).x 1 = BitVec.ofNat 64 h.number := by
  have last : h.prologue = (saveContext.map .instr ++ [.movSp 0]) ++ [.mov 1 (BitVec.ofNat 64 h.number)] := rfl
  have within : k ≤ (saveContext.map Op.instr ++ [Op.movSp 0]).length := before
  rw [last, List.drop_append_of_le_length within, List.foldl_append, List.foldl_cons, List.foldl_nil, perform_mov]

/-- The call is right when the handler is, and was entered at its first word. -/
theorem prologue_injective {h h' : Handler} (before : k ≤ 21)
    (same : (h.prologue.drop k).foldl Op.perform s = h'.prologue.foldl Op.perform s) : h = h' ∧ k = 0 := by
  have sps := congrArg (fun t => t.sp) same
  rw [perform_sp, perform_sp] at sps
  obtain rfl := prologue_shift h h' before ((BitVec.add_right_inj _).mp sps)
  have types := congrArg (fun t => t.x 1) same
  have type := prologue_type h' (k := 0) (Nat.zero_le _) s
  rw [List.drop_zero] at type
  rw [prologue_type h (Nat.zero_le _), type] at types
  have numbers : h.number = h'.number := by
    have small := h.number.isLt
    have small' := h'.number.isLt
    have equal := congrArg BitVec.toNat types
    rw [BitVec.toNat_ofNat, BitVec.toNat_ofNat] at equal
    omega
  exact ⟨Handler.number_injective numbers, rfl⟩

/-- A word of the table, of a handler up to its call, of a handler behind it, or none. -/
theorem word_cases (n : Nat) :
    n < 16 ∨ (∃ h : Handler, ∃ k ≤ 21, n = h.label + k) ∨ (∃ h : Handler, ∃ k ≤ 19, n = h.label + (22 + k)) ∨
      352 ≤ n := by
  by_cases table : n < 16
  · exact .inl table
  by_cases outside : 352 ≤ n
  · exact .inr (.inr (.inr outside))
  obtain ⟨h, number⟩ : ∃ h : Handler, (h.number : Nat) = (n - 16) / 42 := by
    have surjective : ∀ m : Fin 8, ∃ h ∈ Handler.all, h.number = m := by decide
    obtain ⟨h, _, same⟩ := surjective ⟨(n - 16) / 42, by omega⟩
    exact ⟨h, congrArg Fin.val same⟩
  by_cases before : (n - 16) % 42 ≤ 21
  · refine .inr (.inl ⟨h, (n - 16) % 42, before, ?_⟩)
    rw [Handler.label]
    omega
  · refine .inr (.inr (.inl ⟨h, (n - 16) % 42 - 22, by omega, ?_⟩))
    rw [Handler.label]
    omega

theorem label_eq (h h' : Handler) (k : Nat) (short : k < 42) : h.label + k = h'.label ↔ h = h' ∧ k = 0 := by
  unfold Handler.label
  constructor
  · intro same
    have numbers : h.number = h'.number := by omega
    exact ⟨Handler.number_injective numbers, by omega⟩
  · rintro ⟨rfl, rfl⟩
    rfl

theorem calls_iff (h h' : Handler) (before : k ≤ 21) (s : State) :
    some (Exit.calls h.callee, (h.prologue.drop k).foldl Op.perform s) =
      some (.calls h'.callee, h'.prologue.foldl Op.perform s) ↔ h = h' ∧ k = 0 := by
  constructor
  · intro same
    exact prologue_injective before (congrArg Prod.snd (Option.some.inj same))
  · rintro ⟨rfl, rfl⟩
    rfl

/-- An exception gets to its handler if and only if its entry point is right by chance. -/
theorem dispatched_iff (p : Placement) (e : Exception) (s : State) : Dispatched p e s ↔ LandsRight p e := by
  unfold Dispatched LandsRight takeException
  have enough : 22 < text.length := by
    rw [text_length]
    decide
  rcases word_cases (entered p e) with table | ⟨h, k, before, word⟩ | ⟨h, k, behind, word⟩ | outside
  · obtain ⟨h, named, ran⟩ := follow_table table enough s
    have apart : entered p e ≠ (intended e).label := by
      rw [Handler.label]
      omega
    have right := calls_iff h (intended e) (k := 0) (Nat.zero_le _) s
    rw [List.drop_zero] at right
    rw [ran, right, named, or_iff_left apart, Option.some.injEq]
    exact and_iff_left rfl
  · rw [no_branch (word ▸ h.label_behind _), word, follow_prologue h before (by omega), calls_iff h _ before, label_eq h _ k (by omega)]
    simp
  · obtain ⟨t, ran⟩ := follow_epilogue h behind (by omega : 21 < text.length) s
    rw [no_branch (word ▸ h.label_behind _), word, ran, label_eq h _ (22 + k) (by omega)]
    simp
  · have apart : entered p e ≠ (intended e).label := by
      have few := (intended e).number.isLt
      rw [Handler.label]
      omega
    rw [follow_outside (by rwa [text_length]), no_branch (Nat.le_trans (by decide) outside)]
    simp [apart]

/-! The right placements. -/

/-- The same for a table `d` words behind a multiple of 2048. -/
def RightAt (d : Nat) (e : Exception) : Prop :=
  d ≤ 32 * e.number ∧ (exceptionVectors[32 * e.number - d]? = some (intended e) ∨
    32 * e.number - d = (intended e).label)

instance (d : Nat) (e : Exception) : Decidable (RightAt d e) := inferInstanceAs (Decidable (_ ∧ _))

theorem landsRight_iff (p : Placement) (e : Exception) : LandsRight p e ↔ RightAt (p.table.toNat % 2048 / 4) e := by
  obtain ⟨table, words⟩ := p
  unfold LandsRight RightAt entered
  dsimp only
  by_cases behind : table.toNat % 2048 ≤ 128 * e.number
  · have word : (128 * e.number - table.toNat % 2048) / 4 = 32 * e.number - table.toNat % 2048 / 4 := by omega
    rw [entryPoint_sub e table behind, word]
    exact (and_iff_right (by omega)).symm
  · have far := entryPoint_before e table (by omega)
    have few := (intended e).number.isLt
    rw [no_branch (by omega), Handler.label]
    constructor
    · rintro (none_ | same)
      · cases none_
      · omega
    · rintro ⟨inside, _⟩
      omega

theorem rightAt_few : ∀ d < 512, (Exception.all.filter fun e => RightAt d e).length ≤ 2 := by
  decide +kernel

example : (Exception.all.filter fun e => RightAt 62 e) = [⟨.currentSpEl0, .fiq⟩, ⟨.lowerAarch64, .irq⟩] := by
  decide

theorem rightAt_timer : ∀ d < 512, RightAt d timerInterrupt ↔ 4 * d = 0x198 ∨ 4 * d = 0x26C ∨ 4 * d = 0x27C := by
  decide +kernel

theorem rightAt_zero : ∀ e ∈ Exception.all, RightAt 0 e → e = ⟨.currentSpEl0, .synchronous⟩ := by
  decide

end

/-- What the kernel's exceptions meet with the table at a place. -/
structure MissesHandlers (p : Placement) : Prop where
  exactly : ∀ e s, Dispatched p e s ↔ LandsRight p e
  few : (Exception.all.filter fun e => LandsRight p e).length ≤ 2
  timer : ∀ s, Dispatched p timerInterrupt s ↔
    p.table.toNat % 2048 = 0x198 ∨ p.table.toNat % 2048 = 0x26C ∨ p.table.toNat % 2048 = 0x27C
  aligned : 2048 ∣ p.table.toNat → ∀ s, (∀ e, Dispatched p e s → e = ⟨.currentSpEl0, .synchronous⟩) ∧
    ∃ t, takeException p timerInterrupt s = some (.calls .exceptionHandler, t) ∧ t.x 1 = 3#64 ∧ t.sp = s.sp - 16#64

theorem vectors_miss_handlers (p : Placement) : MissesHandlers p where
  exactly := dispatched_iff p
  few := by
    have same : (Exception.all.filter fun e => LandsRight p e) =
        Exception.all.filter fun e => RightAt (p.table.toNat % 2048 / 4) e :=
      List.filter_congr fun e _ => decide_eq_decide.mpr (landsRight_iff p e)
    rw [same]
    exact rightAt_few _ (by omega)
  timer := by
    intro s
    have words := p.words
    rw [dispatched_iff, landsRight_iff, rightAt_timer _ (by omega)]
    omega
  aligned := by
    intro aligned s
    have first : p.table.toNat % 2048 / 4 = 0 := by omega
    refine ⟨fun e dispatched => ?_, ?_⟩
    · rw [dispatched_iff, landsRight_iff, first] at dispatched
      exact rightAt_zero e e.mem_all dispatched
    · have word : entered p timerInterrupt = Handler.el1Serror.label + 18 := by
        rw [entered, entryPoint_sub _ _ (by omega), Nat.mod_eq_zero_of_dvd aligned]
        decide
      have enough : 21 < text.length := by
        rw [text_length]
        decide
      have popped : ((Handler.el1Serror.prologue.drop 18).map Op.shift).sum = -16#64 := by decide
      refine ⟨(Handler.el1Serror.prologue.drop 18).foldl Op.perform s, ?_, ?_, ?_⟩
      · rw [takeException, word, follow_prologue .el1Serror (by decide) enough]
        rfl
      · rw [prologue_type .el1Serror (by decide)]
        rfl
      · rw [perform_sp, popped, BitVec.sub_eq_add_neg]

end AstralOS.Cpu
