import AstralOS.Foundation.Aarch64

/-! Exception entry and exit: `save_context` pushes the interrupted registers, and
`restore_context` goes on pushing where it ought to pop. -/
namespace AstralOS.Cpu
open Foundation Foundation.Aarch64

def saveContext : List Instr :=
  [ .stp (.x 0) (.x 1) push,
    .stp (.x 2) (.x 3) push,
    .stp (.x 4) (.x 5) push,
    .stp (.x 6) (.x 7) push,
    .stp (.x 8) (.x 9) push,
    .stp (.x 10) (.x 11) push,
    .stp (.x 12) (.x 13) push,
    .stp (.x 14) (.x 15) push,
    .stp (.x 16) (.x 17) push,
    .stp (.x 18) (.x 19) push,
    .stp (.x 20) (.x 21) push,
    .stp (.x 22) (.x 23) push,
    .stp (.x 24) (.x 25) push,
    .stp (.x 26) (.x 27) push,
    .stp (.x 28) (.x 29) push,
    .mrs (.x 20) .elrEl1,
    .mrs (.x 21) .spsrEl1,
    .stp (.x 30) (.x 20) push,
    .stp (.x 21) .zr push ]

def restoreContext : List Instr :=
  [ .ldp (.x 21) .zr pop,
    .ldp (.x 30) (.x 20) pop,
    .msr .elrEl1 (.x 20),
    .msr .spsrEl1 (.x 21),
    .ldp (.x 28) (.x 29) pop,
    .ldp (.x 26) (.x 27) push,
    .ldp (.x 24) (.x 25) push,
    .ldp (.x 22) (.x 23) push,
    .ldp (.x 20) (.x 21) push,
    .ldp (.x 18) (.x 19) push,
    .ldp (.x 16) (.x 17) push,
    .ldp (.x 14) (.x 15) push,
    .ldp (.x 12) (.x 13) push,
    .ldp (.x 10) (.x 11) push,
    .ldp (.x 8) (.x 9) push,
    .ldp (.x 6) (.x 7) push,
    .ldp (.x 4) (.x 5) push,
    .ldp (.x 2) (.x 3) push,
    .ldp (.x 0) (.x 1) pop ]

/-- What a handler leaves as it found it: the stack pointer, and memory from there on. -/
structure Handled (entry exit_ : State) : Prop where
  sp : exit_.sp = entry.sp
  stack : ∀ a : Addr, entry.sp.toNat ≤ a.toNat → exit_.mem a = entry.mem a

/-- The interrupted code cannot tell that it was interrupted. -/
structure Restored (before after : State) : Prop where
  x : after.x = before.x
  elr : after.sys .elrEl1 = before.sys .elrEl1
  spsr : after.sys .spsrEl1 = before.sys .spsrEl1
  sp : after.sp = before.sp

/-- The words `save_context` leaves on the stack, the lowest first. -/
def frame (r : Regs) : List (BitVec 64) :=
  [ r.sys .spsrEl1, 0, r.x 30, r.sys .elrEl1, r.x 28, r.x 29, r.x 26, r.x 27, r.x 24, r.x 25,
    r.x 22, r.x 23, r.x 20, r.x 21, r.x 18, r.x 19, r.x 16, r.x 17, r.x 14, r.x 15, r.x 12, r.x 13,
    r.x 10, r.x 11, r.x 8, r.x 9, r.x 6, r.x 7, r.x 4, r.x 5, r.x 2, r.x 3, r.x 0, r.x 1 ]

section
variable {s t : State}

private def lowPairs : List (Gpr × Gpr) :=
  [ (.x 0, .x 1), (.x 2, .x 3), (.x 4, .x 5), (.x 6, .x 7), (.x 8, .x 9), (.x 10, .x 11),
    (.x 12, .x 13), (.x 14, .x 15), (.x 16, .x 17), (.x 18, .x 19), (.x 20, .x 21),
    (.x 22, .x 23), (.x 24, .x 25), (.x 26, .x 27), (.x 28, .x 29) ]

private def highPairs : List (Gpr × Gpr) := [(.x 30, .x 20), (.x 21, .zr)]

theorem saveContext_sp (s : State) : (run saveContext s).sp = s.sp - 272#64 := by
  rw [run_sp, BitVec.sub_eq_add_neg]
  rfl

/-- The two system registers go through `x20` and `x21`. -/
private theorem run_mrs (s : State) :
    run [.mrs (.x 20) .elrEl1, .mrs (.x 21) .spsrEl1] s =
      { s with x := Function.update (Function.update s.x 20 (s.sys .elrEl1)) 21 (s.sys .spsrEl1) } := rfl

theorem saveContext_frame (s : State) :
    Stacked (run saveContext s).mem (run saveContext s).sp (frame s.toRegs) := by
  have parts : saveContext = pushes lowPairs ++ [.mrs (.x 20) .elrEl1, .mrs (.x 21) .spsrEl1] ++
      pushes highPairs := rfl
  have empty : Stacked s.mem s.sp [] := .nil
  obtain ⟨x, sys, low⟩ := empty.pushes lowPairs (by decide)
  rw [parts, run_append, run_append, run_mrs, x, sys]
  generalize run (pushes lowPairs) s = s1 at low ⊢
  set s2 : State := { s1 with
    x := Function.update (Function.update s.x 20 (s.sys .elrEl1)) 21 (s.sys .spsrEl1)
    sys := s.sys }
  have low : Stacked s2.mem s2.sp _ := low
  have high := (low.pushes highPairs (by simp [lowPairs, highPairs])).2.2
  simpa [lowPairs, highPairs, State.read, s2, frame] using high

/-- Seventeen pairs up, but four up and thirteen more down. -/
theorem restoreContext_sp (s : State) : (run restoreContext s).sp = s.sp - 144#64 := by
  rw [run_sp, BitVec.sub_eq_add_neg]
  rfl

/-- What is loaded from the frame, each pair twice: once on the way up and once going down again. -/
theorem restoreContext_loads (t : State) {words : List (BitVec 64)} (stacked : Stacked t.mem t.sp words)
    (whole : words.length = 34) : let u := run restoreContext t
    u.sys .spsrEl1 = words[0] ∧ u.sys .elrEl1 = words[3] ∧
      [u.x 30, u.x 28, u.x 29] = [words[2], words[4], words[5]] ∧
      [u.x 26, u.x 27] = [words[4], words[5]] ∧ [u.x 24, u.x 25] = [words[2], words[3]] ∧
      [u.x 22, u.x 23] = [words[0], words[1]] := by
  have word0 := stacked 0 (by omega)
  have word1 := stacked 1 (by omega)
  have word2 := stacked 2 (by omega)
  have word3 := stacked 3 (by omega)
  have word4 := stacked 4 (by omega)
  have word5 := stacked 5 (by omega)
  rw [← word0, ← word1, ← word2, ← word3, ← word4, ← word5]
  simp [run, restoreContext, exec, push, pop, Operand.address, Operand.writeback, State.base, State.setBase,
    State.write, State.read, BitVec.add_assoc]

/-- The stack pointer comes back 416 bytes too low. -/
theorem returned_sp (handled : Handled (run saveContext s) t) : (run restoreContext t).sp = s.sp - 416#64 := by
  rw [restoreContext_sp, handled.sp, saveContext_sp, BitVec.sub_sub]
  rfl

/-- The system registers and `x28` to `x30` do come back; `x22` to `x27` get what was pushed for others. -/
theorem returned_registers (handled : Handled (run saveContext s) t) (room : 272 ≤ s.sp.toNat) :
    let u := run restoreContext t
    u.sys .spsrEl1 = s.sys .spsrEl1 ∧ u.sys .elrEl1 = s.sys .elrEl1 ∧
      [u.x 30, u.x 28, u.x 29] = [s.x 30, s.x 28, s.x 29] ∧
      [u.x 26, u.x 27] = [s.x 28, s.x 29] ∧ [u.x 24, u.x 25] = [s.x 30, s.sys .elrEl1] ∧
      [u.x 22, u.x 23] = [s.sys .spsrEl1, 0] := by
  have bound := s.sp.isLt
  have low : (run saveContext s).sp.toNat = s.sp.toNat - 272 := by
    rw [saveContext_sp, BitVec.toNat_sub_of_le room]
    rfl
  have fits : (run saveContext s).sp.toNat + 8 * (frame s.toRegs).length ≤ 2 ^ 64 := by
    change _ + 8 * 34 ≤ _
    omega
  have kept := (saveContext_frame s).congr fits handled.stack
  rw [← handled.sp] at kept
  exact restoreContext_loads t kept rfl

/-- No exception, however it is handled, gives the interrupted code its registers back. -/
theorem exception_never_restores (handled : Handled (run saveContext s) t) :
    ¬ Restored s (run restoreContext t) := by
  intro restored
  have low := returned_sp handled
  rw [restored.sp] at low
  exact absurd low (by bv_omega)

end

/-- All registers zero, in the middle of a stack of zeros. -/
def interrupted : State := ⟨⟨fun _ => 0, 0x80000#64, fun _ => 0⟩, fun _ => 0, 0⟩

theorem exception_never_restores_idle : Handled (run saveContext interrupted) (run saveContext interrupted) ∧
    ¬ Restored interrupted (run restoreContext (run saveContext interrupted)) :=
  ⟨⟨rfl, fun _ _ => rfl⟩, exception_never_restores ⟨rfl, fun _ _ => rfl⟩⟩

/-- A handler that does nothing, entered with an aligned stack pointer. -/
theorem idle_handler_shifts_stack :
    ¬ ∀ before after : State, 16 ∣ before.sp.toNat → Handled (run saveContext before) after →
      Restored before (run restoreContext after) := by
  intro restores
  have sp := (restores interrupted (run saveContext interrupted) (by decide) ⟨rfl, fun _ _ => rfl⟩).sp
  rw [returned_sp ⟨rfl, fun _ _ => rfl⟩] at sp
  exact absurd sp (by decide)

end AstralOS.Cpu
