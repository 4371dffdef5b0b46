import AstralOS.Foundation.Memory

/-! The few AArch64 instructions that save and restore registers, on byte-addressed
memory. A block is executed from its first instruction; `pc` is only the address a
`ret` leaves to. -/
namespace Foundation.Aarch64

instance registers_neZero : NeZero 31 := ⟨by decide⟩

inductive SysReg where
  | spEl0 | elrEl1 | spsrEl1
  deriving DecidableEq

inductive Gpr where
  | x (n : Fin 31)
  | zr
  deriving DecidableEq

inductive Base where
  | x (n : Fin 31)
  | sp
  deriving DecidableEq

/-- `[base, #imm]`, `[base, #imm]!` and `[base], #imm`. -/
inductive Index where
  | offset | pre | post
  deriving DecidableEq

structure Operand where
  base : Base
  imm : Addr
  index : Index
  deriving DecidableEq

inductive Instr where
  | stp (t u : Gpr) (at_ : Operand)
  | ldp (t u : Gpr) (at_ : Operand)
  | str (t : Gpr) (at_ : Operand)
  | ldr (t : Gpr) (at_ : Operand)
  | mrs (t : Gpr) (r : SysReg)
  | msr (r : SysReg) (t : Gpr)
  | ret
  deriving DecidableEq

structure Regs where
  x : Fin 31 → BitVec 64
  sp : BitVec 64
  sys : SysReg → BitVec 64

structure State extends Regs where
  mem : Memory
  pc : Addr

def State.read (s : State) : Gpr → BitVec 64
  | .x n => s.x n
  | .zr => 0

def State.write (s : State) (t : Gpr) (v : BitVec 64) : State :=
  match t with
  | .x n => { s with x := Function.update s.x n v }
  | .zr => s

def State.base (s : State) : Base → Addr
  | .x n => s.x n
  | .sp => s.sp

def State.setBase (s : State) (b : Base) (v : Addr) : State :=
  match b with
  | .x n => { s with x := Function.update s.x n v }
  | .sp => { s with sp := v }

def Operand.address (o : Operand) (s : State) : Addr :=
  match o.index with
  | .post => s.base o.base
  | _ => s.base o.base + o.imm

def Operand.writeback (o : Operand) (s : State) : State :=
  match o.index with
  | .offset => s
  | _ => s.setBase o.base (s.base o.base + o.imm)

def exec (s : State) : Instr → State
  | .stp t u o =>
      let a := o.address s
      o.writeback { s with mem := store 8 (store 8 s.mem a (s.read t)) (a + 8) (s.read u) }
  | .ldp t u o =>
      let a := o.address s
      ((o.writeback s).write t (load 64 8 s.mem a)).write u (load 64 8 s.mem (a + 8))
  | .str t o => o.writeback { s with mem := store 8 s.mem (o.address s) (s.read t) }
  | .ldr t o => (o.writeback s).write t (load 64 8 s.mem (o.address s))
  | .mrs t r => s.write t (s.sys r)
  | .msr r t => { s with sys := Function.update s.sys r (s.read t) }
  | .ret => { s with pc := s.x 30 }

def run (block : List Instr) (s : State) : State := block.foldl exec s

/-- The ranges an instruction stores to: address and number of bytes. -/
def stored (s : State) : Instr → List (Addr × Nat)
  | .stp _ _ o => [(o.address s, 16)]
  | .str _ o => [(o.address s, 8)]
  | _ => []

def writes : List Instr → State → List (Addr × Nat)
  | [], _ => []
  | i :: rest, s => stored s i ++ writes rest (exec s i)

theorem run_cons (i : Instr) (rest : List Instr) (s : State) : run (i :: rest) s = run rest (exec s i) := rfl

theorem run_append (first second : List Instr) (s : State) :
    run (first ++ second) s = run second (run first s) := List.foldl_append ..

theorem writes_append (first second : List Instr) (s : State) :
    writes (first ++ second) s = writes first s ++ writes second (run first s) := by
  induction first generalizing s with
  | nil => rfl
  | cons i rest ih =>
      rw [List.cons_append, writes, writes, ih, List.append_assoc]
      rfl

theorem writes_eq_nil {block : List Instr} (loads : ∀ i ∈ block, ∀ s, stored s i = []) (s : State) :
    writes block s = [] := by
  induction block generalizing s with
  | nil => rfl
  | cons i rest ih =>
      rw [writes, loads i List.mem_cons_self, List.nil_append]
      exact ih (fun j member => loads j (List.mem_cons_of_mem i member)) _

/-- What an operand adds to the stack pointer. -/
def Operand.shift (o : Operand) : Addr :=
  match o.base, o.index with
  | .sp, .pre | .sp, .post => o.imm
  | _, _ => 0

def Instr.shift : Instr → Addr
  | .stp _ _ o | .ldp _ _ o | .str _ o | .ldr _ o => o.shift
  | _ => 0

section
variable {s : State} {m m' : Memory} {sp : Addr} {words : List (BitVec 64)}

@[simp] theorem write_sp (t : Gpr) (v : BitVec 64) : (s.write t v).sp = s.sp := by
  cases t <;> rfl

theorem writeback_sp (o : Operand) : (o.writeback s).sp = s.sp + o.shift := by
  rcases o with ⟨base | _, imm, index⟩ <;> cases index <;>
    simp [Operand.writeback, Operand.shift, State.setBase, State.base]

theorem exec_sp (s : State) (i : Instr) : (exec s i).sp = s.sp + i.shift := by
  cases i <;> simp [exec, Instr.shift, writeback_sp]

/-- Where a block leaves the stack pointer depends on its operands alone. -/
theorem run_sp (block : List Instr) (s : State) : (run block s).sp = s.sp + (block.map Instr.shift).sum := by
  induction block generalizing s with
  | nil => exact (BitVec.add_zero s.sp).symm
  | cons i rest ih =>
      have later := ih (exec s i)
      rw [exec_sp, BitVec.add_assoc] at later
      exact later

/-! A stack that grows downwards, as the list of its words. -/

/-- `[sp, #-16]!` -/
def push : Operand := ⟨.sp, -16#64, .pre⟩

/-- `[sp], #16` -/
def pop : Operand := ⟨.sp, 16#64, .post⟩

/-- The words from the stack pointer upwards. -/
def Stacked (m : Memory) (sp : Addr) (words : List (BitVec 64)) : Prop :=
  ∀ k, (h : k < words.length) → load 64 8 m (sp + BitVec.ofNat 64 (8 * k)) = words[k]

theorem Stacked.nil : Stacked m sp [] := fun k inside => absurd inside (Nat.not_lt_zero k)

theorem stp_registers {o : Operand} (stack : o.base = .sp) (s : State) (t u : Gpr) :
    (exec s (.stp t u o)).x = s.x ∧ (exec s (.stp t u o)).sys = s.sys := by
  obtain ⟨base, imm, index⟩ := o
  subst stack
  cases index <;> exact ⟨rfl, rfl⟩

/-- A pair pushed is on top, and what was there stays below it. -/
theorem Stacked.push (stacked : Stacked s.mem s.sp words) (room : 8 * words.length + 16 ≤ 2 ^ 64) (t u : Gpr) :
    Stacked (exec s (.stp t u push)).mem (exec s (.stp t u push)).sp (s.read t :: s.read u :: words) := by
  have sp : (exec s (.stp t u Aarch64.push)).sp = s.sp - 16#64 := by
    rw [exec_sp]
    exact (BitVec.sub_eq_add_neg ..).symm
  have mem : (exec s (.stp t u Aarch64.push)).mem =
      store 8 (store 8 s.mem (s.sp - 16#64) (s.read t)) (s.sp - 16#64 + 8#64) (s.read u) := by
    rw [BitVec.sub_eq_add_neg]
    rfl
  rw [sp, mem]
  intro k inside
  match k with
  | 0 =>
      rw [load_store_apart _ _ _ _ fun i below => ?_]
      · exact (congrArg (load 64 8 _) (BitVec.add_zero _)).trans (load_store_same (by omega) (by omega) _ _ _)
      · bv_omega
  | 1 => exact load_store_same (by omega) (by omega) _ _ _
  | k + 2 =>
      have short : k < words.length := by simpa using inside
      have above : s.sp - 16#64 + BitVec.ofNat 64 (8 * (k + 2)) = s.sp + BitVec.ofNat 64 (8 * k) := by
        rw [show 8 * (k + 2) = 16 + 8 * k by omega, BitVec.ofNat_add, ← BitVec.add_assoc]
        exact congrArg (· + _) (BitVec.sub_add_cancel _ _)
      rw [above, load_store_apart _ _ _ _ fun i below => ?_, load_store_apart _ _ _ _ fun i below => ?_]
      · exact stacked k short
      · bv_omega
      · bv_omega

theorem read_congr {s' : State} (same : s'.x = s.x) (t : Gpr) : s'.read t = s.read t := by
  cases t with
  | x n => exact congrFun same n
  | zr => rfl

def pushes (pairs : List (Gpr × Gpr)) : List Instr := pairs.map fun p => .stp p.1 p.2 push

/-- Pairs pushed one after another; the last is on top. -/
theorem Stacked.pushes (pairs : List (Gpr × Gpr)) (stacked : Stacked s.mem s.sp words)
    (room : 16 * pairs.length + 8 * words.length ≤ 2 ^ 64) :
    let s' := run (Aarch64.pushes pairs) s
    s'.x = s.x ∧ s'.sys = s.sys ∧
      Stacked s'.mem s'.sp ((pairs.reverse.flatMap fun p => [s.read p.1, s.read p.2]) ++ words) := by
  induction pairs generalizing s words with
  | nil => exact ⟨rfl, rfl, stacked⟩
  | cons p rest ih =>
      rw [List.length_cons] at room
      obtain ⟨x1, sys1⟩ := stp_registers (o := Aarch64.push) rfl s p.1 p.2
      have first := stacked.push (by omega) p.1 p.2
      rw [Aarch64.pushes, List.map_cons, run_cons, ← Aarch64.pushes]
      set s1 := exec s (.stp p.1 p.2 Aarch64.push)
      obtain ⟨x, sys, later⟩ := ih first (by rw [List.length_cons, List.length_cons]; omega)
      refine ⟨x.trans x1, sys.trans sys1, ?_⟩
      simp only [read_congr x1] at later
      simpa using later

/-- Memory that agrees from the stack pointer on holds the same stack. -/
theorem Stacked.congr (stacked : Stacked m sp words) (fits : sp.toNat + 8 * words.length ≤ 2 ^ 64)
    (same : ∀ a : Addr, sp.toNat ≤ a.toNat → m' a = m a) : Stacked m' sp words := by
  intro k inside
  rw [← stacked k inside]
  refine load_congr fun i below => same _ ?_
  rw [BitVec.add_assoc, ← BitVec.ofNat_add, toNat_add_ofNat (by omega)]
  omega

end

/-- Memory with `n` words of `f` laid over it from `a` on. -/
def overlay (m : Memory) (a : Addr) (f : Nat → BitVec 64) (n : Nat) : Memory := fun x =>
  if (x - a).toNat < 8 * n then leByte (f ((x - a).toNat / 8)) ((x - a).toNat % 8) else m x

@[simp] theorem overlay_zero (m : Memory) (a : Addr) (f : Nat → BitVec 64) :
    overlay m a f 0 = m := by
  funext x
  simp [overlay]

/-- The next word in order extends the overlay. -/
theorem store_overlay (m : Memory) (a : Addr) (f : Nat → BitVec 64) {n : Nat}
    (hn : 8 * (n + 1) ≤ 2 ^ 64) :
    store 8 (overlay m a f n) (a + BitVec.ofNat 64 (8 * n)) (f n) = overlay m a f (n + 1) := by
  funext x
  have small : 8 * n % 2 ^ 64 = 8 * n := Nat.mod_eq_of_lt (by omega)
  have distance : (x - (a + BitVec.ofNat 64 (8 * n))).toNat =
      (2 ^ 64 - 8 * n + (x - a).toNat) % 2 ^ 64 := by
    rw [sub_add_eq_sub_sub, BitVec.toNat_sub, BitVec.toNat_ofNat, small]
  have bound := (x - a).isLt
  unfold store overlay
  rw [distance]
  generalize (x - a).toNat = d at bound ⊢
  by_cases low : d < 8 * n
  · rw [if_neg (by omega), if_pos low, if_pos (by omega)]
  · by_cases word : d < 8 * (n + 1)
    · have offset : (2 ^ 64 - 8 * n + d) % 2 ^ 64 = d - 8 * n := by omega
      have index : d / 8 = n := by omega
      have byte : d % 8 = d - 8 * n := by omega
      rw [offset, if_pos (by omega), if_pos word, index, byte]
    · rw [if_neg (by omega), if_neg low, if_neg word]

/-- A word of the overlay is read back. -/
theorem load_overlay (m : Memory) (a : Addr) (f : Nat → BitVec 64) {n k : Nat} (hk : k < n)
    (hn : 8 * n ≤ 2 ^ 64) :
    load 64 8 (overlay m a f n) (a + BitVec.ofNat 64 (8 * k)) = f k := by
  refine le_eq_of_bytes (by omega) _ fun i hi => ?_
  have address : a + BitVec.ofNat 64 (8 * k) + BitVec.ofNat 64 i =
      a + BitVec.ofNat 64 (8 * k + i) := by
    rw [BitVec.add_assoc, ← BitVec.ofNat_add]
  have distance := toNat_sub_self_add a (i := 8 * k + i) (by omega)
  have index : (8 * k + i) / 8 = k := by omega
  have byte : (8 * k + i) % 8 = i := by omega
  simp only [Memory.view, address, overlay, distance, index, byte]
  exact if_pos (by omega)

theorem load_overlay_apart (m : Memory) (a b : Addr) (f : Nat → BitVec 64) {n : Nat}
    (apart : ∀ i < 8, 8 * n ≤ (b + BitVec.ofNat 64 i - a).toNat) :
    load 64 8 (overlay m a f n) b = load 64 8 m b := by
  refine load_congr fun i hi => ?_
  exact if_neg (Nat.not_lt.mpr (apart i hi))

end Foundation.Aarch64
