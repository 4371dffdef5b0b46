import AstralOS.Foundation.Aarch64

/-! Where an AArch64 core goes on an exception, and what runs there: the sixteen entry points
that `VBAR_EL1` gives, and code executed from any of its words. -/
namespace Foundation.Aarch64

/-- The level the exception comes from, and which stack pointer it used. -/
inductive Origin where
  | currentSpEl0 | currentSpElx | lowerAarch64 | lowerAarch32
  deriving DecidableEq

inductive Kind where
  | synchronous | irq | fiq | serror
  deriving DecidableEq

structure Exception where
  origin : Origin
  kind : Kind
  deriving DecidableEq

def Origin.group : Origin → Nat
  | .currentSpEl0 => 0
  | .currentSpElx => 1
  | .lowerAarch64 => 2
  | .lowerAarch32 => 3

def Kind.place : Kind → Nat
  | .synchronous => 0
  | .irq => 1
  | .fiq => 2
  | .serror => 3

/-- Its place in the order of the sixteen entry points. -/
def Exception.number (e : Exception) : Nat := 4 * e.origin.group + e.kind.place

def Exception.all : List Exception :=
  [.currentSpEl0, .currentSpElx, .lowerAarch64, .lowerAarch32].flatMap fun origin =>
    [.synchronous, .irq, .fiq, .serror].map fun kind => ⟨origin, kind⟩

/-- `VBAR_EL1` holds bits 63 to 11 of an address, and the entry points are 128 bytes apart. -/
def Exception.entryPoint (vbar : Addr) (e : Exception) : Addr :=
  vbar >>> 11 <<< 11 + BitVec.ofNat 64 (128 * e.number)

/-- A word of code: an operation that falls through, a branch to a word, or the way out. -/
inductive Word (ι ο : Type*) where
  | op (i : ι)
  | branch (target : Nat)
  | leave (o : ο)
  deriving DecidableEq

section
variable {σ ι ο : Type*} (perform : σ → ι → σ) (text : List (Word ι ο))

/-- The code from one of its words on, until control leaves it. -/
def follow : Nat → Nat → σ → Option (ο × σ)
  | 0, _, _ => none
  | fuel + 1, pc, s =>
      match text[pc]? with
      | none => none
      | some (.op i) => follow fuel (pc + 1) (perform s i)
      | some (.branch target) => follow fuel target s
      | some (.leave o) => some (o, s)

variable {perform text} {fuel pc target : Nat} {s : σ} {o : ο} {ops : List ι} {rest : List (Word ι ο)}

theorem follow_outside (outside : text.length ≤ pc) : follow perform text fuel pc s = none := by
  cases fuel with
  | zero => rfl
  | succ fuel =>
      unfold follow
      rw [List.getElem?_eq_none outside]

theorem follow_branch (here : text[pc]? = some (.branch target)) :
    follow perform text (fuel + 1) pc s = follow perform text fuel target s := by
  rw [follow, here]

/-- Operations in a row, and a way out behind them. -/
theorem follow_ops (here : text.drop pc = ops.map .op ++ .leave o :: rest) (enough : ops.length < fuel) :
    follow perform text fuel pc s = some (o, ops.foldl perform s) := by
  induction ops generalizing fuel pc s with
  | nil =>
      obtain ⟨fuel, rfl⟩ : ∃ n, fuel = n + 1 := ⟨fuel - 1, by simp only [List.length_nil] at enough; omega⟩
      have first : text[pc]? = some (.leave o) := by
        rw [← List.head?_drop, here]
        rfl
      rw [follow, first]
      rfl
  | cons i ops ih =>
      obtain ⟨fuel, rfl⟩ : ∃ n, fuel = n + 1 := ⟨fuel - 1, by omega⟩
      have first : text[pc]? = some (.op i) := by
        rw [← List.head?_drop, here]
        rfl
      have later : text.drop (pc + 1) = ops.map .op ++ .leave o :: rest := by
        rw [← List.tail_drop, here]
        rfl
      rw [follow, first]
      refine ih later ?_
      simp only [List.length_cons] at enough
      omega

end

section
variable {vbar table : Addr} {e : Exception}

theorem Exception.mem_all (e : Exception) : e ∈ Exception.all := by
  obtain ⟨origin, kind⟩ := e
  cases origin <;> cases kind <;> decide

theorem Exception.number_lt (e : Exception) : e.number < 16 := by
  obtain ⟨origin, kind⟩ := e
  cases origin <;> cases kind <;> decide

/-- How far behind a table the entry points are that start at the last multiple of 2048 before it. -/
theorem entryPoint_sub (e : Exception) (table : Addr) (behind : table.toNat % 2048 ≤ 128 * e.number) :
    (e.entryPoint table - table).toNat = 128 * e.number - table.toNat % 2048 := by
  have bound := table.isLt
  have few := e.number_lt
  rw [Exception.entryPoint, BitVec.toNat_sub, BitVec.toNat_add, BitVec.toNat_shiftLeft, BitVec.toNat_ushiftRight,
    BitVec.toNat_ofNat, Nat.shiftRight_eq_div_pow, Nat.shiftLeft_eq]
  omega

/-- Before the table, they are far from it the other way round. -/
theorem entryPoint_before (e : Exception) (table : Addr) (before : 128 * e.number < table.toNat % 2048) :
    2 ^ 63 ≤ (e.entryPoint table - table).toNat := by
  have bound := table.isLt
  have few := e.number_lt
  rw [Exception.entryPoint, BitVec.toNat_sub, BitVec.toNat_add, BitVec.toNat_shiftLeft, BitVec.toNat_ushiftRight,
    BitVec.toNat_ofNat, Nat.shiftRight_eq_div_pow, Nat.shiftLeft_eq]
  omega

end
end Foundation.Aarch64
