import Mathlib.Logic.Function.Basic
import Mathlib.Logic.Relation

/-! A lock word taken with exclusive loads and stores by any number of cores. In whatever order
their steps come, what they do under the lock is what they do one after another. -/
namespace Foundation.SpinLock

/-- What is done under the lock: an operation begins at its entry, and a step goes on or is the last
one. No step is a fault. The lock word is in the shared state, and the steps leave it alone. -/
structure Code (σ Op L R : Type) where
  word : σ → BitVec 32
  setWord : σ → BitVec 32 → σ
  entry : Op → L
  step : L → σ → Option (σ × (L ⊕ R))
  word_setWord : ∀ s w, word (setWord s w) = w
  word_step : ∀ {l s s' next}, step l s = some (s', next) → word s' = word s

/-- Where a core is: outside, at one of the four instructions that take the lock, at a step under
it, or at the store that gives it back. -/
inductive Point (Op L R : Type) where
  | idle
  | load (op : Op)
  | test (op : Op) (temp : BitVec 32)
  | store (op : Op)
  | retest (op : Op) (temp : BitVec 32)
  | inside (op : Op) (l : L)
  | release (op : Op) (r : R)

/-- A core's monitor is set by its exclusive load, and its exclusive store needs it. The operations
that are done stand in the order in which they gave the lock back. -/
structure State (ι σ Op L R : Type) where
  shared : σ
  monitor : ι → Bool
  point : ι → Point Op L R
  done : List (Op × R)

/-- A core may lose its monitor at any time. -/
inductive Event (ι Op : Type) where
  | call (i : ι) (op : Op)
  | advance (i : ι)
  | lose (i : ι)

section
variable {ι σ Op L R : Type} [DecidableEq ι] (c : Code σ Op L R)

def State.move (m : State ι σ Op L R) (i : ι) (p : Point Op L R) : State ι σ Op L R :=
  { m with point := Function.update m.point i p }

/-- What follows the two tests of `temp`. -/
def Point.branch (temp : BitVec 32) (op : Op) (taken : Point Op L R) : Point Op L R :=
  if temp ≠ 0#32 then .load op else taken

def Point.after (op : Op) : L ⊕ R → Point Op L R
  | .inl l => .inside op l
  | .inr r => .release op r

/-- A store to the lock word clears the monitors of the other cores. -/
def Code.giveBack (m : State ι σ Op L R) (i : ι) (op : Op) (r : R) : State ι σ Op L R :=
  State.move
    { m with
      shared := c.setWord m.shared 0#32
      monitor := fun j => decide (j = i) && m.monitor j
      done := m.done ++ [(op, r)] } i .idle

/-- The next instruction of a core, or its next step under the lock. An exclusive store clears all
monitors. -/
def Code.advance (m : State ι σ Op L R) (i : ι) : Option (State ι σ Op L R) :=
  match m.point i with
  | .idle => none
  | .load op => some (State.move { m with monitor := Function.update m.monitor i true } i (.test op (c.word m.shared)))
  | .test op temp => some (m.move i (.branch temp op (.store op)))
  | .store op =>
      if m.monitor i then
        some (State.move { m with shared := c.setWord m.shared 1#32, monitor := fun _ => false } i (.retest op 0#32))
      else some (m.move i (.retest op 1#32))
  | .retest op temp => some (m.move i (.branch temp op (.inside op (c.entry op))))
  | .inside op l => (c.step l m.shared).map fun r => State.move { m with shared := r.1 } i (.after op r.2)
  | .release op r => some (c.giveBack m i op r)

def Code.next (m : State ι σ Op L R) : Event ι Op → Option (State ι σ Op L R)
  | .call i op =>
      match m.point i with
      | .idle => some (m.move i (.load op))
      | _ => none
  | .advance i => c.advance m i
  | .lose i => some { m with monitor := Function.update m.monitor i false }

inductive Reached (start : State ι σ Op L R) : State ι σ Op L R → Prop
  | start : Reached start start
  | step {m m' : State ι σ Op L R} (e : Event ι Op) : Reached start m → c.next m e = some m' → Reached start m'

end

section
variable {ι σ Op L R : Type} (c : Code σ Op L R)

/-- The steps of one operation, alone. -/
inductive Code.Runs : L → σ → L → σ → Prop
  | start (l : L) (s : σ) : Runs l s l s
  | step {l : L} {s : σ} {l' l'' : L} {s' s'' : σ} : Runs l s l' s' → c.step l' s' = some (s'', .inl l'') → Runs l s l'' s''

def Code.Finishes (l : L) (s : σ) (r : R) (t : σ) : Prop :=
  ∃ l' s', c.Runs l s l' s' ∧ c.step l' s' = some (t, .inr r)

/-- The whole operation, from taking the lock to giving it back. -/
def Code.Performs (op : Op) (s : σ) (r : R) (s' : σ) : Prop :=
  ∃ t, c.Finishes (c.entry op) (c.setWord s 1#32) r t ∧ s' = c.setWord t 0#32

/-- One operation after another. -/
inductive Serial (start : σ) : List (Op × R) → σ → Prop
  | start : Serial start [] start
  | next {done : List (Op × R)} {s s' : σ} {op : Op} {r : R} : Serial start done s → c.Performs op s r s' →
      Serial start (done ++ [(op, r)]) s'

/-- From the successful exclusive store to the store that gives the lock back. -/
def Point.Holds : Point Op L R → Prop
  | .retest _ temp => temp = 0#32
  | .inside _ _ => True
  | .release _ _ => True
  | _ => False

/-- Waits for the lock, to do the operation. -/
def Point.Waits (op : Op) : Point Op L R → Prop
  | .load o => o = op
  | .test o _ => o = op
  | .store o => o = op
  | .retest o temp => o = op ∧ temp ≠ 0#32
  | _ => False

/-- How far the core with the lock has come since the state was `s`. -/
def Code.Partway (s : σ) : Point Op L R → σ → Prop
  | .retest _ temp, t => temp = 0#32 ∧ t = c.setWord s 1#32
  | .inside op l, t => c.Runs (c.entry op) (c.setWord s 1#32) l t
  | .release op r, t => c.Finishes (c.entry op) (c.setWord s 1#32) r t
  | _, _ => False

/-- The state is `s` and nobody has the lock, or one core has it and is partway. -/
inductive Code.Turn (m : State ι σ Op L R) (s : σ) : Prop
  | free : m.shared = s → (∀ i, ¬ (m.point i).Holds) → Turn m s
  | held (i : ι) : c.Partway s (m.point i) m.shared → (∀ j, j ≠ i → ¬ (m.point j).Holds) → Turn m s

/-- The core with the lock can get through its operation. -/
def Code.Completes (s : σ) : Point Op L R → Prop
  | .retest op temp => temp = 0#32 → ∃ r t, c.Finishes (c.entry op) s r t
  | .inside _ l => ∃ r t, c.Finishes l s r t
  | _ => True

/-- The operation a core is at. -/
def Point.op : Point Op L R → Option Op
  | .idle => none
  | .load op => some op
  | .test op _ => some op
  | .store op => some op
  | .retest op _ => some op
  | .inside op _ => some op
  | .release op _ => some op

/-- What a set monitor says about the lock word. -/
def Code.Fresh (s : σ) : Point Op L R → Prop
  | .test _ temp => temp = c.word s
  | .store _ => c.word s = 0#32
  | _ => True

structure Ordered (start : σ) (m : State ι σ Op L R) : Prop where
  fresh : ∀ i, m.monitor i = true → c.Fresh m.shared (m.point i)
  turn : ∃ s, Serial c start m.done s ∧ c.word s = 0#32 ∧ c.Turn m s

variable {c} {m : State ι σ Op L R} {start s t : σ} {i j : ι} {p : Point Op L R} {l l' : L} {r : R} {temp : BitVec 32}

theorem branch_taken (op : Op) (p : Point Op L R) : Point.branch 0#32 op p = p := if_neg fun h => h rfl

theorem branch_back (nonzero : temp ≠ 0#32) (op : Op) (p : Point Op L R) : Point.branch temp op p = .load op :=
  if_pos nonzero

/-! The steps of one operation. -/

theorem runs_cons {l' l'' : L} {s' s'' : σ} (stepped : c.step l s = some (s', .inl l')) (runs : c.Runs l' s' l'' s'') :
    c.Runs l s l'' s'' := by
  induction runs with
  | start => exact .step (.start l s) stepped
  | step _ next ih => exact .step ih next

theorem runs_head {l' : L} (runs : c.Runs l s l' t) : (l' = l ∧ t = s) ∨
    ∃ l₁ s₁, c.step l s = some (s₁, .inl l₁) ∧ c.Runs l₁ s₁ l' t := by
  induction runs with
  | start => exact .inl ⟨rfl, rfl⟩
  | step _ next ih =>
      rcases ih with ⟨rfl, rfl⟩ | ⟨l₁, s₁, first, rest⟩
      · exact .inr ⟨_, _, next, .start _ _⟩
      · exact .inr ⟨l₁, s₁, first, .step rest next⟩

theorem finishes_step {l' : L} {s' : σ} (stepped : c.step l s = some (s', .inl l')) :
    c.Finishes l s r t ↔ c.Finishes l' s' r t := by
  constructor
  · rintro ⟨l₁, s₁, runs, last⟩
    rcases runs_head runs with ⟨rfl, rfl⟩ | ⟨l₂, s₂, first, rest⟩
    · cases stepped.symm.trans last
    · cases stepped.symm.trans first
      exact ⟨l₁, s₁, rest, last⟩
  · rintro ⟨l₁, s₁, runs, last⟩
    exact ⟨l₁, s₁, runs_cons stepped runs, last⟩

theorem finishes_last {r' : R} {t' : σ} (stepped : c.step l s = some (t', .inr r')) :
    c.Finishes l s r t ↔ (t', r') = (t, r) := by
  constructor
  · rintro ⟨l₁, s₁, runs, last⟩
    rcases runs_head runs with ⟨rfl, rfl⟩ | ⟨l₂, s₂, first, _⟩
    · cases stepped.symm.trans last
      rfl
    · cases stepped.symm.trans first
  · intro same
    cases same
    exact ⟨l, s, .start l s, stepped⟩

theorem finishes_fault (fault : c.step l s = none) : ¬ c.Finishes l s r t := by
  rintro ⟨l₁, s₁, runs, last⟩
  rcases runs_head runs with ⟨rfl, rfl⟩ | ⟨l₂, s₂, first, _⟩
  · cases fault.symm.trans last
  · cases fault.symm.trans first

/-- The way to the end goes through every state on it. -/
theorem finishes_rest {l' : L} {u : σ} (runs : c.Runs l s l' u) (finishes : c.Finishes l s r t) :
    c.Finishes l' u r t := by
  induction runs with
  | start => exact finishes
  | step _ next ih => exact (finishes_step next).mp ih

/-! The core that has the lock. -/

theorem partway_holds (partway : c.Partway s p t) : p.Holds := by
  cases p with
  | idle => cases partway
  | load op => cases partway
  | test op temp => cases partway
  | store op => cases partway
  | retest op temp => exact partway.1
  | inside op l => trivial
  | release op r => trivial

theorem runs_word (runs : c.Runs l s l' t) : c.word t = c.word s := by
  induction runs with
  | start => rfl
  | step _ step ih => exact (c.word_step step).trans ih

theorem finishes_word (finishes : c.Finishes l s r t) : c.word t = c.word s := by
  obtain ⟨l', s', runs, last⟩ := finishes
  exact (c.word_step last).trans (runs_word runs)

theorem partway_word (partway : c.Partway s p t) : c.word t = 1#32 := by
  cases p with
  | idle => cases partway
  | load op => cases partway
  | test op temp => cases partway
  | store op => cases partway
  | retest op temp =>
      obtain ⟨_, rfl⟩ := partway
      exact c.word_setWord ..
  | inside op l => exact (runs_word partway).trans (c.word_setWord ..)
  | release op r => exact (finishes_word partway).trans (c.word_setWord ..)

theorem partway_completes (partway : c.Partway s p t)
    (completes : ∀ op, p.op = some op → ∃ r u, c.Finishes (c.entry op) (c.setWord s 1#32) r u) : c.Completes t p := by
  cases p with
  | retest op temp =>
      obtain ⟨_, rfl⟩ := partway
      exact fun _ => completes op rfl
  | inside op l =>
      obtain ⟨r, u, finishes⟩ := completes op rfl
      exact ⟨r, u, finishes_rest partway finishes⟩
  | _ => trivial

theorem Code.Turn.alone (turn : c.Turn m s) (first : (m.point i).Holds) (second : (m.point j).Holds) : i = j := by
  cases turn with
  | free _ nobody => exact absurd first (nobody i)
  | held k _ others =>
      have only : ∀ n, (m.point n).Holds → n = k := fun n holds => not_not.mp fun other => others n other holds
      exact (only i first).trans (only j second).symm

/-- A core that holds the lock is the one that is partway. -/
theorem Code.Turn.partway (turn : c.Turn m s) (holds : (m.point i).Holds) :
    c.Partway s (m.point i) m.shared ∧ ∀ j, j ≠ i → ¬ (m.point j).Holds := by
  cases turn with
  | free _ nobody => exact absurd holds (nobody i)
  | held k partway others =>
      obtain rfl : i = k := not_not.mp fun other => others i other holds
      exact ⟨partway, others⟩

/-- With the lock word 0 nobody has the lock. -/
theorem Code.Turn.unlocked (turn : c.Turn m s) (zero : c.word m.shared = 0#32) :
    m.shared = s ∧ ∀ i, ¬ (m.point i).Holds := by
  cases turn with
  | free same nobody => exact ⟨same, nobody⟩
  | held k partway _ =>
      rw [partway_word partway] at zero
      exact absurd zero (by decide)

theorem Ordered.unlocked (ordered : Ordered c start m) (nobody : ∀ i, ¬ (m.point i).Holds) : c.word m.shared = 0#32 := by
  obtain ⟨_, s, _, zero, turn⟩ := ordered
  cases turn with
  | free same _ => rwa [same]
  | held k partway _ => exact absurd (partway_holds partway) (nobody k)

theorem Point.Waits.not_holds {op : Op} (waits : p.Waits op) : ¬ p.Holds := by
  cases p with
  | retest o temp => exact waits.2
  | inside o l => cases waits
  | release o r => cases waits
  | _ => exact id

end

section
variable {ι σ Op L R : Type} [DecidableEq ι] {c : Code σ Op L R} {m m' : State ι σ Op L R} {start s t : σ} {i j : ι}
  {p : Point Op L R} {op : Op} {l : L} {r : R} {temp : BitVec 32}

/-! One step. -/

@[simp] theorem move_self (m : State ι σ Op L R) (i : ι) (p : Point Op L R) : (m.move i p).point i = p :=
  Function.update_self ..

theorem move_other (m : State ι σ Op L R) (p : Point Op L R) (other : j ≠ i) : (m.move i p).point j = m.point j :=
  Function.update_of_ne other ..

/-- The moves of a core without the lock, which change no more than its monitor. -/
theorem Code.Turn.move (turn : c.Turn m s) (shared : m'.shared = m.shared) (point : m'.point = m.point)
    (before : ¬ (m.point i).Holds) (after : ¬ p.Holds) : c.Turn (m'.move i p) s := by
  have outside : ∀ j, ¬ (m.point j).Holds → ¬ ((m'.move i p).point j).Holds := by
    intro j none_
    by_cases self : j = i
    · rwa [self, move_self]
    · rwa [move_other m' p self, point]
  cases turn with
  | free same nobody => exact .free (shared.trans same) fun j => outside j (nobody j)
  | held k partway others =>
      have other : k ≠ i := by
        rintro rfl
        exact before (partway_holds partway)
      refine .held k ?_ fun j apart => outside j (others j apart)
      rw [move_other m' p other, point]
      exact shared.symm ▸ partway

theorem fresh_move (fresh : ∀ j, m.monitor j = true → c.Fresh m.shared (m.point j)) (shared : m'.shared = m.shared)
    (point : m'.point = m.point) (monitor : ∀ j, j ≠ i → m'.monitor j = true → m.monitor j = true)
    (here : m'.monitor i = true → c.Fresh m.shared p) :
    ∀ j, (m'.move i p).monitor j = true → c.Fresh (m'.move i p).shared ((m'.move i p).point j) := by
  intro j set
  change c.Fresh m'.shared _
  rw [shared]
  by_cases self : j = i
  · rw [self, move_self]
    exact here (self ▸ set)
  · rw [move_other m' p self, point]
    exact fresh j (monitor j self set)

/-- A step that needs no lock. -/
theorem Ordered.move (ordered : Ordered c start m) (shared : m'.shared = m.shared) (point : m'.point = m.point)
    (done : m'.done = m.done) (monitor : ∀ j, j ≠ i → m'.monitor j = true → m.monitor j = true)
    (here : m'.monitor i = true → c.Fresh m.shared p) (before : ¬ (m.point i).Holds) (after : ¬ p.Holds) :
    Ordered c start (m'.move i p) := by
  obtain ⟨fresh, s, serial, zero, turn⟩ := ordered
  exact ⟨fresh_move fresh shared point monitor here, s, done.symm ▸ serial, zero, turn.move shared point before after⟩

theorem ordered_call (ordered : Ordered c start m) (idle : m.point i = .idle) (op : Op) :
    Ordered c start (m.move i (.load op)) := by
  refine ordered.move rfl rfl rfl (fun _ _ set => set) (fun _ => trivial) ?_ id
  rw [idle]
  exact id

theorem ordered_lose (ordered : Ordered c start m) (i : ι) :
    Ordered c start { m with monitor := Function.update m.monitor i false } := by
  obtain ⟨fresh, s, serial, zero, turn⟩ := ordered
  refine ⟨fun j set => fresh j ?_, s, serial, zero, ?_⟩
  · by_cases self : j = i
    · rw [self] at set
      exact absurd ((Function.update_self ..).symm.trans set) (by decide)
    · exact (Function.update_of_ne self ..).symm.trans set
  · cases turn with
    | free same nobody => exact .free same nobody
    | held k partway others => exact .held k partway others

/-- The exclusive store succeeds: nobody had the lock. -/
theorem ordered_take (ordered : Ordered c start m) (here : m.point i = .store op) (set : m.monitor i = true) :
    Ordered c start
      (State.move { m with shared := c.setWord m.shared 1#32, monitor := fun _ => false } i (.retest op 0#32)) := by
  obtain ⟨fresh, s, serial, zero, turn⟩ := ordered
  have unlocked := fresh i set
  rw [here] at unlocked
  obtain ⟨rfl, nobody⟩ := turn.unlocked unlocked
  refine ⟨fun _ none_ => (nomatch none_), m.shared, serial, zero, .held i ?_ fun j other => ?_⟩
  · rw [move_self]
    exact ⟨rfl, rfl⟩
  · rw [move_other _ _ other]
    exact nobody j

/-- The core with the lock goes on. -/
theorem ordered_partway (ordered : Ordered c start m) (holds : (m.point i).Holds) {t : σ}
    (word : c.word t = c.word m.shared) (further : ∀ s, c.Partway s (m.point i) m.shared → c.Partway s p t) :
    Ordered c start (State.move { m with shared := t } i p) := by
  obtain ⟨fresh, s, serial, zero, turn⟩ := ordered
  obtain ⟨partway, others⟩ := turn.partway holds
  have still := further s partway
  refine ⟨fun j set => ?_, s, serial, zero, .held i ?_ fun j other => ?_⟩
  · change c.Fresh t _
    by_cases self : j = i
    · rw [self, move_self]
      cases p with
      | test op temp => cases still
      | store op => cases still
      | _ => trivial
    · rw [move_other _ _ self]
      have known := fresh j set
      change c.Fresh t (m.point j)
      cases at_ : m.point j with
      | test op temp =>
          rw [at_] at known
          exact known.trans word.symm
      | store op =>
          rw [at_] at known
          exact word.trans known
      | _ => trivial
  · rw [move_self]
    exact still
  · rw [move_other _ _ other]
    exact others j other

/-- The lock is given back, and the operation is done. -/
theorem ordered_release (ordered : Ordered c start m) (here : m.point i = .release op r) :
    Ordered c start (c.giveBack m i op r) := by
  obtain ⟨fresh, s, serial, zero, turn⟩ := ordered
  obtain ⟨partway, others⟩ := turn.partway (i := i) (by rw [here]; trivial)
  rw [here] at partway
  refine ⟨fun j set => ?_, _, .next serial ⟨m.shared, partway, rfl⟩, c.word_setWord .., .free rfl fun j => ?_⟩
  · have self : j = i := of_decide_eq_true (Bool.and_eq_true_iff.mp set).1
    rw [self, Code.giveBack, move_self]
    trivial
  · by_cases self : j = i
    · rw [self, Code.giveBack, move_self]
      exact id
    · rw [Code.giveBack, move_other _ _ self]
      exact others j self

theorem ordered_advance (ordered : Ordered c start m) (advanced : c.advance m i = some m') : Ordered c start m' := by
  unfold Code.advance at advanced
  cases here : m.point i with
  | idle =>
      rw [here] at advanced
      cases advanced
  | load op =>
      rw [here] at advanced
      cases advanced
      refine ordered.move rfl rfl rfl (fun j other set => ?_) (fun _ => rfl) (by rw [here]; exact id) id
      exact (Function.update_of_ne other ..).symm.trans set
  | test op temp =>
      rw [here] at advanced
      cases advanced
      have known := ordered.fresh i
      rw [here] at known
      by_cases zero : temp = 0#32
      · subst zero
        rw [branch_taken]
        refine ordered.move rfl rfl rfl (fun _ _ set => set) (fun set => (known set).symm) (by rw [here]; exact id) id
      · rw [branch_back zero]
        exact ordered.move rfl rfl rfl (fun _ _ set => set) (fun _ => trivial) (by rw [here]; exact id) id
  | store op =>
      rw [here] at advanced
      dsimp only at advanced
      by_cases set : m.monitor i = true
      · rw [if_pos set] at advanced
        cases advanced
        exact ordered_take ordered here set
      · rw [if_neg set] at advanced
        cases advanced
        exact ordered.move rfl rfl rfl (fun _ _ set => set) (fun _ => trivial) (by rw [here]; exact id)
          fun zero : 1#32 = 0#32 => absurd zero (by decide)
  | retest op temp =>
      rw [here] at advanced
      cases advanced
      by_cases zero : temp = 0#32
      · subst zero
        rw [branch_taken]
        refine ordered_partway ordered (by rw [here]; rfl) rfl fun s partway => ?_
        rw [here] at partway
        exact partway.2 ▸ .start _ _
      · rw [branch_back zero]
        exact ordered.move rfl rfl rfl (fun _ _ set => set) (fun _ => trivial) (by rw [here]; exact zero) id
  | inside op l =>
      rw [here] at advanced
      obtain ⟨⟨t, next⟩, stepped, rfl⟩ := Option.map_eq_some_iff.mp advanced
      refine ordered_partway ordered (by rw [here]; trivial) (c.word_step stepped) fun s partway => ?_
      rw [here] at partway
      cases next with
      | inl l' => exact .step partway stepped
      | inr r => exact ⟨_, _, partway, stepped⟩
  | release op r =>
      rw [here] at advanced
      cases advanced
      exact ordered_release ordered here

/-- The run rule: in every order of steps the operations take turns. -/
theorem ordered_reached {start m : State ι σ Op L R} (idle : ∀ i, start.point i = .idle) (none_ : start.done = [])
    (unlocked : c.word start.shared = 0#32) (reached : Reached c start m) : Ordered c start.shared m := by
  induction reached with
  | start =>
      refine ⟨fun i _ => ?_, start.shared, none_.symm ▸ .start, unlocked, .free rfl fun i => ?_⟩
      · rw [idle i]
        trivial
      · rw [idle i]
        exact id
  | @step m m' e _ stepped ih =>
      cases e with
      | call i op =>
          dsimp only [Code.next] at stepped
          cases here : m.point i with
          | idle =>
              rw [here] at stepped
              cases stepped
              exact ordered_call ih here op
          | _ =>
              rw [here] at stepped
              cases stepped
      | advance i => exact ordered_advance ih stepped
      | lose i =>
          cases stepped
          exact ordered_lose ih i

/-! A core that is left to run. -/

/-- Steps of one core. -/
def Alone (c : Code σ Op L R) (i : ι) : State ι σ Op L R → State ι σ Op L R → Prop :=
  Relation.ReflTransGen fun m m' => c.advance m i = some m'

theorem advance_load (here : m.point i = .load op) : c.advance m i =
    some (State.move { m with monitor := Function.update m.monitor i true } i (.test op (c.word m.shared))) := by
  rw [Code.advance, here]

theorem advance_test (here : m.point i = .test op temp) :
    c.advance m i = some (m.move i (.branch temp op (.store op))) := by
  rw [Code.advance, here]

theorem advance_retest (here : m.point i = .retest op temp) :
    c.advance m i = some (m.move i (.branch temp op (.inside op (c.entry op)))) := by
  rw [Code.advance, here]

theorem advance_take (here : m.point i = .store op) (set : m.monitor i = true) : c.advance m i = some
    (State.move { m with shared := c.setWord m.shared 1#32, monitor := fun _ => false } i (.retest op 0#32)) := by
  rw [Code.advance, here]
  exact if_pos set

theorem advance_miss (here : m.point i = .store op) (lost : ¬ m.monitor i = true) :
    c.advance m i = some (m.move i (.retest op 1#32)) := by
  rw [Code.advance, here]
  exact if_neg lost

theorem advance_inside (here : m.point i = .inside op l) {next : L ⊕ R} (stepped : c.step l m.shared = some (t, next)) :
    c.advance m i = some (State.move { m with shared := t } i (.after op next)) := by
  rw [Code.advance, here]
  dsimp only
  rw [stepped]
  rfl

theorem advance_release (here : m.point i = .release op r) : c.advance m i = some (c.giveBack m i op r) := by
  rw [Code.advance, here]

/-- With its monitor set a core is one exclusive store from the lock. -/
theorem store_enters (here : m.point i = .store op) (set : m.monitor i = true) :
    ∃ m', Alone c i m m' ∧ m'.point i = .inside op (c.entry op) := by
  have last := advance_retest (c := c) (move_self
    { m with shared := c.setWord m.shared 1#32, monitor := fun _ => false } i (Point.retest op 0#32))
  rw [branch_taken] at last
  exact ⟨_, .head (advance_take here set) (.single last), move_self ..⟩

theorem load_enters (here : m.point i = .load op) (unlocked : c.word m.shared = 0#32) :
    ∃ m', Alone c i m m' ∧ m'.point i = .inside op (c.entry op) := by
  have tests := advance_load (c := c) here
  rw [unlocked] at tests
  have stores := advance_test (c := c)
    (move_self { m with monitor := Function.update m.monitor i true } i (Point.test op 0#32))
  rw [branch_taken] at stores
  obtain ⟨m', rest, inside⟩ := store_enters (c := c) (move_self
    (State.move { m with monitor := Function.update m.monitor i true } i (Point.test op 0#32)) i (Point.store op))
    (Function.update_self ..)
  exact ⟨m', .head tests (.head stores rest), inside⟩

/-- Nobody has the lock: a core that waits for it gets it by its own steps. -/
theorem waits_enters (waits : (m.point i).Waits op) (unlocked : c.word m.shared = 0#32) :
    ∃ m', Alone c i m m' ∧ m'.point i = .inside op (c.entry op) := by
  have again : ∀ m₁ : State ι σ Op L R, c.advance m i = some m₁ → m₁.point i = .load op →
      c.word m₁.shared = 0#32 → ∃ m', Alone c i m m' ∧ m'.point i = .inside op (c.entry op) := by
    intro m₁ first here zero
    obtain ⟨m', rest, inside⟩ := load_enters here zero
    exact ⟨m', .head first rest, inside⟩
  have stores : ∀ m : State ι σ Op L R, m.point i = .store op → c.word m.shared = 0#32 →
      ∃ m', Alone c i m m' ∧ m'.point i = .inside op (c.entry op) := by
    intro m here zero
    by_cases set : m.monitor i = true
    · exact store_enters here set
    · have back := advance_retest (c := c) (move_self m i (Point.retest op 1#32))
      rw [branch_back (by decide)] at back
      obtain ⟨m', rest, inside⟩ := load_enters (c := c)
        (move_self (m.move i (Point.retest op 1#32)) i (Point.load op)) zero
      exact ⟨m', .head (advance_miss here set) (.head back rest), inside⟩
  cases here : m.point i with
  | idle =>
      rw [here] at waits
      cases waits
  | load o =>
      rw [here] at waits
      obtain rfl : o = op := waits
      exact load_enters here unlocked
  | test o temp =>
      rw [here] at waits
      obtain rfl : o = op := waits
      have first := advance_test (c := c) here
      by_cases zero : temp = 0#32
      · subst zero
        rw [branch_taken] at first
        obtain ⟨m', rest, inside⟩ := stores _ (move_self m i (Point.store o)) unlocked
        exact ⟨m', .head first rest, inside⟩
      · rw [branch_back zero] at first
        exact again _ first (move_self ..) unlocked
  | store o =>
      rw [here] at waits
      obtain rfl : o = op := waits
      exact stores m here unlocked
  | retest o temp =>
      rw [here] at waits
      obtain ⟨rfl, nonzero⟩ := waits
      have first := advance_retest (c := c) here
      rw [branch_back nonzero] at first
      exact again _ first (move_self ..) unlocked
  | inside o l =>
      rw [here] at waits
      cases waits
  | release o r =>
      rw [here] at waits
      cases waits

/-- The core with the lock goes through its steps. -/
theorem runs_inside (here : m.point i = .inside op l) {l' : L} {t : σ} (runs : c.Runs l m.shared l' t) :
    ∃ m', Alone c i m m' ∧ m'.point i = .inside op l' ∧ m'.shared = t ∧ m'.done = m.done := by
  induction runs with
  | start => exact ⟨m, .refl, here, rfl, rfl⟩
  | @step _ l'' _ s'' _ stepped ih =>
      obtain ⟨m', before, inside, rfl, done⟩ := ih
      refine ⟨State.move { m' with shared := s'' } i (.inside op l''), .tail before ?_, move_self .., rfl, done⟩
      exact advance_inside inside stepped

/-- It gives the lock back, and the operation is done. -/
theorem inside_leaves (here : m.point i = .inside op l) (finishes : c.Finishes l m.shared r t) :
    ∃ m', Alone c i m m' ∧ m'.point i = .idle ∧ m'.shared = c.setWord t 0#32 ∧ m'.done = m.done ++ [(op, r)] := by
  obtain ⟨l', s', runs, last⟩ := finishes
  obtain ⟨m₁, before, inside, rfl, done⟩ := runs_inside here runs
  have gives := advance_release (c := c) (move_self { m₁ with shared := t } i (Point.release op r))
  refine ⟨_, .tail (.tail before (advance_inside inside last)) gives, move_self .., rfl, ?_⟩
  rw [← done]
  rfl

/-- A core moves no other. -/
theorem advance_other (advanced : c.advance m i = some m') (other : j ≠ i) : m'.point j = m.point j := by
  cases here : m.point i with
  | idle =>
      rw [Code.advance, here] at advanced
      cases advanced
  | load op =>
      rw [advance_load here] at advanced
      cases advanced
      exact move_other _ _ other
  | test op temp =>
      rw [advance_test here] at advanced
      cases advanced
      exact move_other _ _ other
  | store op =>
      by_cases set : m.monitor i = true
      · rw [advance_take here set] at advanced
        cases advanced
        exact move_other _ _ other
      · rw [advance_miss here set] at advanced
        cases advanced
        exact move_other _ _ other
  | retest op temp =>
      rw [advance_retest here] at advanced
      cases advanced
      exact move_other _ _ other
  | inside op l =>
      cases stepped : c.step l m.shared with
      | none =>
          rw [Code.advance, here] at advanced
          dsimp only at advanced
          rw [stepped] at advanced
          cases advanced
      | some next =>
          rw [advance_inside here stepped] at advanced
          cases advanced
          exact move_other _ _ other
  | release op r =>
      rw [advance_release here] at advanced
      cases advanced
      exact move_other _ _ other

theorem alone_other (alone : Alone c i m m') (other : j ≠ i) : m'.point j = m.point j := by
  induction alone with
  | refl => rfl
  | tail _ advanced ih => exact (advance_other advanced other).trans ih

theorem alone_ordered (ordered : Ordered c start m) (alone : Alone c i m m') : Ordered c start m' := by
  induction alone with
  | refl => exact ordered
  | tail _ advanced ih => exact ordered_advance ih advanced

/-- The core with the lock gives it back by its own steps. -/
theorem holder_leaves (holds : (m.point i).Holds) (completes : c.Completes m.shared (m.point i)) :
    ∃ m', Alone c i m m' ∧ m'.point i = .idle := by
  cases here : m.point i with
  | retest op temp =>
      rw [here] at holds completes
      obtain rfl : temp = 0#32 := holds
      obtain ⟨r, t, finishes⟩ := completes rfl
      have first := advance_retest (c := c) here
      rw [branch_taken] at first
      obtain ⟨m', rest, idle, _⟩ := inside_leaves (c := c) (move_self m i (Point.inside op (c.entry op))) finishes
      exact ⟨m', .head first rest, idle⟩
  | inside op l =>
      rw [here] at completes
      obtain ⟨r, t, finishes⟩ := completes
      obtain ⟨m', rest, idle, _⟩ := inside_leaves here finishes
      exact ⟨m', rest, idle⟩
  | release op r => exact ⟨_, .single (advance_release here), move_self ..⟩
  | _ =>
      rw [here] at holds
      cases holds

/-- No deadlock: unless a core with the lock cannot get through its operation, any core that waits can
still get the lock. -/
theorem waits_gets (ordered : Ordered c start m) (waits : (m.point i).Waits op)
    (completes : ∀ j, (m.point j).Holds → c.Completes m.shared (m.point j)) :
    ∃ m₁ m₂, (m₁ = m ∨ ∃ j, Alone c j m m₁) ∧ Alone c i m₁ m₂ ∧ m₂.point i = .inside op (c.entry op) := by
  by_cases nobody : ∀ j, ¬ (m.point j).Holds
  · obtain ⟨m₂, alone, inside⟩ := waits_enters waits (ordered.unlocked nobody)
    exact ⟨m, m₂, .inl rfl, alone, inside⟩
  · obtain ⟨j, holds⟩ := not_forall_not.mp nobody
    obtain ⟨m₁, leaves, idle⟩ := holder_leaves holds (completes j holds)
    have other : i ≠ j := by
      rintro rfl
      exact waits.not_holds holds
    have after := alone_ordered ordered leaves
    have free : ∀ k, ¬ (m₁.point k).Holds := by
      intro k
      by_cases self : k = j
      · rw [self, idle]
        exact id
      · rw [alone_other leaves self]
        obtain ⟨_, s, _, _, turn⟩ := ordered
        exact fun second => self (turn.alone second holds)
    rw [← alone_other leaves other] at waits
    obtain ⟨m₂, alone, inside⟩ := waits_enters waits (after.unlocked free)
    exact ⟨m₁, m₂, .inr ⟨j, leaves⟩, alone, inside⟩

end
end Foundation.SpinLock
