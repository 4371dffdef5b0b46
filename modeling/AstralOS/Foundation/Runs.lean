import Mathlib.Data.List.Basic

/-! Runs of a deterministic transition function over a list of inputs: what one step
keeps, a whole run keeps. -/
namespace Foundation

section Runs
variable {σ α : Type*} (step : σ → α → σ)

/-- Every input is acceptable in the state it meets. -/
def Admitted (ok : σ → α → Prop) : σ → List α → Prop
  | _, [] => True
  | s, a :: rest => ok s a ∧ Admitted ok (step s a) rest

/-- Every state the run visits, the first and the last included, satisfies `P`. -/
def Always (P : σ → Prop) : σ → List α → Prop
  | s, [] => P s
  | s, a :: rest => P s ∧ Always P (step s a) rest

variable {step} {ok : σ → α → Prop} {P : σ → Prop}

theorem Always.first {s : σ} {inputs : List α} (h : Always step P s inputs) : P s := by
  cases inputs with
  | nil => exact h
  | cons a rest => exact h.1

theorem Always.mono {Q : σ → Prop} (weaker : ∀ s, P s → Q s) {s : σ} {inputs : List α}
    (h : Always step P s inputs) : Always step Q s inputs := by
  induction inputs generalizing s with
  | nil => exact weaker s h
  | cons a rest ih => exact ⟨weaker s h.1, ih h.2⟩

theorem always_of_admitted (keeps : ∀ s a, P s → ok s a → P (step s a)) {s : σ} {inputs : List α}
    (start : P s) (admitted : Admitted step ok s inputs) : Always step P s inputs := by
  induction inputs generalizing s with
  | nil => exact start
  | cons a rest ih => exact ⟨start, ih (keeps s a start admitted.1) admitted.2⟩

theorem Always.last {s : σ} {inputs : List α} (h : Always step P s inputs) :
    P (inputs.foldl step s) := by
  induction inputs generalizing s with
  | nil => exact h
  | cons a rest ih => exact ih h.2

theorem admitted_append {s : σ} {first second : List α} :
    Admitted step ok s (first ++ second) ↔
      Admitted step ok s first ∧ Admitted step ok (first.foldl step s) second := by
  induction first generalizing s with
  | nil => simp [Admitted]
  | cons a rest ih => simp [Admitted, ih, and_assoc]

/-- Admitted inputs are those that are acceptable where they come. -/
theorem admitted_iff_splits {s : σ} {inputs : List α} : Admitted step ok s inputs ↔
    ∀ before a after, inputs = before ++ a :: after → ok (before.foldl step s) a := by
  constructor
  · rintro admitted before a after rfl
    exact (admitted_append.mp admitted).2.1
  · intro splits
    induction inputs generalizing s with
    | nil => trivial
    | cons a rest ih =>
        refine ⟨splits [] a rest rfl, ih fun before b after same => ?_⟩
        exact splits (a :: before) b after (congrArg (List.cons a) same)

/-- What holds always holds after every part of the run. -/
theorem Always.after {s : σ} {first second : List α} (h : Always step P s (first ++ second)) :
    P (first.foldl step s) := by
  induction first generalizing s with
  | nil => exact h.first
  | cons a rest ih => exact ih h.2

/-- The run rule: an invariant of the start that every admitted step keeps holds at the end. -/
theorem invariant_run (keeps : ∀ s a, P s → ok s a → P (step s a)) {s : σ} {inputs : List α}
    (start : P s) (admitted : Admitted step ok s inputs) : P (inputs.foldl step s) :=
  (always_of_admitted keeps start admitted).last

/-- When a condition on the steps is exactly what keeps the invariant, it is exactly what
keeps it along whole runs. -/
theorem always_iff_admitted (exact_step : ∀ s a, P s → (P (step s a) ↔ ok s a)) {s : σ}
    {inputs : List α} (start : P s) : Always step P s inputs ↔ Admitted step ok s inputs := by
  induction inputs generalizing s with
  | nil => exact ⟨fun _ => trivial, fun _ => start⟩
  | cons a rest ih =>
      constructor
      · rintro ⟨_, visited⟩
        have next := visited.first
        exact ⟨(exact_step s a start).mp next, (ih next).mp visited⟩
      · rintro ⟨accepted, admitted⟩
        have next := (exact_step s a start).mpr accepted
        exact ⟨start, (ih next).mpr admitted⟩

/-- The same under an invariant that every allowed step keeps, whatever else it breaks. -/
theorem always_iff_admitted_of {allowed : σ → α → Prop} {inv : σ → Prop}
    (keeps : ∀ s a, inv s → allowed s a → inv (step s a))
    (exact_step : ∀ s a, inv s → P s → allowed s a → (P (step s a) ↔ ok s a)) {s : σ} {inputs : List α}
    (sound : inv s) (start : P s) (run : Admitted step allowed s inputs) :
    Always step P s inputs ↔ Admitted step ok s inputs := by
  induction inputs generalizing s with
  | nil => exact ⟨fun _ => trivial, fun _ => start⟩
  | cons a rest ih =>
      have next := keeps s a sound run.1
      constructor
      · rintro ⟨_, visited⟩
        exact ⟨(exact_step s a sound start run.1).mp visited.first,
          (ih next visited.first run.2).mp visited⟩
      · rintro ⟨accepted, admitted⟩
        have kept := (exact_step s a sound start run.1).mpr accepted
        exact ⟨start, (ih next kept run.2).mpr admitted⟩

/-- The same when every step is to meet a law of its own besides. -/
theorem always_and_admitted_iff {allowed lawful : σ → α → Prop} {inv : σ → Prop}
    (keeps : ∀ s a, inv s → allowed s a → inv (step s a))
    (exact_step : ∀ s a, inv s → P s → allowed s a → (lawful s a ∧ P (step s a) ↔ ok s a)) {s : σ}
    {inputs : List α} (sound : inv s) (start : P s) (run : Admitted step allowed s inputs) :
    Always step P s inputs ∧ Admitted step lawful s inputs ↔ Admitted step ok s inputs := by
  induction inputs generalizing s with
  | nil => exact ⟨fun _ => trivial, fun _ => ⟨start, trivial⟩⟩
  | cons a rest ih =>
      have next := keeps s a sound run.1
      constructor
      · rintro ⟨⟨_, visited⟩, met, later⟩
        exact ⟨(exact_step s a sound start run.1).mp ⟨met, visited.first⟩,
          (ih next visited.first run.2).mp ⟨visited, later⟩⟩
      · rintro ⟨accepted, admitted⟩
        obtain ⟨met, kept⟩ := (exact_step s a sound start run.1).mpr accepted
        obtain ⟨visited, later⟩ := (ih next kept run.2).mpr admitted
        exact ⟨⟨start, visited⟩, met, later⟩

/-- The same when the condition is also what keeps an invariant the property rests on. -/
theorem always_iff_admitted_while (inv : σ → Prop) (keeps : ∀ s a, inv s → ok s a → inv (step s a))
    (exact_step : ∀ s a, inv s → P s → (P (step s a) ↔ ok s a)) {s : σ} {inputs : List α}
    (sound : inv s) (start : P s) : Always step P s inputs ↔ Admitted step ok s inputs := by
  induction inputs generalizing s with
  | nil => exact ⟨fun _ => trivial, fun _ => start⟩
  | cons a rest ih =>
      constructor
      · rintro ⟨_, visited⟩
        have accepted := (exact_step s a sound start).mp visited.first
        exact ⟨accepted, (ih (keeps s a sound accepted) visited.first).mp visited⟩
      · rintro ⟨accepted, admitted⟩
        have kept := (exact_step s a sound start).mpr accepted
        exact ⟨start, (ih (keeps s a sound accepted) kept).mpr admitted⟩

/-- Two conditions that agree under an invariant, which steps that meet them keep, admit the
same runs. -/
theorem admitted_congr_while {allowed ok' : σ → α → Prop} (inv : σ → Prop)
    (keeps : ∀ s a, inv s → allowed s a → ok s a → inv (step s a))
    (same : ∀ s a, inv s → allowed s a → (ok s a ↔ ok' s a)) {s : σ} {inputs : List α}
    (sound : inv s) (run : Admitted step allowed s inputs) :
    Admitted step ok s inputs ↔ Admitted step ok' s inputs := by
  induction inputs generalizing s with
  | nil => exact Iff.rfl
  | cons a rest ih =>
      constructor
      · rintro ⟨met, later⟩
        exact ⟨(same s a sound run.1).mp met, (ih (keeps s a sound run.1 met) run.2).mp later⟩
      · rintro ⟨met, later⟩
        have met := (same s a sound run.1).mpr met
        exact ⟨met, (ih (keeps s a sound run.1 met) run.2).mpr later⟩

/-- The same when all allowed steps keep it. -/
theorem admitted_congr {allowed ok' : σ → α → Prop} (inv : σ → Prop)
    (keeps : ∀ s a, inv s → allowed s a → inv (step s a))
    (same : ∀ s a, inv s → allowed s a → (ok s a ↔ ok' s a)) {s : σ} {inputs : List α}
    (sound : inv s) (run : Admitted step allowed s inputs) :
    Admitted step ok s inputs ↔ Admitted step ok' s inputs :=
  admitted_congr_while inv (fun s a holds accepted _ => keeps s a holds accepted) same sound run

/-- Under an invariant that allowed steps keep, what every allowed step meets is met all along. -/
theorem Admitted.under {allowed : σ → α → Prop} (inv : σ → Prop)
    (keeps : ∀ s a, inv s → allowed s a → inv (step s a)) (accepts : ∀ s a, inv s → allowed s a → ok s a)
    {s : σ} {inputs : List α} (sound : inv s) (run : Admitted step allowed s inputs) :
    Admitted step ok s inputs := by
  induction inputs generalizing s with
  | nil => trivial
  | cons a rest ih => exact ⟨accepts s a sound run.1, ih (keeps s a sound run.1) run.2⟩

theorem admitted_true {s : σ} {inputs : List α} : Admitted step (fun _ _ => True) s inputs := by
  induction inputs generalizing s with
  | nil => trivial
  | cons a rest ih => exact ⟨trivial, ih⟩

theorem Admitted.and {ok' : σ → α → Prop} {s : σ} {inputs : List α} (first : Admitted step ok s inputs)
    (second : Admitted step ok' s inputs) : Admitted step (fun s a => ok s a ∧ ok' s a) s inputs := by
  induction inputs generalizing s with
  | nil => trivial
  | cons a rest ih => exact ⟨⟨first.1, second.1⟩, ih first.2 second.2⟩

/-- A machine that carries another one along accepts what that one does. -/
theorem admitted_comap {τ : Type*} {step' : τ → α → τ} {π : τ → σ}
    (commutes : ∀ t a, π (step' t a) = step (π t) a) {t : τ} {inputs : List α} :
    Admitted step' (fun t a => ok (π t) a) t inputs ↔ Admitted step ok (π t) inputs := by
  induction inputs generalizing t with
  | nil => exact Iff.rfl
  | cons a rest ih =>
      rw [Admitted, Admitted, ← commutes, ih]

/-- Two machines fed the same inputs: while the first is fed what `base` allows they stay
related, and what one accepts the other does. -/
theorem Admitted.transfer {τ : Type*} {step' : τ → α → τ} {ok' : τ → α → Prop} (base : σ → α → Prop)
    (related : σ → τ → Prop)
    (keeps : ∀ s t a, related s t → base s a → related (step s a) (step' t a))
    (accepts : ∀ s t a, related s t → base s a → ok s a → ok' t a) {s : σ} {t : τ} {inputs : List α}
    (start : related s t) (run : Admitted step base s inputs) (admitted : Admitted step ok s inputs) :
    Admitted step' ok' t inputs := by
  induction inputs generalizing s t with
  | nil => trivial
  | cons a rest ih =>
      exact ⟨accepts s t a start run.1 admitted.1, ih (keeps s t a start run.1) run.2 admitted.2⟩

/-- Every step of the run is matched by an allowed step of an abstract machine, which stays
related to it. -/
def Follows {τ : Type*} (step : σ → α → σ) (related : σ → τ → Prop) (allowed : σ → τ → α → τ → Prop) :
    σ → τ → List α → Prop
  | s, t, [] => related s t
  | s, t, a :: rest => related s t ∧ ∃ t', allowed s t a t' ∧ Follows step related allowed (step s a) t' rest

section Follows
variable {τ : Type*} {related strong : σ → τ → Prop} {allowed : σ → τ → α → τ → Prop}

/-- The simulation rule; the relation that is kept may say more than the one that is shown. -/
theorem follows_of_admitted (weaker : ∀ s t, strong s t → related s t)
    (simulated : ∀ s t a, strong s t → ok s a → ∃ t', allowed s t a t' ∧ strong (step s a) t')
    {s : σ} {t : τ} {inputs : List α} (start : strong s t) (admitted : Admitted step ok s inputs) :
    Follows step related allowed s t inputs := by
  induction inputs generalizing s t with
  | nil => exact weaker s t start
  | cons a rest ih =>
      obtain ⟨t', matched, next⟩ := simulated s t a start admitted.1
      exact ⟨weaker s t start, t', matched, ih next admitted.2⟩

end Follows

end Runs
end Foundation
