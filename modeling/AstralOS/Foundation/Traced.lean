import Mathlib.Data.List.Basic

/-! Computations that list what they do on the way: a value and the events that led to it. -/
namespace Foundation

structure Traced (ε α : Type) where
  value : α
  events : List ε

namespace Traced
variable {ε α β σ ι : Type}

instance : Monad (Traced ε) where
  pure a := ⟨a, []⟩
  bind x f := ⟨(f x.value).value, x.events ++ (f x.value).events⟩

/-- One event, and the value it gives. -/
abbrev event (e : ε) (a : α) : Traced ε α := ⟨a, [e]⟩

/-- All events are as they should be. -/
def Logs (ok : ε → Prop) (x : Traced ε α) : Prop := ∀ e ∈ x.events, ok e

@[simp] theorem value_pure (a : α) : (pure a : Traced ε α).value = a := rfl

@[simp] theorem value_bind (x : Traced ε α) (f : α → Traced ε β) : (x >>= f).value = (f x.value).value := rfl

@[simp] theorem value_event (e : ε) (a : α) : (event e a).value = a := rfl

theorem value_ite (c : Prop) [Decidable c] (x y : Traced ε α) :
    (if c then x else y).value = if c then x.value else y.value := apply_ite value c x y

@[simp] theorem value_foldlM (f : σ → ι → Traced ε σ) (l : List ι) (s : σ) :
    (l.foldlM f s).value = l.foldl (fun s i => (f s i).value) s := by
  induction l generalizing s with
  | nil => rfl
  | cons i rest ih =>
      rw [List.foldlM_cons, value_bind, ih]
      rfl

variable {ok : ε → Prop}

@[simp] theorem logs_pure (a : α) : Logs ok (pure a : Traced ε α) := fun _ member => absurd member List.not_mem_nil

@[simp] theorem logs_event (e : ε) (a : α) : Logs ok (event e a) ↔ ok e := List.forall_mem_singleton

@[simp] theorem logs_bind (x : Traced ε α) (f : α → Traced ε β) :
    Logs ok (x >>= f) ↔ Logs ok x ∧ Logs ok (f x.value) := List.forall_mem_append

/-- The loop rule: what every turn keeps, and what its events are while it holds. -/
theorem logs_foldlM (inv : σ → Prop) {f : σ → ι → Traced ε σ} {l : List ι}
    (each : ∀ i ∈ l, ∀ s, inv s → Logs ok (f s i) ∧ inv (f s i).value) {s : σ} (start : inv s) :
    Logs ok (l.foldlM f s) ∧ inv (l.foldlM f s).value := by
  induction l generalizing s with
  | nil => exact ⟨logs_pure s, start⟩
  | cons i rest ih =>
      obtain ⟨first, next⟩ := each i List.mem_cons_self s start
      obtain ⟨later, last⟩ := ih (fun j member => each j (List.mem_cons_of_mem i member)) next
      rw [List.foldlM_cons, logs_bind]
      exact ⟨⟨first, later⟩, last⟩

/-- A loop whose every turn is in order from any state is in order. -/
theorem logs_foldlM_any {f : σ → ι → Traced ε σ} {l : List ι} (each : ∀ i ∈ l, ∀ s, Logs ok (f s i)) (s : σ) :
    Logs ok (l.foldlM f s) :=
  (logs_foldlM (fun _ => True) (fun i member s _ => ⟨each i member s, trivial⟩) trivial).1

end Traced
end Foundation
