import AstralOS.Foundation.Runs

/-! A producer that looks for room in a bounded queue before it puts an item in, and a consumer that takes
items out. In whatever order they take their turns nothing is lost, and with turns enough all is delivered. -/
namespace Foundation

/-- `ready` is set once the producer has seen room for its next item. -/
structure Line (α : Type*) where
  out : List α
  queue : List α
  ready : Bool
  left : List α
  lost : List α

inductive Turn where
  | produce
  | consume

namespace Line
variable {α : Type*}

/-- A look, or the item that was looked for. An item that finds no room is lost. -/
def produce (capacity : Nat) (l : Line α) : Line α :=
  match l.left with
  | [] => l
  | c :: rest =>
      if l.ready then
        if l.queue.length < capacity then { l with queue := l.queue ++ [c], ready := false, left := rest }
        else { l with lost := l.lost ++ [c], ready := false, left := rest }
      else { l with ready := decide (l.queue.length < capacity) }

def consume (l : Line α) : Line α :=
  match l.queue with
  | [] => l
  | c :: rest => { l with out := l.out ++ [c], queue := rest }

def turn (capacity : Nat) (l : Line α) : Turn → Line α
  | .produce => l.produce capacity
  | .consume => l.consume

/-- Everything is delivered, queued or still to come, in order. -/
structure Sound (capacity : Nat) (text : List α) (l : Line α) : Prop where
  whole : l.out ++ (l.queue ++ l.left) = text
  lost : l.lost = []
  bounded : l.queue.length ≤ capacity
  room : l.ready = true → l.queue.length < capacity

/-- The turns that are still needed: a look, a move into the queue and one out of it for every item. -/
def work (l : Line α) : Nat := 3 * l.left.length - (if l.ready then 1 else 0) + l.queue.length

variable {capacity : Nat} {text : List α} {l : Line α}

theorem produce_look (out queue : List α) (c : α) (rest lost : List α) :
    Line.produce capacity ⟨out, queue, false, c :: rest, lost⟩ =
      ⟨out, queue, decide (queue.length < capacity), c :: rest, lost⟩ := rfl

theorem produce_put (out queue : List α) (c : α) (rest lost : List α) :
    Line.produce capacity ⟨out, queue, true, c :: rest, lost⟩ =
      if queue.length < capacity then ⟨out, queue ++ [c], false, rest, lost⟩
      else ⟨out, queue, false, rest, lost ++ [c]⟩ := rfl

theorem Sound.produce (sound : Sound capacity text l) : Sound capacity text (l.produce capacity) := by
  obtain ⟨out, queue, ready, left, lost⟩ := l
  obtain ⟨whole, none_, bounded, room⟩ := sound
  cases left with
  | nil => exact ⟨whole, none_, bounded, room⟩
  | cons c rest =>
      cases ready with
      | false => exact ⟨whole, none_, bounded, fun seen => of_decide_eq_true seen⟩
      | true =>
          have free : queue.length < capacity := room rfl
          rw [produce_put, if_pos free]
          refine ⟨?_, none_, ?_, fun seen => absurd seen Bool.false_ne_true⟩
          · rw [← whole, List.append_assoc queue]
            rfl
          · rw [List.length_append]
            exact free

theorem Sound.consume (sound : Sound capacity text l) : Sound capacity text l.consume := by
  obtain ⟨out, queue, ready, left, lost⟩ := l
  obtain ⟨whole, none_, bounded, room⟩ := sound
  cases queue with
  | nil => exact ⟨whole, none_, bounded, room⟩
  | cons c rest =>
      refine ⟨?_, none_, Nat.le_of_succ_le bounded, fun seen => Nat.lt_of_succ_lt (room seen)⟩
      rw [← whole]
      exact List.append_assoc out [c] _

theorem Sound.turn (sound : Sound capacity text l) (t : Turn) : Sound capacity text (l.turn capacity t) := by
  cases t with
  | produce => exact sound.produce
  | consume => exact sound.consume

/-- Nothing is lost, doubled or put out of order by any order of turns. -/
theorem Sound.run (sound : Sound capacity text l) (turns : List Turn) :
    Sound capacity text (turns.foldl (Line.turn capacity) l) := by
  induction turns generalizing l with
  | nil => exact sound
  | cons t rest ih => exact ih (sound.turn t)

theorem work_ready (out queue left lost : List α) :
    work ⟨out, queue, true, left, lost⟩ = 3 * left.length - 1 + queue.length := rfl

theorem work_unready (out queue left lost : List α) :
    work ⟨out, queue, false, left, lost⟩ = 3 * left.length + queue.length := rfl

/-- A turn does nothing, or some of the work. -/
theorem idle_or_less (capacity : Nat) (l : Line α) (t : Turn) :
    l.turn capacity t = l ∨ (l.turn capacity t).work < l.work := by
  obtain ⟨out, queue, ready, left, lost⟩ := l
  cases t with
  | produce =>
      cases left with
      | nil => exact .inl rfl
      | cons c rest =>
          cases ready with
          | false =>
              by_cases free : queue.length < capacity
              · right
                rw [Line.turn, produce_look, decide_eq_true free, work_ready, work_unready, List.length_cons]
                omega
              · left
                rw [Line.turn, produce_look, decide_eq_false free]
          | true =>
              right
              by_cases free : queue.length < capacity
              · rw [Line.turn, produce_put, if_pos free, work_ready, work_unready, List.length_cons, List.length_append,
                  List.length_singleton]
                omega
              · rw [Line.turn, produce_put, if_neg free, work_ready, work_unready, List.length_cons]
                omega
  | consume =>
      cases queue with
      | nil => exact .inl rfl
      | cons c rest => exact .inr (Nat.add_lt_add_left (Nat.lt_succ_self _) _)

theorem work_run (turns : List Turn) (l : Line α) : (turns.foldl (Line.turn capacity) l).work ≤ l.work := by
  induction turns generalizing l with
  | nil => exact Nat.le_refl _
  | cons t rest ih =>
      refine Nat.le_trans (ih _) ?_
      rcases idle_or_less capacity l t with idle | less
      · exact Nat.le_of_eq (congrArg work idle)
      · exact Nat.le_of_lt less

/-- Until all is delivered one of the two has something to do. -/
theorem someone_works (some_ : 0 < capacity) (unfinished : l.work ≠ 0) : ∃ t, (l.turn capacity t).work < l.work := by
  obtain ⟨out, queue, ready, left, lost⟩ := l
  cases queue with
  | cons c rest =>
      refine ⟨.consume, (idle_or_less capacity _ _).resolve_left fun idle => ?_⟩
      have shorter := congrArg (fun l : Line α => l.queue.length) idle
      exact absurd shorter (Nat.ne_of_lt (Nat.lt_succ_self _))
  | nil =>
      cases left with
      | nil =>
          exact absurd (by rw [work]; exact Nat.zero_sub _) unfinished
      | cons c rest =>
          have free : ([] : List α).length < capacity := some_
          refine ⟨.produce, (idle_or_less capacity _ _).resolve_left fun idle => ?_⟩
          cases ready with
          | false =>
              rw [Line.turn, produce_look, decide_eq_true free] at idle
              exact absurd (congrArg Line.ready idle) Bool.false_ne_true.symm
          | true =>
              rw [Line.turn, produce_put, if_pos free] at idle
              exact absurd (congrArg Line.ready idle) Bool.false_ne_true

/-- A turn that has something to do is not prevented by turns that come before it in a round. -/
theorem round_works {round : List Turn} {t : Turn} (member : t ∈ round) (works : (l.turn capacity t).work < l.work) :
    (round.foldl (Line.turn capacity) l).work < l.work := by
  induction round with
  | nil => cases member
  | cons first rest ih =>
      rcases idle_or_less capacity l first with idle | less
      · rw [List.foldl_cons, idle]
        rcases List.mem_cons.mp member with rfl | later
        · exact absurd (congrArg work idle) (Nat.ne_of_lt works)
        · exact ih later
      · exact Nat.lt_of_le_of_lt (work_run rest _) less

theorem rounds_work (some_ : 0 < capacity) {rounds : List (List Turn)} (fair : ∀ r ∈ rounds, ∀ t, t ∈ r)
    (enough : l.work ≤ rounds.length) : (rounds.flatten.foldl (Line.turn capacity) l).work = 0 := by
  induction rounds generalizing l with
  | nil => exact Nat.le_zero.mp enough
  | cons round rest ih =>
      obtain ⟨now, later⟩ := List.forall_mem_cons.mp fair
      rw [List.flatten_cons, List.foldl_append]
      refine ih later ?_
      by_cases finished : l.work = 0
      · have kept : (round.foldl (Line.turn capacity) l).work ≤ l.work := work_run round l
        omega
      · obtain ⟨t, works⟩ := someone_works some_ finished
        have := round_works (now t) works
        rw [List.length_cons] at enough
        omega

/-- When both have had their turns in enough rounds everything is delivered. -/
theorem Sound.delivered (sound : Sound capacity text l) (some_ : 0 < capacity) {rounds : List (List Turn)}
    (fair : ∀ r ∈ rounds, ∀ t, t ∈ r) (enough : l.work ≤ rounds.length) :
    (rounds.flatten.foldl (Line.turn capacity) l).out = text := by
  have whole := (sound.run rounds.flatten).whole
  have nothing := rounds_work some_ fair enough
  rw [work] at nothing
  have queued : (rounds.flatten.foldl (Line.turn capacity) l).queue = [] := List.length_eq_zero_iff.mp (by omega)
  have left : (rounds.flatten.foldl (Line.turn capacity) l).left = [] := by
    refine List.length_eq_zero_iff.mp ?_
    split at nothing <;> omega
  rw [queued, left, List.append_nil, List.append_nil] at whole
  exact whole

end Line
end Foundation
