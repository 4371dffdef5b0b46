import AstralOS.Sched.Interrupts

/-! All timings of the interrupt at once: what code may do so that no timing makes the handler spin. -/
namespace AstralOS.Sched
open Foundation

/-- What code chooses: its calls, and where it enables interrupts. -/
def Event.ofCode : Event → Bool
  | .call _ => true
  | .enableInterrupts => true
  | _ => false

/-- A run of the program, with the core's steps and interrupts anywhere in between. -/
def Timing (program events : List Event) : Prop := events.filter Event.ofCode = program

/-- A call that begins begins with interrupts masked. -/
def CalledMasked (c : Option Core) (e : Event) : Prop :=
  ∀ s s' op, c = some s → e = .call op → s.next e = some s' → s.enabled = false

/-- Only the innermost frame is in a call, and not with interrupts enabled. -/
structure Core.Quiet (c : Core) : Prop where
  below : ∀ f rest, c.running = f :: rest → ∀ g ∈ rest, g.point = .outside
  suspended : ∀ t, ∀ g ∈ c.suspended t, g.point = .outside
  top : c.enabled = true → ∀ g ∈ c.running, g.point = .outside

/-- Interrupts have not been enabled yet, so no handler is on a stack. -/
structure Core.Masked (c : Core) : Prop where
  off : c.enabled = false
  code : ∀ f ∈ c.running, f.handler = false
  others : ∀ t, ∀ f ∈ c.suspended t, f.handler = false

/-- How a run goes: before interrupts are enabled none is taken; behind that, no call is made. -/
inductive Stage (events : List Event) (c : Core) : Prop
  | masked (noIrq : Event.irq ∉ events) (masked : c.Masked)
  | enabled {before after : List Event} {first : Core} {saved : Bool} {rest : List Frame}
      (parts : events = before ++ .enableInterrupts :: after) (noIrq : Event.irq ∉ before)
      (reached : before.foldl tick (some bootCore) = some first)
      (outside : first.running = ⟨false, saved, .outside⟩ :: rest) (noCall : ∀ op, Event.call op ∉ after)

section
variable {c c' : Core} {e : Event} {f g : Frame} {rest : List Frame}

/-! With calls only while interrupts are masked. -/

theorem Core.Quiet.head (quiet : c.Quiet) (running : c.running = f :: rest) (s : Scheduler) {enabled : Bool}
    (top : enabled = true → g.point = .outside) :
    Core.Quiet { c with sched := s, enabled := enabled, running := g :: rest } := by
  refine ⟨?_, quiet.suspended, fun on => List.forall_mem_cons.mpr ⟨top on, quiet.below f rest running⟩⟩
  rintro _ _ ⟨⟩
  exact quiet.below f rest running

theorem Core.Quiet.leave (quiet : c.Quiet) (running : c.running = f :: rest) (off : c.enabled = false) (d : Control) :
    (c.leave f rest d).Quiet := by
  have never : ∀ p : Point, c.enabled = true → p = .outside := fun p on => by simp [off] at on
  cases d with
  | returns => exact quiet.head running c.sched (g := { f with point := .outside }) fun _ => rfl
  | halts => exact quiet.head running c.sched (g := { f with point := .halted }) fun on => Bool.noConfusion on
  | yields => exact quiet.head running c.sched (g := { f with point := .acquire .yield }) (never _)
  | branches task =>
      refine ⟨?_, quiet.suspended, fun _ => List.forall_mem_singleton.mpr rfl⟩
      rintro _ _ ⟨⟩
      exact List.forall_mem_nil _
  | switches old new =>
      have outside : ∀ t, ∀ g ∈ Function.update c.suspended old ({ f with point := .outside } :: rest) t,
          g.point = .outside := by
        intro t
        by_cases same : t = old
        · rw [same, Function.update_self]
          exact List.forall_mem_cons.mpr ⟨rfl, quiet.below f rest running⟩
        · rw [Function.update_of_ne same]
          exact quiet.suspended t
      refine ⟨fun g below stack h member => ?_, outside, fun _ => outside new⟩
      refine outside new h ?_
      rw [show Function.update c.suspended old ({ f with point := .outside } :: rest) new = g :: below from stack]
      exact List.mem_cons_of_mem g member

theorem Core.Quiet.advance (quiet : c.Quiet) (running : c.running = f :: rest) (ran : c.advance f rest = some c') :
    c'.Quiet := by
  have off : f.point ≠ .outside → c.enabled = false := fun inside =>
    Bool.eq_false_iff.mpr fun on => inside (quiet.top on f (running ▸ List.mem_cons_self))
  have never : f.point ≠ .outside → ∀ p : Point, c.enabled = true → p = .outside := fun inside p on => by
    simp [off inside] at on
  obtain ⟨handler, saved, point⟩ := f
  cases point with
  | outside =>
      cases handler with
      | true =>
          cases ran
          have below := quiet.below _ rest running
          refine ⟨fun g deeper stack h member => below h ?_, quiet.suspended, fun _ => below⟩
          rw [show rest = g :: deeper from stack]
          exact List.mem_cons_of_mem g member
      | false => cases ran
  | acquire op =>
      simp only [Core.advance] at ran
      cases taken : spinlockAcquire c.sched with
      | none =>
          rw [taken] at ran
          cases ran
          exact quiet
      | some s =>
          rw [taken] at ran
          cases ran
          exact quiet.head running s (never (by simp) _)
  | update op =>
      obtain ⟨r, _, rfl⟩ := Option.map_eq_some_iff.mp ran
      exact quiet.head running r.1 (never (by simp) _)
  | release d =>
      cases ran
      exact quiet.head running _ (never (by simp) _)
  | leave d =>
      cases ran
      exact quiet.leave running (off (by simp)) d
  | halted => cases ran

theorem quiet_next (quiet : c.Quiet) (masked : ∀ op, e = .call op → c.enabled = false) (ran : c.next e = some c') :
    c'.Quiet := by
  cases e with
  | call op =>
      simp only [Core.next] at ran
      split at ran
      case h_1 saved rest running =>
        cases ran
        exact quiet.head running c.sched fun on => by simp [masked op rfl] at on
      case h_2 => cases ran
  | enableInterrupts =>
      simp only [Core.next] at ran
      split at ran
      case h_1 saved rest running =>
        cases ran
        refine ⟨quiet.below, quiet.suspended, fun _ => ?_⟩
        rw [running]
        exact List.forall_mem_cons.mpr ⟨rfl, quiet.below _ rest running⟩
      case h_2 => cases ran
  | advance =>
      simp only [Core.next] at ran
      split at ran
      case h_1 f rest running => exact quiet.advance running ran
      case h_2 => cases ran
  | irq =>
      by_cases on : c.enabled = true
      · simp only [Core.next, if_pos on] at ran
        cases ran
        refine ⟨?_, quiet.suspended, fun masked => Bool.noConfusion masked⟩
        rintro _ _ ⟨⟩
        exact quiet.top on
      · simp only [Core.next, if_neg on] at ran
        cases ran

/-- Then every interrupt is taken outside the lock. -/
theorem takenOutside_of_masked {events : List Event} (masked : Admitted tick CalledMasked (some bootCore) events) :
    Admitted tick TakenOutside (some bootCore) events := by
  have quiet : ∀ s, some bootCore = some s → s.Quiet := by
    rintro _ ⟨⟩
    refine ⟨?_, fun _ => List.forall_mem_singleton.mpr rfl, fun on => Bool.noConfusion on⟩
    rintro _ _ ⟨⟩
    exact List.forall_mem_nil _
  refine admitted_iff_splits.mpr fun before e after same s reached irq on f rest running holds => ?_
  have part := (admitted_append.mp (same ▸ masked)).1
  have still : ∀ s, before.foldl tick (some bootCore) = some s → s.Quiet := by
    refine invariant_run (P := fun c => ∀ s, c = some s → s.Quiet) ?_ quiet part
    rintro c e quiet masked s' ran
    obtain ⟨s, rfl, next⟩ := Option.bind_eq_some_iff.mp ran
    exact quiet_next (quiet s rfl) (fun op isCall => masked s s' op rfl isCall next) next
  have outside := (still s reached).top on f (running ▸ List.mem_cons_self)
  rw [Frame.Holds, outside] at holds
  exact holds

/-! A program whose calls are masked when no interrupt comes. -/

theorem enable_again {saved : Bool} (on : c.enabled = true) (outside : c.running = ⟨false, saved, .outside⟩ :: rest)
    {events : List Event} (enables : ∀ e ∈ events, e = .enableInterrupts) :
    events.foldl tick (some c) = some c := by
  induction events with
  | nil => rfl
  | cons e events ih =>
      obtain ⟨rfl, others⟩ := List.forall_mem_cons.mp enables
      have same : tick (some c) .enableInterrupts = some c := by
        obtain ⟨s, enabled, running, suspended⟩ := c
        obtain rfl : enabled = true := on
        obtain rfl : running = _ := outside
        rfl
      rw [List.foldl_cons, same]
      exact ih others

/-- Left alone, such a program makes no call behind the first place where it enables interrupts. -/
theorem no_later_call {program before mid after : List Event} {op : Op} {first : Core} {saved : Bool}
    (undisturbed : ∀ events, Timing program events → Event.irq ∉ events →
      Admitted tick CalledMasked (some bootCore) events)
    (timing : Timing program (before ++ .enableInterrupts :: mid ++ .call op :: after)) (noIrq : Event.irq ∉ before)
    (reached : before.foldl tick (some bootCore) = some first)
    (outside : first.running = ⟨false, saved, .outside⟩ :: rest) (noCall : ∀ op, Event.call op ∉ mid) : False := by
  have alone := undisturbed (before ++ .enableInterrupts :: mid.filter Event.ofCode ++
    .call op :: after.filter Event.ofCode) ?_ ?_
  · have enables : ∀ e ∈ mid.filter Event.ofCode, e = .enableInterrupts := by
      intro e member
      obtain ⟨inside, ofCode⟩ := List.mem_filter.mp member
      cases e with
      | call op => exact absurd inside (noCall op)
      | enableInterrupts => rfl
      | advance => cases ofCode
      | irq => cases ofCode
    have here : (before ++ .enableInterrupts :: mid.filter Event.ofCode).foldl tick (some bootCore) =
        some { first with enabled := true } := by
      have on : tick (some first) .enableInterrupts = some { first with enabled := true } := by
        rw [tick, Option.bind_some, Core.next, outside]
      rw [List.foldl_append, reached, List.foldl_cons, on]
      exact enable_again (c := { first with enabled := true }) rfl outside enables
    have outside' : { first with enabled := true }.running = ⟨false, saved, .outside⟩ :: rest := outside
    have off := admitted_iff_splits.mp alone _ _ _ rfl _ { first with
      enabled := true, running := ⟨false, saved, .acquire op⟩ :: rest } op here rfl (by rw [Core.next, outside'])
    cases off
  · rw [Timing, ← timing]
    have kept : ∀ l : List Event, (l.filter Event.ofCode).filter Event.ofCode = l.filter Event.ofCode :=
      fun l => by simp
    have enable : Event.ofCode .enableInterrupts = true := rfl
    have call : Event.ofCode (.call op) = true := rfl
    simp only [List.append_assoc, List.cons_append, List.filter_append, List.filter_cons_of_pos enable,
      List.filter_cons_of_pos call, kept]
  · have apart : ∀ l : List Event, Event.irq ∉ l.filter Event.ofCode := fun l member =>
      absurd (List.mem_filter.mp member).2 (by decide)
    simp [noIrq, apart]

theorem Core.Masked.leave (masked : c.Masked) (running : c.running = f :: rest) (d : Control) :
    (c.leave f rest d).Masked := by
  obtain ⟨code, below⟩ := List.forall_mem_cons.mp (running ▸ masked.code)
  have own : ∀ p : Point, ∀ g ∈ { f with point := p } :: rest, g.handler = false := fun p =>
    List.forall_mem_cons.mpr ⟨code, below⟩
  cases d with
  | returns => exact ⟨masked.off, own _, masked.others⟩
  | halts => exact ⟨rfl, own _, masked.others⟩
  | yields => exact ⟨masked.off, own _, masked.others⟩
  | branches task => exact ⟨masked.off, List.forall_mem_singleton.mpr rfl, masked.others⟩
  | switches old new =>
      have others : ∀ t, ∀ g ∈ Function.update c.suspended old ({ f with point := .outside } :: rest) t,
          g.handler = false := by
        intro t
        by_cases same : t = old
        · rw [same, Function.update_self]
          exact own _
        · rw [Function.update_of_ne same]
          exact masked.others t
      exact ⟨masked.off, others new, others⟩

theorem Core.Masked.advance (masked : c.Masked) (running : c.running = f :: rest)
    (ran : c.advance f rest = some c') : c'.Masked := by
  obtain ⟨code, below⟩ := List.forall_mem_cons.mp (running ▸ masked.code)
  obtain ⟨handler, saved, point⟩ := f
  obtain rfl : handler = false := code
  have own : ∀ (s : Scheduler) (p : Point), Core.Masked { c with sched := s, running := ⟨false, saved, p⟩ :: rest } :=
    fun s p => ⟨masked.off, List.forall_mem_cons.mpr ⟨rfl, below⟩, masked.others⟩
  cases point with
  | outside => cases ran
  | acquire op =>
      by_cases unlocked : c.sched.schedLock = 0#32
      · simp only [Core.advance, spinlockAcquire, if_pos unlocked] at ran
        cases ran
        exact own _ _
      · simp only [Core.advance, spinlockAcquire, if_neg unlocked] at ran
        cases ran
        exact masked
  | update op =>
      obtain ⟨r, _, rfl⟩ := Option.map_eq_some_iff.mp ran
      exact own _ _
  | release d =>
      cases ran
      exact own _ _
  | leave d =>
      cases ran
      exact masked.leave running d
  | halted => cases ran

theorem stage_next {events after program : List Event}
    (undisturbed : ∀ events, Timing program events → Event.irq ∉ events →
      Admitted tick CalledMasked (some bootCore) events)
    (timing : Timing program (events ++ e :: after)) (reached : events.foldl tick (some bootCore) = some c)
    (stage : Stage events c) (ran : c.next e = some c') : Stage (events ++ [e]) c' := by
  cases stage with
  | @enabled before later first saved rest parts noIrq start outside noCall =>
      subst parts
      have parts : before ++ .enableInterrupts :: later ++ [e] = before ++ .enableInterrupts :: (later ++ [e]) :=
        List.append_assoc ..
      refine .enabled parts noIrq start outside fun op member => ?_
      rcases List.mem_append.mp member with old | new
      · exact noCall op old
      · obtain rfl := List.mem_singleton.mp new
        exact no_later_call undisturbed timing noIrq start outside noCall
  | masked noIrq masked =>
      cases e with
      | call op =>
          simp only [Core.next] at ran
          split at ran
          case h_1 saved rest running =>
            cases ran
            have code := masked.code
            rw [running] at code
            have own : ∀ f ∈ ⟨false, saved, .acquire op⟩ :: rest, Frame.handler f = false :=
              List.forall_mem_cons.mpr ⟨rfl, (List.forall_mem_cons.mp code).2⟩
            exact .masked (by simp [noIrq]) ⟨masked.off, own, masked.others⟩
          case h_2 => cases ran
      | enableInterrupts =>
          simp only [Core.next] at ran
          split at ran
          case h_1 saved rest running =>
            have parts : events ++ [.enableInterrupts] = events ++ .enableInterrupts :: [] := rfl
            exact .enabled parts noIrq reached running fun _ => List.not_mem_nil
          case h_2 => cases ran
      | advance =>
          simp only [Core.next] at ran
          split at ran
          case h_1 f rest running => exact .masked (by simp [noIrq]) (masked.advance running ran)
          case h_2 => cases ran
      | irq =>
          rw [Core.next, if_neg (by simp [masked.off])] at ran
          cases ran

theorem timings_masked {events program : List Event}
    (undisturbed : ∀ events, Timing program events → Event.irq ∉ events →
      Admitted tick CalledMasked (some bootCore) events)
    (timing : Timing program events) : Admitted tick CalledMasked (some bootCore) events := by
  have stages : ∀ before after, events = before ++ after → ∀ c, before.foldl tick (some bootCore) = some c →
      Stage before c := by
    intro before
    induction before using List.reverseRecOn with
    | nil =>
        rintro after _ c ⟨⟩
        exact .masked (List.not_mem_nil) ⟨rfl, List.forall_mem_singleton.mpr rfl,
          fun _ => List.forall_mem_singleton.mpr rfl⟩
    | append_singleton before e ih =>
        intro after same c' reached
        rw [List.append_assoc, List.singleton_append] at same
        rw [List.foldl_append] at reached
        obtain ⟨c, start, next⟩ := Option.bind_eq_some_iff.mp reached
        exact stage_next undisturbed (same ▸ timing) start (ih _ same c start) next
  refine admitted_iff_splits.mpr ?_
  rintro before _ after same c c' op reached rfl next
  cases stages before _ same c reached with
  | masked _ masked => exact masked.off
  | enabled parts noIrq start outside noCall =>
      exact (no_later_call undisturbed (parts ▸ same ▸ timing) noIrq start outside noCall).elim

/-- A call that begins with interrupts enabled: the timer can come right after `spinlock_acquire`. -/
theorem enabled_call_spins (calm : c.Calm) (on : c.enabled = true) (op : Op) {saved : Bool}
    (outside : c.running = ⟨false, saved, .outside⟩ :: rest) :
    ∃ s, [Event.call op, .advance, .irq].foldl tick (some c) = some s ∧ s.Spins := by
  obtain ⟨unlocked, _⟩ := calm.outside outside
  have taken : spinlockAcquire c.sched = some { c.sched with schedLock := 1#32 } := if_pos unlocked
  have inside : Frame.Holds ⟨false, saved, .update op⟩ := trivial
  refine ⟨Core.interrupt { c with
    sched := { c.sched with schedLock := 1#32 }
    running := ⟨false, saved, .update op⟩ :: rest }, ?_, (spins_interrupt rfl).mpr inside⟩
  simp only [List.foldl_cons, List.foldl_nil, tick, Option.bind_some, Core.next, outside, Core.advance, taken, on,
    if_true]

/-- Without interrupts the lock is always in order. -/
theorem calm_without_irq {events : List Event} (noIrq : Event.irq ∉ events)
    (reached : events.foldl tick (some bootCore) = some c) : c.Calm := by
  have admitted : Admitted tick (fun _ e => e ≠ .irq) (some bootCore) events := by
    refine admitted_iff_splits.mpr ?_
    rintro before _ after rfl rfl
    exact noIrq (List.mem_append_right _ List.mem_cons_self)
  refine invariant_run (P := fun c => ∀ s, c = some s → s.Calm) ?_ ?_ admitted c reached
  · rintro c e calm other s' ran
    obtain ⟨s, rfl, next⟩ := Option.bind_eq_some_iff.mp ran
    exact calm_next (calm s rfl) (fun _ _ irq => absurd irq other) next
  · rintro _ ⟨⟩
    have clear : Clear [Frame.code .outside] := clear_cons.mpr ⟨id, List.forall_mem_nil _⟩
    exact .free rfl clear fun _ => clear

end

/-- In a run the handler never waits for the code it interrupted if and only if no interrupt is
taken inside the lock. All timings of a program are free of it if and only if, without the timer,
the program makes no call with interrupts enabled. -/
theorem never_spins_iff (run program : List Event) :
    (Always tick NeverSpins (some bootCore) run ↔ Admitted tick TakenOutside (some bootCore) run) ∧
    ((∀ events, Timing program events → Always tick NeverSpins (some bootCore) events) ↔
      ∀ events, Timing program events → Event.irq ∉ events → Admitted tick CalledMasked (some bootCore) events) := by
  refine ⟨run_never_spins_iff run, fun never events timing noIrq => ?_, fun undisturbed events timing => ?_⟩
  · refine admitted_iff_splits.mpr ?_
    rintro before _ after rfl c c' op reached rfl next
    refine Bool.eq_false_iff.mpr fun on => ?_
    have outside : ∃ saved rest, c.running = ⟨false, saved, .outside⟩ :: rest := by
      simp only [Core.next] at next
      split at next
      case h_1 saved rest running => exact ⟨saved, rest, running⟩
      case h_2 => cases next
    obtain ⟨saved, rest, outside⟩ := outside
    have calm := calm_without_irq (fun member => noIrq (List.mem_append_left _ member)) reached
    obtain ⟨s, ran, spins⟩ := enabled_call_spins calm on op outside
    have disturbed := never (before ++ [.call op, .advance, .irq] ++ after) (by
      rw [Timing, ← timing, List.append_assoc, List.filter_append, List.filter_append, List.filter_append]
      rfl)
    refine disturbed.after s ?_ spins
    rw [List.foldl_append, reached]
    exact ran
  · exact (run_never_spins_iff events).mpr (takenOutside_of_masked (timings_masked undisturbed timing))

/-- The kernel's start: two tasks, interrupts on, and the timer right after `sched_schedule`
has taken the lock. -/
theorem irq_in_schedule_spins : ¬ Always tick NeverSpins (some bootCore)
    [.call (.addTask 0x1000#64), .advance, .advance, .advance, .advance,
      .call (.addTask 0x2000#64), .advance, .advance, .advance, .advance,
      .enableInterrupts, .call .schedule, .advance, .irq] := by
  intro always
  exact always.last _ rfl ⟨_, _, _, rfl, rfl, rfl, trivial⟩

end AstralOS.Sched
