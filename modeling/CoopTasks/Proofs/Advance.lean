import CoopTasks.Proofs.Clock
import CoopTasks.Proofs.Idempotence
import Mathlib.Algebra.GroupWithZero.Nat

/-!
# Time passes in pieces

To let some time pass and then some more is to let all of it pass at once: the same timers fire in
the same order and at the same readings of the clock, the same tasks are stepped in the same states,
and the answer is the same, be it good or an error. Between the two pieces the clock has been set to
the end of the first, which no timer notices.
-/

namespace CoopTasks.Scheduler

variable {P R W : Type} {s s' s₁ : Scheduler P R W} {h : Host P R W}
variable {ms ms' : List (Move P)} {reply reply' : Reply P R W Unit} {target target' : Nat}
variable {x : Nat × OperationId}

/-! ## Firing timers, however long it takes -/

/-- The timers that are due at the given time are fired by some moves, and the clock is set. -/
inductive Fires (h : Host P R W) (target : Nat) :
    Scheduler P R W → List (Move P) → Reply P R W Unit → Prop where
  | done {s : Scheduler P R W} : s.pending.due? target = none →
      Fires h target s [.setClock target] (.ok (), s.setClock target)
  | failed {s s' : Scheduler P R W} {e : HostError} {x : Nat × OperationId} :
      s.pending.due? target = some x →
      (s.expire x).complete h ⟨x.2, .ok .unit⟩ = (.error e, s') →
      Fires h target s
        (.expire x :: (s.expire x).completeTrail h ⟨x.2, .ok .unit⟩) (.error e, s')
  | fired {s s' : Scheduler P R W} {x : Nat × OperationId} {ms : List (Move P)}
      {reply : Reply P R W Unit} : s.pending.due? target = some x →
      (s.expire x).complete h ⟨x.2, .ok .unit⟩ = (.ok (), s') → Fires h target s' ms reply →
      Fires h target s
        (.expire x :: (s.expire x).completeTrail h ⟨x.2, .ok .unit⟩ ++ ms) reply

theorem fires_of_fireTimers (target fuel : Nat) (s : Scheduler P R W)
    (hfire : fireTimers h target fuel s = some reply) :
    Fires h target s (fireTrail h target fuel s) reply := by
  induction fuel generalizing s with
  | zero =>
    unfold fireTimers at hfire
    unfold fireTrail
    cases hdue : s.pending.due? target with
    | none => simp only [hdue, Option.some.injEq] at hfire; subst hfire; exact .done hdue
    | some timer => simp [hdue] at hfire
  | succ fuel ih =>
    unfold fireTimers at hfire
    unfold fireTrail
    cases hdue : s.pending.due? target with
    | none => simp only [hdue, Option.some.injEq] at hfire; subst hfire; exact .done hdue
    | some timer =>
      simp only [hdue] at hfire ⊢
      cases hc : (s.expire timer).complete h ⟨timer.2, .ok .unit⟩ with
      | mk answer s' =>
        rw [hc] at hfire
        cases answer with
        | error e =>
          cases hfire
          simpa using Fires.failed hdue hc
        | ok u => exact .fired hdue hc (ih s' hfire)

/-- Some number of timers is enough. -/
theorem Fires.exists_fuel (hs : Fires h target s ms reply) :
    ∃ fuel, fireTimers h target fuel s = some reply ∧ fireTrail h target fuel s = ms := by
  induction hs with
  | done hdue =>
    refine ⟨0, ?_, ?_⟩
    · unfold fireTimers
      simp [hdue]
    · unfold fireTrail
      simp [hdue]
  | failed hdue hc =>
    refine ⟨1, ?_, ?_⟩
    · unfold fireTimers
      simp [hdue, hc]
    · unfold fireTrail
      simp [hdue, hc]
  | fired hdue hc _ ih =>
    obtain ⟨fuel, hfire, htrail⟩ := ih
    refine ⟨fuel + 1, ?_, ?_⟩
    · unfold fireTimers
      simp [hdue, hc, hfire]
    · unfold fireTrail
      simp [hdue, hc, htrail]

theorem Fires.unique (hs : Fires h target s ms reply) (hs' : Fires h target s ms' reply') :
    ms = ms' ∧ reply = reply' := by
  induction hs generalizing ms' reply' with
  | done hdue =>
    cases hs' with
    | done => exact ⟨rfl, rfl⟩
    | failed hdue' => rw [hdue] at hdue'; cases hdue'
    | fired hdue' => rw [hdue] at hdue'; cases hdue'
  | failed hdue hc =>
    cases hs' with
    | done hdue' => rw [hdue] at hdue'; cases hdue'
    | failed hdue' hc' =>
      cases hdue.symm.trans hdue'
      cases hc.symm.trans hc'
      exact ⟨rfl, rfl⟩
    | fired hdue' hc' =>
      cases hdue.symm.trans hdue'
      cases hc.symm.trans hc'
  | fired hdue hc _ ih =>
    cases hs' with
    | done hdue' => rw [hdue] at hdue'; cases hdue'
    | failed hdue' hc' =>
      cases hdue.symm.trans hdue'
      cases hc.symm.trans hc'
    | fired hdue' hc' hrest =>
      cases hdue.symm.trans hdue'
      cases hc.symm.trans hc'
      obtain ⟨rfl, rfl⟩ := ih hrest
      exact ⟨rfl, rfl⟩

/-- The clock ends at the time that was aimed at. -/
theorem Fires.clock (hs : Fires h target s ms (.ok (), s')) (hle : s.pending.clock ≤ target) :
    s'.pending.clock = target := by
  generalize hreply : ((.ok (), s') : Reply P R W Unit) = reply at hs
  induction hs with
  | done hdue =>
    cases hreply
    exact Nat.max_eq_right hle
  | failed => cases hreply
  | @fired s r x ms reply hdue hc _ ih =>
    refine ih ?_ hreply
    have hclock := (proceeds_complete (s.expire x) h ⟨x.2, .ok .unit⟩).clock
    rw [hc] at hclock
    rw [hclock]
    exact Nat.max_le.2 ⟨hle, (Pending.due?_spec hdue).2.1⟩

/-! ## What happens -/

/-- All that happens in some moves, each in the state in which it does: completions are delivered
and tasks are stepped. The settings of the clock are seen from the states. -/
def activity (s : Scheduler P R W) (h : Host P R W) (ms : List (Move P)) :
    List (Scheduler P R W × Move P) :=
  (s.history h ms).filter fun entry => (time? entry.2).isNone

theorem activity_append (s : Scheduler P R W) (h : Host P R W) (ms ms' : List (Move P)) :
    s.activity h (ms ++ ms') = s.activity h ms ++ (s.moves h ms).activity h ms' := by
  rw [activity, history_append, List.filter_append]
  rfl

@[simp] theorem activity_setClock (s : Scheduler P R W) (h : Host P R W) (now : Nat)
    (ms : List (Move P)) :
    s.activity h (.setClock now :: ms) = (s.setClock now).activity h ms :=
  rfl

@[simp] theorem activity_expire (s : Scheduler P R W) (h : Host P R W) (x : Nat × OperationId)
    (ms : List (Move P)) :
    s.activity h (.expire x :: ms) = (s.expire x).activity h ms :=
  rfl

/-- What happens when one timer fires, and then others. -/
theorem activity_fired (hc : (s.expire x).complete h ⟨x.2, .ok .unit⟩ = reply)
    (ms : List (Move P)) :
    s.activity h (.expire x :: (s.expire x).completeTrail h ⟨x.2, .ok .unit⟩ ++ ms) =
      (s.expire x).activity h ((s.expire x).completeTrail h ⟨x.2, .ok .unit⟩) ++
        reply.2.activity h ms := by
  rw [List.cons_append, activity_expire, activity_append, ← complete_moves, hc]

/-! ## The split -/

/-- A timer does not notice a setting of the clock up to its deadline. -/
theorem expire_setClock (s : Scheduler P R W) {now : Nat} (hle : now ≤ x.1) :
    (s.setClock now).expire x = s.expire x := by
  simp [expire, setClock, Pending.expire, Pending.setClock, Nat.max_assoc, Nat.max_eq_right hle]

/-- Schedulers that agree once a timer after the first time is taken out fire the same timers. -/
theorem Fires.congr (r : Scheduler P R W) (hs : Fires h target' s ms reply)
    (hdue : r.pending.due? target' = s.pending.due? target')
    (hset : r.setClock target' = s.setClock target')
    (hexpire : ∀ x : Nat × OperationId, target ≤ x.1 → r.expire x = s.expire x)
    (hnone : s.pending.due? target = none) :
    Fires h target' r ms reply ∧ r.activity h ms = s.activity h ms := by
  have hlater : ∀ {x}, s.pending.due? target' = some x → r.expire x = s.expire x :=
    fun hfirst => hexpire _
      (Nat.le_of_lt (Pending.due?_eq_none.1 hnone _ (Pending.due?_spec hfirst).1))
  cases hs with
  | done hfirst =>
    rw [activity_setClock, activity_setClock, ← hset]
    exact ⟨.done (hdue.trans hfirst), rfl⟩
  | failed hfirst hc =>
    rw [activity_expire, activity_expire]
    rw [← hlater hfirst] at hc ⊢
    exact ⟨.failed (hdue.trans hfirst) hc, rfl⟩
  | fired hfirst hc hrest =>
    rw [List.cons_append, activity_expire, activity_expire]
    rw [← hlater hfirst] at hc ⊢
    exact ⟨.fired (hdue.trans hfirst) hc hrest, rfl⟩

/-- Without a timer up to the first time, the clock may be set to it before the others fire. -/
theorem fires_setClock (hnone : s.pending.due? target = none) (hle : target ≤ target') :
    Fires h target' (s.setClock target) ms reply ↔ Fires h target' s ms reply :=
  ⟨fun hs => (hs.congr s rfl (setClock_setClock s hle).symm
      (fun _ hx => (expire_setClock s hx).symm) hnone).1,
    fun hs => (hs.congr (s.setClock target) rfl (setClock_setClock s hle)
      (fun _ hx => expire_setClock s hx) hnone).1⟩

theorem Fires.activity_setClock (hnone : s.pending.due? target = none) (hle : target ≤ target')
    (hs : Fires h target' s ms reply) :
    (s.setClock target).activity h ms = s.activity h ms :=
  (hs.congr (s.setClock target) rfl (setClock_setClock s hle) (fun _ hx => expire_setClock s hx)
    hnone).2

/-- The first timer up to the later time is due at the earlier one, or no timer is. -/
theorem due?_earlier {timer : Nat × OperationId} (hdue : s.pending.due? target' = some timer) :
    s.pending.due? target = some timer ∨ s.pending.due? target = none := by
  by_cases hle : timer.1 ≤ target
  · obtain ⟨hfirst, -⟩ := Option.filter_eq_some_iff.1 hdue
    exact Or.inl (Option.filter_eq_some_iff.2 ⟨hfirst, decide_eq_true hle⟩)
  · exact Or.inr (Pending.due?_eq_none.2 fun other hm =>
      Nat.lt_of_lt_of_le (Nat.not_le.1 hle) (Pending.due?_le hdue other hm))

/-- The timers up to the later time are those up to the earlier one and the others after them. -/
theorem Fires.split (hle : target ≤ target') (hs : Fires h target' s ms reply) :
    (∃ e r, reply = (.error e, r) ∧ Fires h target s ms reply) ∨
      ∃ s₁ ms₁ ms₂, Fires h target s ms₁ (.ok (), s₁) ∧ Fires h target' s₁ ms₂ reply ∧
        s.activity h ms = s.activity h ms₁ ++ s₁.activity h ms₂ := by
  -- no timer is due at the earlier time
  have hlater : ∀ {s ms reply}, s.pending.due? target = none → Fires h target' s ms reply →
      ∃ s₁ ms₁ ms₂, Fires h target s ms₁ (.ok (), s₁) ∧ Fires h target' s₁ ms₂ reply ∧
        s.activity h ms = s.activity h ms₁ ++ s₁.activity h ms₂ := fun {s ms reply} hnone hs =>
    ⟨s.setClock target, [.setClock target], ms, .done hnone, (fires_setClock hnone hle).2 hs,
      (hs.activity_setClock hnone hle).symm⟩
  induction hs with
  | @done s hdue =>
    refine Or.inr (hlater ?_ (.done hdue))
    exact Pending.due?_eq_none.2 fun timer hm =>
      Nat.lt_of_le_of_lt hle (Pending.due?_eq_none.1 hdue timer hm)
  | failed hdue hc =>
    rcases due?_earlier hdue with hfirst | hnone
    · exact Or.inl ⟨_, _, rfl, .failed hfirst hc⟩
    · exact Or.inr (hlater hnone (.failed hdue hc))
  | @fired s r x ms reply hdue hc hrest ih =>
    rcases due?_earlier hdue with hfirst | hnone
    · rcases ih with ⟨e, r', rfl, herror⟩ | ⟨s₁, ms₁, ms₂, hs₁, hs₂, hactivity⟩
      · exact Or.inl ⟨e, r', rfl, .fired hfirst hc herror⟩
      · refine Or.inr ⟨s₁, _, ms₂, .fired hfirst hc hs₁, hs₂, ?_⟩
        rw [activity_fired hc, activity_fired hc, hactivity, List.append_assoc]
    · exact Or.inr (hlater hnone (.fired hdue hc hrest))

theorem due?_later (hle : target ≤ target') {timer : Nat × OperationId}
    (hdue : s.pending.due? target = some timer) : s.pending.due? target' = some timer := by
  obtain ⟨hfirst, hdue⟩ := Option.filter_eq_some_iff.1 hdue
  exact Option.filter_eq_some_iff.2
    ⟨hfirst, decide_eq_true (Nat.le_trans (of_decide_eq_true hdue) hle)⟩

/-- An error before the earlier time is one before the later time. -/
theorem Fires.error (hle : target ≤ target') {e : HostError}
    (hs : Fires h target s ms (.error e, s')) : Fires h target' s ms (.error e, s') := by
  generalize hreply : ((.error e, s') : Reply P R W Unit) = reply at hs
  induction hs with
  | done => cases hreply
  | failed hdue hc => exact .failed (due?_later hle hdue) hc
  | fired hdue hc _ ih => exact .fired (due?_later hle hdue) hc (ih hreply)

/-- The timers up to the earlier time and the others after them are those up to the later one. -/
theorem Fires.join {ms₁ ms₂ : List (Move P)} (hle : target ≤ target')
    (hs₁ : Fires h target s ms₁ (.ok (), s₁)) (hs₂ : Fires h target' s₁ ms₂ reply) :
    ∃ ms, Fires h target' s ms reply ∧
      s.activity h ms = s.activity h ms₁ ++ s₁.activity h ms₂ := by
  generalize hreply : ((.ok (), s₁) : Reply P R W Unit) = reply₁ at hs₁
  induction hs₁ with
  | done hdue =>
    cases hreply
    have hs := (fires_setClock hdue hle).1 hs₂
    exact ⟨ms₂, hs, (hs.activity_setClock hdue hle).symm⟩
  | failed => cases hreply
  | @fired s r x ms₁ reply₁ hdue hc _ ih =>
    obtain ⟨ms, hs, hactivity⟩ := ih hreply
    refine ⟨_, .fired (due?_later hle hdue) hc hs, ?_⟩
    rw [activity_fired hc, activity_fired hc, hactivity, List.append_assoc]

/-! ## Advances -/

/-- Letting so many milliseconds pass comes to an answer, whatever number of timers that takes, and
all this happens meanwhile. -/
def Advances (h : Host P R W) (s : Scheduler P R W) (time : Nat)
    (events : List (Scheduler P R W × Move P)) (reply : Reply P R W Unit) : Prop :=
  ∃ fuel, s.advance h time fuel = some reply ∧
    events = s.activity h (s.trail h (.advance time fuel))

variable {time : Nat} {events events' : List (Scheduler P R W × Move P)}

/-- First the scheduler is run, and then the timers fire. -/
theorem advances_iff :
    Advances h s time events reply ↔
      (∃ e r, s.run h = (.error e, r) ∧ reply = (.error e, r) ∧
        events = s.activity h (s.runTrail h)) ∨
      ∃ r ms, s.run h = (.ok (), r) ∧ Fires h (s.pending.clock + time) r ms reply ∧
        events = s.activity h (s.runTrail h) ++ r.activity h ms := by
  have hmoves := run_moves s h
  have hclock := (proceeds_run s h).clock
  simp only [Advances, advance, trail]
  cases hr : s.run h with
  | mk answer r =>
    rw [hr] at hmoves hclock
    cases answer with
    | error e =>
      constructor
      · rintro ⟨fuel, hreply, rfl⟩
        exact Or.inl ⟨e, r, rfl, (Option.some.inj hreply).symm, by simp⟩
      · rintro (⟨e', r', heq, rfl, rfl⟩ | ⟨r', ms, heq, -⟩) <;> cases heq
        exact ⟨0, rfl, by simp⟩
    | ok u =>
      have hactivity : ∀ ms, s.activity h (s.runTrail h ++ ms) =
          s.activity h (s.runTrail h) ++ r.activity h ms := fun ms => by
        rw [activity_append, ← hmoves]
      rw [← show r.pending.clock = s.pending.clock from hclock]
      simp only [hactivity]
      constructor
      · rintro ⟨fuel, hfire, rfl⟩
        exact Or.inr ⟨r, _, rfl, fires_of_fireTimers _ fuel r hfire, rfl⟩
      · rintro (⟨e, r', heq, -⟩ | ⟨r', ms, heq, hfires, rfl⟩) <;> cases heq
        obtain ⟨fuel, hfire, rfl⟩ := hfires.exists_fuel
        exact ⟨fuel, hfire, rfl⟩

theorem Advances.unique (hs : Advances h s time events reply)
    (hs' : Advances h s time events' reply') : events = events' ∧ reply = reply' := by
  rcases advances_iff.1 hs with ⟨e, r, hrun, rfl, rfl⟩ | ⟨r, ms, hrun, hfires, rfl⟩ <;>
    rcases advances_iff.1 hs' with ⟨e', r', hrun', rfl, rfl⟩ | ⟨r', ms', hrun', hfires', rfl⟩ <;>
    cases hrun.symm.trans hrun'
  · exact ⟨rfl, rfl⟩
  · obtain ⟨rfl, rfl⟩ := hfires.unique hfires'
    exact ⟨rfl, rfl⟩

/-- After an advance that ends well nothing is left for a run, and the clock has moved on. -/
theorem Advances.idle (hs : Advances h s time events (.ok (), s')) :
    Idle s' ∧ s'.pending.clock = s.pending.clock + time := by
  obtain ⟨fuel, hadvance, -⟩ := hs
  have hcall : s.perform h (.advance time fuel) = some (.ok (), s') := hadvance
  refine ⟨idle_of_perform hcall, ?_⟩
  rcases advances_iff.1 ⟨fuel, hadvance, rfl⟩ with ⟨e, r, -, heq, -⟩ | ⟨r, ms, hrun, hfires, -⟩
  · cases heq
  · have hclock := (proceeds_run s h).clock
    rw [hrun] at hclock
    exact hfires.clock (by rw [hclock]; exact Nat.le_add_right _ _)

/-- From an idle scheduler an advance only fires timers. -/
theorem advances_of_idle (hs : Idle s) :
    Advances h s time events reply ↔
      ∃ ms, Fires h (s.pending.clock + time) s ms reply ∧ events = s.activity h ms := by
  obtain ⟨hrun, htrail⟩ := run_of_idle hs h
  rw [advances_iff, hrun, htrail]
  constructor
  · rintro (⟨e, r, heq, -⟩ | ⟨r, ms, heq, hfires, rfl⟩) <;> cases heq
    exact ⟨ms, hfires, rfl⟩
  · rintro ⟨ms, hfires, rfl⟩
    exact Or.inr ⟨s, ms, rfl, hfires, rfl⟩

/-- To let two times pass is to let the first pass, and, if that ends well, the second. -/
theorem advances_add (s : Scheduler P R W) (h : Host P R W) (a b : Nat)
    (events : List (Scheduler P R W × Move P)) (reply : Reply P R W Unit) :
    Advances h s (a + b) events reply ↔
      (∃ e r, reply = (.error e, r) ∧ Advances h s a events reply) ∨
      ∃ s₁ events₁ events₂, Advances h s a events₁ (.ok (), s₁) ∧
        Advances h s₁ b events₂ reply ∧ events = events₁ ++ events₂ := by
  have hle : s.pending.clock + a ≤ s.pending.clock + (a + b) :=
    Nat.add_le_add_left (Nat.le_add_right a b) _
  constructor
  · intro hs
    rcases advances_iff.1 hs with ⟨e, r, hrun, rfl, rfl⟩ | ⟨r, ms, hrun, hfires, rfl⟩
    · exact Or.inl ⟨e, r, rfl, advances_iff.2 (Or.inl ⟨e, r, hrun, rfl, rfl⟩)⟩
    · rcases hfires.split hle with ⟨e, r', rfl, herror⟩ | ⟨s₁, ms₁, ms₂, hs₁, hs₂, hactivity⟩
      · exact Or.inl ⟨e, r', rfl, advances_iff.2 (Or.inr ⟨r, ms, hrun, herror, rfl⟩)⟩
      · have hfirst : Advances h s a (s.activity h (s.runTrail h) ++ r.activity h ms₁)
            (.ok (), s₁) := advances_iff.2 (Or.inr ⟨r, ms₁, hrun, hs₁, rfl⟩)
        obtain ⟨hidle, hclock⟩ := hfirst.idle
        refine Or.inr ⟨s₁, _, s₁.activity h ms₂, hfirst, ?_, ?_⟩
        · rw [advances_of_idle hidle, hclock, Nat.add_assoc]
          exact ⟨ms₂, hs₂, rfl⟩
        · rw [hactivity, List.append_assoc]
  · rintro (⟨e, r, rfl, hs⟩ | ⟨s₁, events₁, events₂, hfirst, hsecond, rfl⟩)
    · rcases advances_iff.1 hs with ⟨e', r', hrun, heq, rfl⟩ | ⟨r', ms, hrun, hfires, rfl⟩
      · exact advances_iff.2 (Or.inl ⟨e', r', hrun, heq, rfl⟩)
      · exact advances_iff.2 (Or.inr ⟨r', ms, hrun, hfires.error hle, rfl⟩)
    · obtain ⟨hidle, hclock⟩ := hfirst.idle
      rcases advances_iff.1 hfirst with ⟨e, r, -, heq, -⟩ | ⟨r, ms₁, hrun, hs₁, rfl⟩
      · cases heq
      · obtain ⟨ms₂, hs₂, rfl⟩ := (advances_of_idle hidle).1 hsecond
        rw [hclock, Nat.add_assoc] at hs₂
        obtain ⟨ms, hfires, hactivity⟩ := hs₁.join hle hs₂
        refine advances_iff.2 (Or.inr ⟨r, ms, hrun, hfires, ?_⟩)
        rw [hactivity, List.append_assoc]

/-- Several times pass, one after the other, up to the first error. -/
def AdvancesAll (h : Host P R W) : Scheduler P R W → List Nat →
    List (Scheduler P R W × Move P) → Reply P R W Unit → Prop
  | s, [], events, reply => events = [] ∧ reply = (.ok (), s)
  | s, time :: times, events, reply =>
    (∃ e r, reply = (.error e, r) ∧ Advances h s time events reply) ∨
      ∃ s₁ events₁ events₂, Advances h s time events₁ (.ok (), s₁) ∧
        AdvancesAll h s₁ times events₂ reply ∧ events = events₁ ++ events₂

theorem advancesAll_iff (time : Nat) (times : List Nat) :
    AdvancesAll h s (time :: times) events reply ↔
      Advances h s (time + times.sum) events reply := by
  induction times generalizing s time events reply with
  | nil =>
    rw [List.sum_nil, Nat.add_zero]
    constructor
    · rintro (⟨-, -, -, hs⟩ | ⟨s₁, events₁, events₂, hs, ⟨rfl, rfl⟩, rfl⟩)
      · exact hs
      · rwa [List.append_nil]
    · intro hs
      obtain ⟨answer, r⟩ := reply
      cases answer with
      | error e => exact Or.inl ⟨e, r, rfl, hs⟩
      | ok u => exact Or.inr ⟨r, events, [], hs, ⟨rfl, rfl⟩, (List.append_nil _).symm⟩
  | cons next rest ih =>
    rw [List.sum_cons, advances_add]
    unfold AdvancesAll
    simp only [ih]

/-- However a time is cut into pieces, the same happens as when it passes at once: the same timers
fire in the same order and at the same readings of the clock, the same tasks are stepped in the same
states, and the answer and the state in the end are the same. An advance has no more than one
outcome. -/
theorem advance_in_pieces (h : Host P R W) (s : Scheduler P R W) :
    (∀ a b events reply, Advances h s (a + b) events reply ↔
      (∃ e r, reply = (.error e, r) ∧ Advances h s a events reply) ∨
      ∃ s₁ events₁ events₂, Advances h s a events₁ (.ok (), s₁) ∧
        Advances h s₁ b events₂ reply ∧ events = events₁ ++ events₂) ∧
    (∀ time times events reply, AdvancesAll h s (time :: times) events reply ↔
      Advances h s (time + times.sum) events reply) ∧
    ∀ time events reply events' reply', Advances h s time events reply →
      Advances h s time events' reply' → events = events' ∧ reply = reply' :=
  ⟨advances_add s h, fun time times _ _ => advancesAll_iff time times,
    fun _ _ _ _ _ hs hs' => hs.unique hs'⟩

/-- A process is a nap of so many milliseconds. -/
def naps : Host Nat Unit Unit where
  program :=
    { name := fun _ => "nap"
      define := fun ms => .script [.call .delay [.data (.ofNat ms)]]
      resume := fun state _ world => (.done .unit, state, world) }
  config := { maxSteps := 8 }

/-- Two naps have been begun, the longer one first. -/
def twoNaps : Scheduler Nat Unit Unit :=
  ((({ world := () } : Scheduler Nat Unit Unit).start naps 5 []).2.start naps 3 []).2

/-- Both naps end within six milliseconds, as they do when two pass and then four. -/
theorem advance_in_pieces_naps :
    ∃ events s, s.tasks.size = 0 ∧ Advances naps twoNaps 6 events (.ok (), s) ∧
      AdvancesAll naps twoNaps [2, 4] events (.ok (), s) ∧
      ∀ events' reply, Advances naps twoNaps 6 events' reply →
        events = events' ∧ (.ok (), s) = reply := by
  have hs : Advances naps twoNaps 6 _ (.ok (), _) := ⟨2, rfl, rfl⟩
  obtain ⟨-, hpieces, hunique⟩ := advance_in_pieces naps twoNaps
  exact ⟨_, _, rfl, hs, (hpieces 2 [4] _ _).2 hs, fun _ _ hs' => hunique _ _ _ _ _ hs hs'⟩

end CoopTasks.Scheduler
