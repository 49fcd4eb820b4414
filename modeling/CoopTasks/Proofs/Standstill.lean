import CoopTasks.Proofs.Budget
import CoopTasks.Proofs.Timers
import Mathlib.Data.List.Perm.Subperm

/-!
# Time that does not pass

While time passes, the run after each timer has a budget of its own, and nothing limits the number
of timers. A timer that is set for later brings the end nearer. One that is set without delay fires
at the same moment, and a process that goes on setting such timers keeps the clock where it is. So
it depends on those timers alone whether an advance ends: it does unless at some moment they are set
for ever.
-/

namespace CoopTasks

namespace Scheduler

variable {P R W : Type} {s s' : Scheduler P R W} {h : Host P R W} {ms : List (Move P)}
variable {log : List (Scheduler P R W × Move P)} {reply : Reply P R W Unit} {target : Nat}
variable {x y : Nat × OperationId} {now : Nat}

/-! ## Timers without delay -/

/-- The timers that are set in an entry of a log at this moment and are due at once. -/
def setAt (h : Host P R W) (now : Nat) (entry : Scheduler P R W × Move P) :
    List (Nat × OperationId) :=
  (entry.1.move h entry.2).pending.timers.filter fun x =>
    x ∉ entry.1.pending.timers ∧ x.1 = now ∧ entry.1.pending.clock = now

/-- The timers of a log that are set at this moment without delay. -/
def undelayed (h : Host P R W) (now : Nat) (log : List (Scheduler P R W × Move P)) :
    List (Nat × OperationId) :=
  log.flatMap (setAt h now)

/-- The timers that are due by the clock. -/
def pressing (s : Scheduler P R W) : List (Nat × OperationId) :=
  s.pending.timers.filter fun x => x.1 ≤ s.pending.clock

@[simp] theorem undelayed_append (log' : List (Scheduler P R W × Move P)) :
    undelayed h now (log ++ log') = undelayed h now log ++ undelayed h now log' :=
  List.flatMap_append

/-- What is due by the clock was there before, unless it is set without delay. -/
theorem mem_timers_of_undelayed (hms : ∀ m ∈ ms, time? m = none)
    (hnow : s.pending.clock = now) (hnone : undelayed h now (s.history h ms) = [])
    (hy : y ∈ (s.moves h ms).pending.timers) (hdue : y.1 ≤ now) : y ∈ s.pending.timers := by
  induction ms generalizing s with
  | nil => exact hy
  | cons m ms ih =>
    obtain ⟨hfirst, hrest⟩ := List.append_eq_nil_iff.1 hnone
    rcases proceeds_move s h m with hp | ⟨now', hclock, -⟩
    · have hms' : ∀ m' ∈ ms, time? m' = none := fun m' hm' => hms m' (List.mem_cons_of_mem _ hm')
      have hy := ih hms' (hp.clock.trans hnow) hrest hy
      by_contra hnew
      rcases hp.timers y hy with hold | ⟨-, hle⟩
      · exact hnew hold
      · have hset : y ∈ setAt h now (s, m) :=
          List.mem_filter.2 ⟨hy, decide_eq_true ⟨hnew, Nat.le_antisymm hdue (hnow ▸ hle), hnow⟩⟩
        rw [hfirst] at hset
        cases hset
    · rw [hms m List.mem_cons_self] at hclock
      cases hclock

/-- The timers that are set at this moment without delay when the first timer fires. -/
def undelayedOf (h : Host P R W) (now : Nat) (s : Scheduler P R W) (x : Nat × OperationId) :
    List (Nat × OperationId) :=
  undelayed h now ((s.expire x).history h ((s.expire x).completeTrail h ⟨x.2, .ok .unit⟩))

theorem Punctual.clock_fired (hs : Punctual s) (hdue : s.pending.due? target = some x)
    (hc : (s.expire x).complete h ⟨x.2, .ok .unit⟩ = reply) :
    reply.2.pending.clock = x.1 := by
  rw [← hc, (proceeds_complete _ h _).clock, hs.clock_due hdue]

/-- When a timer fires and none is set without delay, less is due than before, as long as the clock
stands still. -/
theorem Punctual.pressing_lt (hs : Punctual s) (hdue : s.pending.due? target = some x)
    (hc : (s.expire x).complete h ⟨x.2, .ok .unit⟩ = reply) (hclock : s.pending.clock = x.1)
    (hnone : undelayedOf h x.1 s x = []) : (pressing reply.2).length < (pressing s).length := by
  have hnow := hs.clock_fired hdue hc
  have hsub : x :: pressing reply.2 ⊆ pressing s := by
    refine List.cons_subset.2 ⟨?_, fun y hy => ?_⟩
    · exact List.mem_filter.2 ⟨(Pending.due?_spec hdue).1, decide_eq_true hclock.ge⟩
    · obtain ⟨hy, hdue'⟩ := List.mem_filter.1 hy
      have hy' : y.1 ≤ x.1 := hnow ▸ of_decide_eq_true hdue'
      rw [← hc, complete_moves] at hy
      have hold := mem_timers_of_undelayed (fun _ => time?_of_completeTrail) (hs.clock_due hdue)
        hnone hy hy'
      exact List.mem_filter.2 ⟨List.mem_of_mem_filter hold, decide_eq_true (hclock ▸ hy')⟩
  have hnodup : (x :: pressing reply.2).Nodup := by
    refine List.nodup_cons.2 ⟨fun hin => ?_, ?_⟩
    · exact Pending.not_earlier_self
        ((hs.past_complete hdue hc).later x (List.mem_filter.1 hin).1)
    · exact (List.Nodup.of_map _ (hs.complete hdue hc).sound.nodup_timers).filter _
  exact (List.subperm_of_subset hnodup hsub).length_le

/-! ## How long timers fire -/

/-- What happens when a timer fires, and then others, unless its run was in error. -/
theorem history_fireTrail {answer : Except HostError Unit}
    (hdue : s.pending.due? target = some x)
    (hc : (s.expire x).complete h ⟨x.2, .ok .unit⟩ = (answer, s')) (fuel : Nat) :
    s.history h (fireTrail h target (fuel + 1) s) = (s, .expire x) ::
      ((s.expire x).history h ((s.expire x).completeTrail h ⟨x.2, .ok .unit⟩) ++
        s'.history h (if answer.isOk then fireTrail h target fuel s' else [])) := by
  have hmove : s.move h (.expire x) = s.expire x := rfl
  conv_lhs => unfold fireTrail
  simp only [hdue, hc, history, hmove, history_append, ← complete_moves]
  cases answer <;> rfl

theorem undelayed_fired (hdue : s.pending.due? target = some x)
    (hc : (s.expire x).complete h ⟨x.2, .ok .unit⟩ = (.ok (), s')) (now fuel : Nat) :
    undelayed h now (s.history h (fireTrail h target (fuel + 1) s)) =
      undelayedOf h now s x ++ undelayed h now (s'.history h (fireTrail h target fuel s')) := by
  have hset : setAt h now (s, .expire x) = [] := List.filter_eq_nil_iff.2 fun y hy hnew =>
    (of_decide_eq_true hnew).1 (List.mem_of_mem_filter hy)
  rw [history_fireTrail hdue hc, undelayed, List.flatMap_cons, hset, List.nil_append,
    List.flatMap_append]
  rfl

/-- If at no moment timers are set without delay for ever, there is an end of all timers. -/
theorem Punctual.exists_fires {s : Scheduler P R W} (hs : Punctual s) (bound : Nat → Nat)
    (hbound : ∀ now fuel,
      (undelayed h now (s.history h (fireTrail h target fuel s))).length ≤ bound now) :
    ∃ ms reply, Fires h target s ms reply := by
  cases hdue : s.pending.due? target with
  | none => exact ⟨_, _, .done hdue⟩
  | some x =>
    cases hc : (s.expire x).complete h ⟨x.2, .ok .unit⟩ with
    | mk answer s' =>
      cases answer with
      | error e => exact ⟨_, _, .failed hdue hc⟩
      | ok u =>
        obtain ⟨hx, hle, -⟩ := Pending.due?_spec hdue
        have hs' : Punctual s' := hs.complete hdue hc
        have hclock : s'.pending.clock = x.1 := hs.clock_fired hdue hc
        have hsplit : ∀ now fuel, (undelayedOf h now s x).length +
            (undelayed h now (s'.history h (fireTrail h target fuel s'))).length ≤ bound now := by
          intro now fuel
          rw [← List.length_append, ← undelayed_fired hdue hc now fuel]
          exact hbound now (fuel + 1)
        obtain ⟨ms, reply, hfires⟩ := hs'.exists_fires
          (fun now => bound now - (undelayedOf h now s x).length)
          fun now fuel => Nat.le_sub_of_add_le' (hsplit now fuel)
        exact ⟨_, _, .fired hdue hc hfires⟩
-- the time that is left, then what may still be set without delay, then what is due by the clock
termination_by (target - s.pending.clock, bound s.pending.clock, (pressing s).length)
decreasing_by
  rw [hclock]
  rcases Nat.lt_or_eq_of_le (hs.timely x hx) with hlt | heq
  · exact Prod.Lex.left _ _ (Nat.sub_lt_sub_left (Nat.lt_of_lt_of_le hlt hle) hlt)
  · rw [heq]
    refine Prod.Lex.right _ ?_
    by_cases hnone : undelayedOf h x.1 s x = []
    · rw [hnone, List.length_nil, Nat.sub_zero]
      exact Prod.Lex.right _ (hs.pressing_lt hdue hc heq hnone)
    · have hpos := List.length_pos_iff.2 hnone
      have hfirst := hsplit x.1 0
      exact Prod.Lex.left _ _ (by omega)

/-- However many timers are fired, they are the first of those that fire in the end. -/
theorem Fires.cut_short (hfires : Fires h target s ms reply) (fuel : Nat) :
    fireTrail h target fuel s <+: ms := by
  induction hfires generalizing fuel with
  | done hdue =>
    unfold fireTrail
    simp [hdue]
  | failed hdue hc =>
    unfold fireTrail
    cases fuel <;> simp [hdue, hc]
  | fired hdue hc _ ih =>
    unfold fireTrail
    cases fuel with
    | zero => simp [hdue]
    | succ fuel =>
      simp only [hdue, hc, List.cons_append]
      exact List.cons_prefix_cons.2 ⟨rfl, (List.prefix_append_right_inj _).2 (ih fuel)⟩

theorem length_undelayed_le {ms' : List (Move P)} (hms : ms <+: ms') :
    (undelayed h now (s.history h ms)).length ≤ (undelayed h now (s.history h ms')).length := by
  obtain ⟨rest, rfl⟩ := hms
  rw [history_append, undelayed_append, List.length_append]
  exact Nat.le_add_right _ _

/-- All timers that are due fire, unless at some moment timers are set without delay for ever. -/
theorem Punctual.fires_iff (hs : Punctual s) :
    (∃ ms reply, Fires h target s ms reply) ↔ ∀ now, ∃ bound, ∀ fuel,
      (undelayed h now (s.history h (fireTrail h target fuel s))).length ≤ bound := by
  constructor
  · rintro ⟨ms, reply, hfires⟩ now
    exact ⟨_, fun fuel => length_undelayed_le (hfires.cut_short fuel)⟩
  · intro hbounds
    choose bound hbound using hbounds
    exact hs.exists_fires bound hbound

/-- After a run that ends well an advance fires timers. -/
theorem isSome_advance_iff {r : Scheduler P R W} (hrun : s.run h = (.ok (), r)) (time : Nat) :
    (∃ fuel, (s.advance h time fuel).isSome) ↔
      ∃ ms reply, Fires h (r.pending.clock + time) r ms reply := by
  simp only [advance, hrun]
  constructor
  · rintro ⟨fuel, hsome⟩
    obtain ⟨reply, hreply⟩ := Option.isSome_iff_exists.1 hsome
    exact ⟨_, reply, fires_of_fireTimers _ fuel r hreply⟩
  · rintro ⟨ms, reply, hfires⟩
    obtain ⟨fuel, hreply, -⟩ := hfires.exists_fuel
    exact ⟨fuel, by rw [hreply]; rfl⟩

/-- An advance comes to an end, unless at some moment timers are set without delay for ever. -/
theorem Punctual.advance_iff (hs : Punctual s) (time : Nat) :
    (∃ fuel, (s.advance h time fuel).isSome) ↔ ∀ now, ∃ bound, ∀ fuel,
      (undelayed h now (s.history h (s.trail h (.advance time fuel)))).length ≤ bound := by
  have hend := hs.proceeds (proceeds_run s h)
  have hstate := run_moves s h
  cases hrun : s.run h with
  | mk answer r =>
    rw [hrun] at hend hstate
    cases answer with
    | error e =>
      have htrail : ∀ fuel, s.trail h (.advance time fuel) = s.runTrail h := fun fuel => by
        simp only [trail, hrun, List.append_nil]
      simp only [advance, hrun, htrail, Option.isSome_some, exists_const, true_iff]
      exact fun now => ⟨_, fun _ => Nat.le_refl _⟩
    | ok u =>
      -- what the run sets before the first timer fires counts once
      have hsum : ∀ now fuel,
          (undelayed h now (s.history h (s.trail h (.advance time fuel)))).length =
            (undelayed h now (s.history h (s.runTrail h))).length +
              (undelayed h now
                (r.history h (fireTrail h (r.pending.clock + time) fuel r))).length := by
        intro now fuel
        simp only [trail, hrun, history_append, undelayed_append, List.length_append, ← hstate]
      rw [isSome_advance_iff hrun, hend.fires_iff]
      simp only [hsum]
      refine forall_congr' fun now => ⟨?_, ?_⟩
      · rintro ⟨bound, hbound⟩
        exact ⟨_, fun fuel => Nat.add_le_add_left (hbound fuel) _⟩
      · rintro ⟨bound, hbound⟩
        exact ⟨bound, fun fuel => Nat.le_trans (Nat.le_add_left _ _) (hbound fuel)⟩

/-! ## Steps of a call -/

theorem turns_runTrail (hs : s.fault = none) (h : Host P R W) :
    (turns (s.history h (s.runTrail h))).length ≤ h.config.maxSteps :=
  turns_runWithin hs h _

theorem turns_completeTrail (hs : s.fault = none) (h : Host P R W) (c : Completion) :
    (turns (s.history h (s.completeTrail h c))).length ≤ h.config.maxSteps := by
  have hfault : (s.applyCompletion c).2.fault = none :=
    (congrArg Prod.fst (reports_applyCompletion s c)).trans hs
  have hmove : s.move h (.deliver c) = (s.applyCompletion c).2 := rfl
  have hserved : served? (s, (.deliver c : Move P)) = none := rfl
  rw [completeTrail, history, hmove, turns_cons, hserved, Option.toList_none, List.nil_append]
  cases happly : s.applyCompletion c with
  | mk answer r =>
    rw [happly] at hfault
    cases answer with
    | error e => exact Nat.zero_le _
    | ok u => exact turns_runTrail hfault h

theorem turns_fireTrail (hs : s.fault = none) (h : Host P R W) (target fuel : Nat) :
    (turns (s.history h (fireTrail h target fuel s))).length ≤ fuel * h.config.maxSteps := by
  induction fuel generalizing s with
  | zero =>
    unfold fireTrail
    cases hdue : s.pending.due? target <;> exact Nat.zero_le _
  | succ fuel ih =>
    cases hdue : s.pending.due? target with
    | none =>
      unfold fireTrail
      simp [hdue, history, turns_cons, served?]
    | some x =>
      cases hc : (s.expire x).complete h ⟨x.2, .ok .unit⟩ with
      | mk answer r =>
        have hset : (s.expire x).fault = none := hs
        have hfirst := turns_completeTrail hset h ⟨x.2, .ok .unit⟩
        have hfault := fault_moves hset h ((s.expire x).completeTrail h ⟨x.2, .ok .unit⟩)
        rw [← complete_moves, hc] at hfault
        have hrest : (turns (r.history h
            (if answer.isOk then fireTrail h target fuel r else []))).length ≤
              fuel * h.config.maxSteps := by
          cases answer with
          | error e => exact Nat.zero_le _
          | ok u => exact ih hfault
        have hserved : served? (s, (.expire x : Move P)) = none := rfl
        rw [history_fireTrail hdue hc, turns_cons, hserved, Option.toList_none, List.nil_append,
          turns_append, List.length_append, Nat.succ_mul, Nat.add_comm]
        exact Nat.add_le_add hrest hfirst

/-- The number of timers that a call may fire. -/
def timersOf : Call P → Nat
  | .advance _ fuel => fuel
  | _ => 0

/-- Every run of a call has a budget of its own: there is one in the beginning, and one after every
timer. -/
theorem turns_trail (hs : s.fault = none) (h : Host P R W) (call : Call P) :
    (turns (s.history h (s.trail h call))).length ≤ (timersOf call + 1) * h.config.maxSteps := by
  have hrun : ∀ {r : Scheduler P R W} {m : Move P}, served? (s, m) = none → s.move h m = r →
      (turns (s.history h (m :: r.runTrail h))).length ≤ (0 + 1) * h.config.maxSteps := by
    intro r m hserved hr
    have hfault := fault_move hs h m
    rw [history, turns_cons, hserved, Option.toList_none, List.nil_append, hr, Nat.zero_add,
      Nat.one_mul]
    rw [hr] at hfault
    exact turns_runTrail hfault h
  cases call with
  | start process args => exact hrun rfl rfl
  | notify n => exact hrun rfl rfl
  | complete c => simpa [timersOf, trail] using turns_completeTrail hs h c
  | run => simpa [timersOf, trail] using turns_runTrail hs h
  | cancel id =>
    simp only [trail]
    split
    · exact hrun rfl rfl
    · split
      · simpa [timersOf] using turns_runTrail hs h
      · exact Nat.zero_le _
  | advance time fuel =>
    have hfirst := turns_runTrail hs h
    have hfault := fault_moves hs h (s.runTrail h)
    rw [trail, history_append, turns_append, List.length_append, timersOf, Nat.succ_mul,
      Nat.add_comm]
    refine Nat.add_le_add ?_ hfirst
    rw [← run_moves] at hfault ⊢
    cases hr : s.run h with
    | mk answer r =>
      rw [hr] at hfault
      cases answer with
      | error e => exact Nat.zero_le _
      | ok u => exact turns_fireTrail hfault h _ fuel

/-- A call takes no more steps than the budget allows for the run it begins with and for the run
after each of the timers that it fires. All calls but an advance come to an answer, and an advance
does so if and only if there is no moment at which timers are set without delay for ever. -/
theorem Session.returns (session : Session h log s) :
    (∀ call, (turns (s.history h (s.trail h call))).length ≤
      (timersOf call + 1) * h.config.maxSteps) ∧
    (∀ call, (∀ time fuel, call ≠ .advance time fuel) → (s.perform h call).isSome) ∧
    ∀ time, (∃ fuel, (s.advance h time fuel).isSome) ↔ ∀ now, ∃ bound, ∀ fuel,
      (undelayed h now (s.history h (s.trail h (.advance time fuel)))).length ≤ bound := by
  refine ⟨turns_trail session.run.fault h, fun call hcall => ?_, session.punctual.advance_iff⟩
  cases call with
  | advance time fuel => exact absurd rfl (hcall time fuel)
  | _ => rfl

/-- Naps are not without delay, so time passes. -/
theorem returns_naps :
    ∃ log, Session naps log twoNaps ∧ (∃ fuel, (twoNaps.advance naps 6 fuel).isSome) ∧
      ∀ now, ∃ bound, ∀ fuel, (undelayed naps now
        (twoNaps.history naps (twoNaps.trail naps (.advance 6 fuel)))).length ≤ bound := by
  have hnew : Session naps [] ({ world := () } : Scheduler Nat Unit Unit) := .new rfl
  have hfirst := hnew.call (.start 5 []) rfl
  have session := hfirst.call (.start 3 []) rfl
  have hreturns : ∃ fuel, (twoNaps.advance naps 6 fuel).isSome := ⟨2, rfl⟩
  exact ⟨_, session, hreturns, (session.returns.2.2 6).1 hreturns⟩

/-! ## A process that never rests -/

/-- Its process waits for no time, over and over. -/
def restless : Host Unit Unit Unit where
  program :=
    { name := fun _ => "restless"
      define := fun _ => .routine fun _ world => ((), world)
      resume := fun state _ world => (.yield (.call .delay [.data (.ofNat 0)]), state, world) }
  config := { maxSteps := 8 }

def restlessTask (status : Status) (wait : Wait) : Task Unit Unit Unit :=
  { name := "restless", parent := none, role := .root, process := some (.routine ()), status, wait }

/-- The timer with this number is set. -/
def restlessAt (n : Nat) : Scheduler Unit Unit Unit :=
  { tasks := ⟨[(⟨1⟩, restlessTask .waiting (.operation ⟨n⟩))]⟩
    pending := { awaited := ⟨[(⟨n⟩, ⟨1⟩)]⟩, timers := [(0, ⟨n⟩)], nextId := n + 1 }
    nextTask := 2
    world := () }

/-- The timer has fired, and the next one will have this number. -/
def restlessBefore (n : Nat) : Scheduler Unit Unit Unit :=
  { tasks := ⟨[(⟨1⟩, restlessTask .running .nothing)]⟩
    queue := [(⟨1⟩, .value .unit)]
    pending := { nextId := n }
    nextTask := 2
    world := () }

theorem applyCompletion_restlessAt (n : Nat) :
    ((restlessAt n).expire (0, ⟨n⟩)).applyCompletion ⟨⟨n⟩, .ok .unit⟩ =
      (.ok (), restlessBefore (n + 1)) := by
  simp [restlessAt, restlessBefore, restlessTask, expire, Pending.expire, Pending.setClock,
    applyCompletion, Table.find?, wait?, task?, wakeLast, makeReady, updateTask, enqueueLast,
    Pending.discard, Table.erase, Table.modify, Table.empty, Input.ofResult]

theorem complete_restlessAt (n : Nat) :
    ((restlessAt n).expire (0, ⟨n⟩)).complete restless ⟨⟨n⟩, .ok .unit⟩ =
      (.ok (), restlessAt (n + 1)) := by
  have hrun : (restlessBefore (n + 1)).run restless = (.ok (), restlessAt (n + 1)) := rfl
  rw [complete_eq (applyCompletion_restlessAt n), hrun]

theorem due?_restlessAt (target n : Nat) :
    (restlessAt n).pending.due? target = some (0, ⟨n⟩) :=
  Option.filter_eq_some_iff.2 ⟨rfl, decide_eq_true (Nat.zero_le target)⟩

theorem fireTimers_restlessAt (target fuel n : Nat) :
    fireTimers restless target fuel (restlessAt n) = none := by
  induction fuel generalizing n with
  | zero =>
    unfold fireTimers
    simp [due?_restlessAt]
  | succ fuel ih =>
    unfold fireTimers
    simp only [due?_restlessAt, complete_restlessAt, ih]

/-- No time passes any more, not even none, however many timers are fired. -/
theorem not_always_returns :
    ∃ log, Session restless log (restlessAt 1) ∧
      ∀ time fuel, (restlessAt 1).advance restless time fuel = none := by
  have hnew : Session restless [] ({ world := () } : Scheduler Unit Unit Unit) := .new rfl
  have session := hnew.call (.start () []) rfl
  have hrun : (restlessAt 1).run restless = (.ok (), restlessAt 1) := rfl
  refine ⟨_, session, fun time fuel => ?_⟩
  simp only [advance, hrun]
  exact fireTimers_restlessAt _ fuel 1

end Scheduler

end CoopTasks
