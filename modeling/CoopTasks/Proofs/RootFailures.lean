import CoopTasks.Proofs.Faults
import CoopTasks.Proofs.Records
import CoopTasks.Proofs.Roles

/-!
# Failures of roots

A root that settles with a failure is entered into the list that the host drains, and nothing else
is. So what the host has drained and what is still to be drained are together the failures of the
roots, in the order in which they settled, however the failures came about and whenever the host
drained the list.
-/

namespace CoopTasks

/-- What the host is told of a departure: the failure of a root. -/
def Departure.rootFailure? {P R W : Type} (d : Departure P R W) : Option Unhandled :=
  match d.task.role with
  | .root => d.record.failure?.map fun e => ⟨d.id, d.task.name, e⟩
  | _ => none

theorem Settlement.failure?_eq_some {record : Settlement} {e : TaskError} :
    record.failure? = some e ↔ record.status = .failed ∧ record.result = .error e := by
  unfold failure?
  split
  · rename_i hstatus hresult
    simp [hstatus, hresult, eq_comm]
  · rename_i hother
    simp only [reduceCtorEq, false_iff, not_and]
    exact fun hstatus => hother e hstatus

/-- The host is told of the tasks that have the role of a root and have failed. -/
theorem Departure.rootFailure?_eq_some {P R W : Type} {d : Departure P R W} {u : Unhandled} :
    d.rootFailure? = some u ↔ d.task.role = .root ∧ d.record.status = .failed ∧
      d.record.result = .error u.error ∧ u.task = d.id ∧ u.name = d.task.name := by
  unfold rootFailure?
  cases d.task.role with
  | root =>
    simp only [Option.map_eq_some_iff, Settlement.failure?_eq_some, true_and]
    constructor
    · rintro ⟨e, ⟨hstatus, hresult⟩, rfl⟩
      exact ⟨hstatus, hresult, rfl, rfl⟩
    · obtain ⟨id, name, e⟩ := u
      rintro ⟨hstatus, hresult, rfl, rfl⟩
      exact ⟨e, ⟨hstatus, hresult⟩, rfl⟩
  | _ => simp

namespace Scheduler

variable {P R W : Type} {s s' : Scheduler P R W} {h : Host P R W}
variable {A : Set TaskId} {D : List (Departure P R W)} {d : Departure P R W}
variable {log : List (Scheduler P R W × Move P)} {id : TaskId}

/-! ## What is entered -/

theorem unhandled_deliver (s : Scheduler P R W) (t : Task P R W) (record : Settlement) :
    (s.deliver t record).unhandled = s.unhandled ++ (match t.role with
      | .root => record.failure?.map fun e => (⟨record.task, t.name, e⟩ : Unhandled)
      | _ => none).toList := by
  have hwake : ∀ caller, (s.wakeIfWaiting caller (.call record.task) record.answer).unhandled =
      s.unhandled := fun caller => congrArg Prod.snd (reports_wakeIfWaiting ..)
  have habort : ∀ parent e, (s.abort parent e).unhandled = s.unhandled :=
    fun parent e => congrArg Prod.snd (reports_abort ..)
  have hbranch : ∀ g slot, (s.settleBranch g slot record.result).unhandled = s.unhandled :=
    fun g slot => congrArg Prod.snd (reports_settleBranch ..)
  unfold deliver
  cases t.role with
  | root => cases record.failure? <;> simp
  | forked =>
    cases t.parent <;> cases record.failure? <;> dsimp only <;> first
      | exact (List.append_nil _).symm
      | split <;> simp [habort]
  | branch g slot =>
    dsimp only
    split <;> simp [hbranch]
  | called => cases t.parent <;> simp [hwake]

/-- A departure enters the failure of a root, and leaves the list alone otherwise. -/
theorem unhandled_after (d : Departure P R W) (h : Host P R W) :
    (d.after h).unhandled = d.before.unhandled ++ d.rootFailure?.toList := by
  have hfiled : (d.filed h).unhandled = d.before.unhandled := congrArg Prod.snd (reports_filed d h)
  rw [d.after_eq, unhandled_deliver, hfiled]
  rfl

theorem unhandled_climb (h : Host P R W) (fuel : Nat) (id : TaskId) (s : Scheduler P R W) :
    (settleWithin h fuel id s).unhandled =
      s.unhandled ++ (climb h fuel id s).filterMap Departure.rootFailure? := by
  induction fuel generalizing id s with
  | zero => exact (List.append_nil _).symm
  | succ fuel ih =>
    unfold settleWithin climb
    cases ht : s.task? id with
    | none => exact (List.append_nil _).symm
    | some t =>
      have hretire : (s.retire h id t).unhandled =
          s.unhandled ++ (Departure.rootFailure? ⟨s, id, t⟩).toList := unhandled_after ⟨s, id, t⟩ h
      by_cases hd : t.isDone
      · cases hparent : t.parent with
        | none =>
          simp only [hd, hparent, if_true, hretire]
          cases hfail : Departure.rootFailure? ⟨s, id, t⟩ <;> simp [hfail]
        | some parent =>
          simp only [hd, hparent, if_true, ih, hretire]
          cases hfail : Departure.rootFailure? ⟨s, id, t⟩ <;> simp [hfail]
      · simp [hd]

theorem unhandled_finish (s : Scheduler P R W) (h : Host P R W) (id : TaskId) (outcome : Outcome) :
    (s.finish h id outcome).unhandled =
      s.unhandled ++ (s.finishClimb h id outcome).filterMap Departure.rootFailure? := by
  have hraise : (s.raiseOf id outcome).unhandled = s.unhandled := by
    unfold raiseOf
    split <;> rfl
  unfold finish finishClimb
  cases s.task? id with
  | none => simpa using hraise
  | some t =>
    refine (unhandled_climb h _ id _).trans (congrArg (· ++ _) ?_)
    exact (congrArg Prod.snd (reports_cancelSubtrees _ _)).trans hraise

theorem unhandled_dispatch (s : Scheduler P R W) (h : Host P R W) (id : TaskId)
    (effect : Effect P W) : (s.dispatch h id effect).unhandled =
      s.unhandled ++ (s.dispatchClimb h id effect).filterMap Departure.rootFailure? := by
  have hnote : (s.note h id effect).unhandled = s.unhandled :=
    congrArg Prod.snd (reports_note s h id effect)
  unfold dispatch dispatchClimb violate
  cases effect.violation? with
  | some violation => exact unhandled_finish s h id _
  | none =>
    dsimp only
    cases hs : (s.note h id effect).carryOut h id effect with
    | ok s' =>
      have hkept : s'.unhandled = s.unhandled :=
        (congrArg Prod.snd (reports_carryOut hs)).trans hnote
      simpa using hkept
    | error violation =>
      rw [← hnote]
      exact unhandled_finish _ h id _

theorem unhandled_step (s : Scheduler P R W) (h : Host P R W) (id : TaskId) (input : Input) :
    (s.step h id input).unhandled =
      s.unhandled ++ (s.stepClimb h id input).filterMap Departure.rootFailure? := by
  unfold step stepClimb
  cases s.task? id with
  | none => simp
  | some t =>
    cases hp : t.process with
    | none => simp [hp]
    | some process =>
      simp only [hp]
      obtain ⟨answer, process', world⟩ := process.step h.program.resume input s.world
      cases answer with
      | yield effect => exact unhandled_dispatch _ h id effect
      | done v => exact unhandled_finish _ h id _
      | failed e => exact unhandled_finish _ h id _

/-! ## What the host is told -/

/-- What is drained in an entry of a log. -/
def drainedAt (entry : Scheduler P R W × Move P) : List Unhandled :=
  match entry.2 with
  | .takeUnhandled => entry.1.takeUnhandled.1
  | _ => []

/-- What the host drained in a log, one time after the other. -/
def drained (log : List (Scheduler P R W × Move P)) : List Unhandled := log.flatMap drainedAt

/-- What the host has drained, and what it may still drain. -/
def toldFailures (log : List (Scheduler P R W × Move P)) (s : Scheduler P R W) : List Unhandled :=
  drained log ++ s.unhandled

/-- A move hands over the whole list or none of it, and adds the failures of the roots that settle
in it. -/
theorem unhandled_move (s : Scheduler P R W) (h : Host P R W) (m : Move P) :
    drainedAt (s, m) ++ (s.move h m).unhandled =
      s.unhandled ++ (s.departures h m).filterMap Departure.rootFailure? := by
  by_cases hm : m = .step
  · subst hm
    cases hq : s.queue with
    | nil => simp [move_step_nil h hq, departures, hq, drainedAt]
    | cons entry rest =>
      obtain ⟨id, input⟩ := entry
      have htake : ∀ r : Scheduler P R W, r.takeFault.2.unhandled = r.unhandled := fun r => by
        unfold takeFault
        split <;> rfl
      rw [move_step_cons h hq, htake, unhandled_step]
      simp [departures, hq, drainedAt]
  · have hnone : s.departures h m = [] := by cases m <;> first | rfl | exact absurd rfl hm
    rw [hnone]
    by_cases hm' : m = .takeUnhandled
    · subst hm'
      rfl
    · have hsame : (s.move h m).unhandled = s.unhandled :=
        congrArg Prod.snd (reports_move s h hm hm')
      have hdrained : drainedAt (s, m) = [] := by
        cases m <;> first | rfl | exact absurd rfl hm'
      rw [hsame, hdrained]
      exact (List.append_nil _).symm

theorem Run.toldFailures_eq (run : Run h log s) :
    toldFailures log s = (settlements h log).filterMap Departure.rootFailure? := by
  induction run with
  | new hs =>
    obtain rfl := eq_of_new hs
    rfl
  | @move log s run m ih =>
    rw [settlements_append, List.filterMap_append, ← ih]
    simp only [toldFailures, drained, List.flatMap_append, List.flatMap_singleton,
      List.append_assoc, unhandled_move]
    simp

/-! ## Roots -/

/-- The task has the role and the parent that it had in an earlier state. -/
def Seated (id : TaskId) (s s' : Scheduler P R W) : Prop :=
  s.nextTask ≤ s'.nextTask ∧ ∀ t', s'.task? id = some t' →
    ∃ t, s.task? id = some t ∧ t'.role = t.role ∧ t'.parent = t.parent

theorem Seated.steady {r : Scheduler P R W} (hp : Seated id s r) (hid : id.val < s.nextTask)
    (hs : Steady A r s') : Seated id s s' := by
  refine ⟨Nat.le_trans hp.1 hs.next, fun t' ht' => ?_⟩
  cases hu : r.task? id with
  | none => exact absurd (hs.came id t' ht' hu).1 (Nat.not_le.2 (Nat.lt_of_lt_of_le hid hp.1))
  | some u =>
    obtain ⟨v, hv, hkept⟩ := hs.stays id u hu
    obtain rfl := Option.some.inj (ht'.symm.trans hv)
    obtain ⟨t, ht, hrole, hparent⟩ := hp.2 u hu
    exact ⟨t, ht, hkept.role.trans hrole, hkept.parent.trans hparent⟩

theorem Seated.leave (hp : Seated id s d.before) : Seated id s (d.after h) := by
  refine ⟨by rw [nextTask_after]; exact hp.1, fun t' ht' => ?_⟩
  obtain ⟨-, u, hu, hrole, hparent, -⟩ := find_of_after d h ht'
  obtain ⟨t, ht, hrole', hparent'⟩ := hp.2 u hu
  exact ⟨t, ht, hrole.trans hrole', hparent.trans hparent'⟩

/-- A task keeps its role and its parent on a course. -/
theorem Course.seated (hcourse : Course h A s D s') (hid : id.val < s.nextTask) :
    Seated id s s' :=
  hcourse.preserves (K := fun _ r => Seated id s r) (D := [])
    (fun hp hchange => hp.steady hid hchange.changed.toSteady)
    (fun hp ht hl _ => hp.steady (A := ∅) hid (steady_startGroup ht hl _ _))
    (fun hp _ => hp.leave) ⟨Nat.le_refl _, fun t' ht' => ⟨t', ht', rfl, rfl⟩⟩

/-- Of a task that leaves the host is told once at most. -/
theorem rootFailures_sublist (D : List (Departure P R W)) :
    ((D.filterMap Departure.rootFailure?).map Unhandled.task).Sublist (D.map Departure.id) := by
  induction D with
  | nil => exact .slnil
  | cons d D ih =>
    cases hfail : d.rootFailure? with
    | none =>
      rw [List.filterMap_cons_none hfail]
      exact ih.cons _
    | some u =>
      obtain ⟨-, -, -, hid, -⟩ := Departure.rootFailure?_eq_some.1 hfail
      rw [List.filterMap_cons_some hfail, List.map_cons, List.map_cons, hid]
      exact ih.cons_cons _

/-- The tasks that leave without a parent are the roots. -/
theorem Run.root_iff_of_departure (run : Run h log s) (hd : d ∈ settlements h log) :
    d.task.parent = none ↔ d.task.role = .root := by
  obtain ⟨⟨q, m⟩, he, hd⟩ := List.mem_flatMap.1 hd
  obtain ⟨before, after, -, hrun⟩ := run.of_mem _ he
  obtain ⟨D, D', hD⟩ := List.append_of_mem hd
  obtain ⟨hcourse, hleaving, -⟩ := (hrun.course m).split D' hD
  have hpopped : (q.popped m).nextTask = q.nextTask ∧
      (q.popped m).task? d.id = q.task? d.id := by cases m <;> exact ⟨rfl, rfl⟩
  have hid : d.id.val < (q.popped m).nextTask := by
    rw [hpopped.1, ← (nextTask_same hd).1]
    exact hleaving.forest.fresh d.id (by simp [isLive_eq, hleaving.found])
  obtain ⟨t, ht, hrole, hparent⟩ := (hcourse.seated hid).2 _ hleaving.found
  rw [hpopped.2] at ht
  rw [hrole, hparent, hrun.root_iff ht]

/-- In every run the host has been told, or will be when it drains the list, of every root that has
settled as failed, once, in the order of settlement, with the error that is its result, and of no
other task. Roots are the tasks that have no parent, so of the failure of another task the host is
told only as far as it is passed on to a root. -/
theorem Run.roots_told (run : Run h log s) :
    toldFailures log s = (settlements h log).filterMap Departure.rootFailure? ∧
      ((toldFailures log s).map Unhandled.task).Nodup ∧
      (∀ d ∈ settlements h log, (d.task.role = .root ↔ d.task.parent = none) ∧
        ∀ u, d.rootFailure? = some u ↔ d.task.role = .root ∧ d.record.status = .failed ∧
          d.record.result = .error u.error ∧ u.task = d.id ∧ u.name = d.task.name) ∧
      ∀ u ∈ toldFailures log s, ∀ outcome, s.result? u.task = some outcome →
        outcome = .error u.error := by
  have htold := run.toldFailures_eq
  refine ⟨htold, ?_, fun d hd => ⟨(run.root_iff_of_departure hd).symm,
    fun u => Departure.rootFailure?_eq_some⟩, fun u hu outcome hresult => ?_⟩
  · rw [htold]
    exact run.roster.once.sublist (rootFailures_sublist _)
  · rw [htold] at hu
    obtain ⟨d, hd, hfail⟩ := List.mem_filterMap.1 hu
    obtain ⟨-, -, herror, hid, -⟩ := Departure.rootFailure?_eq_some.1 hfail
    obtain ⟨D, D', hD⟩ := List.append_of_mem hd
    rw [result?, hid, run.settled?_of_split hD] at hresult
    split at hresult
    · exact (Option.some.inj hresult).symm.trans herror
    · cases hresult

/-- A breaker that fails as a root, and a forker that is torn down for the breaker it has forked. -/
def breakdowns : List (Move Play) :=
  [.enroll .breaker [], .step, .takeUnhandled, .enroll .forker [], .step, .step, .step, .step]

/-- Three tasks have failed. The host drained the failure of the breaker that is a root, and finds
the one of the forker when it drains the list again; of the other breaker it is not told. -/
theorem roots_told_breakdowns :
    let log := history { world := () } stage breakdowns
    ((settlements stage log).map fun d => (d.id, d.record.status)) =
        [(⟨1⟩, .failed), (⟨3⟩, .failed), (⟨2⟩, .failed)] ∧
      drained log ++ (stageAfter breakdowns).unhandled =
        [⟨⟨1⟩, "play", .protocol (.unknownTask ⟨0⟩)⟩,
          ⟨⟨2⟩, "play", .protocol (.unknownTask ⟨0⟩)⟩] ∧
      (drained log).length = 1 :=
  ⟨rfl, (stageAfter_run breakdowns).roots_told.1, rfl⟩

end Scheduler

end CoopTasks
