import CoopTasks.Proofs.Coherence.Moves

/-!
# Quiescence

A call that ends well leaves nothing queued, and every task suspended that has not stranded. A task
strands when it is being cancelled and cancels itself or an ancestor: the signal that should resume
it has been delivered before, so it stays live and running for good, and what is above it can never
settle.
-/

namespace CoopTasks.Scheduler

variable {P R W : Type} {s s' : Scheduler P R W} {h : Host P R W}
variable {log : List (Scheduler P R W × Move P)}

/-- Nothing is left for a run. -/
def Idle (s : Scheduler P R W) : Prop := s.queue = [] ∧ s.pending.inbox = []

theorem inbox_of_applyAll (cs : List Completion) (hcs : s.pending.inbox = cs)
    (happly : s.applyAll cs = (.ok (), s')) : s'.pending.inbox = [] := by
  induction cs generalizing s with
  | nil => cases happly; exact hcs
  | cons c rest ih =>
    simp only [applyAll] at happly
    have hrest := inbox_receive s c rest
    cases hr : s.receive c rest with
    | mk reply r =>
      rw [hr] at happly hrest
      cases reply with
      | error e => cases happly
      | ok u => exact ih hrest happly

theorem idle_of_runWithin (h : Host P R W) (limit left : Nat) (s : Scheduler P R W)
    (hrun : runWithin h limit left s = (.ok (), s')) : Idle s' := by
  have hinbox : ∀ {s r : Scheduler P R W} {u : Unit}, s.applyInbox = (.ok u, r) →
      r.pending.inbox = [] := fun happly => inbox_of_applyAll _ rfl happly
  induction left generalizing s with
  | zero =>
    simp only [runWithin] at hrun
    cases ha : s.applyInbox with
    | mk reply r =>
      rw [ha] at hrun
      cases reply with
      | error e => cases hrun
      | ok u =>
        by_cases hq : r.queue.isEmpty
        · simp only [hq, if_true] at hrun
          cases hrun
          exact ⟨List.isEmpty_iff.1 hq, hinbox ha⟩
        · simp [hq] at hrun
  | succ left ih =>
    simp only [runWithin] at hrun
    cases ha : s.applyInbox with
    | mk reply r =>
      rw [ha] at hrun
      cases reply with
      | error e => cases hrun
      | ok u =>
        cases hstep : r.stepNext? h with
        | none =>
          have hqueue : r.queue = [] := by
            cases hq : r.queue with
            | nil => rfl
            | cons entry rest => simp [stepNext?, hq] at hstep
          simp only [hstep] at hrun
          cases hrun
          exact ⟨hqueue, hinbox ha⟩
        | some next =>
          obtain ⟨reply, r'⟩ := next
          simp only [hstep] at hrun
          cases reply with
          | error e => cases hrun
          | ok u => exact ih r' hrun

theorem idle_of_run (hrun : s.run h = (.ok (), s')) : Idle s' :=
  idle_of_runWithin h _ _ s hrun

theorem idle_of_complete {c : Completion} (hcall : s.complete h c = (.ok (), s')) : Idle s' := by
  unfold complete at hcall
  split at hcall
  · exact idle_of_run hcall
  · cases hcall

theorem idle_of_fireTimers (target fuel : Nat) (s : Scheduler P R W) (hs : Idle s)
    (hfire : fireTimers h target fuel s = some (.ok (), s')) : Idle s' := by
  induction fuel generalizing s with
  | zero =>
    unfold fireTimers at hfire
    cases hdue : s.pending.due? target with
    | none => simp only [hdue, Option.some.injEq] at hfire; cases hfire; exact hs
    | some timer => simp [hdue] at hfire
  | succ fuel ih =>
    unfold fireTimers at hfire
    cases hdue : s.pending.due? target with
    | none => simp only [hdue, Option.some.injEq] at hfire; cases hfire; exact hs
    | some timer =>
      simp only [hdue] at hfire
      cases hc : (s.expire timer).complete h ⟨timer.2, .ok .unit⟩ with
      | mk answer r =>
        rw [hc] at hfire
        cases answer with
        | error e => cases hfire
        | ok u => exact ih r (idle_of_complete hc) hfire

/-- A call that ends well leaves nothing for a run. -/
theorem idle_of_perform {call : Call P} (hcall : s.perform h call = some (.ok (), s')) :
    Idle s' := by
  cases call with
  | start process args => exact idle_of_run (Option.some.inj hcall)
  | notify n => exact idle_of_run (Option.some.inj hcall)
  | complete c => exact idle_of_complete (Option.some.inj hcall)
  | run => exact idle_of_run (Option.some.inj hcall)
  | cancel id =>
    have hcancel := Option.some.inj hcall
    unfold cancelTask at hcancel
    split at hcancel
    · exact idle_of_run hcancel
    · split at hcancel
      · exact idle_of_run hcancel
      · cases hcancel
  | advance ms fuel =>
    simp only [perform, advance] at hcall
    cases hr : s.run h with
    | mk answer r =>
      rw [hr] at hcall
      cases answer with
      | error e => cases hcall
      | ok u => exact idle_of_fireTimers _ fuel r (idle_of_run hr) hcall

/-- With nothing queued a task is suspended, unless it is lost. -/
theorem Coherent.suspended_iff {L : Set TaskId} (hc : Coherent s L ∅) (hq : s.queue = [])
    {id : TaskId} {t : Task P R W} (ht : s.task? id = some t) :
    t.status = .waiting ∧ t.wait ≠ .nothing ↔ id ∉ L := by
  constructor
  · rintro ⟨-, hwait⟩
    exact hc.not_lost_of_wait (by simp [wait?, ht]) hwait
  · intro hid
    have hne : t.wait ≠ .nothing := by
      intro hwait
      have hplace := (hc.home id hid (by simp)).place .nothing
      simp [waiters, hq, wait?, ht, hwait, Wait.isListed] at hplace
    exact ⟨(hc.fit id t ht).status hne, hne⟩

/-- After a call that ends well nothing is queued, and a live task is suspended if and only if it
never cancelled itself or an ancestor while it was being cancelled. One that did stays live, running
and out of the queue. -/
theorem Run.quiescent (run : Run h log s) (call : Call P)
    (hcall : s.perform h call = some (.ok (), s')) :
    s'.queue = [] ∧ s'.pending.inbox = [] ∧
      (∀ id t, s'.task? id = some t → (t.status = .waiting ∧ t.wait ≠ .nothing ↔
        ¬Stranded h (log ++ s.history h (s.trail h call)) id)) ∧
      ∀ id, Stranded h (log ++ s.history h (s.trail h call)) id →
        ∃ t, s'.task? id = some t ∧ t.status = .running ∧ t.wait = .nothing := by
  obtain ⟨hqueue, hinbox⟩ := idle_of_perform hcall
  have hc := (run.perform hcall).coherent
  refine ⟨hqueue, hinbox, fun id t ht => hc.suspended_iff hqueue ht, fun id hid => ?_⟩
  obtain ⟨t, ht, -, -, hwait, hstatus⟩ := (hc.lost id hid).live
  exact ⟨t, ht, hstatus, hwait⟩

theorem reply_eq {reply : Reply P R W Unit} (hok : reply.1.isOk) : reply = (.ok (), reply.2) := by
  obtain ⟨answer, s⟩ := reply
  cases answer with
  | error e => cases hok
  | ok u => rfl

/-- The stubborn process strands when the host cancels it. -/
theorem quiescent_stubborn :
    let s := demoAfter [.enroll .stubborn [], .step]
    Stranded demo (history { world := () } demo [.enroll .stubborn [], .step] ++
      s.history demo (s.trail demo (.cancel ⟨1⟩))) ⟨1⟩ := by
  intro s
  have hcall : s.perform demo (.cancel ⟨1⟩) = some (.ok (), (s.cancelTask demo ⟨1⟩).2) :=
    congrArg some (reply_eq (by decide))
  have hwait : (s.cancelTask demo ⟨1⟩).2.wait? ⟨1⟩ = some .nothing := by decide
  obtain ⟨t, ht, hnothing⟩ := Option.map_eq_some_iff.1 hwait
  by_contra hnot
  have hsuspended := (demoAfter_run [.enroll .stubborn [], .step]).quiescent (.cancel ⟨1⟩) hcall
  exact ((hsuspended.2.2.1 ⟨1⟩ t ht).2 hnot).2 hnothing

/-- A call that ends well may leave a task that is not suspended. -/
theorem not_always_suspended :
    ¬∀ (log : List (Scheduler Demo (Demo × Nat) Unit × Move Demo))
      (s s' : Scheduler Demo (Demo × Nat) Unit) (call : Call Demo), Run demo log s →
      s.perform demo call = some (.ok (), s') →
      ∀ id t, s'.task? id = some t → t.status = .waiting ∧ t.wait ≠ .nothing := by
  intro hall
  let empty : Scheduler Demo (Demo × Nat) Unit := { world := () }
  let started := (empty.enroll demo .stubborn []).2.run demo
  have hnew : Run demo [] empty := .new rfl
  have hstart : empty.perform demo (.start .stubborn []) = some started := rfl
  have hcancel : started.2.perform demo (.cancel ⟨1⟩) =
      some (.ok (), (started.2.cancelTask demo ⟨1⟩).2) := congrArg some (reply_eq (by decide))
  have hwait : (started.2.cancelTask demo ⟨1⟩).2.wait? ⟨1⟩ = some .nothing := by decide
  obtain ⟨t, ht, hnothing⟩ := Option.map_eq_some_iff.1 hwait
  exact (hall _ _ _ _ (hnew.perform hstart) hcancel ⟨1⟩ t ht).2 hnothing

end CoopTasks.Scheduler
