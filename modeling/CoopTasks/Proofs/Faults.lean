import CoopTasks.Proofs.Endings

/-!
# What stops a run

Only settlement and the end of a process add to what the host is to learn. A fault is noted when a
process ends with a violation, and handed over at the end of the step, so there is none between
moves, and what stops a run before its queue is empty is a breach of the contract or the budget.
-/

namespace CoopTasks.Scheduler

variable {P R W : Type} {s s' r : Scheduler P R W} {h : Host P R W}
variable {log : List (Scheduler P R W × Move P)}

/-- What the host is to learn: the fault of a task, and the failures of root tasks. -/
def reports (s : Scheduler P R W) : Option HostError × List Unhandled := (s.fault, s.unhandled)

/-! ## What leaves the reports alone -/

theorem reports_foldl {α : Type} (f : Scheduler P R W → α → Scheduler P R W)
    (hf : ∀ s a, (f s a).reports = s.reports) (as : List α) (s : Scheduler P R W) :
    (as.foldl f s).reports = s.reports :=
  List.foldlRecOn (motive := fun r => r.reports = s.reports) as f rfl
    fun r hr a _ => (hf r a).trans hr

theorem reports_withdraw (s : Scheduler P R W) (id : TaskId) (wait : Wait) :
    (s.withdraw id wait).reports = s.reports := by
  cases wait <;> rfl

theorem reports_signal (s : Scheduler P R W) (id : TaskId) : (s.signal id).reports = s.reports := by
  rcases signal_cases s id with heq | ⟨t, wait, -, -, -, heq | heq⟩ <;> rw [heq]
  · exact reports_withdraw _ id t.wait
  · exact reports_withdraw _ id t.wait

theorem reports_cancelSubtree (s : Scheduler P R W) (root : TaskId) :
    (s.cancelSubtree root).reports = s.reports :=
  reports_foldl _ reports_signal _ s

theorem reports_cancelSubtrees (s : Scheduler P R W) (roots : List TaskId) :
    (s.cancelSubtrees roots).reports = s.reports :=
  reports_foldl _ reports_cancelSubtree _ s

theorem reports_wakeIfWaiting (s : Scheduler P R W) (id : TaskId) (wait : Wait) (input : Input) :
    (s.wakeIfWaiting id wait input).reports = s.reports := by
  unfold wakeIfWaiting
  split <;> rfl

theorem reports_abort (s : Scheduler P R W) (id : TaskId) (error : TaskError) :
    (s.abort id error).reports = s.reports := by
  rcases abort_cases s id error with ⟨heq, -⟩ | ⟨t, -, -, -, heq⟩ <;> rw [heq]
  exact reports_cancelSubtree _ id

theorem reports_settleBranch (s : Scheduler P R W) (g : GroupId) (slot : Nat) (outcome : Outcome) :
    (s.settleBranch g slot outcome).reports = s.reports := by
  rcases settleBranch_cases s g slot outcome with
    ⟨-, heq⟩ | ⟨group, -, ⟨-, heq⟩ | ⟨input, -, heq⟩⟩ <;> rw [heq]
  · rfl
  · exact (reports_cancelSubtrees _ _).trans (reports_wakeIfWaiting _ _ _ _)

/-- A task takes its leave and its joiners are told, before its result is passed on. -/
theorem reports_filed (d : Departure P R W) (h : Host P R W) :
    (d.filed h).reports = d.before.reports := by
  have hcleared : (d.cleared h).reports = d.before.reports := by
    unfold Departure.cleared
    cases d.task.parent <;> rfl
  exact (reports_foldl _ (fun s joiner => reports_wakeIfWaiting s joiner _ _) _ _).trans hcleared

theorem reports_spawn (s : Scheduler P R W) (h : Host P R W) (process : P) (args : List Value)
    (parent : Option TaskId) (role : Role) :
    (s.spawn h process args parent role).2.reports = s.reports := by
  cases parent <;> rfl

theorem reports_addBranches (owner : TaskId) (group : GroupId) (mode : GroupMode) (slot : Nat)
    (effects : List (Effect P W)) (s : Scheduler P R W) :
    (s.addBranches owner group mode slot effects).2.reports = s.reports := by
  induction effects generalizing slot s with
  | nil => rfl
  | cons effect rest ih => exact ih (slot + 1) _

theorem reports_startGroup (s : Scheduler P R W) (id : TaskId) (mode : GroupMode)
    (effects : List (Effect P W)) : (s.startGroup id mode effects).reports = s.reports := by
  unfold startGroup
  split
  · rfl
  · exact reports_addBranches id _ mode 0 effects _

theorem reports_wakeAll (s : Scheduler P R W) (ids : List TaskId) (v : Value) :
    (s.wakeAll ids v).reports = s.reports :=
  reports_foldl (fun s id => s.answer id v) (fun _ _ => rfl) _ s

theorem reports_call (s : Scheduler P R W) (id : TaskId) (operation : Operation W)
    (args : List Value) : (s.call id operation args).reports = s.reports := by
  unfold call
  obtain ⟨outcome, pending, world⟩ := s.pending.carryOut id (operation.invoke args id s.world)
  cases outcome <;> rfl

theorem reports_join {id target : TaskId} (hs : s.join id target = .ok s') :
    s'.reports = s.reports := by
  unfold join at hs
  split at hs
  · cases hs; rfl
  · split at hs
    · cases hs; rfl
    · split at hs <;> cases hs
      rfl

theorem reports_cancel {id target : TaskId} (hs : s.cancel id target = .ok s') :
    s'.reports = s.reports := by
  unfold cancel at hs
  split at hs
  · split at hs <;> cases hs
    · exact reports_cancelSubtree s target
    · exact reports_cancelSubtree _ target
  · split at hs <;> cases hs
    rfl

theorem reports_channelTake {id : TaskId} {channel : ChannelId}
    (hs : s.channelTake id channel = .ok s') : s'.reports = s.reports := by
  unfold channelTake at hs
  split at hs
  · cases hs
  · split at hs <;> cases hs <;> rfl

theorem reports_channelPut {id : TaskId} {channel : ChannelId} {v : Value}
    (hs : s.channelPut id channel v = .ok s') : s'.reports = s.reports := by
  unfold channelPut at hs
  split at hs
  · cases hs
  · split at hs <;> cases hs <;> rfl

theorem reports_channelClose {id : TaskId} {channel : ChannelId}
    (hs : s.channelClose id channel = .ok s') : s'.reports = s.reports := by
  unfold channelClose at hs
  split at hs
  · cases hs
  · cases hs
    exact (reports_wakeAll _ _ _).trans (reports_wakeAll _ _ _)

/-- An effect that is carried out leaves the reports alone. -/
theorem reports_carryOut {id : TaskId} {effect : Effect P W}
    (hs : s.carryOut h id effect = .ok s') : s'.reports = s.reports := by
  cases effect with
  | call operation args => cases hs; exact reports_call s id operation args
  | callProcess process args => cases hs; exact reports_spawn s h process args (some id) .called
  | put n => cases hs; exact reports_wakeAll _ _ _
  | take pattern =>
    cases pattern with
    | channel channel => exact reports_channelTake hs
    | _ => cases hs; rfl
  | fork process args => cases hs; exact reports_spawn s h process args _ .forked
  | join target => exact reports_join hs
  | cancel target => exact reports_cancel hs
  | all effects => cases hs; exact reports_startGroup ..
  | race branches => cases hs; exact reports_startGroup ..
  | channelTake channel => exact reports_channelTake hs
  | channelPut channel v => exact reports_channelPut hs
  | channelClose channel => exact reports_channelClose hs
  | _ => cases hs; rfl

theorem reports_note (s : Scheduler P R W) (h : Host P R W) (id : TaskId) (effect : Effect P W) :
    (s.note h id effect).reports = s.reports := by
  unfold note
  split <;> rfl

theorem reports_announce (s : Scheduler P R W) (h : Host P R W) (n : Notification) :
    (s.announce h n).reports = s.reports :=
  reports_foldl (fun s id => s.wakeLast id (.value (.notification n))) (fun _ _ => rfl) _ _

theorem reports_applyCompletion (s : Scheduler P R W) (c : Completion) :
    (s.applyCompletion c).2.reports = s.reports := by
  unfold applyCompletion
  split
  · dsimp only
    split <;> rfl
  · split <;> rfl

/-- In every move but a step and the one that hands over the failures of roots, the reports stay. -/
theorem reports_move (s : Scheduler P R W) (h : Host P R W) {m : Move P} (hm : m ≠ .step)
    (hm' : m ≠ .takeUnhandled) : (s.move h m).reports = s.reports := by
  cases m with
  | step => exact absurd rfl hm
  | takeUnhandled => exact absurd rfl hm'
  | enroll process args => exact reports_spawn s h process args none .root
  | announce n => exact reports_announce s h n
  | deliver c => exact reports_applyCompletion s c
  | receive =>
    simp only [move]
    split
    · rfl
    · exact reports_applyCompletion _ _
  | cancel id => exact reports_cancelSubtree s id
  | _ => rfl

/-! ## Who is blamed -/

/-- What the host is told when the process of a task ends so. -/
def blame (id : TaskId) : Outcome → Option HostError
  | .error (.protocol violation) => some (.protocol (some id) violation)
  | _ => none

theorem blame_eq_some {id : TaskId} {outcome : Outcome} {e : HostError} :
    blame id outcome = some e ↔
      ∃ violation, outcome = .error (.protocol violation) ∧ e = .protocol (some id) violation := by
  unfold blame
  split <;> simp_all [eq_comm]

theorem fault_deliver (s : Scheduler P R W) (t : Task P R W) (record : Settlement) :
    (s.deliver t record).fault = s.fault := by
  rcases deliver_cases s t record with heq | ⟨caller, -, -, heq⟩ | ⟨e, -, -, heq⟩ |
    ⟨parent, e, -, -, -, -, heq⟩ | ⟨g, slot, -, -, heq⟩ <;> rw [heq]
  · exact congrArg Prod.fst (reports_wakeIfWaiting _ _ _ _)
  · exact congrArg Prod.fst (reports_abort _ _ _)
  · exact congrArg Prod.fst (reports_settleBranch _ _ _ _)

theorem fault_retire (s : Scheduler P R W) (h : Host P R W) (id : TaskId) (t : Task P R W) :
    (s.retire h id t).fault = s.fault :=
  (fault_deliver _ _ _).trans (congrArg Prod.fst (reports_filed ⟨s, id, t⟩ h))

theorem fault_settleWithin (h : Host P R W) (fuel : Nat) (id : TaskId) (s : Scheduler P R W) :
    (settleWithin h fuel id s).fault = s.fault :=
  settleWithin_preserves (I := fun r => r.fault = s.fault)
    (fun r id t _ _ hr => (fault_retire r h id t).trans hr) fuel id rfl

theorem fault_finish (s : Scheduler P R W) (h : Host P R W) (id : TaskId) (outcome : Outcome) :
    (s.finish h id outcome).fault = s.fault.or (blame id outcome) := by
  have hraise : (s.raiseOf id outcome).fault = s.fault.or (blame id outcome) := by
    cases outcome with
    | ok v => exact Option.or_none.symm
    | error e =>
      cases e with
      | protocol violation => rfl
      | _ => exact Option.or_none.symm
  unfold finish
  split
  · exact hraise
  · refine (fault_settleWithin h _ id _).trans (.trans ?_ hraise)
    exact congrArg Prod.fst (reports_cancelSubtrees _ _)

theorem fault_dispatch (s : Scheduler P R W) (h : Host P R W) (id : TaskId) (effect : Effect P W) :
    (s.dispatch h id effect).fault = s.fault.or ((s.dispatchEnd? h id effect).bind (blame id)) := by
  unfold dispatch dispatchEnd? violate
  cases effect.violation? with
  | some violation => exact fault_finish s h id _
  | none =>
    have hnote : (s.note h id effect).fault = s.fault :=
      congrArg Prod.fst (reports_note s h id effect)
    dsimp only
    cases hs : (s.note h id effect).carryOut h id effect with
    | ok s' =>
      have hkept : s'.fault = s.fault := (congrArg Prod.fst (reports_carryOut hs)).trans hnote
      simpa using hkept
    | error violation =>
      rw [← hnote]
      exact fault_finish _ h id _

/-- A step leaves a fault if the process of the task ends in it with a violation. -/
theorem fault_step (s : Scheduler P R W) (h : Host P R W) (id : TaskId) (input : Input) :
    (s.step h id input).fault = s.fault.or ((s.stepEnd? h id input).bind (blame id)) := by
  unfold step stepEnd?
  cases s.task? id with
  | none => simp
  | some t =>
    cases hp : t.process with
    | none => simp [hp]
    | some process =>
      simp only [hp]
      obtain ⟨answer, process', world⟩ := process.step h.program.resume input s.world
      cases answer with
      | yield effect => exact fault_dispatch _ h id effect
      | done v => exact fault_finish _ h id (.ok v)
      | failed e => exact fault_finish _ h id (.error e)

/-! ## Between moves -/

theorem fault_takeFault (s : Scheduler P R W) : s.takeFault.2.fault = none := by
  unfold takeFault
  split
  · assumption
  · rfl

/-- No fault outlasts the step that left it. -/
theorem fault_move (hs : s.fault = none) (h : Host P R W) (m : Move P) :
    (s.move h m).fault = none := by
  by_cases hstep : m = .step
  · subst hstep
    cases hq : s.queue with
    | nil => rwa [move_step_nil h hq]
    | cons entry rest =>
      rw [move_step_cons h hq]
      exact fault_takeFault _
  · by_cases htake : m = .takeUnhandled
    · subst htake
      exact hs
    · exact (congrArg Prod.fst (reports_move s h hstep htake)).trans hs

theorem fault_moves (hs : s.fault = none) (h : Host P R W) (ms : List (Move P)) :
    (s.moves h ms).fault = none := by
  induction ms generalizing s with
  | nil => exact hs
  | cons m ms ih => exact ih (fault_move hs h m)

theorem Run.fault (run : Run h log s) : s.fault = none :=
  run.invariant (I := fun s => s.fault = none) (fun _ => rfl) fun _ m hs => fault_move hs h m

/-- A step stops the run if a process ends in it with a violation, and then its task is blamed. -/
theorem stepNext?_eq (hs : s.fault = none) (hq : s.queue ≠ []) : s.stepNext? h =
    some (((s.ending? h .step).bind fun e => blame e.1 e.2).elim (.ok ()) .error,
      s.move h .step) := by
  obtain ⟨⟨id, input⟩, rest, hq⟩ := List.exists_cons_of_ne_nil hq
  have hfault : ({ s with queue := rest }.step h id input).fault =
      (s.ending? h .step).bind fun e => blame e.1 e.2 := by
    simp only [ending?, hq]
    rw [Option.bind_map, fault_step, show ({ s with queue := rest } : Scheduler P R W).fault = none
      from hs, Option.none_or]
    rfl
  rw [move_step_cons h hq, ← hfault, stepNext?, hq]
  simp only [takeFault]
  cases ({ s with queue := rest }.step h id input).fault <;> rfl

/-- A step that stops the run was a breach of the contract by a task. -/
theorem protocol_of_step (hs : s.fault = none) {e : HostError}
    (hstep : s.stepNext? h = some (.error e, s')) :
    ∃ id violation, e = .protocol (some id) violation := by
  have hq : s.queue ≠ [] := fun hq => by simp [stepNext?, hq] at hstep
  rw [stepNext?_eq hs hq, Option.some.injEq, Prod.mk.injEq] at hstep
  cases hblame : (s.ending? h .step).bind fun e => blame e.1 e.2 with
  | none => simp [hblame] at hstep
  | some e' =>
    obtain ⟨⟨id, outcome⟩, -, hend⟩ := Option.bind_eq_some_iff.1 hblame
    obtain ⟨violation, -, rfl⟩ := blame_eq_some.1 hend
    simp only [hblame, Option.elim_some, Except.error.injEq] at hstep
    exact ⟨id, violation, hstep.1.symm⟩

end CoopTasks.Scheduler
