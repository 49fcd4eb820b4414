import CoopTasks.Proofs.Budget
import CoopTasks.Proofs.Channels
import CoopTasks.Proofs.Eviction

/-!
# Breaches of the contract

A process breaks the contract when it yields a malformed effect, when it names a task or a channel
that never was, and when it fails with a violation. The step in which it does is the last one of the
call, whichever call that is, and the host is told of this task and this violation. What is queued
after the step stays queued, and since the process has ended the host hears of the task only once.
-/

namespace CoopTasks

namespace Effect

variable {P W : Type}

/-- The task that an effect joins or cancels. -/
def target? : Effect P W → Option TaskId
  | .join target | .cancel target => some target
  | _ => none

theorem violation?_of_target? {effect : Effect P W} {u : TaskId} (hu : effect.target? = some u) :
    effect.violation? = none := by
  cases effect <;> first | rfl | cases hu

end Effect

namespace Scheduler

variable {P R W : Type} {s s' q r : Scheduler P R W} {h : Host P R W}
variable {log : List (Scheduler P R W × Move P)} {ms ms' : List (Move P)}
variable {t u id : TaskId} {effect : Effect P W} {violation : Violation} {outcome : Outcome}
variable {reply : Reply P R W Unit}

/-- In the next step the process of a task breaks the contract. -/
inductive Breaches (h : Host P R W) (s : Scheduler P R W) (t : TaskId) : Violation → Prop where
  | malformed {effect : Effect P W} {violation : Violation} :
      s.turn? h = some (t, .yield effect) → effect.violation? = some violation →
      Breaches h s t violation
  | task {effect : Effect P W} {u : TaskId} :
      s.turn? h = some (t, .yield effect) → effect.target? = some u → s.issued u = false →
      Breaches h s t (.unknownTask u)
  | channel {effect : Effect P W} {channel : ChannelId} {event : Channel.Event} :
      s.turn? h = some (t, .yield effect) → effect.event? t = some (channel, event) →
      s.channels.find? channel = none → Breaches h s t (.unknownChannel channel)
  | failed {violation : Violation} :
      s.turn? h = some (t, .failed (.protocol violation)) → Breaches h s t violation

/-! ## Breaches are ends of processes -/

/-- To join or to cancel a task that never was is a violation. -/
theorem carryOut_of_unissued (hu : effect.target? = some u) (hgone : s.isLive u = false)
    (hnone : s.settled? u = none) (hnew : s.issued u = false) :
    s.carryOut h id effect = .error (.unknownTask u) := by
  cases effect with
  | join target => cases hu; simp [carryOut, join, hgone, hnone, hnew]
  | cancel target => cases hu; simp [carryOut, cancel, hgone, hnew]
  | _ => cases hu

/-- An effect that is checked breaks the contract only with what it names. -/
theorem unknown_of_carryOut (hs : s.carryOut h id effect = .error violation) :
    (∃ u, effect.target? = some u ∧ s.issued u = false ∧ violation = .unknownTask u) ∨
    ∃ channel event, effect.event? id = some (channel, event) ∧
      s.channels.find? channel = none ∧ violation = .unknownChannel channel := by
  cases he : effect.event? id with
  | some event =>
    obtain ⟨channel, event⟩ := event
    cases hc : s.channels.find? channel with
    | none =>
      rw [carryOut_of_unknown he hc] at hs
      cases hs
      exact Or.inr ⟨channel, event, rfl, hc, rfl⟩
    | some c =>
      obtain ⟨r, hr, -⟩ := carryOut_of_event? (s := s) (h := h) he hc
      rw [hr] at hs
      cases hs
  | none =>
    refine Or.inl ?_
    cases effect with
    | join target =>
      simp only [carryOut, join] at hs
      split at hs
      · cases hs
      · split at hs
        · cases hs
        · split at hs <;> cases hs
          exact ⟨target, rfl, Bool.eq_false_iff.2 ‹_›, rfl⟩
    | cancel target =>
      simp only [carryOut, cancel] at hs
      split at hs
      · split at hs <;> cases hs
      · split at hs <;> cases hs
        exact ⟨target, rfl, Bool.eq_false_iff.2 ‹_›, rfl⟩
    | take pattern => cases pattern <;> first | cases hs | cases he
    | channelTake channel => cases he
    | channelPut channel v => cases he
    | channelClose channel => cases he
    | _ => cases hs

theorem ending?_of_turn_none (hturn : s.turn? h = none) : s.ending? h .step = none := by
  cases hq : s.queue with
  | nil => simp [ending?, hq]
  | cons entry rest =>
    obtain ⟨id, input⟩ := entry
    have htask : { s with queue := rest }.task? id = s.task? id := rfl
    cases ht : s.task? id with
    | none => simp [ending?, hq, stepEnd?, htask, ht]
    | some t =>
      cases hp : t.process with
      | none => simp [ending?, hq, stepEnd?, htask, ht, hp]
      | some process => simp [turn?, hq, ht, hp] at hturn

theorem ending?_of_done {v : Value} (hturn : s.turn? h = some (t, .done v)) :
    s.ending? h .step = some (t, .ok v) := by
  obtain ⟨task, process, input, rest, hq, ht, hp, hanswer⟩ := process_of_turn hturn
  have htask : { s with queue := rest }.task? t = some task := ht
  simp [ending?, hq, stepEnd?, htask, hp, hanswer]

theorem ending?_of_failed {e : TaskError} (hturn : s.turn? h = some (t, .failed e)) :
    s.ending? h .step = some (t, .error e) := by
  obtain ⟨task, process, input, rest, hq, ht, hp, hanswer⟩ := process_of_turn hturn
  have htask : { s with queue := rest }.task? t = some task := ht
  simp [ending?, hq, stepEnd?, htask, hp, hanswer]

/-- A process that yields ends if its effect breaks the contract. The effect is carried out in a
state that knows the same tasks and channels. -/
theorem ending?_of_yield (hturn : s.turn? h = some (t, .yield effect)) :
    ∃ q : Scheduler P R W, (∀ u, q.isLive u = s.isLive u) ∧ q.settled = s.settled ∧
      q.nextTask = s.nextTask ∧ q.channels = s.channels ∧
      s.ending? h .step = match effect.violation? with
        | some violation => some (t, .error (.protocol violation))
        | none =>
          match q.carryOut h t effect with
          | .ok _ => none
          | .error violation => some (t, .error (.protocol violation)) := by
  obtain ⟨task, process, input, rest, hq, ht, hp, hyield, -⟩ := turn_yield hturn
  let p := { s with
    queue := rest, world := (process.step h.program.resume input s.world).2.2 }.storeProcess t
      (process.step h.program.resume input s.world).2.1
  have hnote : (p.note h t effect).tasks = p.tasks ∧ (p.note h t effect).settled = s.settled ∧
      (p.note h t effect).nextTask = s.nextTask ∧ (p.note h t effect).channels = s.channels := by
    unfold note
    split <;> exact ⟨rfl, rfl, rfl, rfl⟩
  obtain ⟨htasks, hsettled, hnext, hchannels⟩ := hnote
  refine ⟨p.note h t effect, fun u => ?_, hsettled, hnext, hchannels, ?_⟩
  · rw [isLive_eq, task?_of_tasks htasks, ← isLive_eq]
    exact (sameShape_storeProcess { s with queue := rest } t _ _).live u
  · have htask : { s with queue := rest }.task? t = some task := ht
    simp only [ending?, hq, stepEnd?, htask, hp, hyield, dispatchEnd?]
    cases effect.violation? with
    | some violation => rfl
    | none =>
      dsimp only
      cases hs : (p.note h t effect).carryOut h t effect with
      | ok s' => simp
      | error violation => simp

/-- The process of a task ends with a violation when it breaks the contract, and only then. -/
theorem Run.breaches_iff (run : Run h log s) :
    Breaches h s t violation ↔ s.ending? h .step = some (t, .error (.protocol violation)) := by
  constructor
  · intro hb
    cases hb with
    | malformed hturn hbad =>
      obtain ⟨q, -, -, -, -, hend⟩ := ending?_of_yield hturn
      rw [hend, hbad]
    | @task effect u hturn hu hnew =>
      obtain ⟨q, hlive, hsettled, hnext, -, hend⟩ := ending?_of_yield hturn
      have hgone : q.isLive u = false := by
        rw [hlive, ← Bool.not_eq_true]
        exact fun hl => by simp [run.issued hl] at hnew
      have hnone : q.settled? u = none := by
        rw [settled?, hsettled, ← settled?, ← Option.not_isSome_iff_eq_none]
        intro hsome
        obtain ⟨record, hrecord⟩ := Option.isSome_iff_exists.1 hsome
        simp [run.issued_of_record hrecord] at hnew
      have hnew' : q.issued u = false := by rwa [Scheduler.issued, hnext]
      rw [hend, Effect.violation?_of_target? hu, carryOut_of_unissued hu hgone hnone hnew']
    | channel hturn he hc =>
      obtain ⟨q, -, -, -, hchannels, hend⟩ := ending?_of_yield hturn
      rw [hend, Effect.violation?_of_event? he, carryOut_of_unknown he (by rwa [hchannels])]
    | failed hturn => exact ending?_of_failed hturn
  · intro hend
    cases hturn : s.turn? h with
    | none =>
      rw [ending?_of_turn_none hturn] at hend
      cases hend
    | some turn =>
      obtain ⟨t', answer⟩ := turn
      cases answer with
      | done v =>
        rw [ending?_of_done hturn] at hend
        cases hend
      | failed e =>
        rw [ending?_of_failed hturn] at hend
        cases hend
        exact .failed hturn
      | yield effect =>
        obtain ⟨q, -, -, hnext, hchannels, heq⟩ := ending?_of_yield hturn
        rw [heq] at hend
        cases hbad : effect.violation? with
        | some violation' =>
          rw [hbad] at hend
          cases hend
          exact .malformed hturn hbad
        | none =>
          rw [hbad] at hend
          dsimp only at hend
          split at hend
          · cases hend
          · rename_i violation' hs
            cases hend
            rcases unknown_of_carryOut hs with ⟨u, hu, hnew, rfl⟩ | ⟨c, event, he, hc, rfl⟩
            · exact .task hturn hu (by rwa [Scheduler.issued, hnext] at hnew)
            · exact .channel hturn he (by rwa [hchannels] at hc)

/-! ## What a call tells the host -/

/-- What a call, or a part of it, makes of the breaches in its moves. A step in which a process ends
with a violation is the last move, and the answer blames its task; no task is blamed otherwise. -/
structure Surfaces (h : Host P R W) (s : Scheduler P R W) (ms : List (Move P))
    (reply : Option (Reply P R W Unit)) : Prop where
  last : ∀ before after t violation, ms = before ++ .step :: after →
    (s.moves h before).ending? h .step = some (t, .error (.protocol violation)) →
    after = [] ∧ reply = some (.error (.protocol (some t) violation), s.moves h ms)
  raised : ∀ t violation r, reply = some (.error (.protocol (some t) violation), r) →
    ∃ before, ms = before ++ [.step] ∧
      (s.moves h before).ending? h .step = some (t, .error (.protocol violation))

/-- Without a step there is no breach. -/
theorem surfaces_of_no_step {reply : Option (Reply P R W Unit)} (hms : .step ∉ ms)
    (hreply : ∀ t violation r, reply ≠ some (.error (.protocol (some t) violation), r)) :
    Surfaces h s ms reply where
  last before after t violation heq := by simp [heq] at hms
  raised t violation r heq := absurd heq (hreply t violation r)

theorem Surfaces.append {reply : Option (Reply P R W Unit)}
    (hs : Surfaces h s ms (some (.ok (), r))) (hr : r = s.moves h ms)
    (hrest : Surfaces h r ms' reply) : Surfaces h s (ms ++ ms') reply where
  last before after t violation heq hend := by
    rcases List.append_eq_append_iff.1 heq with ⟨prior, rfl, hms'⟩ | ⟨prior, rfl, hprior⟩
    · rw [moves_append, ← hr] at hend
      rw [moves_append, ← hr]
      exact hrest.last prior after t violation hms' hend
    · cases prior with
      | nil =>
        rw [List.append_nil] at hr
        rw [List.append_nil, moves_append, ← hr]
        exact hrest.last [] after t violation hprior.symm (by rwa [moves_nil, hr])
      | cons m prior =>
        -- the first part ended well, so there is no breach in it
        obtain ⟨rfl, -⟩ := List.cons.inj hprior
        cases (hs.last before prior t violation rfl hend).2
  raised t violation r' heq := by
    obtain ⟨before, rfl, hend⟩ := hrest.raised t violation r' heq
    exact ⟨ms ++ before, (List.append_assoc ..).symm, by rwa [moves_append, ← hr]⟩

/-- A move that is no step has no breach in it. -/
theorem Surfaces.cons {reply : Option (Reply P R W Unit)} {m : Move P} (hm : m ≠ .step)
    (hrest : Surfaces h (s.move h m) ms reply) : Surfaces h s (m :: ms) reply := by
  have hfirst : Surfaces h s [m] (some (.ok (), s.move h m)) :=
    surfaces_of_no_step (by simpa using hm.symm) (by simp)
  exact hfirst.append rfl hrest

theorem surfaces_step (hs : s.fault = none) (hq : s.queue ≠ []) :
    Surfaces h s [.step] (s.stepNext? h) := by
  rw [stepNext?_eq hs hq]
  constructor
  · intro before after t violation heq hend
    obtain ⟨rfl, rfl⟩ : before = [] ∧ after = [] := by
      simpa [List.singleton_eq_append_iff] using heq
    rw [moves_nil] at hend
    refine ⟨rfl, ?_⟩
    rw [hend]
    rfl
  · intro t violation r heq
    refine ⟨[], rfl, ?_⟩
    cases hblame : (s.ending? h .step).bind fun e => blame e.1 e.2 with
    | none => simp [hblame] at heq
    | some e =>
      rw [hblame] at heq
      simp only [Option.elim_some, Option.some.injEq, Prod.mk.injEq, Except.error.injEq] at heq
      obtain ⟨⟨t', outcome⟩, hend, hblamed⟩ := Option.bind_eq_some_iff.1 hblame
      obtain ⟨violation', rfl, rfl⟩ := blame_eq_some.1 hblamed
      cases heq.1
      exact hend

theorem surfaces_runWithin (hs : s.fault = none) (limit left : Nat) :
    Surfaces h s (runTrailWithin h left s) (some (runWithin h limit left s)) := by
  have hsilent : ∀ s : Scheduler P R W, .step ∉ s.inboxTrail := fun s hm => by
    cases mem_applyTrail hm
  induction left generalizing s with
  | zero =>
    refine surfaces_of_no_step (hsilent s) fun t violation r heq => ?_
    rcases applyInbox_cases hs h with ⟨r', happly, -, -⟩ | ⟨op, r', happly⟩
    · simp only [runWithin, happly, Option.some.injEq] at heq
      split at heq <;> cases heq
    · simp [runWithin, happly] at heq
  | succ left ih =>
    rcases applyInbox_cases hs h with ⟨r, happly, -, hfault⟩ | ⟨op, r, happly⟩
    · have hinbox : Surfaces h s s.inboxTrail (some (.ok (), r)) :=
        surfaces_of_no_step (hsilent s) (by simp)
      have hr : r = s.moves h s.inboxTrail := by rw [← applyInbox_moves, happly]
      simp only [runTrailWithin, runWithin, happly]
      refine hinbox.append hr ?_
      by_cases hq : r.queue = []
      · rw [stepNext?_of_nil h hq]
        exact surfaces_of_no_step (by simp) (by simp)
      · have hstep : Surfaces h r [.step] (r.stepNext? h) := surfaces_step hfault hq
        cases hnext : r.stepNext? h with
        | none => rw [stepNext?_eq hfault hq] at hnext; cases hnext
        | some next =>
          have hmove : r.move h .step = next.2 := by simp [move, hnext]
          have hfault' := fault_move hfault h .step
          rw [hmove] at hfault'
          rw [hnext] at hstep
          obtain ⟨answer, r'⟩ := next
          cases answer with
          | error e => exact hstep
          | ok u =>
            exact hstep.append hmove.symm (ih hfault')
    · simp only [runTrailWithin, runWithin, happly, List.append_nil]
      exact surfaces_of_no_step (hsilent s) (by simp)

theorem surfaces_run (hs : s.fault = none) (h : Host P R W) :
    Surfaces h s (s.runTrail h) (some (s.run h)) :=
  surfaces_runWithin hs _ _

theorem surfaces_complete (hs : s.fault = none) (h : Host P R W) (c : Completion) :
    Surfaces h s (s.completeTrail h c) (some (s.complete h c)) := by
  have hfault := fault_move hs h (.deliver c)
  have hmove : s.move h (.deliver c) = (s.applyCompletion c).2 := rfl
  unfold completeTrail complete
  refine .cons (by simp) ?_
  rw [hmove] at hfault ⊢
  cases happly : s.applyCompletion c with
  | mk answer r =>
    rw [happly] at hfault
    cases answer with
    | ok u => exact surfaces_run hfault h
    | error e =>
      rw [(unknown_of_applyCompletion happly).1]
      exact surfaces_of_no_step (by simp) (by simp)

theorem surfaces_fireTimers (hs : s.fault = none) (h : Host P R W) (target fuel : Nat) :
    Surfaces h s (fireTrail h target fuel s) (fireTimers h target fuel s) := by
  induction fuel generalizing s with
  | zero =>
    unfold fireTrail fireTimers
    cases s.pending.due? target <;> exact surfaces_of_no_step (by simp) (by simp)
  | succ fuel ih =>
    unfold fireTrail fireTimers
    cases s.pending.due? target with
    | none => exact surfaces_of_no_step (by simp) (by simp)
    | some timer =>
      have hcomplete := surfaces_complete (s := s.expire timer) hs h ⟨timer.2, .ok .unit⟩
      have hmoves := complete_moves (s.expire timer) h ⟨timer.2, .ok .unit⟩
      refine .cons (by simp) ?_
      dsimp only
      cases hc : (s.expire timer).complete h ⟨timer.2, .ok .unit⟩ with
      | mk answer r =>
        rw [hc] at hcomplete hmoves
        cases answer with
        | ok u =>
          have hfault : r.fault = none := by
            rw [show r = _ from hmoves]
            exact fault_moves (s := s.expire timer) hs h _
          exact hcomplete.append hmoves (ih hfault)
        | error e =>
          rw [List.append_nil]
          exact hcomplete

/-- Every call surfaces the breaches in it. -/
theorem surfaces_perform (hs : s.fault = none) (h : Host P R W) (call : Call P) :
    Surfaces h s (s.trail h call) (s.perform h call) := by
  -- what a call does first is no step, and then it runs
  have hstart : ∀ m : Move P, m ≠ .step →
      Surfaces h s (m :: (s.move h m).runTrail h) (some ((s.move h m).run h)) :=
    fun m hm => .cons hm (surfaces_run (fault_move hs h m) h)
  cases call with
  | start process args => exact hstart (.enroll process args) (by simp)
  | notify n => exact hstart (.announce n) (by simp)
  | complete c => exact surfaces_complete hs h c
  | run => exact surfaces_run hs h
  | cancel id =>
    simp only [trail, perform, cancelTask]
    by_cases hl : s.isLive id
    · simp only [hl, if_true]
      exact hstart (.cancel id) (by simp)
    · by_cases hi : s.issued id
      · simp only [hl, hi, if_true]
        exact surfaces_run hs h
      · simp only [hl, hi]
        exact surfaces_of_no_step (by simp) (by simp)
  | advance ms fuel =>
    have hrun := surfaces_run hs h
    have hmoves := run_moves s h
    simp only [trail, perform, advance]
    cases hr : s.run h with
    | mk answer r =>
      rw [hr] at hrun hmoves
      cases answer with
      | ok u =>
        have hfault : r.fault = none := by
          rw [show r = _ from hmoves]
          exact fault_moves hs h _
        exact hrun.append hmoves (surfaces_fireTimers hfault h _ fuel)
      | error e =>
        rw [List.append_nil]
        exact hrun

/-! ## A process ends once -/

theorem process_of_ending? (hend : s.ending? h .step = some (t, outcome)) :
    ∃ task, s.task? t = some task ∧ task.process.isSome := by
  cases hq : s.queue with
  | nil => simp [ending?, hq] at hend
  | cons entry rest =>
    simp only [ending?, hq, Option.map_eq_some_iff, Prod.mk.injEq] at hend
    obtain ⟨outcome', hend, rfl, rfl⟩ := hend
    have htask : { s with queue := rest }.task? entry.1 = s.task? entry.1 := rfl
    simp only [stepEnd?, htask] at hend
    cases ht : s.task? entry.1 with
    | none => simp [ht] at hend
    | some task =>
      refine ⟨task, rfl, ?_⟩
      cases hp : task.process with
      | none => simp [ht, hp] at hend
      | some process => rfl

/-- A task whose process has ended in the past has none. -/
theorem Run.ended_since (run : Run h log s) {entry : Scheduler P R W × Move P} (he : entry ∈ log)
    (hend : entry.1.ending? h entry.2 = some (t, outcome)) {task : Task P R W}
    (ht : s.task? t = some task) : task.process = none := by
  obtain ⟨before, after, -, hbefore⟩ := run.of_mem entry he
  obtain ⟨hl, r, hshape, -, hmove, -⟩ := finish_of_ending? hend
  have hid := hbefore.tidy.forest.fresh t hl
  have hnext := (later_move entry.1 h entry.2).next
  obtain ⟨u, hu, honward⟩ := (run.later entry he).onward t task ht (Nat.lt_of_lt_of_le hid hnext)
  refine honward.ended ?_
  rw [hmove, task?_of_tasks (tasks_takeFault _)] at hu
  exact ended_of_finish (by rwa [hshape.next]) (by rwa [hshape.live]) h outcome hu

theorem Run.ends_once (run : Run h log s) {entry : Scheduler P R W × Move P} (he : entry ∈ log)
    (hend : entry.1.ending? h entry.2 = some (t, outcome)) (outcome' : Outcome) :
    s.ending? h .step ≠ some (t, outcome') := by
  intro hagain
  obtain ⟨task, ht, hp⟩ := process_of_ending? hagain
  rw [run.ended_since he hend ht] at hp
  cases hp

/-! ## The breach is the last step -/

/-- What becomes of a breach by a task in a state: the call answers with it at once, what is queued
keeps its place except for the tasks that the step signals, all later moves start from there, and no
later call blames the task again. -/
structure Surfaced (h : Host P R W) (s : Scheduler P R W) (call : Call P) (q : Scheduler P R W)
    (t : TaskId) (violation : Violation) : Prop where
  reply : s.perform h call = some (.error (.protocol (some t) violation), q.move h .step)
  queue : Shifts (fun id => ¬Cancels h (q, .step) id) (q.popped .step) (q.move h .step)
  stays : ∀ ms, ∀ x ∈ (q.move h .step).queue, x ∈ ((q.move h .step).moves h ms).queue ∨
    ∃ entry ∈ (q.move h .step).history h ms, Receives entry x.1 x.2 ∨ Loses h entry x
  once : ∀ ms call' violation' r,
    ((q.move h .step).moves h ms).perform h call' ≠
      some (.error (.protocol (some t) violation'), r)

/-- If a process breaks the contract in a step of a call, then this step is the last one, and the
call answers with the task and the violation. What was queued stays queued in its order, and later
calls go on from there and do not blame the task again. A call that blames a task does so for a
breach by this task in its last step. -/
theorem Run.breach_surfaces (run : Run h log s) (call : Call P) :
    (∀ before e after t violation, s.history h (s.trail h call) = before ++ e :: after →
      e.2 = .step → Breaches h e.1 t violation →
      after = [] ∧ Surfaced h s call e.1 t violation) ∧
    ∀ t violation r, s.perform h call = some (.error (.protocol (some t) violation), r) →
      ∃ before q, s.history h (s.trail h call) = before ++ [(q, .step)] ∧
        Breaches h q t violation := by
  have hsurfaces := surfaces_perform run.fault h call
  constructor
  · rintro before ⟨q, m⟩ after t violation hcut (rfl : m = .step) hbreach
    obtain ⟨ms, ms', htrail, rfl, hq, rfl⟩ := history_cut hcut
    obtain rfl : q = s.moves h ms := hq
    have hrun := run.moves (h := h) ms
    have hend := hrun.breaches_iff.1 hbreach
    obtain ⟨rfl, hreply⟩ := hsurfaces.last ms ms' t violation htrail hend
    rw [htrail, moves_append, moves_cons, moves_nil] at hreply
    refine ⟨rfl, hreply, hrun.shifts .step, fun later x hx => ?_, ?_⟩
    · exact (hrun.move .step).stays_queued hx later
    · intro later call' violation' r hagain
      have hlater := (hrun.move .step).moves later
      obtain ⟨first, -, hend'⟩ :=
        (surfaces_perform hlater.fault h call').raised t violation' r hagain
      have hpast := List.mem_append_right (log ++ s.history h ms)
        (List.mem_singleton_self (s.moves h ms, Move.step (P := P)))
      exact (hlater.moves first).ends_once (List.mem_append_left _ (List.mem_append_left _ hpast))
        hend _ hend'
  · intro t violation r hreply
    obtain ⟨ms, htrail, hend⟩ := hsurfaces.raised t violation r hreply
    refine ⟨s.history h ms, s.moves h ms, ?_, (run.moves ms).breaches_iff.2 hend⟩
    rw [htrail, history_append]
    rfl

/-- A breaker is forked that joins a task that never was. The host is told of it at once, while the
signal to the forker is queued, and the next run delivers that and reports nothing. -/
theorem breach_surfaces_stage :
    (stageAfter []).perform stage (.start .forker []) =
        some (.error (.protocol (some ⟨2⟩) (.unknownTask ⟨0⟩)),
          stageAfter [.enroll .forker [], .step, .step, .step]) ∧
      (⟨1⟩, .error (.cancelled ⟨1⟩)) ∈
        (stageAfter [.enroll .forker [], .step, .step, .step]).queue ∧
      ((stageAfter [.enroll .forker [], .step, .step, .step]).run stage).1 = .ok () := by
  have hbreach : Breaches stage (stageAfter [.enroll .forker [], .step, .step]) ⟨2⟩
      (.unknownTask ⟨0⟩) := .task rfl rfl rfl
  have hcut : (stageAfter []).history stage ((stageAfter []).trail stage (.start .forker [])) =
      (stageAfter []).history stage [.enroll .forker [], .step, .step] ++
        [(stageAfter [.enroll .forker [], .step, .step], .step)] := rfl
  obtain ⟨-, hsurfaced⟩ := ((stageAfter_run []).breach_surfaces (.start .forker [])).1 _ _ _ _ _
    hcut rfl hbreach
  exact ⟨hsurfaced.reply, List.mem_cons_self, rfl⟩

end Scheduler

end CoopTasks
