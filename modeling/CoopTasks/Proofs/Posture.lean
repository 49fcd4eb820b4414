import CoopTasks.Proofs.Frailty
import CoopTasks.Proofs.Groups
import CoopTasks.Proofs.Joining

/-!
# How a task stands

The record of a task says whether it is running, and what it waits for. Whoever wakes a task,
suspends, steps or ends it sets both. A signal sets the wait alone: the task waits for nothing any
more, and its status stays. So two relations say what others do to a task in a move. Where nobody is
signalled it `Stirs`: it is left alone or suspended, or woken and then queued once more. Where tasks
settle and trees are cancelled it `Bides`: its status stays, unless a task that leaves `Wakes` it.
-/

namespace CoopTasks

/-- A task is not woken. If it is signalled it waits for nothing from then on, unless its process
has ended. -/
structure Task.Bides {P R W : Type} (t t' : Task P R W) : Prop where
  status : t'.status = t.status
  process : t'.process = t.process
  wait : t'.cancelling = t.cancelling ∧ t'.wait = t.wait ∨
    t.cancelling = false ∧ t'.cancelling = true ∧ (t.process.isSome → t'.wait = .nothing)

namespace Task.Bides

variable {P R W : Type} {t t' t'' : Task P R W}

theorem of_stance (hs : t'.stance = t.stance) : t.Bides t' := by
  simp only [Task.stance, Prod.mk.injEq] at hs
  exact ⟨hs.2.2.1, hs.1, .inl ⟨hs.2.2.2, hs.2.1⟩⟩

theorem trans (hs : t.Bides t') (hs' : t'.Bides t'') : t.Bides t'' := by
  refine ⟨hs'.status.trans hs.status, hs'.process.trans hs.process, ?_⟩
  rcases hs.wait with ⟨hcancel, hwait⟩ | ⟨hcalm, hcancel, hwait⟩
  · rw [← hcancel, ← hwait, ← hs.process]
    exact hs'.wait
  · rcases hs'.wait with ⟨hcancel', hwait'⟩ | ⟨hcalm', -⟩
    · exact .inr ⟨hcalm, hcancel'.trans hcancel, fun hp => hwait'.trans (hwait hp)⟩
    · rw [hcancel] at hcalm'
      cases hcalm'

/-- A task that waits for nothing comes to wait for nothing else. -/
theorem wait_eq_nothing (hs : t.Bides t') (hp : t.process.isSome) (hw : t.wait = .nothing) :
    t'.wait = .nothing := by
  rcases hs.wait with ⟨-, hwait⟩ | ⟨-, -, hwait⟩
  · exact hwait.trans hw
  · exact hwait hp

end Task.Bides

/-- A task that leaves answers another one that waits for it. -/
def Departure.Wakes {P R W : Type} (d : Departure P R W) (id : TaskId) : Prop :=
  d.before.wait? id = some (.join d.id) ∨ d.before.wait? id = some (.call d.id) ∨
    ∃ g, d.before.wait? id = some (.group g) ∧ (d.resolution? g).isSome

namespace Scheduler

variable {P R W : Type} {s s' s'' r : Scheduler P R W} {h : Host P R W}
variable {id a target : TaskId} {m : Move P} {effect : Effect P W} {d : Departure P R W}
variable {D D' : List (Departure P R W)} {log : List (Scheduler P R W × Move P)}

theorem wait?_of_live {t : Task P R W} (ht : s.task? id = some t) : s.wait? id = some t.wait := by
  rw [wait?, ht, Option.map_some]

/-! ## Where nobody is signalled -/

/-- The task is left alone or suspended, or it is woken and queued once more. A new task is running.
-/
structure Stirs (s s' : Scheduler P R W) (id : TaskId) : Prop where
  next : s.nextTask ≤ s'.nextTask
  entries : (s.waiters .nothing).count id ≤ (s'.waiters .nothing).count id
  calm : s'.beingCancelled id = true → s.beingCancelled id = true
  task : ∀ t', s'.task? id = some t' → t'.wait ≠ .nothing ∨
    t'.status = .running ∧
      ((s.waiters .nothing).count id < (s'.waiters .nothing).count id ∨ s.nextTask ≤ id.val) ∨
    ∃ t, s.task? id = some t ∧ t'.status = t.status ∧ t'.wait = t.wait

theorem Stirs.trans (hs : Stirs s s' id) (hs' : Stirs s' s'' id) : Stirs s s'' id := by
  refine ⟨hs.next.trans hs'.next, hs.entries.trans hs'.entries,
    fun hc => hs.calm (hs'.calm hc), fun t'' ht'' => ?_⟩
  rcases hs'.task t'' ht'' with hwait | ⟨hstatus, hwoken⟩ | ⟨t', ht', hstatus', hwait'⟩
  · exact .inl hwait
  · refine .inr (.inl ⟨hstatus, ?_⟩)
    exact hwoken.imp hs.entries.trans_lt hs.next.trans
  · rw [hstatus', hwait']
    refine (hs.task t' ht').imp_right (Or.imp_left fun ⟨hstatus, hwoken⟩ => ⟨hstatus, ?_⟩)
    exact hwoken.imp_left fun hlt => hlt.trans_le hs'.entries

/-- The task is the same, and is not taken off the queue. -/
theorem Stirs.of_task? (htask : s'.task? id = s.task? id) (hnext : s'.nextTask = s.nextTask)
    (hentries : (s.waiters .nothing).count id ≤ (s'.waiters .nothing).count id) :
    Stirs s s' id := by
  refine ⟨hnext.ge, hentries, ?_, fun t ht => ?_⟩
  · simp [beingCancelled, htask]
  · exact .inr (.inr ⟨t, by rwa [← htask], rfl, rfl⟩)

theorem Stirs.of_tables (htasks : s'.tasks = s.tasks) (hnext : s'.nextTask = s.nextTask)
    (hqueue : s'.queue = s.queue) : Stirs s s' id :=
  .of_task? (task?_of_tasks htasks id) hnext (by simp only [waiters, hqueue, le_refl])

theorem Stirs.refl (s : Scheduler P R W) (id : TaskId) : Stirs s s id := .of_tables rfl rfl rfl

theorem Stirs.foldl {α : Type} {f : Scheduler P R W → α → Scheduler P R W}
    (hf : ∀ s a, Stirs s (f s a) id) (as : List α) (s : Scheduler P R W) :
    Stirs s (as.foldl f s) id :=
  List.foldlRecOn (motive := fun r => Stirs s r id) as f (.refl s id)
    fun r hr a _ => hr.trans (hf r a)

/-- A task is suspended, or what it is said to do stays. -/
theorem stirs_updateTask (s : Scheduler P R W) (a : TaskId) (f : Task P R W → Task P R W)
    (hcalm : ∀ t, (f t).cancelling = t.cancelling)
    (hf : ∀ t, (f t).wait ≠ .nothing ∨ (f t).status = t.status ∧ (f t).wait = t.wait) :
    Stirs s (s.updateTask a f) id := by
  refine ⟨le_rfl, le_rfl, ?_, fun t' ht' => ?_⟩
  · by_cases ha : id = a
    · simp [beingCancelled, ha, hcalm, Option.any_map]
    · simp [beingCancelled, ha]
  · by_cases ha : id = a
    · obtain ⟨t, ht, rfl⟩ : ∃ t, s.task? id = some t ∧ f t = t' := by simpa [ha] using ht'
      exact (hf t).imp_right fun hsame => .inr ⟨t, ht, hsame⟩
    · exact .inr (.inr ⟨t', by simpa [ha] using ht', rfl, rfl⟩)

theorem stirs_suspend (s : Scheduler P R W) (a : TaskId) {wait : Wait} (hwait : wait ≠ .nothing) :
    Stirs s (s.suspend a wait) id :=
  stirs_updateTask s a _ (fun _ => rfl) fun _ => .inl hwait

/-- A task that is made ready is queued, wherever that is. -/
theorem stirs_of_ready (htasks : s'.tasks = (s.makeReady a).tasks)
    (hnext : s'.nextTask = s.nextTask)
    (hentries : (s'.waiters .nothing).count id =
      (s.waiters .nothing).count id + if a = id then 1 else 0) : Stirs s s' id := by
  have htask : s'.task? id =
      if id = a then (s.task? id).map fun t => { t with wait := .nothing, status := .running }
      else s.task? id := (task?_of_tasks htasks id).trans (task?_updateTask s a id _)
  refine ⟨hnext.ge, by omega, ?_, fun t' ht' => ?_⟩
  · rw [beingCancelled, htask]
    split <;> simp [beingCancelled, Option.any_map]
  · rw [htask] at ht'
    split at ht'
    · rename_i ha
      obtain ⟨t, -, rfl⟩ := Option.map_eq_some_iff.1 ht'
      exact .inr (.inl ⟨rfl, .inl (by rw [hentries, if_pos ha.symm]; exact Nat.lt_succ_self _)⟩)
    · exact .inr (.inr ⟨t', ht', rfl, rfl⟩)

theorem stirs_wakeFirst (s : Scheduler P R W) (a : TaskId) (input : Input) :
    Stirs s (s.wakeFirst a input) id :=
  stirs_of_ready rfl rfl (by simp [wakeFirst, waiters_enqueueFirst, waiters_makeReady,
    List.count_cons])

theorem stirs_wakeLast (s : Scheduler P R W) (a : TaskId) (input : Input) :
    Stirs s (s.wakeLast a input) id :=
  stirs_of_ready rfl rfl (by simp [wakeLast, waiters_enqueueLast, waiters_makeReady,
    List.count_singleton])

theorem stirs_answer (s : Scheduler P R W) (a : TaskId) (v : Value) : Stirs s (s.answer a v) id :=
  stirs_wakeFirst s a (.value v)

theorem stirs_wakeAll (s : Scheduler P R W) (ids : List TaskId) (v : Value) :
    Stirs s (s.wakeAll ids v) id :=
  .foldl (fun s a => stirs_answer s a v) _ s

theorem stirs_enqueueFirst (s : Scheduler P R W) (a : TaskId) (input : Input) :
    Stirs s (s.enqueueFirst a input) id :=
  .of_task? rfl rfl (List.Sublist.count_le id (List.sublist_cons_self _ _))

theorem stirs_enqueueLast (s : Scheduler P R W) (a : TaskId) (input : Input) :
    Stirs s (s.enqueueLast a input) id :=
  .of_task? rfl rfl (by simp [waiters_enqueueLast])

theorem stirs_addTask (s : Scheduler P R W) (name : String) (parent : Option TaskId) (role : Role)
    (process : Process P R W) : Stirs s (s.addTask name parent role process).2 id := by
  have hqueue : (s.addTask name parent role process).2.queue = s.queue := by cases parent <;> rfl
  refine ⟨?_, by simp only [waiters, hqueue, le_refl], ?_, fun t' ht' => ?_⟩
  · exact (nextTask_addTask s name parent role process).ge.trans' (Nat.le_succ _)
  · rw [beingCancelled, task?_addTask]
    split
    · simp
    · rw [task?_addChild]
      split <;> simp [beingCancelled, Option.any_map]
  · rw [task?_addTask] at ht'
    split at ht'
    · rename_i hnew
      cases ht'
      exact .inr (.inl ⟨rfl, .inr (hnew ▸ le_rfl)⟩)
    · rw [task?_addChild] at ht'
      split at ht'
      · obtain ⟨t, ht, rfl⟩ := Option.map_eq_some_iff.1 ht'
        exact .inr (.inr ⟨t, ht, rfl, rfl⟩)
      · exact .inr (.inr ⟨t', ht', rfl, rfl⟩)

theorem stirs_spawn (s : Scheduler P R W) (h : Host P R W) (process : P) (args : List Value)
    (parent : Option TaskId) (role : Role) :
    Stirs s (s.spawn h process args parent role).2 id := by
  have hworld : ∀ world, Stirs s { s with world } id := fun _ => .of_tables rfl rfl rfl
  exact (hworld _).trans (stirs_addTask _ _ parent role _)

theorem stirs_addBranches (owner : TaskId) (group : GroupId) (mode : GroupMode) (slot : Nat)
    (effects : List (Effect P W)) (s : Scheduler P R W) :
    Stirs s (s.addBranches owner group mode slot effects).2 id := by
  induction effects generalizing slot s with
  | nil => exact .refl s id
  | cons effect rest ih => exact (stirs_addTask s _ _ _ _).trans (ih (slot + 1) _)

/-! ## Effects -/

theorem stirs_call (s : Scheduler P R W) (a : TaskId) (operation : Operation W)
    (args : List Value) : Stirs s (s.call a operation args) id := by
  unfold call
  obtain ⟨outcome, pending, world⟩ := s.pending.carryOut a (operation.invoke args a s.world)
  have hframe : Stirs s { s with pending, world } id := .of_tables rfl rfl rfl
  cases outcome with
  | answered result => exact hframe.trans (stirs_wakeFirst _ a _)
  | awaiting op => exact hframe.trans (stirs_suspend _ a (by simp))

theorem stirs_callProcess (s : Scheduler P R W) (h : Host P R W) (a : TaskId) (process : P)
    (args : List Value) : Stirs s (s.callProcess h a process args) id :=
  ((stirs_spawn s h process args (some a) .called).trans (stirs_suspend _ a (by simp))).trans
    (stirs_enqueueFirst _ _ _)

theorem stirs_fork (s : Scheduler P R W) (h : Host P R W) (a : TaskId) (process : P)
    (args : List Value) : Stirs s (s.fork h a process args) id :=
  ((stirs_spawn s h process args (some (s.forkOwner a)) .forked).trans
    (stirs_enqueueLast _ _ _)).trans (stirs_answer _ a _)

theorem stirs_put (s : Scheduler P R W) (h : Host P R W) (a : TaskId) (n : Notification) :
    Stirs s (s.put h a n) id := by
  have hpublish : Stirs s (s.publish h n).2 id := .of_tables rfl rfl rfl
  exact (hpublish.trans (stirs_answer _ a _)).trans (stirs_wakeAll _ _ _)

theorem stirs_join (hs : s.join a target = .ok s') : Stirs s s' id := by
  unfold join at hs
  split at hs
  · cases hs
    have hjoin : Stirs s (s.updateTask target fun t => { t with joiners := t.joiners ++ [a] }) id :=
      stirs_updateTask s target _ (fun _ => rfl) fun _ => .inr ⟨rfl, rfl⟩
    exact hjoin.trans (stirs_suspend _ a (by simp))
  · split at hs
    · cases hs
      exact stirs_wakeFirst s a _
    · split at hs <;> cases hs
      exact stirs_wakeFirst s a _

theorem stirs_startGroup (s : Scheduler P R W) (a : TaskId) (mode : GroupMode)
    (effects : List (Effect P W)) : Stirs s (s.startGroup a mode effects) id := by
  unfold startGroup
  split
  · exact stirs_answer s a _
  · have hwait : Wait.group ⟨s.nextGroup⟩ ≠ .nothing := by simp
    have hnext : Stirs s { s with nextGroup := s.nextGroup + 1 } id := .of_tables rfl rfl rfl
    refine ((hnext.trans (stirs_addBranches a ⟨s.nextGroup⟩ mode 0 effects _)).trans
      (stirs_suspend _ a hwait)).trans (.of_task? rfl rfl ?_)
    simp [waiters]

theorem stirs_setChannel (s : Scheduler P R W) (ch : ChannelId) (c : Channel) :
    Stirs s (s.setChannel ch c) id :=
  .of_tables rfl rfl rfl

theorem stirs_channelTake {ch : ChannelId} (hs : s.channelTake a ch = .ok s') : Stirs s s' id := by
  unfold channelTake at hs
  split at hs
  · cases hs
  · split at hs <;> cases hs
    · exact ((stirs_setChannel _ _ _).trans (stirs_answer _ _ _)).trans (stirs_answer _ _ _)
    · exact (stirs_setChannel _ _ _).trans (stirs_answer _ _ _)
    · exact (stirs_setChannel _ _ _).trans (stirs_suspend _ _ (by simp))
    · exact (stirs_setChannel _ _ _).trans (stirs_answer _ _ _)

theorem stirs_channelPut {ch : ChannelId} {v : Value} (hs : s.channelPut a ch v = .ok s') :
    Stirs s s' id := by
  unfold channelPut at hs
  split at hs
  · cases hs
  · split at hs <;> cases hs
    · exact ((stirs_setChannel _ _ _).trans (stirs_answer _ _ _)).trans (stirs_answer _ _ _)
    · exact (stirs_setChannel _ _ _).trans (stirs_answer _ _ _)
    · exact (stirs_setChannel _ _ _).trans (stirs_answer _ _ _)
    · exact (stirs_setChannel _ _ _).trans (stirs_suspend _ _ (by simp))
    · exact (stirs_setChannel _ _ _).trans (stirs_wakeFirst _ _ _)

theorem stirs_channelClose {ch : ChannelId} (hs : s.channelClose a ch = .ok s') :
    Stirs s s' id := by
  unfold channelClose at hs
  split at hs <;> cases hs
  exact (((stirs_setChannel _ _ _).trans (stirs_answer _ _ _)).trans (stirs_wakeAll _ _ _)).trans
    (stirs_wakeAll _ _ _)

/-- An effect signals nobody, unless it is a cancellation. -/
theorem stirs_carryOut (hne : ∀ target, effect ≠ .cancel target)
    (hs : s.carryOut h a effect = .ok s') : Stirs s s' id := by
  have htake : ∀ takers, Stirs s { s with takers } id := fun _ => .of_tables rfl rfl rfl
  have hopen : ∀ channels nextChannel, Stirs s { s with channels, nextChannel } id :=
    fun _ _ => .of_tables rfl rfl rfl
  cases effect with
  | cancel target => exact absurd rfl (hne target)
  | call operation args => cases hs; exact stirs_call ..
  | callProcess process args => cases hs; exact stirs_callProcess ..
  | put n => cases hs; exact stirs_put ..
  | take pattern =>
    cases pattern with
    | channel ch => exact stirs_channelTake hs
    | _ => cases hs; exact (htake _).trans (stirs_suspend _ _ (by simp))
  | fork process args => cases hs; exact stirs_fork ..
  | join target => exact stirs_join hs
  | cancelled => cases hs; exact stirs_answer ..
  | all effects => cases hs; exact stirs_startGroup ..
  | race branches => cases hs; exact stirs_startGroup ..
  | channel policy => cases hs; exact (hopen _ _).trans (stirs_answer ..)
  | channelTake ch => exact stirs_channelTake hs
  | channelPut ch v => exact stirs_channelPut hs
  | channelClose ch => exact stirs_channelClose hs
  | select selector => cases hs; exact stirs_answer ..

theorem stirs_applyCompletion (s : Scheduler P R W) (c : Completion) :
    Stirs s (s.applyCompletion c).2 id := by
  have hdiscard : Stirs s { s with pending := s.pending.discard c.operation } id :=
    .of_tables rfl rfl rfl
  unfold applyCompletion
  split
  · dsimp only
    split
    · exact hdiscard.trans (stirs_wakeLast _ _ _)
    · exact hdiscard
  · split <;> exact .refl s id

/-- Of the moves a step and a cancellation alone signal tasks. -/
theorem stirs_move (s : Scheduler P R W) (h : Host P R W) (hstep : m ≠ .step)
    (hcancel : ∀ root, m ≠ .cancel root) : Stirs s (s.move h m) id := by
  cases m with
  | step => exact absurd rfl hstep
  | cancel root => exact absurd rfl (hcancel root)
  | enroll process args =>
    exact (stirs_spawn s h process args none .root).trans (stirs_enqueueLast _ _ _)
  | announce n =>
    have hpublish : Stirs s (s.publish h n).2 id := .of_tables rfl rfl rfl
    exact hpublish.trans (.foldl (fun s a => stirs_wakeLast s a _) _ _)
  | deliver c => exact stirs_applyCompletion s c
  | receive =>
    simp only [move]
    split
    · exact .refl s id
    · rename_i c rest _
      have hinbox : Stirs s { s with pending := { s.pending with inbox := rest } } id :=
        .of_tables rfl rfl rfl
      exact hinbox.trans (stirs_applyCompletion _ c)
  | _ => exact .of_tables rfl rfl rfl

/-! ## Where tasks are signalled -/

/-- A task that is live still was live before, and has not been woken. -/
def Bides (s s' : Scheduler P R W) (id : TaskId) : Prop :=
  ∀ t', s'.task? id = some t' → ∃ t, s.task? id = some t ∧ t.Bides t'

/-- As far as its status says, the task may be stepped. -/
def Ready (s : Scheduler P R W) (id : TaskId) : Prop :=
  ∀ t, s.task? id = some t → t.status = .running

theorem Bides.of_stance
    (hs : (s'.task? id).map Task.stance = (s.task? id).map Task.stance) : Bides s s' id := by
  intro t' ht'
  rw [ht', Option.map_some] at hs
  obtain ⟨t, ht, hstance⟩ := Option.map_eq_some_iff.1 hs.symm
  exact ⟨t, ht, .of_stance hstance.symm⟩

theorem Bides.of_tasks (htasks : s'.tasks = s.tasks) : Bides s s' id :=
  .of_stance (by rw [task?_of_tasks htasks])

theorem Bides.refl (s : Scheduler P R W) (id : TaskId) : Bides s s id := .of_tasks rfl

theorem Bides.trans (hs : Bides s s' id) (hs' : Bides s' s'' id) : Bides s s'' id := by
  intro t'' ht''
  obtain ⟨t', ht', hb'⟩ := hs' t'' ht''
  obtain ⟨t, ht, hb⟩ := hs t' ht'
  exact ⟨t, ht, hb.trans hb'⟩

theorem Bides.foldl {α : Type} {f : Scheduler P R W → α → Scheduler P R W}
    (hf : ∀ s a, Bides s (f s a) id) (as : List α) (s : Scheduler P R W) :
    Bides s (as.foldl f s) id :=
  List.foldlRecOn (motive := fun r => Bides s r id) as f (.refl s id)
    fun r hr a _ => hr.trans (hf r a)

theorem Ready.bides (hr : Ready s id) (hs : Bides s s' id) : Ready s' id := by
  intro t' ht'
  obtain ⟨t, ht, hb⟩ := hs t' ht'
  exact hb.status.trans (hr t ht)

theorem bides_updateTask_of_ne (s : Scheduler P R W) (f : Task P R W → Task P R W) (hid : id ≠ a) :
    Bides s (s.updateTask a f) id :=
  .of_stance (by simp [hid])

theorem bides_signal (s : Scheduler P R W) (a : TaskId) : Bides s (s.signal a) id := by
  by_cases hid : id = a
  · subst hid
    intro t' ht'
    cases ht : s.task? id with
    | none => simp [signal, ht] at ht'
    | some t =>
      refine ⟨t, rfl, ?_⟩
      have hmark : ∀ {wait}, (s.mark id t wait).task? id = some t' → t.cancelling = false →
          (t.process.isSome → wait = .nothing) → t.Bides t' := by
        intro wait hmarked hcalm hwait
        have hstance := stance_mark ht wait
        rw [hmarked, Option.map_some, Option.some.injEq] at hstance
        simp only [Task.stance, Prod.mk.injEq] at hstance
        obtain ⟨hprocess, hset, hstatus, hcancel⟩ := hstance
        exact ⟨hstatus, hprocess, .inr ⟨hcalm, hcancel, fun hp => hset.trans (hwait hp)⟩⟩
      simp only [signal, ht] at ht'
      cases hcalm : t.cancelling with
      | true =>
        rw [if_pos hcalm, ht] at ht'
        cases ht'
        exact .of_stance rfl
      | false =>
        rw [if_neg (by simp [hcalm])] at ht'
        split at ht'
        · exact hmark ht' hcalm fun _ => rfl
        · rename_i hp
          exact hmark ht' hcalm fun hp' => absurd hp' hp
  · rcases signal_cases s a with heq | ⟨t, wait, -, -, -, heq | heq⟩ <;> rw [heq]
    · exact .refl s id
    · exact .of_stance (stance_mark_of_ne s hid t wait)
    · exact .of_stance (stance_mark_of_ne s hid t wait)

theorem bides_cancelSubtree (s : Scheduler P R W) (root : TaskId) :
    Bides s (s.cancelSubtree root) id :=
  .foldl bides_signal _ s

theorem bides_cancelSubtrees (s : Scheduler P R W) (roots : List TaskId) :
    Bides s (s.cancelSubtrees roots) id :=
  .foldl bides_cancelSubtree _ s

theorem bides_raiseOf (s : Scheduler P R W) (a : TaskId) (outcome : Outcome) :
    Bides s (s.raiseOf a outcome) id := by
  unfold raiseOf
  split <;> exact .of_tasks rfl

theorem bides_abort (s : Scheduler P R W) (a : TaskId) (error : TaskError) :
    Bides s (s.abort a error) id := by
  rcases abort_cases s a error with ⟨heq, -⟩ | ⟨t, -, -, -, heq⟩ <;> rw [heq]
  · exact .refl s id
  · have hblame := untouched_updateTask_of_stance s a
      (fun t => { t with abort := some error }) (fun _ => rfl) (fun _ => rfl) id
    exact (Bides.of_stance hblame.stance).trans (bides_cancelSubtree _ a)

/-! ## Answers -/

theorem task?_wakeIfWaiting_of_ne {wait : Wait} (hw : s.wait? id ≠ some wait) (a : TaskId)
    (input : Input) : (s.wakeIfWaiting a wait input).task? id = s.task? id := by
  unfold wakeIfWaiting
  split
  · rename_i ha
    have hid : id ≠ a := by
      rintro rfl
      exact hw ha
    exact (task?_updateTask s a id _).trans (if_neg hid)
  · rfl

theorem ready_wakeFirst (s : Scheduler P R W) (id : TaskId) (input : Input) :
    Ready (s.wakeFirst id input) id := by
  intro t' ht'
  rw [show (s.wakeFirst id input).task? id = _ from task?_updateTask s id id _, if_pos rfl] at ht'
  obtain ⟨t, -, rfl⟩ := Option.map_eq_some_iff.1 ht'
  rfl

theorem Ready.wakeFirst (hr : Ready s id) (a : TaskId) (input : Input) :
    Ready (s.wakeFirst a input) id := by
  by_cases hid : id = a
  · exact hid ▸ ready_wakeFirst s id input
  · exact hr.bides (bides_updateTask_of_ne s _ hid)

theorem Ready.wakeIfWaiting (hr : Ready s id) (a : TaskId) (wait : Wait) (input : Input) :
    Ready (s.wakeIfWaiting a wait input) id := by
  unfold Scheduler.wakeIfWaiting
  split
  · exact hr.wakeFirst a input
  · exact hr

theorem ready_wakeIfWaiting {wait : Wait} (hw : s.wait? id = some wait) (input : Input) :
    Ready (s.wakeIfWaiting id wait input) id := by
  rw [Scheduler.wakeIfWaiting, if_pos hw]
  exact ready_wakeFirst s id input

theorem bides_answerJoiners {record : Settlement} (hw : s.wait? id ≠ some (.join record.task))
    (joiners : List TaskId) : Bides s (s.answerJoiners joiners record) id := by
  have hsame : (s.answerJoiners joiners record).task? id = s.task? id := by
    refine List.foldlRecOn (motive := fun r : Scheduler P R W => r.task? id = s.task? id) _ _ rfl
      fun r hr joiner _ => ?_
    refine (task?_wakeIfWaiting_of_ne ?_ joiner _).trans hr
    rwa [wait?, hr]
  exact .of_stance (by rw [hsame])

theorem ready_answerJoiners {record : Settlement} (hw : s.wait? id = some (.join record.task))
    {joiners : List TaskId} (hid : id ∈ joiners) : Ready (s.answerJoiners joiners record) id := by
  have hfold : ∀ (l : List TaskId) (r : Scheduler P R W),
      Ready r id ∨ id ∈ l ∧ r.wait? id = some (.join record.task) →
      Ready (l.foldl (fun s joiner => s.wakeIfWaiting joiner (.join record.task) record.answer) r)
        id := by
    intro l
    induction l with
    | nil => exact fun r hr => hr.resolve_right (by simp)
    | cons joiner rest ih =>
      rintro r (hr | ⟨hm, hw⟩) <;> rw [List.foldl_cons]
      · exact ih _ (.inl (hr.wakeIfWaiting joiner _ _))
      · by_cases hj : id = joiner
        · subst hj
          exact ih _ (.inl (ready_wakeIfWaiting hw _))
        · refine ih _ (.inr ⟨(List.mem_cons.1 hm).resolve_left hj, ?_⟩)
          rw [wait?_wakeIfWaiting, if_neg fun heq => hj heq.1, hw]
  exact hfold _ s (.inr ⟨List.mem_reverse.2 hid, hw⟩)

/-- The owner of a group is woken when the group resolves. -/
theorem bides_settleBranch {g : GroupId} {slot : Nat} {outcome : Outcome}
    (hnot : ∀ group input, s.groups.find? g = some group →
      (group.settle slot outcome).2 = some input → s.wait? id ≠ some (.group g)) :
    Bides s (s.settleBranch g slot outcome) id := by
  rcases settleBranch_cases s g slot outcome with
    ⟨-, heq⟩ | ⟨group, hg, ⟨-, heq⟩ | ⟨input, hsettle, heq⟩⟩ <;> rw [heq]
  · exact .refl s id
  · exact .of_tasks rfl
  · let erased : Scheduler P R W := { s with groups := s.groups.erase g }
    have howner : Bides s (erased.wakeIfWaiting group.owner (.group g) input) id :=
      .of_stance (congrArg _ (task?_wakeIfWaiting_of_ne (s := erased)
        (hnot group input hg hsettle) group.owner input))
    exact howner.trans (bides_cancelSubtrees _ _)

theorem ready_settleBranch {g : GroupId} {slot : Nat} {outcome : Outcome} {group : Group}
    {input : Input} (hg : s.groups.find? g = some group)
    (hsettle : (group.settle slot outcome).2 = some input)
    (hw : s.wait? group.owner = some (.group g)) :
    Ready (s.settleBranch g slot outcome) group.owner := by
  rcases settleBranch_cases s g slot outcome with
    ⟨hnone, -⟩ | ⟨group', hg', ⟨hnone, -⟩ | ⟨input', -, heq⟩⟩
  · rw [hg] at hnone
    cases hnone
  · obtain rfl := Option.some.inj (hg.symm.trans hg')
    rw [hsettle] at hnone
    cases hnone
  · obtain rfl := Option.some.inj (hg.symm.trans hg')
    rw [heq]
    let erased : Scheduler P R W := { s with groups := s.groups.erase g }
    have howner := ready_wakeIfWaiting (s := erased) hw input'
    exact howner.bides (bides_cancelSubtrees _ _)

/-- A result is delivered to a task, or others are signalled. -/
theorem Ready.deliver (hr : Ready s id) (t : Task P R W) (record : Settlement) :
    Ready (s.deliver t record) id := by
  rcases deliver_cases s t record with
    heq | ⟨caller, -, -, heq⟩ | ⟨e, -, -, heq⟩ | ⟨parent, e, -, -, -, -, heq⟩ |
      ⟨g, slot, -, -, heq⟩ <;> rw [heq]
  · exact hr
  · exact hr.wakeIfWaiting caller _ _
  · exact hr
  · exact hr.bides (bides_abort s parent e)
  · rcases settleBranch_cases s g slot record.result with
      ⟨-, heq⟩ | ⟨group, -, ⟨-, heq⟩ | ⟨input, -, heq⟩⟩ <;> rw [heq]
    · exact hr
    · exact hr
    · have herase : Ready { s with groups := s.groups.erase g } id := hr
      exact (herase.wakeIfWaiting group.owner _ input).bides (bides_cancelSubtrees _ _)

/-! ## Departures -/

theorem bides_cleared (d : Departure P R W) (h : Host P R W) : Bides d.before (d.cleared h) id := by
  intro t' ht'
  obtain ⟨-, t, ht, heq⟩ := find_of_cleared d h ht'
  exact ⟨t, ht, .of_stance (by rw [heq]; rfl)⟩

theorem wait?_filed (d : Departure P R W) (h : Host P R W) (hne : id ≠ d.id)
    (hw : d.before.wait? id ≠ some (.join d.id)) : (d.filed h).wait? id = d.before.wait? id := by
  have hcleared := wait?_cleared d h hne
  rw [← hcleared] at hw ⊢
  exact wait?_answerJoiners_of_ne _ _ _ hw

/-- A task that is not answered bides when another one leaves. -/
theorem bides_after (d : Departure P R W) (h : Host P R W) (hnot : ¬d.Wakes id) :
    Bides d.before (d.after h) id := by
  by_cases hid : id = d.id
  · intro t' ht'
    exact absurd hid (find_of_after d h ht').1
  have hjoin : d.before.wait? id ≠ some (.join d.id) := fun hw => hnot (.inl hw)
  have hcleared : (d.cleared h).wait? id ≠ some (.join d.id) := by
    rwa [wait?_cleared d h hid]
  have hwait := wait?_filed d h hid hjoin
  have hfiled : Bides d.before (d.filed h) id :=
    (bides_cleared d h).trans (bides_answerJoiners hcleared _)
  refine hfiled.trans ?_
  rw [d.after_eq h]
  rcases deliver_cases (d.filed h) d.task d.record with
    heq | ⟨caller, -, -, heq⟩ | ⟨e, -, -, heq⟩ | ⟨parent, e, -, -, -, -, heq⟩ |
      ⟨g, slot, hrole, hstatus, heq⟩ <;> rw [heq]
  · exact .refl _ id
  · have hcall : (d.filed h).wait? id ≠ some (.call d.id) :=
      fun hw => hnot (.inr (.inl (hwait ▸ hw)))
    exact .of_stance (congrArg _ (task?_wakeIfWaiting_of_ne hcall caller _))
  · exact .of_tasks rfl
  · exact bides_abort _ parent e
  · refine bides_settleBranch fun group input hgroup hsettle hw => ?_
    rw [groups_filed d h] at hgroup
    have hresolved : d.resolution? g = some input :=
      Departure.resolution?_eq_some.2 ⟨slot, group, hrole, hstatus, hgroup, hsettle⟩
    exact hnot (.inr (.inr ⟨g, hwait ▸ hw, by simp [hresolved]⟩))

/-- Whoever waits for a task that leaves is ready after that. -/
theorem Leaving.ready (hd : Leaving d) (hwakes : d.Wakes id) : Ready (d.after h) id := by
  obtain ⟨L, hc⟩ := hd.coherent
  rw [d.after_eq h]
  rcases hwakes with hw | hw | ⟨g, hw, hresolved⟩
  · have hcleared : (d.cleared h).wait? id = some (.join d.record.task) := by
      rw [wait?_cleared d h (hd.ne_of_wait hw (by simp)), hw]
      rfl
    have hfiled : Ready (d.filed h) id :=
      ready_answerJoiners hcleared ((hd.mem_joiners id).2 hw)
    exact hfiled.deliver d.task d.record
  · have hfiled := wait?_filed d h (hd.ne_of_wait hw (by simp)) (by simp [hw])
    obtain ⟨t, ht, hrole, hparent⟩ := hc.called hw
    obtain rfl := Option.some.inj (hd.found.symm.trans ht)
    have hdeliver : (d.filed h).deliver d.task d.record =
        (d.filed h).wakeIfWaiting id (.call d.id) d.record.answer := by
      simp [deliver, hrole, hparent, Departure.record]
    rw [hdeliver]
    exact ready_wakeIfWaiting (hfiled.trans hw) _
  · have hfiled := wait?_filed d h (hd.ne_of_wait hw (by simp)) (by simp [hw])
    obtain ⟨input, hresolved⟩ := Option.isSome_iff_exists.1 hresolved
    obtain ⟨slot, group, hrole, hstatus, hgroup, hsettle⟩ :=
      Departure.resolution?_eq_some.1 hresolved
    obtain ⟨group', hgroup', howner⟩ := ((hc.registered id).group g).1 hw
    obtain rfl := Option.some.inj (hgroup.symm.trans hgroup')
    have hdeliver : (d.filed h).deliver d.task d.record =
        (d.filed h).settleBranch g slot d.record.result := by
      simp [deliver, hrole, hstatus]
    rw [hdeliver]
    subst howner
    exact ready_settleBranch (by rw [groups_filed d h, hgroup]) hsettle (hfiled.trans hw)

/-- While tasks leave, another task bides, unless one of them wakes it. One that is woken waited
before. -/
structure Passes (s s' : Scheduler P R W) (D : List (Departure P R W)) (id : TaskId) : Prop where
  bides : (∀ d ∈ D, ¬d.Wakes id) → Bides s s' id
  woken : ∀ d ∈ D, d.Wakes id → Ready s' id ∧
    ∃ t, s.task? id = some t ∧ (t.process.isSome → t.wait ≠ .nothing)

theorem Bides.passes (hs : Bides s s' id) : Passes s s' [] id := ⟨fun _ => hs, by simp⟩

theorem Passes.trans (hs : Passes s r D id) (hs' : Passes r s' D' id) :
    Passes s s' (D ++ D') id := by
  refine ⟨fun hnot => ?_, fun d hd hwakes => ?_⟩
  · exact (hs.bides fun d hd => hnot d (List.mem_append_left _ hd)).trans
      (hs'.bides fun d hd => hnot d (List.mem_append_right _ hd))
  · -- the last one to wake the task makes it ready, and the first one finds it waiting
    have hready : Ready s' id := by
      by_cases hlast : ∃ d ∈ D', d.Wakes id
      · obtain ⟨d, hd, hwakes⟩ := hlast
        exact (hs'.woken d hd hwakes).1
      · push Not at hlast
        have hm : d ∈ D := (List.mem_append.1 hd).resolve_right fun hm => hlast d hm hwakes
        exact (hs.woken d hm hwakes).1.bides (hs'.bides hlast)
    refine ⟨hready, ?_⟩
    by_cases hfirst : ∃ d ∈ D, d.Wakes id
    · obtain ⟨d, hd, hwakes⟩ := hfirst
      exact (hs.woken d hd hwakes).2
    · push Not at hfirst
      have hm : d ∈ D' := (List.mem_append.1 hd).resolve_left fun hm => hfirst d hm hwakes
      obtain ⟨u, hu, hwaits⟩ := (hs'.woken d hm hwakes).2
      obtain ⟨t, ht, hb⟩ := hs.bides hfirst u hu
      refine ⟨t, ht, fun hp hw => ?_⟩
      exact hwaits (hb.process ▸ hp) (hb.wait_eq_nothing hp hw)

theorem Passes.after (hs' : Passes r s' D id) (hs : Bides s r id) : Passes s s' D id :=
  hs.passes.trans hs'

theorem Leaving.passes (hd : Leaving d) : Passes d.before (d.after h) [d] id := by
  refine ⟨fun hnot => bides_after d h (hnot d (List.mem_singleton.2 rfl)), fun e he hwakes => ?_⟩
  obtain rfl := List.mem_singleton.1 he
  refine ⟨hd.ready hwakes, ?_⟩
  have hwaits : ∀ {w}, e.before.wait? id = some w → w ≠ .nothing →
      ∃ t, e.before.task? id = some t ∧ (t.process.isSome → t.wait ≠ .nothing) := by
    intro w hw hne
    obtain ⟨t, ht, rfl⟩ := Option.map_eq_some_iff.1 hw
    exact ⟨t, ht, fun _ => hne⟩
  rcases hwakes with hw | hw | ⟨g, hw, -⟩ <;> exact hwaits hw (by simp)

theorem passes_climb (h : Host P R W) (fuel : Nat) (root : TaskId) (s : Scheduler P R W)
    (hall : ∀ d ∈ climb h fuel root s, Leaving d) :
    Passes s (settleWithin h fuel root s) (climb h fuel root s) id := by
  induction fuel generalizing root s with
  | zero => exact (Bides.refl s id).passes
  | succ fuel ih =>
    unfold climb at hall ⊢
    unfold settleWithin
    cases ht : s.task? root with
    | none => exact (Bides.refl s id).passes
    | some t =>
      by_cases hdone : t.isDone
      · cases hparent : t.parent with
        | none =>
          simp only [ht, hdone, hparent, if_true] at hall ⊢
          exact Leaving.passes (hall _ (List.mem_singleton.2 rfl))
        | some parent =>
          simp only [ht, hdone, hparent, if_true] at hall ⊢
          have hfirst : Passes s (s.retire h root t) [⟨s, root, t⟩] id :=
            Leaving.passes (hall _ List.mem_cons_self)
          exact hfirst.trans (ih parent _ fun d hd => hall d (List.mem_cons_of_mem _ hd))
      · simpa [hdone] using (Bides.refl s id).passes

/-- The process of another task ends. -/
theorem passes_finish (hid : id ≠ a) (h : Host P R W) (outcome : Outcome)
    (hall : ∀ d ∈ s.finishClimb h a outcome, Leaving d) :
    Passes s (s.finish h a outcome) (s.finishClimb h a outcome) id := by
  unfold finishClimb at hall ⊢
  unfold finish
  cases ht : s.task? a with
  | none => exact (bides_raiseOf s a outcome).passes
  | some t =>
    simp only [ht] at hall
    have hend : Bides (s.raiseOf a outcome) ((s.raiseOf a outcome).endProcess a outcome) id :=
      bides_updateTask_of_ne _ _ hid
    have hdown := ((bides_raiseOf s a outcome).trans hend).trans
      (bides_cancelSubtrees _ (t.takenDown outcome))
    exact (passes_climb h _ a _ hall).after hdown

/-! ## Moves -/

/-- A cancellation answers the task that asks for it, or nobody, and it signals others. -/
theorem cancel_cases (hs : s.cancel a target = .ok s') :
    ∃ r, (r = s ∨ r = s.answer a .unit) ∧ (s' = r ∨ s' = r.cancelSubtree target) := by
  unfold cancel at hs
  split at hs
  · split at hs <;> cases hs
    · exact ⟨s, .inl rfl, .inr rfl⟩
    · exact ⟨_, .inr rfl, .inr rfl⟩
  · split at hs <;> cases hs
    exact ⟨_, .inr rfl, .inl rfl⟩

theorem bides_cancel (hid : id ≠ a) (hs : s.cancel a target = .ok s') : Bides s s' id := by
  obtain ⟨r, hanswer, hsignal⟩ := cancel_cases hs
  have hfirst : Bides s r id := by
    rcases hanswer with rfl | rfl
    · exact .refl r id
    · exact bides_updateTask_of_ne s _ hid
  rcases hsignal with rfl | rfl
  · exact hfirst
  · exact hfirst.trans (bides_cancelSubtree r target)

theorem Ready.cancel (hr : Ready s a) (hs : s.cancel a target = .ok s') : Ready s' a := by
  obtain ⟨r, hanswer, hsignal⟩ := cancel_cases hs
  have hfirst : Ready r a := by
    rcases hanswer with rfl | rfl
    · exact hr
    · exact hr.wakeFirst a (.value .unit)
  rcases hsignal with rfl | rfl
  · exact hfirst
  · exact hfirst.bides (bides_cancelSubtree r target)

/-- How a task fares while others act and leave. -/
def Fares (s s' : Scheduler P R W) (D : List (Departure P R W)) (id : TaskId) : Prop :=
  Stirs s s' id ∨ Passes s s' D id

theorem Fares.after (hs : Fares r s' D id) (hstirs : Stirs s r id) (hbides : Bides s r id) :
    Fares s s' D id :=
  hs.imp hstirs.trans fun hpasses => hpasses.after hbides

theorem fares_dispatch (hid : id ≠ a) (h : Host P R W) (effect : Effect P W)
    (hall : ∀ d ∈ s.dispatchClimb h a effect, Leaving d) :
    Fares s (s.dispatch h a effect) (s.dispatchClimb h a effect) id := by
  have hsame : (s.note h a effect).tasks = s.tasks ∧
      (s.note h a effect).nextTask = s.nextTask ∧ (s.note h a effect).queue = s.queue := by
    unfold note
    split <;> exact ⟨rfl, rfl, rfl⟩
  obtain ⟨htasks, hnext, hqueue⟩ := hsame
  have hstirs : Stirs s (s.note h a effect) id := .of_tables htasks hnext hqueue
  have hbides : Bides s (s.note h a effect) id := .of_tasks htasks
  unfold dispatchClimb at hall ⊢
  unfold dispatch violate
  cases hviolation : effect.violation? with
  | some violation =>
    rw [hviolation] at hall
    exact .inr (passes_finish hid h _ hall)
  | none =>
    rw [hviolation] at hall
    dsimp only at hall ⊢
    cases hs : (s.note h a effect).carryOut h a effect with
    | error violation =>
      rw [hs] at hall
      exact .inr ((passes_finish hid h _ hall).after hbides)
    | ok s' =>
      by_cases hne : ∀ target, effect ≠ .cancel target
      · exact .inl (hstirs.trans (stirs_carryOut hne hs))
      · push Not at hne
        obtain ⟨target, rfl⟩ := hne
        exact .inr (hbides.trans (bides_cancel hid hs)).passes

theorem fares_step (hid : id ≠ a) (h : Host P R W) (input : Input)
    (hall : ∀ d ∈ s.stepClimb h a input, Leaving d) :
    Fares s (s.step h a input) (s.stepClimb h a input) id := by
  unfold stepClimb at hall ⊢
  unfold step
  cases ht : s.task? a with
  | none => exact .inl (.refl s id)
  | some t =>
    cases hp : t.process with
    | none => exact .inl (by simpa [hp] using Stirs.refl s id)
    | some process =>
      simp only [ht, hp] at hall ⊢
      generalize process.step h.program.resume input s.world = outcome at hall ⊢
      obtain ⟨answer, process', world⟩ := outcome
      have hstore : ({ s with world }.storeProcess a process').task? id = s.task? id :=
        (task?_updateTask { s with world } a id _).trans (if_neg hid)
      have hstirs : Stirs s ({ s with world }.storeProcess a process') id :=
        .of_task? hstore rfl (by rw [waiters_storeProcess]; rfl)
      have hbides : Bides s ({ s with world }.storeProcess a process') id :=
        .of_stance (congrArg _ hstore)
      cases answer with
      | yield effect => exact (fares_dispatch hid h effect hall).after hstirs hbides
      | done v => exact Fares.after (.inr (passes_finish hid h _ hall)) hstirs hbides
      | failed e => exact Fares.after (.inr (passes_finish hid h _ hall)) hstirs hbides

/-- In every move the tasks fare so whose turn it is not. -/
theorem Run.fares (run : Run h log s) (m : Move P) (hidle : m = .step → id ∉ s.active) :
    Fares s (s.move h m) (s.departures h m) id := by
  by_cases hstep : m = .step
  · subst hstep
    have hall : ∀ d ∈ s.departures h .step, Leaving d :=
      fun d hd => (run.move .step).leaving (by simp [hd])
    cases hq : s.queue with
    | nil =>
      rw [move_step_nil h hq]
      exact .inl (.refl s id)
    | cons entry rest =>
      obtain ⟨a, input⟩ := entry
      have hid : id ≠ a := fun heq => hidle rfl (by simp [active, hq, heq])
      have hclimb : s.departures h .step = { s with queue := rest }.stepClimb h a input := by
        simp [departures, hq]
      rw [move_step_cons h hq, hclimb]
      rw [hclimb] at hall
      have hpop : Stirs s { s with queue := rest } id := by
        refine .of_task? rfl rfl ?_
        simp [waiters, hq, List.count_cons_of_ne (Ne.symm hid)]
      have hfault := tasks_takeFault ({ s with queue := rest }.step h a input)
      refine ((fares_step hid h input hall).after hpop (.of_tasks rfl)).imp
        (fun hs => hs.trans (.of_tables hfault (quiet_takeFault _).tree.next
          (queue_takeFault _))) fun hs => ?_
      simpa using hs.trans (Bides.of_tasks hfault).passes
  · by_cases hcancel : ∃ root, m = .cancel root
    · obtain ⟨root, rfl⟩ := hcancel
      exact .inr (bides_cancelSubtree s root).passes
    · exact .inl (stirs_move s h hstep fun root heq => hcancel ⟨root, heq⟩)

/-- A task that has carried out an effect is suspended, or its status says that it is running. -/
theorem Ready.dispatch (hr : Ready s id) (hid : id.val < s.nextTask) (hl : s.isLive id)
    {t' : Task P R W} (ht' : (s.dispatch h id effect).task? id = some t') :
    t'.process = none ∨ (t'.wait = .nothing → t'.status = .running) := by
  have hnote := (quiet_note s h id effect).tree
  have hnoted : Ready (s.note h id effect) id := by
    unfold note
    split <;> exact hr
  have hfinish : ∀ {r}, SameTree s r → ∀ violation,
      (r.violate h id violation).task? id = some t' → t'.process = none :=
    fun hs violation hfound => ended_of_finish (hs.next ▸ hid) (by rwa [hs.isLive]) h _ hfound
  rcases dispatch_cases s h id effect with
    ⟨s', -, hs, heq⟩ | ⟨violation, ⟨-, heq⟩ | ⟨-, heq⟩⟩ <;> rw [heq] at ht'
  · refine .inr fun hw => ?_
    by_cases hne : ∀ target, effect ≠ .cancel target
    · rcases (stirs_carryOut hne hs).task t' ht' with
        hwait | ⟨hstatus, -⟩ | ⟨t, ht, hstatus, -⟩
      · exact absurd hw hwait
      · exact hstatus
      · exact hstatus.trans (hnoted t ht)
    · push Not at hne
      obtain ⟨target, rfl⟩ := hne
      exact hnoted.cancel hs t' ht'
  · exact .inl (hfinish (.refl s) violation ht')
  · exact .inl (hfinish hnote violation ht')

/-- A task that goes on after its turn is suspended, or its status says that it is running. -/
theorem Run.ready_of_turn (run : Run h log s) (hactive : id ∈ s.active) {t' : Task P R W}
    (ht' : (s.move h .step).task? id = some t') (hw : t'.wait = .nothing) :
    t'.status = .running := by
  have hp : t'.process.isSome := Option.isSome_iff_ne_none.2 fun hnone => by
    have hchildren := ((run.move .step).coherent.fit id t' ht').ended.1 hnone
    rw [hchildren] at hw
    cases hw
  obtain ⟨effect, hturn⟩ := run.yielded hactive ht' hp
  obtain ⟨t, process, input, rest, hq, ht, -, -, hmove⟩ := turn_yield hturn
  have hstored := task?_storeProcess (s := { s with queue := rest }) ht
    (process.step h.program.resume input s.world).2.1
    (process.step h.program.resume input s.world).2.2
  have hready : Ready _ id := fun u hu => by
    rw [Option.some.inj (hu.symm.trans hstored)]
  rw [hmove, task?_of_tasks (tasks_takeFault _)] at ht'
  have hfresh := run.tidy.forest.fresh id (by simp [isLive_eq, ht])
  rcases hready.dispatch hfresh (by simp [isLive_eq, hstored]) ht' with hnone | hstatus
  · simp [hnone] at hp
  · exact hstatus hw

end Scheduler

end CoopTasks
