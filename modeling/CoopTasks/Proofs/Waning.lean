import CoopTasks.Proofs.Delivery
import CoopTasks.Proofs.Precedence

/-!
# Who comes to wait

A task comes to wait for the settlement of another only by a join, and an operation comes to be
awaited only by a call. In all else that happens, settlements and cancellations first of all, those
who wait become fewer, and the order of the others stays.
-/

namespace CoopTasks

namespace Pending

variable {p p' p'' : Pending}

/-- Some operations are forgotten, each together with its timers. -/
structure Forgets (p p' : Pending) : Prop where
  kept : ∃ ops : List OperationId,
    p'.awaited.entries = p.awaited.entries.filter (fun entry => entry.1 ∉ ops) ∧
      p'.timers = p.timers.filter fun timer => timer.2 ∉ ops
  clock : p'.clock = p.clock
  next : p'.nextId = p.nextId

/-- Nothing is forgotten. -/
theorem Forgets.of_same (hawaited : p'.awaited = p.awaited) (htimers : p'.timers = p.timers)
    (hclock : p'.clock = p.clock) (hnext : p'.nextId = p.nextId) : Forgets p p' :=
  ⟨⟨[], by simp [hawaited], by simp [htimers]⟩, hclock, hnext⟩

theorem Forgets.refl (p : Pending) : Forgets p p := .of_same rfl rfl rfl rfl

theorem Forgets.trans (hp : Forgets p p') (hp' : Forgets p' p'') : Forgets p p'' := by
  obtain ⟨ops, hawaited, htimers⟩ := hp.kept
  obtain ⟨ops', hawaited', htimers'⟩ := hp'.kept
  refine ⟨⟨ops ++ ops', ?_, ?_⟩, hp'.clock.trans hp.clock, hp'.next.trans hp.next⟩
  · rw [hawaited', hawaited, List.filter_filter]
    simp [Bool.and_comm]
  · rw [htimers', htimers, List.filter_filter]
    simp [Bool.and_comm]

theorem forgets_discard (p : Pending) (op : OperationId) : Forgets p (p.discard op) :=
  ⟨⟨[op], by simp [discard, Table.erase], by simp [discard]⟩, rfl, rfl⟩

theorem Forgets.awaited (hp : Forgets p p') :
    p'.awaited.entries.Sublist p.awaited.entries := by
  obtain ⟨ops, hawaited, -⟩ := hp.kept
  exact hawaited ▸ List.filter_sublist

/-- The clock is set, and timers are taken out of the index. -/
structure Elapses (now : Nat) (p p' : Pending) : Prop where
  awaited : p'.awaited = p.awaited
  timers : p'.timers.Sublist p.timers
  clock : p'.clock = max p.clock now
  next : p'.nextId = p.nextId

theorem elapses_setClock (p : Pending) (now : Nat) : Elapses now p (p.setClock now) :=
  ⟨rfl, .refl _, rfl, rfl⟩

theorem elapses_expire (p : Pending) (timer : Nat × OperationId) :
    Elapses timer.1 p (p.expire timer) :=
  ⟨rfl, List.filter_sublist, rfl, rfl⟩

end Pending

namespace Scheduler

variable {P R W : Type} {s s' s'' : Scheduler P R W} {h : Host P R W}

/-- No task comes to join another, and no operation comes to be awaited. -/
structure Wanes (s s' : Scheduler P R W) : Prop where
  joiners : ∀ u, (s'.waiters (.join u)).Sublist (s.waiters (.join u))
  pending : s.pending.Forgets s'.pending

theorem Wanes.of_tables (htasks : s'.tasks = s.tasks) (hpending : s'.pending = s.pending) :
    Wanes s s' := by
  refine ⟨fun u => ?_, hpending ▸ .refl _⟩
  simp only [waiters, task?_of_tasks htasks, List.Sublist.refl]

theorem Wanes.refl (s : Scheduler P R W) : Wanes s s := .of_tables rfl rfl

theorem Wanes.trans (hs : Wanes s s') (hs' : Wanes s' s'') : Wanes s s'' :=
  ⟨fun u => (hs'.joiners u).trans (hs.joiners u), hs.pending.trans hs'.pending⟩

theorem Wanes.foldl {α : Type} (f : Scheduler P R W → α → Scheduler P R W)
    (hf : ∀ s a, Wanes s (f s a)) (as : List α) (s : Scheduler P R W) :
    Wanes s (as.foldl f s) :=
  List.foldlRecOn (motive := Wanes s) as f (.refl s) fun r hr a _ => hr.trans (hf r a)

/-! ## Changes of tasks -/

theorem wanes_updateTask (s : Scheduler P R W) (id : TaskId) (f : Task P R W → Task P R W)
    (hf : ∀ t, (f t).joiners.Sublist t.joiners) : Wanes s (s.updateTask id f) := by
  refine ⟨fun u => ?_, .refl _⟩
  by_cases hu : u = id
  · cases ht : s.task? id with
    | none => simp [waiters, hu, ht]
    | some t => simpa [waiters, hu, ht] using hf t
  · simp [waiters, hu]

theorem wanes_makeReady (s : Scheduler P R W) (id : TaskId) : Wanes s (s.makeReady id) :=
  wanes_updateTask s id _ fun _ => .refl _

theorem wanes_wakeFirst (s : Scheduler P R W) (id : TaskId) (input : Input) :
    Wanes s (s.wakeFirst id input) :=
  (wanes_makeReady s id).trans (.of_tables rfl rfl)

theorem wanes_wakeLast (s : Scheduler P R W) (id : TaskId) (input : Input) :
    Wanes s (s.wakeLast id input) :=
  (wanes_makeReady s id).trans (.of_tables rfl rfl)

theorem wanes_enqueueLast (s : Scheduler P R W) (id : TaskId) (input : Input) :
    Wanes s (s.enqueueLast id input) :=
  .of_tables rfl rfl

theorem wanes_suspend (s : Scheduler P R W) (id : TaskId) (wait : Wait) :
    Wanes s (s.suspend id wait) :=
  wanes_updateTask s id _ fun _ => .refl _

theorem wanes_wakeIfWaiting (s : Scheduler P R W) (id : TaskId) (wait : Wait) (input : Input) :
    Wanes s (s.wakeIfWaiting id wait input) := by
  unfold wakeIfWaiting
  split
  · exact wanes_wakeFirst s id input
  · exact .refl s

theorem wanes_wakeAll (s : Scheduler P R W) (ids : List TaskId) (v : Value) :
    Wanes s (s.wakeAll ids v) :=
  .foldl _ (fun s id => wanes_wakeFirst s id _) _ s

theorem wanes_addTask (s : Scheduler P R W) (name : String) (parent : Option TaskId) (role : Role)
    (process : Process P R W) : Wanes s (s.addTask name parent role process).2 := by
  have hpending : (s.addTask name parent role process).2.pending = s.pending := by
    cases parent <;> rfl
  have hchild : Wanes s (s.addChild ⟨s.nextTask⟩ parent) := by
    cases parent with
    | none => exact .refl s
    | some parent => exact wanes_updateTask s parent _ fun _ => .refl _
  refine ⟨fun u => ?_, hpending ▸ .refl _⟩
  by_cases hu : u = ⟨s.nextTask⟩
  · simp [waiters, task?_addTask, hu]
  · simpa [waiters, task?_addTask, hu] using hchild.joiners u

theorem wanes_spawn (s : Scheduler P R W) (h : Host P R W) (process : P) (args : List Value)
    (parent : Option TaskId) (role : Role) : Wanes s (s.spawn h process args parent role).2 := by
  have hworld : ∀ world, Wanes s { s with world } := fun _ => .of_tables rfl rfl
  exact (hworld _).trans (wanes_addTask _ _ parent role _)

theorem wanes_addBranches (owner : TaskId) (group : GroupId) (mode : GroupMode) (slot : Nat)
    (effects : List (Effect P W)) (s : Scheduler P R W) :
    Wanes s (s.addBranches owner group mode slot effects).2 := by
  induction effects generalizing slot s with
  | nil => exact .refl s
  | cons effect rest ih => exact (wanes_addTask s _ _ _ _).trans (ih (slot + 1) _)

theorem wanes_startGroup (s : Scheduler P R W) (id : TaskId) (mode : GroupMode)
    (effects : List (Effect P W)) : Wanes s (s.startGroup id mode effects) := by
  unfold startGroup
  split
  · exact wanes_wakeFirst s id _
  · have hnext : Wanes s { s with nextGroup := s.nextGroup + 1 } := .of_tables rfl rfl
    exact ((hnext.trans (wanes_addBranches id ⟨s.nextGroup⟩ mode 0 effects _)).trans
      (wanes_suspend _ id _)).trans (.of_tables rfl rfl)

/-! ## Cancellation -/

theorem wanes_discard (s : Scheduler P R W) (op : OperationId) :
    Wanes s { s with pending := s.pending.discard op } :=
  ⟨fun _ => .refl _, Pending.forgets_discard s.pending op⟩

theorem wanes_withdraw (s : Scheduler P R W) (id : TaskId) (wait : Wait) :
    Wanes s (s.withdraw id wait) := by
  cases wait with
  | operation op => exact wanes_discard s op
  | join target => exact wanes_updateTask s target _ fun _ => List.filter_sublist
  | _ => exact .of_tables rfl rfl

theorem wanes_mark (s : Scheduler P R W) (id : TaskId) (t : Task P R W) (wait : Wait) :
    Wanes s (s.mark id t wait) := by
  have hflag : Wanes s (s.updateTask id fun t => { t with cancelling := true, wait }) :=
    wanes_updateTask s id _ fun _ => .refl _
  exact (hflag.trans (wanes_withdraw _ id t.wait)).trans (.of_tables rfl rfl)

theorem wanes_signal (s : Scheduler P R W) (id : TaskId) : Wanes s (s.signal id) := by
  rcases signal_cases s id with heq | ⟨t, wait, -, -, -, heq | heq⟩ <;> rw [heq]
  · exact .refl s
  · exact wanes_mark s id t wait
  · exact (wanes_mark s id t wait).trans (.of_tables rfl rfl)

theorem wanes_cancelSubtree (s : Scheduler P R W) (root : TaskId) :
    Wanes s (s.cancelSubtree root) :=
  .foldl _ wanes_signal _ s

theorem wanes_cancelSubtrees (s : Scheduler P R W) (roots : List TaskId) :
    Wanes s (s.cancelSubtrees roots) :=
  .foldl _ wanes_cancelSubtree _ s

/-! ## Settlement -/

theorem wanes_answerJoiners (s : Scheduler P R W) (joiners : List TaskId) (record : Settlement) :
    Wanes s (s.answerJoiners joiners record) :=
  .foldl _ (fun s joiner => wanes_wakeIfWaiting s joiner _ _) _ s

theorem wanes_deliver (s : Scheduler P R W) (t : Task P R W) (record : Settlement) :
    Wanes s (s.deliver t record) := by
  rcases deliver_cases s t record with
    heq | ⟨caller, -, -, heq⟩ | ⟨e, -, -, heq⟩ | ⟨parent, e, -, -, -, -, heq⟩ |
      ⟨g, slot, -, -, heq⟩ <;> rw [heq]
  · exact .refl s
  · exact wanes_wakeIfWaiting _ _ _ _
  · exact .of_tables rfl rfl
  · rcases abort_cases s parent e with ⟨heq, -⟩ | ⟨t, -, -, -, heq⟩ <;> rw [heq]
    · exact .refl s
    · have hblamed : Wanes s (s.updateTask parent fun t => { t with abort := some e }) :=
        wanes_updateTask s parent _ fun _ => .refl _
      exact hblamed.trans (wanes_cancelSubtree _ parent)
  · rcases settleBranch_cases s g slot record.result with
      ⟨-, heq⟩ | ⟨group, -, ⟨-, heq⟩ | ⟨input, -, heq⟩⟩ <;> rw [heq]
    · exact .refl s
    · exact .of_tables rfl rfl
    · have herase : Wanes s { s with groups := s.groups.erase g } := .of_tables rfl rfl
      exact (herase.trans (wanes_wakeIfWaiting _ _ _ _)).trans (wanes_cancelSubtrees _ _)

theorem wanes_cleared (d : Departure P R W) (h : Host P R W) : Wanes d.before (d.cleared h) := by
  have hpending : (d.cleared h).pending = d.before.pending := by
    unfold Departure.cleared
    cases d.task.parent <;> rfl
  refine ⟨fun u => ?_, hpending ▸ .refl _⟩
  have hjoin := waiters_remove d.before d.id d.task.parent (.join u)
  change ((d.before.remove d.id d.task.parent).waiters (.join u)).Sublist _
  rw [hjoin]
  split
  · exact List.nil_sublist _
  · exact .refl _

theorem wanes_after (d : Departure P R W) (h : Host P R W) : Wanes d.before (d.after h) := by
  rw [d.after_eq h]
  exact ((wanes_cleared d h).trans (wanes_answerJoiners _ _ _)).trans (wanes_deliver _ _ _)

theorem wanes_climb (h : Host P R W) (fuel : Nat) (id : TaskId) (s : Scheduler P R W) :
    Wanes s (settleWithin h fuel id s) ∧ ∀ d ∈ climb h fuel id s, Wanes s d.before :=
  climb_preserves (I := Wanes s) (fun r id t _ _ hr => hr.trans (wanes_after ⟨r, id, t⟩ h)) fuel id
    (.refl s)

theorem wanes_raiseOf (s : Scheduler P R W) (id : TaskId) (outcome : Outcome) :
    Wanes s (s.raiseOf id outcome) := by
  unfold raiseOf
  split
  · exact .of_tables rfl rfl
  · exact .refl s

theorem wanes_endProcess (s : Scheduler P R W) (id : TaskId) (outcome : Outcome) :
    Wanes s (s.endProcess id outcome) :=
  wanes_updateTask s id _ fun _ => .refl _

theorem wanes_finish (s : Scheduler P R W) (h : Host P R W) (id : TaskId) (outcome : Outcome) :
    Wanes s (s.finish h id outcome) ∧ ∀ d ∈ s.finishClimb h id outcome, Wanes s d.before := by
  have hraise := wanes_raiseOf s id outcome
  unfold finish finishClimb
  cases s.task? id with
  | none => exact ⟨hraise, by simp⟩
  | some t =>
    have hend := (hraise.trans (wanes_endProcess _ id outcome)).trans
      (wanes_cancelSubtrees _ (t.takenDown outcome))
    exact ⟨hend.trans (wanes_climb h _ id _).1,
      fun d hd => hend.trans ((wanes_climb h _ id _).2 d hd)⟩

/-! ## Effects -/

/-- A task that joins a live one goes to the end of those who wait for it. -/
structure Joined (s s' : Scheduler P R W) (id target : TaskId) : Prop where
  pending : s'.pending = s.pending
  joiners : ∀ u, (s'.waiters (.join u)).Sublist
    (s.waiters (.join u) ++ if u = target then [id] else [])

/-- The operation that a task calls is carried out. -/
structure Invoked (s s' : Scheduler P R W) (id : TaskId) (operation : Operation W)
    (args : List Value) : Prop where
  pending : ∃ world,
    s'.pending = (s.pending.carryOut id (operation.invoke args id world)).2.1
  joiners : ∀ u, (s'.waiters (.join u)).Sublist (s.waiters (.join u))

theorem wanes_join {id target : TaskId} (hs : s.join id target = .ok s') :
    Wanes s s' ∨ Joined s s' id target := by
  unfold join at hs
  split at hs
  · cases hs
    refine Or.inr ⟨rfl, fun u => ?_⟩
    rw [waiters_suspend]
    by_cases hu : u = target
    · cases ht : s.task? target <;> simp [waiters, hu, ht]
    · simp [waiters, hu]
  · split at hs
    · cases hs
      exact Or.inl (wanes_wakeFirst s id _)
    · split at hs <;> cases hs
      exact Or.inl (wanes_wakeFirst s id _)

theorem invoked_call (s : Scheduler P R W) (id : TaskId) (operation : Operation W)
    (args : List Value) : Invoked s (s.call id operation args) id operation args := by
  unfold call
  refine ⟨⟨s.world, ?_⟩, fun u => ?_⟩
  · obtain ⟨outcome, pending, world⟩ := s.pending.carryOut id (operation.invoke args id s.world)
    cases outcome <;> rfl
  · obtain ⟨outcome, pending, world⟩ := s.pending.carryOut id (operation.invoke args id s.world)
    cases outcome with
    | answered result => exact (wanes_wakeFirst { s with pending, world } id _).joiners u
    | awaiting op => exact (wanes_suspend { s with pending, world } id _).joiners u

theorem wanes_setChannel (s : Scheduler P R W) (id : ChannelId) (c : Channel) :
    Wanes s (s.setChannel id c) :=
  .of_tables rfl rfl

theorem wanes_channelTake {id : TaskId} {channel : ChannelId}
    (hs : s.channelTake id channel = .ok s') : Wanes s s' := by
  unfold channelTake at hs
  split at hs
  · cases hs
  · split at hs <;> cases hs
    · exact ((wanes_setChannel _ _ _).trans (wanes_wakeFirst _ _ _)).trans (wanes_wakeFirst _ _ _)
    · exact (wanes_setChannel _ _ _).trans (wanes_wakeFirst _ _ _)
    · exact (wanes_setChannel _ _ _).trans (wanes_suspend _ _ _)
    · exact (wanes_setChannel _ _ _).trans (wanes_wakeFirst _ _ _)

theorem wanes_channelPut {id : TaskId} {channel : ChannelId} {v : Value}
    (hs : s.channelPut id channel v = .ok s') : Wanes s s' := by
  unfold channelPut at hs
  split at hs
  · cases hs
  · split at hs <;> cases hs
    · exact ((wanes_setChannel _ _ _).trans (wanes_wakeFirst _ _ _)).trans (wanes_wakeFirst _ _ _)
    · exact (wanes_setChannel _ _ _).trans (wanes_wakeFirst _ _ _)
    · exact (wanes_setChannel _ _ _).trans (wanes_wakeFirst _ _ _)
    · exact (wanes_setChannel _ _ _).trans (wanes_suspend _ _ _)
    · exact (wanes_setChannel _ _ _).trans (wanes_wakeFirst _ _ _)

theorem wanes_channelClose {id : TaskId} {channel : ChannelId}
    (hs : s.channelClose id channel = .ok s') : Wanes s s' := by
  unfold channelClose at hs
  split at hs <;> cases hs
  exact (((wanes_setChannel _ _ _).trans (wanes_wakeFirst _ _ _)).trans (wanes_wakeAll _ _ _)).trans
    (wanes_wakeAll _ _ _)

theorem wanes_cancel {id target : TaskId} (hs : s.cancel id target = .ok s') : Wanes s s' := by
  unfold cancel at hs
  split at hs
  · split at hs <;> cases hs
    · exact wanes_cancelSubtree s target
    · exact (wanes_wakeFirst s id _).trans (wanes_cancelSubtree _ target)
  · split at hs <;> cases hs
    exact wanes_wakeFirst s id _

/-- Only a join and a call make others wait. -/
theorem wanes_carryOut {id : TaskId} {effect : Effect P W} (hs : s.carryOut h id effect = .ok s') :
    Wanes s s' ∨ (∃ target, effect = .join target ∧ Joined s s' id target) ∨
      ∃ operation args, effect = .call operation args ∧ Invoked s s' id operation args := by
  have hpublish : ∀ n, Wanes s (s.publish h n).2 := fun _ => .of_tables rfl rfl
  have hopen : ∀ channels nextChannel, Wanes s { s with channels, nextChannel } :=
    fun _ _ => .of_tables rfl rfl
  have htake : ∀ takers, Wanes s { s with takers } := fun _ => .of_tables rfl rfl
  cases effect with
  | call operation args =>
    cases hs
    exact Or.inr (Or.inr ⟨operation, args, rfl, invoked_call s id operation args⟩)
  | join target => exact (wanes_join hs).imp_right fun hjoined => Or.inl ⟨target, rfl, hjoined⟩
  | callProcess process args =>
    cases hs
    exact Or.inl (((wanes_spawn s h process args _ .called).trans (wanes_suspend _ _ _)).trans
      (.of_tables rfl rfl))
  | put n =>
    cases hs
    exact Or.inl (((hpublish n).trans (wanes_wakeFirst _ _ _)).trans (wanes_wakeAll _ _ _))
  | take pattern =>
    cases pattern with
    | channel channel => exact Or.inl (wanes_channelTake hs)
    | _ => cases hs; exact Or.inl ((htake _).trans (wanes_suspend _ _ _))
  | fork process args =>
    cases hs
    have hspawn := wanes_spawn s h process args (some (s.forkOwner id)) .forked
    exact Or.inl ((hspawn.trans (wanes_enqueueLast _ _ _)).trans (wanes_wakeFirst _ _ _))
  | cancel target => exact Or.inl (wanes_cancel hs)
  | cancelled => cases hs; exact Or.inl (wanes_wakeFirst _ _ _)
  | all effects => cases hs; exact Or.inl (wanes_startGroup _ _ _ _)
  | race branches => cases hs; exact Or.inl (wanes_startGroup _ _ _ _)
  | channel policy => cases hs; exact Or.inl ((hopen _ _).trans (wanes_wakeFirst _ _ _))
  | channelTake channel => exact Or.inl (wanes_channelTake hs)
  | channelPut channel v => exact Or.inl (wanes_channelPut hs)
  | channelClose channel => exact Or.inl (wanes_channelClose hs)
  | select selector => cases hs; exact Or.inl (wanes_wakeFirst _ _ _)

/-! ## Moves -/

theorem wanes_note (s : Scheduler P R W) (h : Host P R W) (id : TaskId) (effect : Effect P W) :
    Wanes s (s.note h id effect) := by
  unfold note
  split
  · exact .of_tables rfl rfl
  · exact .refl s

theorem wanes_takeFault (s : Scheduler P R W) : Wanes s s.takeFault.2 := by
  unfold takeFault
  split
  · exact .refl s
  · exact .of_tables rfl rfl

theorem Joined.around {r r' : Scheduler P R W} {id target : TaskId} (hs : Wanes s r)
    (hpending : r.pending = s.pending) (hj : Joined r r' id target) (hs' : Wanes r' s')
    (hpending' : s'.pending = r'.pending) : Joined s s' id target :=
  ⟨hpending'.trans (hj.pending.trans hpending), fun u =>
    ((hs'.joiners u).trans (hj.joiners u)).trans ((hs.joiners u).append (.refl _))⟩

theorem Invoked.around {r r' : Scheduler P R W} {id : TaskId} {operation : Operation W}
    {args : List Value} (hs : Wanes s r) (hpending : r.pending = s.pending)
    (hj : Invoked r r' id operation args) (hs' : Wanes r' s')
    (hpending' : s'.pending = r'.pending) : Invoked s s' id operation args := by
  obtain ⟨world, hcarried⟩ := hj.pending
  exact ⟨⟨world, hpending'.trans (hpending ▸ hcarried)⟩, fun u =>
    ((hs'.joiners u).trans (hj.joiners u)).trans (hs.joiners u)⟩

theorem pending_note (s : Scheduler P R W) (h : Host P R W) (id : TaskId) (effect : Effect P W) :
    (s.note h id effect).pending = s.pending := by
  unfold note
  split <;> rfl

theorem pending_takeFault (s : Scheduler P R W) : s.takeFault.2.pending = s.pending := by
  unfold takeFault
  split <;> rfl

theorem wanes_dispatch (s : Scheduler P R W) (h : Host P R W) (id : TaskId) (effect : Effect P W) :
    Wanes s (s.dispatch h id effect) ∧ (∀ d ∈ s.dispatchClimb h id effect, Wanes s d.before) ∨
    s.dispatchClimb h id effect = [] ∧
      ((∃ target, effect = .join target ∧ Joined s (s.dispatch h id effect) id target) ∨
        ∃ operation args, effect = .call operation args ∧
          Invoked s (s.dispatch h id effect) id operation args) := by
  have hnote := wanes_note s h id effect
  have hpending := pending_note s h id effect
  unfold dispatch dispatchClimb violate
  cases effect.violation? with
  | some violation => exact Or.inl (wanes_finish s h id _)
  | none =>
    dsimp only
    cases hs : (s.note h id effect).carryOut h id effect with
    | error violation =>
      obtain ⟨hfinish, hbefore⟩ := wanes_finish (s.note h id effect) h id
        (.error (.protocol violation))
      exact Or.inl ⟨hnote.trans hfinish, fun d hd => hnote.trans (hbefore d hd)⟩
    | ok s' =>
      rcases wanes_carryOut hs with hwanes | ⟨target, rfl, hj⟩ | ⟨operation, args, rfl, hi⟩
      · exact Or.inl ⟨hnote.trans hwanes, by simp⟩
      · exact Or.inr ⟨rfl, Or.inl ⟨target, rfl, hj.around hnote hpending (.refl _) rfl⟩⟩
      · exact Or.inr ⟨rfl, Or.inr ⟨operation, args, rfl, hi.around hnote hpending (.refl _) rfl⟩⟩

theorem wanes_step (s : Scheduler P R W) (h : Host P R W) (id : TaskId) (input : Input) :
    Wanes s (s.step h id input) ∧ (∀ d ∈ s.stepClimb h id input, Wanes s d.before) ∨
    s.stepClimb h id input = [] ∧ ∃ t process, s.task? id = some t ∧ t.process = some process ∧
      ((∃ target, (process.step h.program.resume input s.world).1 = .yield (.join target) ∧
          Joined s (s.step h id input) id target) ∨
        ∃ operation args,
          (process.step h.program.resume input s.world).1 = .yield (.call operation args) ∧
          Invoked s (s.step h id input) id operation args) := by
  unfold step stepClimb
  cases ht : s.task? id with
  | none => exact Or.inl ⟨.refl s, by simp⟩
  | some t =>
    cases hp : t.process with
    | none => exact Or.inl ⟨by simpa [hp] using Wanes.refl s, by simp [hp]⟩
    | some process =>
      simp only [hp]
      cases hstep : process.step h.program.resume input s.world with
      | mk answer state =>
        obtain ⟨process', world⟩ := state
        have hworld : Wanes s { s with world } := .of_tables rfl rfl
        have hstore : Wanes s ({ s with world }.storeProcess id process') :=
          hworld.trans (wanes_updateTask _ id _ fun _ => .refl _)
        cases answer with
        | yield effect =>
          rcases wanes_dispatch ({ s with world }.storeProcess id process') h id effect with
            ⟨hdispatch, hbefore⟩ | ⟨hnone, ⟨target, rfl, hj⟩ | ⟨operation, args, rfl, hi⟩⟩
          · exact Or.inl ⟨hstore.trans hdispatch, fun d hd => hstore.trans (hbefore d hd)⟩
          · exact Or.inr ⟨hnone, t, process, rfl, hp, Or.inl ⟨target, by rw [hstep],
              hj.around hstore rfl (.refl _) rfl⟩⟩
          · exact Or.inr ⟨hnone, t, process, rfl, hp, Or.inr ⟨operation, args, by rw [hstep],
              hi.around hstore rfl (.refl _) rfl⟩⟩
        | done v =>
          obtain ⟨hend, hbefore⟩ :=
            wanes_finish ({ s with world }.storeProcess id process') h id (.ok v)
          exact Or.inl ⟨hstore.trans hend, fun d hd => hstore.trans (hbefore d hd)⟩
        | failed e =>
          obtain ⟨hend, hbefore⟩ :=
            wanes_finish ({ s with world }.storeProcess id process') h id (.error e)
          exact Or.inl ⟨hstore.trans hend, fun d hd => hstore.trans (hbefore d hd)⟩

/-- The time that a move sets the clock to. -/
def time? : Move P → Option Nat
  | .setClock now => some now
  | .expire timer => some timer.1
  | _ => none

/-- What a move does to those who wait. -/
inductive Waning (h : Host P R W) (s : Scheduler P R W) (m : Move P) : Prop where
  | wanes : Wanes s (s.move h m) → (∀ d ∈ s.departures h m, Wanes s d.before) → Waning h s m
  | joined (id target : TaskId) : m = .step → s.turn? h = some (id, .yield (.join target)) →
      s.departures h m = [] → Joined s (s.move h m) id target → Waning h s m
  | invoked (id : TaskId) (operation : Operation W) (args : List Value) : m = .step →
      s.turn? h = some (id, .yield (.call operation args)) → s.departures h m = [] →
      Invoked s (s.move h m) id operation args → Waning h s m
  | clock (now : Nat) (pending : Pending) : time? m = some now → s.departures h m = [] →
      s.move h m = { s with pending } → s.pending.Elapses now pending → Waning h s m

theorem waning_step (s : Scheduler P R W) (h : Host P R W) : Waning h s .step := by
  cases hq : s.queue with
  | nil => exact .wanes (by rw [move_step_nil h hq]; exact .refl s) (by simp [departures, hq])
  | cons entry rest =>
    obtain ⟨id, input⟩ := entry
    have hpop : Wanes s { s with queue := rest } := .of_tables rfl rfl
    have hfault := wanes_takeFault ({ s with queue := rest }.step h id input)
    have hpending := pending_takeFault ({ s with queue := rest }.step h id input)
    have hmove := move_step_cons h hq
    have hdepartures : s.departures h .step = { s with queue := rest }.stepClimb h id input := by
      simp [departures, hq]
    rcases wanes_step { s with queue := rest } h id input with
      ⟨hstep, hbefore⟩ |
      ⟨hnone, t, process, ht, hp, ⟨target, hyield, hj⟩ | ⟨op, args, hyield, hi⟩⟩
    · refine .wanes ?_ fun d hd => hpop.trans (hbefore d (hdepartures ▸ hd))
      rw [hmove]
      exact (hpop.trans hstep).trans hfault
    · refine .joined id target rfl ?_ (hdepartures.trans hnone) ?_
      · have ht' : s.task? id = some t := ht
        simp [turn?, hq, ht', hp, hyield]
      · rw [hmove]
        exact hj.around hpop rfl hfault hpending
    · refine .invoked id op args rfl ?_ (hdepartures.trans hnone) ?_
      · have ht' : s.task? id = some t := ht
        simp [turn?, hq, ht', hp, hyield]
      · rw [hmove]
        exact hi.around hpop rfl hfault hpending

theorem wanes_applyCompletion (s : Scheduler P R W) (c : Completion) :
    Wanes s (s.applyCompletion c).2 := by
  have hdiscard := wanes_discard s c.operation
  unfold applyCompletion
  split
  · dsimp only
    split
    · exact hdiscard.trans (wanes_wakeLast _ _ _)
    · exact hdiscard
  · split <;> exact .refl s

theorem waning_move (s : Scheduler P R W) (h : Host P R W) (m : Move P) : Waning h s m := by
  cases m with
  | step => exact waning_step s h
  | expire timer =>
    exact .clock _ _ rfl (by simp [departures]) rfl (Pending.elapses_expire s.pending timer)
  | setClock now =>
    exact .clock _ _ rfl (by simp [departures]) rfl (Pending.elapses_setClock s.pending now)
  | enroll process args =>
    exact .wanes ((wanes_spawn s h process args none .root).trans (wanes_enqueueLast _ _ _))
      (by simp [departures])
  | announce n =>
    have hpublish : Wanes s (s.publish h n).2 := .of_tables rfl rfl
    exact .wanes (hpublish.trans (.foldl _ (fun s id => wanes_wakeLast s id _) _ _))
      (by simp [departures])
  | deliver c => exact .wanes (wanes_applyCompletion s c) (by simp [departures])
  | queue c =>
    exact .wanes ⟨fun _ => .refl _, .of_same rfl rfl rfl rfl⟩ (by simp [departures])
  | receive =>
    refine .wanes ?_ (by simp [departures])
    simp only [move]
    split
    · exact .refl s
    · rename_i c rest _
      have hinbox : Wanes s { s with pending := { s.pending with inbox := rest } } :=
        ⟨fun _ => .refl _, .of_same rfl rfl rfl rfl⟩
      exact hinbox.trans (wanes_applyCompletion _ c)
  | cancel id => exact .wanes (wanes_cancelSubtree s id) (by simp [departures])
  | takeUnhandled => exact .wanes (.of_tables rfl rfl) (by simp [departures])
  | dropJournal => exact .wanes (.of_tables rfl rfl) (by simp [departures])

end Scheduler

end CoopTasks
