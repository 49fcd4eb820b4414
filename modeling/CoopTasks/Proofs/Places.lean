import CoopTasks.Proofs.Forest

/-!
# Where tasks are registered

A task that can go on is in the queue; one that waits for a notification, for another task, at a
channel or for a group is in the table of what it waits for. `waiters` reads all these tables alike,
and the lemmas say how the operations of the scheduler change them. Operations that wait for a
completion, for a called process or for children are not registered anywhere.
-/

namespace CoopTasks

/-- Whether those who wait so are listed somewhere. -/
def Wait.isListed : Wait → Bool
  | .operation _ | .call _ | .children => false
  | _ => true

/-- The part of a task that its registration is about. -/
def Task.stance {P R W : Type} (t : Task P R W) :
    Option (Process P R W) × Wait × Status × Bool :=
  (t.process, t.wait, t.status, t.cancelling)

namespace Scheduler

variable {P R W : Type} {s s' s'' : Scheduler P R W}

/-- The tasks that are registered under a wait; those that wait for nothing are queued. -/
def waiters (s : Scheduler P R W) : Wait → List TaskId
  | .nothing => s.queue.map Prod.fst
  | .take => s.takers.map Prod.fst
  | .join target => (s.task? target).elim [] Task.joiners
  | .channelTake c => (s.channels.find? c).elim [] Channel.takers
  | .channelPut c => (s.channels.find? c).elim [] fun channel => channel.putters.map Prod.fst
  | .group g => (s.groups.find? g).elim [] fun group => [group.owner]
  | .operation _ | .call _ | .children => []

theorem waiters_channelTake {c : ChannelId} {channel : Channel}
    (hc : s.channels.find? c = some channel) : s.waiters (.channelTake c) = channel.takers := by
  simp [waiters, hc]

theorem waiters_channelPut {c : ChannelId} {channel : Channel}
    (hc : s.channels.find? c = some channel) :
    s.waiters (.channelPut c) = channel.putters.map Prod.fst := by
  simp [waiters, hc]

/-- An operation leaves a task as it is, and registered where it is. -/
structure Untouched (s s' : Scheduler P R W) (id : TaskId) : Prop where
  stance : (s'.task? id).map Task.stance = (s.task? id).map Task.stance
  place : ∀ w, (s'.waiters w).count id = (s.waiters w).count id

theorem Untouched.refl (s : Scheduler P R W) (id : TaskId) : Untouched s s id :=
  ⟨rfl, fun _ => rfl⟩

theorem Untouched.trans {id : TaskId} (h : Untouched s s' id) (h' : Untouched s' s'' id) :
    Untouched s s'' id :=
  ⟨h'.stance.trans h.stance, fun w => (h'.place w).trans (h.place w)⟩

theorem find_of_stance {id : TaskId} {t' : Task P R W} (ht : s'.task? id = some t')
    (hs : (s'.task? id).map Task.stance = (s.task? id).map Task.stance) :
    ∃ t, s.task? id = some t ∧ t.process = t'.process ∧ t.wait = t'.wait ∧
      t.status = t'.status ∧ t.cancelling = t'.cancelling := by
  rw [ht] at hs
  cases ht' : s.task? id with
  | none => simp [ht'] at hs
  | some t =>
    rw [ht'] at hs
    simp only [Option.map_some, Option.some.injEq, Task.stance, Prod.mk.injEq] at hs
    exact ⟨t, rfl, hs.1.symm, hs.2.1.symm, hs.2.2.1.symm, hs.2.2.2.symm⟩

/-- A live task is live before and after, in the same stance. -/
theorem Untouched.find {id : TaskId} (h : Untouched s s' id) {t' : Task P R W}
    (ht : s'.task? id = some t') :
    ∃ t, s.task? id = some t ∧ t.process = t'.process ∧ t.wait = t'.wait ∧
      t.status = t'.status ∧ t.cancelling = t'.cancelling :=
  find_of_stance ht h.stance

theorem Untouched.symm {id : TaskId} (h : Untouched s s' id) : Untouched s' s id :=
  ⟨h.stance.symm, fun w => (h.place w).symm⟩

theorem Untouched.wait? {id : TaskId} (h : Untouched s s' id) : s'.wait? id = s.wait? id := by
  have hs := congrArg (Option.map fun stance => stance.2.1) h.stance
  simpa [Scheduler.wait?, Task.stance, Function.comp_def] using hs

/-- The tables of tasks and registrations are the same. -/
theorem Untouched.of_tables (htasks : s'.tasks = s.tasks) (hqueue : s'.queue = s.queue)
    (htakers : s'.takers = s.takers) (hchannels : s'.channels = s.channels)
    (hgroups : s'.groups = s.groups) (id : TaskId) : Untouched s s' id := by
  refine ⟨by rw [task?_of_tasks htasks], fun w => ?_⟩
  cases w <;> simp only [waiters, task?_of_tasks htasks, hqueue, htakers, hchannels, hgroups]

/-! ## Changes of tasks -/

theorem waiters_updateTask (s : Scheduler P R W) (id : TaskId) (f : Task P R W → Task P R W)
    (hf : ∀ t, (f t).joiners = t.joiners) (w : Wait) :
    (s.updateTask id f).waiters w = s.waiters w := by
  cases w with
  | join target =>
    by_cases ht : target = id
    · cases hid : s.task? id <;> simp [waiters, ht, hid, hf]
    · simp [waiters, ht]
  | _ => rfl

theorem wait?_updateTask (s : Scheduler P R W) (id j : TaskId) (f : Task P R W → Task P R W)
    (hj : j ≠ id) : (s.updateTask id f).wait? j = s.wait? j := by
  simp [wait?, hj]

/-- A change of one task touches no other. -/
theorem untouched_updateTask (s : Scheduler P R W) (id : TaskId) (f : Task P R W → Task P R W)
    (hf : ∀ t, (f t).joiners = t.joiners) {j : TaskId} (hj : j ≠ id) :
    Untouched s (s.updateTask id f) j :=
  ⟨by simp [hj], fun w => by rw [waiters_updateTask s id f hf]⟩

theorem waiters_makeReady (s : Scheduler P R W) (id : TaskId) (w : Wait) :
    (s.makeReady id).waiters w = s.waiters w :=
  waiters_updateTask s id (fun t => { t with wait := .nothing, status := .running }) (fun _ => rfl) w

theorem waiters_suspend (s : Scheduler P R W) (id : TaskId) (wait w : Wait) :
    (s.suspend id wait).waiters w = s.waiters w :=
  waiters_updateTask s id (fun t => { t with wait := wait, status := .waiting }) (fun _ => rfl) w

theorem untouched_makeReady (s : Scheduler P R W) (id : TaskId) {j : TaskId} (hj : j ≠ id) :
    Untouched s (s.makeReady id) j :=
  untouched_updateTask s id (fun t => { t with wait := .nothing, status := .running })
    (fun _ => rfl) hj

theorem untouched_suspend (s : Scheduler P R W) (id : TaskId) (wait : Wait) {j : TaskId}
    (hj : j ≠ id) : Untouched s (s.suspend id wait) j :=
  untouched_updateTask s id (fun t => { t with wait := wait, status := .waiting }) (fun _ => rfl) hj

theorem waiters_endProcess (s : Scheduler P R W) (id : TaskId) (outcome : Outcome) (w : Wait) :
    (s.endProcess id outcome).waiters w = s.waiters w :=
  waiters_updateTask s id (fun t =>
    { t with process := none, wait := .children, status := .waiting, outcome := some outcome })
    (fun _ => rfl) w

theorem untouched_endProcess (s : Scheduler P R W) (id : TaskId) (outcome : Outcome) {j : TaskId}
    (hj : j ≠ id) : Untouched s (s.endProcess id outcome) j :=
  untouched_updateTask s id (fun t =>
    { t with process := none, wait := .children, status := .waiting, outcome := some outcome })
    (fun _ => rfl) hj

theorem waiters_storeProcess (s : Scheduler P R W) (id : TaskId) (process : Process P R W)
    (w : Wait) : (s.storeProcess id process).waiters w = s.waiters w :=
  waiters_updateTask s id (fun t =>
    { t with process := some process, status := .running, wait := .nothing }) (fun _ => rfl) w

theorem untouched_storeProcess (s : Scheduler P R W) (id : TaskId) (process : Process P R W)
    {j : TaskId} (hj : j ≠ id) : Untouched s (s.storeProcess id process) j :=
  untouched_updateTask s id (fun t =>
    { t with process := some process, status := .running, wait := .nothing }) (fun _ => rfl) hj

/-- A change that keeps stance and joiners touches no task at all. -/
theorem untouched_updateTask_of_stance (s : Scheduler P R W) (id : TaskId)
    (f : Task P R W → Task P R W) (hf : ∀ t, (f t).joiners = t.joiners)
    (hstance : ∀ t, (f t).stance = t.stance) (j : TaskId) :
    Untouched s (s.updateTask id f) j := by
  by_cases hj : j = id
  · refine ⟨?_, fun w => by rw [waiters_updateTask s id f hf]⟩
    cases hid : s.task? id <;> simp [hj, hid, hstance]
  · exact untouched_updateTask s id f hf hj

/-! ## The queue -/

theorem waiters_enqueueFirst (s : Scheduler P R W) (id : TaskId) (input : Input) (w : Wait) :
    (s.enqueueFirst id input).waiters w =
      if w = .nothing then id :: s.waiters .nothing else s.waiters w := by
  cases w <;> rfl

theorem waiters_enqueueLast (s : Scheduler P R W) (id : TaskId) (input : Input) (w : Wait) :
    (s.enqueueLast id input).waiters w =
      if w = .nothing then s.waiters .nothing ++ [id] else s.waiters w := by
  cases w with
  | nothing => simp [waiters, enqueueLast]
  | _ => rfl

theorem untouched_enqueueFirst (s : Scheduler P R W) (id : TaskId) (input : Input) {j : TaskId}
    (hj : j ≠ id) : Untouched s (s.enqueueFirst id input) j := by
  refine ⟨rfl, fun w => ?_⟩
  rw [waiters_enqueueFirst]
  split
  · rename_i hw
    rw [hw, List.count_cons_of_ne (Ne.symm hj)]
  · rfl

theorem untouched_enqueueLast (s : Scheduler P R W) (id : TaskId) (input : Input) {j : TaskId}
    (hj : j ≠ id) : Untouched s (s.enqueueLast id input) j := by
  refine ⟨rfl, fun w => ?_⟩
  rw [waiters_enqueueLast]
  split
  · rename_i hw
    rw [hw, List.count_append, List.count_singleton]
    simp [Ne.symm hj]
  · rfl

/-! ## Withdrawal -/

theorem count_filter_ne (l : List TaskId) (id j : TaskId) :
    (l.filter (· ≠ id)).count j = if j = id then 0 else l.count j := by
  by_cases hj : j = id
  · rw [if_pos hj, List.count_eq_zero]
    simp [hj]
  · rw [if_neg hj]
    exact List.count_filter (by simpa using hj)

theorem filter_map_fst {α : Type} (l : List (TaskId × α)) (id : TaskId) :
    (l.filter (·.1 ≠ id)).map Prod.fst = (l.map Prod.fst).filter (· ≠ id) := by
  rw [List.filter_map]
  rfl

theorem waiters_channels_modify (s : Scheduler P R W) (id : TaskId) (c : ChannelId) (w : Wait) :
    waiters { s with channels := s.channels.modify c (·.withdraw id) } w = s.waiters w ∨
      waiters { s with channels := s.channels.modify c (·.withdraw id) } w =
        (s.waiters w).filter (· ≠ id) := by
  cases w with
  | channelTake d =>
    by_cases hd : d = c
    · right
      cases hc : s.channels.find? c <;> simp [waiters, hd, hc, Channel.withdraw]
    · left
      simp [waiters, hd]
  | channelPut d =>
    by_cases hd : d = c
    · right
      cases hc : s.channels.find? c with
      | none => simp [waiters, hd, hc]
      | some channel =>
        simpa [waiters, hd, hc, Channel.withdraw] using filter_map_fst channel.putters id
    · left
      simp [waiters, hd]
  | _ => exact Or.inl rfl

/-- A task that withdraws from its own wait leaves all others where they are. -/
theorem waiters_withdraw (s : Scheduler P R W) (id : TaskId) (wait : Wait)
    (hgroup : ∀ g group, wait = .group g → s.groups.find? g = some group → group.owner = id)
    (w : Wait) :
    (s.withdraw id wait).waiters w = s.waiters w ∨
      (s.withdraw id wait).waiters w = (s.waiters w).filter (· ≠ id) := by
  cases wait with
  | take =>
    cases w with
    | take => exact Or.inr (filter_map_fst s.takers id)
    | _ => exact Or.inl rfl
  | join target =>
    cases w with
    | join other =>
      by_cases ho : other = target
      · right
        cases ht : s.task? target <;> simp [withdraw, waiters, ho, ht]
      · left
        simp [withdraw, waiters, ho]
    | _ => exact Or.inl rfl
  | channelTake c => exact waiters_channels_modify s id c w
  | channelPut c => exact waiters_channels_modify s id c w
  | group g =>
    cases w with
    | group other =>
      by_cases ho : other = g
      · right
        cases hg : s.groups.find? g with
        | none => simp [withdraw, waiters, ho, hg]
        | some group => simp [withdraw, waiters, ho, hg, hgroup g group rfl hg]
      · left
        simp [withdraw, waiters, ho]
    | _ => exact Or.inl rfl
  | _ => exact Or.inl (by cases w <;> rfl)

theorem not_mem_waiters_withdraw (s : Scheduler P R W) (id : TaskId) {wait : Wait}
    (hw : wait ≠ .nothing) : id ∉ (s.withdraw id wait).waiters wait := by
  cases wait with
  | nothing => exact absurd rfl hw
  | take => simp [withdraw, waiters]
  | join target => cases ht : s.task? target <;> simp [withdraw, waiters, ht]
  | channelTake c =>
    cases hc : s.channels.find? c <;> simp [withdraw, waiters, hc, Channel.withdraw]
  | channelPut c =>
    cases hc : s.channels.find? c <;> simp [withdraw, waiters, hc, Channel.withdraw]
  | group g => simp [withdraw, waiters]
  | _ => simp [waiters]

theorem waiters_unqueue (s : Scheduler P R W) (id : TaskId) (w : Wait) :
    (s.unqueue id).waiters w =
      if w = .nothing then (s.waiters .nothing).filter (· ≠ id) else s.waiters w := by
  cases w with
  | nothing => exact filter_map_fst s.queue id
  | _ => rfl

theorem stance_withdraw (s : Scheduler P R W) (id j : TaskId) (wait : Wait) :
    ((s.withdraw id wait).task? j).map Task.stance = (s.task? j).map Task.stance := by
  cases wait with
  | join target =>
    by_cases hj : j = target
    · cases ht : s.task? target <;> simp [withdraw, hj, ht, Task.stance]
    · simp [withdraw, hj]
  | _ => rfl

theorem untouched_withdraw (s : Scheduler P R W) (id : TaskId) (wait : Wait)
    (hgroup : ∀ g group, wait = .group g → s.groups.find? g = some group → group.owner = id)
    {j : TaskId} (hj : j ≠ id) : Untouched s (s.withdraw id wait) j := by
  refine ⟨stance_withdraw s id j wait, fun w => ?_⟩
  rcases waiters_withdraw s id wait hgroup w with hw | hw
  · rw [hw]
  · rw [hw, count_filter_ne, if_neg hj]

theorem untouched_unqueue (s : Scheduler P R W) (id : TaskId) {j : TaskId} (hj : j ≠ id) :
    Untouched s (s.unqueue id) j := by
  refine ⟨rfl, fun w => ?_⟩
  rw [waiters_unqueue]
  split
  · rename_i hw
    rw [count_filter_ne, if_neg hj, hw]
  · rfl

theorem untouched_mark (s : Scheduler P R W) (id : TaskId) (t : Task P R W) (wait : Wait)
    (hgroup : ∀ g group, t.wait = .group g → s.groups.find? g = some group → group.owner = id)
    {j : TaskId} (hj : j ≠ id) : Untouched s (s.mark id t wait) j := by
  have hflag := untouched_updateTask s id (fun t => { t with cancelling := true, wait })
    (fun _ => rfl) hj
  have hwithdraw := untouched_withdraw (s.updateTask id fun t => { t with cancelling := true, wait })
    id t.wait hgroup hj
  exact (hflag.trans hwithdraw).trans (untouched_unqueue _ id hj)

theorem stance_mark {id : TaskId} {t : Task P R W} (ht : s.task? id = some t) (wait : Wait) :
    ((s.mark id t wait).task? id).map Task.stance = some (t.process, wait, t.status, true) := by
  refine (stance_withdraw (s.updateTask id _) id id t.wait).trans ?_
  simp [ht, Task.stance]

theorem wait?_mark {id : TaskId} {t : Task P R W} (ht : s.task? id = some t) (wait : Wait) :
    (s.mark id t wait).wait? id = some wait := by
  have hw := congrArg (Option.map fun stance => stance.2.1) (stance_mark ht wait)
  simpa [wait?, Task.stance, Function.comp_def] using hw

/-- A marked task is registered nowhere. -/
theorem not_mem_waiters_mark (s : Scheduler P R W) (id : TaskId) (t : Task P R W) (wait : Wait)
    (hgroup : ∀ g group, t.wait = .group g → s.groups.find? g = some group → group.owner = id)
    (hplace : ∀ w, w ≠ .nothing → w ≠ t.wait → id ∉ s.waiters w) (w : Wait) :
    id ∉ (s.mark id t wait).waiters w := by
  unfold mark
  rw [waiters_unqueue]
  by_cases hn : w = .nothing
  · simp [hn]
  · rw [if_neg hn]
    by_cases hw : w = t.wait
    · rw [hw] at hn ⊢
      exact not_mem_waiters_withdraw _ id hn
    · have hnot := hplace w hn hw
      have hflag := waiters_updateTask s id (fun t => { t with cancelling := true, wait })
        (fun _ => rfl) w
      rcases waiters_withdraw (s.updateTask id fun t => { t with cancelling := true, wait }) id
        t.wait hgroup w with he | he
      · rwa [he, hflag]
      · rw [he, hflag]
        exact fun hm => hnot (List.mem_filter.1 hm).1

/-! ## Leaving the tree -/

theorem waiters_remove (s : Scheduler P R W) (id : TaskId) (parent : Option TaskId) (w : Wait) :
    (s.remove id parent).waiters w = if w = .join id then [] else s.waiters w := by
  cases w with
  | join target =>
    simp only [waiters, task?_remove, Wait.join.injEq]
    by_cases ht : target = id
    · simp [ht]
    · by_cases hp : parent = some target
      · cases s.task? target <;> simp [ht, hp]
      · simp [ht, hp]
  | _ => cases parent <;> rfl

theorem wait?_remove (s : Scheduler P R W) (id : TaskId) (parent : Option TaskId) (j : TaskId) :
    (s.remove id parent).wait? j = if j = id then none else s.wait? j := by
  unfold wait?
  rw [task?_remove]
  by_cases hj : j = id
  · simp [hj]
  · by_cases hp : parent = some j
    · simp [hj, hp, Function.comp_def]
    · simp [hj, hp]

theorem stance_remove (s : Scheduler P R W) {id j : TaskId} (hj : j ≠ id) (parent : Option TaskId) :
    ((s.remove id parent).task? j).map Task.stance = (s.task? j).map Task.stance := by
  rw [task?_remove, if_neg hj]
  split
  · rw [Option.map_map]
    rfl
  · rfl

/-! ## Effects -/

theorem waiters_addTask (s : Scheduler P R W) (hfresh : s.task? ⟨s.nextTask⟩ = none) (name : String)
    (parent : Option TaskId) (role : Role) (process : Process P R W) (w : Wait) :
    (s.addTask name parent role process).2.waiters w = s.waiters w := by
  cases w with
  | join target =>
    simp only [waiters, task?_addTask, task?_addChild]
    by_cases ht : target = ⟨s.nextTask⟩
    · simp [ht, hfresh]
    · by_cases hp : parent = some target
      · cases s.task? target <;> simp [ht, hp]
      · simp [ht, hp]
  | _ => cases parent <;> rfl

theorem stance_addTask (s : Scheduler P R W) (name : String) (parent : Option TaskId) (role : Role)
    (process : Process P R W) {j : TaskId} (hj : j ≠ ⟨s.nextTask⟩) :
    ((s.addTask name parent role process).2.task? j).map Task.stance =
      (s.task? j).map Task.stance := by
  rw [task?_addTask, if_neg hj, task?_addChild]
  split
  · rw [Option.map_map]
    rfl
  · rfl

theorem waiters_setChannel (s : Scheduler P R W) {id : ChannelId} {old : Channel}
    (hold : s.channels.find? id = some old) (c : Channel) (w : Wait) :
    (s.setChannel id c).waiters w =
      if w = .channelTake id then c.takers
      else if w = .channelPut id then c.putters.map Prod.fst
      else s.waiters w := by
  cases w with
  | channelTake d =>
    by_cases hd : d = id
    · simp [setChannel, waiters, hd, hold]
    · simp [setChannel, waiters, hd]
  | channelPut d =>
    by_cases hd : d = id
    · simp [setChannel, waiters, hd, hold]
    · simp [setChannel, waiters, hd]
  | _ => rfl

end Scheduler

end CoopTasks
