import CoopTasks.Proofs.Frailty

/-!
# Callers wait

A task that calls a process waits for its end. Nobody else answers it meanwhile: it is on no list of
those who wait, and what is queued for it would be found there. So as long as the called task is
live its caller waits for it, unless the caller is signalled; then it goes on with its signal while
the called task, which has been signalled too, cleans up.
-/

namespace CoopTasks.Scheduler

variable {P R W : Type} {s s' s'' : Scheduler P R W} {h : Host P R W} {L X T : Set TaskId}
variable {id target : TaskId} {ids : List TaskId} {effect : Effect P W}
variable {log : List (Scheduler P R W × Move P)}

/-- Every live task that was called is waited for, unless its caller is being cancelled. -/
def CallersWait (s : Scheduler P R W) : Prop :=
  ∀ child caller, Called s child caller →
    s.wait? caller = some (.call child) ∨ s.beingCancelled caller = true

/-- The tasks that wait for nothing that they called. -/
def unbound (s : Scheduler P R W) : Set TaskId := {id | ∀ child, s.wait? id ≠ some (.call child)}

/-- Who waits for what he called goes on to do so, until one of the two leaves or he is signalled.
The tasks in `T` are not held to that. -/
structure Heeds (T : Set TaskId) (s s' : Scheduler P R W) : Prop extends Later s s' where
  waits : ∀ caller child, caller.val < s.nextTask → child.val < s.nextTask → caller ∉ T →
    s.wait? caller = some (.call child) → s'.isLive caller → s'.isLive child →
    s'.beingCancelled caller = false → s'.wait? caller = some (.call child)

theorem mem_unbound {w : Wait} (hw : s.wait? id = some w)
    (hwait : ∀ child, w ≠ .call child) : id ∈ s.unbound := by
  intro child hcall
  exact hwait child (Option.some.inj (hw.symm.trans hcall))

theorem Coherent.unbound (hc : Coherent s L X) {w : Wait} (hm : id ∈ s.waiters w) :
    id ∈ s.unbound := by
  obtain ⟨-, -, hlisted, hw, -⟩ := hc.of_mem_waiters hm
  refine mem_unbound hw ?_
  rintro child rfl
  cases hlisted

theorem Coherent.unbound_of_publish (hc : Coherent s L X) {n : Notification}
    (hm : id ∈ (s.publish h n).1) : id ∈ s.unbound := by
  rw [(publish_eq s h n).1] at hm
  exact hc.unbound (w := .take) (List.map_subset _ (List.filter_subset_self _) hm)

/-- Nobody's wait changes but that of the tasks in `T` and of those that leave. -/
theorem Later.heeds (hlater : Later s s') (hwait : ∀ j, j.val < s.nextTask → j ∉ T →
    s'.isLive j → s'.wait? j = s.wait? j) : Heeds T s s' :=
  ⟨hlater, fun caller _ hid _ hT hw hl _ _ => (hwait caller hid hT hl).trans hw⟩

theorem Heeds.of_tasks (htasks : s'.tasks = s.tasks) (hnext : s'.nextTask = s.nextTask) :
    Heeds T s s' :=
  (Later.of_tasks htasks hnext).heeds fun j _ _ _ => by simp [wait?, task?_of_tasks htasks]

theorem Heeds.refl (s : Scheduler P R W) : Heeds T s s := .of_tasks rfl rfl

theorem Heeds.trans (hs : Heeds T s s') (hs' : Heeds T s' s'') : Heeds T s s'' := by
  refine ⟨hs.toLater.trans hs'.toLater, fun caller child hid hchild hT hw hl hl' hcalm => ?_⟩
  have hid' := Nat.lt_of_lt_of_le hid hs.next
  have hchild' := Nat.lt_of_lt_of_le hchild hs.next
  have hlive := hs'.isLive hid' hl
  have hcalm' : s'.beingCancelled caller = false := by
    by_contra hc
    rw [Bool.not_eq_false] at hc
    simp [hs'.beingCancelled hid' hl hc] at hcalm
  have hwait := hs.waits caller child hid hchild hT hw hlive (hs'.isLive hchild' hl') hcalm'
  exact hs'.waits caller child hid' hchild' hT hwait hl hl' hcalm

/-- Who still waits for what he called is not free to turn to something else. -/
theorem Heeds.after (hs : Heeds T s s') (hs' : Heeds s'.unbound s' s'') : Heeds T s s'' := by
  refine hs.trans ⟨hs'.toLater, fun caller child hid hchild _ hw => ?_⟩
  exact hs'.waits caller child hid hchild (fun hfree => hfree child hw) hw

theorem Heeds.foldl {α : Type} {f : Scheduler P R W → α → Scheduler P R W} {as : List α}
    (hf : ∀ s, ∀ a ∈ as, Heeds T s (f s a)) (s : Scheduler P R W) : Heeds T s (as.foldl f s) :=
  List.foldlRecOn (motive := Heeds T s) as f (.refl s) fun r hr a ha => hr.trans (hf r a ha)

/-! ## Single changes -/

theorem heeds_updateTask {f : Task P R W → Task P R W} (hlater : Later s (s.updateTask id f))
    (hwait : ∀ t, (f t).wait = t.wait) : Heeds T s (s.updateTask id f) := by
  refine hlater.heeds fun j _ _ _ => ?_
  by_cases hj : j = id
  · cases ht : s.task? j <;> simp [wait?, ← hj, ht, hwait]
  · exact wait?_updateTask s id j f hj

/-- A task in `T` turns to something else. -/
theorem heeds_turn {f : Task P R W → Task P R W} (hlater : Later s (s.updateTask id f))
    (hid : id ∈ T) : Heeds T s (s.updateTask id f) := by
  refine hlater.heeds fun j _ hj _ => wait?_updateTask s id j f ?_
  rintro rfl
  exact hj hid

theorem heeds_suspend (hid : id ∈ T) (s : Scheduler P R W) (wait : Wait) :
    Heeds T s (s.suspend id wait) :=
  heeds_turn (quiet_suspend s id wait).later hid

theorem heeds_wakeFirst (hid : id ∈ T) (s : Scheduler P R W) (input : Input) :
    Heeds T s (s.wakeFirst id input) :=
  (heeds_turn (quiet_makeReady s id).later hid).trans (.of_tasks rfl rfl)

theorem heeds_wakeLast (hid : id ∈ T) (s : Scheduler P R W) (input : Input) :
    Heeds T s (s.wakeLast id input) :=
  (heeds_turn (quiet_makeReady s id).later hid).trans (.of_tasks rfl rfl)

theorem heeds_answer (hid : id ∈ T) (s : Scheduler P R W) (v : Value) :
    Heeds T s (s.answer id v) :=
  heeds_wakeFirst hid s (.value v)

theorem heeds_wakeAll (hids : ∀ j ∈ ids, j ∈ T) (s : Scheduler P R W) (v : Value) :
    Heeds T s (s.wakeAll ids v) :=
  .foldl (fun s j hj => heeds_answer (hids j (List.mem_reverse.1 hj)) s v) s

/-- What resumes a task that waits as stated does not resume one that waits for a live task that it
called. -/
theorem heeds_wakeIfWaiting {w : Wait}
    (hwait : ∀ child, w = .call child → s.isLive child = false) (id : TaskId) (input : Input) :
    Heeds T s (s.wakeIfWaiting id w input) := by
  have hquiet := quiet_wakeIfWaiting s id w input
  refine ⟨hquiet.later, fun caller child _ _ _ hw _ hl _ => ?_⟩
  rw [wait?_wakeIfWaiting, if_neg ?_, hw]
  rintro ⟨rfl, hw'⟩
  rw [hquiet.tree.isLive, hwait child (Option.some.inj (hw'.symm.trans hw))] at hl
  cases hl

theorem heeds_signal (s : Scheduler P R W) (id : TaskId) : Heeds T s (s.signal id) := by
  refine ⟨(quiet_signal s id).later, fun caller child _ _ _ hw _ _ hcalm => ?_⟩
  rcases signal_cases s id with heq | ⟨t, wait, ht, -, -, heq⟩
  · rwa [heq]
  · have hmark : (s.mark id t wait).beingCancelled caller = false ∧
        (s.signal id).wait? caller = (s.mark id t wait).wait? caller := by
      rcases heq with heq | heq <;> rw [heq] at hcalm ⊢ <;> exact ⟨hcalm, rfl⟩
    have hne : caller ≠ id := by
      rintro rfl
      simp [beingCancelled_mark ht] at hmark
    rw [hmark.2, wait?_mark_of_ne s hne, hw]

theorem heeds_cancelSubtree (s : Scheduler P R W) (root : TaskId) :
    Heeds T s (s.cancelSubtree root) :=
  .foldl (fun s id _ => heeds_signal s id) s

theorem heeds_cancelSubtrees (s : Scheduler P R W) (roots : List TaskId) :
    Heeds T s (s.cancelSubtrees roots) :=
  .foldl (fun s id _ => heeds_cancelSubtree s id) s

theorem heeds_addTask (s : Scheduler P R W) (name : String) (parent : Option TaskId) (role : Role)
    (process : Process P R W) : Heeds T s (s.addTask name parent role process).2 := by
  refine (lasting_addTask s name parent role process).later.heeds fun j hj _ _ => ?_
  have hne : j ≠ ⟨s.nextTask⟩ := by
    rintro rfl
    exact Nat.lt_irrefl _ hj
  rw [wait?, task?_addTask, if_neg hne, task?_addChild]
  split <;> simp [wait?, Function.comp_def]

theorem heeds_spawn (s : Scheduler P R W) (h : Host P R W) (process : P) (args : List Value)
    (parent : Option TaskId) (role : Role) : Heeds T s (s.spawn h process args parent role).2 := by
  have hworld : Heeds T s { s with world := (h.program.spawn process args s.world).2 } :=
    .of_tasks rfl rfl
  exact hworld.trans (heeds_addTask _ _ parent role _)

theorem heeds_addBranches (owner : TaskId) (g : GroupId) (mode : GroupMode) (slot : Nat)
    (effects : List (Effect P W)) (s : Scheduler P R W) :
    Heeds T s (s.addBranches owner g mode slot effects).2 := by
  induction effects generalizing slot s with
  | nil => exact .refl s
  | cons effect rest ih => exact (heeds_addTask s _ _ _ _).trans (ih (slot + 1) _)

theorem heeds_note (s : Scheduler P R W) (h : Host P R W) (id : TaskId) (effect : Effect P W) :
    Heeds T s (s.note h id effect) := by
  unfold note
  split <;> exact .of_tasks rfl rfl

theorem heeds_raiseOf (s : Scheduler P R W) (id : TaskId) (outcome : Outcome) :
    Heeds T s (s.raiseOf id outcome) := by
  unfold raiseOf
  split <;> exact .of_tasks rfl rfl

theorem heeds_takeFault (s : Scheduler P R W) : Heeds T s s.takeFault.2 :=
  .of_tasks (tasks_takeFault s) (quiet_takeFault s).tree.next

/-! ## Effects -/

section Effects

variable (hid : id ∈ T)
include hid

theorem heeds_call (s : Scheduler P R W) (operation : Operation W) (args : List Value) :
    Heeds T s (s.call id operation args) := by
  unfold Scheduler.call
  obtain ⟨outcome, pending, world⟩ := s.pending.carryOut id (operation.invoke args id s.world)
  have hframe : Heeds T s { s with pending, world } := .of_tasks rfl rfl
  cases outcome with
  | answered result => exact hframe.trans (heeds_wakeFirst hid _ _)
  | awaiting op => exact hframe.trans (heeds_suspend hid _ _)

theorem heeds_callProcess (s : Scheduler P R W) (h : Host P R W) (process : P)
    (args : List Value) : Heeds T s (s.callProcess h id process args) :=
  ((heeds_spawn s h process args (some id) .called).trans (heeds_suspend hid _ _)).trans
    (.of_tasks rfl rfl)

theorem heeds_fork (s : Scheduler P R W) (h : Host P R W) (process : P) (args : List Value) :
    Heeds T s (s.fork h id process args) := by
  have hspawn : Heeds T s ((s.spawn h process args (some (s.forkOwner id)) .forked).2.enqueueLast
      ⟨s.nextTask⟩ (.value .unit)) := (heeds_spawn s h process args _ .forked).trans
    (.of_tasks rfl rfl)
  exact hspawn.trans (heeds_answer hid _ _)

theorem heeds_put (hc : Coherent s L X) (hT : s.unbound ⊆ T) (h : Host P R W) (n : Notification) :
    Heeds T s (s.put h id n) := by
  have hpublish : Heeds T s (s.publish h n).2 := .of_tasks rfl rfl
  refine (hpublish.trans (heeds_answer hid _ _)).trans (heeds_wakeAll (fun j hj => ?_) _ _)
  exact hT (hc.unbound_of_publish (h := h) hj)

theorem heeds_take (s : Scheduler P R W) (pattern : Pattern) :
    Heeds T s ({ s with takers := s.takers ++ [(id, pattern)] }.suspend id .take) := by
  have hentered : Heeds T s { s with takers := s.takers ++ [(id, pattern)] } := .of_tasks rfl rfl
  exact hentered.trans (heeds_suspend hid _ .take)

theorem heeds_join (hs : s.join id target = .ok s') : Heeds T s s' := by
  unfold join at hs
  split at hs
  · cases hs
    have hlater : Later s (s.updateTask target fun t => { t with joiners := t.joiners ++ [id] }) :=
      later_updateTask s target _ fun _ => ⟨rfl, rfl, fun hc => hc, fun hp => hp⟩
    exact (heeds_updateTask hlater fun _ => rfl).trans (heeds_suspend hid _ _)
  · split at hs
    · cases hs
      exact heeds_wakeFirst hid _ _
    · split at hs <;> cases hs
      exact heeds_wakeFirst hid _ _

theorem heeds_cancel (hs : s.cancel id target = .ok s') : Heeds T s s' := by
  unfold cancel at hs
  split at hs
  · split at hs <;> cases hs
    · exact heeds_cancelSubtree s target
    · exact (heeds_answer hid s .unit).trans (heeds_cancelSubtree _ target)
  · split at hs <;> cases hs
    exact heeds_answer hid s .unit

theorem heeds_startGroup (s : Scheduler P R W) (mode : GroupMode) (effects : List (Effect P W)) :
    Heeds T s (s.startGroup id mode effects) := by
  unfold startGroup
  split
  · exact heeds_answer hid s _
  · have hnext : Heeds T s { s with nextGroup := s.nextGroup + 1 } := .of_tasks rfl rfl
    exact ((hnext.trans (heeds_addBranches id ⟨s.nextGroup⟩ mode 0 effects _)).trans
      (heeds_suspend hid _ _)).trans (.of_tasks rfl rfl)

theorem heeds_channelTake (hc : Coherent s L X) (hT : s.unbound ⊆ T) {ch : ChannelId}
    (hs : s.channelTake id ch = .ok s') : Heeds T s s' := by
  unfold channelTake at hs
  cases hfind : s.channels.find? ch with
  | none => simp [hfind] at hs
  | some c =>
    simp only [hfind] at hs
    have hset : ∀ c', Heeds T s (s.setChannel ch c') := fun _ => .of_tasks rfl rfl
    rcases c.take_cases id with htake | ⟨-, htake⟩ | ⟨v, rest, htake⟩ |
      ⟨v, buffer, putter, next, putters, hp, htake⟩ <;> simp only [htake] at hs <;> cases hs
    · exact (hset _).trans (heeds_answer hid _ _)
    · exact (hset _).trans (heeds_suspend hid _ _)
    · exact (hset _).trans (heeds_answer hid _ _)
    · have hputter : putter ∈ s.waiters (.channelPut ch) := by
        simp [waiters_channelPut hfind, hp]
      exact ((hset _).trans (heeds_answer (hT (hc.unbound hputter)) _ .unit)).trans
        (heeds_answer hid _ v)

theorem heeds_channelPut (hc : Coherent s L X) (hT : s.unbound ⊆ T) {ch : ChannelId} {v : Value}
    (hs : s.channelPut id ch v = .ok s') : Heeds T s s' := by
  unfold channelPut at hs
  cases hfind : s.channels.find? ch with
  | none => simp [hfind] at hs
  | some c =>
    simp only [hfind] at hs
    have hset : ∀ c', Heeds T s (s.setChannel ch c') := fun _ => .of_tasks rfl rfl
    rcases c.put_cases id v with ⟨-, taker, takers, ht, hput⟩ | ⟨-, hput⟩ | ⟨buffer, hput⟩ | hput |
      ⟨capacity, hput⟩ <;> simp only [hput] at hs <;> cases hs
    · have htaker : taker ∈ s.waiters (.channelTake ch) := by
        simp [waiters_channelTake hfind, ht]
      exact ((hset _).trans (heeds_answer hid _ .unit)).trans
        (heeds_answer (hT (hc.unbound htaker)) _ v)
    · exact (hset _).trans (heeds_suspend hid _ _)
    · exact (hset _).trans (heeds_answer hid _ _)
    · exact (hset _).trans (heeds_answer hid _ _)
    · exact (hset _).trans (heeds_wakeFirst hid _ _)

theorem heeds_channelClose (hc : Coherent s L X) (hT : s.unbound ⊆ T) {ch : ChannelId}
    (hs : s.channelClose id ch = .ok s') : Heeds T s s' := by
  unfold channelClose at hs
  cases hfind : s.channels.find? ch with
  | none => simp [hfind] at hs
  | some c =>
    simp only [hfind, Except.ok.injEq] at hs
    subst hs
    have hset : Heeds T s (s.setChannel ch c.close) := .of_tasks rfl rfl
    refine ((hset.trans (heeds_answer hid _ .unit)).trans (heeds_wakeAll (fun j hj => ?_) _ .unit)
      ).trans (heeds_wakeAll (fun j hj => ?_) _ .closed)
    · exact hT (hc.unbound (waiters_channelPut hfind ▸ hj))
    · exact hT (hc.unbound (waiters_channelTake hfind ▸ hj))

theorem heeds_carryOut (hc : Coherent s L X) (hT : s.unbound ⊆ T)
    (hs : s.carryOut h id effect = .ok s') : Heeds T s s' := by
  cases effect with
  | call operation args => cases hs; exact heeds_call hid s operation args
  | callProcess process args => cases hs; exact heeds_callProcess hid s h process args
  | put n => cases hs; exact heeds_put hid hc hT h n
  | take pattern =>
    cases pattern with
    | channel ch => exact heeds_channelTake hid hc hT hs
    | _ => cases hs; exact heeds_take hid s _
  | fork process args => cases hs; exact heeds_fork hid s h process args
  | join target => exact heeds_join hid hs
  | cancel target => exact heeds_cancel hid hs
  | cancelled => cases hs; exact heeds_answer hid s _
  | all effects => cases hs; exact heeds_startGroup hid s _ _
  | race branches => cases hs; exact heeds_startGroup hid s _ _
  | channel policy =>
    cases hs
    have hopen : Heeds T s { s with
        channels := s.channels.insert ⟨s.nextChannel⟩ { policy }
        nextChannel := s.nextChannel + 1 } := .of_tasks rfl rfl
    exact hopen.trans (heeds_answer hid _ _)
  | channelTake ch => exact heeds_channelTake hid hc hT hs
  | channelPut ch v => exact heeds_channelPut hid hc hT hs
  | channelClose ch => exact heeds_channelClose hid hc hT hs
  | select selector => cases hs; exact heeds_answer hid s _

end Effects

/-! ## Settlement -/

theorem heeds_abort (s : Scheduler P R W) (id : TaskId) (error : TaskError) :
    Heeds T s (s.abort id error) := by
  rcases abort_cases s id error with ⟨heq, -⟩ | ⟨t, -, -, -, heq⟩ <;> rw [heq]
  · exact .refl s
  · have hlater : Later s (s.updateTask id fun t => { t with abort := some error }) :=
      later_updateTask s id _ fun _ => ⟨rfl, rfl, fun hc => hc, fun hp => hp⟩
    exact (heeds_updateTask hlater fun _ => rfl).trans (heeds_cancelSubtree _ id)

theorem heeds_settleBranch (s : Scheduler P R W) (g : GroupId) (slot : Nat) (outcome : Outcome) :
    Heeds T s (s.settleBranch g slot outcome) := by
  rcases settleBranch_cases s g slot outcome with
    ⟨-, heq⟩ | ⟨group, -, ⟨-, heq⟩ | ⟨input, -, heq⟩⟩ <;> rw [heq]
  · exact .refl s
  · exact .of_tasks rfl rfl
  · have herase : Heeds T s { s with groups := s.groups.erase g } := .of_tasks rfl rfl
    have hwake := heeds_wakeIfWaiting (T := T) (s := { s with groups := s.groups.erase g })
      (w := .group g) (by simp) group.owner input
    exact (herase.trans hwake).trans (heeds_cancelSubtrees _ _)

theorem heeds_answerJoiners (s : Scheduler P R W) (joiners : List TaskId) (record : Settlement) :
    Heeds T s (s.answerJoiners joiners record) :=
  .foldl (fun s joiner _ => heeds_wakeIfWaiting (by simp) joiner record.answer) s

/-- What a task settles with is news for its caller only once the task is not live any more. -/
theorem heeds_deliver (t : Task P R W) {record : Settlement}
    (hgone : s.isLive record.task = false) : Heeds T s (s.deliver t record) := by
  rcases deliver_cases s t record with
    heq | ⟨caller, -, -, heq⟩ | ⟨error, -, -, heq⟩ | ⟨parent, error, -, -, -, -, heq⟩ |
      ⟨g, slot, -, -, heq⟩ <;> rw [heq]
  · exact .refl s
  · refine heeds_wakeIfWaiting ?_ caller record.answer
    rintro child ⟨⟩
    exact hgone
  · exact .of_tasks rfl rfl
  · exact heeds_abort s parent error
  · exact heeds_settleBranch s g slot _

theorem heeds_remove {t : Task P R W} (ht : s.task? id = some t) (hp : t.process = none)
    (parent : Option TaskId) : Heeds T s (s.remove id parent) := by
  have hlater : Later s (s.remove id parent) :=
    ((lasting_erase ht hp).trans (lasting_dropChild _ id parent)).later
  refine hlater.heeds fun j _ _ hl => ?_
  rw [wait?_remove, if_neg ?_]
  rintro rfl
  simp [isLive_remove] at hl

theorem heeds_retire {t : Task P R W} (ht : s.task? id = some t) (hd : t.isDone)
    (h : Host P R W) : Heeds T s (s.retire h id t) := by
  let record : Settlement := ⟨id, t.endStatus, t.endResult id⟩
  let r := (s.remove id t.parent).remember h record
  have hremoved : Heeds T s r :=
    (heeds_remove ht (Task.isDone_iff.1 hd).1 t.parent).trans (.of_tasks rfl rfl)
  have hgone : r.isLive id = false := by
    have hremove : r.isLive id = _ := isLive_remove s id t.parent id
    simpa using hremove
  have hgone' : (r.answerJoiners t.joiners record).isLive record.task = false :=
    ((quiet_answerJoiners r t.joiners record).tree.isLive id).trans hgone
  exact (hremoved.trans (heeds_answerJoiners r t.joiners record)).trans (heeds_deliver t hgone')

theorem heeds_settleWithin (h : Host P R W) (fuel : Nat) (id : TaskId) (s : Scheduler P R W) :
    Heeds T s (settleWithin h fuel id s) :=
  settleWithin_preserves (I := Heeds T s)
    (fun _ _ _ ht hd hr => hr.trans (heeds_retire ht hd h)) fuel id (.refl s)

/-- The process of a task in `T` goes on. -/
theorem heeds_storeProcess (hid : id ∈ T) {t : Task P R W} (ht : s.task? id = some t)
    (hp : t.process.isSome) (process : Process P R W) (world : W) :
    Heeds T s ({ s with world }.storeProcess id process) := by
  refine (later_storeProcess ht hp process world).heeds fun j _ hj _ => ?_
  refine wait?_updateTask { s with world } id j _ ?_
  rintro rfl
  exact hj hid

/-- The process of a task in `T` ends. -/
theorem heeds_finish (hid : id ∈ T) (s : Scheduler P R W) (h : Host P R W) (outcome : Outcome) :
    Heeds T s (s.finish h id outcome) := by
  unfold finish
  split
  · exact heeds_raiseOf s id outcome
  · exact (((heeds_raiseOf s id outcome).trans (heeds_turn (later_endProcess _ id outcome) hid)
      ).trans (heeds_cancelSubtrees _ _)).trans (heeds_settleWithin h _ id _)

/-! ## Moves -/

/-- The effect of a task in hand, which waits for nothing, is dispatched. -/
theorem heeds_dispatch (hc : Coherent s L {id}) (hid : id ∈ s.unbound) (h : Host P R W)
    (effect : Effect P W) : Heeds s.unbound s (s.dispatch h id effect) := by
  have hnote := heeds_note (T := s.unbound) s h id effect
  have hc' : Coherent (s.note h id effect) L {id} := by
    unfold note
    split
    · exact hc.of_tables rfl rfl rfl rfl rfl rfl rfl rfl
    · exact hc
  have hunbound : (s.note h id effect).unbound = s.unbound := by
    unfold note
    split <;> rfl
  rcases dispatch_cases s h id effect with
    ⟨s', -, hs, heq⟩ | ⟨violation, ⟨-, heq⟩ | ⟨-, heq⟩⟩ <;> rw [heq]
  · exact hnote.trans (heeds_carryOut hid hc' (hunbound ▸ subset_rfl) hs)
  · exact heeds_finish hid s h _
  · exact hnote.trans (heeds_finish hid _ h _)

/-- The turn of a task: it waits for nothing, so it has nobody to wait for. -/
theorem Run.heeds_step (run : Run h log s) : Heeds s.unbound s (s.move h .step) := by
  cases hq : s.queue with
  | nil =>
    rw [move_step_nil h hq]
    exact .refl s
  | cons entry rest =>
    obtain ⟨id, input⟩ := entry
    obtain ⟨t, ht, hp⟩ := run.find_of_queued (hq ▸ List.mem_cons_self)
    obtain ⟨process, hp⟩ := Option.isSome_iff_exists.1 hp
    have hwait : s.wait? id = some .nothing :=
      (run.coherent.of_mem_waiters (w := .nothing) (by simp [waiters, hq])).2.2.2.1
    have hid : id ∈ s.unbound := mem_unbound hwait (by simp)
    have ht' : task? { s with queue := rest } id = some t := ht
    have hstore : ∀ process' world, Heeds s.unbound s
        ({ s with queue := rest, world }.storeProcess id process') := fun process' world =>
      have hpop : Heeds s.unbound s { s with queue := rest } := .of_tasks rfl rfl
      hpop.trans (heeds_storeProcess hid ht' (by simp [hp]) process' world)
    rw [move_step_cons h hq]
    refine Heeds.trans ?_ (heeds_takeFault _)
    obtain ⟨process', world, ⟨effect, hstep, heq⟩ | ⟨answer, outcome, hstep, -, heq⟩⟩ :=
      step_of_process ht' hp h input <;> rw [heq]
    · obtain ⟨-, hhand⟩ := inHand_of_turn (h := h) run.tidy run.coherent hq ht hp hstep
      have hfree := mem_unbound (w := .nothing) (by
        rw [wait?, task?_storeProcess ht' process' world, Option.map_some]) (by simp)
      exact (hstore process' world).after (heeds_dispatch hhand.coherent hfree h effect)
    · exact (hstore process' world).trans (heeds_finish hid _ h outcome)

theorem Coherent.heeds_announce (hc : Coherent s L X) (h : Host P R W) (n : Notification) :
    Heeds s.unbound s (s.announce h n) := by
  have hpublish : Heeds s.unbound s (s.publish h n).2 := .of_tasks rfl rfl
  refine hpublish.trans (.foldl (fun s j hj => heeds_wakeLast ?_ s _) _)
  exact hc.unbound_of_publish (h := h) hj

theorem heeds_applyCompletion (s : Scheduler P R W) (c : Completion) :
    Heeds s.unbound s (s.applyCompletion c).2 := by
  have hdiscard : Heeds s.unbound s { s with pending := s.pending.discard c.operation } :=
    .of_tasks rfl rfl
  unfold applyCompletion
  split
  · rename_i await _
    dsimp only
    split
    · rename_i hw
      exact hdiscard.trans (heeds_wakeLast (mem_unbound hw (by simp)) _ _)
    · exact hdiscard
  · split <;> exact .refl s

/-- Callers wait in every move until they are signalled. -/
theorem Run.heeds_move (run : Run h log s) (m : Move P) : Heeds s.unbound s (s.move h m) := by
  cases m with
  | step => exact run.heeds_step
  | enroll process args => exact (heeds_spawn s h process args none .root).trans (.of_tasks rfl rfl)
  | announce n => exact run.coherent.heeds_announce h n
  | deliver c => exact heeds_applyCompletion s c
  | receive =>
    simp only [Scheduler.move]
    split
    · exact .refl s
    · rename_i c rest _
      have hinbox : Heeds s.unbound s { s with pending := { s.pending with inbox := rest } } :=
        .of_tasks rfl rfl
      exact hinbox.after (heeds_applyCompletion _ c)
  | cancel root => exact heeds_cancelSubtree s root
  | _ => exact .of_tasks rfl rfl

end CoopTasks.Scheduler
