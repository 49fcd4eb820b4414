import CoopTasks.Proofs.Publication
import CoopTasks.Proofs.Waning

/-!
# What is done in a move

Two waits end by something from outside the tree of tasks: a notification is taken, and an operation
completes. Most of what happens in a move is no concern of those who wait so, and signals nobody: it
is `Mild`. What is left are deeds of a few kinds. A task calls an operation or waits for a
notification, a notification is published, a completion applied, or a tree cancelled. Every move is
a sequence of such deeds.
-/

namespace CoopTasks

/-- Whether those who wait so are resumed from outside the tree. -/
def Wait.isExternal : Wait → Bool
  | .take | .operation _ => true
  | _ => false

namespace Scheduler

variable {P R W : Type} {s s' s'' r : Scheduler P R W} {h : Host P R W} {L X : Set TaskId}
variable {id target : TaskId} {ids : List TaskId} {n : Notification} {effect : Effect P W}
variable {e : Scheduler P R W × Move P} {log : List (Scheduler P R W × Move P)}

/-- A task waits for nothing from outside. -/
def Inward (s : Scheduler P R W) (id : TaskId) : Prop :=
  ∀ w : Wait, w.isExternal = true → s.wait? id ≠ some w

/-- Nobody is signalled, and those who wait for something from outside are left alone. -/
structure Mild (s s' : Scheduler P R W) : Prop extends Later s s' where
  calm : ∀ j, s'.beingCancelled j = true → s.beingCancelled j = true
  waits : ∀ j (w : Wait), w.isExternal = true → (s'.wait? j = some w ↔ s.wait? j = some w)
  takers : s'.takers = s.takers
  awaited : s'.pending.awaited = s.pending.awaited

theorem Inward.of_wait {w : Wait} (hw : s.wait? id = some w) (hinner : w.isExternal = false) :
    Inward s id := by
  intro w' hw' heq
  rw [Option.some.inj (hw.symm.trans heq), hw'] at hinner
  cases hinner

theorem Inward.of_mild (hid : Inward s id) (hs : Mild s s') : Inward s' id :=
  fun w hw heq => hid w hw ((hs.waits id w hw).1 heq)

theorem Coherent.inward (hc : Coherent s L X) {w : Wait} (hm : id ∈ s.waiters w)
    (hinner : w.isExternal = false) : Inward s id :=
  .of_wait (hc.of_mem_waiters hm).2.2.2.1 hinner

theorem Mild.refl (s : Scheduler P R W) : Mild s s :=
  ⟨.refl s, fun _ => id, fun _ _ _ => Iff.rfl, rfl, rfl⟩

theorem Mild.trans (hs : Mild s s') (hs' : Mild s' s'') : Mild s s'' :=
  ⟨hs.toLater.trans hs'.toLater, fun j hj => hs.calm j (hs'.calm j hj),
    fun j w hw => (hs'.waits j w hw).trans (hs.waits j w hw), hs'.takers.trans hs.takers,
    hs'.awaited.trans hs.awaited⟩

theorem Mild.of_tables (htasks : s'.tasks = s.tasks) (hnext : s'.nextTask = s.nextTask)
    (htakers : s'.takers = s.takers) (hawaited : s'.pending.awaited = s.pending.awaited) :
    Mild s s' := by
  refine ⟨.of_tasks htasks hnext, fun j => ?_, fun j w _ => ?_, htakers, hawaited⟩
  · simp [beingCancelled, task?_of_tasks htasks]
  · simp [wait?, task?_of_tasks htasks]

/-! ## Single changes -/

theorem mild_updateTask {f : Task P R W → Task P R W} (hlater : Later s (s.updateTask id f))
    (hcalm : ∀ t, (f t).cancelling = t.cancelling)
    (hwait : ∀ t, s.task? id = some t → ∀ w : Wait, w.isExternal = true →
      ((f t).wait = w ↔ t.wait = w)) : Mild s (s.updateTask id f) := by
  refine ⟨hlater, fun j => ?_, fun j w hw => ?_, rfl, rfl⟩
  · by_cases hj : j = id
    · simp [beingCancelled, hj, hcalm, Option.any_map]
    · simp [beingCancelled, hj]
  · by_cases hj : j = id
    · subst hj
      cases ht : s.task? j with
      | none => simp [wait?, ht]
      | some t => simp [wait?, ht, hwait t ht w hw]
    · simp [wait?, hj]

/-- A task that waits for nothing from outside turns to something else of that kind. -/
theorem Inward.mild_turn {f : Task P R W → Task P R W} (hid : Inward s id)
    (hlater : Later s (s.updateTask id f)) (hcalm : ∀ t, (f t).cancelling = t.cancelling)
    (hinner : ∀ t, (f t).wait.isExternal = false) : Mild s (s.updateTask id f) := by
  refine mild_updateTask hlater hcalm fun t ht w hw => ⟨?_, ?_⟩ <;> rintro rfl
  · exact absurd hw (by simp [hinner])
  · exact absurd (by simp [wait?, ht]) (hid t.wait hw)

/-! ## Tasks that are resumed -/

/-- Some tasks are resumed, and for the rest all is mild. -/
structure Resumes (s s' : Scheduler P R W) (ids : List TaskId) : Prop extends Later s s' where
  calm : ∀ j, s'.beingCancelled j = true → s.beingCancelled j = true
  waits : ∀ j (w : Wait), w.isExternal = true →
    (s'.wait? j = some w ↔ s.wait? j = some w ∧ j ∉ ids)
  takers : s'.takers = s.takers
  awaited : s'.pending.awaited = s.pending.awaited

theorem Resumes.trans {ids' : List TaskId} (hs : Resumes s s' ids) (hs' : Resumes s' s'' ids') :
    Resumes s s'' (ids ++ ids') := by
  refine ⟨hs.toLater.trans hs'.toLater, fun j hj => hs.calm j (hs'.calm j hj), fun j w hw => ?_,
    hs'.takers.trans hs.takers, hs'.awaited.trans hs.awaited⟩
  rw [hs'.waits j w hw, hs.waits j w hw, List.mem_append, not_or, and_assoc]

theorem Resumes.mild (hs : Resumes s s' ids) (hids : ∀ j ∈ ids, Inward s j) : Mild s s' :=
  ⟨hs.toLater, hs.calm, fun j w hw => (hs.waits j w hw).trans
    (and_iff_left_of_imp fun heq hm => hids j hm w hw heq), hs.takers, hs.awaited⟩

theorem resumes_of_ready (htasks : s'.tasks = (s.makeReady id).tasks)
    (hnext : s'.nextTask = s.nextTask) (htakers : s'.takers = s.takers)
    (hawaited : s'.pending.awaited = s.pending.awaited) : Resumes s s' [id] := by
  have htask : ∀ j, s'.task? j =
      if j = id then (s.task? j).map fun t => { t with wait := .nothing, status := .running }
      else s.task? j := fun j => (task?_of_tasks htasks j).trans (task?_updateTask s id j _)
  refine ⟨(quiet_makeReady s id).later.trans (.of_tasks htasks hnext), fun j => ?_,
    fun j w hw => ?_, htakers, hawaited⟩
  · rw [beingCancelled, htask]
    split <;> simp [beingCancelled, Option.any_map]
  · rw [wait?, htask, List.mem_singleton]
    split
    · rename_i hj
      have hne : Wait.nothing ≠ w := by
        rintro rfl
        cases hw
      simp [hj, hne]
    · rename_i hj
      simp [wait?, hj]

theorem resumes_wakeFirst (s : Scheduler P R W) (id : TaskId) (input : Input) :
    Resumes s (s.wakeFirst id input) [id] :=
  resumes_of_ready rfl rfl rfl rfl

theorem resumes_wakeLast (s : Scheduler P R W) (id : TaskId) (input : Input) :
    Resumes s (s.wakeLast id input) [id] :=
  resumes_of_ready rfl rfl rfl rfl

theorem resumes_foldl {f : Scheduler P R W → TaskId → Scheduler P R W}
    (hf : ∀ s id, Resumes s (f s id) [id]) (ids : List TaskId) (s : Scheduler P R W) :
    Resumes s (ids.foldl f s) ids := by
  induction ids generalizing s with
  | nil => exact ⟨.refl s, fun _ => id, fun _ _ _ => by simp, rfl, rfl⟩
  | cons id rest ih => exact (hf s id).trans (ih (f s id))

theorem resumes_wakeAll (s : Scheduler P R W) (ids : List TaskId) (v : Value) :
    Resumes s (s.wakeAll ids v) ids.reverse :=
  resumes_foldl (fun s id => resumes_wakeFirst s id (.value v)) ids.reverse s

theorem mild_wakeAll (v : Value) (hids : ∀ j ∈ ids, Inward s j) : Mild s (s.wakeAll ids v) :=
  (resumes_wakeAll s ids v).mild fun j hj => hids j (List.mem_reverse.1 hj)

theorem Inward.mild_wakeFirst (hid : Inward s id) (input : Input) :
    Mild s (s.wakeFirst id input) :=
  (resumes_wakeFirst s id input).mild fun _ hj => List.mem_singleton.1 hj ▸ hid

theorem Inward.mild_answer (hid : Inward s id) (v : Value) : Mild s (s.answer id v) :=
  hid.mild_wakeFirst (.value v)

theorem Inward.mild_suspend (hid : Inward s id) {wait : Wait} (hinner : wait.isExternal = false) :
    Mild s (s.suspend id wait) :=
  hid.mild_turn (quiet_suspend s id wait).later (fun _ => rfl) fun _ => hinner

theorem Inward.mild_endProcess (hid : Inward s id) (outcome : Outcome) :
    Mild s (s.endProcess id outcome) :=
  hid.mild_turn (later_endProcess s id outcome) (fun _ => rfl) fun _ => rfl

theorem mild_wakeIfWaiting (s : Scheduler P R W) (id : TaskId) {wait : Wait}
    (hinner : wait.isExternal = false) (input : Input) :
    Mild s (s.wakeIfWaiting id wait input) := by
  unfold wakeIfWaiting
  split
  · rename_i hw
    exact (Inward.of_wait hw hinner).mild_wakeFirst input
  · exact .refl s

theorem mild_addTask (hfresh : s.task? ⟨s.nextTask⟩ = none) (name : String)
    (parent : Option TaskId) (role : Role) (process : Process P R W) :
    Mild s (s.addTask name parent role process).2 := by
  have hlater := (lasting_addTask s name parent role process).later
  refine ⟨hlater, fun j => ?_, fun j w hw => ?_, by cases parent <;> rfl, by cases parent <;> rfl⟩
  · rw [beingCancelled, task?_addTask]
    split
    · simp
    · rw [task?_addChild]
      split <;> simp [beingCancelled, Option.any_map]
  · rw [wait?, task?_addTask]
    split
    · rename_i hj
      have hnone : s.wait? j = none := by simp [wait?, hj, hfresh]
      rw [hnone]
      cases w <;> simp [Wait.isExternal] at hw ⊢
    · rw [task?_addChild]
      split <;> simp [wait?, Function.comp_def]

theorem mild_spawn (hf : Forest s) (h : Host P R W) (process : P) (args : List Value)
    (parent : Option TaskId) (role : Role) : Mild s (s.spawn h process args parent role).2 := by
  have hworld : Mild s { s with world := (h.program.spawn process args s.world).2 } :=
    .of_tables rfl rfl rfl rfl
  have hfresh : ({ s with world := (h.program.spawn process args s.world).2 } :
      Scheduler P R W).task? ⟨s.nextTask⟩ = none := hf.fresh_task
  exact hworld.trans (mild_addTask hfresh _ parent role _)

theorem mild_addBranches (owner : TaskId) (g : GroupId) (mode : GroupMode) (slot : Nat)
    (effects : List (Effect P W)) (s : Scheduler P R W) (ht : Tidy s) (hl : s.isLive owner) :
    Mild s (s.addBranches owner g mode slot effects).2 := by
  induction effects generalizing slot s with
  | nil => exact .refl s
  | cons effect rest ih =>
    have hparent : ∀ p, some owner = some p → s.isLive p := by
      rintro p ⟨⟩
      exact hl
    have hadd := mild_addTask ht.forest.fresh_task (mode.label slot) (some owner)
      (.branch g slot) (.script [effect])
    have hlive : (s.addTask (mode.label slot) (some owner) (.branch g slot)
        (.script [effect])).2.isLive owner := by simp [isLive_addTask, hl]
    exact hadd.trans (ih (slot + 1) _ (ht.addTask _ _ _ hparent) hlive)

theorem mild_note (s : Scheduler P R W) (h : Host P R W) (id : TaskId) (effect : Effect P W) :
    Mild s (s.note h id effect) := by
  unfold note
  split <;> exact .of_tables rfl rfl rfl rfl

theorem mild_raiseOf (s : Scheduler P R W) (id : TaskId) (outcome : Outcome) :
    Mild s (s.raiseOf id outcome) := by
  unfold raiseOf
  split <;> exact .of_tables rfl rfl rfl rfl

theorem mild_takeFault (s : Scheduler P R W) : Mild s s.takeFault.2 := by
  unfold takeFault
  split <;> exact .of_tables rfl rfl rfl rfl

/-! ## Effects -/

/-- Those who take from a channel, or are blocked there, wait for nothing from outside. -/
theorem Coherent.inward_channel (hc : Coherent s L X) {ch : ChannelId} {c : Channel}
    (hfind : s.channels.find? ch = some c) :
    (∀ j ∈ c.takers, Inward s j) ∧ ∀ j ∈ c.putters.map Prod.fst, Inward s j :=
  ⟨fun _ hj => hc.inward (waiters_channelTake hfind ▸ hj) rfl,
    fun _ hj => hc.inward (waiters_channelPut hfind ▸ hj) rfl⟩

theorem mild_setChannel (s : Scheduler P R W) (ch : ChannelId) (c : Channel) :
    Mild s (s.setChannel ch c) :=
  .of_tables rfl rfl rfl rfl

theorem Inward.mild_channelTake (hid : Inward s id) (hc : Coherent s L X) {ch : ChannelId}
    (hs : s.channelTake id ch = .ok s') : Mild s s' := by
  unfold channelTake at hs
  cases hfind : s.channels.find? ch with
  | none => simp [hfind] at hs
  | some c =>
    simp only [hfind] at hs
    have hset : ∀ c', Mild s (s.setChannel ch c') := mild_setChannel s ch
    have hanswer : ∀ c' v, Mild s ((s.setChannel ch c').answer id v) := fun c' v =>
      (hset c').trans ((hid.of_mild (hset c')).mild_answer v)
    rcases c.take_cases id with htake | ⟨-, htake⟩ | ⟨v, rest, htake⟩ |
      ⟨v, buffer, putter, next, putters, hp, htake⟩ <;> simp only [htake] at hs <;> cases hs
    · exact hanswer _ _
    · exact (hset _).trans ((hid.of_mild (hset _)).mild_suspend rfl)
    · exact hanswer _ _
    · have hputter : Inward s putter := (hc.inward_channel hfind).2 putter (by simp [hp])
      have hfirst := (hset { c with buffer, putters }).trans
        ((hputter.of_mild (hset _)).mild_answer .unit)
      exact hfirst.trans ((hid.of_mild hfirst).mild_answer v)

theorem Inward.mild_channelPut (hid : Inward s id) (hc : Coherent s L X) {ch : ChannelId}
    {v : Value} (hs : s.channelPut id ch v = .ok s') : Mild s s' := by
  unfold channelPut at hs
  cases hfind : s.channels.find? ch with
  | none => simp [hfind] at hs
  | some c =>
    simp only [hfind] at hs
    have hset : ∀ c', Mild s (s.setChannel ch c') := mild_setChannel s ch
    have hanswer : ∀ c' v, Mild s ((s.setChannel ch c').answer id v) := fun c' v =>
      (hset c').trans ((hid.of_mild (hset c')).mild_answer v)
    rcases c.put_cases id v with ⟨-, taker, takers, ht, hput⟩ | ⟨-, hput⟩ | ⟨buffer, hput⟩ | hput |
      ⟨capacity, hput⟩ <;> simp only [hput] at hs <;> cases hs
    · have htaker : Inward s taker := (hc.inward_channel hfind).1 taker (by simp [ht])
      exact (hanswer _ .unit).trans ((htaker.of_mild (hanswer _ .unit)).mild_answer v)
    · exact (hset _).trans ((hid.of_mild (hset _)).mild_suspend rfl)
    · exact hanswer _ _
    · exact hanswer _ _
    · exact (hset _).trans ((hid.of_mild (hset _)).mild_wakeFirst _)

theorem Inward.mild_channelClose (hid : Inward s id) (hc : Coherent s L X) {ch : ChannelId}
    (hs : s.channelClose id ch = .ok s') : Mild s s' := by
  unfold channelClose at hs
  cases hfind : s.channels.find? ch with
  | none => simp [hfind] at hs
  | some c =>
    simp only [hfind, Except.ok.injEq] at hs
    subst hs
    have hset := mild_setChannel s ch c.close
    have hclosed := hset.trans ((hid.of_mild hset).mild_answer .unit)
    have hputters := hclosed.trans (mild_wakeAll .unit fun j hj =>
      ((hc.inward_channel hfind).2 j hj).of_mild hclosed)
    exact hputters.trans (mild_wakeAll .closed fun j hj =>
      ((hc.inward_channel hfind).1 j hj).of_mild hputters)

theorem Inward.mild_join (hid : Inward s id) (hs : s.join id target = .ok s') : Mild s s' := by
  unfold join at hs
  split at hs
  · cases hs
    have hlater : Later s (s.updateTask target fun t => { t with joiners := t.joiners ++ [id] }) :=
      later_updateTask s target _ fun _ => ⟨rfl, rfl, fun hc => hc, fun hp => hp⟩
    have hjoin := mild_updateTask hlater (fun _ => rfl) fun _ _ _ _ => Iff.rfl
    exact hjoin.trans ((hid.of_mild hjoin).mild_suspend rfl)
  · split at hs
    · cases hs
      exact hid.mild_wakeFirst _
    · split at hs <;> cases hs
      exact hid.mild_wakeFirst _

theorem Inward.mild_callProcess (hid : Inward s id) (hf : Forest s) (h : Host P R W) (process : P)
    (args : List Value) : Mild s (s.callProcess h id process args) := by
  have hspawn := mild_spawn hf h process args (some id) .called
  exact (hspawn.trans ((hid.of_mild hspawn).mild_suspend rfl)).trans (.of_tables rfl rfl rfl rfl)

theorem Inward.mild_fork (hid : Inward s id) (hf : Forest s) (h : Host P R W) (process : P)
    (args : List Value) : Mild s (s.fork h id process args) := by
  have hspawn := mild_spawn hf h process args (some (s.forkOwner id)) .forked
  have hlast : Mild s ((s.spawn h process args (some (s.forkOwner id)) .forked).2.enqueueLast
      ⟨s.nextTask⟩ (.value .unit)) := hspawn.trans (.of_tables rfl rfl rfl rfl)
  exact hlast.trans ((hid.of_mild hlast).mild_answer _)

theorem Inward.mild_startGroup (hid : Inward s id) (ht : Tidy s) (hl : s.isLive id)
    (mode : GroupMode) (effects : List (Effect P W)) : Mild s (s.startGroup id mode effects) := by
  unfold startGroup
  split
  · exact hid.mild_answer _
  · have hnext : Mild s { s with nextGroup := s.nextGroup + 1 } := .of_tables rfl rfl rfl rfl
    have hbranches := hnext.trans (mild_addBranches id ⟨s.nextGroup⟩ mode 0 effects _
      (ht.congr (.of_tasks rfl rfl)) hl)
    exact (hbranches.trans ((hid.of_mild hbranches).mild_suspend rfl)).trans
      (.of_tables rfl rfl rfl rfl)

/-! ## Notifications -/

/-- A notification is published: those who wait for it are resumed. -/
structure Announces (s s' : Scheduler P R W) (n : Notification) : Prop extends Later s s' where
  calm : ∀ j, s'.beingCancelled j = true → s.beingCancelled j = true
  operations : ∀ j op, s'.wait? j = some (.operation op) ↔ s.wait? j = some (.operation op)
  takes : ∀ j, s'.wait? j = some .take ↔ s.wait? j = some .take ∧ j ∉ s.matched n
  takers : s'.takers = s.takers.filter fun taker => !taker.2.accepts n
  awaited : s'.pending.awaited = s.pending.awaited

theorem publish_eq (s : Scheduler P R W) (h : Host P R W) (n : Notification) :
    (s.publish h n).1 = s.matched n ∧
      (s.publish h n).2.takers = s.takers.filter fun taker => !taker.2.accepts n := by
  simp [publish, matched, List.partition_eq_filter_filter, Function.comp_def]

/-- Those who waited for a notification are resumed, and perhaps others who waited for nothing from
outside. -/
theorem Coherent.announces (hc : Coherent s L X) (hs : Resumes (s.publish h n).2 s' ids)
    (hids : ∀ j, Inward s j ∨ (j ∈ ids ↔ j ∈ s.matched n)) : Announces s s' n := by
  have hwaits : ∀ j (w : Wait), w.isExternal = true →
      (s'.wait? j = some w ↔ s.wait? j = some w ∧ j ∉ s.matched n) := by
    intro j w hw
    rw [hs.waits j w hw]
    refine and_congr_right fun heq => ?_
    rw [(hids j).resolve_left fun hj => hj w hw heq]
  refine ⟨(quiet_publish s h n).later.trans hs.toLater, hs.calm,
    fun j op => (hwaits j _ rfl).trans (and_iff_left_of_imp fun hw hm => ?_),
    fun j => hwaits j _ rfl, hs.takers.trans (publish_eq s h n).2, hs.awaited⟩
  have htaker : j ∈ s.waiters .take := List.map_subset _ (List.filter_subset_self _) hm
  rw [(hc.of_mem_waiters htaker).2.2.2.1] at hw
  cases hw

theorem Coherent.announces_put (hc : Coherent s L X) (hid : Inward s id) (h : Host P R W)
    (n : Notification) : Announces s (s.put h id n) n := by
  have hanswer := resumes_wakeFirst (s.publish h n).2 id (.value .unit)
  refine hc.announces (hanswer.trans (resumes_wakeAll _ (s.publish h n).1 (.notification n)))
    fun j => ?_
  by_cases hj : j = id
  · exact Or.inl (hj ▸ hid)
  · exact Or.inr (by simp [hj, (publish_eq s h n).1])

theorem Coherent.announces_announce (hc : Coherent s L X) (h : Host P R W) (n : Notification) :
    Announces s (s.announce h n) n := by
  refine hc.announces (resumes_foldl (fun s id => resumes_wakeLast s id (.value (.notification n)))
    (s.publish h n).1 _) fun j => Or.inr ?_
  rw [(publish_eq s h n).1]

/-! ## Deeds -/

/-- A notification is published in this entry of a log, by the host or by a task. -/
def Broadcasts (h : Host P R W) (e : Scheduler P R W × Move P) (n : Notification) : Prop :=
  e.2 = .announce n ∨ e.2 = .step ∧ ∃ p, e.1.turn? h = some (p, .yield (.put n))

/-- Something that is done in the move of an entry. -/
inductive Deed (h : Host P R W) (e : Scheduler P R W × Move P) :
    Scheduler P R W → Scheduler P R W → Prop where
  | mild {s s' : Scheduler P R W} : Mild s s' → Deed h e s s'
  | cancel {s : Scheduler P R W} (root : TaskId) : Forest s → Deed h e s (s.cancelSubtree root)
  | call {s : Scheduler P R W} {id : TaskId} {operation : Operation W} {args : List Value} :
      e.2 = .step → e.1.turn? h = some (id, .yield (.call operation args)) →
      s.pending = e.1.pending → s.world = e.1.turnWorld h → s.isLive id → Inward s id →
      Deed h e s (s.call id operation args)
  | take {s : Scheduler P R W} {id : TaskId} {pattern : Pattern} :
      e.2 = .step → e.1.turn? h = some (id, .yield (.take pattern)) → Inward s id →
      Deed h e s ({ s with takers := s.takers ++ [(id, pattern)] }.suspend id .take)
  | publish {s s' : Scheduler P R W} {n : Notification} : Broadcasts h e n → Announces s s' n →
      Deed h e s s'
  | complete (s : Scheduler P R W) (c : Completion) : Deed h e s (s.applyCompletion c).2

/-- Several deeds, one after the other. -/
abbrev Deeds (h : Host P R W) (e : Scheduler P R W × Move P) :
    Scheduler P R W → Scheduler P R W → Prop :=
  Relation.ReflTransGen (Deed h e)

theorem Mild.deeds (hs : Mild s s') : Deeds h e s s' := .single (.mild hs)

theorem calm_call (s : Scheduler P R W) (id : TaskId) (operation : Operation W)
    (args : List Value) (j : TaskId) (hj : (s.call id operation args).beingCancelled j = true) :
    s.beingCancelled j = true := by
  unfold Scheduler.call at hj
  dsimp only at hj
  split at hj
  · rename_i result _
    exact (resumes_wakeFirst _ id (.ofResult result)).calm j hj
  · rwa [beingCancelled_suspend] at hj

theorem calm_take (s : Scheduler P R W) (id : TaskId) (pattern : Pattern) (j : TaskId)
    (hj : ({ s with takers := s.takers ++ [(id, pattern)] }.suspend id .take).beingCancelled j) :
    s.beingCancelled j = true := by
  rwa [beingCancelled_suspend] at hj

theorem Deed.later {s s' : Scheduler P R W} (hd : Deed h e s s') : Later s s' := by
  cases hd with
  | mild hs => exact hs.toLater
  | cancel root => exact (quiet_cancelSubtree s root).later
  | call _ _ _ _ _ _ => exact (quiet_call s _ _ _).later
  | take _ _ _ =>
    have hentered : ∀ takers, Later s { s with takers } := fun _ => .of_tasks rfl rfl
    exact (hentered _).trans (quiet_suspend _ _ _).later
  | publish _ hs => exact hs.toLater
  | complete c => exact (quiet_applyCompletion s c).later

theorem Deeds.later (hs : Deeds h e s s') : Later s s' := by
  induction hs with
  | refl => exact .refl s
  | tail _ hd ih => exact ih.trans hd.later

/-! ## Settlement -/

theorem mild_answerJoiners (s : Scheduler P R W) (joiners : List TaskId) (record : Settlement) :
    Mild s (s.answerJoiners joiners record) :=
  List.foldlRecOn (motive := Mild s) _ _ (.refl s) fun r hr joiner _ =>
    hr.trans (mild_wakeIfWaiting r joiner rfl record.answer)

theorem Forest.of_tasks (hf : Forest s) (htasks : s'.tasks = s.tasks)
    (hnext : s'.nextTask = s.nextTask) : Forest s' :=
  hf.congr (SameTree.of_tasks htasks hnext).shape

theorem deeds_cancelSubtrees (hf : Forest s) (roots : List TaskId) :
    Deeds h e s (s.cancelSubtrees roots) := by
  have hall := List.foldlRecOn (motive := fun r => Forest r ∧ Deeds h e s r) roots cancelSubtree
    ⟨hf, .refl⟩ fun r hr root _ =>
      ⟨hr.1.congr (quiet_cancelSubtree r root).tree.shape, hr.2.tail (.cancel root hr.1)⟩
  exact hall.2

theorem deeds_abort (hf : Forest s) (id : TaskId) (error : TaskError) :
    Deeds h e s (s.abort id error) := by
  rcases abort_cases s id error with ⟨heq, -⟩ | ⟨t, -, -, -, heq⟩ <;> rw [heq]
  have hlater : Later s (s.updateTask id fun t => { t with abort := some error }) :=
    later_updateTask s id _ fun _ => ⟨rfl, rfl, fun hc => hc, fun hp => hp⟩
  have hblame := mild_updateTask hlater (fun _ => rfl) fun _ _ _ _ => Iff.rfl
  have hf' := hf.congr (sameShape_updateTask s id (fun t => { t with abort := some error })
    (fun _ => rfl) fun _ => rfl)
  exact hblame.deeds.tail (.cancel id hf')

theorem deeds_settleBranch (hf : Forest s) (g : GroupId) (slot : Nat) (outcome : Outcome) :
    Deeds h e s (s.settleBranch g slot outcome) := by
  rcases settleBranch_cases s g slot outcome with
    ⟨-, heq⟩ | ⟨group, -, ⟨-, heq⟩ | ⟨input, -, heq⟩⟩ <;> rw [heq]
  · exact .single (.mild (.of_tables rfl rfl rfl rfl))
  · have herase : Mild s { s with groups := s.groups.erase g } := .of_tables rfl rfl rfl rfl
    have hf' : Forest { s with groups := s.groups.erase g } := hf.of_tasks rfl rfl
    have htree := (quiet_wakeIfWaiting { s with groups := s.groups.erase g } group.owner (.group g)
      input).tree
    exact (herase.trans (mild_wakeIfWaiting _ _ rfl _)).deeds.trans
      (deeds_cancelSubtrees (hf'.congr htree.shape) _)

theorem deeds_deliver (hf : Forest s) (t : Task P R W) (record : Settlement) :
    Deeds h e s (s.deliver t record) := by
  rcases deliver_cases s t record with
    heq | ⟨caller, -, -, heq⟩ | ⟨error, -, -, heq⟩ | ⟨parent, error, -, -, -, -, heq⟩ |
      ⟨g, slot, -, -, heq⟩ <;> rw [heq]
  · exact (mild_wakeIfWaiting s caller rfl _).deeds
  · exact .single (.mild (.of_tables rfl rfl rfl rfl))
  · exact deeds_abort hf parent error
  · exact deeds_settleBranch hf g slot _

theorem mild_remove (hid : Inward s id) {t : Task P R W} (ht : s.task? id = some t)
    (hp : t.process = none) (parent : Option TaskId) : Mild s (s.remove id parent) := by
  have hlater := ((lasting_erase ht hp).trans (lasting_dropChild _ id parent)).later
  refine ⟨hlater, fun j => ?_, fun j w hw => ?_, by cases parent <;> rfl, by cases parent <;> rfl⟩
  · rw [beingCancelled, task?_remove]
    split
    · simp
    · split <;> simp [beingCancelled, Option.any_map]
  · rw [wait?_remove]
    split
    · rename_i hj
      simp [hj, hid w hw]
    · rfl

/-- A task that has nothing left to do leaves the tree. -/
theorem deeds_retire (hf : Forest s) (hc : Coherent s L X) {t : Task P R W}
    (ht : s.task? id = some t) (hd : t.isDone) (h' : Host P R W) :
    Deeds h e s (s.retire h' id t) := by
  have hp := (Task.isDone_iff.1 hd).1
  have hid : Inward s id :=
    .of_wait (w := .children) (by simp [wait?, ht, (hc.fit id t ht).ended.1 hp]) rfl
  let record : Settlement := ⟨id, t.endStatus, t.endResult id⟩
  have hcleared : Mild s ((s.remove id t.parent).remember h' record) :=
    (mild_remove hid ht hp t.parent).trans (.of_tables rfl rfl rfl rfl)
  have hfiled := hcleared.trans (mild_answerJoiners _ t.joiners record)
  have hleaf : s.children id = [] := by rw [children_eq ht, (Task.isDone_iff.1 hd).2]
  have hremoved := hf.remove hleaf
  rw [parent?_eq ht] at hremoved
  have hf' : Forest ((s.remove id t.parent).remember h' record) := hremoved.of_tasks rfl rfl
  have htree := (quiet_answerJoiners ((s.remove id t.parent).remember h' record) t.joiners
    record).tree
  exact hfiled.deeds.trans (deeds_deliver (hf'.congr htree.shape) t record)

theorem deeds_settleWithin (h' : Host P R W) (fuel : Nat) (id : TaskId) (s : Scheduler P R W)
    (hf : Forest s) (hc : Coherent s L ∅) : Deeds h e s (settleWithin h' fuel id s) := by
  have hall := settleWithin_preserves (h := h')
    (I := fun r => Forest r ∧ Coherent r L ∅ ∧ Deeds h e s r) ?_ fuel id ⟨hf, hc, .refl⟩
  · exact hall.2.2
  · rintro r id t ht hd ⟨hf, hc, hr⟩
    exact ⟨hf.retire h' ht hd, hc.retire h' ht (Task.isDone_iff.1 hd).1,
      hr.trans (deeds_retire hf hc ht hd h')⟩

/-- The process of the task in hand ends. -/
theorem deeds_finish (hf : Forest s) (hc : Coherent s L {id}) (hid : Inward s id)
    (h' : Host P R W) (outcome : Outcome) : Deeds h e s (s.finish h' id outcome) := by
  obtain ⟨t, ht, -⟩ := (hc.loose id rfl).live
  have hraise : Coherent (s.raiseOf id outcome) L {id} := by
    unfold raiseOf
    split
    · exact hc.of_tables rfl rfl rfl rfl rfl rfl rfl rfl
    · exact hc
  have hend : Coherent ((s.raiseOf id outcome).endProcess id outcome) L ∅ :=
    (hraise.endProcess rfl outcome).congr_hand (by simp)
  have hmild := (mild_raiseOf s id outcome).trans
    ((hid.of_mild (mild_raiseOf s id outcome)).mild_endProcess outcome)
  have hshape := sameShape_endProcess s id outcome
  have hdown : Deeds h e s _ := hmild.deeds.trans
    (deeds_cancelSubtrees (hf.congr (hshape [])) (t.takenDown outcome))
  unfold finish
  rw [ht]
  exact hdown.trans (deeds_settleWithin h' _ id _ (hf.congr (hshape (t.takenDown outcome)))
    (hend.cancelSubtrees _))

/-! ## Moves -/

/-- The task whose turn it is in an entry has answered with an effect, and is in hand. -/
structure InHand (h : Host P R W) (e : Scheduler P R W × Move P) (L : Set TaskId)
    (s : Scheduler P R W) (id : TaskId) (effect : Effect P W) : Prop where
  step : e.2 = .step
  turn : e.1.turn? h = some (id, .yield effect)
  pending : s.pending = e.1.pending
  world : s.world = e.1.turnWorld h
  coherent : Coherent s L {id}
  tidy : Tidy s
  inward : Inward s id

theorem InHand.note (hs : InHand h e L s id effect) :
    InHand h e L (s.note h id effect) id effect := by
  have htree := (quiet_note s h id effect).tree
  refine ⟨hs.step, hs.turn, (pending_note s h id effect).trans hs.pending, ?_, ?_,
    hs.tidy.congr htree, hs.inward.of_mild (mild_note s h id effect)⟩
  · unfold Scheduler.note
    split <;> exact hs.world
  · unfold Scheduler.note
    split
    · exact hs.coherent.of_tables rfl rfl rfl rfl rfl rfl rfl rfl
    · exact hs.coherent

theorem InHand.isLive (hs : InHand h e L s id effect) : s.isLive id := by
  obtain ⟨t, ht, -⟩ := (hs.coherent.loose id rfl).live
  simp [isLive_eq, ht]

/-- An effect that cancels nobody is one deed, and signals nobody. -/
theorem InHand.deed (hs : InHand h e L s id effect) (heffect : s.carryOut h id effect = .ok s')
    (hne : ∀ target, effect ≠ .cancel target) :
    Deed h e s s' ∧ ∀ j, s'.beingCancelled j = true → s.beingCancelled j = true := by
  obtain ⟨hstep, hturn, hpending, hworld, hc, htidy, hid⟩ := hs
  have hl := InHand.isLive ⟨hstep, hturn, hpending, hworld, hc, htidy, hid⟩
  have hf := htidy.forest
  have hmild : Mild s s' →
      Deed h e s s' ∧ ∀ j, s'.beingCancelled j = true → s.beingCancelled j = true :=
    fun hs => ⟨.mild hs, hs.calm⟩
  cases effect with
  | call operation args =>
    cases heffect
    exact ⟨.call hstep hturn hpending hworld hl hid, calm_call s id operation args⟩
  | callProcess process args =>
    cases heffect
    exact hmild (hid.mild_callProcess hf h process args)
  | put n =>
    cases heffect
    have hput := hc.announces_put hid h n
    exact ⟨.publish (Or.inr ⟨hstep, id, hturn⟩) hput, hput.calm⟩
  | take pattern =>
    cases pattern with
    | channel ch => exact hmild (hid.mild_channelTake hc heffect)
    | _ => cases heffect; exact ⟨.take hstep hturn hid, calm_take s id _⟩
  | fork process args =>
    cases heffect
    exact hmild (hid.mild_fork hf h process args)
  | join target => exact hmild (hid.mild_join heffect)
  | cancel target => exact absurd rfl (hne target)
  | cancelled => cases heffect; exact hmild (hid.mild_answer _)
  | all effects => cases heffect; exact hmild (hid.mild_startGroup htidy hl _ _)
  | race branches => cases heffect; exact hmild (hid.mild_startGroup htidy hl _ _)
  | channel policy =>
    cases heffect
    have hopen : Mild s { s with
        channels := s.channels.insert ⟨s.nextChannel⟩ { policy }
        nextChannel := s.nextChannel + 1 } := .of_tables rfl rfl rfl rfl
    exact hmild (hopen.trans ((hid.of_mild hopen).mild_answer _))
  | channelTake ch => exact hmild (hid.mild_channelTake hc heffect)
  | channelPut ch v => exact hmild (hid.mild_channelPut hc heffect)
  | channelClose ch => exact hmild (hid.mild_channelClose hc heffect)
  | select selector => cases heffect; exact hmild (hid.mild_answer _)

/-- A task that cancels a tree is answered first, if it is to be answered. -/
theorem InHand.cancels (hs : InHand h e L s id (.cancel target))
    (heffect : s.carryOut h id (.cancel target) = .ok s') :
    Mild s s' ∨ ∃ r, Mild s r ∧ Quiet s r ∧ s' = r.cancelSubtree target := by
  have hanswer := hs.inward.mild_answer .unit
  simp only [Scheduler.carryOut, Scheduler.cancel] at heffect
  split at heffect
  · split at heffect <;> cases heffect
    · exact .inr ⟨s, .refl s, .refl s, rfl⟩
    · exact .inr ⟨_, hanswer, quiet_answer s id .unit, rfl⟩
  · split at heffect <;> cases heffect
    exact .inl hanswer

theorem InHand.carryOut (hs : InHand h e L s id effect)
    (heffect : s.carryOut h id effect = .ok s') : Deeds h e s s' := by
  by_cases hne : ∃ target, effect = .cancel target
  · obtain ⟨target, rfl⟩ := hne
    rcases hs.cancels heffect with hmild | ⟨r, hmild, hquiet, rfl⟩
    · exact hmild.deeds
    · exact hmild.deeds.tail (.cancel target (hs.tidy.forest.congr hquiet.tree.shape))
  · exact .single (hs.deed heffect fun target heq => hne ⟨target, heq⟩).1

theorem InHand.dispatch (hs : InHand h e L s id effect) : Deeds h e s (s.dispatch h id effect) := by
  have hnote := hs.note
  unfold Scheduler.dispatch violate
  split
  · exact deeds_finish hs.tidy.forest hs.coherent hs.inward h _
  · have hmild := mild_note s h id effect
    dsimp only
    split
    · rename_i s' heffect
      exact hmild.deeds.trans (hnote.carryOut heffect)
    · exact hmild.deeds.trans (deeds_finish hnote.tidy.forest hnote.coherent hnote.inward h _)

/-- The task whose entry is taken off the queue is in hand. -/
theorem Coherent.take_off (hc : Coherent s L ∅) {input : Input} {rest : List (TaskId × Input)}
    (hq : s.queue = (id, input) :: rest) (world : W) :
    Coherent { s with queue := rest, world } L {id} ∧
      Inward { s with queue := rest, world } id := by
  have hpop : Coherent { s with queue := rest } L {id} := (hc.pop hq).congr_hand (by simp)
  have hmem : id ∈ s.waiters .nothing := by simp [waiters, hq]
  exact ⟨hpop.frame, .of_wait (w := .nothing) (hc.of_mem_waiters hmem).2.2.2.1 rfl⟩

/-- A task that yields on its turn is in hand, with what its process has become. -/
theorem inHand_of_turn (htidy : Tidy s) (hc : Coherent s L ∅) {input : Input}
    {rest : List (TaskId × Input)} (hq : s.queue = (id, input) :: rest) {t : Task P R W}
    (ht : s.task? id = some t) {process process' : Process P R W} (hp : t.process = some process)
    {world : W}
    (hstep : process.step h.program.resume input s.world = (.yield effect, process', world)) :
    Mild { s with queue := rest } ({ s with queue := rest, world }.storeProcess id process') ∧
      InHand h (s, .step) L ({ s with queue := rest, world }.storeProcess id process') id
        effect := by
  obtain ⟨hpop, hid⟩ := hc.take_off hq world
  have htidy' : Tidy { s with queue := rest } := htidy.congr (.of_tasks rfl rfl)
  have hturn : s.turn? h = some (id, .yield effect) := by simp [turn?, hq, ht, hp, hstep]
  have hworld : s.turnWorld h = world := by simp [turnWorld, hq, ht, hp, hstep]
  have hne : process' ≠ .ended := by
    have hne := Process.step_yield_ne_ended (congrArg Prod.fst hstep)
    rwa [hstep] at hne
  have hlater := later_storeProcess (s := { s with queue := rest, world }) ht
    (by simp [hp]) process' world
  have hstore := hid.mild_turn (f := fun t => { t with
    process := some process', status := .running, wait := .nothing }) hlater (fun _ => rfl)
    fun _ => rfl
  have hframe : Mild { s with queue := rest } { s with queue := rest, world } :=
    .of_tables rfl rfl rfl rfl
  exact ⟨hframe.trans hstore, rfl, hturn, rfl, hworld.symm, hpop.storeProcess rfl hne,
    htidy'.storeProcess id process' world, hid.of_mild hstore⟩

/-- The task whose turn it is goes on. -/
theorem deeds_step (htidy : Tidy s) (hc : Coherent s L ∅) {input : Input}
    {rest : List (TaskId × Input)} (hq : s.queue = (id, input) :: rest) :
    Deeds h (s, .step) { s with queue := rest } ({ s with queue := rest }.step h id input) := by
  obtain ⟨t, ht, hp⟩ := ((hc.take_off hq s.world).1.loose id rfl).live
  obtain ⟨process, hp⟩ := Option.isSome_iff_exists.1 hp
  have ht' : s.task? id = some t := ht
  have ht'' : task? { s with queue := rest } id = some t := ht
  unfold step
  simp only [ht'', hp]
  cases hstep : process.step h.program.resume input s.world with
  | mk answer rest' =>
    obtain ⟨process', world⟩ := rest'
    have hfinish : ∀ outcome, Deeds h (s, .step) { s with queue := rest }
        (({ s with queue := rest, world }.storeProcess id process').finish h id outcome) := by
      intro outcome
      have hframe : Mild { s with queue := rest } { s with queue := rest, world } :=
        .of_tables rfl rfl rfl rfl
      obtain ⟨hpop, hid⟩ := hc.take_off hq world
      have hf : Forest { s with queue := rest, world } := htidy.forest.of_tasks rfl rfl
      rw [finish_storeProcess (s := { s with queue := rest, world }) ht]
      exact hframe.deeds.trans (deeds_finish hf hpop hid h outcome)
    cases answer with
    | done v => exact hfinish _
    | failed error => exact hfinish _
    | yield effect =>
      obtain ⟨hstored, hhand⟩ := inHand_of_turn (h := h) htidy hc hq ht' hp hstep
      exact hstored.deeds.trans hhand.dispatch

/-- What is done in a move other than a step. -/
theorem deeds_move (hf : Forest s) (hc : Coherent s L ∅) {m : Move P} (hm : m ≠ .step) :
    Deeds h (s, m) s (s.move h m) := by
  cases m with
  | step => exact absurd rfl hm
  | enroll process args =>
    exact .single (.mild ((mild_spawn hf h process args none .root).trans
      (.of_tables rfl rfl rfl rfl)))
  | announce n => exact .single (.publish (Or.inl rfl) (hc.announces_announce h n))
  | deliver c => exact .single (.complete s c)
  | receive =>
    simp only [move]
    split
    · exact .refl
    · rename_i c rest _
      have hinbox : Mild s { s with pending := { s.pending with inbox := rest } } :=
        .of_tables rfl rfl rfl rfl
      exact hinbox.deeds.tail (.complete _ c)
  | cancel root => exact .single (.cancel root hf)
  | _ => exact .single (.mild (.of_tables rfl rfl rfl rfl))

/-- Every move is a sequence of deeds. -/
theorem Run.deeds (run : Run h log s) (m : Move P) :
    Deeds h (s, m) (s.popped m) (s.move h m) := by
  by_cases hm : m = .step
  · subst hm
    cases hq : s.queue with
    | nil =>
      have hsame : s.popped .step = s := by
        simp only [popped, hq, List.tail_nil]
        rw [← hq]
      rw [move_step_nil h hq, hsame]
    | cons entry rest =>
      rw [move_step_cons h hq]
      have hstep := deeds_step (h := h) run.tidy run.coherent hq
      simpa [popped, hq] using hstep.tail (.mild (mild_takeFault _))
  · have hsame : s.popped m = s := by
      cases m <;> first | rfl | exact absurd rfl hm
    rw [hsame]
    exact deeds_move run.tidy.forest run.coherent hm

end Scheduler

end CoopTasks
