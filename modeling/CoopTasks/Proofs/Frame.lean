import CoopTasks.Scheduler.Host

/-!
# What an operation leaves alone

Three relations between a scheduler and a later one. `SameTree`: the live tasks are the same, and so
is all of them that only their own steps change. `Later`: tasks of old are still of the same parent
and role, and none of them is out of cancellation again. `Kept`: what is queued for a task stays
queued, or gives way to the signal that cancels the task. Most operations are `Quiet`: all three
hold.
-/

namespace CoopTasks

/-- The effects that an effect runs as branches of its own. -/
def Effect.parts {P W : Type} : Effect P W → List (Effect P W)
  | .all effects => effects
  | .race branches => branches.map Prod.snd
  | _ => []

namespace Task

variable {P R W : Type}

/-- The task without all that others may change of it. -/
def still (t : Task P R W) : Task P R W :=
  { t with status := .running, wait := .nothing, cancelling := false, abort := none, joiners := [] }

@[simp] theorem still_parent (t : Task P R W) : t.still.parent = t.parent := rfl
@[simp] theorem still_role (t : Task P R W) : t.still.role = t.role := rfl
@[simp] theorem still_children (t : Task P R W) : t.still.children = t.children := rfl
@[simp] theorem still_process (t : Task P R W) : t.still.process = t.process := rfl

theorem parent_of_still {t t' : Task P R W} (h : t'.still = t.still) : t'.parent = t.parent := by
  simpa using congrArg Task.parent h

theorem role_of_still {t t' : Task P R W} (h : t'.still = t.still) : t'.role = t.role := by
  simpa using congrArg Task.role h

theorem children_of_still {t t' : Task P R W} (h : t'.still = t.still) :
    t'.children = t.children := by
  simpa using congrArg Task.children h

theorem process_of_still {t t' : Task P R W} (h : t'.still = t.still) :
    t'.process = t.process := by
  simpa using congrArg Task.process h

theorem isDone_iff {t : Task P R W} : t.isDone ↔ t.process = none ∧ t.children = [] := by
  simp [isDone]

/-- What time does not turn back in a task. -/
structure Onward (t t' : Task P R W) : Prop where
  parent : t'.parent = t.parent
  role : t'.role = t.role
  cancelling : t.cancelling = true → t'.cancelling = true
  ended : t.process = none → t'.process = none

theorem Onward.refl (t : Task P R W) : t.Onward t := ⟨rfl, rfl, id, id⟩

theorem Onward.trans {t t' t'' : Task P R W} (h : t.Onward t') (h' : t'.Onward t'') :
    t.Onward t'' :=
  ⟨h'.parent.trans h.parent, h'.role.trans h.role, fun hc => h'.cancelling (h.cancelling hc),
    fun hp => h'.ended (h.ended hp)⟩

end Task

namespace Scheduler

variable {P R W : Type} {s s' s'' : Scheduler P R W}

structure SameTree (s s' : Scheduler P R W) : Prop where
  keys : s'.tasks.keys = s.tasks.keys
  still : ∀ id, (s'.task? id).map Task.still = (s.task? id).map Task.still
  next : s'.nextTask = s.nextTask

structure Later (s s' : Scheduler P R W) : Prop where
  next : s.nextTask ≤ s'.nextTask
  onward : ∀ id t', s'.task? id = some t' → id.val < s.nextTask →
    ∃ t, s.task? id = some t ∧ t.Onward t'

/-- A live task has its answer in the queue: the given one, or its own signal if it was not being
cancelled when the answer was given. -/
def Answered (s : Scheduler P R W) (id : TaskId) (input : Input) (cancelling : Bool) : Prop :=
  id.val < s.nextTask ∧ ∃ t, s.task? id = some t ∧ t.process.isSome ∧
    (((id, input) ∈ s.queue ∧ t.cancelling = cancelling) ∨
      ((id, Input.error (.cancelled id)) ∈ s.queue ∧ t.cancelling = true ∧ cancelling = false))

def Kept (s s' : Scheduler P R W) : Prop :=
  ∀ id input cancelling, s.Answered id input cancelling → s'.Answered id input cancelling

structure Lasting (s s' : Scheduler P R W) : Prop where
  later : Later s s'
  kept : Kept s s'

structure Quiet (s s' : Scheduler P R W) : Prop extends Lasting s s' where
  tree : SameTree s s'
  settled : s'.settled = s.settled

theorem SameTree.refl (s : Scheduler P R W) : SameTree s s := ⟨rfl, fun _ => rfl, rfl⟩

theorem SameTree.trans (h : SameTree s s') (h' : SameTree s' s'') : SameTree s s'' :=
  ⟨h'.keys.trans h.keys, fun id => (h'.still id).trans (h.still id), h'.next.trans h.next⟩

theorem SameTree.symm (h : SameTree s s') : SameTree s' s :=
  ⟨h.keys.symm, fun id => (h.still id).symm, h.next.symm⟩

/-- A live task of the one is live in the other, with the same fixed part. -/
theorem SameTree.find (h : SameTree s s') {id : TaskId} {t : Task P R W}
    (ht : s.task? id = some t) : ∃ t', s'.task? id = some t' ∧ t'.still = t.still := by
  have hs := h.still id
  rw [ht] at hs
  cases ht' : s'.task? id with
  | none => simp [ht'] at hs
  | some t' => exact ⟨t', rfl, by simpa [ht'] using hs⟩

theorem SameTree.isLive (h : SameTree s s') (id : TaskId) : s'.isLive id = s.isLive id := by
  have hs := congrArg Option.isSome (h.still id)
  simpa [isLive_eq] using hs

theorem Later.refl (s : Scheduler P R W) : Later s s :=
  ⟨Nat.le_refl _, fun _ t ht _ => ⟨t, ht, .refl t⟩⟩

theorem Later.trans (h : Later s s') (h' : Later s' s'') : Later s s'' := by
  refine ⟨Nat.le_trans h.next h'.next, ?_⟩
  intro id t'' ht'' hid
  obtain ⟨t', ht', ho'⟩ := h'.onward id t'' ht'' (Nat.lt_of_lt_of_le hid h.next)
  obtain ⟨t, ht, ho⟩ := h.onward id t' ht' hid
  exact ⟨t, ht, ho.trans ho'⟩

theorem Kept.refl (s : Scheduler P R W) : Kept s s := fun _ _ _ h => h

theorem Kept.trans (h : Kept s s') (h' : Kept s' s'') : Kept s s'' :=
  fun id input c ha => h' id input c (h id input c ha)

theorem Lasting.trans (h : Lasting s s') (h' : Lasting s' s'') : Lasting s s'' :=
  ⟨h.later.trans h'.later, h.kept.trans h'.kept⟩

theorem Quiet.refl (s : Scheduler P R W) : Quiet s s := ⟨⟨.refl s, .refl s⟩, .refl s, rfl⟩

theorem Quiet.trans (h : Quiet s s') (h' : Quiet s' s'') : Quiet s s'' :=
  ⟨h.toLasting.trans h'.toLasting, h.tree.trans h'.tree, h'.settled.trans h.settled⟩

/-- A property of all steps of a fold is one of the fold. -/
theorem Quiet.foldl {α : Type} (f : Scheduler P R W → α → Scheduler P R W)
    (hf : ∀ s a, Quiet s (f s a)) (as : List α) (s : Scheduler P R W) : Quiet s (as.foldl f s) :=
  List.foldlRecOn (motive := Quiet s) as f (.refl s) fun r hr a _ => hr.trans (hf r a)

/-! ## Single changes -/

theorem task?_of_tasks (htasks : s'.tasks = s.tasks) (id : TaskId) : s'.task? id = s.task? id := by
  simp only [task?, htasks]

theorem SameTree.of_tasks (htasks : s'.tasks = s.tasks) (hnext : s'.nextTask = s.nextTask) :
    SameTree s s' :=
  ⟨by rw [htasks], fun id => by rw [task?_of_tasks htasks], hnext⟩

theorem Later.of_tasks (htasks : s'.tasks = s.tasks) (hnext : s'.nextTask = s.nextTask) :
    Later s s' :=
  ⟨Nat.le_of_eq hnext.symm, fun id t ht _ => ⟨t, task?_of_tasks htasks id ▸ ht, .refl t⟩⟩

/-- Nothing happens to the tasks, and nothing leaves the queue. -/
theorem Quiet.of_tasks (htasks : s'.tasks = s.tasks) (hnext : s'.nextTask = s.nextTask)
    (hsettled : s'.settled = s.settled) (hqueue : s.queue ⊆ s'.queue) : Quiet s s' := by
  refine ⟨⟨.of_tasks htasks hnext, ?_⟩, .of_tasks htasks hnext, hsettled⟩
  rintro id input c ⟨hid, t, ht, hp, hq⟩
  refine ⟨by rwa [hnext], t, by rwa [task?_of_tasks htasks], hp, ?_⟩
  rcases hq with ⟨hq, hc⟩ | ⟨hq, hc⟩
  · exact Or.inl ⟨hqueue hq, hc⟩
  · exact Or.inr ⟨hqueue hq, hc⟩

theorem sameTree_updateTask (s : Scheduler P R W) (id : TaskId) (f : Task P R W → Task P R W)
    (hf : ∀ t, (f t).still = t.still) : SameTree s (s.updateTask id f) := by
  refine ⟨keys_updateTask s id f, ?_, rfl⟩
  intro j
  by_cases hj : j = id
  · simp [hj, Function.comp_def, hf]
  · simp [hj]

theorem later_updateTask (s : Scheduler P R W) (id : TaskId) (f : Task P R W → Task P R W)
    (hf : ∀ t : Task P R W, t.Onward (f t)) : Later s (s.updateTask id f) := by
  refine ⟨Nat.le_refl _, ?_⟩
  intro j t' ht' _
  by_cases hj : j = id
  · obtain ⟨t, ht, rfl⟩ : ∃ t, s.task? j = some t ∧ f t = t' := by simpa [hj] using ht'
    exact ⟨t, ht, hf t⟩
  · exact ⟨t', by simpa [hj] using ht', .refl t'⟩

theorem Answered.updateTask_of_ne {id j : TaskId} {input : Input} {c : Bool}
    (h : s.Answered j input c) (f : Task P R W → Task P R W) (hj : j ≠ id) :
    (s.updateTask id f).Answered j input c := by
  obtain ⟨hlt, t, ht, hp, hq⟩ := h
  exact ⟨hlt, t, by simpa [hj] using ht, hp, hq⟩

/-- A change of one task that keeps its process and its cancellation. -/
theorem lasting_updateTask (s : Scheduler P R W) (id : TaskId) (f : Task P R W → Task P R W)
    (hparent : ∀ t, (f t).parent = t.parent) (hrole : ∀ t, (f t).role = t.role)
    (hc : ∀ t, (f t).cancelling = t.cancelling)
    (hp : ∀ t, (f t).process = t.process) : Lasting s (s.updateTask id f) := by
  refine ⟨later_updateTask s id f fun t => ⟨hparent t, hrole t, fun h => (hc t).trans h,
    fun h => (hp t).trans h⟩, ?_⟩
  intro j input c ha
  by_cases hj : j = id
  · obtain ⟨hlt, t, ht, htp, hq⟩ := ha
    exact ⟨hlt, f t, by simp [← hj, ht], by rwa [hp], by rwa [hc]⟩
  · exact ha.updateTask_of_ne f hj

/-- A change of one task that keeps its fixed part and its cancellation. -/
theorem quiet_updateTask (s : Scheduler P R W) (id : TaskId) (f : Task P R W → Task P R W)
    (hstill : ∀ t, (f t).still = t.still) (hc : ∀ t, (f t).cancelling = t.cancelling) :
    Quiet s (s.updateTask id f) :=
  ⟨lasting_updateTask s id f (fun t => Task.parent_of_still (hstill t))
    (fun t => Task.role_of_still (hstill t)) hc
    (fun t => Task.process_of_still (hstill t)), sameTree_updateTask s id f hstill, rfl⟩

theorem quiet_enqueueFirst (s : Scheduler P R W) (id : TaskId) (input : Input) :
    Quiet s (s.enqueueFirst id input) :=
  .of_tasks rfl rfl rfl (List.subset_cons_self _ _)

theorem quiet_enqueueLast (s : Scheduler P R W) (id : TaskId) (input : Input) :
    Quiet s (s.enqueueLast id input) :=
  .of_tasks rfl rfl rfl (List.subset_append_left _ _)

theorem quiet_makeReady (s : Scheduler P R W) (id : TaskId) : Quiet s (s.makeReady id) :=
  quiet_updateTask s id _ (fun _ => rfl) (fun _ => rfl)

theorem quiet_wakeFirst (s : Scheduler P R W) (id : TaskId) (input : Input) :
    Quiet s (s.wakeFirst id input) :=
  (quiet_makeReady s id).trans (quiet_enqueueFirst _ id input)

theorem quiet_wakeLast (s : Scheduler P R W) (id : TaskId) (input : Input) :
    Quiet s (s.wakeLast id input) :=
  (quiet_makeReady s id).trans (quiet_enqueueLast _ id input)

theorem quiet_suspend (s : Scheduler P R W) (id : TaskId) (wait : Wait) :
    Quiet s (s.suspend id wait) :=
  quiet_updateTask s id _ (fun _ => rfl) (fun _ => rfl)

theorem quiet_wakeIfWaiting (s : Scheduler P R W) (id : TaskId) (wait : Wait) (input : Input) :
    Quiet s (s.wakeIfWaiting id wait input) := by
  unfold wakeIfWaiting
  split
  · exact quiet_wakeFirst s id input
  · exact .refl s

theorem quiet_publish (s : Scheduler P R W) (h : Host P R W) (n : Notification) :
    Quiet s (s.publish h n).2 :=
  .of_tasks rfl rfl rfl (List.Subset.refl _)

theorem quiet_raiseOf (s : Scheduler P R W) (id : TaskId) (outcome : Outcome) :
    Quiet s (s.raiseOf id outcome) := by
  unfold raiseOf
  split
  · exact .of_tasks rfl rfl rfl (List.Subset.refl _)
  · exact .refl s

theorem quiet_note (s : Scheduler P R W) (h : Host P R W) (id : TaskId) (effect : Effect P W) :
    Quiet s (s.note h id effect) := by
  unfold note
  split
  · exact .of_tasks rfl rfl rfl (List.Subset.refl _)
  · exact .refl s

/-! ## Cancellation -/

theorem quiet_withdraw (s : Scheduler P R W) (id : TaskId) (wait : Wait) :
    Quiet s (s.withdraw id wait) := by
  cases wait with
  | join target => exact quiet_updateTask s target _ (fun _ => rfl) (fun _ => rfl)
  | _ => exact .of_tasks rfl rfl rfl (List.Subset.refl _)

theorem Answered.unqueue_of_ne {id j : TaskId} {input : Input} {c : Bool}
    (h : s.Answered j input c) (hj : j ≠ id) : (s.unqueue id).Answered j input c := by
  obtain ⟨hlt, t, ht, hp, hq⟩ := h
  refine ⟨hlt, t, ht, hp, ?_⟩
  simpa [unqueue, hj] using hq

theorem sameTree_mark (s : Scheduler P R W) (id : TaskId) (t : Task P R W) (wait : Wait) :
    SameTree s (s.mark id t wait) :=
  ((sameTree_updateTask s id (fun t => { t with cancelling := true, wait }) fun _ => rfl).trans
    (quiet_withdraw _ id t.wait).tree).trans (.of_tasks rfl rfl)

theorem later_mark (s : Scheduler P R W) (id : TaskId) (t : Task P R W) (wait : Wait) :
    Later s (s.mark id t wait) :=
  ((later_updateTask s id (fun t => { t with cancelling := true, wait })
    fun _ => ⟨rfl, rfl, fun _ => rfl, fun h => h⟩).trans
    (quiet_withdraw _ id t.wait).later).trans (.of_tasks rfl rfl)

theorem Answered.mark_of_ne {id j : TaskId} {input : Input} {c : Bool}
    (h : s.Answered j input c) (hj : j ≠ id) (t : Task P R W) (wait : Wait) :
    (s.mark id t wait).Answered j input c :=
  ((quiet_withdraw _ id t.wait).kept _ _ _ (h.updateTask_of_ne _ hj)).unqueue_of_ne hj

theorem cancelling_mark {id : TaskId} {t t' : Task P R W} {wait : Wait} (hid : id.val < s.nextTask)
    (h : (s.mark id t wait).task? id = some t') : t'.cancelling = true := by
  obtain ⟨u, hu, ho⟩ := (quiet_withdraw (s.updateTask id _) id t.wait).later.onward id t' h hid
  obtain ⟨v, -, rfl⟩ : ∃ v, s.task? id = some v ∧ _ = u := by simpa using hu
  exact ho.cancelling rfl

theorem settled_mark (s : Scheduler P R W) (id : TaskId) (t : Task P R W) (wait : Wait) :
    (s.mark id t wait).settled = s.settled :=
  (quiet_withdraw (s.updateTask id fun t => { t with cancelling := true, wait }) id t.wait).settled

theorem quiet_signal (s : Scheduler P R W) (id : TaskId) : Quiet s (s.signal id) := by
  unfold signal
  cases ht : s.task? id with
  | none => exact .refl s
  | some t =>
    by_cases hc : t.cancelling
    · simpa [hc] using Quiet.refl s
    cases hp : t.process with
    | none =>
      simp only [hc, hp, Option.isSome_none, Bool.false_eq_true, if_false]
      refine ⟨⟨later_mark .., fun j input c ha => ?_⟩, sameTree_mark .., settled_mark ..⟩
      refine ha.mark_of_ne ?_ t .children
      rintro rfl
      obtain ⟨-, u, hu, hup, -⟩ := ha
      rw [ht] at hu
      cases hu
      simp [hp] at hup
    | some process =>
      simp only [hc, hp, Option.isSome_some, Bool.false_eq_true, if_false, if_true]
      refine ⟨⟨(later_mark ..).trans (quiet_enqueueFirst ..).later, fun j input c ha => ?_⟩,
        (sameTree_mark ..).trans (quiet_enqueueFirst ..).tree, settled_mark ..⟩
      by_cases hj : j = id
      · subst hj
        obtain ⟨hlt, u, hu, -, hq⟩ := ha
        rw [ht] at hu
        cases hu
        have hcf : c = false := by rcases hq with ⟨-, hq⟩ | ⟨-, hq, -⟩ <;> simp_all
        obtain ⟨t', ht', hs⟩ := (sameTree_mark s j t .nothing).find ht
        refine ⟨by rwa [((sameTree_mark s j t .nothing).trans (quiet_enqueueFirst ..).tree).next],
          t', ht', by simp [Task.process_of_still hs, hp], Or.inr ⟨?_, ?_, hcf⟩⟩
        · simp [enqueueFirst]
        · exact cancelling_mark hlt ht'
      · exact (quiet_enqueueFirst ..).kept _ _ _ (ha.mark_of_ne hj t .nothing)

theorem quiet_cancelSubtree (s : Scheduler P R W) (root : TaskId) :
    Quiet s (s.cancelSubtree root) :=
  .foldl signal quiet_signal _ s

theorem quiet_cancelSubtrees (s : Scheduler P R W) (roots : List TaskId) :
    Quiet s (s.cancelSubtrees roots) :=
  .foldl cancelSubtree quiet_cancelSubtree _ s

/-! ## Settlement -/

theorem quiet_abort (s : Scheduler P R W) (id : TaskId) (error : TaskError) :
    Quiet s (s.abort id error) := by
  unfold abort
  split
  · exact .refl s
  · split
    · exact .refl s
    · refine Quiet.trans ?_ (quiet_cancelSubtree _ id)
      exact quiet_updateTask s id _ (fun _ => rfl) (fun _ => rfl)

theorem quiet_settleBranch (s : Scheduler P R W) (id : GroupId) (slot : Nat) (outcome : Outcome) :
    Quiet s (s.settleBranch id slot outcome) := by
  unfold settleBranch
  split
  · exact .refl s
  · split
    · exact .of_tasks rfl rfl rfl (List.Subset.refl _)
    · refine Quiet.trans (Quiet.trans ?_ (quiet_wakeIfWaiting _ _ _ _)) (quiet_cancelSubtrees _ _)
      exact .of_tasks rfl rfl rfl (List.Subset.refl _)

theorem quiet_answerJoiners (s : Scheduler P R W) (joiners : List TaskId) (record : Settlement) :
    Quiet s (s.answerJoiners joiners record) :=
  .foldl _ (fun s joiner => quiet_wakeIfWaiting s joiner _ _) _ s

theorem quiet_deliver (s : Scheduler P R W) (t : Task P R W) (record : Settlement) :
    Quiet s (s.deliver t record) := by
  unfold deliver
  split
  · exact .of_tasks rfl rfl rfl (List.Subset.refl _)
  · exact .refl s
  · split
    · exact quiet_abort s _ _
    · exact .refl s
  · exact .refl s
  · split
    · exact .refl s
    · exact quiet_settleBranch s _ _ _
  · exact quiet_wakeIfWaiting s _ _ _
  · exact .refl s

/-- Taking an ended task out of the tree takes no answer from any other task. -/
theorem lasting_erase {id : TaskId} {t : Task P R W} (ht : s.task? id = some t)
    (hp : t.process = none) : Lasting s { s with tasks := s.tasks.erase id } := by
  refine ⟨⟨Nat.le_refl _, ?_⟩, ?_⟩
  · intro j t' ht' _
    have hj : s.task? j = some t' := by
      simp only [task?, Table.find?_erase] at ht'
      split at ht'
      · cases ht'
      · exact ht'
    exact ⟨t', hj, .refl t'⟩
  · rintro j input c ⟨hlt, u, hu, hup, hq⟩
    have hj : j ≠ id := by
      rintro rfl
      rw [ht] at hu
      cases hu
      simp [hp] at hup
    exact ⟨hlt, u, by simpa [task?, hj] using hu, hup, hq⟩

theorem lasting_addChild (s : Scheduler P R W) (child : TaskId) (parent : Option TaskId) :
    Lasting s (s.addChild child parent) := by
  cases parent with
  | none => exact (Quiet.refl s).toLasting
  | some parent =>
    exact lasting_updateTask s parent _ (fun _ => rfl) (fun _ => rfl) (fun _ => rfl) fun _ => rfl

theorem lasting_dropChild (s : Scheduler P R W) (child : TaskId) (parent : Option TaskId) :
    Lasting s (s.dropChild child parent) := by
  cases parent with
  | none => exact (Quiet.refl s).toLasting
  | some parent =>
    exact lasting_updateTask s parent _ (fun _ => rfl) (fun _ => rfl) (fun _ => rfl) fun _ => rfl

/-- Once a task is out of the tree and its record is filed, nothing moves in what is left. -/
theorem quiet_retire (s : Scheduler P R W) (h : Host P R W) (id : TaskId) (t : Task P R W) :
    Quiet ((s.remove id t.parent).remember h ⟨id, t.endStatus, t.endResult id⟩) (s.retire h id t) :=
  (quiet_answerJoiners ..).trans (quiet_deliver ..)

theorem lasting_remember (s : Scheduler P R W) (h : Host P R W) (record : Settlement) :
    Lasting s (s.remember h record) :=
  ⟨.of_tasks rfl rfl, fun _ _ _ ha => ha⟩

theorem sameTree_retire (s : Scheduler P R W) (h : Host P R W) (id : TaskId) (t : Task P R W) :
    SameTree (s.remove id t.parent) (s.retire h id t) := by
  have hfiled : SameTree (s.remove id t.parent)
      ((s.remove id t.parent).remember h ⟨id, t.endStatus, t.endResult id⟩) := .of_tasks rfl rfl
  exact hfiled.trans (quiet_retire s h id t).tree

theorem lasting_retire (h : Host P R W) {id : TaskId} {t : Task P R W} (ht : s.task? id = some t)
    (hp : t.process = none) : Lasting s (s.retire h id t) :=
  ((lasting_erase ht hp).trans (lasting_dropChild _ id t.parent)).trans
    (Lasting.trans (lasting_remember _ h _) (quiet_retire s h id t).toLasting)

/-- What holds on when a task that is done settles holds on when the settlement climbs. -/
theorem settleWithin_preserves {I : Scheduler P R W → Prop}
    (hretire : ∀ s id t, s.task? id = some t → t.isDone → I s → I (s.retire h id t)) (fuel : Nat)
    (id : TaskId) {s : Scheduler P R W} (hs : I s) : I (settleWithin h fuel id s) := by
  induction fuel generalizing id s with
  | zero => exact hs
  | succ fuel ih =>
    unfold settleWithin
    cases ht : s.task? id with
    | none => exact hs
    | some t =>
      by_cases hd : t.isDone
      · have hr := hretire s id t ht hd hs
        cases hparent : t.parent with
        | none => simpa [hd, hparent] using hr
        | some parent => simpa [hd, hparent] using ih parent hr
      · simpa [hd] using hs

theorem lasting_settleWithin (h : Host P R W) (fuel : Nat) (id : TaskId) (s : Scheduler P R W) :
    Lasting s (settleWithin h fuel id s) :=
  settleWithin_preserves (I := Lasting s)
    (fun _ _ _ ht hd hr => hr.trans (lasting_retire h ht (Task.isDone_iff.1 hd).1)) fuel id
    (Quiet.refl s).toLasting

theorem lasting_settle (h : Host P R W) (id : TaskId) (s : Scheduler P R W) :
    Lasting s (s.settle h id) :=
  lasting_settleWithin h _ id s

theorem later_endProcess (s : Scheduler P R W) (id : TaskId) (outcome : Outcome) :
    Later s (s.endProcess id outcome) :=
  later_updateTask s id _ fun _ => ⟨rfl, rfl, fun h => h, fun _ => rfl⟩

theorem later_finish (s : Scheduler P R W) (h : Host P R W) (id : TaskId) (outcome : Outcome) :
    Later s (s.finish h id outcome) := by
  unfold finish
  have hraise := (quiet_raiseOf s id outcome).later
  split
  · exact hraise
  · exact hraise.trans ((later_endProcess _ id outcome).trans
      ((quiet_cancelSubtrees _ _).later.trans (lasting_settle h id _).later))

/-- The end of a process takes no answer from another task. -/
theorem Answered.finish_of_ne {id j : TaskId} {input : Input} {c : Bool}
    (ha : s.Answered j input c) (hj : j ≠ id) (h : Host P R W) (outcome : Outcome) :
    (s.finish h id outcome).Answered j input c := by
  unfold finish
  have hraise := (quiet_raiseOf s id outcome).kept _ _ _ ha
  split
  · exact hraise
  · exact (lasting_settle h id _).kept _ _ _
      ((quiet_cancelSubtrees _ _).kept _ _ _ (hraise.updateTask_of_ne _ hj))

/-! ## Effects -/

theorem quiet_answer (s : Scheduler P R W) (id : TaskId) (v : Value) : Quiet s (s.answer id v) :=
  quiet_wakeFirst s id _

theorem quiet_wakeAll (s : Scheduler P R W) (ids : List TaskId) (v : Value) :
    Quiet s (s.wakeAll ids v) :=
  .foldl _ (fun s id => quiet_answer s id v) _ s

theorem quiet_call (s : Scheduler P R W) (id : TaskId) (operation : Operation W)
    (args : List Value) : Quiet s (s.call id operation args) := by
  have hframe : ∀ pending world, Quiet s { s with pending, world } := fun _ _ =>
    .of_tasks rfl rfl rfl (List.Subset.refl _)
  unfold call
  obtain ⟨outcome, pending, world⟩ := s.pending.carryOut id (operation.invoke args id s.world)
  cases outcome with
  | answered result => exact (hframe pending world).trans (quiet_wakeFirst _ id _)
  | awaiting op => exact (hframe pending world).trans (quiet_suspend _ id _)

theorem quiet_put (s : Scheduler P R W) (h : Host P R W) (id : TaskId) (n : Notification) :
    Quiet s (s.put h id n) :=
  (quiet_publish s h n).trans ((quiet_answer _ id _).trans (quiet_wakeAll _ _ _))

theorem quiet_setChannel (s : Scheduler P R W) (id : ChannelId) (c : Channel) :
    Quiet s (s.setChannel id c) :=
  .of_tasks rfl rfl rfl (List.Subset.refl _)

theorem quiet_openChannel (s : Scheduler P R W) (id : TaskId) (policy : Buffering) :
    Quiet s (s.openChannel id policy) := by
  refine Quiet.trans ?_ (quiet_answer _ id _)
  exact .of_tasks rfl rfl rfl (List.Subset.refl _)

theorem quiet_join {id target : TaskId} (hs : s.join id target = .ok s') : Quiet s s' := by
  unfold join at hs
  split at hs
  · cases hs
    refine Quiet.trans ?_ (quiet_suspend _ id _)
    exact quiet_updateTask s target _ (fun _ => rfl) (fun _ => rfl)
  · split at hs
    · cases hs
      exact quiet_wakeFirst s id _
    · split at hs
      · cases hs
        exact quiet_wakeFirst s id _
      · cases hs

theorem quiet_cancel {id target : TaskId} (hs : s.cancel id target = .ok s') : Quiet s s' := by
  unfold cancel at hs
  split at hs
  · split at hs
    · cases hs
      exact quiet_cancelSubtree s target
    · cases hs
      exact (quiet_answer s id _).trans (quiet_cancelSubtree _ target)
  · split at hs
    · cases hs
      exact quiet_answer s id _
    · cases hs

theorem quiet_channelTake {id : TaskId} {channel : ChannelId}
    (hs : s.channelTake id channel = .ok s') : Quiet s s' := by
  unfold channelTake at hs
  split at hs
  · cases hs
  · have hset := fun c => quiet_setChannel s channel c
    split at hs <;> cases hs
    · exact (hset _).trans ((quiet_answer _ _ _).trans (quiet_answer _ _ _))
    · exact (hset _).trans (quiet_answer _ _ _)
    · exact (hset _).trans (quiet_suspend _ _ _)
    · exact (hset _).trans (quiet_answer _ _ _)

theorem quiet_channelPut {id : TaskId} {channel : ChannelId} {v : Value}
    (hs : s.channelPut id channel v = .ok s') : Quiet s s' := by
  unfold channelPut at hs
  split at hs
  · cases hs
  · have hset := fun c => quiet_setChannel s channel c
    split at hs <;> cases hs
    · exact (hset _).trans ((quiet_answer _ _ _).trans (quiet_answer _ _ _))
    · exact (hset _).trans (quiet_answer _ _ _)
    · exact (hset _).trans (quiet_answer _ _ _)
    · exact (hset _).trans (quiet_suspend _ _ _)
    · exact (hset _).trans (quiet_wakeFirst _ _ _)

theorem quiet_channelClose {id : TaskId} {channel : ChannelId}
    (hs : s.channelClose id channel = .ok s') : Quiet s s' := by
  unfold channelClose at hs
  split at hs
  · cases hs
  · cases hs
    exact (quiet_setChannel s channel _).trans ((quiet_answer _ _ _).trans
      ((quiet_wakeAll _ _ _).trans (quiet_wakeAll _ _ _)))

theorem nextTask_addTask (s : Scheduler P R W) (name : String) (parent : Option TaskId)
    (role : Role) (process : Process P R W) :
    (s.addTask name parent role process).2.nextTask = s.nextTask + 1 := by
  cases parent <;> rfl

theorem lasting_addTask (s : Scheduler P R W) (name : String) (parent : Option TaskId)
    (role : Role) (process : Process P R W) :
    Lasting s (s.addTask name parent role process).2 := by
  have hchild := lasting_addChild s ⟨s.nextTask⟩ parent
  have hnext : (s.addChild ⟨s.nextTask⟩ parent).nextTask = s.nextTask := by cases parent <;> rfl
  refine hchild.trans ⟨⟨?_, ?_⟩, ?_⟩
  · simp [addTask, hnext]
  · intro id t' ht' hid
    have hne : id ≠ ⟨s.nextTask⟩ := by rintro rfl; simp [hnext] at hid
    refine ⟨t', ?_, .refl t'⟩
    simpa [task?, addTask, hne] using ht'
  · rintro id input c ⟨hid, t, ht, hp, hq⟩
    have hne : id ≠ ⟨s.nextTask⟩ := by rintro rfl; simp [hnext] at hid
    refine ⟨?_, t, ?_, hp, ?_⟩
    · simp only [addTask]
      omega
    · simpa [task?, addTask, hne] using ht
    · simpa [addTask] using hq

theorem lasting_spawn (s : Scheduler P R W) (h : Host P R W) (process : P) (args : List Value)
    (parent : Option TaskId) (role : Role) : Lasting s (s.spawn h process args parent role).2 := by
  unfold spawn
  obtain ⟨started, world⟩ := h.program.spawn process args s.world
  refine Lasting.trans (Quiet.toLasting ?_) (lasting_addTask { s with world } _ _ _ _)
  exact .of_tasks rfl rfl rfl (List.Subset.refl _)

theorem lasting_callProcess (s : Scheduler P R W) (h : Host P R W) (id : TaskId) (process : P)
    (args : List Value) : Lasting s (s.callProcess h id process args) :=
  (lasting_spawn s h process args (some id) .called).trans
    ((quiet_suspend _ id _).trans (quiet_enqueueFirst _ _ _)).toLasting

theorem lasting_fork (s : Scheduler P R W) (h : Host P R W) (id : TaskId) (process : P)
    (args : List Value) : Lasting s (s.fork h id process args) :=
  (lasting_spawn s h process args (some (s.forkOwner id)) .forked).trans
    ((quiet_enqueueLast _ _ _).trans (quiet_answer _ id _)).toLasting

theorem lasting_addBranches (owner : TaskId) (group : GroupId) (mode : GroupMode) (slot : Nat)
    (effects : List (Effect P W)) (s : Scheduler P R W) :
    Lasting s (s.addBranches owner group mode slot effects).2 := by
  induction effects generalizing slot s with
  | nil => exact (Quiet.refl s).toLasting
  | cons effect rest ih => exact (lasting_addTask ..).trans (ih (slot + 1) _)

theorem lasting_startGroup (s : Scheduler P R W) (id : TaskId) (mode : GroupMode)
    (effects : List (Effect P W)) : Lasting s (s.startGroup id mode effects) := by
  unfold startGroup
  split
  · exact (quiet_answer s id _).toLasting
  · have hbranches := lasting_addBranches id ⟨s.nextGroup⟩ mode 0 effects
      { s with nextGroup := s.nextGroup + 1 }
    refine Lasting.trans (Quiet.toLasting ?_) (hbranches.trans
      (Quiet.toLasting (Quiet.trans (quiet_suspend _ id (.group ⟨s.nextGroup⟩)) ?_)))
    · exact .of_tasks rfl rfl rfl (List.Subset.refl _)
    · exact .of_tasks rfl rfl rfl (List.subset_append_right _ _)

theorem quiet_take {h : Host P R W} {id : TaskId} {pattern : Pattern}
    (hs : s.carryOut h id (.take pattern) = .ok s') : Quiet s s' := by
  have hlisten : Quiet s ({ s with takers := s.takers ++ [(id, pattern)] }.suspend id .take) := by
    refine Quiet.trans ?_ (quiet_suspend _ id _)
    exact .of_tasks rfl rfl rfl (List.Subset.refl _)
  cases pattern with
  | channel channel => exact quiet_channelTake hs
  | _ => cases hs; exact hlisten

/-- An effect is quiet, or it spawns tasks in one of three ways: a group has a branch for each part
of the effect. -/
theorem carryOut_parts {h : Host P R W} {id : TaskId} {effect : Effect P W}
    (hs : s.carryOut h id effect = .ok s') :
    Quiet s s' ∨ (∃ process args, s' = s.callProcess h id process args) ∨
      (∃ process args, s' = s.fork h id process args) ∨
      ∃ mode, s' = s.startGroup id mode effect.parts := by
  cases effect with
  | call operation args => cases hs; exact Or.inl (quiet_call ..)
  | callProcess process args => cases hs; exact Or.inr (Or.inl ⟨process, args, rfl⟩)
  | put n => cases hs; exact Or.inl (quiet_put ..)
  | take pattern => exact Or.inl (quiet_take hs)
  | fork process args => cases hs; exact Or.inr (Or.inr (Or.inl ⟨process, args, rfl⟩))
  | join target => exact Or.inl (quiet_join hs)
  | cancel target => exact Or.inl (quiet_cancel hs)
  | cancelled => cases hs; exact Or.inl (quiet_answer ..)
  | all effects => cases hs; exact Or.inr (Or.inr (Or.inr ⟨_, rfl⟩))
  | race branches => cases hs; exact Or.inr (Or.inr (Or.inr ⟨_, rfl⟩))
  | channel policy => cases hs; exact Or.inl (quiet_openChannel ..)
  | channelTake channel => exact Or.inl (quiet_channelTake hs)
  | channelPut channel v => exact Or.inl (quiet_channelPut hs)
  | channelClose channel => exact Or.inl (quiet_channelClose hs)
  | select selector => cases hs; exact Or.inl (quiet_answer ..)

theorem carryOut_cases {h : Host P R W} {id : TaskId} {effect : Effect P W}
    (hs : s.carryOut h id effect = .ok s') :
    Quiet s s' ∨ (∃ process args, s' = s.callProcess h id process args) ∨
      (∃ process args, s' = s.fork h id process args) ∨
      ∃ mode effects, s' = s.startGroup id mode effects :=
  (carryOut_parts hs).imp_right (Or.imp_right (Or.imp_right fun ⟨mode, heq⟩ => ⟨mode, _, heq⟩))

theorem lasting_carryOut {h : Host P R W} {id : TaskId} {effect : Effect P W}
    (hs : s.carryOut h id effect = .ok s') : Lasting s s' := by
  rcases carryOut_cases hs with hq | ⟨process, args, rfl⟩ | ⟨process, args, rfl⟩ |
    ⟨mode, effects, rfl⟩
  · exact hq.toLasting
  · exact lasting_callProcess ..
  · exact lasting_fork ..
  · exact lasting_startGroup ..

/-! ## Steps -/

/-- An effect is carried out, or its task ends for a violation: before it is noted down if the
effect is malformed, and after that if the scheduler cannot carry it out. -/
theorem dispatch_cases (s : Scheduler P R W) (h : Host P R W) (id : TaskId) (effect : Effect P W) :
    (∃ s', effect.violation? = none ∧ (s.note h id effect).carryOut h id effect = .ok s' ∧
      s.dispatch h id effect = s') ∨
    ∃ violation,
      effect.violation? = some violation ∧ s.dispatch h id effect = s.violate h id violation ∨
      (s.note h id effect).carryOut h id effect = .error violation ∧
        s.dispatch h id effect = (s.note h id effect).violate h id violation := by
  unfold dispatch
  cases hv : effect.violation? with
  | some violation => exact Or.inr ⟨violation, Or.inl ⟨rfl, rfl⟩⟩
  | none =>
    dsimp only
    cases hs : (s.note h id effect).carryOut h id effect with
    | ok s' => exact Or.inl ⟨s', rfl, rfl, rfl⟩
    | error violation => exact Or.inr ⟨violation, Or.inr ⟨rfl, rfl⟩⟩

/-- A step of a task with a process stores what the process has become, and then carries out its
effect or finishes the task. -/
theorem step_of_process {id : TaskId} {t : Task P R W} {process : Process P R W}
    (ht : s.task? id = some t) (hp : t.process = some process) (h : Host P R W) (input : Input) :
    ∃ process' world,
      (∃ effect, process.step h.program.resume input s.world = (.yield effect, process', world) ∧
        s.step h id input = ({ s with world }.storeProcess id process').dispatch h id effect) ∨
      ∃ answer outcome, process.step h.program.resume input s.world = (answer, process', world) ∧
        answer.isTerminal ∧
        s.step h id input = ({ s with world }.storeProcess id process').finish h id outcome := by
  cases hstep : process.step h.program.resume input s.world with
  | mk answer rest =>
    refine ⟨rest.1, rest.2, ?_⟩
    simp only [step, ht, hp, hstep]
    cases answer with
    | yield effect => exact Or.inl ⟨effect, rfl, rfl⟩
    | done v => exact Or.inr ⟨_, .ok v, rfl, rfl, rfl⟩
    | failed e => exact Or.inr ⟨_, .error e, rfl, rfl, rfl⟩

theorem step_cases (s : Scheduler P R W) (h : Host P R W) (id : TaskId) (input : Input) :
    s.step h id input = s ∨
    ∃ t process' world, s.task? id = some t ∧ t.process.isSome ∧
      ((∃ effect,
        s.step h id input = ({ s with world }.storeProcess id process').dispatch h id effect) ∨
      ∃ outcome,
        s.step h id input = ({ s with world }.storeProcess id process').finish h id outcome) := by
  cases ht : s.task? id with
  | none =>
    left
    simp [step, ht]
  | some t =>
    cases hp : t.process with
    | none =>
      left
      simp [step, ht, hp]
    | some process =>
      right
      obtain ⟨process', world, hcase⟩ := step_of_process ht hp h input
      refine ⟨t, process', world, rfl, by simp [hp], ?_⟩
      rcases hcase with ⟨effect, -, heq⟩ | ⟨answer, outcome, -, -, heq⟩
      · exact Or.inl ⟨effect, heq⟩
      · exact Or.inr ⟨outcome, heq⟩

theorem later_dispatch (s : Scheduler P R W) (h : Host P R W) (id : TaskId)
    (effect : Effect P W) : Later s (s.dispatch h id effect) := by
  have hnote := (quiet_note s h id effect).later
  rcases dispatch_cases s h id effect with
    ⟨s', -, hs, heq⟩ | ⟨violation, ⟨-, heq⟩ | ⟨-, heq⟩⟩ <;> rw [heq]
  · exact hnote.trans (lasting_carryOut hs).later
  · exact later_finish s h id _
  · exact hnote.trans (later_finish _ h id _)

/-- An effect of one task takes no answer from another. -/
theorem Answered.dispatch_of_ne {id j : TaskId} {input : Input} {c : Bool}
    (ha : s.Answered j input c) (hj : j ≠ id) (h : Host P R W) (effect : Effect P W) :
    (s.dispatch h id effect).Answered j input c := by
  have hnote := (quiet_note s h id effect).kept _ _ _ ha
  rcases dispatch_cases s h id effect with
    ⟨s', -, hs, heq⟩ | ⟨violation, ⟨-, heq⟩ | ⟨-, heq⟩⟩ <;> rw [heq]
  · exact (lasting_carryOut hs).kept _ _ _ hnote
  · exact ha.finish_of_ne hj h _
  · exact hnote.finish_of_ne hj h _

theorem task?_storeProcess {id : TaskId} {t : Task P R W} (ht : s.task? id = some t)
    (process : Process P R W) (world : W) :
    ({ s with world }.storeProcess id process).task? id = some { t with
      process := some process, status := .running, wait := .nothing } := by
  simp [storeProcess, show task? { s with world } id = some t from ht]

theorem isLive_storeProcess {id : TaskId} {t : Task P R W} (ht : s.task? id = some t)
    (process : Process P R W) (world : W) :
    ({ s with world }.storeProcess id process).isLive id := by
  simp [isLive_eq, task?_storeProcess ht]

theorem later_storeProcess {id : TaskId} {t : Task P R W} (ht : s.task? id = some t)
    (hp : t.process.isSome) (process : Process P R W) (world : W) :
    Later s ({ s with world }.storeProcess id process) := by
  have hworld : Later s { s with world } := .of_tasks rfl rfl
  refine hworld.trans ⟨Nat.le_refl _, ?_⟩
  intro j t' ht' _
  by_cases hj : j = id
  · subst hj
    refine ⟨t, ht, ?_⟩
    obtain rfl := Option.some.inj ((task?_storeProcess ht process world).symm.trans ht')
    exact ⟨rfl, rfl, fun h => h, fun h => by simp [h] at hp⟩
  · exact ⟨t', by simpa [storeProcess, hj] using ht', .refl t'⟩

theorem later_step (s : Scheduler P R W) (h : Host P R W) (id : TaskId) (input : Input) :
    Later s (s.step h id input) := by
  rcases step_cases s h id input with heq | ⟨t, process, world, ht, hp, hcase⟩
  · rw [heq]
    exact .refl s
  · have hstore := later_storeProcess ht hp process world
    rcases hcase with ⟨effect, heq⟩ | ⟨outcome, heq⟩ <;> rw [heq]
    · exact hstore.trans (later_dispatch _ h id effect)
    · exact hstore.trans (later_finish _ h id outcome)

/-- A step of one task takes no answer from another. -/
theorem Answered.step_of_ne {id j : TaskId} {input' : Input} {c : Bool}
    (ha : s.Answered j input' c) (hj : j ≠ id) (h : Host P R W) (input : Input) :
    (s.step h id input).Answered j input' c := by
  rcases step_cases s h id input with heq | ⟨t, process, world, -, -, hcase⟩
  · rwa [heq]
  · have hstore : ({ s with world }.storeProcess id process).Answered j input' c :=
      Answered.updateTask_of_ne (s := { s with world }) ha _ hj
    rcases hcase with ⟨effect, heq⟩ | ⟨outcome, heq⟩ <;> rw [heq]
    · exact hstore.dispatch_of_ne hj h effect
    · exact hstore.finish_of_ne hj h outcome

end Scheduler

end CoopTasks
