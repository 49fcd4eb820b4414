import CoopTasks.Proofs.Forest

/-!
# Lifetimes

No task outlives what is above it. What was ever below a task stays below it as long as it is live,
and a task leaves the tree as a leaf, so it settles after all that were ever below it. The records
of settled tasks are in that order.
-/

namespace CoopTasks.Scheduler

variable {P R W : Type} {s s' : Scheduler P R W} {h : Host P R W}
variable {log : List (Scheduler P R W × Move P)} {E : TaskId → TaskId → Prop}

/-- The task was live below the other at some moment of the past. -/
def EverBelow (log : List (Scheduler P R W × Move P)) (root id : TaskId) : Prop :=
  ∃ entry ∈ log, Below entry.1 root id ∧ entry.1.isLive id

/-- Of the pairs in `E` the second never outlives the first: it is still below it, or settled
before. -/
structure Ordered (s : Scheduler P R W) (E : TaskId → TaskId → Prop) : Prop where
  known : ∀ root id, E root id → id.val < s.nextTask
  below : ∀ root id, E root id → s.isLive id → Below s root id
  gone : ∀ record ∈ s.settled, record.task.val < s.nextTask ∧ ¬s.isLive record.task
  order : s.settled.Pairwise fun later earlier => ¬E earlier.task later.task

theorem Later.isLive (h : Later s s') {id : TaskId} (hid : id.val < s.nextTask)
    (hl : s'.isLive id) : s.isLive id := by
  obtain ⟨t', ht'⟩ := Option.isSome_iff_exists.1 hl
  obtain ⟨t, ht, -⟩ := h.onward id t' ht' hid
  simp [isLive_eq, ht]

theorem Later.issued (h : Later s s') {id : TaskId} (hid : s.issued id) : s'.issued id := by
  simp only [Scheduler.issued, Bool.and_eq_true, decide_eq_true_eq] at hid ⊢
  exact ⟨hid.1, Nat.lt_of_lt_of_le hid.2 h.next⟩

/-- The number of a live task was handed out. -/
theorem Run.issued (run : Run h log s) {id : TaskId} (hl : s.isLive id) : s.issued id := by
  have hpositive : 0 < s.nextTask ∧ ∀ id, s.isLive id → 0 < id.val := by
    refine Run.invariant (I := fun s => 0 < s.nextTask ∧ ∀ id, s.isLive id → 0 < id.val)
      (fun world => ⟨Nat.one_pos, fun id hl => by cases hl⟩) (fun s m ih => ?_) run
    have hlater := later_move s h m
    refine ⟨Nat.lt_of_lt_of_le ih.1 hlater.next, fun id hl => ?_⟩
    by_cases hid : id.val < s.nextTask
    · exact ih.2 id (hlater.isLive hid hl)
    · omega
  have hfresh := run.tidy.forest.fresh id hl
  simp only [Scheduler.issued, Bool.and_eq_true, decide_eq_true_eq]
  exact ⟨hpositive.2 id hl, hfresh⟩

/-- What is below a task stays below it as long as it is live. -/
theorem Below.later {root id : TaskId} (hb : Below s root id) (hf : Forest s) (hf' : Forest s')
    (h : Later s s') (hl : s.isLive id) (hl' : s'.isLive id) : Below s' root id := by
  induction hb with
  | self => exact .self
  | @child id parent hp _ ih =>
    obtain ⟨t', ht'⟩ := Option.isSome_iff_exists.1 hl'
    obtain ⟨t, ht, honward⟩ := h.onward id t' ht' (hf.fresh id hl)
    have hp' : s'.parent? id = some parent := by
      rw [parent?_eq ht', honward.parent, ← parent?_eq ht, hp]
    exact .child hp' (ih (hf.isLive_parent hp) (hf'.isLive_parent hp'))

theorem Ordered.below_later (ho : Ordered s E) (hf : Forest s) (hf' : Forest s') (h : Later s s')
    (root id : TaskId) (he : E root id) (hl' : s'.isLive id) : Below s' root id := by
  have hl := h.isLive (ho.known root id he) hl'
  exact (ho.below root id he hl).later hf hf' h hl hl'

/-- An operation in which nothing settles. -/
theorem Ordered.later (ho : Ordered s E) (hf : Forest s) (hf' : Forest s') (h : Later s s')
    (hsettled : s'.settled = s.settled) : Ordered s' E := by
  refine ⟨fun root id he => ?_, ho.below_later hf hf' h, fun record hr => ?_, hsettled ▸ ho.order⟩
  · exact Nat.lt_of_lt_of_le (ho.known root id he) h.next
  · obtain ⟨hid, hgone⟩ := ho.gone record (hsettled ▸ hr)
    exact ⟨Nat.lt_of_lt_of_le hid h.next, fun hl => hgone (h.isLive hid hl)⟩

/-- A leaf settles: it is below no task that settled before. -/
theorem Ordered.retire (ho : Ordered s E) (hf : Forest s) (h : Host P R W) {id : TaskId}
    {t : Task P R W} (ht : s.task? id = some t) (hd : t.isDone) : Ordered (s.retire h id t) E := by
  have hlive : s.isLive id := by simp [isLive_eq, ht]
  have hlater := (lasting_retire h ht (Task.isDone_iff.1 hd).1).later
  have hsettled : (s.retire h id t).settled =
      (⟨id, t.endStatus, t.endResult id⟩ :: s.settled).take h.config.maxSettled := by
    rw [(quiet_retire s h id t).settled]
    cases t.parent <;> rfl
  have hout : ¬(s.retire h id t).isLive id := by
    rw [(sameTree_retire s h id t).isLive, isLive_remove]
    simp
  refine ⟨fun root j he => ?_, ho.below_later hf (hf.retire h ht hd) hlater,
    fun record hr => ?_, ?_⟩
  · exact Nat.lt_of_lt_of_le (ho.known root j he) hlater.next
  · rw [hsettled] at hr
    rcases List.mem_cons.1 (List.mem_of_mem_take hr) with rfl | hr
    · exact ⟨Nat.lt_of_lt_of_le (hf.fresh id hlive) hlater.next, hout⟩
    · obtain ⟨hid, hgone⟩ := ho.gone record hr
      exact ⟨Nat.lt_of_lt_of_le hid hlater.next, fun hl => hgone (hlater.isLive hid hl)⟩
  · rw [hsettled]
    refine List.Pairwise.sublist (List.take_sublist _ _) (List.pairwise_cons.2 ⟨?_, ho.order⟩)
    intro earlier hr he
    exact (ho.gone earlier hr).2 (hf.isLive_above (ho.below _ _ he hlive) hlive)

theorem Ordered.settleWithin (h : Host P R W) (fuel : Nat) (id : TaskId) (s : Scheduler P R W)
    (hf : Forest s) (ho : Ordered s E) : Ordered (settleWithin h fuel id s) E := by
  have hall := settleWithin_preserves (h := h) (I := fun r => Forest r ∧ Ordered r E) ?_ fuel id
    ⟨hf, ho⟩
  · exact hall.2
  · rintro r id t ht hd ⟨hf, ho⟩
    exact ⟨hf.retire h ht hd, ho.retire hf h ht hd⟩

theorem Ordered.finish (ho : Ordered s E) (hf : Forest s) (h : Host P R W) (id : TaskId)
    (outcome : Outcome) : Ordered (s.finish h id outcome) E := by
  have hraise := quiet_raiseOf s id outcome
  unfold Scheduler.finish
  cases s.task? id with
  | none => exact ho.later hf (hf.congr hraise.tree.shape) hraise.later hraise.settled
  | some t =>
    have hcancel := quiet_cancelSubtrees ((s.raiseOf id outcome).endProcess id outcome)
      (t.takenDown outcome)
    have hshape := sameShape_endProcess s id outcome (t.takenDown outcome)
    have hlater := hraise.later.trans ((later_endProcess _ id outcome).trans hcancel.later)
    exact .settleWithin h _ id _ (hf.congr hshape)
      (ho.later hf (hf.congr hshape) hlater (hcancel.settled.trans hraise.settled))

/-! ## Effects and steps -/

theorem settled_spawn (s : Scheduler P R W) (h : Host P R W) (process : P) (args : List Value)
    (parent : Option TaskId) (role : Role) :
    (s.spawn h process args parent role).2.settled = s.settled := by
  cases parent <;> rfl

theorem settled_addBranches (owner : TaskId) (group : GroupId) (mode : GroupMode) (slot : Nat)
    (effects : List (Effect P W)) (s : Scheduler P R W) :
    (s.addBranches owner group mode slot effects).2.settled = s.settled := by
  induction effects generalizing slot s with
  | nil => rfl
  | cons effect rest ih => exact ih (slot + 1) _

theorem settled_carryOut {id : TaskId} {effect : Effect P W}
    (hs : s.carryOut h id effect = .ok s') : s'.settled = s.settled := by
  rcases carryOut_cases hs with hq | ⟨process, args, rfl⟩ | ⟨process, args, rfl⟩ |
    ⟨mode, effects, rfl⟩
  · exact hq.settled
  · exact settled_spawn s h process args (some id) .called
  · exact settled_spawn s h process args (some (s.forkOwner id)) .forked
  · unfold startGroup
    split
    · rfl
    · exact settled_addBranches id ⟨s.nextGroup⟩ mode 0 effects _

theorem Ordered.dispatch (ho : Ordered s E) (ht : Tidy s) {id : TaskId} (hl : s.isLive id)
    (h : Host P R W) (effect : Effect P W) : Ordered (s.dispatch h id effect) E := by
  have hnote := quiet_note s h id effect
  have ht' := ht.congr hnote.tree
  have ho' := ho.later ht.forest ht'.forest hnote.later hnote.settled
  rcases dispatch_cases s h id effect with
    ⟨s', -, hs, heq⟩ | ⟨violation, ⟨-, heq⟩ | ⟨-, heq⟩⟩ <;> rw [heq]
  · exact ho'.later ht'.forest (ht'.carryOut (by rwa [hnote.tree.isLive]) hs).forest
      (lasting_carryOut hs).later (settled_carryOut hs)
  · exact ho.finish ht.forest h id _
  · exact ho'.finish ht'.forest h id _

theorem Ordered.step (ho : Ordered s E) (ht : Tidy s) (h : Host P R W) (id : TaskId)
    (input : Input) : Ordered (s.step h id input) E := by
  rcases step_cases s h id input with heq | ⟨t, process, world, hid, hp, hcase⟩
  · rwa [heq]
  · have hstore := ht.storeProcess id process world
    have ho' := ho.later ht.forest hstore.forest (later_storeProcess hid hp process world) rfl
    rcases hcase with ⟨effect, heq⟩ | ⟨outcome, heq⟩ <;> rw [heq]
    · exact ho'.dispatch hstore (isLive_storeProcess hid process world) h effect
    · exact ho'.finish hstore.forest h id outcome

/-- Nothing settles in a move but a step. -/
theorem settled_move (s : Scheduler P R W) (h : Host P R W) {m : Move P} (hm : m ≠ .step) :
    (s.move h m).settled = s.settled := by
  cases m with
  | step => exact absurd rfl hm
  | enroll process args => exact settled_spawn s h process args none .root
  | announce n => exact (quiet_announce s h n).settled
  | deliver c => exact (quiet_applyCompletion s c).settled
  | receive =>
    simp only [Scheduler.move]
    split
    · rfl
    · exact (quiet_receive s _ _).settled
  | cancel id => exact (quiet_cancelSubtree s id).settled
  | _ => rfl

theorem Ordered.move (ho : Ordered s E) (ht : Tidy s) (h : Host P R W) (m : Move P) :
    Ordered (s.move h m) E := by
  by_cases hm : m = .step
  · subst hm
    cases hq : s.queue with
    | nil => rwa [move_step_nil h hq]
    | cons entry rest =>
      obtain ⟨id, input⟩ := entry
      have hpop : SameTree s { s with queue := rest } := .of_tasks rfl rfl
      have ho' : Ordered { s with queue := rest } E :=
        ho.later ht.forest (ht.congr hpop).forest (.of_tasks rfl rfl) rfl
      have hfault := quiet_takeFault ({ s with queue := rest }.step h id input)
      have ht' := (ht.congr hpop).step h id input
      rw [move_step_cons h hq]
      exact (ho'.step (ht.congr hpop) h id input).later ht'.forest (ht'.congr hfault.tree).forest
        hfault.later hfault.settled
  · exact ho.later ht.forest (ht.move h m).forest (later_move s h m) (settled_move s h hm)

/-- What is below a task now joins the pairs of the past. -/
theorem Ordered.extend (ho : Ordered s E) (hf : Forest s) :
    Ordered s fun root id => E root id ∨ Below s root id ∧ s.isLive id := by
  refine ⟨?_, ?_, ho.gone, ?_⟩
  · rintro root id (he | ⟨-, hl⟩)
    · exact ho.known root id he
    · exact hf.fresh id hl
  · rintro root id (he | ⟨hb, -⟩) hl
    · exact ho.below root id he hl
    · exact hb
  · refine ho.order.imp_of_mem fun {later earlier} hlater _ hnot => ?_
    rintro (he | ⟨-, hl⟩)
    · exact hnot he
    · exact (ho.gone later hlater).2 hl

theorem Run.ordered (run : Run h log s) : Ordered s (EverBelow log) := by
  induction run with
  | @new world s hs =>
    obtain rfl := eq_of_new hs
    exact ⟨by simp [EverBelow], by simp [EverBelow], by simp, .nil⟩
  | @move log s run m ih =>
    have hmoved := (ih.extend run.tidy.forest).move run.tidy h m
    have he : EverBelow (log ++ [(s, m)]) =
        fun root id => EverBelow log root id ∨ Below s root id ∧ s.isLive id := by
      funext root id
      simp [EverBelow, or_and_right, exists_or]
    rwa [he]

/-- At every moment of every run the live tasks are a forest, in which parents and children agree
and a task without a process has a child. No task outlives one above it, and the records of settled
tasks, the latest first, are in that order too. -/
theorem Run.structured (run : Run h log s) :
    (∀ id t, s.task? id = some t →
      (∀ parent, t.parent = some parent → parent.val < id.val ∧
        ∃ p, s.task? parent = some p ∧ p.children.count id = 1) ∧
      (∀ child ∈ t.children, ∃ c, s.task? child = some c ∧ c.parent = some id) ∧
      t.children.Pairwise (fun a b => a.val < b.val) ∧
      (t.process = none → ∃ child ∈ t.children, s.isLive child)) ∧
    (∀ root id, EverBelow log root id → s.isLive id → s.isLive root) ∧
    s.settled.Pairwise fun later earlier => ¬EverBelow log earlier.task later.task := by
  have hf := run.tidy.forest
  have ho := run.ordered
  refine ⟨fun id t ht => ⟨fun parent hp => ?_, fun child hc => ?_, ?_, fun hp => ?_⟩,
    fun root id he hl => hf.isLive_above (ho.below root id he hl) hl, ho.order⟩
  · have hparent : s.parent? id = some parent := by rw [parent?_eq ht, hp]
    have hlisted := (hf.listed id parent).1 hparent
    obtain ⟨p, hpt⟩ := Option.isSome_iff_exists.1 (hf.isLive_parent hparent)
    refine ⟨hf.older id parent hparent, p, hpt, ?_⟩
    have hchildren : s.children parent = p.children := children_eq hpt
    rw [← hchildren]
    exact Nat.le_antisymm (List.nodup_iff_count.1 (hf.nodup_children parent) id)
      (List.count_pos_iff.2 hlisted)
  · rw [← children_eq ht] at hc
    obtain ⟨c, hct⟩ := Option.isSome_iff_exists.1 (hf.isLive_child hc)
    have hparent := (hf.listed child id).2 hc
    exact ⟨c, hct, by rwa [← parent?_eq (t := c) hct]⟩
  · rw [← children_eq ht]
    exact hf.sorted id
  · cases hchildren : t.children with
    | nil => exact absurd (run.tidy.busy id t ht (Task.isDone_iff.2 ⟨hp, hchildren⟩)) (by simp)
    | cons child rest =>
      have hc : child ∈ s.children id := by
        rw [children_eq ht, hchildren]
        exact List.mem_cons_self
      exact ⟨child, List.mem_cons_self, hf.isLive_child hc⟩

/-- A called listener is the one child of its caller, and keeps it in the tree. -/
theorem structured_caller :
    let s := demoAfter [.enroll .caller [], .step, .cancel ⟨1⟩, .step, .cancel ⟨2⟩]
    (∃ p, s.task? ⟨1⟩ = some p ∧ p.children.count ⟨2⟩ = 1) ∧ s.isLive ⟨1⟩ := by
  have run := demoAfter_run [.enroll .caller [], .step, .cancel ⟨1⟩, .step, .cancel ⟨2⟩]
  have hbelow : EverBelow (history { world := () } demo
      [.enroll .caller [], .step, .cancel ⟨1⟩, .step, .cancel ⟨2⟩]) ⟨1⟩ ⟨2⟩ := by
    refine ⟨(demoAfter [.enroll .caller [], .step, .cancel ⟨1⟩, .step], .cancel ⟨2⟩),
      by simp [history, demoAfter], .child (by decide) .self, by decide⟩
  exact ⟨((run.structured.1 ⟨2⟩ _ rfl).1 ⟨1⟩ rfl).2,
    run.structured.2.1 ⟨1⟩ ⟨2⟩ hbelow (by decide)⟩

end CoopTasks.Scheduler
