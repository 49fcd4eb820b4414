import CoopTasks.Proofs.Departures
import CoopTasks.Proofs.Lifetimes

/-!
# What a departure passes on

A task that leaves is taken out of the tree, its record is filed, its joiners are answered, and the
result is delivered by its role. Only the last part may signal other tasks: a failure aborts the
parent, and the result of a branch may resolve its group. `Firm` is what no departure and no change
touches, the verdict on a task that is being cancelled already.
-/

namespace CoopTasks

namespace Group

theorem settle_branches (group : Group) (slot : Nat) (outcome : Outcome) :
    (group.settle slot outcome).1.branches = group.branches := by
  unfold settle
  split
  · rfl
  · rfl
  · dsimp only
    split <;> rfl

theorem settle_mode (group : Group) (slot : Nat) (outcome : Outcome) :
    (group.settle slot outcome).1.mode = group.mode := by
  unfold settle
  split
  · rfl
  · rfl
  · dsimp only
    split <;> rfl

/-- An owner is told of an error only if a branch failed with it. -/
theorem settle_error {group : Group} {slot : Nat} {outcome : Outcome} {e : TaskError}
    (hsettle : (group.settle slot outcome).2 = some (.error e)) : outcome = .error e := by
  unfold settle at hsettle
  split at hsettle
  · cases hsettle
    rfl
  · cases hsettle
  · dsimp only at hsettle
    split at hsettle <;> cases hsettle

end Group

namespace Departure

variable {P R W : Type}

/-- The state in which the task is gone and its record filed. -/
def cleared (d : Departure P R W) (h : Host P R W) : Scheduler P R W :=
  (d.before.remove d.id d.task.parent).remember h d.record

/-- The state in which the joiners are answered too. -/
def filed (d : Departure P R W) (h : Host P R W) : Scheduler P R W :=
  (d.cleared h).answerJoiners d.task.joiners d.record

theorem after_eq (d : Departure P R W) (h : Host P R W) :
    d.after h = (d.filed h).deliver d.task d.record := rfl

end Departure

namespace Scheduler

variable {P R W : Type} {s s' s'' : Scheduler P R W} {h : Host P R W}
variable {A L : Set TaskId} {Q : Input → Prop} {D D' : List (Departure P R W)}
variable {d : Departure P R W}
variable {log : List (Scheduler P R W × Move P)}

/-! ## Cases of a delivery -/

theorem deliver_cases (s : Scheduler P R W) (t : Task P R W) (record : Settlement) :
    s.deliver t record = s ∨
    (∃ caller, t.role = .called ∧ t.parent = some caller ∧
      s.deliver t record = s.wakeIfWaiting caller (.call record.task) record.answer) ∨
    (∃ e, t.role = .root ∧ record.failure? = some e ∧
      s.deliver t record = { s with unhandled := s.unhandled ++ [⟨record.task, t.name, e⟩] }) ∨
    (∃ parent e, t.role = .forked ∧ t.parent = some parent ∧ record.failure? = some e ∧
      t.joiners = [] ∧ s.deliver t record = s.abort parent e) ∨
    ∃ g slot, t.role = .branch g slot ∧ record.status ≠ .cancelled ∧
      s.deliver t record = s.settleBranch g slot record.result := by
  cases hrole : t.role with
  | root =>
    cases hfail : record.failure? with
    | none => exact Or.inl (by simp [deliver, hrole, hfail])
    | some e => exact Or.inr (Or.inr (Or.inl ⟨e, rfl, rfl, by simp [deliver, hrole, hfail]⟩))
  | forked =>
    cases hparent : t.parent with
    | none => exact Or.inl (by simp [deliver, hrole, hparent])
    | some parent =>
      cases hfail : record.failure? with
      | none => exact Or.inl (by simp [deliver, hrole, hparent, hfail])
      | some e =>
        cases hjoiners : t.joiners with
        | nil =>
          refine Or.inr (Or.inr (Or.inr (Or.inl ⟨parent, e, rfl, rfl, rfl, rfl, ?_⟩)))
          simp [deliver, hrole, hparent, hfail, hjoiners]
        | cons joiner rest => exact Or.inl (by simp [deliver, hrole, hparent, hfail, hjoiners])
  | branch g slot =>
    by_cases hcancel : record.status = .cancelled
    · exact Or.inl (by simp [deliver, hrole, hcancel])
    · refine Or.inr (Or.inr (Or.inr (Or.inr ⟨g, slot, rfl, hcancel, ?_⟩)))
      simp [deliver, hrole, hcancel]
  | called =>
    cases hparent : t.parent with
    | none => exact Or.inl (by simp [deliver, hrole, hparent])
    | some caller =>
      exact Or.inr (Or.inl ⟨caller, rfl, rfl, by simp [deliver, hrole, hparent]⟩)

theorem abort_cases (s : Scheduler P R W) (id : TaskId) (error : TaskError) :
    s.abort id error = s ∧ (∀ t, s.task? id = some t → t.cancelling = true ∨ t.abort.isSome) ∨
      ∃ t, s.task? id = some t ∧ t.cancelling = false ∧ t.abort = none ∧
        s.abort id error =
          (s.updateTask id fun t => { t with abort := some error }).cancelSubtree id := by
  unfold abort
  cases ht : s.task? id with
  | none => exact Or.inl ⟨rfl, by simp⟩
  | some t =>
    by_cases hc : t.cancelling = true ∨ t.abort.isSome
    · exact Or.inl ⟨by simp [hc], fun u hu => by cases hu; exact hc⟩
    · refine Or.inr ⟨t, rfl, ?_, ?_, by simp [hc]⟩
      · simpa using fun hcancel => hc (Or.inl hcancel)
      · simpa using fun habort => hc (Or.inr habort)

theorem settleBranch_cases (s : Scheduler P R W) (g : GroupId) (slot : Nat) (outcome : Outcome) :
    s.groups.find? g = none ∧ s.settleBranch g slot outcome = s ∨
    ∃ group, s.groups.find? g = some group ∧
      ((group.settle slot outcome).2 = none ∧ s.settleBranch g slot outcome =
        { s with groups := s.groups.modify g fun _ => (group.settle slot outcome).1 } ∨
      ∃ input, (group.settle slot outcome).2 = some input ∧ s.settleBranch g slot outcome =
        (wakeIfWaiting { s with groups := s.groups.erase g } group.owner (.group g)
          input).cancelSubtrees group.branches) := by
  unfold settleBranch
  cases hg : s.groups.find? g with
  | none => exact Or.inl ⟨rfl, rfl⟩
  | some group =>
    refine Or.inr ⟨group, rfl, ?_⟩
    have howner := group.settle_owner slot outcome
    have hbranches := group.settle_branches slot outcome
    dsimp only
    cases hsettle : group.settle slot outcome with
    | mk group' input =>
      rw [hsettle] at howner hbranches
      cases input with
      | none => exact Or.inl ⟨rfl, rfl⟩
      | some input =>
        refine Or.inr ⟨input, rfl, ?_⟩
        dsimp only at howner hbranches ⊢
        rw [howner, hbranches]

/-! ## What is left in the tree -/

theorem task?_cleared (d : Departure P R W) (h : Host P R W) (j : TaskId) :
    (d.cleared h).task? j =
      if j = d.id then none
      else if d.task.parent = some j then
        (d.before.task? j).map fun t => { t with children := t.children.filter (· ≠ d.id) }
      else d.before.task? j :=
  task?_remove d.before d.id d.task.parent j

@[simp] theorem queue_cleared (d : Departure P R W) (h : Host P R W) :
    (d.cleared h).queue = d.before.queue := by
  unfold Departure.cleared
  cases d.task.parent <;> rfl

@[simp] theorem groups_cleared (d : Departure P R W) (h : Host P R W) :
    (d.cleared h).groups = d.before.groups := by
  unfold Departure.cleared
  cases d.task.parent <;> rfl

@[simp] theorem nextGroup_cleared (d : Departure P R W) (h : Host P R W) :
    (d.cleared h).nextGroup = d.before.nextGroup := by
  unfold Departure.cleared
  cases d.task.parent <;> rfl

@[simp] theorem nextTask_cleared (d : Departure P R W) (h : Host P R W) :
    (d.cleared h).nextTask = d.before.nextTask := by
  unfold Departure.cleared
  cases d.task.parent <;> rfl

@[simp] theorem unhandled_cleared (d : Departure P R W) (h : Host P R W) :
    (d.cleared h).unhandled = d.before.unhandled := by
  unfold Departure.cleared
  cases d.task.parent <;> rfl

@[simp] theorem settled_cleared (d : Departure P R W) (h : Host P R W) :
    (d.cleared h).settled = (d.record :: d.before.settled).take h.config.maxSettled := by
  unfold Departure.cleared
  cases d.task.parent <;> rfl

/-- Every other task is still there, and nothing but its list of children is different. -/
theorem find_cleared (d : Departure P R W) (h : Host P R W) {j : TaskId} (hj : j ≠ d.id)
    {t : Task P R W} (ht : d.before.task? j = some t) :
    ∃ children, (d.cleared h).task? j = some { t with children } := by
  rw [task?_cleared, if_neg hj, ht]
  split
  · exact ⟨_, rfl⟩
  · exact ⟨t.children, rfl⟩

theorem find_of_cleared (d : Departure P R W) (h : Host P R W) {j : TaskId} {t' : Task P R W}
    (ht : (d.cleared h).task? j = some t') :
    j ≠ d.id ∧ ∃ t, d.before.task? j = some t ∧ t' = { t with children := t'.children } := by
  rw [task?_cleared] at ht
  split at ht
  · cases ht
  · rename_i hj
    refine ⟨hj, ?_⟩
    split at ht
    · obtain ⟨t, hfound, rfl⟩ := Option.map_eq_some_iff.1 ht
      exact ⟨t, hfound, rfl⟩
    · exact ⟨t', ht, rfl⟩

theorem changes_filed (d : Departure P R W) (h : Host P R W) (A : Set TaskId) :
    Changes A (· = d.record.answer) (d.cleared h) (d.filed h) :=
  changes_answerJoiners _ _ _ rfl

theorem sameTree_after (d : Departure P R W) (h : Host P R W) : SameTree (d.cleared h) (d.after h) :=
  (quiet_retire d.before h d.id d.task).tree

/-- After a departure every task that is left has its role, its parent and its process. -/
theorem find_of_after (d : Departure P R W) (h : Host P R W) {j : TaskId} {t' : Task P R W}
    (ht' : (d.after h).task? j = some t') : j ≠ d.id ∧ ∃ t, d.before.task? j = some t ∧
      t'.role = t.role ∧ t'.parent = t.parent ∧ t'.process = t.process := by
  obtain ⟨u, hu, hstill⟩ := (sameTree_after d h).symm.find ht'
  obtain ⟨hne, t, ht, heq⟩ := find_of_cleared d h hu
  refine ⟨hne, t, ht, (Task.role_of_still hstill).symm.trans (by rw [heq]), ?_, ?_⟩
  · exact (Task.parent_of_still hstill).symm.trans (by rw [heq])
  · exact (Task.process_of_still hstill).symm.trans (by rw [heq])

theorem find_after (d : Departure P R W) (h : Host P R W) {j : TaskId} (hj : j ≠ d.id)
    {t : Task P R W} (ht : d.before.task? j = some t) : ∃ t', (d.after h).task? j = some t' ∧
      t'.role = t.role ∧ t'.parent = t.parent ∧ t'.process = t.process := by
  obtain ⟨children, hu⟩ := find_cleared d h hj ht
  obtain ⟨t', ht', hstill⟩ := (sameTree_after d h).find hu
  exact ⟨t', ht', (Task.role_of_still hstill).trans rfl, (Task.parent_of_still hstill).trans rfl,
    (Task.process_of_still hstill).trans rfl⟩

theorem Leaving.forest_filed (hd : Leaving d) (h : Host P R W) : Forest (d.filed h) := by
  have hforest := hd.forest.retire h hd.found hd.done
  have hfiled : SameTree (d.cleared h) (d.filed h) := (quiet_answerJoiners ..).tree
  exact hforest.congr ((sameTree_after d h).symm.trans hfiled).shape

theorem settled_after (d : Departure P R W) (h : Host P R W) :
    (d.after h).settled = (d.record :: d.before.settled).take h.config.maxSettled := by
  rw [← settled_cleared d h]
  exact (quiet_retire d.before h d.id d.task).settled

theorem nextTask_after (d : Departure P R W) (h : Host P R W) :
    (d.after h).nextTask = d.before.nextTask :=
  (sameTree_after d h).next.trans (nextTask_cleared d h)

theorem isLive_after (d : Departure P R W) (h : Host P R W) (j : TaskId) :
    (d.after h).isLive j = (decide (j ≠ d.id) && d.before.isLive j) := by
  rw [(sameTree_after d h).isLive]
  exact isLive_remove d.before d.id d.task.parent j

theorem task?_after_eq_none (d : Departure P R W) (h : Host P R W) (j : TaskId) :
    (d.after h).task? j = none ↔ j = d.id ∨ d.before.task? j = none := by
  have hl := isLive_after d h j
  rw [isLive_eq, isLive_eq] at hl
  rw [← Option.not_isSome_iff_eq_none, hl, ← Option.not_isSome_iff_eq_none]
  by_cases hj : j = d.id <;> simp [hj]

/-! ## Verdicts -/

/-- Whether a live task is being cancelled, and the failure that it was torn down for. -/
def verdict? (s : Scheduler P R W) (id : TaskId) : Option (Bool × Option TaskError) :=
  (s.task? id).map fun t => (t.cancelling, t.abort)

/-- A task keeps its place in the tree, and the verdict on it once it is being cancelled. -/
structure Firm (s s' : Scheduler P R W) : Prop where
  next : s.nextTask ≤ s'.nextTask
  stands : ∀ id t', s'.task? id = some t' → id.val < s.nextTask → ∃ t, s.task? id = some t ∧
    t'.parent = t.parent ∧ (t.cancelling = true → t'.cancelling = true ∧ t'.abort = t.abort)

theorem Firm.refl (s : Scheduler P R W) : Firm s s :=
  ⟨Nat.le_refl _, fun _ t ht _ => ⟨t, ht, rfl, fun hc => ⟨hc, rfl⟩⟩⟩

theorem Firm.trans (hs : Firm s s') (hs' : Firm s' s'') : Firm s s'' := by
  refine ⟨Nat.le_trans hs.next hs'.next, fun id t'' ht'' hid => ?_⟩
  obtain ⟨t', ht', hparent', hstands'⟩ := hs'.stands id t'' ht'' (Nat.lt_of_lt_of_le hid hs.next)
  obtain ⟨t, ht, hparent, hstands⟩ := hs.stands id t' ht' hid
  refine ⟨t, ht, hparent'.trans hparent, fun hc => ?_⟩
  obtain ⟨hc', habort⟩ := hstands hc
  obtain ⟨hc'', habort'⟩ := hstands' hc'
  exact ⟨hc'', habort'.trans habort⟩

theorem Firm.of_tasks (htasks : s'.tasks = s.tasks) (hnext : s'.nextTask = s.nextTask) :
    Firm s s' :=
  ⟨Nat.le_of_eq hnext.symm, fun id t ht _ =>
    ⟨t, by rwa [← task?_of_tasks htasks], rfl, fun hc => ⟨hc, rfl⟩⟩⟩

theorem Steady.firm (hs : Steady A s s') : Firm s s' := by
  refine ⟨hs.next, fun id t' ht' hid => ?_⟩
  cases ht : s.task? id with
  | none => exact absurd (hs.came id t' ht' ht).1 (Nat.not_le.2 hid)
  | some t =>
    obtain ⟨u, hu, hsteady⟩ := hs.stays id t ht
    obtain rfl := Option.some.inj (ht'.symm.trans hu)
    exact ⟨t, rfl, hsteady.parent, fun hc => ⟨hsteady.cancelling hc, hsteady.abort⟩⟩

theorem Firm.beingCancelled (hs : Firm s s') {id : TaskId} (hl : s'.isLive id)
    (hid : id.val < s.nextTask) (hc : s.beingCancelled id) : s'.beingCancelled id := by
  obtain ⟨t', ht'⟩ := Option.isSome_iff_exists.1 hl
  obtain ⟨t, ht, -, hstands⟩ := hs.stands id t' ht' hid
  rw [beingCancelled_eq ht] at hc
  rw [beingCancelled_eq ht']
  exact (hstands hc).1

theorem Firm.calm (hs : Firm s s') {id : TaskId} (hid : id.val < s.nextTask) (hl : s'.isLive id)
    (hcalm : s'.beingCancelled id = false) : s.beingCancelled id = false := by
  obtain ⟨t', ht'⟩ := Option.isSome_iff_exists.1 hl
  obtain ⟨t, ht, -, hstands⟩ := hs.stands id t' ht' hid
  rw [beingCancelled_eq ht'] at hcalm
  rw [beingCancelled_eq ht]
  cases hc : t.cancelling with
  | false => rfl
  | true => rw [(hstands hc).1] at hcalm; cases hcalm

/-! ## Tasks that are woken -/

/-- Tasks are woken at most. -/
structure Woken (s s' : Scheduler P R W) : Prop where
  verdict : ∀ id, s'.verdict? id = s.verdict? id
  groups : s'.groups = s.groups
  unhandled : s'.unhandled = s.unhandled

theorem Woken.refl (s : Scheduler P R W) : Woken s s := ⟨fun _ => rfl, rfl, rfl⟩

theorem Woken.trans (hs : Woken s s') (hs' : Woken s' s'') : Woken s s'' :=
  ⟨fun id => (hs'.verdict id).trans (hs.verdict id), hs'.groups.trans hs.groups,
    hs'.unhandled.trans hs.unhandled⟩

theorem woken_wakeIfWaiting (s : Scheduler P R W) (id : TaskId) (wait : Wait) (input : Input) :
    Woken s (s.wakeIfWaiting id wait input) := by
  unfold wakeIfWaiting
  split
  · refine ⟨fun j => ?_, rfl, rfl⟩
    have hready : (s.wakeFirst id input).verdict? j = (s.makeReady id).verdict? j := rfl
    rw [hready]
    by_cases hj : j = id
    · simp [verdict?, makeReady, hj, Function.comp_def]
    · simp [verdict?, makeReady, hj]
  · exact .refl s

theorem woken_filed (d : Departure P R W) (h : Host P R W) : Woken (d.cleared h) (d.filed h) := by
  refine List.foldlRecOn (motive := Woken (d.cleared h)) _ _ (.refl _) fun r hr joiner _ => ?_
  exact hr.trans (woken_wakeIfWaiting r joiner _ _)

theorem verdict?_cleared (d : Departure P R W) (h : Host P R W) {j : TaskId} (hj : j ≠ d.id) :
    (d.cleared h).verdict? j = d.before.verdict? j := by
  unfold verdict?
  rw [task?_cleared, if_neg hj]
  split
  · rw [Option.map_map]
    rfl
  · rfl

/-! ## Stages of a departure -/

/-- A task is blamed, or the table of groups is brought up to date. -/
structure Readied (s s' : Scheduler P R W) : Prop where
  tasks : ∀ j, s'.task? j = s.task? j ∨ ∃ t e, s.task? j = some t ∧ t.cancelling = false ∧
    s'.task? j = some { t with abort := some e }
  queue : s'.queue = s.queue
  nextTask : s'.nextTask = s.nextTask
  nextGroup : s'.nextGroup = s.nextGroup

theorem Readied.of_tasks (htasks : s'.tasks = s.tasks) (hqueue : s'.queue = s.queue)
    (hnext : s'.nextTask = s.nextTask) (hnextGroup : s'.nextGroup = s.nextGroup) : Readied s s' :=
  ⟨fun j => Or.inl (task?_of_tasks htasks j), hqueue, hnext, hnextGroup⟩

theorem Readied.wait? (hs : Readied s s') (j : TaskId) : s'.wait? j = s.wait? j := by
  rcases hs.tasks j with heq | ⟨t, e, ht, -, heq⟩
  · rw [Scheduler.wait?, heq, Scheduler.wait?]
  · simp [Scheduler.wait?, ht, heq]

theorem Readied.beingCancelled (hs : Readied s s') (j : TaskId) :
    s'.beingCancelled j = s.beingCancelled j := by
  rcases hs.tasks j with heq | ⟨t, e, ht, -, heq⟩
  · rw [Scheduler.beingCancelled, heq, Scheduler.beingCancelled]
  · rw [beingCancelled_eq heq, beingCancelled_eq ht]

theorem Readied.firm (hs : Readied s s') : Firm s s' := by
  refine ⟨Nat.le_of_eq hs.nextTask.symm, fun j t' ht' _ => ?_⟩
  rcases hs.tasks j with heq | ⟨t, e, ht, hcalm, heq⟩
  · exact ⟨t', by rwa [← heq], rfl, fun hc => ⟨hc, rfl⟩⟩
  · rw [heq] at ht'
    cases ht'
    refine ⟨t, ht, rfl, fun hc => ?_⟩
    rw [hcalm] at hc
    cases hc

/-- What becomes of the table of groups when a task leaves. -/
inductive Regrouped (d : Departure P R W) : Table GroupId Group → Prop where
  | same : (∀ g slot, d.task.role = .branch g slot →
      d.record.status = .cancelled ∨ d.before.groups.find? g = none) → Regrouped d d.before.groups
  | noted {g : GroupId} {slot : Nat} {group : Group} : d.task.role = .branch g slot →
      d.record.status ≠ .cancelled → d.before.groups.find? g = some group →
      (group.settle slot d.record.result).2 = none →
      Regrouped d (d.before.groups.modify g fun _ => (group.settle slot d.record.result).1)
  | resolved {g : GroupId} {slot : Nat} {group : Group} {input : Input} :
      d.task.role = .branch g slot → d.record.status ≠ .cancelled →
      d.before.groups.find? g = some group →
      (group.settle slot d.record.result).2 = some input → Regrouped d (d.before.groups.erase g)

/-- What a departure tells other tasks: its answer, or the one that its group resolves with. -/
def Tells (d : Departure P R W) (input : Input) : Prop :=
  input = d.record.answer ∨ ∃ (group : Group) (slot : Nat), d.record.status ≠ .cancelled ∧
    (group.settle slot d.record.result).2 = some input

/-- An error that is passed on is the answer of the task that failed with it. -/
theorem answer_of_tells {e : TaskError} (htells : Tells d (.error e)) :
    d.record.answer = .error e := by
  rcases htells with heq | ⟨group, slot, hstatus, hsettle⟩
  · exact heq.symm
  · rw [Settlement.answer, if_neg hstatus, Group.settle_error hsettle]
    rfl

theorem groups_filed (d : Departure P R W) (h : Host P R W) :
    (d.filed h).groups = d.before.groups := by
  rw [(woken_filed d h).groups, groups_cleared]

theorem stages_branch (d : Departure P R W) (h : Host P R W) (A : Set TaskId) {g : GroupId}
    {slot : Nat} (hrole : d.task.role = .branch g slot) (hstatus : d.record.status ≠ .cancelled) :
    ∃ r, Readied (d.filed h) r ∧ Regrouped d r.groups ∧ Changes A (Tells d) r (d.after h) := by
  have heq : d.after h = (d.filed h).settleBranch g slot d.record.result := by
    simp [d.after_eq h, deliver, hrole, hstatus]
  have hgroups := groups_filed d h
  rw [heq]
  rcases settleBranch_cases (d.filed h) g slot d.record.result with
    ⟨hnone, heq⟩ | ⟨group, hg, ⟨hsettle, heq⟩ | ⟨input, hsettle, heq⟩⟩ <;> rw [heq]
  · refine ⟨d.filed h, .of_tasks rfl rfl rfl rfl, ?_, .refl⟩
    rw [hgroups] at hnone ⊢
    refine .same fun g' slot' hrole' => Or.inr ?_
    rw [hrole] at hrole'
    cases hrole'
    exact hnone
  · refine ⟨{ d.filed h with groups := (d.filed h).groups.modify g fun _ =>
        (group.settle slot d.record.result).1 }, .of_tasks rfl rfl rfl rfl, ?_, .refl⟩
    rw [hgroups] at hg ⊢
    exact .noted hrole hstatus hg hsettle
  · refine ⟨{ d.filed h with groups := (d.filed h).groups.erase g },
      .of_tasks rfl rfl rfl rfl, ?_, ?_⟩
    · rw [hgroups] at hg ⊢
      exact .resolved hrole hstatus hg hsettle
    · have hwake := changes_wakeIfWaiting (A := A) (Q := Tells d)
        { d.filed h with groups := (d.filed h).groups.erase g } group.owner (.group g)
        (Or.inr ⟨group, slot, hstatus, hsettle⟩)
      exact hwake.trans (changes_cancelSubtrees _ _)

/-- A delivery readies the tables, and then it changes tasks one by one. -/
theorem after_stages (d : Departure P R W) (h : Host P R W) (A : Set TaskId) :
    ∃ r, Readied (d.filed h) r ∧ Regrouped d r.groups ∧ Changes A (Tells d) r (d.after h) := by
  by_cases hbranch : ∃ g slot, d.task.role = .branch g slot ∧ d.record.status ≠ .cancelled
  · obtain ⟨g, slot, hrole, hstatus⟩ := hbranch
    exact stages_branch d h A hrole hstatus
  · have hsame : Regrouped d (d.filed h).groups := by
      rw [groups_filed]
      refine .same fun g slot hrole => Or.inl ?_
      by_contra hstatus
      exact hbranch ⟨g, slot, hrole, hstatus⟩
    have hself : ∀ {r}, Changes A (Tells d) (d.filed h) r → ∃ r', Readied (d.filed h) r' ∧
        Regrouped d r'.groups ∧ Changes A (Tells d) r' r :=
      fun hchanges => ⟨d.filed h, .of_tasks rfl rfl rfl rfl, hsame, hchanges⟩
    rw [d.after_eq h]
    rcases deliver_cases (d.filed h) d.task d.record with
      heq | ⟨caller, -, -, heq⟩ | ⟨e, -, -, heq⟩ | ⟨parent, e, -, -, -, -, heq⟩ |
        ⟨g, slot, hrole, hstatus, -⟩
    · rw [heq]
      exact hself .refl
    · rw [heq]
      exact hself (changes_wakeIfWaiting _ _ _ (Or.inl rfl))
    · rw [heq]
      exact hself (.single (.frame rfl rfl rfl rfl rfl rfl))
    · rcases abort_cases (d.filed h) parent e with ⟨habort, -⟩ | ⟨t, ht, hcalm, -, habort⟩ <;>
        rw [heq, habort]
      · exact hself .refl
      · refine ⟨(d.filed h).updateTask parent fun t => { t with abort := some e },
          ⟨fun j => ?_, rfl, rfl, rfl⟩, hsame, changes_cancelSubtree _ _⟩
        by_cases hj : j = parent
        · exact Or.inr ⟨t, e, hj ▸ ht, hcalm, by simp [hj, ht]⟩
        · exact Or.inl (by simp [hj])
    · exact absurd ⟨g, slot, hrole, hstatus⟩ hbranch

/-! ## Verdicts on those that stay -/

theorem firm_cleared (d : Departure P R W) (h : Host P R W) : Firm d.before (d.cleared h) := by
  refine ⟨Nat.le_of_eq (nextTask_cleared d h).symm, fun j t' ht' _ => ?_⟩
  obtain ⟨-, t, ht, heq⟩ := find_of_cleared d h ht'
  refine ⟨t, ht, by rw [heq], fun hc => ?_⟩
  rw [heq]
  exact ⟨hc, rfl⟩

theorem firm_filed (d : Departure P R W) (h : Host P R W) : Firm d.before (d.filed h) :=
  (firm_cleared d h).trans (changes_filed d h ∅).changed.firm

theorem firm_after (d : Departure P R W) (h : Host P R W) : Firm d.before (d.after h) := by
  obtain ⟨r, hready, -, hchanges⟩ := after_stages d h ∅
  exact ((firm_filed d h).trans hready.firm).trans hchanges.changed.firm

theorem Course.firm (hcourse : Course h A s D s') : Firm s s' := by
  induction hcourse with
  | refl => exact .refl s
  | change _ hchange ih => exact ih.trans hchange.changed.firm
  | group id mode _ ht hl _ ih => exact ih.trans (steady_startGroup (A := A) ht hl mode _).firm
  | leave _ _ ih => exact ih.trans (firm_after _ h)

theorem firm_popped (s : Scheduler P R W) (m : Move P) : Firm s (s.popped m) := by
  cases m <;> exact .of_tasks rfl rfl

theorem Run.firm_move (run : Run h log s) (m : Move P) : Firm s (s.move h m) :=
  (firm_popped s m).trans (run.course m).firm

theorem Run.firm_moves (run : Run h log s) (ms : List (Move P)) : Firm s (s.moves h ms) :=
  (run.relates Firm.refl Firm.trans firm_popped Course.firm ms).1

/-- The verdict stands until a task leaves later. -/
theorem Run.firm_before (run : Run h log s) (ms : List (Move P))
    (hd : d ∈ settlements h (s.history h ms)) : Firm s d.before :=
  (run.relates Firm.refl Firm.trans firm_popped Course.firm ms).2 d hd

/-! ## Departures that wake at most -/

/-- A departure that wakes at most its joiners and its caller. -/
structure Unheard (d : Departure P R W) (h : Host P R W) : Prop where
  verdict : ∀ j, j ≠ d.id → (d.after h).verdict? j = d.before.verdict? j
  groups : (d.after h).groups = d.before.groups
  unhandled : (d.after h).unhandled = d.before.unhandled

theorem unheard_of_woken (hs : Woken (d.filed h) (d.after h)) : Unheard d h := by
  have hwoken := (woken_filed d h).trans hs
  refine ⟨fun j hj => (hwoken.verdict j).trans (verdict?_cleared d h hj), ?_, ?_⟩
  · rw [hwoken.groups, groups_cleared]
  · rw [hwoken.unhandled, unhandled_cleared]

/-- The failure of a forked task goes to those who join it, if there are any. -/
theorem unheard_of_joined (hrole : d.task.role = .forked) (hjoiners : d.task.joiners ≠ []) :
    Unheard d h := by
  refine unheard_of_woken ?_
  rw [d.after_eq h]
  rcases deliver_cases (d.filed h) d.task d.record with
    heq | ⟨caller, hcalled, -, -⟩ | ⟨e, hroot, -, -⟩ | ⟨parent, e, -, -, -, hnone, -⟩ |
      ⟨g, slot, hbranch, -, -⟩
  · rw [heq]
    exact .refl _
  · rw [hrole] at hcalled
    cases hcalled
  · rw [hrole] at hroot
    cases hroot
  · exact absurd hnone hjoiners
  · rw [hrole] at hbranch
    cases hbranch
/-! ## Records -/

/-- Every task of the past is live or left the tree once, and the records that are kept are those of
tasks that left. -/
structure Roster (D : List (Departure P R W)) (s : Scheduler P R W) : Prop where
  filed : ∀ record ∈ s.settled, ∃ d ∈ D, d.record = record
  gone : ∀ d ∈ D, d.id.val < s.nextTask ∧ s.task? d.id = none
  once : (D.map Departure.id).Nodup
  known : ∀ id, s.issued id → s.isLive id ∨ ∃ d ∈ D, d.id = id
  positive : 1 ≤ s.nextTask ∧ ∀ id, s.isLive id → 1 ≤ id.val

theorem Roster.steady (hr : Roster D s) (hs : Steady A s s') (hsettled : s'.settled = s.settled) :
    Roster D s' := by
  refine ⟨fun record hm => hr.filed record (hsettled ▸ hm), fun d hd => ?_, hr.once,
    fun id hid => ?_, Nat.le_trans hr.positive.1 hs.next, fun id hl => ?_⟩
  · obtain ⟨hlt, hnone⟩ := hr.gone d hd
    refine ⟨Nat.lt_of_lt_of_le hlt hs.next, ?_⟩
    cases ht : s'.task? d.id with
    | none => rfl
    | some t => exact absurd (hs.came d.id t ht hnone).1 (Nat.not_le.2 hlt)
  · simp only [issued, Bool.and_eq_true, decide_eq_true_eq] at hid
    by_cases hlt : id.val < s.nextTask
    · have hissued : s.issued id := by simp [issued, hid.1, hlt]
      rcases hr.known id hissued with hl | hgone
      · exact Or.inl (hs.isLive hl)
      · exact Or.inr hgone
    · exact Or.inl (hs.numbers id.val (Nat.not_lt.1 hlt) hid.2)
  · obtain ⟨t', ht'⟩ := Option.isSome_iff_exists.1 hl
    cases ht : s.task? id with
    | none => exact Nat.le_trans hr.positive.1 (hs.came id t' ht' ht).1
    | some t => exact hr.positive.2 id (by simp [isLive_eq, ht])

theorem Roster.leave (hr : Roster D d.before) (hd : Leaving d) : Roster (D ++ [d]) (d.after h) := by
  have hlive : d.before.isLive d.id := by simp [isLive_eq, hd.found]
  have hnot : ∀ e ∈ D, e.id ≠ d.id := by
    intro e he heq
    have hnone := (hr.gone e he).2
    rw [heq, hd.found] at hnone
    cases hnone
  refine ⟨fun record hm => ?_, fun e he => ?_, ?_, fun id hid => ?_, ?_, fun id hl => ?_⟩
  · rw [settled_after] at hm
    rcases List.mem_cons.1 (List.mem_of_mem_take hm) with rfl | hm
    · exact ⟨d, by simp, rfl⟩
    · obtain ⟨e, he, heq⟩ := hr.filed record hm
      exact ⟨e, List.mem_append_left _ he, heq⟩
  · rw [nextTask_after, task?_after_eq_none]
    rcases List.mem_append.1 he with he | he
    · obtain ⟨hlt, hnone⟩ := hr.gone e he
      exact ⟨hlt, Or.inr hnone⟩
    · obtain rfl := List.mem_singleton.1 he
      exact ⟨hd.forest.fresh _ hlive, Or.inl rfl⟩
  · rw [List.map_append, List.nodup_append]
    refine ⟨hr.once, by simp, fun id hid id' hid' heq => ?_⟩
    obtain ⟨e, he, rfl⟩ := List.mem_map.1 hid
    obtain rfl : id' = d.id := by simpa using hid'
    exact hnot e he heq
  · rw [issued, nextTask_after] at hid
    by_cases heq : id = d.id
    · exact Or.inr ⟨d, by simp, heq.symm⟩
    · rcases hr.known id hid with hl | ⟨e, he, hid⟩
      · exact Or.inl (by rw [isLive_after]; simp [heq, hl])
      · exact Or.inr ⟨e, List.mem_append_left _ he, hid⟩
  · rw [nextTask_after]
    exact hr.positive.1
  · rw [isLive_after, Bool.and_eq_true] at hl
    exact hr.positive.2 id hl.2

theorem settled_startGroup (s : Scheduler P R W) (id : TaskId) (mode : GroupMode)
    (effects : List (Effect P W)) : (s.startGroup id mode effects).settled = s.settled := by
  unfold startGroup
  split
  · rfl
  · exact settled_addBranches id ⟨s.nextGroup⟩ mode 0 effects _

theorem Roster.empty (world : W) : Roster [] ({ world } : Scheduler P R W) := by
  refine ⟨by simp, by simp, by simp, fun id hid => ?_, Nat.le_refl _, fun id hl => by cases hl⟩
  obtain ⟨hpositive, hlt⟩ := Bool.and_eq_true_iff.1 hid
  exact absurd (of_decide_eq_true hlt) (Nat.not_lt.2 (of_decide_eq_true hpositive))

theorem Roster.pop (hr : Roster D s) : Roster D { s with queue := s.queue.tail } :=
  ⟨hr.filed, hr.gone, hr.once, hr.known, hr.positive⟩

theorem Roster.change (hr : Roster D s) (hs : Change A Q s s') : Roster D s' :=
  hr.steady hs.changed.toSteady hs.changed.settled

theorem Roster.startGroup (hr : Roster D s) (ht : Tidy s) {id : TaskId} (hl : s.isLive id)
    (mode : GroupMode) (effects : List (Effect P W)) : Roster D (s.startGroup id mode effects) :=
  hr.steady (A := ∅) (steady_startGroup ht hl mode effects) (settled_startGroup ..)

theorem Run.roster_along (run : Run h log s) : Roster (settlements h log) s ∧
    ∀ D d D', settlements h log = D ++ d :: D' → Roster D d.before ∧ Leaving d :=
  run.along Roster.empty Roster.pop Roster.change (fun hr ht hl _ => hr.startGroup ht hl _ _)
    Roster.leave

theorem Run.roster (run : Run h log s) : Roster (settlements h log) s := run.roster_along.1

theorem Run.leaving (run : Run h log s) (hd : d ∈ settlements h log) : Leaving d := by
  obtain ⟨D, D', hD⟩ := List.append_of_mem hd
  exact (run.roster_along.2 D d D' hD).2

end Scheduler

end CoopTasks
