import CoopTasks.Proofs.Execution

/-!
# The forest of tasks

The live tasks form a forest: what a task says of its parent and what the parent says of its
children agree, and children are younger than their parents. In such a forest the ways up and down
are walked to their ends. A task whose process has ended stays only as long as it has children, so a
task settles after all that were ever below it.
-/

namespace CoopTasks.Scheduler

variable {P R W : Type} {s s' : Scheduler P R W} {h : Host P R W}

structure Forest (s : Scheduler P R W) : Prop where
  fresh : ∀ id, s.isLive id → id.val < s.nextTask
  older : ∀ id parent, s.parent? id = some parent → parent.val < id.val
  listed : ∀ id parent, s.parent? id = some parent ↔ id ∈ s.children parent
  sorted : ∀ id, (s.children id).Pairwise fun a b => a.val < b.val

/-- No task but the given one is live with nothing left to do. -/
def OnlyDone (s : Scheduler P R W) (except : Option TaskId) : Prop :=
  ∀ id t, s.task? id = some t → t.isDone → some id = except

/-- A task is below itself and below whatever its parent is below. -/
inductive Below (s : Scheduler P R W) (root : TaskId) : TaskId → Prop where
  | self : Below s root root
  | child {id parent : TaskId} : s.parent? id = some parent → Below s root parent → Below s root id

theorem isLive_of_parent {id parent : TaskId} (hp : s.parent? id = some parent) : s.isLive id := by
  rw [isLive_eq]
  unfold parent? at hp
  cases ht : s.task? id with
  | none => simp [ht] at hp
  | some t => rfl

theorem isLive_of_mem_children {id child : TaskId} (hc : child ∈ s.children id) : s.isLive id := by
  rw [isLive_eq]
  unfold children at hc
  cases ht : s.task? id with
  | none => simp [ht] at hc
  | some t => rfl

theorem below_of_root {root id : TaskId} (hp : s.parent? id = none) :
    Below s root id ↔ root = id := by
  constructor
  · rintro (_ | ⟨hp', _⟩)
    · rfl
    · rw [hp] at hp'; cases hp'
  · rintro rfl
    exact .self

namespace Forest

theorem isLive_parent (hf : Forest s) {id parent : TaskId} (hp : s.parent? id = some parent) :
    s.isLive parent :=
  isLive_of_mem_children ((hf.listed id parent).1 hp)

theorem isLive_child (hf : Forest s) {id child : TaskId} (hc : child ∈ s.children id) :
    s.isLive child :=
  isLive_of_parent ((hf.listed child id).2 hc)

theorem lt_of_mem_children (hf : Forest s) {id child : TaskId} (hc : child ∈ s.children id) :
    id.val < child.val :=
  hf.older child id ((hf.listed child id).2 hc)

theorem nodup_children (hf : Forest s) (id : TaskId) : (s.children id).Nodup :=
  (hf.sorted id).imp fun hlt he => by simp [he] at hlt

/-- The ancestors of a live task are live. -/
theorem isLive_above (hf : Forest s) {root id : TaskId} (hb : Below s root id)
    (hl : s.isLive id) : s.isLive root := by
  induction hb with
  | self => exact hl
  | child hp _ ih => exact ih (hf.isLive_parent hp)

/-- What is below a task is the task itself, or below one of its children. -/
theorem below_iff (hf : Forest s) (root id : TaskId) :
    Below s root id ↔ id = root ∨ ∃ child ∈ s.children root, Below s child id := by
  constructor
  · intro hb
    induction hb with
    | self => exact Or.inl rfl
    | @child id parent hp _ ih =>
      right
      rcases ih with rfl | ⟨child, hc, hb⟩
      · exact ⟨id, (hf.listed id parent).1 hp, .self⟩
      · exact ⟨child, hc, .child hp hb⟩
  · rintro (rfl | ⟨child, hc, hb⟩)
    · exact .self
    · induction hb with
      | self => exact .child ((hf.listed child root).2 hc) .self
      | child hp _ ih => exact .child hp ih

/-! ## Walks -/

theorem mem_lineageWithin (hf : Forest s) (target : TaskId) (fuel : Nat) (id : TaskId)
    (hid : id.val ≤ fuel) : target ∈ s.lineageWithin fuel id ↔ Below s target id := by
  induction fuel generalizing id with
  | zero =>
    have hp : s.parent? id = none := by
      cases hp : s.parent? id with
      | none => rfl
      | some parent => have := hf.older id parent hp; omega
    simp [lineageWithin, below_of_root hp]
  | succ fuel ih =>
    unfold lineageWithin
    cases hp : s.parent? id with
    | none => simp [below_of_root hp]
    | some parent =>
      have hlt := hf.older id parent hp
      simp only [List.mem_cons, ih parent (by omega)]
      constructor
      · rintro (rfl | hb)
        · exact .self
        · exact .child hp hb
      · rintro (_ | ⟨hp', hb⟩)
        · exact Or.inl rfl
        · rw [hp] at hp'
          cases hp'
          exact Or.inr hb

theorem mem_lineage (hf : Forest s) {id : TaskId} (hl : s.isLive id) (target : TaskId) :
    target ∈ s.lineage id ↔ Below s target id :=
  hf.mem_lineageWithin target s.nextTask id (Nat.le_of_lt (hf.fresh id hl))

theorem mem_subtreeWithin (hf : Forest s) (id : TaskId) (fuel : Nat) (root : TaskId)
    (hroot : s.nextTask ≤ root.val + fuel) :
    id ∈ s.subtreeWithin fuel root ↔ s.isLive id ∧ Below s root id := by
  induction fuel generalizing root with
  | zero =>
    simp only [subtreeWithin, List.not_mem_nil, false_iff, not_and]
    intro hl hb
    have := hf.fresh root (hf.isLive_above hb hl)
    omega
  | succ fuel ih =>
    unfold subtreeWithin
    by_cases hr : s.isLive root
    · have hbelow : ∀ child ∈ s.children root,
          (id ∈ s.subtreeWithin fuel child ↔ s.isLive id ∧ Below s child id) := by
        intro child hc
        have := hf.lt_of_mem_children hc
        exact ih child (by omega)
      simp only [hr, if_true, List.mem_append, List.mem_flatMap, List.mem_singleton]
      rw [hf.below_iff]
      constructor
      · rintro (⟨child, hc, hm⟩ | rfl)
        · obtain ⟨hl, hb⟩ := (hbelow child hc).1 hm
          exact ⟨hl, Or.inr ⟨child, hc, hb⟩⟩
        · exact ⟨hr, Or.inl rfl⟩
      · rintro ⟨hl, rfl | ⟨child, hc, hb⟩⟩
        · exact Or.inr rfl
        · exact Or.inl ⟨child, hc, (hbelow child hc).2 ⟨hl, hb⟩⟩
    · have hnone : ¬(s.isLive id ∧ Below s root id) := fun hb => hr (hf.isLive_above hb.2 hb.1)
      simp [hr, hnone]

theorem mem_subtree (hf : Forest s) (root id : TaskId) :
    id ∈ s.subtree root ↔ s.isLive id ∧ Below s root id :=
  hf.mem_subtreeWithin id s.nextTask root (Nat.le_add_left _ _)

theorem isLive_of_mem_subtree (hf : Forest s) {root id : TaskId} (hm : id ∈ s.subtree root) :
    s.isLive id :=
  ((hf.mem_subtree root id).1 hm).1

/-- With a task the tree has its children. -/
theorem child_mem_subtree (hf : Forest s) {root id child : TaskId} (hm : id ∈ s.subtree root)
    (hparent : s.parent? child = some id) : child ∈ s.subtree root :=
  (hf.mem_subtree root child).2
    ⟨isLive_of_parent hparent, .child hparent ((hf.mem_subtree root id).1 hm).2⟩

end Forest

/-! ## What keeps the forest -/

/-- The forest is of the same shape: processes may have gone on or ended. -/
structure SameShape (s s' : Scheduler P R W) : Prop where
  live : ∀ id, s'.isLive id = s.isLive id
  parent : ∀ id, s'.parent? id = s.parent? id
  children : ∀ id, s'.children id = s.children id
  next : s'.nextTask = s.nextTask

theorem SameShape.trans {s'' : Scheduler P R W} (h : SameShape s s') (h' : SameShape s' s'') :
    SameShape s s'' :=
  ⟨fun id => (h'.live id).trans (h.live id), fun id => (h'.parent id).trans (h.parent id),
    fun id => (h'.children id).trans (h.children id), h'.next.trans h.next⟩

theorem SameTree.shape (h : SameTree s s') : SameShape s s' := by
  refine ⟨h.isLive, fun id => ?_, fun id => ?_, h.next⟩
  · have hs := congrArg (fun t => t.bind Task.parent) (h.still id)
    simpa [parent?, Option.bind_map, Function.comp_def] using hs
  · have hs := congrArg (fun t => t.elim [] Task.children) (h.still id)
    simpa [children, Function.comp_def] using hs

theorem sameShape_updateTask (s : Scheduler P R W) (id : TaskId) (f : Task P R W → Task P R W)
    (hparent : ∀ t, (f t).parent = t.parent) (hchildren : ∀ t, (f t).children = t.children) :
    SameShape s (s.updateTask id f) := by
  refine ⟨fun j => ?_, fun j => ?_, fun j => ?_, rfl⟩
  · by_cases hj : j = id <;> simp [isLive_eq, hj]
  · by_cases hj : j = id
    · cases ht : s.task? id <;> simp [parent?, hj, ht, hparent]
    · simp [parent?, hj]
  · by_cases hj : j = id
    · cases ht : s.task? id <;> simp [children, hj, ht, hchildren]
    · simp [children, hj]

theorem Forest.congr (hf : Forest s) (h : SameShape s s') : Forest s' := by
  refine ⟨?_, ?_, ?_, ?_⟩
  · intro id hl
    rw [h.next]
    exact hf.fresh id (by rwa [← h.live])
  · intro id parent hp
    exact hf.older id parent (by rwa [← h.parent])
  · intro id parent
    rw [h.parent, h.children]
    exact hf.listed id parent
  · intro id
    rw [h.children]
    exact hf.sorted id

theorem OnlyDone.congr {except : Option TaskId} (ho : OnlyDone s except) (h : SameTree s s') :
    OnlyDone s' except := by
  intro id t' ht' hd
  obtain ⟨t, ht, hs⟩ := h.symm.find ht'
  refine ho id t ht ?_
  rw [Task.isDone_iff] at hd ⊢
  rwa [Task.process_of_still hs, Task.children_of_still hs]

theorem task?_addTask (s : Scheduler P R W) (name : String) (parent : Option TaskId) (role : Role)
    (process : Process P R W) (j : TaskId) :
    (s.addTask name parent role process).2.task? j =
      if j = ⟨s.nextTask⟩ then some { name, parent, role, process := some process }
      else (s.addChild ⟨s.nextTask⟩ parent).task? j := by
  simp [addTask, task?]

theorem task?_addChild (s : Scheduler P R W) (child : TaskId) (parent : Option TaskId)
    (j : TaskId) :
    (s.addChild child parent).task? j =
      if parent = some j then (s.task? j).map fun t => { t with children := t.children ++ [child] }
      else s.task? j := by
  cases parent with
  | none => rfl
  | some parent => simp [addChild, eq_comm]

theorem task?_remove (s : Scheduler P R W) (id : TaskId) (parent : Option TaskId) (j : TaskId) :
    (s.remove id parent).task? j =
      if j = id then none
      else if parent = some j then
        (s.task? j).map fun t => { t with children := t.children.filter (· ≠ id) }
      else s.task? j := by
  by_cases hj : j = id
  · cases parent <;> simp [remove, dropChild, task?, updateTask, hj]
  · cases parent with
    | none => simp [remove, dropChild, task?, hj]
    | some parent => simp [remove, dropChild, task?, updateTask, hj, eq_comm]

theorem isLive_addTask (s : Scheduler P R W) (name : String) (parent : Option TaskId) (role : Role)
    (process : Process P R W) (j : TaskId) :
    (s.addTask name parent role process).2.isLive j = (decide (j = ⟨s.nextTask⟩) || s.isLive j) := by
  rw [isLive_eq, isLive_eq, task?_addTask, task?_addChild]
  by_cases hj : j = ⟨s.nextTask⟩
  · simp [hj]
  · by_cases hp : parent = some j <;> simp [hj, hp]

theorem parent?_addTask (s : Scheduler P R W) (name : String) (parent : Option TaskId) (role : Role)
    (process : Process P R W) (j : TaskId) :
    (s.addTask name parent role process).2.parent? j =
      if j = ⟨s.nextTask⟩ then parent else s.parent? j := by
  unfold parent?
  rw [task?_addTask, task?_addChild]
  by_cases hj : j = ⟨s.nextTask⟩
  · simp [hj]
  · by_cases hp : parent = some j
    · rw [if_neg hj, if_pos hp, if_neg hj, Option.bind_map]
      rfl
    · simp [hj, hp]

theorem children_addTask (s : Scheduler P R W) (name : String) (parent : Option TaskId)
    (role : Role) (process : Process P R W) (j : TaskId) :
    (s.addTask name parent role process).2.children j =
      if j = ⟨s.nextTask⟩ then []
      else if parent = some j ∧ s.isLive j then s.children j ++ [⟨s.nextTask⟩]
      else s.children j := by
  unfold children
  rw [task?_addTask, task?_addChild, isLive_eq]
  by_cases hj : j = ⟨s.nextTask⟩
  · simp [hj]
  · by_cases hp : parent = some j
    · cases s.task? j <;> simp [hj, hp]
    · simp [hj, hp]

/-- The forest grows by a leaf. -/
theorem Forest.addTask (hf : Forest s) (name : String) {parent : Option TaskId} (role : Role)
    (process : Process P R W) (hparent : ∀ p, parent = some p → s.isLive p) :
    Forest (s.addTask name parent role process).2 := by
  have hnew : ∀ j, s.isLive j → j ≠ ⟨s.nextTask⟩ := by
    rintro j hl rfl
    simpa using hf.fresh _ hl
  refine ⟨?_, ?_, ?_, ?_⟩
  · intro id hl
    rw [isLive_addTask] at hl
    rw [nextTask_addTask]
    by_cases hid : id = ⟨s.nextTask⟩
    · simp [hid]
    · have := hf.fresh id (by simpa [hid] using hl)
      omega
  · intro id p hp
    rw [parent?_addTask] at hp
    by_cases hid : id = ⟨s.nextTask⟩
    · rw [if_pos hid] at hp
      simpa [hid] using hf.fresh p (hparent p hp)
    · rw [if_neg hid] at hp
      exact hf.older id p hp
  · intro id p
    rw [parent?_addTask, children_addTask]
    by_cases hp : p = ⟨s.nextTask⟩
    · have hdead : s.parent? id ≠ some p := fun h => hnew p (hf.isLive_parent h) hp
      have hleaf : parent ≠ some p := fun h => hnew p (hparent p h) hp
      by_cases hid : id = ⟨s.nextTask⟩ <;> simp [hp] at hdead hleaf ⊢ <;> simp [hid, hdead, hleaf]
    · rw [if_neg hp]
      by_cases hid : id = ⟨s.nextTask⟩
      · have hnone : id ∉ s.children p := fun hc => hnew id (hf.isLive_child hc) hid
        by_cases hpp : parent = some p
        · simp [hid, hpp, hparent p hpp]
        · simpa [hid, hpp] using hid ▸ hnone
      · by_cases hpp : parent = some p
        · simp [hid, hpp, hparent p hpp, hf.listed]
        · simp [hid, hpp, hf.listed]
  · intro id
    rw [children_addTask]
    by_cases hid : id = ⟨s.nextTask⟩
    · simp [hid]
    · by_cases hp : parent = some id ∧ s.isLive id
      · simp only [hid, hp, and_self, if_true, if_false, List.pairwise_append]
        refine ⟨hf.sorted id, List.pairwise_singleton _ _, ?_⟩
        rintro a ha b hb
        obtain rfl := List.mem_singleton.1 hb
        exact hf.fresh a (hf.isLive_child ha)
      · simpa [hid, hp] using hf.sorted id

theorem OnlyDone.addTask (ho : OnlyDone s none) (name : String) (parent : Option TaskId)
    (role : Role) (process : Process P R W) :
    OnlyDone (s.addTask name parent role process).2 none := by
  intro id t ht hd
  rw [task?_addTask, task?_addChild] at ht
  by_cases hid : id = ⟨s.nextTask⟩
  · rw [if_pos hid] at ht
    cases ht
    simp [Task.isDone_iff] at hd
  · rw [if_neg hid] at ht
    by_cases hp : parent = some id
    · rw [if_pos hp] at ht
      obtain ⟨u, -, rfl⟩ := Option.map_eq_some_iff.1 ht
      simp [Task.isDone_iff] at hd
    · rw [if_neg hp] at ht
      exact ho id t ht hd

/-! ## Settlement -/

theorem isLive_remove (s : Scheduler P R W) (id : TaskId) (parent : Option TaskId) (j : TaskId) :
    (s.remove id parent).isLive j = (decide (j ≠ id) && s.isLive j) := by
  rw [isLive_eq, isLive_eq, task?_remove]
  by_cases hj : j = id
  · simp [hj]
  · by_cases hp : parent = some j <;> simp [hj, hp]

theorem parent?_remove (s : Scheduler P R W) (id : TaskId) (parent : Option TaskId) (j : TaskId) :
    (s.remove id parent).parent? j = if j = id then none else s.parent? j := by
  unfold parent?
  rw [task?_remove]
  by_cases hj : j = id
  · simp [hj]
  · by_cases hp : parent = some j
    · rw [if_neg hj, if_pos hp, if_neg hj, Option.bind_map]
      rfl
    · simp [hj, hp]

theorem children_remove (s : Scheduler P R W) (id : TaskId) (parent : Option TaskId)
    (j : TaskId) :
    (s.remove id parent).children j =
      if j = id then [] else if parent = some j then (s.children j).filter (· ≠ id)
      else s.children j := by
  unfold children
  rw [task?_remove]
  by_cases hj : j = id
  · simp [hj]
  · by_cases hp : parent = some j
    · cases s.task? j <;> simp [hj, hp]
    · simp [hj, hp]

/-- The forest loses a leaf. -/
theorem Forest.remove (hf : Forest s) {id : TaskId} (hleaf : s.children id = []) :
    Forest (s.remove id (s.parent? id)) := by
  have hnext : (s.remove id (s.parent? id)).nextTask = s.nextTask := by
    cases s.parent? id <;> rfl
  refine ⟨?_, ?_, ?_, ?_⟩
  · intro j hl
    rw [isLive_remove] at hl
    rw [hnext]
    exact hf.fresh j (by simpa using (Bool.and_eq_true_iff.1 hl).2)
  · intro j p hp
    rw [parent?_remove] at hp
    split at hp
    · cases hp
    · exact hf.older j p hp
  · intro j p
    rw [parent?_remove, children_remove]
    by_cases hj : j = id
    · have hnone : s.parent? id ≠ some p → id ∉ s.children p := fun hp hc =>
        hp ((hf.listed id p).2 hc)
      by_cases hp : s.parent? id = some p
      · by_cases hpi : p = id <;> simp [hj, hp, hpi]
      · by_cases hpi : p = id <;> simp [hj, hp, hpi, hnone]
    · by_cases hpi : p = id
      · have : s.parent? j ≠ some id := fun hp => by
          have hc := (hf.listed j id).1 hp
          simp [hleaf] at hc
        simp [hj, hpi, this]
      · by_cases hp : s.parent? id = some p
        · simp [hj, hpi, hp, hf.listed]
        · simp [hj, hpi, hp, hf.listed]
  · intro j
    rw [children_remove]
    split
    · exact List.Pairwise.nil
    · split
      · exact (hf.sorted j).filter _
      · exact hf.sorted j

/-- After a task has left the tree only its parent may have nothing left to do. -/
theorem OnlyDone.remove {id : TaskId} (ho : OnlyDone s (some id)) (parent : Option TaskId) :
    OnlyDone (s.remove id parent) parent := by
  intro j t ht hd
  rw [task?_remove] at ht
  split at ht
  · cases ht
  · rename_i hj
    split at ht
    · rename_i hp
      exact hp.symm
    · exact absurd (Option.some.inj (ho j t ht hd)) hj

theorem size_remove_lt {id : TaskId} (hl : s.isLive id) (parent : Option TaskId) :
    (s.remove id parent).tasks.size < s.tasks.size := by
  have hlt := s.tasks.size_erase_lt hl
  cases parent with
  | none => exact hlt
  | some parent =>
    unfold Scheduler.remove dropChild updateTask
    rw [Table.size_modify]
    exact hlt

theorem SameTree.size (h : SameTree s s') : s'.tasks.size = s.tasks.size := by
  simpa [Table.keys, Table.size] using congrArg List.length h.keys

theorem parent?_eq {id : TaskId} {t : Task P R W} (ht : s.task? id = some t) :
    s.parent? id = t.parent := by
  simp [parent?, ht]

theorem children_eq {id : TaskId} {t : Task P R W} (ht : s.task? id = some t) :
    s.children id = t.children := by
  simp [children, ht]

theorem OnlyDone.of_busy {id : TaskId} (ho : OnlyDone s (some id))
    (hid : ∀ t, s.task? id = some t → ¬t.isDone) : OnlyDone s none := by
  intro j t ht hd
  obtain rfl := Option.some.inj (ho j t ht hd)
  exact absurd hd (hid t ht)

theorem Forest.retire (hf : Forest s) (h : Host P R W) {id : TaskId} {t : Task P R W}
    (ht : s.task? id = some t) (hd : t.isDone) : Forest (s.retire h id t) := by
  have hleaf : s.children id = [] := by rw [children_eq ht, (Task.isDone_iff.1 hd).2]
  have hremoved := hf.remove hleaf
  rw [parent?_eq ht] at hremoved
  exact hremoved.congr (sameTree_retire s h id t).shape

/-- The settlement of a task climbs as far as there is something to settle. -/
theorem forest_settleWithin (h : Host P R W) (fuel : Nat) (id : TaskId) (s : Scheduler P R W)
    (hf : Forest s) (ho : OnlyDone s (some id)) (hfuel : s.tasks.size ≤ fuel) :
    Forest (settleWithin h fuel id s) ∧ OnlyDone (settleWithin h fuel id s) none := by
  induction fuel generalizing id s with
  | zero =>
    refine ⟨hf, ho.of_busy fun t ht => ?_⟩
    have hsize := s.tasks.size_erase_lt (k := id) (by simpa [task?] using congrArg Option.isSome ht)
    omega
  | succ fuel ih =>
    unfold settleWithin
    cases ht : s.task? id with
    | none => exact ⟨hf, ho.of_busy fun t ht' => by rw [ht] at ht'; cases ht'⟩
    | some t =>
      by_cases hd : t.isDone
      · have hquiet := sameTree_retire s h id t
        have hf' := hf.retire h ht hd
        have ho' := (ho.remove t.parent).congr hquiet
        have hsize : (s.retire h id t).tasks.size ≤ fuel := by
          have hlive : s.isLive id := by simp [isLive_eq, ht]
          have := size_remove_lt hlive t.parent
          rw [hquiet.size]
          omega
        cases hparent : t.parent with
        | none => simpa [hd, hparent] using And.intro hf' (hparent ▸ ho')
        | some parent => simpa [hd, hparent] using ih parent _ hf' (hparent ▸ ho') hsize
      · have hbusy : OnlyDone s none :=
          ho.of_busy fun u hu => by rw [ht] at hu; cases hu; exact hd
        simpa [hd] using And.intro hf hbusy

/-- The end of a process and what it takes down leave the tasks where they are. -/
theorem sameShape_endProcess (s : Scheduler P R W) (id : TaskId) (outcome : Outcome)
    (roots : List TaskId) :
    SameShape s (((s.raiseOf id outcome).endProcess id outcome).cancelSubtrees roots) := by
  have hend := sameShape_updateTask (s.raiseOf id outcome) id (fun t => { t with
    process := none, wait := .children, status := .waiting, outcome := some outcome })
    (fun _ => rfl) (fun _ => rfl)
  exact ((quiet_raiseOf s id outcome).tree.shape.trans hend).trans
    (quiet_cancelSubtrees _ roots).tree.shape

theorem forest_finish (hf : Forest s) (ho : OnlyDone s none) (h : Host P R W) (id : TaskId)
    (outcome : Outcome) :
    Forest (s.finish h id outcome) ∧ OnlyDone (s.finish h id outcome) none := by
  have hraise := (quiet_raiseOf s id outcome).tree
  unfold finish
  cases s.task? id with
  | none => exact ⟨hf.congr hraise.shape, ho.congr hraise⟩
  | some t =>
    have hend : OnlyDone ((s.raiseOf id outcome).endProcess id outcome) (some id) := by
      intro j u hu hd
      by_cases hj : j = id
      · rw [hj]
      · exact absurd (ho.congr hraise j u (by simpa [endProcess, hj] using hu) hd) (by simp)
    have hcancel := (quiet_cancelSubtrees ((s.raiseOf id outcome).endProcess id outcome)
      (t.takenDown outcome)).tree
    exact forest_settleWithin h _ id _ (hf.congr (sameShape_endProcess s id outcome _))
      (hend.congr hcancel) (Nat.le_refl _)

/-! ## Effects and steps -/

/-- A forest in which no task stays without a reason. -/
structure Tidy (s : Scheduler P R W) : Prop where
  forest : Forest s
  busy : OnlyDone s none

theorem Tidy.congr (ht : Tidy s) (h : SameTree s s') : Tidy s' :=
  ⟨ht.forest.congr h.shape, ht.busy.congr h⟩

theorem Tidy.addTask (ht : Tidy s) (name : String) {parent : Option TaskId} (role : Role)
    (process : Process P R W) (hparent : ∀ p, parent = some p → s.isLive p) :
    Tidy (s.addTask name parent role process).2 :=
  ⟨ht.forest.addTask name role process hparent, ht.busy.addTask name parent role process⟩

theorem Tidy.finish (ht : Tidy s) (h : Host P R W) (id : TaskId) (outcome : Outcome) :
    Tidy (s.finish h id outcome) := by
  obtain ⟨hforest, hbusy⟩ := forest_finish ht.forest ht.busy h id outcome
  exact ⟨hforest, hbusy⟩

theorem Tidy.spawn (ht : Tidy s) (h : Host P R W) (process : P) (args : List Value)
    (parent : Option TaskId) (role : Role) (hparent : ∀ p, parent = some p → s.isLive p) :
    Tidy (s.spawn h process args parent role).2 := by
  unfold Scheduler.spawn
  obtain ⟨started, world⟩ := h.program.spawn process args s.world
  have hworld : SameTree s { s with world } := .of_tasks rfl rfl
  exact (ht.congr hworld).addTask _ role started fun p hp => (hworld.isLive p).trans (hparent p hp)

theorem isLive_forkOwner (hf : Forest s) {id : TaskId} (hl : s.isLive id) :
    s.isLive (s.forkOwner id) := by
  unfold forkOwner
  cases hfind : (s.lineage id).find? fun ancestor => !(s.task? ancestor).any Task.isBranch with
  | none => simpa using hl
  | some owner =>
    have hmem := List.mem_of_find?_eq_some hfind
    exact hf.isLive_above ((hf.mem_lineage hl owner).1 hmem) hl

theorem Tidy.addBranches (owner : TaskId) (group : GroupId) (mode : GroupMode) (slot : Nat)
    (effects : List (Effect P W)) (s : Scheduler P R W) (ht : Tidy s) (hl : s.isLive owner) :
    Tidy (s.addBranches owner group mode slot effects).2 := by
  induction effects generalizing slot s with
  | nil => exact ht
  | cons effect rest ih =>
    refine ih (slot + 1) _ (ht.addTask _ _ _ ?_) ?_
    · rintro p hp
      obtain rfl := Option.some.inj hp
      exact hl
    · exact (isLive_addTask ..).trans (by simp [hl])

theorem Tidy.startGroup (ht : Tidy s) {id : TaskId} (hl : s.isLive id) (mode : GroupMode)
    (effects : List (Effect P W)) : Tidy (s.startGroup id mode effects) := by
  unfold Scheduler.startGroup
  split
  · exact ht.congr (quiet_answer s id _).tree
  · have hnext : SameTree s { s with nextGroup := s.nextGroup + 1 } := .of_tasks rfl rfl
    have hbranches := Tidy.addBranches id ⟨s.nextGroup⟩ mode 0 effects _ (ht.congr hnext) hl
    refine (hbranches.congr (quiet_suspend _ id (.group ⟨s.nextGroup⟩)).tree).congr ?_
    exact .of_tasks rfl rfl

theorem Tidy.carryOut (ht : Tidy s) {id : TaskId} (hl : s.isLive id) {effect : Effect P W}
    (hs : s.carryOut h id effect = .ok s') : Tidy s' := by
  rcases carryOut_cases hs with hq | ⟨process, args, rfl⟩ | ⟨process, args, rfl⟩ |
    ⟨mode, effects, rfl⟩
  · exact ht.congr hq.tree
  · have hspawn := ht.spawn h process args (some id) .called (by simpa using hl)
    exact hspawn.congr ((quiet_suspend _ id _).trans (quiet_enqueueFirst _ _ _)).tree
  · have hspawn := ht.spawn h process args (some (s.forkOwner id)) .forked
      (by simpa using isLive_forkOwner ht.forest hl)
    exact hspawn.congr ((quiet_enqueueLast _ _ _).trans (quiet_answer _ id _)).tree
  · exact ht.startGroup hl mode effects

theorem Tidy.dispatch (ht : Tidy s) {id : TaskId} (hl : s.isLive id) (effect : Effect P W) :
    Tidy (s.dispatch h id effect) := by
  have hnote := (quiet_note s h id effect).tree
  rcases dispatch_cases s h id effect with
    ⟨s', -, hs, heq⟩ | ⟨violation, ⟨-, heq⟩ | ⟨-, heq⟩⟩ <;> rw [heq]
  · exact (ht.congr hnote).carryOut (by rwa [hnote.isLive]) hs
  · exact ht.finish h id _
  · exact (ht.congr hnote).finish h id _

theorem sameShape_storeProcess (s : Scheduler P R W) (id : TaskId) (process : Process P R W)
    (world : W) : SameShape s ({ s with world }.storeProcess id process) := by
  have hworld : SameTree s { s with world } := .of_tasks rfl rfl
  exact hworld.shape.trans (sameShape_updateTask { s with world } id _ (fun _ => rfl) fun _ => rfl)

theorem Tidy.storeProcess (ht : Tidy s) (id : TaskId) (process : Process P R W) (world : W) :
    Tidy ({ s with world }.storeProcess id process) := by
  refine ⟨ht.forest.congr (sameShape_storeProcess s id process world), ?_⟩
  intro j u hu hd
  by_cases hj : j = id
  · obtain ⟨t, -, rfl⟩ : ∃ t, task? { s with world } j = some t ∧ _ = u := by
      simpa [Scheduler.storeProcess, hj] using hu
    simp [Task.isDone_iff] at hd
  · have hu' : task? { s with world } j = some u := by simpa [Scheduler.storeProcess, hj] using hu
    exact ht.busy j u hu' hd

theorem Tidy.step (ht : Tidy s) (h : Host P R W) (id : TaskId) (input : Input) :
    Tidy (s.step h id input) := by
  rcases step_cases s h id input with heq | ⟨t, process, world, hid, -, hcase⟩
  · rwa [heq]
  · have hstore := ht.storeProcess id process world
    rcases hcase with ⟨effect, heq⟩ | ⟨outcome, heq⟩ <;> rw [heq]
    · exact hstore.dispatch (isLive_storeProcess hid process world) effect
    · exact hstore.finish h id outcome

theorem Tidy.move (ht : Tidy s) (h : Host P R W) (m : Move P) : Tidy (s.move h m) := by
  cases m with
  | step =>
    cases hq : s.queue with
    | nil => rwa [move_step_nil h hq]
    | cons entry rest =>
      obtain ⟨id, input⟩ := entry
      rw [move_step_cons h hq]
      have hpop : SameTree s { s with queue := rest } := .of_tasks rfl rfl
      exact ((ht.congr hpop).step h id input).congr (quiet_takeFault _).tree
  | enroll process args =>
    have hspawn := ht.spawn h process args none .root (by simp)
    exact hspawn.congr (quiet_enqueueLast _ _ _).tree
  | announce n => exact ht.congr (quiet_announce s h n).tree
  | deliver c => exact ht.congr (quiet_applyCompletion s c).tree
  | receive =>
    simp only [Scheduler.move]
    split
    · exact ht
    · exact ht.congr (quiet_receive s _ _).tree
  | cancel id => exact ht.congr (quiet_cancelSubtree s id).tree
  | _ => exact ht.congr (.of_tasks rfl rfl)

theorem Run.tidy {log : List (Scheduler P R W × Move P)} (run : Run h log s) : Tidy s := by
  refine run.invariant (fun world => ?_) fun s m ht => ht.move h m
  have hnone : ∀ id, task? ({ world } : Scheduler P R W) id = none := fun _ => rfl
  refine ⟨⟨fun id hl => ?_, fun id parent hp => ?_, fun id parent => ?_, fun id => ?_⟩, ?_⟩
  · simp [isLive_eq, hnone] at hl
  · simp [parent?, hnone] at hp
  · simp [parent?, children, hnone]
  · simp [children, hnone]
  · intro id t ht
    simp [hnone] at ht

end CoopTasks.Scheduler
