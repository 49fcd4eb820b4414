import CoopTasks.Proofs.Rendering
import CoopTasks.Proofs.Roles
import CoopTasks.Proofs.Signals
import CoopTasks.Scheduler.Observe

/-!
# What a snapshot shows of a scheduler

The live tasks form a forest, so a snapshot that is taken of them has a tree, and the tree lacks
none of them. Going down from the roots meets every live task once, a task before what is below it
and siblings in the order of their numbers (`PreOrder`), and what is met is what is rendered.
-/

namespace CoopTasks.Scheduler

variable {P R W : Type} {s : Scheduler P R W} {h : Host P R W} {stamp : Stamp}
variable {id root parent child : TaskId} {ids order order' : List TaskId} {depth : Nat}
variable {v : TaskView} {vs : List TaskView} {log : List (Scheduler P R W × Move P)}

/-! ## Pre-order -/

/-- Going through tasks one after the other, each followed by what is below it. -/
inductive PreOrder (s : Scheduler P R W) : List TaskId → List TaskId → Prop where
  | nil : PreOrder s [] []
  | cons {id : TaskId} {ids inner others : List TaskId} :
    PreOrder s (s.children id) inner → PreOrder s ids others →
      PreOrder s (id :: ids) (id :: (inner ++ others))

theorem PreOrder.unique (ho : PreOrder s ids order) (ho' : PreOrder s ids order') :
    order = order' := by
  induction ho generalizing order' with
  | nil => cases ho'; rfl
  | cons _ _ ihinner ihothers =>
    cases ho' with
    | cons hinner hothers => rw [ihinner hinner, ihothers hothers]

theorem exists_preOrder_of_children
    (hids : ∀ id ∈ ids, ∃ inner, PreOrder s (s.children id) inner) :
    ∃ order, PreOrder s ids order := by
  induction ids with
  | nil => exact ⟨[], .nil⟩
  | cons id ids ih =>
    obtain ⟨inner, hinner⟩ := hids id List.mem_cons_self
    obtain ⟨others, hothers⟩ := ih fun id hid => hids id (List.mem_cons_of_mem _ hid)
    exact ⟨_, .cons hinner hothers⟩

/-- The way down ends: children are younger than their parents, and all are older than the next
task. -/
theorem Forest.exists_preOrder_children (hf : Forest s) (id : TaskId) :
    ∃ inner, PreOrder s (s.children id) inner := by
  refine exists_preOrder_of_children fun child hchild => ?_
  have hyounger := hf.lt_of_mem_children hchild
  have hfresh := hf.fresh child (hf.isLive_child hchild)
  exact hf.exists_preOrder_children child
termination_by s.nextTask - id.val

theorem Forest.exists_preOrder (hf : Forest s) (ids : List TaskId) :
    ∃ order, PreOrder s ids order :=
  exists_preOrder_of_children fun id _ => hf.exists_preOrder_children id

theorem PreOrder.mem_iff (ho : PreOrder s ids order) (hf : Forest s) :
    id ∈ order ↔ ∃ root ∈ ids, Below s root id := by
  induction ho with
  | nil => simp
  | cons _ _ ihinner ihothers =>
    rw [List.mem_cons, List.mem_append, ihinner, ihothers, List.exists_mem_cons_iff, hf.below_iff,
      or_assoc]

/-- None of the tasks is below another one. -/
def Apart (s : Scheduler P R W) (ids : List TaskId) : Prop :=
  ids.Pairwise fun a b => ¬Below s a b ∧ ¬Below s b a

theorem Forest.apart_children (hf : Forest s) (id : TaskId) : s.Apart (s.children id) := by
  have hnot : ∀ {a b : TaskId}, a ∈ s.children id → b ∈ s.children id → a ≠ b → ¬Below s a b := by
    intro a b ha hb hne hbelow
    have hl := hf.isLive_child hb
    exact hf.disjoint_children ha hb hne ((hf.mem_subtree a b).2 ⟨hl, hbelow⟩)
      ((hf.mem_subtree b b).2 ⟨hl, .self⟩)
  exact (hf.nodup_children id).imp_of_mem fun ha hb hne => ⟨hnot ha hb hne, hnot hb ha hne.symm⟩

theorem apart_of_roots (hroots : ∀ id ∈ ids, s.parent? id = none) (hnodup : ids.Nodup) :
    s.Apart ids :=
  hnodup.imp_of_mem fun ha hb hne => ⟨fun hbelow => hne ((below_of_root (hroots _ hb)).1 hbelow),
    fun hbelow => hne ((below_of_root (hroots _ ha)).1 hbelow).symm⟩

/-- No task is met twice. -/
theorem PreOrder.nodup (ho : PreOrder s ids order) (hf : Forest s) (hapart : s.Apart ids) :
    order.Nodup := by
  induction ho with
  | nil => exact List.nodup_nil
  | @cons id ids inner others hinner hothers ihinner ihothers =>
    obtain ⟨hfirst, hrest⟩ := List.pairwise_cons.1 hapart
    have hbelow : ∀ a ∈ inner, Below s id a := fun a ha =>
      (hf.below_iff id a).2 (.inr ((hinner.mem_iff hf).1 ha))
    have hself : id ∉ inner := by
      intro hm
      obtain ⟨child, hchild, hb⟩ := (hinner.mem_iff hf).1 hm
      exact absurd (hb.le hf) (Nat.not_le.2 (hf.lt_of_mem_children hchild))
    -- what is below this task is not below one of the others, with which it cannot be compared
    have hclear : ∀ a, Below s id a → a ∉ others := by
      intro a ha hm
      obtain ⟨root, hroot, hb⟩ := (hothers.mem_iff hf).1 hm
      obtain ⟨hnot, hnot'⟩ := hfirst root hroot
      exact (ha.comparable hb).elim hnot hnot'
    refine List.nodup_cons.2 ⟨?_, List.nodup_append'.2
      ⟨ihinner (hf.apart_children id), ihothers hrest, fun a ha => hclear a (hbelow a ha)⟩⟩
    exact List.not_mem_append hself (hclear id .self)

/-! ## Ancestors -/

/-- The ancestors of a task, its parent first. -/
def ancestors (s : Scheduler P R W) (id : TaskId) : List TaskId := (s.lineage id).tail

/-- The ancestors are listed in full once there are as many steps as older tasks. -/
theorem Forest.lineageWithin_eq (hf : Forest s) (fuel fuel' : Nat) (id : TaskId)
    (hid : id.val ≤ fuel) (hid' : id.val ≤ fuel') :
    s.lineageWithin fuel id = s.lineageWithin fuel' id := by
  induction fuel generalizing fuel' id with
  | zero =>
    have hnone : s.parent? id = none := by
      cases hp : s.parent? id with
      | none => rfl
      | some parent => have := hf.older id parent hp; omega
    cases fuel' <;> simp [lineageWithin, hnone]
  | succ fuel ih =>
    cases hp : s.parent? id with
    | none => cases fuel' <;> simp [lineageWithin, hp]
    | some parent =>
      have hlt := hf.older id parent hp
      obtain ⟨fuel', rfl⟩ : ∃ n, fuel' = n + 1 := ⟨fuel' - 1, by omega⟩
      simp only [lineageWithin, hp]
      rw [ih fuel' parent (by omega) (by omega)]

theorem ancestors_of_root (hp : s.parent? id = none) : s.ancestors id = [] := by
  unfold ancestors lineage
  cases s.nextTask <;> simp [lineageWithin, hp]

theorem lineage_eq (s : Scheduler P R W) (id : TaskId) : s.lineage id = id :: s.ancestors id := by
  unfold ancestors lineage
  cases s.nextTask with
  | zero => rfl
  | succ n => cases hp : s.parent? id <;> simp [lineageWithin, hp]

theorem Forest.ancestors_eq (hf : Forest s) (hp : s.parent? id = some parent) :
    s.ancestors id = parent :: s.ancestors parent := by
  have hlt := hf.older id parent hp
  have hfresh := hf.fresh id (isLive_of_parent hp)
  obtain ⟨n, hn⟩ : ∃ n, s.nextTask = n + 1 := ⟨s.nextTask - 1, by omega⟩
  rw [← lineage_eq, ancestors, lineage, lineage, hn]
  simp only [lineageWithin, hp, List.tail_cons]
  exact hf.lineageWithin_eq n (n + 1) parent (by omega) (by omega)

theorem Forest.length_ancestors_child (hf : Forest s) (hchild : child ∈ s.children id) :
    (s.ancestors child).length = (s.ancestors id).length + 1 := by
  rw [hf.ancestors_eq ((hf.listed child id).2 hchild), List.length_cons]

/-- The ancestors are the other tasks that the task is below, each listed once. -/
theorem Forest.mem_ancestors (hf : Forest s) (hl : s.isLive id) :
    (s.ancestors id).Nodup ∧
      ∀ a, a ∈ s.ancestors id ↔ s.isLive a ∧ a ≠ id ∧ Below s a id := by
  have hsorted : ∀ id, s.isLive id → (s.lineage id).Nodup := by
    intro id hl
    induction hn : id.val using Nat.strong_induction_on generalizing id with
    | _ n ih =>
      subst hn
      cases hp : s.parent? id with
      | none => rw [lineage_eq, ancestors_of_root hp]; exact List.nodup_singleton id
      | some parent =>
        have hlt := hf.older id parent hp
        have hlp := hf.isLive_parent hp
        rw [lineage_eq, hf.ancestors_eq hp, ← lineage_eq]
        refine List.nodup_cons.2 ⟨fun hm => ?_, ih parent.val hlt parent hlp rfl⟩
        exact absurd (((hf.mem_lineage hlp id).1 hm).le hf) (Nat.not_le.2 hlt)
  have hnodup := hsorted id hl
  rw [lineage_eq] at hnodup
  obtain ⟨hself, hnodup⟩ := List.nodup_cons.1 hnodup
  refine ⟨hnodup, fun a => ?_⟩
  have hmem := hf.mem_lineage hl a
  rw [lineage_eq, List.mem_cons] at hmem
  constructor
  · intro ha
    have hbelow := hmem.1 (.inr ha)
    exact ⟨hf.isLive_above hbelow hl, fun heq => hself (heq ▸ ha), hbelow⟩
  · rintro ⟨-, hne, hbelow⟩
    exact (hmem.2 hbelow).resolve_left hne

/-! ## Views -/

theorem task?_snapshot (s : Scheduler P R W) (stamp : Stamp) (id : TaskId) :
    (s.snapshot stamp).task? id = (s.task? id).map (s.viewTask stamp id) := by
  unfold snapshot Snapshot.task? task? Table.find?
  simp only [List.find?_map, Function.comp_def, viewTask]
  cases hfind : s.tasks.entries.find? fun entry => entry.1 = id with
  | none => rfl
  | some entry =>
    obtain rfl : entry.1 = id := by simpa using List.find?_some hfind
    rfl

theorem view_of_live (stamp : Stamp) (hl : s.isLive id) : ∃ t, s.task? id = some t ∧
    (s.snapshot stamp).task? id = some (s.viewTask stamp id t) := by
  rw [isLive_eq] at hl
  obtain ⟨t, ht⟩ := Option.isSome_iff_exists.1 hl
  exact ⟨t, ht, by rw [task?_snapshot, ht, Option.map_some]⟩

/-- The views of tasks, one after the other. -/
def views (s : Scheduler P R W) (stamp : Stamp) (ids : List TaskId) : List TaskView :=
  ids.filterMap (s.snapshot stamp).task?

theorem mem_tasks_snapshot (he : Enlisted s) : v ∈ (s.snapshot stamp).tasks ↔
    ∃ t, s.task? v.id = some t ∧ v = s.viewTask stamp v.id t := by
  constructor
  · intro hm
    obtain ⟨⟨id, t⟩, hentry, rfl⟩ := List.mem_map.1 hm
    exact ⟨t, Table.find?_of_mem he.nodup hentry, rfl⟩
  · rintro ⟨t, ht, hv⟩
    have hfound : (s.snapshot stamp).task? v.id = some v := by
      rw [task?_snapshot, ht, Option.map_some, ← hv]
    exact Snapshot.mem_tasks_of_task? hfound

theorem task?_of_mem_tasks (he : Enlisted s) (hv : v ∈ (s.snapshot stamp).tasks) :
    (s.snapshot stamp).task? v.id = some v := by
  obtain ⟨t, ht, hview⟩ := (mem_tasks_snapshot he).1 hv
  rw [task?_snapshot, ht, Option.map_some, ← hview]

theorem map_id_tasks (s : Scheduler P R W) (stamp : Stamp) :
    (s.snapshot stamp).tasks.map TaskView.id = s.tasks.keys :=
  List.map_map

theorem views_map_id (he : Enlisted s) (hvs : ∀ v ∈ vs, v ∈ (s.snapshot stamp).tasks) :
    s.views stamp (vs.map TaskView.id) = vs := by
  rw [views, List.filterMap_map]
  calc vs.filterMap ((s.snapshot stamp).task? ∘ TaskView.id)
      = vs.filterMap some :=
        List.filterMap_congr fun v hv => task?_of_mem_tasks he (hvs v hv)
    _ = vs := List.filterMap_some

theorem map_id_views (hids : ∀ id ∈ ids, s.isLive id) :
    (s.views stamp ids).map TaskView.id = ids := by
  rw [views, List.map_filterMap]
  calc ids.filterMap (fun id => ((s.snapshot stamp).task? id).map TaskView.id)
      = ids.filterMap some := List.filterMap_congr fun id hid => by
        obtain ⟨t, -, hview⟩ := view_of_live stamp (hids id hid)
        rw [hview]
        rfl
    _ = ids := List.filterMap_some

/-- The roots of a snapshot are the views of the tasks without parents. -/
theorem Forest.roots_snapshot (hf : Forest s) (he : Enlisted s) (stamp : Stamp) :
    (s.snapshot stamp).roots =
      (s.snapshot stamp).tasks.filter fun v => (s.parent? v.id).isNone := by
  refine List.filter_congr fun v hv => ?_
  obtain ⟨t, ht, hview⟩ := (mem_tasks_snapshot he).1 hv
  have hparent : v.parent = s.parent? v.id := by
    rw [parent?_eq ht, hview]
    rfl
  rw [hparent]
  cases hp : s.parent? v.id with
  | none => rfl
  | some parent =>
    obtain ⟨u, -, hu⟩ := view_of_live stamp (hf.isLive_parent hp)
    simp [hu]

theorem Forest.mem_roots_snapshot (hf : Forest s) (he : Enlisted s) :
    id ∈ (s.snapshot stamp).roots.map TaskView.id ↔ s.isLive id ∧ s.parent? id = none := by
  rw [hf.roots_snapshot he, List.mem_map]
  constructor
  · rintro ⟨v, hv, rfl⟩
    obtain ⟨hv, hp⟩ := List.mem_filter.1 hv
    obtain ⟨t, ht, -⟩ := (mem_tasks_snapshot he).1 hv
    exact ⟨by rw [isLive_eq, ht]; rfl, Option.isNone_iff_eq_none.1 hp⟩
  · rintro ⟨hl, hp⟩
    obtain ⟨t, -, hview⟩ := view_of_live stamp hl
    have hv := Snapshot.mem_tasks_of_task? hview
    exact ⟨s.viewTask stamp id t, List.mem_filter.2 ⟨hv, by simp [viewTask, hp]⟩, rfl⟩

/-- The roots of a snapshot are the tasks that the host started. -/
theorem Run.roots_snapshot (run : Run h log s) (stamp : Stamp) : (s.snapshot stamp).roots =
    (s.snapshot stamp).tasks.filter fun v => (s.task? v.id).any fun t => t.role = .root := by
  have he := run.enlisted
  rw [run.tidy.forest.roots_snapshot he stamp]
  refine List.filter_congr fun v hv => ?_
  obtain ⟨t, ht, -⟩ := (mem_tasks_snapshot he).1 hv
  rw [parent?_eq ht, ht, Option.any_some, Bool.eq_iff_iff, Option.isNone_iff_eq_none,
    decide_eq_true_iff]
  exact run.root_iff ht

/-- The views of all live tasks are the tasks of the snapshot. -/
theorem views_perm (he : Enlisted s) (hnodup : ids.Nodup) (hlive : ∀ id, id ∈ ids ↔ s.isLive id) :
    (s.views stamp ids).Perm (s.snapshot stamp).tasks := by
  have hkeys := map_id_tasks s stamp
  have hids : (s.views stamp ids).map TaskView.id = ids :=
    map_id_views fun id hid => (hlive id).1 hid
  have hviews : (s.views stamp ids).Nodup := .of_map TaskView.id (by rw [hids]; exact hnodup)
  have htasks : (s.snapshot stamp).tasks.Nodup :=
    .of_map TaskView.id (by rw [hkeys]; exact he.nodup)
  rw [List.perm_ext_iff_of_nodup hviews htasks]
  intro v
  constructor
  · intro hv
    obtain ⟨id, -, hview⟩ := List.mem_filterMap.1 hv
    exact Snapshot.mem_tasks_of_task? hview
  · intro hv
    have hl : s.isLive v.id := (mem_keys_iff s v.id).1 (hkeys ▸ List.mem_map_of_mem hv)
    exact List.mem_filterMap.2 ⟨v.id, (hlive v.id).2 hl, task?_of_mem_tasks he hv⟩

/-- The lines of a snapshot are those of the tasks in pre-order. -/
theorem PreOrder.renders (ho : PreOrder s ids order) (hf : Forest s)
    (hids : ∀ id ∈ ids, s.isLive id ∧ (s.ancestors id).length = depth) :
    (s.snapshot stamp).Renders depth (s.views stamp ids)
      ((s.views stamp order).map fun v => Snapshot.line (s.ancestors v.id).length v) := by
  induction ho generalizing depth with
  | nil => exact .nil
  | @cons id ids inner others _ _ ihinner ihothers =>
    obtain ⟨hl, hdepth⟩ := hids id List.mem_cons_self
    obtain ⟨t, -, hview⟩ := view_of_live stamp hl
    have hviews : ∀ rest,
        s.views stamp (id :: rest) = s.viewTask stamp id t :: s.views stamp rest :=
      fun rest => List.filterMap_cons_some hview
    have hinner := @ihinner (depth + 1) fun child hchild =>
      ⟨hf.isLive_child hchild, by rw [hf.length_ancestors_child hchild, hdepth]⟩
    have hothers := ihothers fun id hid => hids id (List.mem_cons_of_mem _ hid)
    have happend : s.views stamp (inner ++ others) = s.views stamp inner ++ s.views stamp others :=
      List.filterMap_append
    rw [hviews, hviews, happend, List.map_cons, List.map_append]
    subst hdepth
    exact .cons hinner hothers

/-! ## All that is live -/

/-- The snapshot shows the live tasks and its tree shows them again, in the order of `vs`. -/
structure Shown (s : Scheduler P R W) (stamp : Stamp) (vs : List TaskView) : Prop where
  /-- The tasks are the live ones, as they are. -/
  tasks : ∀ v, v ∈ (s.snapshot stamp).tasks ↔
    ∃ t, s.task? v.id = some t ∧ v = s.viewTask stamp v.id t
  sorted : (s.snapshot stamp).tasks.Pairwise fun v w => v.id.val < w.id.val
  /-- The roots are the tasks that the host started. -/
  roots : (s.snapshot stamp).roots =
    (s.snapshot stamp).tasks.filter fun v => (s.task? v.id).any fun t => t.role = .root
  /-- Every task has its place in the order, and only one. -/
  once : vs.Perm (s.snapshot stamp).tasks
  /-- The order is the pre-order, from the roots down. -/
  preOrder : ∀ order,
    PreOrder s ((s.snapshot stamp).roots.map TaskView.id) order ↔ order = vs.map TaskView.id
  siblings : ∀ id, (s.children id).Pairwise fun a b => a.val < b.val
  ancestors : ∀ id, s.isLive id → (s.ancestors id).Nodup ∧
    ∀ a, a ∈ s.ancestors id ↔ s.isLive a ∧ a ≠ id ∧ Below s a id
  /-- The tree has a line for each task, indented by two spaces for each of its ancestors, and no
  line stands there twice. -/
  text : ∃ lines : List String,
    (s.snapshot stamp).tree? = some (String.join (lines.map (· ++ "\n"))) ∧ lines.Nodup ∧
      List.Forall₂ (fun v line => Snapshot.Describes (s.ancestors v.id).length v line) vs lines

theorem isLive_of_below (hl : s.isLive root) (hb : Below s root id) : s.isLive id := by
  cases hb with
  | self => exact hl
  | child hp => exact isLive_of_parent hp

/-- From the roots down every live task is met, and nothing else. -/
theorem Forest.mem_preOrder (hf : Forest s)
    (hroots : ∀ root, root ∈ ids ↔ s.isLive root ∧ s.parent? root = none)
    (ho : PreOrder s ids order) : id ∈ order ↔ s.isLive id := by
  rw [ho.mem_iff hf]
  constructor
  · rintro ⟨root, hroot, hb⟩
    exact isLive_of_below ((hroots root).1 hroot).1 hb
  · intro hl
    obtain ⟨top, hb, htop⟩ := hf.exists_top id
    exact ⟨top, (hroots top).2 ⟨hf.isLive_above hb hl, htop⟩, hb⟩

/-- The roots are met once, and nobody is below two of them. -/
theorem Forest.nodup_preOrder (hf : Forest s) (he : Enlisted s)
    (ho : PreOrder s ((s.snapshot stamp).roots.map TaskView.id) order) : order.Nodup := by
  have hkeys : ((s.snapshot stamp).tasks.map TaskView.id).Nodup :=
    map_id_tasks s stamp ▸ he.nodup
  exact ho.nodup hf (apart_of_roots (fun id hid => ((hf.mem_roots_snapshot he).1 hid).2)
    (hkeys.sublist (List.filter_sublist.map TaskView.id)))

/-- In every state of a run the snapshot shows every live task, and its tree shows each of them
once. -/
theorem Run.shown_in_full (run : Run h log s) (stamp : Stamp) : ∃ vs, Shown s stamp vs := by
  have hf := run.tidy.forest
  have he := run.enlisted
  obtain ⟨order, ho⟩ := hf.exists_preOrder ((s.snapshot stamp).roots.map TaskView.id)
  have hroots : ∀ id, id ∈ (s.snapshot stamp).roots.map TaskView.id ↔
      s.isLive id ∧ s.parent? id = none := fun _ => hf.mem_roots_snapshot he
  have hrootViews : s.views stamp ((s.snapshot stamp).roots.map TaskView.id) =
      (s.snapshot stamp).roots := views_map_id he fun _ => Snapshot.mem_tasks_of_roots
  have hlive : ∀ id, id ∈ order ↔ s.isLive id := fun _ => hf.mem_preOrder hroots ho
  have hids : (s.views stamp order).map TaskView.id = order :=
    map_id_views fun id hid => (hlive id).1 hid
  refine ⟨s.views stamp order, fun _ => mem_tasks_snapshot he, ?sorted, run.roots_snapshot stamp,
    views_perm he (hf.nodup_preOrder he ho) hlive, ?preOrder, hf.sorted,
    fun _ => hf.mem_ancestors, ?text⟩
  case sorted =>
    rw [← List.pairwise_map (f := TaskView.id) (R := fun a b => a.val < b.val), map_id_tasks]
    exact he.sorted
  case preOrder =>
    rw [hids]
    exact fun order' => ⟨fun ho' => ho'.unique ho, fun heq => heq ▸ ho⟩
  case text =>
    have htop : ∀ id ∈ (s.snapshot stamp).roots.map TaskView.id,
        s.isLive id ∧ (s.ancestors id).length = 0 := by
      intro id hid
      obtain ⟨hl, hp⟩ := (hroots id).1 hid
      exact ⟨hl, by rw [ancestors_of_root hp]; rfl⟩
    have hrenders : (s.snapshot stamp).Renders 0
        (s.views stamp ((s.snapshot stamp).roots.map TaskView.id)) _ := ho.renders hf htop
    rw [hrootViews] at hrenders
    have hdescribes : ∀ v, Snapshot.Describes (s.ancestors v.id).length v
        (Snapshot.line (s.ancestors v.id).length v) := fun v => Snapshot.describes_line _ v
    refine ⟨_, Snapshot.tree?_eq_some.2 ⟨_, hrenders, rfl⟩, ?_, ?_⟩
    · -- lines of different tasks are different
      have hnodup := hf.nodup_preOrder he ho
      rw [← hids] at hnodup
      refine List.pairwise_map.2 ((List.pairwise_map.1 hnodup).imp fun {v w} hne heq => hne ?_)
      exact ((hdescribes v).unique (heq ▸ hdescribes w)).2
    · exact List.forall₂_map_right_iff.2 (List.forall₂_same.2 fun v _ => hdescribes v)

/-- A stamp for what is shown. -/
def midnight : Stamp := ⟨⟨0⟩, ⟨0⟩, ⟨0, 0⟩, fun _ => ⟨0, 0⟩⟩

/-- The inner branch of the keeper comes before its own branch, and the other branch after both. -/
theorem shown_in_full_nested :
    (∃ vs, Shown nested midnight vs ∧ vs.map TaskView.id = [⟨1⟩, ⟨2⟩, ⟨4⟩, ⟨3⟩]) ∧
    (nested.snapshot midnight).tree? = some
      ("task-1 chore [Waiting: group 1]\n" ++ "  task-2 ALL[0] [Waiting: group 2]\n" ++
        "    task-4 RACE[inner] [Running]\n" ++ "  task-3 ALL[1] [Running]\n") := by
  obtain ⟨vs, hshown⟩ := nested_run.shown_in_full midnight
  have hleaf : ∀ id, nested.children id = [] → PreOrder nested [id] ([id] ++ []) := by
    intro id hnone
    refine .cons ?_ .nil
    rw [hnone]
    exact .nil
  have hbranches : PreOrder nested [⟨2⟩, ⟨3⟩] ([⟨2⟩, ⟨4⟩] ++ [⟨3⟩]) :=
    .cons (hleaf ⟨4⟩ rfl) (hleaf ⟨3⟩ rfl)
  have ho : PreOrder nested [⟨1⟩] ([⟨1⟩, ⟨2⟩, ⟨4⟩, ⟨3⟩] ++ []) := .cons hbranches .nil
  exact ⟨⟨vs, hshown, ((hshown.preOrder _).1 ho).symm⟩, by decide⟩

end CoopTasks.Scheduler
