import CoopTasks.Proofs.Callers

/-!
# Roles

The role of a task decides what becomes of its result, so it has to fit the place of the task in the
tree. Roots are the tasks without parents. What is forked belongs to a task that is no branch. A
branch belongs to the owner of its group, which waits for the group, or its group is gone and it is
being cancelled. A task that was called is waited for, or its caller is being cancelled.
-/

namespace CoopTasks.Scheduler

variable {P R W : Type} {s s' : Scheduler P R W} {h : Host P R W}
variable {id a : TaskId} {g : GroupId} {group : Group} {slot : Nat} {t : Task P R W}
variable {log : List (Scheduler P R W × Move P)}

/-! ## What tasks are spawned for -/

/-- What a new task is for: it is a root, it was forked for a task that is no branch, it belongs to
a group that its parent waits for, or its parent waits for itself. -/
inductive Engaged (s' : Scheduler P R W) (id : TaskId) (t : Task P R W) : Prop where
  | root : t.role = .root → t.parent = none → Engaged s' id t
  | forked {p : TaskId} : t.role = .forked → t.parent = some p →
      (s'.task? p).any Task.isBranch = false → Engaged s' id t
  | branch {a : TaskId} {g : GroupId} {slot : Nat} : t.role = .branch g slot → t.parent = some a →
      s'.wait? a = some (.group g) → Engaged s' id t
  | called {a : TaskId} : t.role = .called → t.parent = some a →
      s'.wait? a = some (.call id) → Engaged s' id t

theorem task?_spawn (s : Scheduler P R W) (h : Host P R W) (process : P) (args : List Value)
    (parent : Option TaskId) (role : Role) (id : TaskId) :
    (s.spawn h process args parent role).2.task? id =
      if id = ⟨s.nextTask⟩ then some {
        name := h.program.name process, parent, role
        process := some (h.program.spawn process args s.world).1 }
      else if parent = some id then
        (s.task? id).map fun t => { t with children := t.children ++ [⟨s.nextTask⟩] }
      else s.task? id :=
  (task?_addTask ..).trans (if_congr Iff.rfl rfl (task?_addChild ..))

/-- The task that has just been spawned keeps its place and its role. -/
theorem task_of_spawn (hf : Forest s) {process : P} {args : List Value} {parent : Option TaskId}
    {role : Role} (htree : SameTree (s.spawn h process args parent role).2 s')
    (ht : s'.task? id = some t) (hnew : s.nextTask ≤ id.val) :
    id = ⟨s.nextTask⟩ ∧ t.role = role ∧ t.parent = parent := by
  obtain ⟨u, hu, hstill⟩ := htree.symm.find ht
  have hnone : s.task? id = none := by
    by_contra hsome
    exact absurd (hf.fresh id (Option.ne_none_iff_isSome.1 hsome)) (Nat.not_lt.2 hnew)
  rw [task?_spawn] at hu
  split at hu
  · rename_i hid
    obtain rfl := Option.some.inj hu
    exact ⟨hid, (Task.role_of_still hstill).symm, (Task.parent_of_still hstill).symm⟩
  · split at hu <;> simp [hnone] at hu

/-- Every task is below one that has no parent. -/
theorem Forest.exists_top (hf : Forest s) (id : TaskId) :
    ∃ top, Below s top id ∧ s.parent? top = none := by
  cases hp : s.parent? id with
  | none => exact ⟨id, .self, hp⟩
  | some parent =>
    have holder := hf.older id parent hp
    obtain ⟨top, hbelow, htop⟩ := hf.exists_top parent
    exact ⟨top, .child hp hbelow, htop⟩
termination_by id.val

/-- What is forked belongs to a task that is no branch. -/
theorem Forest.forkOwner_not_branch (hf : Forest s) (hl : s.isLive a) :
    (s.task? (s.forkOwner a)).any Task.isBranch = false := by
  obtain ⟨top, hbelow, htop⟩ := hf.exists_top a
  have hnot : (s.task? top).any Task.isBranch = false := by
    cases ht : s.task? top with
    | none => rfl
    | some t =>
      rw [parent?_eq ht] at htop
      simp [Task.isBranch, htop]
  have hfound : ((s.lineage a).find? fun id => !(s.task? id).any Task.isBranch).isSome :=
    List.find?_isSome.2 ⟨top, (hf.mem_lineage hl top).2 hbelow, by simp [hnot]⟩
  obtain ⟨owner, howner⟩ := Option.isSome_iff_exists.1 hfound
  have howns : s.forkOwner a = owner := by simp [forkOwner, howner]
  simpa [howns] using List.find?_some howner

/-- A task that is no branch does not become one. -/
theorem Later.not_branch (hs : Later s s') (hid : id.val < s.nextTask)
    (hnot : (s.task? id).any Task.isBranch = false) :
    (s'.task? id).any Task.isBranch = false := by
  cases ht' : s'.task? id with
  | none => rfl
  | some t' =>
    obtain ⟨t, ht, honward⟩ := hs.onward id t' ht' hid
    simpa [ht, Task.isBranch, honward.role, honward.parent] using hnot

theorem wait?_callProcess (hl : s.isLive a) (h : Host P R W) (process : P) (args : List Value) :
    (s.callProcess h a process args).wait? a = some (.call ⟨s.nextTask⟩) := by
  let q := (s.spawn h process args (some a) .called).2
  have hlive : q.isLive a = true := (isLive_addTask ..).trans (Bool.or_eq_true .. ▸ Or.inr hl)
  obtain ⟨t, ht⟩ := Option.isSome_iff_exists.1 hlive
  have hwait : q.wait? a = some t.wait := congrArg (Option.map Task.wait) ht
  have hsuspend := wait?_suspend q a a (.call ⟨s.nextTask⟩)
  rw [if_pos rfl, hwait] at hsuspend
  exact hsuspend

/-- What an effect spawns is engaged by it. -/
theorem engaged_of_carryOut (htidy : Tidy s) (hl : s.isLive a)
    (hs : s.carryOut h a effect = .ok s') (ht : s'.task? id = some t)
    (hnew : s.nextTask ≤ id.val) : Engaged s' id t := by
  have hforest := htidy.forest
  rcases carryOut_cases hs with hquiet | ⟨process, args, rfl⟩ | ⟨process, args, rfl⟩ |
    ⟨mode, effects, rfl⟩
  · have hlive : s.isLive id := by
      rw [← hquiet.tree.isLive]
      simp [isLive_eq, ht]
    exact absurd (hforest.fresh id hlive) (Nat.not_lt.2 hnew)
  · obtain ⟨rfl, hrole, hparent⟩ := task_of_spawn hforest
      ((quiet_suspend _ a _).trans (quiet_enqueueFirst _ _ _)).tree ht hnew
    exact .called hrole hparent (wait?_callProcess hl h process args)
  · obtain ⟨rfl, hrole, hparent⟩ := task_of_spawn hforest
      ((quiet_enqueueLast _ _ _).trans (quiet_answer _ a _)).tree ht hnew
    have howner := hforest.fresh _ (isLive_forkOwner hforest hl)
    exact .forked hrole hparent ((lasting_fork s h a process args).later.not_branch howner
      (hforest.forkOwner_not_branch hl))
  · by_cases hne : effects = []
    · subst hne
      have hanswer : s.startGroup a mode [] = s.answer a (.list []) := rfl
      have hlive : s.isLive id := by
        rw [← (quiet_answer s a (.list [])).tree.isLive, ← hanswer, isLive_eq, ht]
        rfl
      exact absurd (hforest.fresh id hlive) (Nat.not_lt.2 hnew)
    · obtain ⟨branches, hstarted⟩ := started_startGroup htidy hl mode hne
      have hsteady : Steady ∅ s (s.startGroup a mode effects) :=
        steady_startGroup htidy hl mode effects
      have hnone : s.task? id = none := by
        by_contra hsome
        have hlive : s.isLive id := Option.ne_none_iff_isSome.1 hsome
        exact absurd (hforest.fresh id hlive) (Nat.not_lt.2 hnew)
      obtain ⟨slot, effect, -, -, hrole, hparent⟩ :=
        hstarted.newcomer_role (htidy.startGroup hl mode effects).forest hsteady ht hnone
      exact .branch hrole hparent hstarted.parked

theorem Engaged.of_tasks (he : Engaged s id t) (htasks : s'.tasks = s.tasks) :
    Engaged s' id t := by
  cases he with
  | root hrole hparent => exact .root hrole hparent
  | forked hrole hparent hnot => exact .forked hrole hparent (by rwa [task?_of_tasks htasks])
  | branch hrole hparent hw =>
    exact .branch hrole hparent (by rwa [wait?, task?_of_tasks htasks])
  | called hrole hparent hw =>
    exact .called hrole hparent (by rwa [wait?, task?_of_tasks htasks])

/-- What a move spawns is engaged by it. -/
theorem Run.engaged (run : Run h log s) (m : Move P) (ht : (s.move h m).task? id = some t)
    (hnew : s.nextTask ≤ id.val) : Engaged (s.move h m) id t := by
  have hidle : (s.move h m).nextTask ≠ s.nextTask := by
    intro hsame
    have hid := (run.move m).tidy.forest.fresh id (by simp [isLive_eq, ht])
    exact absurd (hsame ▸ hid) (Nat.not_lt.2 hnew)
  rcases run.spawning m hidle with ⟨process, args, rfl⟩ | ⟨rfl, a, effect, hturn⟩
  · obtain ⟨-, hrole, hparent⟩ := task_of_spawn run.tidy.forest
      (quiet_enqueueLast (s.spawn h process args none .root).2 ⟨s.nextTask⟩ (.value .unit)).tree
      ht hnew
    exact .root hrole hparent
  · obtain ⟨r, hhand, hnext, -, ⟨r', hok, hmove⟩ | ⟨hsame, -⟩⟩ := run.in_hand hturn
    · rw [hmove] at ht ⊢
      rw [task?_of_tasks (tasks_takeFault r')] at ht
      exact (engaged_of_carryOut hhand.tidy hhand.isLive hok ht (hnext ▸ hnew)).of_tasks
        (tasks_takeFault r')
    · exact absurd hsame hidle

/-! ## Roots and forks -/

/-- The tasks without parents are the roots. -/
theorem Run.root_iff (run : Run h log s) (ht : s.task? id = some t) :
    t.parent = none ↔ t.role = .root := by
  induction run generalizing t with
  | new hs =>
    obtain rfl := eq_of_new hs
    cases ht
  | @move log s run m ih =>
    by_cases hnew : s.nextTask ≤ id.val
    · cases run.engaged m ht hnew with
      | root hrole hparent => simp [hrole, hparent]
      | forked hrole hparent => simp [hrole, hparent]
      | branch hrole hparent => simp [hrole, hparent]
      | called hrole hparent => simp [hrole, hparent]
    · obtain ⟨u, hu, honward⟩ := (later_move s h m).onward id t ht (Nat.not_le.1 hnew)
      rw [honward.parent, honward.role]
      exact ih hu

/-- A task that acts for nobody else has no branch's role. -/
theorem Run.role_of_not_branch (run : Run h log s) (ht : s.task? id = some t)
    (hnot : (s.task? id).any Task.isBranch = false) : t.role.isBranch = false := by
  cases hparent : t.parent with
  | none => simp [(run.root_iff ht).1 hparent, Role.isBranch]
  | some parent => simpa [ht, Task.isBranch, hparent] using hnot

/-- What was forked is not a child of a branch. -/
theorem Run.forked_parent (run : Run h log s) (ht : s.task? id = some t)
    (hrole : t.role = .forked) :
    ∃ p, t.parent = some p ∧ (s.task? p).any Task.isBranch = false := by
  induction run generalizing t with
  | new hs =>
    obtain rfl := eq_of_new hs
    cases ht
  | @move log s run m ih =>
    by_cases hnew : s.nextTask ≤ id.val
    · cases run.engaged m ht hnew with
      | forked _ hparent hnot => exact ⟨_, hparent, hnot⟩
      | root hrole' | branch hrole' | called hrole' =>
        rw [hrole] at hrole'
        cases hrole'
    · obtain ⟨u, hu, honward⟩ := (later_move s h m).onward id t ht (Nat.not_le.1 hnew)
      obtain ⟨p, hparent, hnot⟩ := ih hu (honward.role.symm.trans hrole)
      have hp : s.parent? id = some p := by rw [parent?_eq hu, hparent]
      have hforest := run.tidy.forest
      refine ⟨p, honward.parent.trans hparent, ?_⟩
      exact (later_move s h m).not_branch (hforest.fresh p (hforest.isLive_parent hp)) hnot

/-- A task that forks goes on, and the new task belongs to the nearest one above it, itself first,
that is no branch. -/
theorem Run.fork_parent (run : Run h log s) {process : P} {args : List Value}
    (hturn : s.turn? h = some (a, .yield (.fork process args))) :
    ∃ p t u, (s.move h .step).task? ⟨s.nextTask⟩ = some t ∧ t.role = .forked ∧ t.parent = some p ∧
      ActsFor s p a ∧ s.task? p = some u ∧ u.role.isBranch = false := by
  obtain ⟨r, hr⟩ := yielded_of_turn hturn rfl
  have hmove := hr.move (r.fork h a process args) rfl
  have htree : SameTree (r.spawn h process args (some (r.forkOwner a)) .forked).2
      (s.move h .step) := by
    rw [hmove]
    exact (((quiet_enqueueLast _ _ _).trans (quiet_answer _ a _)).trans (quiet_takeFault _)).tree
  have hspawn := task?_spawn r h process args (some (r.forkOwner a)) .forked ⟨s.nextTask⟩
  rw [hr.next, if_pos rfl] at hspawn
  obtain ⟨t, ht, hstill⟩ := htree.find hspawn
  have hrole : t.role = .forked := Task.role_of_still hstill
  obtain ⟨p, hparent, hnot⟩ := (run.move .step).forked_parent ht hrole
  have hp : (s.move h .step).parent? ⟨s.nextTask⟩ = some p := by rw [parent?_eq ht, hparent]
  have hacts := run.parent?_of_yield hturn (Nat.le_refl _) hp
  obtain ⟨v, -, -, -, -, hv, -⟩ := turn_yield hturn
  have hforest := run.tidy.forest
  have hl := hforest.isLive_above (below_of_actsFor hacts) (by simp [isLive_eq, hv])
  -- the role of the parent is the one that it had before
  obtain ⟨u', hu'⟩ := Option.isSome_iff_exists.1 ((run.move .step).tidy.forest.isLive_parent hp)
  obtain ⟨u, hu, honward⟩ := (later_move s h .step).onward p u' hu' (hforest.fresh p hl)
  refine ⟨p, t, u, ht, hrole, hparent, hacts, hu, ?_⟩
  rw [← honward.role]
  exact (run.move .step).role_of_not_branch hu' hnot

/-! ## Branches and called tasks -/

/-- A live branch of a group that goes on stands in its slot, and its parent waits for the group. -/
theorem Run.branch_listed (run : Run h log s) (ht : s.task? id = some t)
    (hrole : t.role = .branch g slot) (hg : s.groups.find? g = some group) :
    group.branches[slot]? = some id ∧ t.parent = some group.owner ∧
      s.wait? group.owner = some (.group g) := by
  obtain ⟨hslot, -, hparent⟩ := (run.tally.counted g group hg).live id t slot ht hrole
  exact ⟨hslot, hparent, ((run.coherent.registered group.owner).group g).2 ⟨group, hg, rfl⟩⟩

/-- When a group is lost in a move, its branches are being cancelled after it: a branch has resolved
the group, or the owner was signalled with all below it. -/
theorem Run.branch_cancelled (run : Run h log s) (ht : s.task? id = some t)
    (hrole : t.role = .branch g slot) (hg : s.groups.find? g = some group)
    (m : Move P) (hgone : (s.move h m).groups.find? g = none) (hl : (s.move h m).isLive id) :
    (s.move h m).beingCancelled id = true := by
  obtain ⟨hslot, hparent, hw⟩ := run.branch_listed ht hrole hg
  have hforest := run.tidy.forest
  have hid := hforest.fresh id (by simp [isLive_eq, ht])
  have hp : s.parent? id = some group.owner := by rw [parent?_eq ht, hparent]
  rcases run.owner_waits_move hw m with hw' | ⟨d, hd, hresolved⟩ | ⟨hcalm, hcondemned⟩
  · obtain ⟨group', hg', -⟩ := (((run.move m).coherent.registered group.owner).group g).1 hw'
    rw [hgone] at hg'
    cases hg'
  · obtain ⟨input, hresolved⟩ := Option.isSome_iff_exists.1 hresolved
    obtain ⟨group', hg', hresolution⟩ := (run.move m).resolution (by simp [hd]) hresolved
    have hsame := (run.group_before hg [m] (by simpa [history] using hd) hg').2.2
    have hb : id ∈ group'.branches := hsame ▸ List.mem_of_getElem? hslot
    obtain ⟨D, D', hD⟩ := List.append_of_mem hd
    obtain ⟨hfirst, hleaving, hrest⟩ := (run.course m).split D' hD
    have hid' : id.val < (d.after h).nextTask := by
      rw [nextTask_after]
      exact Nat.lt_of_lt_of_le (by cases m <;> exact hid) hfirst.firm.next
    obtain ⟨t', ht'⟩ := Option.isSome_iff_exists.1 hl
    obtain ⟨u, hu, -⟩ := hrest.firm.stands id t' ht' hid'
    exact hrest.firm.beingCancelled hl hid' (hresolution.losers id hb (by simp [isLive_eq, hu]))
  · obtain ⟨t', ht'⟩ := Option.isSome_iff_exists.1 hl
    obtain ⟨u, hu, honward⟩ := (later_move s h m).onward id t' ht' hid
    obtain rfl := Option.some.inj (ht.symm.trans hu)
    have hp' : (s.move h m).parent? id = some group.owner := by
      rw [parent?_eq ht', honward.parent, hparent]
    obtain ⟨v, hv⟩ := Option.isSome_iff_exists.1 ((run.move m).tidy.forest.isLive_parent hp')
    refine (run.deeds m).signals_children (by cases m <;> exact hid) hp' ?_ ?_
    · rwa [beingCancelled_popped]
    · rw [beingCancelled_eq hv]
      exact hcondemned.cancelled v hv

/-- A live branch whose group is gone is being cancelled. -/
theorem Run.branch_unlisted (run : Run h log s) (ht : s.task? id = some t)
    (hrole : t.role = .branch g slot) (hgone : s.groups.find? g = none) : t.cancelling = true := by
  induction run generalizing t with
  | new hs =>
    obtain rfl := eq_of_new hs
    cases ht
  | @move log s run m ih =>
    by_cases hnew : s.nextTask ≤ id.val
    · cases run.engaged m ht hnew with
      | branch hrole' hparent hw =>
        rw [hrole] at hrole'
        cases hrole'
        obtain ⟨group, hg, -⟩ := (((run.move m).coherent.registered _).group g).1 hw
        rw [hgone] at hg
        cases hg
      | root hrole' | forked hrole' | called hrole' =>
        rw [hrole] at hrole'
        cases hrole'
    · have hid := Nat.not_le.1 hnew
      have hlater := later_move s h m
      obtain ⟨u, hu, honward⟩ := hlater.onward id t ht hid
      have hrole' := honward.role.symm.trans hrole
      cases hg : s.groups.find? g with
      | none => exact honward.cancelling (ih hu hrole' hg)
      | some group =>
        rw [← beingCancelled_eq ht]
        exact run.branch_cancelled hu hrole' hg m hgone (by simp [isLive_eq, ht])

/-- Who called a live task waits for it, or is being cancelled. -/
theorem Run.callers_wait (run : Run h log s) : CallersWait s := by
  induction run with
  | new hs =>
    obtain rfl := eq_of_new hs
    rintro child caller ⟨t, ht, -⟩
    cases ht
  | @move log s run m ih =>
    rintro child caller ⟨t, ht, hrole, hparent⟩
    have hp : (s.move h m).parent? child = some caller := by rw [parent?_eq ht, hparent]
    have hl := (run.move m).tidy.forest.isLive_parent hp
    by_cases hnew : s.nextTask ≤ child.val
    · cases run.engaged m ht hnew with
      | called _ hparent' hw =>
        rw [hparent] at hparent'
        cases hparent'
        exact .inl hw
      | root hrole' | forked hrole' | branch hrole' =>
        rw [hrole] at hrole'
        cases hrole'
    · have hid := Nat.not_le.1 hnew
      have hlater := later_move s h m
      obtain ⟨u, hu, honward⟩ := hlater.onward child t ht hid
      have hcalled : Called s child caller :=
        ⟨u, hu, honward.role.symm.trans hrole, honward.parent.symm.trans hparent⟩
      have hid' := Nat.lt_trans
        (run.tidy.forest.older child caller (hlater.parent?_eq hid hp)) hid
      rcases ih child caller hcalled with hw | hc
      · cases hcalm : (s.move h m).beingCancelled caller with
        | true => exact .inr rfl
        | false =>
          exact .inl ((run.heeds_move m).waits caller child hid' hid (fun hfree => hfree child hw)
            hw hl (by simp [isLive_eq, ht]) hcalm)
      · exact .inr (hlater.beingCancelled hid' hl hc)

/-! ## All roles -/

/-- The role of every live task fits its place in the tree, and what it is waited for with. -/
structure Fitting (h : Host P R W) (s : Scheduler P R W) : Prop where
  /-- The tasks without parents are the roots. -/
  root : ∀ id t, s.task? id = some t → (t.parent = none ↔ t.role = .root)
  /-- The parent of a forked task is no branch. -/
  forked : ∀ id t, s.task? id = some t → t.role = .forked →
    ∃ p u, t.parent = some p ∧ s.task? p = some u ∧ u.role.isBranch = false
  /-- What is forked next belongs to the nearest task that is no branch: to the one that forks, or,
  as long as this is a branch, to the one that its parent acts for. -/
  forks : ∀ a process args, s.turn? h = some (a, .yield (.fork process args)) →
    ∃ p t u, (s.move h .step).task? ⟨s.nextTask⟩ = some t ∧ t.role = .forked ∧ t.parent = some p ∧
      ActsFor s p a ∧ s.task? p = some u ∧ u.role.isBranch = false
  /-- A branch stands in its slot of the group, and the owner of the group waits. -/
  listed : ∀ id t g slot group, s.task? id = some t → t.role = .branch g slot →
    s.groups.find? g = some group → group.branches[slot]? = some id ∧
      t.parent = some group.owner ∧ s.wait? group.owner = some (.group g)
  /-- A branch whose group is gone is being cancelled. -/
  unlisted : ∀ id t g slot, s.task? id = some t → t.role = .branch g slot →
    s.groups.find? g = none → t.cancelling = true
  /-- A called task has a caller that waits for it, or is being cancelled. -/
  called : ∀ id t, s.task? id = some t → t.role = .called →
    ∃ p, t.parent = some p ∧ (s.wait? p ≠ some (.call id) → s.beingCancelled p = true)

/-- Roles fit the tree in every state of a run. -/
theorem Run.roles_fit (run : Run h log s) : Fitting h s := by
  refine ⟨fun _ _ => run.root_iff, fun id t ht hrole => ?_, fun _ _ _ => run.fork_parent,
    fun _ _ _ _ _ => run.branch_listed, fun _ _ _ _ => run.branch_unlisted,
    fun id t ht hrole => ?_⟩
  · obtain ⟨p, hparent, hnot⟩ := run.forked_parent ht hrole
    have hp : s.parent? id = some p := by rw [parent?_eq ht, hparent]
    obtain ⟨u, hu⟩ := Option.isSome_iff_exists.1 (run.tidy.forest.isLive_parent hp)
    exact ⟨p, u, hparent, hu, run.role_of_not_branch hu hnot⟩
  · cases hparent : t.parent with
    | none =>
      rw [(run.root_iff ht).1 hparent] at hrole
      cases hrole
    | some p => exact ⟨p, rfl, (run.callers_wait id p ⟨t, ht, hrole, hparent⟩).resolve_left⟩

/-! ## A fork from within two groups -/

/-- Scripts that nest groups. -/
inductive Chore where
  /-- Waits for a notification and, in a race of one, forks a helper. -/
  | keeper
  /-- Waits for a notification. -/
  | helper

def Chore.effects : Chore → List (Effect Chore Unit)
  | .keeper => [.all [.race [("inner", .fork .helper [])], .take .wildcard]]
  | .helper => [.take .wildcard]

def household : Host Chore Unit Unit where
  program :=
    ⟨fun _ => "chore", fun p => .script p.effects, fun state _ w => (.done .unit, state, w)⟩

/-- The branch of the inner group is about to fork. -/
def nested : Scheduler Chore Unit Unit :=
  moves { world := () } household [.enroll .keeper [], .step, .step]

theorem nested_run : Run household
    (history { world := () } household [.enroll .keeper [], .step, .step]) nested := by
  have hnew : Run household [] ({ world := () } : Scheduler Chore Unit Unit) := .new rfl
  exact hnew.moves [.enroll .keeper [], .step, .step]

/-- The helper is forked by a branch of a branch, and is a child of the keeper. -/
theorem roles_fit_nested : nested.turn? household = some (⟨4⟩, .yield (.fork .helper [])) ∧
    nested.parent? ⟨4⟩ = some ⟨2⟩ ∧ nested.parent? ⟨2⟩ = some ⟨1⟩ ∧
    (nested.move household .step).parent? ⟨5⟩ = some ⟨1⟩ ∧ Fitting household nested :=
  ⟨rfl, rfl, rfl, rfl, nested_run.roles_fit⟩

end CoopTasks.Scheduler
