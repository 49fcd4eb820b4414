import CoopTasks.Proofs.Precedence
import CoopTasks.Proofs.Propagation

/-!
# Where new tasks come from

A task is a child of the one whose turn it was when it was spawned, or of the task that this one
acts for: branches of a group fork on behalf of its owner. So once a process has ended and all below
it has been signalled, its task gets no more children: the branches that might fork for it do not
yield any more.
-/

namespace CoopTasks.Scheduler

variable {P R W : Type} {s s' o : Scheduler P R W} {h : Host P R W} {id owner a j p : TaskId}
variable {log : List (Scheduler P R W × Move P)}

/-- A task acts for itself, and a branch of a group for those that its parent acts for. -/
inductive ActsFor (s : Scheduler P R W) (owner : TaskId) : TaskId → Prop where
  | self : ActsFor s owner owner
  | branch {b parent : TaskId} {t : Task P R W} : s.task? b = some t → t.role.isBranch = true →
      t.parent = some parent → ActsFor s owner parent → ActsFor s owner b

theorem below_of_actsFor (ha : ActsFor s owner a) : Below s owner a := by
  induction ha with
  | self => exact .self
  | branch ht _ hparent _ ih => exact .child (by rw [parent?_eq ht, hparent]) ih

/-- A task that is not new acted for the same tasks before. -/
theorem ActsFor.earlier (ha : ActsFor s' owner a) (hf' : Forest s') (hlater : Later s s')
    (hid : a.val < s.nextTask) : ActsFor s owner a := by
  induction ha with
  | self => exact .self
  | @branch b parent t' ht' hrole hparent _ ih =>
    obtain ⟨t, ht, honward⟩ := hlater.onward b t' ht' hid
    have holder := hf'.older b parent (by rw [parent?_eq ht', hparent])
    have hacts := ih (Nat.lt_trans holder hid)
    exact .branch ht (honward.role ▸ hrole) (honward.parent ▸ hparent) hacts

theorem ActsFor.trans (ha : ActsFor s owner p) (ha' : ActsFor s p a) : ActsFor s owner a := by
  induction ha' with
  | self => exact ha
  | branch ht hrole hparent _ ih => exact .branch ht hrole hparent ih

/-- A task acts for the one that its forks belong to. -/
theorem actsFor_forkOwner (s : Scheduler P R W) (a : TaskId) : ActsFor s (s.forkOwner a) a := by
  have hwalk : ∀ fuel a owner, (s.lineageWithin fuel a).find?
      (fun ancestor => !(s.task? ancestor).any Task.isBranch) = some owner → ActsFor s owner a := by
    intro fuel
    induction fuel with
    | zero =>
      intro a owner hfind
      obtain rfl : owner = a := by simpa [lineageWithin] using List.mem_of_find?_eq_some hfind
      exact .self
    | succ fuel ih =>
      intro a owner hfind
      unfold lineageWithin at hfind
      cases hp : s.parent? a with
      | none =>
        simp only [hp] at hfind
        obtain rfl : owner = a := by simpa using List.mem_of_find?_eq_some hfind
        exact .self
      | some parent =>
        simp only [hp, List.find?_cons] at hfind
        split at hfind
        · obtain rfl := Option.some.inj hfind
          exact .self
        · rename_i hbranch
          obtain ⟨t, ht, hparent⟩ := Option.bind_eq_some_iff.1 hp
          have hrole : t.role.isBranch = true ∧ t.parent.isSome = true := by
            simpa [ht, Task.isBranch] using hbranch
          exact .branch ht hrole.1 hparent (ih parent owner hfind)
  unfold forkOwner
  cases hfind : (s.lineage a).find? fun ancestor => !(s.task? ancestor).any Task.isBranch with
  | none => exact .self
  | some owner => exact hwalk _ a owner hfind

/-! ## Effects that spawn -/

theorem Forest.not_new (hf : Forest s) (hnew : s.nextTask ≤ j.val) : s.parent? j ≠ some p :=
  fun hp => Nat.not_lt.2 hnew (hf.fresh j (isLive_of_parent hp))

theorem parent?_spawn (s : Scheduler P R W) (h : Host P R W) (process : P) (args : List Value)
    (parent : Option TaskId) (role : Role) (j : TaskId) :
    (s.spawn h process args parent role).2.parent? j =
      if j = ⟨s.nextTask⟩ then parent else s.parent? j :=
  parent?_addTask ..

/-- A task that an effect spawns is the child of one that its task acts for. -/
theorem parent?_of_carryOut (htidy : Tidy s) (hl : s.isLive id) {effect : Effect P W}
    (hs : s.carryOut h id effect = .ok s') (hnew : s.nextTask ≤ j.val)
    (hp : s'.parent? j = some p) : ActsFor s p id := by
  have hspawn : ∀ {process args parent role}, SameTree (s.spawn h process args parent role).2 s' →
      parent = some p := by
    intro process args parent role htree
    rw [htree.shape.parent, parent?_spawn] at hp
    split at hp
    · exact hp
    · exact absurd hp (htidy.forest.not_new hnew)
  rcases carryOut_cases hs with hquiet | ⟨process, args, rfl⟩ | ⟨process, args, rfl⟩ |
    ⟨mode, effects, rfl⟩
  · rw [hquiet.tree.shape.parent] at hp
    exact absurd hp (htidy.forest.not_new hnew)
  · obtain rfl : id = p := Option.some.inj
      (hspawn ((quiet_suspend _ id _).trans (quiet_enqueueFirst _ _ _)).tree)
    exact .self
  · obtain rfl : s.forkOwner id = p := Option.some.inj
      (hspawn ((quiet_enqueueLast _ _ _).trans (quiet_answer _ id _)).tree)
    exact actsFor_forkOwner s id
  · by_cases hne : effects = []
    · subst hne
      have hanswer : s.startGroup id mode [] = s.answer id (.list []) := rfl
      rw [hanswer, (quiet_answer s id _).tree.shape.parent] at hp
      exact absurd hp (htidy.forest.not_new hnew)
    · obtain ⟨branches, hstarted⟩ := started_startGroup htidy hl mode hne
      have hforest := (htidy.startGroup hl mode effects).forest
      obtain ⟨slot, effect, heffect, rfl⟩ :=
        hstarted.newcomer hforest (isLive_of_parent hp) hnew
      obtain ⟨-, t, ht, hparent, -⟩ := hstarted.poised slot effect heffect
      rw [parent?_eq ht, hparent] at hp
      obtain rfl := Option.some.inj hp
      exact .self

/-! ## Moves that spawn -/

/-- A task that is spawned while an effect is dispatched is the child of one that its task acts for.
-/
theorem parent?_of_dispatch (htidy : Tidy s) (hl : s.isLive id) {effect : Effect P W}
    (hnew : s.nextTask ≤ j.val) (hp : (s.dispatch h id effect).parent? j = some p) :
    ActsFor s p id := by
  have hnote := quiet_note s h id effect
  have htidy' := htidy.congr hnote.tree
  have hforest := (htidy.dispatch (h := h) hl effect).forest
  have hidle : (s.dispatch h id effect).nextTask ≠ s.nextTask :=
    fun heq => hforest.not_new (heq ▸ hnew) hp
  rcases dispatch_cases s h id effect with
    ⟨s', -, hs, heq⟩ | ⟨violation, ⟨-, heq⟩ | ⟨-, heq⟩⟩
  · rw [heq] at hp
    have hacts := parent?_of_carryOut htidy' (by rwa [hnote.tree.isLive]) hs
      (by rwa [hnote.tree.next]) hp
    exact hacts.earlier htidy'.forest hnote.later (htidy.forest.fresh id hl)
  · exact absurd (heq ▸ nextTask_finish s h id _) hidle
  · exact absurd (heq ▸ (nextTask_finish _ h id _).trans hnote.tree.next) hidle

theorem Run.nextTask_of_new (run : Run h log s) (m : Move P) (hnew : s.nextTask ≤ j.val)
    (hp : (s.move h m).parent? j = some p) : (s.move h m).nextTask ≠ s.nextTask :=
  fun heq => (run.move m).tidy.forest.not_new (heq ▸ hnew) hp

/-- A move that spawns adds a root, or is the turn of a task that yields. -/
theorem Run.spawning (run : Run h log s) (m : Move P)
    (hidle : (s.move h m).nextTask ≠ s.nextTask) : (∃ process args, m = .enroll process args) ∨
      m = .step ∧ ∃ a effect, s.turn? h = some (a, .yield effect) := by
  cases m with
  | step =>
    refine .inr ⟨rfl, ?_⟩
    cases hq : s.queue with
    | nil => exact absurd (by rw [move_step_nil h hq]) hidle
    | cons entry rest =>
      obtain ⟨a, input⟩ := entry
      obtain ⟨t, ht, hprocess⟩ := run.find_of_queued (by rw [hq]; exact List.mem_cons_self)
      obtain ⟨process, hprocess⟩ := Option.isSome_iff_exists.1 hprocess
      have ht' : task? { s with queue := rest } a = some t := ht
      obtain ⟨process', world, hcase⟩ := step_of_process ht' hprocess h input
      rcases hcase with ⟨effect, hstep, -⟩ | ⟨answer, outcome, hstep, -, heq⟩
      · have hyield : process.step h.program.resume input s.world = _ := hstep
        exact ⟨a, effect, by simp [turn?, hq, ht, hprocess, hyield]⟩
      · refine absurd ?_ hidle
        rw [move_step_cons h hq, heq, (quiet_takeFault _).tree.next, nextTask_finish]
        rfl
  | enroll process args => exact .inl ⟨process, args, rfl⟩
  | announce n => exact absurd (quiet_announce s h n).tree.next hidle
  | deliver c => exact absurd (quiet_applyCompletion s c).tree.next hidle
  | receive =>
    refine absurd ?_ hidle
    simp only [Scheduler.move]
    split
    · rfl
    · exact (quiet_receive s _ _).tree.next
  | cancel id => exact absurd (quiet_cancelSubtree s id).tree.next hidle
  | _ => exact absurd rfl hidle

/-- A task that is spawned in a step is the child of one that the task whose turn it is acts for. -/
theorem Run.parent?_of_yield (run : Run h log s) {effect : Effect P W}
    (hturn : s.turn? h = some (a, .yield effect)) (hnew : s.nextTask ≤ j.val)
    (hp : (s.move h .step).parent? j = some p) : ActsFor s p a := by
  obtain ⟨t, process, input, rest, -, ht, hprocess, -, hmove⟩ := turn_yield hturn
  have ht' : task? { s with queue := rest } a = some t := ht
  have htidy : Tidy ({ s with queue := rest } : Scheduler P R W) :=
    run.tidy.congr (.of_tasks rfl rfl)
  have hpop : Later s { s with queue := rest } := .of_tasks rfl rfl
  have hstore := hpop.trans (later_storeProcess ht' (by simp [hprocess])
    (process.step h.program.resume input s.world).2.1
    (process.step h.program.resume input s.world).2.2)
  have htidy' := htidy.storeProcess a (process.step h.program.resume input s.world).2.1
    (process.step h.program.resume input s.world).2.2
  have hl := isLive_storeProcess ht' (process.step h.program.resume input s.world).2.1
    (process.step h.program.resume input s.world).2.2
  rw [hmove, (quiet_takeFault _).tree.shape.parent] at hp
  have hacts := parent?_of_dispatch htidy' hl hnew hp
  exact hacts.earlier htidy'.forest hstore (run.tidy.forest.fresh a (by simp [isLive_eq, ht]))

/-- A task that is spawned in a move is a root, or the child of one that the task whose turn it is
acts for. -/
theorem Run.parent?_of_move (run : Run h log s) (m : Move P) (hnew : s.nextTask ≤ j.val)
    (hp : (s.move h m).parent? j = some p) :
    m = .step ∧ ∃ a effect, s.turn? h = some (a, .yield effect) ∧ ActsFor s p a := by
  rcases run.spawning m (run.nextTask_of_new m hnew hp) with
    ⟨process, args, rfl⟩ | ⟨rfl, a, effect, hturn⟩
  · have hparent : (s.move h (.enroll process args)).parent? j =
        (s.spawn h process args none .root).2.parent? j := rfl
    rw [hparent, parent?_spawn] at hp
    split at hp
    · cases hp
    · exact absurd hp (run.tidy.forest.not_new hnew)
  · exact ⟨rfl, a, effect, hturn, run.parent?_of_yield hturn hnew hp⟩

/-! ## Tasks that get no more children -/

/-- All that is below a task is being cancelled. -/
def TornDown (s : Scheduler P R W) (id : TaskId) : Prop :=
  ∀ j, s.isLive j → Below s id j → j ≠ id → s.beingCancelled j = true

/-- The children of a task, and of the branches that act for it, have old numbers. -/
def Fixed (s : Scheduler P R W) (id : TaskId) (n : Nat) : Prop :=
  ∀ j p, s.parent? j = some p → ActsFor s id p → j.val < n

/-- The children of a task whose process has ended, and of the branches that act for it, are those
that it had when all below it was signalled. -/
theorem Run.fixed_move (run : Run h log s) (hfirm : Firm o s) (htorn : TornDown o id)
    (hended : ∀ t, s.task? id = some t → t.process = none) (hfixed : Fixed s id o.nextTask)
    (m : Move P) : Fixed (s.move h m) id o.nextTask := by
  intro j p hp hacts
  have hforest := run.tidy.forest
  have hforest' := (run.move m).tidy.forest
  have hlater := later_move s h m
  by_cases hold : j.val < s.nextTask
  · obtain ⟨t', ht', hparent'⟩ := Option.bind_eq_some_iff.1 hp
    obtain ⟨t, ht, honward⟩ := hlater.onward j t' ht' hold
    have hp' : s.parent? j = some p := by rw [parent?_eq ht, ← honward.parent, hparent']
    have holder := Nat.lt_trans (hforest'.older j p hp) hold
    exact hfixed j p hp' (hacts.earlier hforest' hlater holder)
  · obtain ⟨-, a, effect, hturn, hspawns⟩ := run.parent?_of_move m (Nat.not_lt.1 hold) hp
    obtain ⟨t, process, -, -, -, ht, hprocess, -⟩ := turn_yield hturn
    have hl : s.isLive a := by simp [isLive_eq, ht]
    have hfresh := hforest.fresh p (hforest.isLive_above (below_of_actsFor hspawns) hl)
    have hne : a ≠ id := by
      rintro rfl
      rw [hended t ht] at hprocess
      cases hprocess
    -- so it is an old branch, and has been signalled
    cases (hacts.earlier hforest' hlater hfresh).trans hspawns with
    | self => exact absurd rfl hne
    | @branch _ parent u hu hrole hparent hfor =>
      have hp' : s.parent? a = some parent := by rw [parent?_eq hu, hparent]
      have hna := hfixed a parent hp' hfor
      obtain ⟨v, hv, -⟩ := hfirm.stands a u hu hna
      have hbelow := hfirm.below hforest (.child hp' (below_of_actsFor hfor)) hna
      have hcancel := hfirm.beingCancelled hl hna
        (htorn a (by simp [isLive_eq, hv]) hbelow hne)
      rw [beingCancelled_eq hu] at hcancel
      exact absurd hturn (run.silent hu hrole hcancel effect)

theorem Run.fixed_moves (run : Run h log s) (hfirm : Firm o s) (htorn : TornDown o id)
    (hid : id.val < s.nextTask) (hended : ∀ t, s.task? id = some t → t.process = none)
    (hfixed : Fixed s id o.nextTask) (ms : List (Move P)) :
    Fixed (s.moves h ms) id o.nextTask := by
  induction ms generalizing log s with
  | nil => exact hfixed
  | cons m ms ih =>
    have hlater := later_move s h m
    refine ih (run.move m) (hfirm.trans (run.firm_move m)) (Nat.lt_of_lt_of_le hid hlater.next)
      (fun t' ht' => ?_) (run.fixed_move hfirm htorn hended hfixed m)
    obtain ⟨t, ht, honward⟩ := hlater.onward id t' ht' hid
    exact honward.ended (hended t ht)

end CoopTasks.Scheduler
