import CoopTasks.Proofs.Verdict

/-!
# Groups and their owners

A group begins with its branches queued and its owner waiting. It keeps its number, its owner and
its branches as long as it is in the table, and it leaves the table when a branch resolves it, or
with the signal to its owner. Until then the owner waits.
-/

namespace CoopTasks

namespace Group

/-- A group that goes on has taken note of a result, and waits for another. -/
theorem settle_open {group : Group} {slot : Nat} {outcome : Outcome}
    (hsettle : (group.settle slot outcome).2 = none) : ∃ v, outcome = .ok v ∧ group.mode = .all ∧
      (group.settle slot outcome).1 = { group with results := group.results.set slot (some v) } ∧
      ∃ i : Nat, (group.results.set slot (some v))[i]? = some none := by
  unfold settle at hsettle ⊢
  split at hsettle
  · cases hsettle
  · cases hsettle
  · rename_i v hmode
    dsimp only at hsettle ⊢
    split at hsettle
    · cases hsettle
    · rename_i hopen
      refine ⟨v, rfl, hmode, by rw [if_neg hopen], ?_⟩
      simpa [List.all_eq_true, List.mem_iff_getElem?] using hopen

end Group

namespace Departure

variable {P R W : Type}

/-- The answer that the owner of a group gets when a branch of the group leaves. -/
def resolution? (d : Departure P R W) (g : GroupId) : Option Input :=
  match d.task.role with
  | .branch g' slot =>
    if g' = g ∧ d.record.status ≠ .cancelled then
      (d.before.groups.find? g).bind fun group => (group.settle slot d.record.result).2
    else none
  | _ => none

theorem resolution?_eq_some {d : Departure P R W} {g : GroupId} {input : Input} :
    d.resolution? g = some input ↔ ∃ slot group, d.task.role = .branch g slot ∧
      d.record.status ≠ .cancelled ∧ d.before.groups.find? g = some group ∧
        (group.settle slot d.record.result).2 = some input := by
  unfold resolution?
  cases hrole : d.task.role with
  | branch g' slot =>
    by_cases hg : g' = g <;> by_cases hstatus : d.record.status = .cancelled <;>
      simp [hg, hstatus, Option.bind_eq_some_iff]
  | _ => simp

end Departure

namespace Scheduler

variable {P R W : Type} {s s' s'' : Scheduler P R W} {h : Host P R W}
variable {A : Set TaskId} {D : List (Departure P R W)} {d : Departure P R W}
variable {id owner : TaskId} {g : GroupId} {mode : GroupMode} {effects : List (Effect P W)}
variable {log : List (Scheduler P R W × Move P)}

/-! ## The start of a group -/

/-- A branch of a group that has not been stepped yet. -/
def Poised (s : Scheduler P R W) (b owner : TaskId) (g : GroupId) (slot : Nat)
    (effect : Effect P W) : Prop :=
  ∃ t, s.task? b = some t ∧ t.parent = some owner ∧ t.role = .branch g slot ∧
    t.process = some (.script [effect]) ∧ t.cancelling = false

theorem poised_addTask (s : Scheduler P R W) (name : String) (owner : TaskId) (g : GroupId)
    (slot : Nat) (effect : Effect P W) :
    Poised (s.addTask name (some owner) (.branch g slot) (.script [effect])).2 ⟨s.nextTask⟩ owner g
      slot effect :=
  ⟨_, (task?_addTask ..).trans (if_pos rfl), rfl, rfl, rfl, rfl⟩

theorem Poised.steady {b : TaskId} {slot : Nat} {effect : Effect P W}
    (hp : Poised s b owner g slot effect) (hs : Steady ∅ s s')
    (hcalm : s'.beingCancelled b = s.beingCancelled b) : Poised s' b owner g slot effect := by
  obtain ⟨t, ht, hparent, hrole, hprocess, hc⟩ := hp
  obtain ⟨t', ht', hsteady⟩ := hs.stays b t ht
  refine ⟨t', ht', hsteady.parent.trans hparent, hsteady.role.trans hrole, ?_, ?_⟩
  · exact (hsteady.process.resolve_left (Set.notMem_empty b)).trans hprocess
  · rwa [beingCancelled_eq ht', beingCancelled_eq ht, hc] at hcalm

theorem wait?_of_stance {j : TaskId}
    (hs : (s'.task? j).map Task.stance = (s.task? j).map Task.stance) : s'.wait? j = s.wait? j := by
  have hwait := congrArg (Option.map fun stance => stance.2.1) hs
  simpa [Scheduler.wait?, Task.stance, Function.comp_def] using hwait

theorem beingCancelled_of_stance {j : TaskId}
    (hs : (s'.task? j).map Task.stance = (s.task? j).map Task.stance) :
    s'.beingCancelled j = s.beingCancelled j := by
  have hflag := congrArg (Option.any fun stance => stance.2.2.2) hs
  simpa [beingCancelled, Task.stance, Option.any_map, Function.comp_def] using hflag

/-- A new branch waits for nothing and is not being cancelled; the other tasks stand as they did. -/
theorem stance_of_addBranches (owner : TaskId) (g : GroupId) (mode : GroupMode) (slot : Nat)
    (effects : List (Effect P W)) (s : Scheduler P R W) (j : TaskId) :
    let r := s.addBranches owner g mode slot effects
    (r.2.task? j).map Task.stance = (s.task? j).map Task.stance ∨
      s.nextTask ≤ j.val ∧ r.2.wait? j = some .nothing ∧ r.2.beingCancelled j = false := by
  induction effects generalizing slot s with
  | nil => exact Or.inl rfl
  | cons effect rest ih =>
    let r := s.addTask (mode.label slot) (some owner) (.branch g slot) (.script [effect])
    have hnext : r.2.nextTask = s.nextTask + 1 := nextTask_addTask ..
    rcases ih (slot + 1) r.2 with hsame | ⟨hle, hrest⟩
    · by_cases hj : j = ⟨s.nextTask⟩
      · right
        have hself : r.2.task? j = some _ := (task?_addTask ..).trans (if_pos hj)
        rw [hself] at hsame
        obtain ⟨t, ht, hstance⟩ := Option.map_eq_some_iff.1 hsame
        have hwait : t.wait = .nothing := congrArg (fun stance => stance.2.1) hstance
        have hcalm : t.cancelling = false := congrArg (fun stance => stance.2.2.2) hstance
        refine ⟨by rw [hj], ?_, (beingCancelled_eq ht).trans hcalm⟩
        exact (congrArg (Option.map Task.wait) ht).trans (congrArg some hwait)
      · exact Or.inl (hsame.trans (stance_addTask s _ (some owner) _ _ hj))
    · exact Or.inr ⟨by omega, hrest⟩

theorem wait?_addBranches (owner : TaskId) (g : GroupId) (mode : GroupMode) (slot : Nat)
    (effects : List (Effect P W)) (s : Scheduler P R W) {j : TaskId} {g' : GroupId}
    (hw : (s.addBranches owner g mode slot effects).2.wait? j = some (.group g')) :
    s.wait? j = some (.group g') := by
  rcases stance_of_addBranches owner g mode slot effects s j with hsame | ⟨-, hnothing, -⟩
  · exact (wait?_of_stance hsame).symm.trans hw
  · rw [hnothing] at hw
    cases hw

theorem beingCancelled_addBranches (owner : TaskId) (g : GroupId) (mode : GroupMode) (slot : Nat)
    (effects : List (Effect P W)) (s : Scheduler P R W) (hf : Forest s) (j : TaskId) :
    (s.addBranches owner g mode slot effects).2.beingCancelled j = s.beingCancelled j := by
  rcases stance_of_addBranches owner g mode slot effects s j with hsame | ⟨hle, -, hnot⟩
  · exact beingCancelled_of_stance hsame
  · rw [hnot]
    cases hj : s.task? j with
    | none => simp [beingCancelled, hj]
    | some t => exact absurd hle (Nat.not_le.2 (hf.fresh j (by simp [isLive_eq, hj])))

theorem beingCancelled_suspend (s : Scheduler P R W) (id j : TaskId) (wait : Wait) :
    (s.suspend id wait).beingCancelled j = s.beingCancelled j := by
  by_cases hj : j = id
  · simp [suspend, beingCancelled, hj, Option.any_map]
  · simp [suspend, beingCancelled, hj]

/-- A task that is suspended waits for what it is told to, and the others for what they did. -/
theorem wait?_suspend (s : Scheduler P R W) (id j : TaskId) (wait : Wait) :
    (s.suspend id wait).wait? j = if j = id then (s.wait? j).map fun _ => wait else s.wait? j := by
  by_cases hj : j = id
  · simp [suspend, wait?, hj, Function.comp_def]
  · simp [suspend, wait?, hj]

/-- The branches of a group are the next tasks, in the order of the effects. -/
theorem poised_addBranches (owner : TaskId) (g : GroupId) (mode : GroupMode) (slot : Nat)
    (effects : List (Effect P W)) (s : Scheduler P R W) (ht : Tidy s) (hl : s.isLive owner) :
    let r := s.addBranches owner g mode slot effects
    r.1.length = effects.length ∧ r.2.nextTask = s.nextTask + effects.length ∧
      ∀ i effect, effects[i]? = some effect → r.1[i]? = some ⟨s.nextTask + i⟩ ∧
        Poised r.2 ⟨s.nextTask + i⟩ owner g (slot + i) effect := by
  induction effects generalizing slot s with
  | nil => simp [addBranches]
  | cons effect rest ih =>
    let r := s.addTask (mode.label slot) (some owner) (.branch g slot) (.script [effect])
    have hnext : r.2.nextTask = s.nextTask + 1 := nextTask_addTask ..
    have htidy : Tidy r.2 := ht.addTask _ _ _ fun p hp => by cases hp; exact hl
    have hlive : r.2.isLive owner := (isLive_addTask ..).trans (by simp [hl])
    obtain ⟨hlength, hnext', hbranch⟩ := ih (slot + 1) r.2 htidy hlive
    have hcons : s.addBranches owner g mode slot (effect :: rest) =
        (⟨s.nextTask⟩ :: (r.2.addBranches owner g mode (slot + 1) rest).1,
          (r.2.addBranches owner g mode (slot + 1) rest).2) := rfl
    simp only [hcons]
    refine ⟨by simp [hlength], by rw [hnext', hnext, List.length_cons]; omega, fun i e he => ?_⟩
    cases i with
    | zero =>
      obtain rfl : effect = e := by simpa using he
      have hfresh : (⟨s.nextTask⟩ : TaskId).val < r.2.nextTask := hnext ▸ Nat.lt_succ_self _
      exact ⟨rfl, (poised_addTask s _ owner g slot effect).steady
        (steady_addBranches owner g mode (slot + 1) rest r.2 htidy hlive)
        (beingCancelled_of_stance
          (stance_addBranches owner g mode (slot + 1) rest r.2 hfresh))⟩
    | succ i =>
      obtain ⟨hget, hpoised⟩ := hbranch i e (by simpa using he)
      have hi : s.nextTask + 1 + i = s.nextTask + (i + 1) := by omega
      have hslot : slot + 1 + i = slot + (i + 1) := by omega
      rw [hnext, hi] at hget hpoised
      rw [hslot] at hpoised
      exact ⟨hget, hpoised⟩

/-- A group is under way: its owner waits, and its branches are queued. -/
structure Started (s s' : Scheduler P R W) (owner : TaskId) (mode : GroupMode)
    (effects : List (Effect P W)) (branches : List TaskId) : Prop where
  length : branches.length = effects.length
  next : s'.nextTask = s.nextTask + effects.length
  poised : ∀ slot effect, effects[slot]? = some effect → branches[slot]? = some ⟨s.nextTask + slot⟩ ∧
    Poised s' ⟨s.nextTask + slot⟩ owner ⟨s.nextGroup⟩ slot effect
  queue : s'.queue = branches.map (fun b => (b, .value .unit)) ++ s.queue
  groups : s'.groups =
    s.groups.insert ⟨s.nextGroup⟩ ⟨owner, mode, branches, effects.map fun _ => none⟩
  nextGroup : s'.nextGroup = s.nextGroup + 1
  parked : s'.wait? owner = some (.group ⟨s.nextGroup⟩)
  waits : ∀ id g, s'.wait? id = some (.group g) →
    s.wait? id = some (.group g) ∨ id = owner ∧ g = ⟨s.nextGroup⟩
  calm : ∀ id, s'.beingCancelled id = s.beingCancelled id

theorem started_startGroup (ht : Tidy s) (hl : s.isLive owner) (mode : GroupMode)
    {effects : List (Effect P W)} (hne : effects ≠ []) :
    ∃ branches, Started s (s.startGroup owner mode effects) owner mode effects branches := by
  let r : Scheduler P R W := { s with nextGroup := s.nextGroup + 1 }
  let b := r.addBranches owner ⟨s.nextGroup⟩ mode 0 effects
  let q : Scheduler P R W := b.2.suspend owner (.group ⟨s.nextGroup⟩)
  have hstart : s.startGroup owner mode effects = { q with
      queue := b.1.map (fun branch => (branch, .value .unit)) ++ b.2.queue
      groups := b.2.groups.insert ⟨s.nextGroup⟩ ⟨owner, mode, b.1, effects.map fun _ => none⟩ } := by
    unfold startGroup
    rw [if_neg (by simpa using hne)]
    rfl
  have htidy : Tidy r := ht.congr (.of_tasks rfl rfl)
  obtain ⟨hlength, hnext, hpoised⟩ :=
    poised_addBranches owner ⟨s.nextGroup⟩ mode 0 effects r htidy hl
  obtain ⟨hgroups, hnextGroup⟩ := groups_addBranches owner ⟨s.nextGroup⟩ mode 0 effects r
  have hsuspend : Steady ∅ b.2 q :=
    steady_updateTask b.2 owner _ fun t => ⟨rfl, rfl, rfl, fun hc => hc, Or.inr rfl, Or.inr rfl⟩
  have hwait : ∀ j, (s.startGroup owner mode effects).wait? j =
      if j = owner then (b.2.wait? j).map fun _ => .group ⟨s.nextGroup⟩ else b.2.wait? j := by
    intro j
    rw [hstart]
    exact wait?_suspend b.2 owner j _
  refine ⟨b.1, hlength, ?_, fun slot effect he => ?_, ?_, ?_, ?_, ?_, fun j g hw => ?_, fun j => ?_⟩
  · rw [hstart]
    exact hnext
  · obtain ⟨hget, hp⟩ := hpoised slot effect he
    obtain ⟨t, ht, hrest⟩ := hp.steady hsuspend (beingCancelled_suspend ..)
    rw [hstart]
    exact ⟨hget, t, ht, by simpa using hrest⟩
  · rw [hstart, ← queue_addBranches owner ⟨s.nextGroup⟩ mode 0 effects r]
  · rw [hstart]
    exact congrArg (Table.insert · _ _) hgroups
  · rw [hstart]
    exact hnextGroup
  · have hbranches := steady_addBranches (A := ∅) owner ⟨s.nextGroup⟩ mode 0 effects r htidy hl
    obtain ⟨t, ht⟩ := Option.isSome_iff_exists.1 (hbranches.isLive hl)
    have ht : b.2.task? owner = some t := ht
    rw [hwait, if_pos rfl, Scheduler.wait?, ht]
    rfl
  · rw [hwait] at hw
    split at hw
    · rename_i hj
      obtain ⟨-, -, hg⟩ := Option.map_eq_some_iff.1 hw
      exact Or.inr ⟨hj, by simpa [eq_comm] using hg⟩
    · exact Or.inl (wait?_addBranches owner ⟨s.nextGroup⟩ mode 0 effects r hw)
  · rw [hstart]
    exact (beingCancelled_suspend b.2 owner j _).trans
      (beingCancelled_addBranches owner ⟨s.nextGroup⟩ mode 0 effects r htidy.forest j)

/-- The new tasks are the branches. -/
theorem Started.newcomer {branches : List TaskId}
    (hs : Started s s' owner mode effects branches) (hf' : Forest s') {j : TaskId}
    (hl : s'.isLive j) (hj : s.nextTask ≤ j.val) :
    ∃ slot effect, effects[slot]? = some effect ∧ j = ⟨s.nextTask + slot⟩ := by
  have hlt := hf'.fresh j hl
  rw [hs.next] at hlt
  have hslot : j.val - s.nextTask < effects.length := by omega
  refine ⟨j.val - s.nextTask, effects[j.val - s.nextTask], List.getElem?_eq_getElem hslot, ?_⟩
  rw [Nat.add_sub_cancel' hj]

/-! ## Groups that are known -/

/-- Groups are numbered anew, nobody enters an old one, and it stays what it is. -/
structure Regular (s s' : Scheduler P R W) : Prop where
  next : s.nextGroup ≤ s'.nextGroup
  groups : ∀ g group', s'.groups.find? g = some group' → g.val < s.nextGroup →
    ∃ group, s.groups.find? g = some group ∧ group'.owner = group.owner ∧
      group'.mode = group.mode ∧ group'.branches = group.branches
  waits : ∀ id g, s'.wait? id = some (.group g) → g.val < s.nextGroup →
    s.wait? id = some (.group g)

theorem Regular.refl (s : Scheduler P R W) : Regular s s :=
  ⟨Nat.le_refl _, fun _ group hg _ => ⟨group, hg, rfl, rfl, rfl⟩, fun _ _ hw _ => hw⟩

theorem Regular.trans (hs : Regular s s') (hs' : Regular s' s'') : Regular s s'' := by
  refine ⟨Nat.le_trans hs.next hs'.next, fun g group'' hg'' hlt => ?_, fun id g hw hlt => ?_⟩
  · have hlt' := Nat.lt_of_lt_of_le hlt hs.next
    obtain ⟨group', hg', howner', hmode', hbranches'⟩ := hs'.groups g group'' hg'' hlt'
    obtain ⟨group, hg, howner, hmode, hbranches⟩ := hs.groups g group' hg' hlt
    exact ⟨group, hg, howner'.trans howner, hmode'.trans hmode, hbranches'.trans hbranches⟩
  · exact hs.waits id g (hs'.waits id g hw (Nat.lt_of_lt_of_le hlt hs.next)) hlt

theorem Regular.of_tables (htasks : s'.tasks = s.tasks) (hgroups : s'.groups = s.groups)
    (hnext : s'.nextGroup = s.nextGroup) : Regular s s' :=
  ⟨Nat.le_of_eq hnext.symm, fun _ group hg _ => ⟨group, hgroups ▸ hg, rfl, rfl, rfl⟩,
    fun id _ hw _ => by rwa [wait?, task?_of_tasks htasks] at hw⟩

theorem Changed.regular (hs : Changed A s s') : Regular s s' :=
  ⟨Nat.le_of_eq hs.nextGroup.symm, fun g group hg _ => ⟨group, hs.groups g group hg, rfl, rfl, rfl⟩,
    fun id g hw _ => hs.waits id g hw⟩

theorem Started.regular {branches : List TaskId} (hs : Started s s' owner mode effects branches) :
    Regular s s' := by
  have hold : ∀ {g : GroupId}, g.val < s.nextGroup → g ≠ ⟨s.nextGroup⟩ := by
    rintro g hlt rfl
    exact Nat.lt_irrefl _ hlt
  refine ⟨hs.nextGroup ▸ Nat.le_succ _, fun g group hg hlt => ?_, fun id g hw hlt => ?_⟩
  · rw [hs.groups, Table.find?_insert, if_neg (hold hlt)] at hg
    exact ⟨group, hg, rfl, rfl, rfl⟩
  · exact (hs.waits id g hw).resolve_right fun hnew => hold hlt hnew.2

theorem regular_cleared (d : Departure P R W) (h : Host P R W) : Regular d.before (d.cleared h) := by
  refine ⟨Nat.le_of_eq (nextGroup_cleared d h).symm, fun g group hg _ => ?_, fun id g hw _ => ?_⟩
  · exact ⟨group, by rwa [groups_cleared] at hg, rfl, rfl, rfl⟩
  · obtain ⟨t', ht', hwait⟩ := Option.map_eq_some_iff.1 hw
    obtain ⟨-, t, ht, heq⟩ := find_of_cleared d h ht'
    rw [heq] at hwait
    simpa [wait?, ht] using hwait

theorem Regrouped.regular {groups : Table GroupId Group} (hr : Regrouped d groups) {group' : Group}
    (hg : groups.find? g = some group') : ∃ group, d.before.groups.find? g = some group ∧
      group'.owner = group.owner ∧ group'.mode = group.mode ∧ group'.branches = group.branches := by
  cases hr with
  | same => exact ⟨group', hg, rfl, rfl, rfl⟩
  | @noted g₀ slot group hrole hstatus hfind hsettle =>
    rw [Table.find?_modify] at hg
    split at hg
    · rename_i heq
      subst heq
      rw [hfind] at hg
      cases hg
      exact ⟨group, hfind, group.settle_owner .., group.settle_mode .., group.settle_branches ..⟩
    · exact ⟨group', hg, rfl, rfl, rfl⟩
  | resolved hrole hstatus hfind hsettle =>
    rw [Table.find?_erase] at hg
    split at hg
    · cases hg
    · exact ⟨group', hg, rfl, rfl, rfl⟩

theorem nextGroup_filed (d : Departure P R W) (h : Host P R W) :
    (d.filed h).nextGroup = d.before.nextGroup :=
  (changes_filed d h ∅).changed.nextGroup.trans (nextGroup_cleared d h)

theorem regular_after (d : Departure P R W) (h : Host P R W) : Regular d.before (d.after h) := by
  obtain ⟨r, hready, hregrouped, hchanges⟩ := after_stages d h ∅
  have hfiled : Regular d.before (d.filed h) :=
    (regular_cleared d h).trans (changes_filed d h ∅).changed.regular
  have hready' : Regular d.before r := by
    refine ⟨?_, fun g group hg _ => hregrouped.regular hg, fun id g hw hlt => ?_⟩
    · rw [hready.nextGroup, nextGroup_filed]
    · exact hfiled.waits id g ((hready.wait? id).symm.trans hw) hlt
  exact hready'.trans hchanges.changed.regular

theorem Course.regular (hcourse : Course h A s D s') : Regular s s' := by
  induction hcourse with
  | refl => exact .refl s
  | change _ hchange ih => exact ih.trans hchange.changed.regular
  | group id mode _ ht hl hne ih =>
    obtain ⟨branches, hstarted⟩ := started_startGroup ht hl mode hne
    exact ih.trans hstarted.regular
  | leave _ _ ih => exact ih.trans (regular_after _ h)

theorem regular_popped (s : Scheduler P R W) (m : Move P) : Regular s (s.popped m) := by
  cases m <;> exact .of_tables rfl rfl rfl

theorem Run.regular_move (run : Run h log s) (m : Move P) : Regular s (s.move h m) :=
  (regular_popped s m).trans (run.course m).regular

theorem Run.regular_moves (run : Run h log s) (ms : List (Move P)) : Regular s (s.moves h ms) :=
  (run.relates Regular.refl Regular.trans regular_popped Course.regular ms).1

theorem Run.regular_before (run : Run h log s) (ms : List (Move P))
    (hd : d ∈ settlements h (s.history h ms)) : Regular s d.before :=
  (run.relates Regular.refl Regular.trans regular_popped Course.regular ms).2 d hd

/-- A group that is in the table when a task leaves later is the one that began. -/
theorem Run.group_before (run : Run h log s) {group : Group} (hg : s.groups.find? g = some group)
    (ms : List (Move P)) (hd : d ∈ settlements h (s.history h ms)) {group' : Group}
    (hg' : d.before.groups.find? g = some group') :
    group'.owner = group.owner ∧ group'.mode = group.mode ∧ group'.branches = group.branches := by
  have hlt := run.coherent.sound.groups g group hg
  obtain ⟨group₀, hg₀, hsame⟩ := (run.regular_before ms hd).groups g group' hg' hlt
  obtain rfl := Option.some.inj (hg.symm.trans hg₀)
  exact hsame

/-! ## Groups that are lost -/

/-- The task is signalled in between, and stays so. -/
def Signalled (s s' : Scheduler P R W) (id : TaskId) : Prop :=
  s.beingCancelled id = false ∧ Condemned s' id

theorem isLive_of_wait? {wait : Wait} (hw : s.wait? id = some wait) : s.isLive id := by
  obtain ⟨t, ht, -⟩ := Option.map_eq_some_iff.1 hw
  simp [isLive_eq, ht]

/-- A group is lost in a change with the signal to a task that waits for it. -/
theorem Changed.group_lost (hs : Changed A s s') (hfresh : ∀ j, s.wait? j = some (.group g) →
    j.val < s.nextTask) (hg : (s.groups.find? g).isSome) (hgone : s'.groups.find? g = none) :
    ∃ id, s.wait? id = some (.group g) ∧ Signalled s s' id := by
  obtain ⟨group, hg⟩ := Option.isSome_iff_exists.1 hg
  obtain ⟨id, hwait, hcalm, hcancel⟩ := hs.dropped g group hg hgone
  have hid := Nat.lt_of_lt_of_le (hfresh id hwait) hs.next
  exact ⟨id, hwait, hcalm, condemned_of_beingCancelled hid hcancel⟩

/-- A departure loses a group if it resolves it, or signals a task that waits for it. -/
theorem Leaving.group_lost (hd : Leaving d) (h : Host P R W) (hlt : g.val < d.before.nextGroup)
    (hg : (d.before.groups.find? g).isSome) (hgone : (d.after h).groups.find? g = none) :
    (d.resolution? g).isSome ∨
      ∃ id, d.before.wait? id = some (.group g) ∧ Signalled d.before (d.after h) id := by
  obtain ⟨r, hready, hregrouped, hchanges⟩ := after_stages d h ∅
  have hwaits : ∀ j, r.wait? j = some (.group g) → d.before.wait? j = some (.group g) := by
    intro j hj
    rw [hready.wait?] at hj
    have hcleared := (changes_filed d h ∅).changed.waits j g hj
    exact (regular_cleared d h).waits j g hcleared hlt
  have hfirm : Firm d.before r := (firm_filed d h).trans hready.firm
  have hfresh : ∀ j, r.wait? j = some (.group g) → j.val < r.nextTask := fun j hj =>
    Nat.lt_of_lt_of_le (hd.forest.fresh j (isLive_of_wait? (hwaits j hj))) hfirm.next
  have hsignalled : (r.groups.find? g).isSome →
      ∃ id, d.before.wait? id = some (.group g) ∧ Signalled d.before (d.after h) id := by
    intro hr
    obtain ⟨id, hwait, hcalm, hcondemned⟩ := hchanges.changed.group_lost hfresh hr hgone
    have hid := hd.forest.fresh id (isLive_of_wait? (hwaits id hwait))
    exact ⟨id, hwaits id hwait, hfirm.calm hid (isLive_of_wait? hwait) hcalm, hcondemned⟩
  generalize hgroups : r.groups = groups at hregrouped hsignalled
  cases hregrouped with
  | same => exact Or.inr (hsignalled hg)
  | @noted g₀ slot group hrole hstatus hfind hsettle =>
    refine Or.inr (hsignalled ?_)
    rw [Table.find?_modify]
    split <;> simpa using hg
  | @resolved g₀ slot group input hrole hstatus hfind hsettle =>
    by_cases he : g = g₀
    · subst he
      exact Or.inl (Option.isSome_iff_exists.2
        ⟨input, Departure.resolution?_eq_some.2 ⟨slot, group, hrole, hstatus, hfind, hsettle⟩⟩)
    · refine Or.inr (hsignalled ?_)
      rwa [Table.find?_erase, if_neg he]

theorem Course.group_lost (hcourse : Course h A s D s') (hf : Forest s)
    (hlt : g.val < s.nextGroup) (hg : (s.groups.find? g).isSome)
    (hgone : s'.groups.find? g = none) : (∃ d ∈ D, (d.resolution? g).isSome) ∨
      ∃ id, s.wait? id = some (.group g) ∧ Signalled s s' id := by
  -- what waits for the group later waited for it at the beginning
  have hback : ∀ {D r id}, Course h A s D r → r.wait? id = some (.group g) →
      r.beingCancelled id = false → s.wait? id = some (.group g) ∧ id.val < r.nextTask ∧
        s.beingCancelled id = false := by
    intro D r id hfirst hwait hcalm
    have hwait' := hfirst.regular.waits id g hwait hlt
    have hid := hf.fresh id (isLive_of_wait? hwait')
    exact ⟨hwait', Nat.lt_of_lt_of_le hid hfirst.firm.next,
      hfirst.firm.calm hid (isLive_of_wait? hwait) hcalm⟩
  induction hcourse with
  | refl =>
    rw [hgone] at hg
    cases hg
  | @change r r' D hfirst hchange ih =>
    by_cases hr : r.groups.find? g = none
    · rcases ih hr with hresolved | ⟨id, hwait, hcalm, hcondemned⟩
      · exact Or.inl hresolved
      · exact Or.inr ⟨id, hwait, hcalm, hchange.changed.firm.condemned hcondemned⟩
    · obtain ⟨group, hr⟩ := Option.ne_none_iff_exists'.1 hr
      obtain ⟨id, hwait, hcalm, hcancel⟩ := hchange.changed.dropped g group hr hgone
      obtain ⟨hwait', hid, hcalm'⟩ := hback hfirst hwait hcalm
      exact Or.inr ⟨id, hwait', hcalm', condemned_of_beingCancelled
        (Nat.lt_of_lt_of_le hid hchange.changed.next) hcancel⟩
  | group owner mode hfirst ht hl hne ih =>
    obtain ⟨branches, hstarted⟩ := started_startGroup ht hl mode hne
    rw [hstarted.groups, Table.find?_insert] at hgone
    split at hgone
    · cases hgone
    · rcases ih hgone with hresolved | ⟨id, hwait, hcalm, hcondemned⟩
      · exact Or.inl hresolved
      · refine Or.inr ⟨id, hwait, hcalm, ?_⟩
        exact (steady_startGroup (A := A) ht hl mode _).firm.condemned hcondemned
  | @leave d D hfirst hleaving ih =>
    by_cases hr : d.before.groups.find? g = none
    · rcases ih hr with ⟨e, he, hresolved⟩ | ⟨id, hwait, hcalm, hcondemned⟩
      · exact Or.inl ⟨e, List.mem_append_left _ he, hresolved⟩
      · exact Or.inr ⟨id, hwait, hcalm, (firm_after d h).condemned hcondemned⟩
    · have hlt' := Nat.lt_of_lt_of_le hlt hfirst.regular.next
      rcases hleaving.group_lost h hlt' (Option.isSome_iff_ne_none.2 hr) hgone with
        hresolved | ⟨id, hwait, hcalm, hcondemned⟩
      · exact Or.inl ⟨d, by simp, hresolved⟩
      · obtain ⟨hwait', -, hcalm'⟩ := hback hfirst hwait hcalm
        exact Or.inr ⟨id, hwait', hcalm', hcondemned⟩

theorem forest_popped (hf : Forest s) (m : Move P) : Forest (s.popped m) := by
  cases m <;> exact hf.congr (SameTree.shape (.of_tasks rfl rfl))

theorem wait?_popped (s : Scheduler P R W) (m : Move P) (id : TaskId) :
    (s.popped m).wait? id = s.wait? id := by
  cases m <;> rfl

theorem groups_popped (s : Scheduler P R W) (m : Move P) :
    (s.popped m).groups = s.groups ∧ (s.popped m).nextGroup = s.nextGroup := by
  cases m <;> exact ⟨rfl, rfl⟩

theorem Run.owner_waits_move (run : Run h log s) (hw : s.wait? owner = some (.group g))
    (m : Move P) : (s.move h m).wait? owner = some (.group g) ∨
      (∃ d ∈ s.departures h m, (d.resolution? g).isSome) ∨ Signalled s (s.move h m) owner := by
  have hregistered := fun j => (run.coherent.registered j).group g
  obtain ⟨group, hg, howner⟩ := (hregistered owner).1 hw
  have hlt := run.coherent.sound.groups g group hg
  cases hg' : (s.move h m).groups.find? g with
  | some group' =>
    obtain ⟨group₀, hg₀, howner', -⟩ := (run.regular_move m).groups g group' hg' hlt
    obtain rfl := Option.some.inj (hg.symm.trans hg₀)
    exact Or.inl ((((run.move m).coherent.registered owner).group g).2
      ⟨group', hg', howner'.trans howner⟩)
  | none =>
    obtain ⟨hgroups, hnext⟩ := groups_popped s m
    rcases (run.course m).group_lost (forest_popped run.tidy.forest m) (hnext ▸ hlt)
      (by rw [hgroups, hg]; rfl) hg' with hresolved | ⟨id, hwait, hcalm, hcondemned⟩
    · exact Or.inr (Or.inl hresolved)
    · -- nobody but the owner waits for the group
      rw [wait?_popped] at hwait
      rw [beingCancelled_popped] at hcalm
      obtain ⟨group₀, hg₀, hid⟩ := (hregistered id).1 hwait
      obtain rfl := Option.some.inj (hg.symm.trans hg₀)
      obtain rfl := howner.symm.trans hid
      exact Or.inr (Or.inr ⟨hcalm, hcondemned⟩)

/-- The owner of a group waits until a branch resolves the group, or the owner is signalled. -/
theorem Run.owner_waits (run : Run h log s) (hw : s.wait? owner = some (.group g))
    (ms : List (Move P)) : (s.moves h ms).wait? owner = some (.group g) ∨
      (∃ d ∈ settlements h (s.history h ms), (d.resolution? g).isSome) ∨
      Signalled s (s.moves h ms) owner := by
  induction ms generalizing log s with
  | nil => exact Or.inl hw
  | cons m ms ih =>
    rcases run.owner_waits_move hw m with hw' | ⟨d, hd, hresolved⟩ | ⟨hcalm, hcondemned⟩
    · rcases ih (run.move m) hw' with hw'' | ⟨d, hd, hresolved⟩ | ⟨hcalm, hcondemned⟩
      · exact Or.inl hw''
      · exact Or.inr (Or.inl ⟨d, by simp [history, hd], hresolved⟩)
      · have hid := run.tidy.forest.fresh owner (isLive_of_wait? hw)
        exact Or.inr (Or.inr
          ⟨(run.firm_move m).calm hid (isLive_of_wait? hw') hcalm, hcondemned⟩)
    · exact Or.inr (Or.inl ⟨d, by simp [history, hd], hresolved⟩)
    · exact Or.inr (Or.inr ⟨hcalm, ((run.move m).firm_moves ms).condemned hcondemned⟩)

end Scheduler

end CoopTasks
