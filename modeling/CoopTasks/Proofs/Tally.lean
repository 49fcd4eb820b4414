import CoopTasks.Proofs.Groups

/-!
# The tally of a group

As long as a group is in the table, every branch is accounted for: it is live and its slot is open,
it completed and its result is in its slot, or it was cancelled and its slot stays open. Some slot
is open. The group goes on only by branches that complete, so once all whose slots are open were
cancelled, nothing but its signal resumes the owner.
-/

namespace CoopTasks.Scheduler

variable {P R W : Type} {s s' : Scheduler P R W} {h : Host P R W}
variable {A : Set TaskId} {D : List (Departure P R W)} {d : Departure P R W}
variable {id owner : TaskId} {g : GroupId} {group : Group} {mode : GroupMode}
variable {effects : List (Effect P W)} {branches : List TaskId}
variable {log : List (Scheduler P R W × Move P)}

/-- How the results of a group reflect that a branch left. -/
def Entered (group : Group) (slot : Nat) (record : Settlement) : Prop :=
  record.status = .cancelled ∧ group.results[slot]? = some none ∨
    ∃ v, group.mode = .all ∧ record = ⟨record.task, .completed, .ok v⟩ ∧
      group.results[slot]? = some (some v)

/-- The branches of a group, the live ones and those that left, agree with its results. -/
structure Counted (D : List (Departure P R W)) (s : Scheduler P R W) (g : GroupId)
    (group : Group) : Prop where
  size : group.results.length = group.branches.length
  unfinished : ∃ slot : Nat, group.results[slot]? = some none
  live : ∀ b t slot, s.task? b = some t → t.role = .branch g slot →
    group.branches[slot]? = some b ∧ group.results[slot]? = some none ∧ t.parent = some group.owner
  left : ∀ d ∈ D, ∀ slot, d.task.role = .branch g slot →
    group.branches[slot]? = some d.id ∧ Entered group slot d.record ∧ d.resolution? g = none
  cast : ∀ slot b, group.branches[slot]? = some b → (∃ t, s.task? b = some t ∧
    t.role = .branch g slot) ∨ ∃ d ∈ D, d.id = b ∧ d.task.role = .branch g slot

structure Tally (D : List (Departure P R W)) (s : Scheduler P R W) : Prop where
  numbered : ∀ g group, s.groups.find? g = some group → g.val < s.nextGroup
  live : ∀ b t g slot, s.task? b = some t → t.role = .branch g slot → g.val < s.nextGroup
  left : ∀ d ∈ D, ∀ g slot, d.task.role = .branch g slot → g.val < s.nextGroup
  counted : ∀ g group, s.groups.find? g = some group → Counted D s g group

theorem Counted.of_tasks (hc : Counted D s g group) (htasks : s'.tasks = s.tasks) :
    Counted D s' g group := by
  refine ⟨hc.size, hc.unfinished, fun b t slot ht => ?_, hc.left, fun slot b hb => ?_⟩
  · exact hc.live b t slot (by rwa [← task?_of_tasks htasks])
  · rw [task?_of_tasks htasks]
    exact hc.cast slot b hb

theorem Tally.of_tables (ht : Tally D s) (htasks : s'.tasks = s.tasks)
    (hgroups : s'.groups = s.groups) (hnext : s'.nextGroup = s.nextGroup) : Tally D s' := by
  refine ⟨fun g group hg => ?_, fun b t g slot hb hrole => ?_, fun d hd g slot hrole => ?_,
    fun g group hg => ?_⟩
  · exact hnext ▸ ht.numbered g group (hgroups ▸ hg)
  · exact hnext ▸ ht.live b t g slot (by rwa [← task?_of_tasks htasks]) hrole
  · exact hnext ▸ ht.left d hd g slot hrole
  · exact (ht.counted g group (hgroups ▸ hg)).of_tasks htasks

/-- A task that keeps its role is a branch as long as it is live. -/
theorem Counted.steady (hc : Counted D s g group) (hs : Steady A s s')
    (hnew : ∀ b t' slot, s'.task? b = some t' → s.task? b = none → t'.role ≠ .branch g slot) :
    Counted D s' g group := by
  refine ⟨hc.size, hc.unfinished, fun b t' slot ht' hrole => ?_, hc.left, fun slot b hb => ?_⟩
  · cases ht : s.task? b with
    | none => exact absurd hrole (hnew b t' slot ht' ht)
    | some t =>
      obtain ⟨u, hu, hsteady⟩ := hs.stays b t ht
      obtain rfl := Option.some.inj (ht'.symm.trans hu)
      rw [hsteady.parent]
      exact hc.live b t slot ht (hsteady.role.symm.trans hrole)
  · rcases hc.cast slot b hb with ⟨t, ht, hrole⟩ | hleft
    · obtain ⟨t', ht', hsteady⟩ := hs.stays b t ht
      exact Or.inl ⟨t', ht', hsteady.role.trans hrole⟩
    · exact Or.inr hleft

theorem Tally.changed (ht : Tally D s) (hs : Changed A s s') : Tally D s' := by
  have hnew : ∀ b t' g slot, s'.task? b = some t' → s.task? b = none →
      t'.role ≠ .branch g slot := by
    intro b t' g slot ht' hnone hrole
    have hnot := hs.newcomers b t' ht' hnone
    rw [hrole] at hnot
    cases hnot
  refine ⟨fun g group hg => ?_, fun b t' g slot ht' hrole => ?_, fun d hd g slot hrole => ?_,
    fun g group hg => ?_⟩
  · exact hs.nextGroup ▸ ht.numbered g group (hs.groups g group hg)
  · rw [hs.nextGroup]
    cases hb : s.task? b with
    | none => exact absurd hrole (hnew b t' g slot ht' hb)
    | some t =>
      obtain ⟨u, hu, hsteady⟩ := hs.stays b t hb
      obtain rfl := Option.some.inj (ht'.symm.trans hu)
      exact ht.live b t g slot hb (hsteady.role.symm.trans hrole)
  · exact hs.nextGroup ▸ ht.left d hd g slot hrole
  · exact (ht.counted g group (hs.groups g group hg)).steady hs.toSteady
      fun b t' slot => hnew b t' g slot

/-! ## The start of a group -/

/-- A branch of a group that has just begun is one of its new tasks. -/
theorem Started.newcomer_role (hs : Started s s' owner mode effects branches) (hf' : Forest s')
    (hsteady : Steady ∅ s s') {b : TaskId} {t' : Task P R W} (ht' : s'.task? b = some t')
    (hnone : s.task? b = none) : ∃ slot effect, effects[slot]? = some effect ∧
      b = ⟨s.nextTask + slot⟩ ∧ t'.role = .branch ⟨s.nextGroup⟩ slot ∧ t'.parent = some owner := by
  obtain ⟨slot, effect, heffect, rfl⟩ := hs.newcomer hf' (by simp [isLive_eq, ht'])
    (hsteady.came b t' ht' hnone).1
  obtain ⟨-, u, hu, hparent, hrole, -⟩ := hs.poised slot effect heffect
  obtain rfl := Option.some.inj (ht'.symm.trans hu)
  exact ⟨slot, effect, heffect, rfl, hrole, hparent⟩

/-- The new group: all branches are live, and all slots are open. -/
theorem Started.counted (hs : Started s s' owner mode effects branches) (ht : Tally D s)
    (hf' : Forest s') (hsteady : Steady ∅ s s') (hne : effects ≠ []) :
    Counted D s' ⟨s.nextGroup⟩ ⟨owner, mode, branches, effects.map fun _ => none⟩ := by
  have hopen : ∀ (slot : Nat) effect, effects[slot]? = some effect →
      (effects.map fun _ => (none : Option Value))[slot]? = some none :=
    fun slot effect heffect => by rw [List.getElem?_map, heffect]; rfl
  refine ⟨by simp [hs.length], ?_, fun b t' slot ht' hrole => ?_, fun d hd slot hrole => ?_,
    fun slot b hb => ?_⟩
  · obtain ⟨first, rest, rfl⟩ := List.exists_cons_of_ne_nil hne
    exact ⟨0, hopen 0 first rfl⟩
  · cases hb : s.task? b with
    | none =>
      obtain ⟨slot', effect, heffect, rfl, hrole', hparent⟩ :=
        hs.newcomer_role hf' hsteady ht' hb
      rw [hrole] at hrole'
      cases hrole'
      exact ⟨(hs.poised slot effect heffect).1, hopen slot effect heffect, hparent⟩
    | some t =>
      obtain ⟨u, hu, hsteady⟩ := hsteady.stays b t hb
      obtain rfl := Option.some.inj (ht'.symm.trans hu)
      exact absurd (ht.live b t _ slot hb (hsteady.role.symm.trans hrole)) (Nat.lt_irrefl _)
  · exact absurd (ht.left d hd _ slot hrole) (Nat.lt_irrefl _)
  · have hslot : slot < effects.length := by
      rw [← hs.length]
      exact (List.getElem?_eq_some_iff.1 hb).1
    obtain ⟨hget, t, ht, -, hrole, -⟩ := hs.poised slot _ (List.getElem?_eq_getElem hslot)
    obtain rfl := Option.some.inj (hb.symm.trans hget)
    exact Or.inl ⟨t, ht, hrole⟩

theorem Tally.started (ht : Tally D s) (hs : Started s s' owner mode effects branches)
    (hf' : Forest s') (hsteady : Steady ∅ s s') (hne : effects ≠ []) : Tally D s' := by
  have hnext : s'.nextGroup = s.nextGroup + 1 := hs.nextGroup
  refine ⟨fun g group hg => ?_, fun b t' g slot ht' hrole => ?_, fun d hd g slot hrole => ?_,
    fun g group hg => ?_⟩
  · rw [hs.groups, Table.find?_insert] at hg
    split at hg
    · rename_i heq
      rw [heq, hnext]
      exact Nat.lt_succ_self _
    · exact hnext ▸ Nat.lt_succ_of_lt (ht.numbered g group hg)
  · cases hb : s.task? b with
    | none =>
      obtain ⟨slot', effect, heffect, -, hrole', -⟩ := hs.newcomer_role hf' hsteady ht' hb
      rw [hrole] at hrole'
      cases hrole'
      exact hnext ▸ Nat.lt_succ_self _
    | some t =>
      obtain ⟨u, hu, hsteady⟩ := hsteady.stays b t hb
      obtain rfl := Option.some.inj (ht'.symm.trans hu)
      exact hnext ▸ Nat.lt_succ_of_lt (ht.live b t g slot hb (hsteady.role.symm.trans hrole))
  · exact hnext ▸ Nat.lt_succ_of_lt (ht.left d hd g slot hrole)
  · rw [hs.groups, Table.find?_insert] at hg
    split at hg
    · rename_i heq
      cases hg
      exact heq ▸ hs.counted ht hf' hsteady hne
    · rename_i hg'
      refine (ht.counted g group hg).steady hsteady fun b t' slot ht' hnone hrole => hg' ?_
      obtain ⟨slot', effect, -, -, hrole', -⟩ := hs.newcomer_role hf' hsteady ht' hnone
      rw [hrole] at hrole'
      cases hrole'
      rfl

/-! ## Departures -/

/-- A result is the one of a completed task, unless the task was cancelled. -/
theorem record_of_ok {v : Value} (hstatus : d.record.status ≠ .cancelled)
    (hresult : d.record.result = .ok v) : d.record = ⟨d.id, .completed, .ok v⟩ := by
  simp only [Departure.record, Task.endStatus, Task.endResult] at hstatus hresult ⊢
  cases ha : d.task.abort with
  | some e => simp [ha] at hresult
  | none =>
    cases hc : d.task.cancelling with
    | true => simp [ha, hc] at hstatus
    | false =>
      cases ho : d.task.outcome with
      | none => simpa [ha, hc, ho] using hresult
      | some outcome => cases outcome <;> simp_all

/-- An error is the one of a failed task, unless the task was cancelled. -/
theorem record_of_error {e : TaskError} (hstatus : d.record.status ≠ .cancelled)
    (hresult : d.record.result = .error e) : d.record = ⟨d.id, .failed, .error e⟩ := by
  simp only [Departure.record, Task.endStatus, Task.endResult] at hstatus hresult ⊢
  cases ha : d.task.abort with
  | some e => simpa [ha] using hresult
  | none =>
    cases hc : d.task.cancelling with
    | true => simp [ha, hc] at hstatus
    | false =>
      cases ho : d.task.outcome with
      | none => simp [ha, hc, ho] at hresult
      | some outcome => cases outcome <;> simp_all

/-- The group does not hear of the departure. -/
theorem Counted.leave (hc : Counted D d.before g group) (hd : Leaving d) (h : Host P R W)
    (hsilent : ∀ slot, d.task.role = .branch g slot → d.record.status = .cancelled) :
    Counted (D ++ [d]) (d.after h) g group := by
  refine ⟨hc.size, hc.unfinished, fun b t' slot ht' hrole => ?_, fun e he slot hrole => ?_,
    fun slot b hb => ?_⟩
  · obtain ⟨-, t, ht, hrole', hparent, -⟩ := find_of_after d h ht'
    rw [hparent]
    exact hc.live b t slot ht (hrole'.symm.trans hrole)
  · rcases List.mem_append.1 he with he | he
    · exact hc.left e he slot hrole
    · obtain rfl := List.mem_singleton.1 he
      obtain ⟨hslot, hopen, -⟩ := hc.live e.id e.task slot hd.found hrole
      refine ⟨hslot, Or.inl ⟨hsilent slot hrole, hopen⟩, ?_⟩
      simp [Departure.resolution?, hrole, hsilent slot hrole]
  · rcases hc.cast slot b hb with ⟨t, ht, hrole⟩ | ⟨e, he, hid, hrole⟩
    · by_cases hne : b = d.id
      · subst hne
        obtain rfl := Option.some.inj (hd.found.symm.trans ht)
        exact Or.inr ⟨d, by simp, rfl, hrole⟩
      · obtain ⟨t', ht', hrole', -⟩ := find_after d h hne ht
        exact Or.inl ⟨t', ht', hrole'.trans hrole⟩
    · exact Or.inr ⟨e, List.mem_append_left _ he, hid, hrole⟩

/-- The group takes note of the departure, and goes on. -/
theorem Counted.note (hc : Counted D d.before g group) (hr : Roster D d.before) (hd : Leaving d)
    (h : Host P R W) {slot : Nat} (hrole : d.task.role = .branch g slot)
    (hstatus : d.record.status ≠ .cancelled) (hg : d.before.groups.find? g = some group)
    (hsettle : (group.settle slot d.record.result).2 = none) :
    Counted (D ++ [d]) (d.after h) g (group.settle slot d.record.result).1 := by
  obtain ⟨hslot, hopen, -⟩ := hc.live d.id d.task slot hd.found hrole
  obtain ⟨v, hresult, hmode, hnoted, hleft⟩ := Group.settle_open hsettle
  rw [hnoted]
  -- the slots of other branches are not touched
  have hother : ∀ {i : Nat} {b}, group.branches[i]? = some b → b ≠ d.id →
      (group.results.set slot (some v))[i]? = group.results[i]? := by
    intro i b hi hb
    refine List.getElem?_set_ne fun heq => hb ?_
    rw [← heq, hslot] at hi
    exact (Option.some.inj hi).symm
  refine ⟨by simp [hc.size], hleft, fun b t' i ht' hrole' => ?_, fun e he i hrole' => ?_,
    fun i b hb => ?_⟩
  · obtain ⟨hne, t, ht, hsame, hparent, -⟩ := find_of_after d h ht'
    obtain ⟨hi, hnone, howner⟩ := hc.live b t i ht (hsame.symm.trans hrole')
    exact ⟨hi, (hother hi hne).trans hnone, hparent.trans howner⟩
  · rcases List.mem_append.1 he with he | he
    · obtain ⟨hi, hentered, hnone⟩ := hc.left e he i hrole'
      have hne : e.id ≠ d.id := by
        intro heq
        have hgone := (hr.gone e he).2
        rw [heq, hd.found] at hgone
        cases hgone
      have hsame := hother hi hne
      refine ⟨hi, ?_, hnone⟩
      rcases hentered with ⟨hcancelled, hi'⟩ | ⟨w, hall, hrecord, hi'⟩
      · exact Or.inl ⟨hcancelled, hsame.trans hi'⟩
      · exact Or.inr ⟨w, hall, hrecord, hsame.trans hi'⟩
    · obtain rfl := List.mem_singleton.1 he
      rw [hrole] at hrole'
      cases hrole'
      have hlt := (List.getElem?_eq_some_iff.1 hopen).1
      refine ⟨hslot, Or.inr ⟨v, hmode, record_of_ok hstatus hresult, by simp [hlt]⟩, ?_⟩
      simp [Departure.resolution?, hrole, hg, hsettle]
  · rcases hc.cast i b hb with ⟨t, ht, hrole'⟩ | ⟨e, he, hid, hrole'⟩
    · by_cases hne : b = d.id
      · subst hne
        obtain rfl := Option.some.inj (hd.found.symm.trans ht)
        exact Or.inr ⟨d, by simp, rfl, hrole'⟩
      · obtain ⟨t', ht', hsame, -⟩ := find_after d h hne ht
        exact Or.inl ⟨t', ht', hsame.trans hrole'⟩
    · exact Or.inr ⟨e, List.mem_append_left _ he, hid, hrole'⟩

/-- A group that is in the table after a departure did not hear of it, or took note of it. -/
theorem groups_after (d : Departure P R W) (h : Host P R W)
    (hg : (d.after h).groups.find? g = some group) :
    (d.before.groups.find? g = some group ∧
      ∀ slot, d.task.role = .branch g slot → d.record.status = .cancelled) ∨
    ∃ slot group₀, d.task.role = .branch g slot ∧ d.record.status ≠ .cancelled ∧
      d.before.groups.find? g = some group₀ ∧ (group₀.settle slot d.record.result).2 = none ∧
        group = (group₀.settle slot d.record.result).1 := by
  obtain ⟨r, -, hregrouped, hchanges⟩ := after_stages d h ∅
  have hr := hchanges.changed.groups g group hg
  generalize r.groups = groups at hregrouped hr
  cases hregrouped with
  | same hsilent =>
    refine Or.inl ⟨hr, fun slot hrole => (hsilent g slot hrole).resolve_right ?_⟩
    rw [hr]
    simp
  | @noted g₀ slot group₀ hrole hstatus hfind hsettle =>
    rw [Table.find?_modify] at hr
    split at hr
    · rename_i heq
      subst heq
      rw [hfind] at hr
      exact Or.inr ⟨slot, group₀, hrole, hstatus, hfind, hsettle, (Option.some.inj hr).symm⟩
    · rename_i hne
      refine Or.inl ⟨hr, fun slot' hrole' => ?_⟩
      rw [hrole] at hrole'
      cases hrole'
      exact absurd rfl hne
  | @resolved g₀ slot group₀ input hrole hstatus hfind hsettle =>
    rw [Table.find?_erase] at hr
    split at hr
    · cases hr
    · rename_i hne
      refine Or.inl ⟨hr, fun slot' hrole' => ?_⟩
      rw [hrole] at hrole'
      cases hrole'
      exact absurd rfl hne

theorem Tally.leave (ht : Tally D d.before) (hr : Roster D d.before) (hd : Leaving d)
    (h : Host P R W) : Tally (D ++ [d]) (d.after h) := by
  have hnext : (d.after h).nextGroup = d.before.nextGroup := by
    obtain ⟨r, hready, -, hchanges⟩ := after_stages d h ∅
    rw [hchanges.changed.nextGroup, hready.nextGroup, nextGroup_filed]
  refine ⟨fun g group hg => ?_, fun b t' g slot ht' hrole => ?_, fun e he g slot hrole => ?_,
    fun g group hg => ?_⟩
  · rw [hnext]
    rcases groups_after d h hg with ⟨hg, -⟩ | ⟨slot, group₀, -, -, hg, -⟩
    · exact ht.numbered g group hg
    · exact ht.numbered g group₀ hg
  · rw [hnext]
    obtain ⟨-, t, hb, hsame, -⟩ := find_of_after d h ht'
    exact ht.live b t g slot hb (hsame.symm.trans hrole)
  · rw [hnext]
    rcases List.mem_append.1 he with he | he
    · exact ht.left e he g slot hrole
    · obtain rfl := List.mem_singleton.1 he
      exact ht.live e.id e.task g slot hd.found hrole
  · rcases groups_after d h hg with
      ⟨hg, hsilent⟩ | ⟨slot, group₀, hrole, hstatus, hg, hsettle, heq⟩
    · exact (ht.counted g group hg).leave hd h hsilent
    · rw [heq]
      exact (ht.counted g group₀ hg).note hr hd h hrole hstatus hg hsettle

theorem Tally.empty (world : W) : Tally [] ({ world } : Scheduler P R W) := by
  refine ⟨fun g group hg => ?_, fun b t g slot ht => ?_, by simp, fun g group hg => ?_⟩
  · cases hg
  · cases ht
  · cases hg

theorem Run.tally_along (run : Run h log s) : Tally (settlements h log) s ∧
    ∀ D d D', settlements h log = D ++ d :: D' → Tally D d.before := by
  let K : List (Departure P R W) → Scheduler P R W → Prop := fun D s => Roster D s ∧ Tally D s
  have halong := run.along (K := K) (fun world => ⟨.empty world, .empty world⟩)
    (fun hK => ⟨hK.1.pop, hK.2.of_tables rfl rfl rfl⟩)
    (fun hK hchange => ⟨hK.1.change hchange, hK.2.changed hchange.changed⟩)
    (fun {D r id mode effects} hK ht hl hne => ?_)
    (fun hK hd => ⟨hK.1.leave hd, hK.2.leave hK.1 hd h⟩)
  · exact ⟨halong.1.2, fun D d D' hD => (halong.2 D d D' hD).1.2⟩
  · obtain ⟨branches, hstarted⟩ := started_startGroup ht hl mode hne
    have hsteady : Steady ∅ r (r.startGroup id mode effects) := steady_startGroup ht hl mode effects
    exact ⟨hK.1.startGroup ht hl mode effects,
      hK.2.started hstarted (ht.startGroup hl mode effects).forest hsteady hne⟩

theorem Run.tally (run : Run h log s) : Tally (settlements h log) s := run.tally_along.1

/-! ## Owners that wait -/

/-- What resolves a group is one of its branches, and it was live until then. -/
theorem Run.resolved_by_branch (run : Run h log s) (hd : d ∈ settlements h log) {input : Input}
    (hresolved : d.resolution? g = some input) : ∃ slot group,
      d.task.role = .branch g slot ∧ d.record.status ≠ .cancelled ∧
      d.before.groups.find? g = some group ∧
      (group.settle slot d.record.result).2 = some input ∧ group.branches[slot]? = some d.id := by
  obtain ⟨slot, group, hrole, hstatus, hg, hsettle⟩ := Departure.resolution?_eq_some.1 hresolved
  obtain ⟨D, D', hD⟩ := List.append_of_mem hd
  have hcounted := (run.tally_along.2 D d D' hD).counted g group hg
  have hfound := (run.leaving hd).found
  exact ⟨slot, group, hrole, hstatus, hg, hsettle, (hcounted.live d.id _ slot hfound hrole).1⟩

/-- A task that has left does not leave again. -/
theorem Run.left_once (run : Run h log s) {ms : List (Move P)} {e : Departure P R W}
    (he : e ∈ settlements h log) (hd : d ∈ settlements h (s.history h ms)) : e.id ≠ d.id := by
  have honce := (run.moves ms).roster.once
  rw [settlements_append, List.map_append, List.nodup_append] at honce
  exact honce.2.2 e.id (List.mem_map_of_mem he) d.id (List.mem_map_of_mem hd)

/-- A group without live branches is not resolved any more. -/
theorem Run.deserted (run : Run h log s) (hg : s.groups.find? g = some group)
    (hnone : ∀ b ∈ group.branches, ¬s.isLive b) (ms : List (Move P)) :
    ∀ d ∈ settlements h (s.history h ms), d.resolution? g = none := by
  intro d hd
  by_contra hresolved
  obtain ⟨input, hresolved⟩ := Option.ne_none_iff_exists'.1 hresolved
  obtain ⟨slot, group', -, -, hg', -, hslot⟩ :=
    (run.moves ms).resolved_by_branch (by simp [hd]) hresolved
  rw [(run.group_before hg ms hd hg').2.2] at hslot
  rcases (run.tally.counted g group hg).cast slot d.id hslot with ⟨t, ht, -⟩ | ⟨e, he, hid, -⟩
  · exact hnone d.id (List.mem_of_getElem? hslot) (by simp [isLive_eq, ht])
  · exact run.left_once he hd hid

/-- A task waits for a group: some result is missing, and every branch is live and yet to report, or
it left and its record is entered. No branch is live if and only if all whose results are missing
settled cancelled, and then nothing but its signal ends the waiting of the task. -/
theorem Run.group_waits (run : Run h log s) (hw : s.wait? owner = some (.group g)) :
    ∃ group, s.groups.find? g = some group ∧ group.owner = owner ∧
      (∃ (slot : Nat) (b : TaskId), group.branches[slot]? = some b ∧
        group.results[slot]? = some none) ∧
      (∀ (slot : Nat) b, group.branches[slot]? = some b →
        (∃ t, s.task? b = some t ∧ t.parent = some owner ∧ t.role = .branch g slot ∧
          group.results[slot]? = some none) ∨
        ∃ d ∈ settlements h log, d.id = b ∧ Entered group slot d.record) ∧
      ((∀ b ∈ group.branches, ¬s.isLive b) ↔
        ∀ (slot : Nat) b, group.branches[slot]? = some b → group.results[slot]? = some none →
          ∃ d ∈ settlements h log, d.id = b ∧ d.record.status = .cancelled) ∧
      ((∀ b ∈ group.branches, ¬s.isLive b) → ∀ ms,
        (s.moves h ms).wait? owner = some (.group g) ∨ Signalled s (s.moves h ms) owner) := by
  obtain ⟨group, hg, howner⟩ := ((run.coherent.registered owner).group g).1 hw
  have hcounted := run.tally.counted g group hg
  have hgone : ∀ d ∈ settlements h log, ¬s.isLive d.id := by
    intro d hd
    simp [isLive_eq, (run.roster.gone d hd).2]
  refine ⟨group, hg, howner, ?_, fun slot b hb => ?_, ⟨fun hnone slot b hb hopen => ?_,
    fun hcancelled b hb hl => ?_⟩, fun hnone ms => ?_⟩
  · obtain ⟨slot, hopen⟩ := hcounted.unfinished
    have hlt := (List.getElem?_eq_some_iff.1 hopen).1
    rw [hcounted.size] at hlt
    exact ⟨slot, _, List.getElem?_eq_getElem hlt, hopen⟩
  · rcases hcounted.cast slot b hb with ⟨t, ht, hrole⟩ | ⟨d, hd, hid, hrole⟩
    · obtain ⟨-, hopen, hparent⟩ := hcounted.live b t slot ht hrole
      exact Or.inl ⟨t, ht, hparent.trans (congrArg some howner), hrole, hopen⟩
    · exact Or.inr ⟨d, hd, hid, (hcounted.left d hd slot hrole).2.1⟩
  · rcases hcounted.cast slot b hb with ⟨t, ht, -⟩ | ⟨d, hd, hid, hrole⟩
    · exact absurd (by simp [isLive_eq, ht]) (hnone b (List.mem_of_getElem? hb))
    · rcases (hcounted.left d hd slot hrole).2.1 with ⟨hstatus, -⟩ | ⟨v, -, -, hslot⟩
      · exact ⟨d, hd, hid, hstatus⟩
      · rw [hopen] at hslot
        cases hslot
  · obtain ⟨slot, hslot⟩ := List.mem_iff_getElem?.1 hb
    rcases hcounted.cast slot b hslot with ⟨t, ht, hrole⟩ | ⟨d, hd, rfl, -⟩
    · obtain ⟨-, hopen, -⟩ := hcounted.live b t slot ht hrole
      obtain ⟨d, hd, rfl, -⟩ := hcancelled slot b hslot hopen
      exact hgone d hd hl
    · exact hgone d hd hl
  · rcases run.owner_waits hw ms with hw' | ⟨d, hd, hresolved⟩ | hsignalled
    · exact Or.inl hw'
    · simp [run.deserted hg hnone ms d hd] at hresolved
    · exact Or.inr hsignalled

/-- Both branches of a gatherer are cancelled, one after the other. -/
def deserted : Scheduler Play Unit Unit :=
  stageAfter [.enroll .gatherer [], .step, .step, .step, .cancel ⟨2⟩, .step, .cancel ⟨3⟩, .step]

/-- The gatherer waits for its group until it is signalled. -/
theorem group_waits_gatherer : deserted.wait? ⟨1⟩ = some (.group ⟨1⟩) ∧
    ∀ ms, (deserted.moves stage ms).wait? ⟨1⟩ = some (.group ⟨1⟩) ∨
      Signalled deserted (deserted.moves stage ms) ⟨1⟩ := by
  have run := stageAfter_run
    [.enroll .gatherer [], .step, .step, .step, .cancel ⟨2⟩, .step, .cancel ⟨3⟩, .step]
  have hw : deserted.wait? ⟨1⟩ = some (.group ⟨1⟩) := rfl
  obtain ⟨group, hg, -, -, -, -, hstays⟩ := run.group_waits hw
  have hbranches : group.branches = [⟨2⟩, ⟨3⟩] :=
    (congrArg Group.branches (Option.some.inj hg)).symm
  refine ⟨hw, hstays ?_⟩
  rw [hbranches]
  decide

/-- A task may wait for a group of which no branch is live. -/
theorem not_always_resolvable :
    ¬∀ (log : List (Scheduler Play Unit Unit × Move Play)) (s : Scheduler Play Unit Unit)
      (owner : TaskId) (g : GroupId) (group : Group), Run stage log s →
      s.wait? owner = some (.group g) → s.groups.find? g = some group →
      ∃ b ∈ group.branches, s.isLive b := by
  intro hall
  obtain ⟨group, hg⟩ := Option.isSome_iff_exists.1
    (show (deserted.groups.find? ⟨1⟩).isSome from rfl)
  have hbranches : group.branches = [⟨2⟩, ⟨3⟩] :=
    (congrArg Group.branches (Option.some.inj hg)).symm
  obtain ⟨b, hb, hl⟩ := hall _ deserted ⟨1⟩ ⟨1⟩ group (stageAfter_run _) rfl hg
  rw [hbranches] at hb
  have hnone : ∀ b ∈ ([⟨2⟩, ⟨3⟩] : List TaskId), deserted.isLive b = false := by decide
  rw [hnone b hb] at hl
  cases hl

end CoopTasks.Scheduler
