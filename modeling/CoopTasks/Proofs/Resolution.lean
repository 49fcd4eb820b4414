import CoopTasks.Proofs.Idempotence
import CoopTasks.Proofs.Precedence
import CoopTasks.Proofs.Tally

/-!
# What resolves a group

The branch that resolves a group leaves its answer in the queue for the owner, and cancels the other
branches. The answer is the one that the results of the branches call for, and no branch resolves
the group again. The cancelled branches are stepped with their signals before the owner goes on, and
none of them yields its effect any more.
-/

namespace CoopTasks

namespace Group

/-- A value that resolves a group is the list of all results, or the first one under its key. -/
theorem settle_value {group : Group} {slot : Nat} {outcome : Outcome} {v : Value}
    (hsettle : (group.settle slot outcome).2 = some (.value v)) : ∃ w, outcome = .ok w ∧
      (group.mode = .all ∧ (group.results.set slot (some w)).all Option.isSome ∧
          v = .list ((group.results.set slot (some w)).filterMap id) ∨
        ∃ keys, group.mode = .race keys ∧ v = .keyed (keys.getD slot "") w) := by
  unfold settle at hsettle
  split at hsettle
  · cases hsettle
  · rename_i w keys hmode
    cases hsettle
    exact ⟨w, rfl, Or.inr ⟨keys, hmode, rfl⟩⟩
  · rename_i w hmode
    dsimp only at hsettle
    split at hsettle
    · rename_i hall
      cases hsettle
      exact ⟨w, rfl, Or.inl ⟨hmode, hall, rfl⟩⟩
    · cases hsettle

/-- The results of a group are related to its branches as soon as they are one by one. -/
theorem forall₂_filterMap {α β : Type} {R : α → β → Prop} {as : List α} {results : List (Option β)}
    (hlength : results.length = as.length)
    (hresults : ∀ (i : Nat) a, as[i]? = some a → ∃ b, results[i]? = some (some b) ∧ R a b) :
    List.Forall₂ R as (results.filterMap id) := by
  induction as generalizing results with
  | nil =>
    obtain rfl := List.length_eq_zero_iff.1 hlength
    exact .nil
  | cons a rest ih =>
    cases results with
    | nil => cases hlength
    | cons result results =>
      obtain ⟨b, hb, hab⟩ := hresults 0 a rfl
      obtain rfl : result = some b := by simpa using hb
      exact .cons hab (ih (by simpa using hlength) fun i a' ha' => hresults (i + 1) a' ha')

end Group

namespace Scheduler

variable {P R W : Type} {s s' r : Scheduler P R W} {h : Host P R W}
variable {A : Set TaskId} {D E : List (Departure P R W)} {d : Departure P R W}
variable {id owner b : TaskId} {g : GroupId} {group : Group} {mode : GroupMode}
variable {effects : List (Effect P W)} {branches : List TaskId} {input : Input}
variable {log : List (Scheduler P R W × Move P)}

/-! ## Trees that are cancelled -/

theorem beingCancelled_foldl_of_not_mem (ids : List TaskId) (s : Scheduler P R W) (hid : id ∉ ids) :
    (ids.foldl signal s).beingCancelled id = s.beingCancelled id := by
  induction ids generalizing s with
  | nil => rfl
  | cons j rest ih =>
    have hj : id ≠ j := fun heq => hid (by simp [heq])
    exact (ih (s.signal j) fun hm => hid (List.mem_cons_of_mem _ hm)).trans
      (beingCancelled_signal_of_ne s hj)

/-- Of the trees that are cancelled every task is signalled, and no other is. -/
theorem beingCancelled_cancelSubtrees (hf : Forest s) (roots : List TaskId) :
    ((∀ root ∈ roots, id ∉ s.subtree root) →
      (s.cancelSubtrees roots).beingCancelled id = s.beingCancelled id) ∧
    ((∃ root ∈ roots, id ∈ s.subtree root) → (s.cancelSubtrees roots).beingCancelled id) := by
  induction roots generalizing s with
  | nil => exact ⟨fun _ => rfl, by simp⟩
  | cons first rest ih =>
    have htree := (quiet_cancelSubtree s first).tree
    have hf' := hf.congr htree.shape
    have hsame : ∀ root, id ∈ (s.cancelSubtree first).subtree root ↔ id ∈ s.subtree root := by
      intro root
      rw [hf'.mem_subtree, hf.mem_subtree, htree.isLive]
      exact and_congr_right fun _ =>
        ⟨fun hb => hb.congr fun j => (htree.shape.parent j).symm, fun hb => hb.congr htree.shape.parent⟩
    obtain ⟨hothers, hbelow⟩ := ih hf'
    refine ⟨fun hnot => ?_, fun ⟨root, hm, hin⟩ => ?_⟩
    · obtain ⟨hfirst, hrest⟩ := List.forall_mem_cons.1 hnot
      have hkept := beingCancelled_foldl_of_not_mem _ s (mt List.mem_reverse.1 hfirst)
      exact (hothers fun root hm hin => hrest root hm ((hsame root).1 hin)).trans hkept
    · rcases List.mem_cons.1 hm with rfl | hm
      · have hl := hf.isLive_of_mem_subtree hin
        have hquiet := quiet_cancelSubtrees (s.cancelSubtree root) rest
        have hfresh : id.val < (s.cancelSubtree root).nextTask := by
          rw [htree.next]
          exact hf.fresh id hl
        exact hquiet.later.beingCancelled hfresh (by rwa [hquiet.tree.isLive, htree.isLive])
          (beingCancelled_cancelSubtree hf hin)
      · exact hbelow ⟨root, hm, (hsame root).2 hin⟩

/-- A task that is older than the roots is not signalled. -/
theorem beingCancelled_cancelSubtrees_of_older (hf : Forest s) (roots : List TaskId)
    (holder : ∀ b ∈ roots, s.isLive b → id.val < b.val) :
    (s.cancelSubtrees roots).beingCancelled id = s.beingCancelled id := by
  refine (beingCancelled_cancelSubtrees hf roots).1 fun b hb hm => ?_
  obtain ⟨hl, hbelow⟩ := (hf.mem_subtree b id).1 hm
  have hlt := holder b hb (hf.isLive_above hbelow hl)
  exact absurd (hf.le_of_below hbelow) (Nat.not_le.2 hlt)

theorem beingCancelled_cancelSubtrees_of_mem (hf : Forest s) {roots : List TaskId} (hb : b ∈ roots)
    (hl : s.isLive b) : (s.cancelSubtrees roots).beingCancelled b :=
  (beingCancelled_cancelSubtrees hf roots).2 ⟨b, hb, (hf.mem_subtree b b).2 ⟨hl, .self⟩⟩

/-! ## The moment of the resolution -/

/-- The state in which the owner of a group is woken: nobody has been signalled yet. -/
structure Woke (d : Departure P R W) (h : Host P R W) (owner : TaskId) (input : Input)
    (r : Scheduler P R W) : Prop where
  tree : SameTree (d.cleared h) r
  calm : ∀ j, j ≠ d.id → r.beingCancelled j = d.before.beingCancelled j
  first : (owner, input) ∈ r.queue

/-- The owner of the group is woken, and then the branches are cancelled. -/
theorem Leaving.woke (hd : Leaving d) (h : Host P R W) {slot : Nat}
    (hrole : d.task.role = .branch g slot) (hstatus : d.record.status ≠ .cancelled)
    (hg : d.before.groups.find? g = some group) (hne : d.id ≠ group.owner)
    (hsettle : (group.settle slot d.record.result).2 = some input) :
    ∃ r, Woke d h group.owner input r ∧ d.after h = r.cancelSubtrees group.branches := by
  have heq : d.after h = (d.filed h).settleBranch g slot d.record.result := by
    simp [d.after_eq h, deliver, hrole, hstatus]
  have hgroups : (d.filed h).groups.find? g = some group := by rwa [groups_filed]
  have hparked : (d.filed h).wait? group.owner = some (.group g) := by
    obtain ⟨L, hc⟩ := hd.coherent
    have hbefore := ((hc.registered group.owner).group g).2 ⟨group, hg, rfl⟩
    have hcleared : (d.cleared h).wait? group.owner = some (.group g) :=
      (wait?_remove d.before d.id d.task.parent group.owner).trans
        ((if_neg (Ne.symm hne)).trans hbefore)
    rw [Departure.filed, wait?_answerJoiners_of_ne _ _ _ (by simp [hcleared]), hcleared]
  rcases settleBranch_cases (d.filed h) g slot d.record.result with
    ⟨hnone, -⟩ | ⟨group', hg', hcase⟩
  · rw [hnone] at hgroups
    cases hgroups
  obtain rfl := Option.some.inj (hgroups.symm.trans hg')
  rcases hcase with ⟨hnone, -⟩ | ⟨input', hinput, hsettled⟩
  · rw [hnone] at hsettle
    cases hsettle
  obtain rfl := Option.some.inj (hsettle.symm.trans hinput)
  let q : Scheduler P R W := { d.filed h with groups := (d.filed h).groups.erase g }
  have hwoken := woken_wakeIfWaiting q group.owner (.group g) input
  have htree : SameTree (d.cleared h) (d.filed h) := (quiet_answerJoiners ..).tree
  have hq : SameTree (d.filed h) q := .of_tasks rfl rfl
  refine ⟨q.wakeIfWaiting group.owner (.group g) input, ⟨?_, fun j hj => ?_, ?_⟩,
    heq.trans hsettled⟩
  · exact (htree.trans hq).trans (quiet_wakeIfWaiting q group.owner (.group g) input).tree
  · exact (beingCancelled_of_verdict (hwoken.verdict j)).trans (beingCancelled_filed d h hj)
  · have hw : q.wait? group.owner = some (.group g) := hparked
    rw [wakeIfWaiting, if_pos hw]
    exact List.mem_cons_self

/-- What a resolution leaves behind: the answer of the owner, the other branches being cancelled,
and the signals ahead of the answer. -/
structure Resolution (d : Departure P R W) (h : Host P R W) (owner : TaskId)
    (branches : List TaskId) (input : Input) : Prop where
  answered : (owner, input) ∈ (d.after h).queue
  losers : ∀ b ∈ branches, (d.after h).isLive b → (d.after h).beingCancelled b
  ahead : ∀ b ∈ branches, b ≠ d.id → ∀ t, d.before.task? b = some t → t.process.isSome →
    t.cancelling = false → Ahead (d.after h) (b, .error (.cancelled b)) (owner, input)

theorem Leaving.resolution (hd : Leaving d) (h : Host P R W) {slot : Nat}
    (hrole : d.task.role = .branch g slot) (hstatus : d.record.status ≠ .cancelled)
    (hg : d.before.groups.find? g = some group)
    (hsettle : (group.settle slot d.record.result).2 = some input)
    (hparent : d.task.parent = some group.owner)
    (hkin : ∀ b ∈ group.branches, d.before.isLive b → d.before.parent? b = some group.owner) :
    Resolution d h group.owner group.branches input := by
  have hne : d.id ≠ group.owner := by
    intro heq
    have holder := hd.forest.older d.id group.owner (by simp [parent?, hd.found, hparent])
    rw [heq] at holder
    exact Nat.lt_irrefl _ holder
  obtain ⟨r, hwoke, hafter⟩ := hd.woke h hrole hstatus hg hne hsettle
  have hforest : Forest r := (hd.forest.retire h hd.found hd.done).congr
    ((sameTree_after d h).symm.trans hwoke.tree).shape
  have hlive : ∀ b, (d.after h).isLive b = r.isLive b := fun b => by
    rw [hafter, (quiet_cancelSubtrees _ _).tree.isLive]
  have holder : ∀ b ∈ group.branches, r.isLive b → group.owner.val < b.val := by
    intro b hb hl
    rw [← hlive, isLive_after, Bool.and_eq_true] at hl
    exact hd.forest.older b group.owner (hkin b hb hl.2)
  have hsame : (d.after h).beingCancelled group.owner = r.beingCancelled group.owner := by
    rw [hafter]
    exact beingCancelled_cancelSubtrees_of_older hforest _ holder
  have hchanges : Changes ∅ r.plain r (d.after h) := hafter ▸ changes_cancelSubtrees r _
  refine ⟨?_, fun b hb hl => ?_, fun b hb hbne t ht hp hcalm => ?_⟩
  · exact List.singleton_sublist.1 (hchanges.sublist_queue (List.singleton_sublist.2 hwoke.first)
      (by simpa using hsame))
  · rw [hlive] at hl
    rw [hafter]
    exact beingCancelled_cancelSubtrees_of_mem hforest hb hl
  · obtain ⟨children, hu⟩ := find_cleared d h hbne ht
    obtain ⟨v, hv, hstill⟩ := hwoke.tree.find hu
    have hprocess : v.process.isSome := by rwa [Task.process_of_still hstill]
    have hl : r.isLive b := by simp [isLive_eq, hv]
    refine hchanges.signal_ahead (Set.notMem_empty b) hv hprocess ?_ ?_ hwoke.first hsame
    · rw [hwoke.calm b hbne, beingCancelled_eq ht, hcalm]
    · rw [hafter]
      exact beingCancelled_cancelSubtrees_of_mem hforest hb hl

/-! ## The answer that is due -/

/-- What the branches of a group call for when one of them leaves and resolves it: the results of
all, the first result under its key, or the first failure. -/
inductive Due (earlier : List (Departure P R W)) (d : Departure P R W) (branches : List TaskId) :
    GroupMode → Input → Prop where
  | all {vs : List Value} :
      List.Forall₂ (fun b v => ∃ e ∈ earlier ++ [d], e.record = ⟨b, .completed, .ok v⟩) branches vs →
      Due earlier d branches .all (.value (.list vs))
  | race {keys : List String} {slot : Nat} {key : String} {v : Value} :
      branches[slot]? = some d.id → keys[slot]? = some key → d.record = ⟨d.id, .completed, .ok v⟩ →
      (∀ e ∈ earlier, e.id ∈ branches → e.record.status = .cancelled) →
      Due earlier d branches (.race keys) (.value (.keyed key v))
  | failure {mode : GroupMode} {error : TaskError} : d.id ∈ branches →
      d.record = ⟨d.id, .failed, .error error⟩ →
      (∀ e ∈ earlier, e.id ∈ branches → e.record.status ≠ .failed) →
      Due earlier d branches mode (.error error)

/-- A task of the list of branches that is live is a branch of the group. -/
theorem Counted.of_live (hc : Counted D s g group) (hr : Roster D s) (hb : b ∈ group.branches)
    (hl : s.isLive b) : ∃ slot t, s.task? b = some t ∧ t.role = .branch g slot ∧
      t.parent = some group.owner := by
  obtain ⟨slot, hslot⟩ := List.mem_iff_getElem?.1 hb
  rcases hc.cast slot b hslot with ⟨t, ht, hrole⟩ | ⟨e, he, rfl, -⟩
  · exact ⟨slot, t, ht, hrole, (hc.live b t slot ht hrole).2.2⟩
  · rw [isLive_eq, (hr.gone e he).2] at hl
    cases hl

/-- What left as a branch of the group is entered in the results. -/
theorem Counted.entered (hc : Counted D s g group) (hr : Roster D s) {e : Departure P R W}
    (he : e ∈ D) (hb : e.id ∈ group.branches) :
    ∃ slot : Nat, group.branches[slot]? = some e.id ∧ Entered group slot e.record := by
  obtain ⟨slot, hslot⟩ := List.mem_iff_getElem?.1 hb
  rcases hc.cast slot e.id hslot with ⟨t, ht, -⟩ | ⟨e', he', hid, hrole⟩
  · rw [(hr.gone e he).2] at ht
    cases ht
  · obtain rfl := List.inj_on_of_nodup_map hr.once he' he hid
    exact ⟨slot, hslot, (hc.left e' he' slot hrole).2.1⟩

/-- A branch that left earlier and was not cancelled has completed, and the group is an ALL. -/
theorem Counted.earlier (hc : Counted D s g group) (hr : Roster D s) {e : Departure P R W}
    (he : e ∈ D) (hb : e.id ∈ group.branches) :
    e.record.status = .cancelled ∨ group.mode = .all ∧ e.record.status ≠ .failed := by
  obtain ⟨-, -, ⟨hcancelled, -⟩ | ⟨v, hall, hrecord, -⟩⟩ := hc.entered hr he hb
  · exact Or.inl hcancelled
  · exact Or.inr ⟨hall, by simp [congrArg Settlement.status hrecord]⟩

/-- The results of an ALL are those of its branches. -/
theorem Counted.results (hc : Counted D d.before g group)
    (hE : ∀ e ∈ D, e.id ∈ group.branches → e ∈ E) {slot : Nat} {w : Value}
    (hslot : group.branches[slot]? = some d.id)
    (hrecord : d.record = ⟨d.id, .completed, .ok w⟩)
    (hall : (group.results.set slot (some w)).all Option.isSome) :
    List.Forall₂ (fun b v => ∃ e ∈ E ++ [d], e.record = ⟨b, .completed, .ok v⟩) group.branches
      ((group.results.set slot (some w)).filterMap fun result => result) := by
  refine Group.forall₂_filterMap (by simp [hc.size]) fun i b hb => ?_
  have hlt : i < (group.results.set slot (some w)).length := by
    rw [List.length_set, hc.size]
    exact (List.getElem?_eq_some_iff.1 hb).1
  obtain ⟨v, hv⟩ := Option.isSome_iff_exists.1 (List.all_eq_true.1 hall _ (List.getElem_mem hlt))
  have hget : (group.results.set slot (some w))[i]? = some (some v) := by
    rw [List.getElem?_eq_getElem hlt, hv]
  refine ⟨v, hget, ?_⟩
  by_cases hi : slot = i
  · -- the branch that leaves now
    subst hi
    obtain rfl := Option.some.inj (hb.symm.trans hslot)
    rw [List.getElem?_set_self (by simpa using hlt)] at hget
    cases hget
    exact ⟨d, by simp, hrecord⟩
  · rw [List.getElem?_set_ne hi] at hget
    rcases hc.cast i b hb with ⟨t, ht, hrole⟩ | ⟨e, he, rfl, hrole⟩
    · rw [(hc.live b t i ht hrole).2.1] at hget
      cases hget
    · obtain ⟨-, ⟨-, hopen⟩ | ⟨v', -, hrecord', hresult⟩, -⟩ := hc.left e he i hrole
      · rw [hopen] at hget
        cases hget
      · rw [hresult] at hget
        cases hget
        exact ⟨e, List.mem_append_left _ (hE e he (List.mem_of_getElem? hb)), hrecord'⟩

/-- A group resolves with the answer that is due. -/
theorem Counted.due (hc : Counted D d.before g group) (hr : Roster D d.before) (hd : Leaving d)
    (hE : ∀ e ∈ D, e.id ∈ group.branches → e ∈ E) (hD : ∀ e ∈ E, e ∈ D) {slot : Nat}
    (hrole : d.task.role = .branch g slot) (hstatus : d.record.status ≠ .cancelled)
    (hkeys : ∀ keys, group.mode = .race keys → keys.length = group.branches.length)
    (hsettle : (group.settle slot d.record.result).2 = some input) :
    Due E d group.branches group.mode input := by
  have hslot := (hc.live d.id d.task slot hd.found hrole).1
  have hearlier := fun e he hb => hc.earlier hr (hD e he) hb
  cases input with
  | error error =>
    have hrecord := record_of_error hstatus (Group.settle_error hsettle)
    refine .failure (List.mem_of_getElem? hslot) hrecord fun e he hb => ?_
    rcases hearlier e he hb with hcancelled | ⟨-, hnot⟩
    · rw [hcancelled]
      simp
    · exact hnot
  | value v =>
    obtain ⟨w, hresult, ⟨hmode, hall, rfl⟩ | ⟨keys, hmode, rfl⟩⟩ := Group.settle_value hsettle
    · rw [hmode]
      exact .all (hc.results hE hslot (record_of_ok hstatus hresult) hall)
    · rw [hmode]
      have hlt : slot < keys.length := by
        rw [hkeys keys hmode]
        exact (List.getElem?_eq_some_iff.1 hslot).1
      have hkey : keys[slot]? = some (keys.getD slot "") := by
        rw [List.getD_eq_getElem?_getD, List.getElem?_eq_getElem hlt]
        rfl
      refine .race hslot hkey (record_of_ok hstatus hresult) fun e he hb => ?_
      refine (hearlier e he hb).resolve_right fun hall => ?_
      rw [hmode] at hall
      cases hall.1

end Scheduler

end CoopTasks
