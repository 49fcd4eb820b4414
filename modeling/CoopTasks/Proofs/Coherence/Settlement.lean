import CoopTasks.Proofs.Coherence

/-!
# Cancellation and settlement keep coherence

A signal puts a task down in the queue, wherever it was before. The settlement of a task takes up
those that wait for it, and puts each of them down again when it is answered.
-/

namespace CoopTasks.Scheduler

variable {P R W : Type} {s s' : Scheduler P R W} {h : Host P R W} {L X : Set TaskId}

theorem Sound.withdraw (hn : Sound s) (id : TaskId) (wait : Wait) :
    Sound (s.withdraw id wait) := by
  have hmodify : ∀ c, Sound { s with channels := s.channels.modify c (·.withdraw id) } := by
    intro c
    have hfind : ∀ d channel, (s.channels.modify c (·.withdraw id)).find? d = some channel →
        ∃ old, s.channels.find? d = some old ∧ (channel = old ∨ channel = old.withdraw id) := by
      intro d channel hd
      rw [Table.find?_modify] at hd
      split at hd
      · obtain ⟨old, hold, rfl⟩ := Option.map_eq_some_iff.1 hd
        exact ⟨old, hold, Or.inr rfl⟩
      · exact ⟨channel, hd, Or.inl rfl⟩
    refine ⟨fun d channel hd => ?_, hn.groups, fun d channel hd hclosed => ?_⟩
    · obtain ⟨old, hold, -⟩ := hfind d channel hd
      exact hn.channels d old hold
    · obtain ⟨old, hold, rfl | rfl⟩ := hfind d channel hd
      · exact hn.closed d channel hold hclosed
      · obtain ⟨htakers, hputters⟩ := hn.closed d old hold hclosed
        exact ⟨by simp [Channel.withdraw, htakers], by simp [Channel.withdraw, hputters]⟩
  cases wait with
  | channelTake c => exact hmodify c
  | channelPut c => exact hmodify c
  | group g =>
    refine ⟨hn.channels, fun g' group hg => ?_, hn.closed⟩
    simp only [Scheduler.withdraw, Table.find?_erase] at hg
    split at hg
    · cases hg
    · exact hn.groups g' group hg
  | _ => exact ⟨hn.channels, hn.groups, hn.closed⟩

theorem Sound.mark (hn : Sound s) (id : TaskId) (t : Task P R W) (wait : Wait) :
    Sound (s.mark id t wait) := by
  have hflag : Sound (s.updateTask id fun t => { t with cancelling := true, wait }) :=
    hn.of_tables rfl rfl rfl rfl
  exact (hflag.withdraw id t.wait).of_tables rfl rfl rfl rfl

theorem beingCancelled_eq {id : TaskId} {t : Task P R W} (ht : s.task? id = some t) :
    s.beingCancelled id = t.cancelling := by
  simp [beingCancelled, ht]

theorem Untouched.beingCancelled {id : TaskId} (hu : Untouched s s' id) :
    s'.beingCancelled id = s.beingCancelled id := by
  cases ht' : s'.task? id with
  | none =>
    have hs := hu.stance
    rw [ht', Option.map_none, eq_comm, Option.map_eq_none_iff] at hs
    simp [Scheduler.beingCancelled, ht', hs]
  | some t' =>
    obtain ⟨t, ht, -, -, -, hc⟩ := hu.find ht'
    rw [beingCancelled_eq ht', beingCancelled_eq ht, hc]

/-- A task that is not being cancelled can be taken off its wait without harm to another. -/
theorem Coherent.owner_of_wait (hc : Coherent s L X) (hX : ∀ j ∈ X, s.wait? j = some .nothing)
    {id : TaskId} (hlost : id ∉ L) {t : Task P R W} (ht : s.task? id = some t) :
    (∀ g group, t.wait = .group g → s.groups.find? g = some group → group.owner = id) ∧
      ∀ w, w ≠ .nothing → w ≠ t.wait → id ∉ s.waiters w := by
  have hwait : s.wait? id = some t.wait := by simp [wait?, ht]
  by_cases hX' : id ∈ X
  · refine ⟨fun g group hg => ?_, fun w _ _ => (hc.loose id hX').place w⟩
    have := hX id hX'
    simp [hwait, hg] at this
  · have hplace := (hc.home id hlost hX').place
    refine ⟨fun g group hg hfind => ?_, fun w _ hw => ?_⟩
    · have hcount := hplace (.group g)
      rw [hwait, hg] at hcount
      simpa [waiters, hfind, List.count_singleton, Wait.isListed] using hcount
    · rw [← List.count_eq_zero, hplace, hwait]
      simp [Ne.symm hw]

theorem Coherent.lost_of_calm (hc : Coherent s L X) {id : TaskId} {t : Task P R W}
    (ht : s.task? id = some t) (hcalm : t.cancelling = false) : id ∉ L := by
  intro hid
  obtain ⟨u, hu, -, hcancel, -⟩ := (hc.lost id hid).live
  rw [ht] at hu
  cases hu
  rw [hcalm] at hcancel
  cases hcancel

/-- A live task is put down with its signal queued. -/
theorem Coherent.markQueued (hc : Coherent s L X) (hX : ∀ j ∈ X, s.wait? j = some .nothing)
    {id : TaskId} {t : Task P R W} (ht : s.task? id = some t) (hcalm : t.cancelling = false)
    (hp : t.process.isSome) (input : Input) :
    Coherent ((s.mark id t .nothing).enqueueFirst id input) L (X \ {id}) ∧
      ∀ j, j ≠ id → Untouched s ((s.mark id t .nothing).enqueueFirst id input) j := by
  have hlost := hc.lost_of_calm ht hcalm
  obtain ⟨hgroup, hplace⟩ := hc.owner_of_wait hX hlost ht
  have hstance := stance_mark ht .nothing
  have hrest : ∀ j, j ≠ id → Untouched s ((s.mark id t .nothing).enqueueFirst id input) j :=
    fun j hj =>
      (untouched_mark s id t .nothing hgroup hj).trans (untouched_enqueueFirst _ id input hj)
  refine ⟨hc.putDown hlost ((hc.sound.mark id t .nothing).of_tables rfl rfl rfl rfl)
    ((sameTree_mark s id t .nothing).trans (quiet_enqueueFirst _ id input).tree).called hrest ?_ ?_,
    hrest⟩
  · intro u hu
    have hs : u.stance = (t.process, .nothing, t.status, true) := by
      have hu' : (s.mark id t .nothing).task? id = some u := hu
      simpa [hu'] using hstance
    simp only [Task.stance, Prod.mk.injEq] at hs
    obtain ⟨hprocess, hwait, -, -⟩ := hs
    refine ⟨?_, hprocess ▸ (hc.fit id t ht).alive, fun h => absurd hwait h⟩
    simpa [hprocess, hwait] using Option.isSome_iff_ne_none.1 hp
  · refine .of_place .nothing rfl (wait?_mark ht .nothing) fun w => ?_
    have hnot := not_mem_waiters_mark s id t .nothing hgroup hplace
    rw [waiters_enqueueFirst]
    split
    · simpa using List.count_eq_zero.2 (hnot .nothing)
    · exact List.count_eq_zero.2 (hnot w)

/-- An ended task goes on waiting for its children. -/
theorem Coherent.markEnded (hc : Coherent s L X) (hX : ∀ j ∈ X, s.wait? j = some .nothing)
    {id : TaskId} {t : Task P R W} (ht : s.task? id = some t) (hcalm : t.cancelling = false)
    (hp : t.process = none) :
    Coherent (s.mark id t .children) L (X \ {id}) ∧
      ∀ j, j ≠ id → Untouched s (s.mark id t .children) j := by
  have hlost := hc.lost_of_calm ht hcalm
  obtain ⟨hgroup, hplace⟩ := hc.owner_of_wait hX hlost ht
  have hstance := stance_mark ht .children
  have hrest : ∀ j, j ≠ id → Untouched s (s.mark id t .children) j :=
    fun j hj => untouched_mark s id t .children hgroup hj
  have hfit := hc.fit id t ht
  refine ⟨hc.putDown hlost (hc.sound.mark id t .children) (sameTree_mark s id t .children).called
    hrest ?_ ?_, hrest⟩
  · intro u hu
    have hs : u.stance = (t.process, .children, t.status, true) := by simpa [hu] using hstance
    simp only [Task.stance, Prod.mk.injEq] at hs
    obtain ⟨hprocess, hwait, hstatus, -⟩ := hs
    refine ⟨by simp [hprocess, hwait, hp], hprocess ▸ hfit.alive, fun _ => ?_⟩
    rw [hstatus]
    exact hfit.status (by rw [hfit.ended.1 hp]; exact Wait.noConfusion)
  · exact .of_unlisted .children rfl (wait?_mark ht .children)
      (not_mem_waiters_mark s id t .children hgroup hplace) (by simp)

/-- A signalled task is put down, unless it is being cancelled already. -/
theorem Coherent.signal (hc : Coherent s L X) (hX : ∀ j ∈ X, s.wait? j = some .nothing)
    (id : TaskId) :
    Coherent (s.signal id) L {j ∈ X | j = id → s.beingCancelled j} ∧
      ∀ j, j ≠ id → Untouched s (s.signal id) j := by
  have hnoop : (id ∈ X → s.beingCancelled id) → {j ∈ X | j = id → s.beingCancelled j} = X := by
    intro hid
    ext j
    simp only [Set.mem_sep_iff, and_iff_left_iff_imp]
    rintro hj rfl
    exact hid hj
  have hput : s.beingCancelled id = false → {j ∈ X | j = id → s.beingCancelled j} = X \ {id} := by
    intro hid
    ext j
    by_cases hj : j = id
    · simp [hj, hid]
    · simp [hj]
  unfold Scheduler.signal
  cases ht : s.task? id with
  | none =>
    rw [hnoop]
    · exact ⟨hc, fun j _ => .refl s j⟩
    · intro hid
      obtain ⟨t, ht', -⟩ := (hc.loose id hid).live
      rw [ht] at ht'
      cases ht'
  | some t =>
    by_cases hcancel : t.cancelling = true
    · rw [hnoop fun _ => by rw [beingCancelled_eq ht, hcancel]]
      simpa [hcancel] using And.intro hc fun j (_ : j ≠ id) => Untouched.refl s j
    · have hcalm : t.cancelling = false := by simpa using hcancel
      rw [hput (by rw [beingCancelled_eq ht, hcalm])]
      cases hp : t.process with
      | none => simpa [hcalm, hp] using hc.markEnded hX ht hcalm hp
      | some process => simpa [hcalm, hp] using hc.markQueued hX ht hcalm (by simp [hp]) _

theorem signal_of_cancelled {id : TaskId} (hcancel : s.beingCancelled id) : s.signal id = s := by
  unfold Scheduler.signal
  cases ht : s.task? id with
  | none => rfl
  | some t =>
    rw [beingCancelled_eq ht] at hcancel
    simp [hcancel]

theorem Coherent.signalAll (hc : Coherent s L X) (hX : ∀ j ∈ X, s.wait? j = some .nothing)
    (ids : List TaskId) :
    Coherent (ids.foldl Scheduler.signal s) L {j ∈ X | j ∈ ids → s.beingCancelled j} ∧
      ∀ j, s.beingCancelled j → Untouched s (ids.foldl Scheduler.signal s) j := by
  induction ids generalizing s X with
  | nil => exact ⟨by simpa using hc, fun j _ => .refl s j⟩
  | cons id rest ih =>
    obtain ⟨hc', hrest⟩ := hc.signal hX id
    have hX' : ∀ j ∈ {j ∈ X | j = id → s.beingCancelled j},
        (s.signal id).wait? j = some .nothing := by
      rintro j ⟨hj, hcancel⟩
      by_cases he : j = id
      · subst he
        rw [signal_of_cancelled (hcancel rfl)]
        exact hX j hj
      · rw [(hrest j he).wait?]
        exact hX j hj
    obtain ⟨hc'', hkept⟩ := ih hc' hX'
    refine ⟨hc''.congr_hand fun j => ?_, fun j hcancel => ?_⟩
    · by_cases he : j = id
      · subst he
        by_cases hcancel : s.beingCancelled j
        · simp [signal_of_cancelled hcancel, hcancel]
        · simp [hcancel]
      · simp [he, (hrest j he).beingCancelled]
    · have hfirst : Untouched s (s.signal id) j := by
        by_cases he : j = id
        · rw [signal_of_cancelled (he ▸ hcancel)]
          exact .refl s j
        · exact hrest j he
      exact hfirst.trans (hkept j (by rwa [hfirst.beingCancelled]))

theorem Coherent.cancelSubtree (hc : Coherent s L X) (hX : ∀ j ∈ X, s.wait? j = some .nothing)
    (root : TaskId) :
    Coherent (s.cancelSubtree root) L {j ∈ X | j ∈ s.subtree root → s.beingCancelled j} ∧
      ∀ j, s.beingCancelled j → Untouched s (s.cancelSubtree root) j := by
  obtain ⟨hc', hkept⟩ := hc.signalAll hX (s.subtree root).reverse
  exact ⟨hc'.congr_hand (by simp), hkept⟩

theorem Coherent.cancelSubtree_of_none (hc : Coherent s L ∅) (root : TaskId) :
    Coherent (s.cancelSubtree root) L ∅ :=
  (hc.cancelSubtree (by simp) root).1.congr_hand (by simp)

theorem Coherent.cancelSubtrees (hc : Coherent s L ∅) (roots : List TaskId) :
    Coherent (s.cancelSubtrees roots) L ∅ :=
  List.foldlRecOn (motive := fun r => Coherent r L ∅) _ _ hc fun _ hr root _ =>
    hr.cancelSubtree_of_none root

theorem Coherent.abort (hc : Coherent s L ∅) (id : TaskId) (error : TaskError) :
    Coherent (s.abort id error) L ∅ := by
  unfold Scheduler.abort
  split
  · exact hc
  · split
    · exact hc
    · have hc' : Coherent (s.updateTask id fun t => { t with abort := some error }) L ∅ :=
        hc.keep (hc.sound.of_tables rfl rfl rfl rfl)
          (sameTree_updateTask s id _ fun _ => rfl)
          (untouched_updateTask_of_stance s id _ (fun _ => rfl) fun _ => rfl)
      exact hc'.cancelSubtree_of_none id

/-! ## Waking -/

theorem wait?_wakeIfWaiting (s : Scheduler P R W) (id : TaskId) (wait : Wait) (input : Input)
    (j : TaskId) :
    (s.wakeIfWaiting id wait input).wait? j =
      if j = id ∧ s.wait? j = some wait then some .nothing else s.wait? j := by
  unfold wakeIfWaiting
  by_cases hw : s.wait? id = some wait
  · rw [if_pos hw]
    have hready : (s.wakeFirst id input).wait? j = (s.makeReady id).wait? j := rfl
    rw [hready]
    by_cases hj : j = id
    · obtain ⟨t, ht, -⟩ := Option.map_eq_some_iff.1 hw
      rw [if_pos ⟨hj, hj ▸ hw⟩]
      simp [wait?, makeReady, hj, ht]
    · simp [wait?, makeReady, hj]
  · rw [if_neg hw, if_neg]
    rintro ⟨rfl, hj⟩
    exact hw hj

theorem wait?_answerJoiners_of_ne (s : Scheduler P R W) (joiners : List TaskId)
    (record : Settlement) {j : TaskId} (hj : s.wait? j ≠ some (.join record.task)) :
    (s.answerJoiners joiners record).wait? j = s.wait? j := by
  refine List.foldlRecOn (motive := fun r : Scheduler P R W => r.wait? j = s.wait? j) _ _ rfl
    fun r hr joiner _ => ?_
  rw [wait?_wakeIfWaiting, if_neg ?_, hr]
  rintro ⟨-, hjoin⟩
  exact hj (hr.symm.trans hjoin)

theorem Coherent.wakeIfWaiting (hc : Coherent s L X) (id : TaskId) (wait : Wait)
    (hid : s.wait? id = some wait → id ∈ X) (input : Input) :
    Coherent (s.wakeIfWaiting id wait input) L {j ∈ X | j = id → s.wait? j ≠ some wait} := by
  unfold Scheduler.wakeIfWaiting
  by_cases hw : s.wait? id = some wait
  · rw [if_pos hw]
    refine (hc.wakeFirst (hid hw) input).congr_hand fun j => ?_
    by_cases hj : j = id
    · simp [hj, hw]
    · simp [hj]
  · rw [if_neg hw]
    refine hc.congr_hand fun j => ?_
    by_cases hj : j = id
    · simp [hj, hw]
    · simp [hj]

/-! ## Groups -/

/-- A branch's result is noted down. -/
theorem Coherent.modifyGroup (hc : Coherent s L X) {g : GroupId} {group group' : Group}
    (hg : s.groups.find? g = some group) (howner : group'.owner = group.owner) :
    Coherent { s with groups := s.groups.modify g fun _ => group' } L X := by
  refine hc.keep ⟨hc.sound.channels, fun g' other hg' => ?_, hc.sound.closed⟩ (.of_tasks rfl rfl)
    fun id => ⟨rfl, fun w => ?_⟩
  · simp only [Table.find?_modify] at hg'
    split at hg'
    · obtain ⟨old, hold, -⟩ := Option.map_eq_some_iff.1 hg'
      exact hc.sound.groups g' old hold
    · exact hc.sound.groups g' other hg'
  · cases w with
    | group g' =>
      by_cases he : g' = g
      · simp [waiters, he, hg, howner]
      · simp [waiters, he]
    | _ => rfl

/-- The owner of a group that is resolved is taken in hand. -/
theorem Coherent.eraseGroup (hc : Coherent s L X) {g : GroupId} {group : Group}
    (hg : s.groups.find? g = some group) :
    Coherent { s with groups := s.groups.erase g } L (X ∪ {group.owner}) := by
  have hgroup : s.waiters (.group g) = [group.owner] := by simp [waiters, hg]
  have hother : ∀ w, w ≠ .group g →
      waiters { s with groups := s.groups.erase g } w = s.waiters w := by
    intro w hw
    cases w with
    | group g' =>
      have he : g' ≠ g := fun he => hw (he ▸ rfl)
      simp [waiters, he]
    | _ => rfl
  have hgone : waiters { s with groups := s.groups.erase g } (.group g) = [] := by simp [waiters]
  have hmem : group.owner ∈ s.waiters (.group g) := by simp [hgroup]
  obtain ⟨hlost, hhand, -, hwait, -⟩ := hc.of_mem_waiters hmem
  refine hc.release ⟨hc.sound.channels, fun g' other hg' => ?_, hc.sound.closed⟩ rfl rfl ?_ ?_ ?_
  · simp only [Table.find?_erase] at hg'
    split at hg'
    · cases hg'
    · exact hc.sound.groups g' other hg'
  · intro j hj w
    by_cases hw : w = .group g
    · rw [hw, hgone, hgroup, List.count_nil, List.count_eq_zero.2 (by simpa using hj)]
    · rw [hother w hw]
  · rintro j rfl
    exact ⟨_, hmem⟩
  · rintro j rfl w
    by_cases hw : w = .group g
    · simp [hw, hgone]
    · rw [hother w hw, ← List.count_eq_zero, (hc.home _ hlost hhand).place, hwait]
      simp [Ne.symm hw]

theorem Coherent.settleBranch (hc : Coherent s L ∅) (g : GroupId) (slot : Nat)
    (outcome : Outcome) : Coherent (s.settleBranch g slot outcome) L ∅ := by
  unfold Scheduler.settleBranch
  cases hg : s.groups.find? g with
  | none => exact hc
  | some group =>
    dsimp only
    cases hsettle : group.settle slot outcome with
    | mk group' input =>
      have howner : group'.owner = group.owner := by
        simpa [hsettle] using group.settle_owner slot outcome
      cases input with
      | none => exact hc.modifyGroup hg howner
      | some input =>
        have hmem : group'.owner ∈ s.waiters (.group g) := by simp [waiters, hg, howner]
        have hwait : wait? { s with groups := s.groups.erase g } group'.owner = some (.group g) :=
          (hc.of_mem_waiters hmem).2.2.2.1
        have hc' := (hc.eraseGroup hg).wakeIfWaiting group'.owner (.group g)
          (fun _ => by simp [howner]) input
        refine (hc'.congr_hand fun j => ?_).cancelSubtrees group'.branches
        by_cases hj : j = group'.owner
        · simp [hj, hwait]
        · simp [howner ▸ hj]

/-! ## Settlement -/

/-- The tasks that wait for one that has left the tree. -/
def orphans (s : Scheduler P R W) (id : TaskId) : Set TaskId :=
  {j | s.wait? j = some (.join id) ∨ s.wait? j = some (.call id)}

theorem Sound.remove (hn : Sound s) (id : TaskId) (parent : Option TaskId) :
    Sound (s.remove id parent) := by
  cases parent <;> exact hn.of_tables rfl rfl rfl rfl

theorem Called.remove {id child caller : TaskId} (hc : Called s child caller) (hne : child ≠ id)
    (parent : Option TaskId) : Called (s.remove id parent) child caller := by
  obtain ⟨t, ht, hrole, hparent⟩ := hc
  unfold Called
  rw [task?_remove, if_neg hne, ht]
  split
  · exact ⟨{ t with children := t.children.filter (· ≠ id) }, rfl, hrole, hparent⟩
  · exact ⟨t, rfl, hrole, hparent⟩

/-- A number without a task is registered nowhere. -/
theorem Coherent.placed_removed (hc : Coherent s L ∅) {id : TaskId} {t : Task P R W}
    (ht : s.task? id = some t) (hp : t.process = none) (parent : Option TaskId) :
    Placed (s.remove id parent) L (s.orphans id) id := by
  have hself : s.wait? id = some .children := by simp [wait?, ht, (hc.fit id t ht).ended.1 hp]
  have hlost : id ∉ L := by
    intro hid
    obtain ⟨u, hu, hup, -⟩ := (hc.lost id hid).live
    rw [ht] at hu
    cases hu
    simp [hp] at hup
  refine ⟨hlost, fun u hu => by simp [task?_remove] at hu, fun h => ?_, fun _ => ?_⟩
  · simp [orphans, hself] at h
  · refine ⟨fun w => ?_, fun child hw => by simp [wait?_remove] at hw⟩
    have hnone : id ∉ (s.remove id parent).waiters w := by
      rw [waiters_remove]
      split
      · exact List.not_mem_nil
      · refine hc.not_mem_waiters ?_
        by_cases hw : w = .children
        · exact Or.inr (hw ▸ rfl)
        · exact Or.inl (by simp [hself, Ne.symm hw])
    rw [List.count_eq_zero.2 hnone]
    simp [wait?_remove]

/-- Who waited for a task that is gone is registered nowhere any more. -/
theorem Coherent.placed_orphan (hc : Coherent s L ∅) {id j : TaskId} (hj : j ∈ s.orphans id)
    (hne : j ≠ id) (parent : Option TaskId) : Placed (s.remove id parent) L (s.orphans id) j := by
  obtain ⟨wait, hwait, hcases⟩ : ∃ wait, s.wait? j = some wait ∧
      (wait = .join id ∨ wait = .call id) := by
    rcases hj with hj | hj
    · exact ⟨_, hj, Or.inl rfl⟩
    · exact ⟨_, hj, Or.inr rfl⟩
  refine ⟨hc.not_lost_of_wait hwait (by rcases hcases with rfl | rfl <;> simp), ?_, fun _ => ?_,
    fun h => absurd hj h⟩
  · intro u hu
    obtain ⟨v, hv, hprocess, hw, hstatus, -⟩ := find_of_stance hu (stance_remove s hne parent)
    exact (hc.fit j v hv).of_same hprocess hw hstatus
  · obtain ⟨v, hv, hvp⟩ := hc.process_of_wait hwait (by rcases hcases with rfl | rfl <;> simp)
    obtain ⟨u, hu, hprocess, -⟩ := find_of_stance hv (stance_remove s hne parent).symm
    refine ⟨⟨u, hu, hprocess ▸ hvp⟩, fun w => ?_⟩
    rw [waiters_remove]
    split
    · exact List.not_mem_nil
    · rename_i hw
      refine hc.not_mem_waiters ?_
      by_cases he : w = wait
      · rcases hcases with rfl | rfl
        · exact absurd he hw
        · exact Or.inr (he ▸ rfl)
      · exact Or.inl (by simp [hwait, Ne.symm he])

/-- Those who wait for a task are taken in hand when it leaves the tree. -/
theorem Coherent.remove (hc : Coherent s L ∅) {id : TaskId} {t : Task P R W}
    (ht : s.task? id = some t) (hp : t.process = none) (parent : Option TaskId) :
    Coherent (s.remove id parent) L (s.orphans id) := by
  refine hc.change ({id} ∪ s.orphans id) (hc.sound.remove id parent) ?_ ?_ ?_ ?_
  · intro j hj child hw hcalled
    refine hcalled.remove ?_ parent
    rintro rfl
    exact hj (Or.inr (Or.inr hw))
  · intro j hj
    refine ⟨stance_remove s (fun he => hj (Or.inl he)) parent, fun w => ?_⟩
    rw [waiters_remove]
    split
    · rename_i hw
      have hjoin : s.wait? j ≠ some (.join id) := fun hjoin => hj (Or.inr (Or.inl hjoin))
      rw [hw, List.count_nil, List.count_eq_zero.2 (hc.not_mem_waiters (Or.inl hjoin))]
    · rfl
  · intro j hj
    simpa using fun horphan => hj (Or.inr horphan)
  · rintro j (rfl | hj)
    · exact hc.placed_removed ht hp parent
    · refine hc.placed_orphan hj ?_ parent
      rintro rfl
      have hself : s.wait? j = some .children := by simp [wait?, ht, (hc.fit j t ht).ended.1 hp]
      simp [orphans, hself] at hj

/-- Of those who wait as stated, the given ones are put down. -/
theorem Coherent.wakeEach (hc : Coherent s L X) {wait : Wait} (hne : wait ≠ .nothing)
    (hX : ∀ j, s.wait? j = some wait → j ∈ X) (input : Input) (ids : List TaskId) :
    Coherent (ids.foldl (fun s j => s.wakeIfWaiting j wait input) s) L
        {j ∈ X | j ∈ ids → s.wait? j ≠ some wait} ∧
      ∀ j, (ids.foldl (fun s j => s.wakeIfWaiting j wait input) s).wait? j =
        if j ∈ ids ∧ s.wait? j = some wait then some .nothing else s.wait? j := by
  induction ids generalizing s X with
  | nil => simpa using hc
  | cons id rest ih =>
    have hwait := wait?_wakeIfWaiting s id wait input
    have hX' : ∀ j, (s.wakeIfWaiting id wait input).wait? j = some wait →
        j ∈ {j ∈ X | j = id → s.wait? j ≠ some wait} := by
      intro j hj
      rw [hwait] at hj
      split at hj
      · exact absurd (Option.some.inj hj).symm hne
      · rename_i hcond
        exact ⟨hX j hj, fun he hw => hcond ⟨he, hw⟩⟩
    obtain ⟨hc', hw'⟩ := ih (hc.wakeIfWaiting id wait (hX id) input) hX'
    refine ⟨hc'.congr_hand fun j => ?_, fun j => ?_⟩
    · by_cases he : j = id
      · by_cases hw : s.wait? j = some wait
        · simp [he, he ▸ hw]
        · simp [he, he ▸ hw, hwait]
      · simp [he, hwait]
    · refine (hw' j).trans ?_
      rw [hwait]
      by_cases he : j = id
      · by_cases hw : s.wait? j = some wait
        · simp [he, he ▸ hw, Ne.symm hne]
        · simp [he, he ▸ hw]
      · simp [he]

/-- The caller of a settled task is the last that is left in hand. -/
theorem Coherent.deliver (hc : Coherent s L X) (t : Task P R W) (record : Settlement)
    (hX : ∀ j ∈ X, t.role = .called ∧ t.parent = some j)
    (hwait : ∀ j, j ∈ X ↔ s.wait? j = some (.call record.task)) :
    Coherent (s.deliver t record) L ∅ := by
  have hnone : t.role ≠ .called → Coherent s L ∅ := by
    intro hrole
    refine hc.congr_hand fun j => ?_
    simpa using fun hj => hrole (hX j hj).1
  unfold Scheduler.deliver
  split
  · rename_i hrole _
    exact (hnone (by simp [hrole])).of_tables rfl rfl rfl rfl rfl rfl rfl rfl
  · rename_i hrole _
    exact hnone (by simp [hrole])
  · rename_i hrole _ _
    split
    · exact (hnone (by simp [hrole])).abort _ _
    · exact hnone (by simp [hrole])
  · rename_i hrole _
    exact hnone (by simp [hrole])
  · rename_i hrole
    split
    · exact hnone (by simp [hrole])
    · exact (hnone (by simp [hrole])).settleBranch _ _ _
  · rename_i caller _ hparent
    refine (hc.wakeIfWaiting caller (.call record.task) (fun hw => (hwait caller).2 hw)
      _).congr_hand fun j => ?_
    simp only [Set.mem_sep_iff, Set.mem_empty_iff_false, iff_false, not_and]
    intro hj hcaller
    have hparent' := (hX j hj).2
    rw [hparent] at hparent'
    exact hcaller (Option.some.inj hparent').symm ((hwait j).1 hj)
  · rename_i hparent
    refine hc.congr_hand fun j => ?_
    simp only [Set.mem_empty_iff_false, iff_false]
    intro hj
    have hparent' := (hX j hj).2
    rw [hparent] at hparent'
    cases hparent'

/-- Every task that waits to join another is among its joiners. -/
theorem Coherent.mem_joiners (hc : Coherent s L ∅) {id j : TaskId} {t : Task P R W}
    (ht : s.task? id = some t) (hj : s.wait? j = some (.join id)) : j ∈ t.joiners := by
  have hhome := hc.home j (hc.not_lost_of_wait hj Wait.noConfusion) (Set.notMem_empty j)
  have hplace := hhome.place (.join id)
  rw [hj] at hplace
  have hmem : j ∈ s.waiters (.join id) := List.count_pos_iff.1 (by simp [hplace, Wait.isListed])
  simpa [waiters, ht] using hmem

theorem Coherent.called (hc : Coherent s L ∅) {caller child : TaskId}
    (hw : s.wait? caller = some (.call child)) : Called s child caller :=
  (hc.home caller (hc.not_lost_of_wait hw Wait.noConfusion) (Set.notMem_empty caller)).call child hw

theorem Coherent.retire (hc : Coherent s L ∅) (h : Host P R W) {id : TaskId} {t : Task P R W}
    (ht : s.task? id = some t) (hp : t.process = none) : Coherent (s.retire h id t) L ∅ := by
  have hself : s.wait? id = some .children := by simp [wait?, ht, (hc.fit id t ht).ended.1 hp]
  let record : Settlement := ⟨id, t.endStatus, t.endResult id⟩
  let r := (s.remove id t.parent).remember h record
  have hwait : ∀ j, r.wait? j = if j = id then none else s.wait? j := wait?_remove s id t.parent
  have hremoved : Coherent r L (s.orphans id) :=
    (hc.remove ht hp t.parent).of_tables rfl rfl rfl rfl rfl rfl rfl rfl
  have horphan : ∀ j, r.wait? j = some (.join id) → j ∈ s.orphans id := by
    intro j hj
    rw [hwait] at hj
    split at hj
    · cases hj
    · exact Or.inl hj
  obtain ⟨hanswered, hwait'⟩ :=
    hremoved.wakeEach Wait.noConfusion horphan record.answer t.joiners.reverse
  have hleft : ∀ j, j ∈ {j ∈ s.orphans id | j ∈ t.joiners.reverse → r.wait? j ≠ some (.join id)} ↔
      s.wait? j = some (.call id) := by
    intro j
    simp only [Set.mem_sep_iff, List.mem_reverse, hwait]
    constructor
    · rintro ⟨hj | hj, hnot⟩
      · have hne : j ≠ id := by rintro rfl; simp [hself] at hj
        exact absurd hj (by simpa [hne] using hnot (hc.mem_joiners ht hj))
      · exact hj
    · intro hj
      refine ⟨Or.inr hj, fun _ => ?_⟩
      split
      · simp
      · simp [hj]
  refine hanswered.deliver t record ?_ fun j => ?_
  · intro j hj
    have hcall := (hleft j).1 hj
    obtain ⟨u, hu, hrole, hparent⟩ := hc.called hcall
    rw [ht] at hu
    cases hu
    exact ⟨hrole, hparent⟩
  · rw [hleft, hwait', hwait]
    by_cases hne : j = id
    · simp [hne, hself]
    · by_cases hjoin : j ∈ t.joiners ∧ s.wait? j = some (.join id)
      · simp [hne, hjoin]
      · simp [hne, hjoin, record]

theorem Coherent.settleWithin (h : Host P R W) (fuel : Nat) (id : TaskId) (s : Scheduler P R W)
    (hc : Coherent s L ∅) : Coherent (settleWithin h fuel id s) L ∅ :=
  settleWithin_preserves (I := fun r => Coherent r L ∅)
    (fun _ _ _ ht hd hr => hr.retire h ht (Task.isDone_iff.1 hd).1) fuel id hc

/-- A task whose process ends is put down to wait for its children. -/
theorem Coherent.endProcess {id : TaskId} (hc : Coherent s L X) (hid : id ∈ X)
    (outcome : Outcome) : Coherent (s.endProcess id outcome) L (X \ {id}) := by
  obtain ⟨t, ht, -⟩ := (hc.loose id hid).live
  have hafter : (s.endProcess id outcome).task? id = some { t with
      process := none, wait := .children, status := .waiting, outcome := some outcome } := by
    simp [Scheduler.endProcess, ht]
  refine hc.putDown (hc.apart id hid) (hc.sound.of_tables rfl rfl rfl rfl)
    (fun child caller hcalled => hcalled.updateTask id _ (fun _ => rfl) fun _ => rfl)
    (fun j hj => untouched_endProcess s id outcome hj) ?_ ?_
  · intro u hu
    rw [hafter] at hu
    cases hu
    exact ⟨⟨fun _ => rfl, fun _ => rfl⟩, by simp, fun _ => rfl⟩
  · refine .of_unlisted .children rfl (by simp [wait?, hafter]) (fun w => ?_) (by simp)
    rw [waiters_endProcess]
    exact (hc.loose id hid).place w

theorem Coherent.finish {id : TaskId} (hc : Coherent s L {id}) (h : Host P R W)
    (outcome : Outcome) : Coherent (s.finish h id outcome) L ∅ := by
  obtain ⟨t, ht, -⟩ := (hc.loose id rfl).live
  have hraise : Coherent (s.raiseOf id outcome) L {id} := by
    unfold raiseOf
    split
    · exact hc.of_tables rfl rfl rfl rfl rfl rfl rfl rfl
    · exact hc
  have hend : Coherent ((s.raiseOf id outcome).endProcess id outcome) L ∅ :=
    (hraise.endProcess rfl outcome).congr_hand (by simp)
  unfold Scheduler.finish
  rw [ht]
  exact .settleWithin h _ id _ (hend.cancelSubtrees _)

end CoopTasks.Scheduler
