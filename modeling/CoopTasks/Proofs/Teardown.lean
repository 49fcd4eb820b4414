import CoopTasks.Proofs.Frailty
import CoopTasks.Proofs.OwnFailure
import CoopTasks.Proofs.Quiescence
import CoopTasks.Proofs.Verdict

/-!
# Teardown

The host cancels a tree of frail tasks while nothing is queued. When the call ends well all of them
have settled cancelled, and nothing is left of them in any table, whatever other tasks have done in
between. For a task that was signalled has lost its process by then, it has got no new children, and
the youngest of the tree that is left would have none at all, and nothing to do.
-/

namespace CoopTasks.Scheduler

variable {P R W : Type} {s s' : Scheduler P R W} {h : Host P R W} {id root : TaskId}
variable {log : List (Scheduler P R W × Move P)}

/-! ## States without a queue -/

/-- With nothing queued no frail task is live that is being cancelled, if the same is to hold of all
its children. -/
theorem Run.extinct (run : Run h log s) (hqueue : s.queue = []) {S : Set TaskId}
    (hfrail : ∀ id ∈ S, s.isLive id → Frail h log id ∧ s.beingCancelled id = true)
    (hclosed : ∀ id ∈ S, ∀ child, s.parent? child = some id → child ∈ S) (hid : id ∈ S) :
    s.isLive id = false := by
  -- children are younger than their parents, so this is an induction from the youngest task on
  induction hn : s.nextTask - id.val using Nat.strong_induction_on generalizing id with
  | _ n ih =>
    by_contra hl
    rw [Bool.not_eq_false] at hl
    obtain ⟨hf, hc⟩ := hfrail id hid hl
    obtain ⟨t, ht⟩ := Option.isSome_iff_exists.1 ((isLive_eq s id).symm.trans hl)
    have hprocess : t.process = none := by
      by_contra hp
      simpa [hqueue] using run.signal_of_frail hf hc ht (Option.isSome_iff_ne_none.2 hp)
    have hbusy : t.children ≠ [] := by
      intro hnone
      have hdone := run.tidy.busy id t ht (by simp [Task.isDone, hprocess, hnone])
      cases hdone
    obtain ⟨child, hchild⟩ := List.exists_mem_of_ne_nil _ hbusy
    have hparent : s.parent? child = some id :=
      (run.tidy.forest.listed child id).2 (by simpa [children, ht] using hchild)
    have hyounger := run.tidy.forest.older child id hparent
    have hfresh := run.tidy.forest.fresh child (isLive_of_parent hparent)
    have hgone := ih _ (by omega) (hclosed id hid child hparent) rfl
    simp [isLive_of_parent hparent] at hgone

/-- With nothing queued no task of a frail tree is being cancelled. -/
theorem Run.calm_of_frail (run : Run h log s) (hqueue : s.queue = [])
    (hfrail : ∀ id ∈ s.subtree root, Frail h log id) (hm : id ∈ s.subtree root) :
    s.beingCancelled id = false := by
  by_contra hc
  rw [Bool.not_eq_false] at hc
  have hgone := run.extinct (S := { j | j ∈ s.subtree root ∧ s.beingCancelled j = true }) hqueue
    (fun j hj _ => ⟨hfrail j hj.1, hj.2⟩) (fun j hj child hparent => ?_) ⟨hm, hc⟩
  · simp [isLive_of_beingCancelled hc] at hgone
  · exact ⟨run.tidy.forest.child_mem_subtree hj.1 hparent,
      run.thorough j child (hfrail j hj.1) hj.2 hparent⟩

/-! ## What is left of a tree -/

/-- A task is not live, and there is nothing left that is of it. -/
structure Vanished (s : Scheduler P R W) (id : TaskId) : Prop where
  dead : s.isLive id = false
  queue : ∀ entry ∈ s.queue, entry.1 ≠ id
  takers : ∀ taker ∈ s.takers, taker.1 ≠ id
  channels : ∀ ch c, s.channels.find? ch = some c → id ∉ c.takers ∧ id ∉ c.putters.map Prod.fst
  joiners : ∀ j t, s.task? j = some t → id ∉ t.joiners
  groups : ∀ g group, s.groups.find? g = some group → group.owner ≠ id

theorem Run.vanished (run : Run h log s) (hdead : s.isLive id = false) : Vanished s id := by
  have hnot : ∀ w, id ∉ s.waiters w := by
    refine fun w => run.coherent.not_mem_elsewhere fun hw => ?_
    simp [isLive_of_wait? hw] at hdead
  refine ⟨hdead, fun entry he heq => ?_, fun taker ht heq => ?_, fun ch c hc => ⟨?_, ?_⟩,
    fun j t ht => ?_, fun g group hg heq => ?_⟩
  · exact hnot .nothing (heq ▸ List.mem_map_of_mem he)
  · exact hnot .take (heq ▸ List.mem_map_of_mem ht)
  · simpa [waiters, hc] using hnot (.channelTake ch)
  · simpa [waiters, hc] using hnot (.channelPut ch)
  · simpa [waiters, ht] using hnot (.join j)
  · exact hnot (.group g) (by simp [waiters, hg, heq])

/-! ## The cancellation of a tree -/

/-- The record of a task that has settled cancelled. -/
def cancelledRecord (id : TaskId) : Settlement := ⟨id, .cancelled, .error (.cancelled id)⟩

/-- A task that is being cancelled, and is not blamed for another, leaves cancelled. -/
theorem Run.leaves_cancelled (run : Run h log s) {t : Task P R W} (ht : s.task? id = some t)
    (hc : t.cancelling = true) (ha : t.abort = none) (ms : List (Move P)) :
    ∀ d ∈ settlements h (s.history h ms), d.id = id → d.record = cancelledRecord id := by
  rintro d hd rfl
  have hid := run.tidy.forest.fresh d.id (by simp [isLive_eq, ht])
  obtain ⟨hcancel, habort⟩ := (run.firm_before ms hd).verdict (run.leaving_history hd) ht hid hc
  exact record_of_cancelled hcancel (habort.trans ha)

/-- A task of a frail tree is signalled with the tree, and is not blamed for another. -/
theorem Run.signalled_in_tree (run : Run h log s) (hqueue : s.queue = [])
    (hfrail : ∀ id ∈ s.subtree root, Frail h log id) (hm : id ∈ s.subtree root) :
    ∃ t, (s.cancelSubtree root).task? id = some t ∧ t.cancelling = true ∧ t.abort = none := by
  obtain ⟨t, ht⟩ := Option.isSome_iff_exists.1
    ((isLive_eq s id).symm.trans (run.tidy.forest.isLive_of_mem_subtree hm))
  have hcalm := run.calm_of_frail hqueue hfrail hm
  rw [beingCancelled_eq ht] at hcalm
  have hchanges : Changes ∅ (fun _ => True) s (s.cancelSubtree root) := changes_cancelSubtree s root
  obtain ⟨t', ht', hsteady⟩ := hchanges.changed.stays id t ht
  have hcancel := (run.tidy.forest.cancelsTree root).cancelling id hm
  rw [beingCancelled_eq ht'] at hcancel
  exact ⟨t', ht', hcancel, hsteady.abort.trans (Blamed.abort_eq_none run.blamed_along.1 ht hcalm)⟩

/-- When the host cancels a tree of frail tasks, and the call ends well, none of them is left. -/
theorem Run.dead_of_cancel (run : Run h log s)
    (hfrail : ∀ id ∈ s.subtree root, Frail h log id) (ms : List (Move P))
    (hidle : ((s.cancelSubtree root).moves h ms).queue = []) (hm : id ∈ s.subtree root) :
    ((s.cancelSubtree root).moves h ms).isLive id = false := by
  have hf := run.tidy.forest
  have hcancelled : Run h (log ++ [(s, .cancel root)]) (s.cancelSubtree root) :=
    run.move (.cancel root)
  have hlater := later_moves (s.cancelSubtree root) h ms
  have hnext := (quiet_cancelSubtree s root).tree.next
  have hfresh : ∀ j ∈ s.subtree root, j.val < s.nextTask := fun j hj =>
    hf.fresh j (hf.isLive_of_mem_subtree hj)
  have hfrail' : ∀ j ∈ s.subtree root, Frail h (log ++ [(s, .cancel root)]) j := fun j hj =>
    (hfrail j hj).append (hfresh j hj) [.cancel root]
  have hsignalled := (hf.cancelsTree root).cancelling
  -- a child of a member that is still live is no newcomer, so it is a member as well
  refine (hcancelled.moves ms).extinct (S := { j | j ∈ s.subtree root }) hidle
    (fun j hj hl => ?_) (fun j hj child hp => ?_) hm
  · have hj' : j.val < (s.cancelSubtree root).nextTask := hnext ▸ hfresh j hj
    exact ⟨(hfrail' j hj).append hj' ms, hlater.beingCancelled hj' hl (hsignalled j hj)⟩
  · have hold := hcancelled.barren_moves (hfrail' j hj) (hsignalled j hj) ms hp
    have hold' : child.val < s.nextTask := hnext ▸ hold
    exact hf.child_mem_subtree hj
      (((quiet_cancelSubtree s root).later.trans hlater).parent?_eq hold' hp)

/-- The host cancels a task while nothing is queued, and all that is live at or below it is frail.
If the call ends well, each of these tasks has settled cancelled, and nothing of it is left, whatever
the tasks outside the tree have done. -/
theorem Run.tears_down (run : Run h log s) (hqueue : s.queue = []) (hroot : s.isLive root)
    (hfrail : ∀ id, s.isLive id → Below s root id → Frail h log id)
    (hcall : s.perform h (.cancel root) = some (.ok (), s')) :
    ∀ id, s.isLive id → Below s root id → Vanished s' id ∧
      (∃ d ∈ settlements h (s.history h (s.trail h (.cancel root))),
        d.id = id ∧ d.record = cancelledRecord id) ∧
      ∀ record ∈ s'.settled, record.task = id → record = cancelledRecord id := by
  intro id hlive hbelow
  -- the tree is what the cancellation goes through
  have htree : ∀ j, j ∈ s.subtree root ↔ s.isLive j ∧ Below s root j :=
    run.tidy.forest.mem_subtree root
  have hm : id ∈ s.subtree root := (htree id).2 ⟨hlive, hbelow⟩
  replace hfrail : ∀ j ∈ s.subtree root, Frail h log j := fun j hj =>
    hfrail j ((htree j).1 hj).1 ((htree j).1 hj).2
  have htrail : s.trail h (.cancel root) =
      .cancel root :: (s.cancelSubtree root).runTrail h := by simp [trail, hroot]
  have hmoves : s' = (s.cancelSubtree root).moves h ((s.cancelSubtree root).runTrail h) := by
    rw [show s' = _ from perform_moves hcall, htrail]
    rfl
  have hcancelled : Run h (log ++ [(s, .cancel root)]) (s.cancelSubtree root) :=
    run.move (.cancel root)
  obtain ⟨t, ht, hc, ha⟩ := run.signalled_in_tree hqueue hfrail hm
  have hl : (s.cancelSubtree root).isLive id := by simp [isLive_eq, ht]
  have hleaves := hcancelled.leaves_cancelled ht hc ha ((s.cancelSubtree root).runTrail h)
  have hidle := (idle_of_perform hcall).1
  rw [hmoves] at hidle
  have hdead := run.dead_of_cancel hfrail _ hidle hm
  refine ⟨(run.perform hcall).vanished (hmoves ▸ hdead), ?_, fun record hr hid => ?_⟩
  · rcases hcancelled.live_or_left hl ((s.cancelSubtree root).runTrail h) with hlive | ⟨d, hd, hid⟩
    · simp [hdead] at hlive
    · rw [htrail]
      refine ⟨d, ?_, hid, hleaves d hd hid⟩
      simp only [history, settlements_cons]
      exact List.mem_append_right _ hd
  · obtain ⟨d, hd, hid', rfl⟩ := hcancelled.filed_later hl _ (hmoves ▸ hr) hid
    exact hleaves d hd hid'

/-! ## An orchard -/

/-- What grows in an orchard. -/
inductive Plant where
  /-- Forks a leaf, and waits for two branches. -/
  | trunk
  | leaf
  | twig
  /-- Joins the first task, and forks a twig when it hears of its end. -/
  | ivy

def Plant.definition : Plant → Definition Plant Nat Unit
  | .trunk => .script [.fork .leaf [], .all [.take (.tag "rain"), .join ⟨2⟩]]
  | .leaf => .watchEvery (.tag "sun") .twig
  | .twig => .script []
  | .ivy => .routine fun _ w => (0, w)

def Plant.resume : Nat → Input → Unit → Step Plant Unit × Nat × Unit
  | 0, _, w => (.yield (.join ⟨1⟩), 1, w)
  | 1, _, w => (.yield (.fork .twig []), 2, w)
  | n, _, w => (.done .unit, n, w)

def orchard : Host Plant Nat Unit where
  program := ⟨fun _ => "plant", Plant.definition, Plant.resume⟩
  config := { maxSteps := 16 }

def season : List (Move Plant) :=
  [.enroll .trunk [], .step, .step, .step, .step, .step, .enroll .ivy [], .step]

/-- The trunk waits for its branches, and they and the leaf for something else. -/
def planted : Scheduler Plant Nat Unit := moves { world := () } orchard season

theorem frail_planted {id : TaskId} (hm : id ∈ planted.subtree ⟨1⟩) :
    Frail orchard (history { world := () } orchard season) id := by
  have hsubtree : planted.subtree ⟨1⟩ = [⟨2⟩, ⟨3⟩, ⟨4⟩, ⟨1⟩] := rfl
  simp only [hsubtree, List.mem_cons, List.not_mem_nil, or_false] at hm
  rcases hm with rfl | rfl | rfl | rfl <;> exact frail_of_isFixed rfl

/-- The trunk is cancelled, and nothing is left of it, its leaf and its two branches. -/
theorem tears_down_planted : ∃ s', planted.perform orchard (.cancel ⟨1⟩) = some (.ok (), s') ∧
    ∀ id ∈ ([⟨1⟩, ⟨2⟩, ⟨3⟩, ⟨4⟩] : List TaskId), planted.isLive id ∧ Vanished s' id ∧
      ∀ record ∈ s'.settled, record.task = id → record = cancelledRecord id := by
  have hnew : Run orchard [] (({ world := () } : Scheduler Plant Nat Unit)) := .new rfl
  have run : Run orchard (history { world := () } orchard season) planted := hnew.moves season
  have hf := run.tidy.forest
  have hcall : planted.perform orchard (.cancel ⟨1⟩) =
      some (.ok (), (planted.cancelTask orchard ⟨1⟩).2) := congrArg some (reply_eq (by decide))
  refine ⟨_, hcall, fun id hid => ?_⟩
  have hm : id ∈ planted.subtree ⟨1⟩ := by
    have hsame : (planted.subtree ⟨1⟩).Perm [⟨1⟩, ⟨2⟩, ⟨3⟩, ⟨4⟩] := by decide
    exact hsame.mem_iff.2 hid
  obtain ⟨hlive, hbelow⟩ := (hf.mem_subtree ⟨1⟩ id).1 hm
  obtain ⟨hvanished, -, hrecord⟩ := run.tears_down rfl rfl
    (fun j hl hb => frail_planted ((hf.mem_subtree ⟨1⟩ j).2 ⟨hl, hb⟩)) hcall id hlive hbelow
  exact ⟨hlive, hvanished, hrecord⟩

end CoopTasks.Scheduler
