import CoopTasks.Proofs.Lifetimes
import CoopTasks.Proofs.Quiescence

/-!
# Cancelling twice

A second cancellation right after the first changes nothing as long as everything below the task is
being cancelled. What is not was spawned by the cleanup that the first one set off: no signal has
reached it yet, and the second cancellation delivers one.
-/

namespace CoopTasks.Scheduler

variable {P R W : Type} {s s' : Scheduler P R W} {h : Host P R W}
variable {log : List (Scheduler P R W × Move P)}

theorem Later.beingCancelled (hlater : Later s s') {id : TaskId} (hid : id.val < s.nextTask)
    (hl : s'.isLive id) (hc : s.beingCancelled id) : s'.beingCancelled id := by
  obtain ⟨t', ht'⟩ := Option.isSome_iff_exists.1 hl
  obtain ⟨t, ht, honward⟩ := hlater.onward id t' ht' hid
  rw [beingCancelled_eq ht] at hc
  rw [beingCancelled_eq ht']
  exact honward.cancelling hc

theorem beingCancelled_signal {id : TaskId} (hid : id.val < s.nextTask) (hl : s.isLive id) :
    (s.signal id).beingCancelled id := by
  obtain ⟨t, ht⟩ := Option.isSome_iff_exists.1 hl
  have hquiet := quiet_signal s id
  obtain ⟨t', ht', -⟩ := hquiet.tree.find ht
  rw [beingCancelled_eq ht']
  unfold signal at ht'
  simp only [show s.task? id = some t from ht] at ht'
  by_cases hc : t.cancelling
  · simp only [hc, if_true] at ht'
    rw [show s.task? id = some t from ht] at ht'
    cases ht'
    exact hc
  · simp only [hc, Bool.false_eq_true, if_false] at ht'
    split at ht'
    · exact cancelling_mark hid ht'
    · exact cancelling_mark hid ht'

/-- Every signalled task is being cancelled from then on. -/
theorem beingCancelled_foldl (ids : List TaskId) (s : Scheduler P R W) {id : TaskId}
    (hm : id ∈ ids) (hid : id.val < s.nextTask) (hl : s.isLive id) :
    (ids.foldl signal s).beingCancelled id := by
  induction ids generalizing s with
  | nil => cases hm
  | cons j rest ih =>
    have hfirst := quiet_signal s j
    have hid' : id.val < (s.signal j).nextTask := by rwa [hfirst.tree.next]
    have hl' : (s.signal j).isLive id := by rwa [hfirst.tree.isLive]
    by_cases hj : id = j
    · subst hj
      have hrest := Quiet.foldl signal quiet_signal rest (s.signal id)
      exact hrest.later.beingCancelled hid' (by rwa [hrest.tree.isLive])
        (beingCancelled_signal hid hl)
    · exact ih (s.signal j) (by simpa [hj] using hm) hid' hl'

theorem beingCancelled_cancelSubtree (hf : Forest s) {root id : TaskId} (hm : id ∈ s.subtree root) :
    (s.cancelSubtree root).beingCancelled id := by
  have hl := hf.isLive_of_mem_subtree hm
  exact beingCancelled_foldl _ s (by simpa using hm) (hf.fresh id hl) hl

/-- Nothing happens to a tree that is being cancelled throughout. -/
theorem cancelSubtree_of_cancelled {root : TaskId}
    (hall : ∀ id ∈ s.subtree root, s.beingCancelled id) : s.cancelSubtree root = s := by
  have hfold : ∀ ids : List TaskId, (∀ id ∈ ids, s.beingCancelled id) → ids.foldl signal s = s := by
    intro ids
    induction ids with
    | nil => simp
    | cons id rest ih =>
      intro hids
      rw [List.foldl_cons, signal_of_cancelled (hids id List.mem_cons_self)]
      exact ih fun j hj => hids j (List.mem_cons_of_mem _ hj)
  exact hfold _ (by simpa using hall)

/-- A run has nothing to do when nothing is left for it. -/
theorem run_of_idle (hs : Idle s) (h : Host P R W) : s.run h = (.ok (), s) ∧ s.runTrail h = [] := by
  obtain ⟨hq, hinbox⟩ := hs
  have happly : s.applyInbox = (.ok (), s) := by simp [applyInbox, hinbox, applyAll]
  have htrail : s.inboxTrail = [] := by simp [inboxTrail, hinbox, applyTrail]
  have hnext : s.stepNext? h = none := by simp [stepNext?, hq]
  unfold run runTrail
  cases h.config.maxSteps with
  | zero => simp [runWithin, runTrailWithin, happly, htrail, hq]
  | succ left => simp [runWithin, runTrailWithin, happly, htrail, hnext]

theorem Forest.le_of_below (hf : Forest s) {root id : TaskId} (hb : Below s root id) :
    root.val ≤ id.val := by
  induction hb with
  | self => exact Nat.le_refl _
  | child hp _ ih => exact Nat.le_trans ih (Nat.le_of_lt (hf.older _ _ hp))

/-- A task that is not new was below the same tasks before. -/
theorem Below.earlier {root id : TaskId} (hb : Below s' root id) (hf' : Forest s')
    (hlater : Later s s') (hid : id.val < s.nextTask) : Below s root id := by
  induction hb with
  | self => exact .self
  | @child id parent hp _ ih =>
    obtain ⟨t', ht'⟩ := Option.isSome_iff_exists.1 (isLive_of_parent hp)
    obtain ⟨t, ht, honward⟩ := hlater.onward id t' ht' hid
    have hp' : s.parent? id = some parent := by
      rw [parent?_eq ht, ← honward.parent, ← parent?_eq ht', hp]
    exact .child hp' (ih (Nat.lt_trans (hf'.older id parent hp) hid))

/-- What was there before a cancellation and is below the task still has been signalled. -/
theorem beingCancelled_of_cancelTask (hf : Forest s) (hf' : Forest s') {root id : TaskId}
    (hcall : s.cancelTask h root = (.ok (), s')) (hm : id ∈ s'.subtree root)
    (hid : id.val < s.nextTask) : s'.beingCancelled id := by
  obtain ⟨hl', hb'⟩ := (hf'.mem_subtree root id).1 hm
  have hperform : s.perform h (.cancel root) = some (.ok (), s') := congrArg some hcall
  have hlater : Later s s' := later_perform hperform
  have hroot := hlater.isLive (Nat.lt_of_le_of_lt (hf'.le_of_below hb') hid)
    (hf'.isLive_above hb' hl')
  have hl := hlater.isLive hid hl'
  have hsignalled := beingCancelled_cancelSubtree hf
    ((hf.mem_subtree root id).2 ⟨hl, hb'.earlier hf' hlater hid⟩)
  unfold cancelTask at hcall
  rw [if_pos hroot] at hcall
  have hrun := later_run (s.cancelSubtree root) h
  rw [hcall] at hrun
  exact hrun.beingCancelled (by rwa [(quiet_cancelSubtree s root).tree.next]) hl' hsignalled

/-- After a cancellation a second one steps nothing and changes nothing if and only if every task
below is being cancelled. One that is not was spawned after the first was called for. -/
theorem Run.cancel_twice (run : Run h log s) (id : TaskId)
    (hcall : s.cancelTask h id = (.ok (), s')) :
    (s'.cancelTask h id = (.ok (), s') ∧ .step ∉ s'.trail h (.cancel id) ↔
      ∀ j ∈ s'.subtree id, s'.beingCancelled j) ∧
    ∀ j ∈ s'.subtree id, ¬s'.beingCancelled j → s.nextTask ≤ j.val := by
  have hperform : s.perform h (.cancel id) = some (.ok (), s') := congrArg some hcall
  have hf' : Forest s' := (run.perform hperform).tidy.forest
  refine ⟨⟨fun hsame => ?_, fun hall => ?_⟩, fun j hm hcalm => ?_⟩
  · -- a second cancellation signals every task, and a signal is not taken back
    intro j hm
    obtain ⟨hl, hb⟩ := (hf'.mem_subtree id j).1 hm
    exact beingCancelled_of_cancelTask hf' hf' hsame.1 hm (hf'.fresh j hl)
  · obtain ⟨hrun, htrail⟩ := run_of_idle (idle_of_perform hperform) h
    have hcancel := cancelSubtree_of_cancelled hall
    simp only [cancelTask, trail]
    by_cases hl : s'.isLive id
    · simp [hl, hcancel, hrun, htrail]
    · have hissued : s.issued id := by
        unfold cancelTask at hcall
        split at hcall
        · exact run.issued ‹_›
        · split at hcall
          · assumption
          · cases hcall
      have hissued' : s'.issued id := (later_perform hperform).issued hissued
      simp [hl, hissued', hrun, htrail]
  · by_contra hlt
    exact hcalm (beingCancelled_of_cancelTask run.tidy.forest hf' hcall hm (by omega))

/-- The stubborn process stays, and cancelling it twice is the same as cancelling it once. -/
theorem cancel_twice_stubborn :
    let s := ((demoAfter [.enroll .stubborn [], .step]).cancelTask demo ⟨1⟩).2
    s.isLive ⟨1⟩ ∧ s.cancelTask demo ⟨1⟩ = (.ok (), s) := by
  intro s
  have hcall : (demoAfter [.enroll .stubborn [], .step]).cancelTask demo ⟨1⟩ = (.ok (), s) :=
    reply_eq (by decide)
  have htwice := (demoAfter_run [.enroll .stubborn [], .step]).cancel_twice ⟨1⟩ hcall
  exact ⟨by decide, (htwice.1.2 (by decide)).1⟩

/-- A caller is cleaned up by a task that only the second cancellation reaches. -/
theorem cancel_not_idempotent :
    ¬∀ (log : List (Scheduler Demo (Demo × Nat) Unit × Move Demo))
      (s s' : Scheduler Demo (Demo × Nat) Unit) (id : TaskId), Run demo log s → Idle s →
      s.cancelTask demo id = (.ok (), s') → s'.cancelTask demo id = (.ok (), s') := by
  intro hall
  let s := demoAfter [.enroll .caller [], .step]
  let s' := (s.cancelTask demo ⟨1⟩).2
  have hidle : Idle s := ⟨rfl, rfl⟩
  have hcall : s.cancelTask demo ⟨1⟩ = (.ok (), s') := reply_eq (by decide)
  have hlive : s'.isLive ⟨1⟩ := by decide
  have hgone : (s'.cancelTask demo ⟨1⟩).2.isLive ⟨1⟩ = false := by decide
  have htwice := hall _ s s' ⟨1⟩ (demoAfter_run _) hidle hcall
  clear_value s'
  rw [htwice, hlive] at hgone
  cases hgone

end CoopTasks.Scheduler
