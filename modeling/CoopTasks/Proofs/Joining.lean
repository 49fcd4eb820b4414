import CoopTasks.Proofs.Contract
import CoopTasks.Proofs.Records
import CoopTasks.Proofs.Waning
import Mathlib.Data.List.Dedup
import Mathlib.Data.List.Perm.Subperm

/-!
# What a settled task answers

A task that settles answers those who wait to join it, in the order in which they asked, and its
caller. Whoever joins it later is answered from the record. All of them are told the same, whether
they asked before or after, as long as the record is kept.
-/

namespace CoopTasks

/-- The last of each is at its place. -/
theorem dedup_concat {α : Type} [DecidableEq α] (l : List α) (a : α) :
    (l ++ [a]).dedup = l.dedup.filter (· ≠ a) ++ [a] := by
  induction l with
  | nil => rfl
  | cons b l ih =>
    rw [List.cons_append]
    by_cases hb : b ∈ l
    · rw [List.dedup_cons_of_mem (by simp [hb]), List.dedup_cons_of_mem hb, ih]
    · by_cases hba : b = a
      · rw [List.dedup_cons_of_mem (by simp [hba]), List.dedup_cons_of_notMem hb, ih]
        simp [hba]
      · rw [List.dedup_cons_of_notMem (by simp [hb, hba]), List.dedup_cons_of_notMem hb, ih]
        simp [hba]

/-- Some of those who asked still wait, and one more asks. -/
theorem sublist_dedup_append {α : Type} [DecidableEq α] {still waiting asked : List α}
    {next : Option α} (hstill : still.Sublist (waiting ++ next.toList))
    (hwaiting : waiting.Sublist asked.dedup) (hnext : ∀ a, next = some a → a ∉ waiting) :
    still.Sublist (asked ++ next.toList).dedup := by
  cases next with
  | none => simpa using hstill.trans (hwaiting.append_right _)
  | some a =>
    have hothers : waiting.filter (· ≠ a) = waiting :=
      List.filter_eq_self.2 fun b hb => by
        have hne : b ≠ a := fun heq => hnext a rfl (heq ▸ hb)
        simpa using hne
    have hkept := hwaiting.filter (· ≠ a)
    rw [hothers] at hkept
    rw [Option.toList_some, dedup_concat]
    exact hstill.trans (hkept.append_right _)

/-- A sublist without repetitions is told by its members. -/
theorem eq_filter_of_sublist {α : Type} {l l' : List α} {p : α → Bool} (hl : l.Nodup)
    (hs : l'.Sublist l) (hmem : ∀ a, a ∈ l' ↔ a ∈ l ∧ p a) : l' = l.filter p := by
  have hself : l'.filter p = l' := List.filter_eq_self.2 fun a ha => ((hmem a).1 ha).2
  have hfilter : l'.Sublist (l.filter p) := hself ▸ hs.filter p
  refine hfilter.eq_of_length_le ?_
  exact ((hl.filter p).subperm fun a ha => (hmem a).2 (List.mem_filter.1 ha)).length_le

namespace Settlement

/-- What a task that settled answers, by the way it ended. -/
structure Answers (record : Settlement) (answer : Input) : Prop where
  completed : ∀ v, record.result = .ok v → answer = .value v
  failed : ∀ e, record.status = .failed → record.result = .error e → answer = .error e
  cancelled : record.status = .cancelled → answer = .error (.joinedCancelled record.task)

end Settlement

theorem Departure.answers {P R W : Type} (d : Departure P R W) :
    d.record.Answers d.record.answer := by
  refine ⟨fun v hv => ?_, fun e hstatus he => ?_, fun hstatus => ?_⟩
  · have hne : d.record.status ≠ .cancelled := by
      intro hc
      rw [d.consistent.cancelled hc] at hv
      cases hv
    rw [Settlement.answer, if_neg hne, hv]
    rfl
  · rw [Settlement.answer, if_neg (by rw [hstatus]; simp), he]
    rfl
  · rw [Settlement.answer, if_pos hstatus]

namespace Scheduler

variable {P R W : Type} {s s' : Scheduler P R W} {h : Host P R W} {m : Move P}
variable {d : Departure P R W} {j u : TaskId} {log : List (Scheduler P R W × Move P)}

/-! ## Who waits, and since when -/

/-- The task that asks in a move to join another. -/
def joins? (h : Host P R W) (u : TaskId) (entry : Scheduler P R W × Move P) : Option TaskId :=
  match entry.2, entry.1.turn? h with
  | .step, some (id, .yield (.join target)) => if target = u then some id else none
  | _, _ => none

theorem turn_of_joins? (hj : joins? h u (s, m) = some j) :
    m = .step ∧ s.turn? h = some (j, .yield (.join u)) := by
  unfold joins? at hj
  split at hj
  · rename_i id target hm hturn
    split at hj <;> cases hj
    subst u
    exact ⟨hm, hturn⟩
  · cases hj

/-- Who asks to join is not waiting yet. -/
theorem Run.not_mem_of_joins? (run : Run h log s) (hj : joins? h u (s, m) = some j) :
    j ∉ s.waiters (.join u) := by
  obtain ⟨-, hturn⟩ := turn_of_joins? hj
  obtain ⟨t, process, input, rest, hq, -⟩ := turn_yield hturn
  intro hm
  have hqueued : j ∈ s.waiters .nothing := by simp [waiters, hq]
  have hwait := (run.coherent.of_mem_waiters hqueued).2.2.2.1
  rw [(run.coherent.of_mem_waiters hm).2.2.2.1] at hwait
  cases hwait

/-- Only the task that asks in a move comes to wait. -/
theorem waiters_move (s : Scheduler P R W) (h : Host P R W) (m : Move P) (u : TaskId) :
    ((s.move h m).waiters (.join u)).Sublist
      (s.waiters (.join u) ++ (joins? h u (s, m)).toList) := by
  cases waning_move s h m with
  | wanes hs => exact (hs.joiners u).trans (List.sublist_append_left _ _)
  | joined id target hm hturn _ hs =>
    have hasked : joins? h u (s, m) = if target = u then some id else none := by
      rw [hm]
      simp [joins?, hturn]
    have hlist : (if u = target then [id] else []) = (joins? h u (s, m)).toList := by
      rw [hasked]
      by_cases hu : u = target <;> simp [hu, eq_comm]
    exact hlist ▸ hs.joiners u
  | invoked id operation args _ _ _ hs => exact (hs.joiners u).trans (List.sublist_append_left _ _)
  | clock now pending _ _ hmove =>
    rw [hmove]
    exact List.sublist_append_left _ _

/-- The tasks that wait to join another stand in the order in which they asked last. -/
theorem Run.joiners_in_order (run : Run h log s) (u : TaskId) :
    (s.waiters (.join u)).Sublist (log.filterMap (joins? h u)).dedup := by
  induction run with
  | new hs =>
    obtain rfl := eq_of_new hs
    exact List.nil_sublist _
  | @move log s run m ih =>
    have hasked : [(s, m)].filterMap (joins? h u) = (joins? h u (s, m)).toList := by
      cases hj : joins? h u (s, m) <;> simp [hj]
    rw [List.filterMap_append, hasked]
    exact sublist_dedup_append (waiters_move s h m u) ih fun a ha => run.not_mem_of_joins? ha

/-- Until the task leaves in a move, no other comes to wait for it. -/
theorem waiters_before (hd : d ∈ s.departures h m) (u : TaskId) :
    (d.before.waiters (.join u)).Sublist (s.waiters (.join u)) := by
  cases waning_move s h m with
  | wanes _ hbefore => exact (hbefore d hd).joiners u
  | joined id target _ _ hnone => rw [hnone] at hd; cases hd
  | invoked id operation args _ _ hnone => rw [hnone] at hd; cases hd
  | clock now pending _ hnone => rw [hnone] at hd; cases hd

theorem Leaving.joiners_eq (hd : Leaving d) :
    d.task.joiners = d.before.waiters (.join d.id) := by
  simp [waiters, hd.found]

theorem Leaving.mem_joiners (hd : Leaving d) (j : TaskId) :
    j ∈ d.task.joiners ↔ d.before.wait? j = some (.join d.id) := by
  obtain ⟨L, hc⟩ := hd.coherent
  refine ⟨fun hm => ?_, fun hj => hc.mem_joiners hd.found hj⟩
  rw [hd.joiners_eq] at hm
  exact (hc.of_mem_waiters hm).2.2.2.1

/-- Of those who asked, the ones that still wait are answered, in their order. -/
theorem Run.joiners_of_departure (run : Run h log s) (hd : d ∈ s.departures h m) :
    d.task.joiners = (log.filterMap (joins? h d.id)).dedup.filter fun j =>
      d.before.wait? j = some (.join d.id) := by
  have hleaving : Leaving d := (run.move m).leaving (by simp [hd])
  have hasked : d.task.joiners.Sublist (log.filterMap (joins? h d.id)).dedup := by
    rw [hleaving.joiners_eq]
    exact (waiters_before hd d.id).trans (run.joiners_in_order d.id)
  refine eq_filter_of_sublist (List.nodup_dedup _) hasked fun j => ?_
  rw [decide_eq_true_iff, ← hleaving.mem_joiners]
  exact ⟨fun hm => ⟨hasked.subset hm, hm⟩, fun hm => hm.2⟩

/-! ## The answers -/

theorem queue_wakeIfWaiting {wait : Wait} (hw : s.wait? j = some wait) (input : Input) :
    (s.wakeIfWaiting j wait input).queue = (j, input) :: s.queue := by
  rw [wakeIfWaiting, if_pos hw]
  rfl

/-- Joiners that all wait are all queued, the first one first. -/
theorem queue_answerJoiners (record : Settlement) (joiners : List TaskId)
    (hnodup : joiners.Nodup) (s : Scheduler P R W)
    (hwait : ∀ j ∈ joiners, s.wait? j = some (.join record.task)) :
    (s.answerJoiners joiners record).queue =
      joiners.map (fun j => (j, record.answer)) ++ s.queue := by
  have hfold : ∀ (ids : List TaskId) (s : Scheduler P R W), ids.Nodup →
      (∀ j ∈ ids, s.wait? j = some (.join record.task)) →
      (ids.foldl (fun s joiner =>
        s.wakeIfWaiting joiner (.join record.task) record.answer) s).queue =
          ids.reverse.map (fun j => (j, record.answer)) ++ s.queue := by
    intro ids
    induction ids with
    | nil => exact fun _ _ _ => rfl
    | cons id ids ih =>
      intro s hnodup hwait
      obtain ⟨hnot, hnodup⟩ := List.nodup_cons.1 hnodup
      have hrest : ∀ j ∈ ids, (s.wakeIfWaiting id (.join record.task) record.answer).wait? j =
          some (.join record.task) := by
        intro j hj
        have hne : j ≠ id := fun heq => hnot (heq ▸ hj)
        rw [wait?_wakeIfWaiting, if_neg fun heq => hne heq.1]
        exact hwait j (List.mem_cons_of_mem _ hj)
      rw [List.foldl_cons, ih _ hnodup hrest, queue_wakeIfWaiting (hwait id List.mem_cons_self)]
      simp
  rw [answerJoiners, hfold _ s (List.nodup_reverse.2 hnodup)
    (fun j hj => hwait j (List.mem_reverse.1 hj)), List.reverse_reverse]

/-- A task that has settled waits for its children to the last. -/
theorem Leaving.ne_of_wait (hd : Leaving d) {wait : Wait} (hw : d.before.wait? j = some wait)
    (hne : wait ≠ .children) : j ≠ d.id := by
  rintro rfl
  obtain ⟨L, hc⟩ := hd.coherent
  obtain ⟨t, ht, hp⟩ := hc.process_of_wait hw hne
  obtain rfl := Option.some.inj (hd.found.symm.trans ht)
  rw [(Task.isDone_iff.1 hd.done).1] at hp
  cases hp

theorem wait?_cleared (d : Departure P R W) (h : Host P R W) (hne : j ≠ d.id) :
    (d.cleared h).wait? j = d.before.wait? j := by
  have hremove := wait?_remove d.before d.id d.task.parent j
  rwa [if_neg hne] at hremove

/-- How those who wait for a task that leaves are queued: the joiners before all that is queued, in
the order in which they asked, and the caller before them. -/
structure Heard (h : Host P R W) (log : List (Scheduler P R W × Move P))
    (d : Departure P R W) : Prop where
  order : d.task.joiners = (log.filterMap (joins? h d.id)).dedup.filter fun j =>
    d.before.wait? j = some (.join d.id)
  joiners : (d.filed h).queue =
    d.task.joiners.map (fun j => (j, d.record.answer)) ++ d.before.queue
  joined : ∀ j, d.before.wait? j = some (.join d.id) →
    ((d.filed h).queue.map Prod.fst).count j = 1
  caller : ∀ j, d.before.wait? j = some (.call d.id) →
    (d.after h).queue = (j, d.record.answer) :: (d.filed h).queue ∧
      ((d.after h).queue.map Prod.fst).count j = 1

theorem Leaving.queue_filed (hd : Leaving d) (h : Host P R W) :
    (d.filed h).queue = d.task.joiners.map (fun j => (j, d.record.answer)) ++ d.before.queue := by
  obtain ⟨L, hc⟩ := hd.coherent
  have hnodup : d.task.joiners.Nodup := hd.joiners_eq ▸ hc.nodup_waiters (.join d.id)
  have hqueue := queue_answerJoiners d.record d.task.joiners hnodup (d.cleared h) fun j hj => by
    have hw := (hd.mem_joiners j).1 hj
    rwa [wait?_cleared d h (hd.ne_of_wait hw (by simp))]
  rwa [queue_cleared] at hqueue

/-- The caller is answered with the same as the joiners. -/
theorem Leaving.queue_after (hd : Leaving d) (h : Host P R W)
    (hw : d.before.wait? j = some (.call d.id)) :
    (d.after h).queue = (j, d.record.answer) :: (d.filed h).queue := by
  obtain ⟨L, hc⟩ := hd.coherent
  obtain ⟨t, ht, hrole, hparent⟩ := hc.called hw
  obtain rfl := Option.some.inj (hd.found.symm.trans ht)
  have hcleared := wait?_cleared d h (hd.ne_of_wait hw (by simp))
  have hfiled : (d.filed h).wait? j = some (.call d.id) := by
    rw [Departure.filed, wait?_answerJoiners_of_ne, hcleared, hw]
    rw [hcleared, hw]
    simp
  have hdeliver : d.after h = (d.filed h).wakeIfWaiting j (.call d.id) d.record.answer := by
    rw [d.after_eq h]
    simp [deliver, hrole, hparent, Departure.record]
  rw [hdeliver, queue_wakeIfWaiting hfiled]

theorem Run.heard (run : Run h log s) (hd : d ∈ s.departures h m) : Heard h log d := by
  have hleaving : Leaving d := (run.move m).leaving (by simp [hd])
  have hfiled := hleaving.queue_filed h
  obtain ⟨L, hc⟩ := hleaving.coherent
  have hnodup : d.task.joiners.Nodup := hleaving.joiners_eq ▸ hc.nodup_waiters (.join d.id)
  -- whoever waits is not queued
  have hnot : ∀ {j w}, d.before.wait? j = some w → w ≠ .nothing →
      (d.before.queue.map Prod.fst).count j = 0 := by
    intro j w hw hne
    have hother : d.before.wait? j ≠ some .nothing := by simpa [hw] using hne
    exact List.count_eq_zero.2 (hc.not_mem_waiters (Or.inl hother))
  have hcount : ∀ j, ((d.filed h).queue.map Prod.fst).count j =
      d.task.joiners.count j + (d.before.queue.map Prod.fst).count j := by
    intro j
    rw [hfiled]
    simp [Function.comp_def]
  refine ⟨run.joiners_of_departure hd, hfiled, fun j hj => ?_, fun j hj => ?_⟩
  · rw [hcount, hnot hj (by simp), List.count_eq_one_of_mem hnodup ((hleaving.mem_joiners j).2 hj)]
  · have hafter := hleaving.queue_after h hj
    have hjoin : j ∉ d.task.joiners := by
      rw [hleaving.mem_joiners, hj]
      simp
    refine ⟨hafter, ?_⟩
    rw [hafter, List.map_cons, List.count_cons_self, hcount, hnot hj (by simp),
      List.count_eq_zero.2 hjoin]

/-! ## How those who waited go on -/

/-- A task that waited has its answer queued, or the signal that has taken its place. -/
theorem Leaving.told (hd : Leaving d) (h : Host P R W)
    (hw : d.before.wait? j = some (.join d.id) ∨ d.before.wait? j = some (.call d.id)) :
    ∃ c, (d.after h).Answered j d.record.answer c ∧
      (c = false → d.before.beingCancelled j = false) := by
  obtain ⟨L, hc⟩ := hd.coherent
  obtain ⟨t, ht, hp⟩ : ∃ t, d.before.task? j = some t ∧ t.process.isSome := by
    rcases hw with hw | hw <;> exact hc.process_of_wait hw (by simp)
  have hne : j ≠ d.id := by
    rcases hw with hw | hw <;> exact hd.ne_of_wait hw (by simp)
  have hid : j.val < d.before.nextTask := hd.forest.fresh j (by simp [isLive_eq, ht])
  have hcalm : ∀ {r u}, Firm d.before r → r.task? j = some u → u.cancelling = false →
      d.before.beingCancelled j = false := fun hfirm hu hcalm =>
    hfirm.calm hid (by simp [isLive_eq, hu]) (by rw [beingCancelled_eq hu, hcalm])
  rcases hw with hw | hw
  · obtain ⟨children, hu⟩ := find_cleared d h hne ht
    have htree : SameTree (d.cleared h) (d.filed h) := (quiet_answerJoiners ..).tree
    obtain ⟨u, hu, hstill⟩ := htree.find hu
    have hprocess : u.process = t.process := (Task.process_of_still hstill).trans rfl
    have hmem : (j, d.record.answer) ∈ (d.filed h).queue := by
      rw [hd.queue_filed h]
      exact List.mem_append_left _ (List.mem_map.2 ⟨j, (hd.mem_joiners j).2 hw, rfl⟩)
    have hanswered : (d.filed h).Answered j d.record.answer u.cancelling :=
      ⟨by rwa [htree.next, nextTask_cleared], u, hu, by rwa [hprocess], Or.inl ⟨hmem, rfl⟩⟩
    exact ⟨_, (quiet_deliver _ _ _).kept _ _ _ hanswered, hcalm (firm_filed d h) hu⟩
  · obtain ⟨u, hu, -, -, hprocess⟩ := find_after d h hne ht
    have hmem : (j, d.record.answer) ∈ (d.after h).queue := by
      rw [hd.queue_after h hw]
      exact List.mem_cons_self
    exact ⟨_, ⟨by rwa [nextTask_after], u, hu, by rwa [hprocess], Or.inl ⟨hmem, rfl⟩⟩,
      hcalm (firm_after d h) hu⟩

/-- A task has one entry in the queue after a move, and goes on with the given answer, unless it is
signalled before its turn. -/
structure Told (h : Host P R W) (s : Scheduler P R W) (m : Move P) (j : TaskId) (answer : Input) :
    Prop where
  once : ((s.move h m).queue.map Prod.fst).count j = 1
  queued : (j, answer) ∈ (s.move h m).queue ∨
    (j, .error (.cancelled j)) ∈ (s.move h m).queue ∧ Signalled s (s.move h m) j
  turn : ∀ ms input, (∀ entry ∈ (s.move h m).history h ms, ∀ i, ¬Receives entry j i) →
    ((s.move h m).moves h ms).queue.head? = some (j, input) →
    input = answer ∨
      input = .error (.cancelled j) ∧ Signalled s ((s.move h m).moves h ms) j

/-- What is queued for a task after a move is what it goes on with. -/
theorem Run.told_of_queued (run : Run h log s) (hfresh : j.val < s.nextTask) {answer : Input}
    (hqueued : (j, answer) ∈ (s.move h m).queue ∨
      (j, .error (.cancelled j)) ∈ (s.move h m).queue ∧ Signalled s (s.move h m) j) :
    Told h s m j answer := by
  obtain ⟨input, hin⟩ : ∃ input, (j, input) ∈ (s.move h m).queue := by
    rcases hqueued with hin | ⟨hin, -⟩
    · exact ⟨_, hin⟩
    · exact ⟨_, hin⟩
  have hpos := List.count_pos_iff.2 (List.mem_map_of_mem (f := Prod.fst) hin)
  refine ⟨Nat.le_antisymm ((run.move m).coherent.registered j).once hpos, hqueued,
    fun ms input hidle hhead => ?_⟩
  rcases hqueued with hin | ⟨hin, hcalm, hcondemned⟩
  · rcases (run.move m).answer_arrives hin ms hidle hhead with heq | ⟨heq, hcalm, hcondemned⟩
    · exact Or.inl heq
    · have hl := (run.move m).isLive_of_queued hin
      exact Or.inr ⟨heq, (run.firm_move m).calm hfresh hl hcalm, hcondemned⟩
  · have hstays := ((run.move m).firm_moves ms).condemned hcondemned
    rcases (run.move m).answer_arrives hin ms hidle hhead with heq | ⟨heq, -⟩
    · exact Or.inr ⟨heq, hcalm, hstays⟩
    · exact Or.inr ⟨heq, hcalm, hstays⟩

/-- Those who wait for a task that leaves, to join it or having called it, are told what it settled
with. -/
theorem Run.told (run : Run h log s) (hd : d ∈ s.departures h m)
    (hw : d.before.wait? j = some (.join d.id) ∨ d.before.wait? j = some (.call d.id)) :
    Told h s m j d.record.answer := by
  obtain ⟨D, D', hD⟩ := List.append_of_mem hd
  obtain ⟨q, hfirst, hclimb⟩ := run.phases m
  obtain ⟨hbefore, hleaving, hrest⟩ := hclimb.split D' hD
  obtain ⟨c, hanswered, hcalm⟩ := hleaving.told h hw
  have hlive : d.before.isLive j := by
    rcases hw with hw | hw <;> exact isLive_of_wait? hw
  have hfresh : j.val < s.nextTask := by
    rw [← (nextTask_same hd).1]
    exact hleaving.forest.fresh j hlive
  have hfirm : Firm s d.before := ((firm_popped s m).trans hfirst.firm).trans hbefore.firm
  obtain ⟨hid, u, hu, -, ⟨hin, -⟩ | ⟨hin, hcancel, hc⟩⟩ :=
    hrest.answered (Set.notMem_empty j) hanswered
  · exact run.told_of_queued hfresh (Or.inl hin)
  · refine run.told_of_queued hfresh (Or.inr ⟨hin, hfirm.calm hfresh hlive (hcalm hc), ?_⟩)
    exact condemned_of_beingCancelled hid (by rwa [beingCancelled_eq hu])

/-- The joiners that are not signalled in the move stay in their order. -/
theorem Run.joiners_queued (run : Run h log s) (hd : d ∈ s.departures h m) :
    ((d.task.joiners.filter fun j => (s.move h m).beingCancelled j = s.beingCancelled j).map
      fun j => (j, d.record.answer)).Sublist (s.move h m).queue := by
  obtain ⟨D, D', hD⟩ := List.append_of_mem hd
  obtain ⟨q, hfirst, hclimb⟩ := run.phases m
  obtain ⟨hbefore, hleaving, hrest⟩ := hclimb.split D' hD
  obtain ⟨r, hready, -, hchanges⟩ := after_stages d h ∅
  have hfirm : Firm s d.before := ((firm_popped s m).trans hfirst.firm).trans hbefore.firm
  have hfirmReady := (hfirm.trans (firm_filed d h)).trans hready.firm
  have hfirmAfter := hfirm.trans (firm_after d h)
  -- a joiner whose state of cancellation is the same at both ends is left alone in between
  have hstays : ∀ j ∈ d.task.joiners, (s.move h m).beingCancelled j = s.beingCancelled j →
      (j.val < (d.after h).nextTask ∧ (s.move h m).isLive j) ∧
        r.beingCancelled j = s.beingCancelled j ∧
          (d.after h).beingCancelled j = s.beingCancelled j := by
    intro j hj hsame
    have hw := (hleaving.mem_joiners j).1 hj
    have hfresh : j.val < d.before.nextTask :=
      hleaving.forest.fresh j (isLive_of_wait? hw)
    have hold : j.val < s.nextTask := (nextTask_same hd).1 ▸ hfresh
    have hl : (s.move h m).isLive j := by
      rcases (run.told hd (Or.inl hw)).queued with hin | ⟨hin, -⟩
      · exact (run.move m).isLive_of_queued hin
      · exact (run.move m).isLive_of_queued hin
    have hlast := hchanges.changed.firm.trans hrest.firm
    exact ⟨⟨by rwa [nextTask_after], hl⟩, (hfirmReady.between hlast hold hl hsame).2,
      (hfirmAfter.between hrest.firm hold hl hsame).2⟩
  have hkept : ∀ entry ∈ (d.task.joiners.filter fun j =>
      (s.move h m).beingCancelled j = s.beingCancelled j).map fun j => (j, d.record.answer),
      entry.1 ∈ d.task.joiners ∧
        (s.move h m).beingCancelled entry.1 = s.beingCancelled entry.1 := by
    intro entry he
    obtain ⟨j, hj, rfl⟩ := List.mem_map.1 he
    simpa using hj
  refine hrest.sublist_queue (hchanges.sublist_queue ?_ fun entry he => ?_) (fun entry he => ?_)
    fun entry he => ?_
  · rw [hready.queue, hleaving.queue_filed h]
    exact (List.filter_sublist.map _).trans (List.sublist_append_left _ _)
  · obtain ⟨-, hr, hafter⟩ := hstays _ (hkept entry he).1 (hkept entry he).2
    exact hafter.trans hr.symm
  · exact (hstays _ (hkept entry he).1 (hkept entry he).2).1
  · obtain ⟨-, -, hafter⟩ := hstays _ (hkept entry he).1 (hkept entry he).2
    exact (hkept entry he).2.trans hafter.symm

/-! ## Late joins -/

/-- What a task is told that joins one that is gone. -/
def lateAnswer (s : Scheduler P R W) (u : TaskId) : Input :=
  (s.settled? u).elim (.error (.resultEvicted u)) Settlement.answer

theorem queue_note (s : Scheduler P R W) (h : Host P R W) (id : TaskId) (effect : Effect P W) :
    (s.note h id effect).queue = s.queue := by
  unfold note
  split <;> rfl

theorem carryOut_join_of_gone (hgone : s.isLive u = false) (hissued : s.issued u) (h : Host P R W)
    (j : TaskId) : ∃ s', s.carryOut h j (.join u) = .ok s' ∧
      s'.queue = (j, s.lateAnswer u) :: s.queue := by
  simp only [carryOut, join, hgone, hissued, lateAnswer]
  cases s.settled? u with
  | none => exact ⟨_, rfl, rfl⟩
  | some record => exact ⟨_, rfl, rfl⟩

/-- Whoever joins a task that is gone is answered at once. -/
theorem queue_dispatch_join (hgone : s.isLive u = false) (hissued : s.issued u) (h : Host P R W)
    (j : TaskId) :
    (s.dispatch h j (.join u)).queue = (j, s.lateAnswer u) :: s.queue := by
  have hquiet := quiet_note s h j (.join u)
  have hgone' : (s.note h j (.join u)).isLive u = false := by rw [hquiet.tree.isLive, hgone]
  have hissued' : (s.note h j (.join u)).issued u := by rwa [issued, hquiet.tree.next]
  obtain ⟨r, hcarried, hqueue⟩ := carryOut_join_of_gone hgone' hissued' h j
  have hvalid : (Effect.join u : Effect P W).violation? = none := rfl
  simp only [dispatch, hvalid, hcarried]
  rw [hqueue, queue_note, lateAnswer, lateAnswer, settled?, hquiet.settled, ← settled?]

/-- How a task that joins a settled one is answered: from the record, or by its absence. -/
structure Late (h : Host P R W) (s : Scheduler P R W) (d : Departure P R W) (j : TaskId) :
    Prop where
  kept : s.settled? d.id ≠ none →
    (s.move h .step).queue = (j, d.record.answer) :: s.queue.tail
  evicted : s.settled? d.id = none →
    (s.move h .step).queue = (j, .error (.resultEvicted d.id)) :: s.queue.tail
  once : ((s.move h .step).queue.map Prod.fst).count j = 1

theorem Run.late (run : Run h log s) (hd : d ∈ settlements h log)
    (hturn : s.turn? h = some (j, .yield (.join d.id))) : Late h s d j := by
  obtain ⟨D, D', hD⟩ := List.append_of_mem hd
  obtain ⟨hroster, hleaving⟩ := run.roster_along.2 D d D' hD
  obtain ⟨hlt, hgone⟩ := run.roster.gone d hd
  have hissued : s.issued d.id := by
    have hpositive := hroster.positive.2 d.id (by simp [isLive_eq, hleaving.found])
    simp [Scheduler.issued, hpositive, hlt]
  obtain ⟨t, process, input, rest, hq, -, -, -, hmove⟩ := turn_yield hturn
  have hqueue : (s.move h .step).queue = (j, s.lateAnswer d.id) :: s.queue.tail := by
    rw [hmove, queue_takeFault, queue_dispatch_join, hq]
    · rfl
    · have hgone' : ∀ world, task? { s with queue := rest, world } d.id = none := fun _ => hgone
      simp [isLive_eq, storeProcess, hgone']
    · exact hissued
  refine ⟨fun hkept => ?_, fun hnone => by rw [hqueue, lateAnswer, hnone]; rfl, ?_⟩
  · have hrecord := run.settled?_of_split hD
    split at hrecord
    · rw [hqueue, lateAnswer, hrecord]
      rfl
    · exact absurd hrecord hkept
  · have honce := ((run.move .step).coherent.registered j).once
    rw [hqueue, List.map_cons, List.count_cons_self] at honce ⊢
    exact Nat.le_antisymm honce (Nat.succ_le_succ (Nat.zero_le _))

/-- However the tasks interleave, a task that settles tells all who want to know the same: those
who wait to join it, in the order in which they asked, its caller, and those who join it later, as
long as its record is kept. -/
theorem Run.told_alike (run : Run h log s) (hd : d ∈ s.departures h m) :
    d.record.Answers d.record.answer ∧ Heard h log d ∧
      (∀ j, d.before.wait? j = some (.join d.id) ∨ d.before.wait? j = some (.call d.id) →
        Told h s m j d.record.answer) ∧
      ((d.task.joiners.filter fun j => (s.move h m).beingCancelled j = s.beingCancelled j).map
        fun j => (j, d.record.answer)).Sublist (s.move h m).queue ∧
      ∀ ms j, ((s.move h m).moves h ms).turn? h = some (j, .yield (.join d.id)) →
        Late h ((s.move h m).moves h ms) d j :=
  ⟨d.answers, run.heard hd, fun _ hw => run.told hd hw, run.joiners_queued hd,
    fun ms _ hturn => ((run.move m).moves ms).late (by simp [hd]) hturn⟩

/-- A breaker that fails tells the task that waits for it and one that joins it afterwards. -/
theorem told_alike_joiners :
    let s := stageAfter [.enroll .joiner [], .step, .step]
    let s' := (s.move stage .step).moves stage [.step, .enroll .joiner [], .step]
    Told stage s .step ⟨1⟩ (.error (.protocol (.unknownTask ⟨0⟩))) ∧
      (s'.move stage .step).queue =
        (⟨3⟩, .error (.protocol (.unknownTask ⟨0⟩))) :: s'.queue.tail := by
  have run := stageAfter_run [.enroll .joiner [], .step, .step]
  obtain ⟨d, hd, hid, hw, hanswer⟩ :
      ∃ d ∈ (stageAfter [.enroll .joiner [], .step, .step]).departures stage .step, d.id = ⟨2⟩ ∧
        d.before.wait? ⟨1⟩ = some (.join d.id) ∧
          d.record.answer = .error (.protocol (.unknownTask ⟨0⟩)) :=
    ⟨_, List.mem_cons_self, rfl, rfl, rfl⟩
  have htold := run.told_alike hd
  refine ⟨hanswer ▸ htold.2.2.1 ⟨1⟩ (Or.inl hw), ?_⟩
  have hlate := htold.2.2.2.2 [.step, .enroll .joiner [], .step] ⟨3⟩ (by rw [hid]; rfl)
  rw [← hanswer]
  exact hlate.kept (by rw [hid]; exact Option.some_ne_none _)

end Scheduler

end CoopTasks
