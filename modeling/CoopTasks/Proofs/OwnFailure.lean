import CoopTasks.Proofs.Endings
import CoopTasks.Proofs.Newcomers
import CoopTasks.Proofs.Resolution

/-!
# What a failed task reports

A task whose process has failed settles once all below it is gone. If it is not cancelled before, it
reports its own failure, whatever the tasks below it do while they are torn down. There is one
exception: a child that was being torn down already, for a failure below it, still settles with that
failure, and if nobody joins the child its failure takes the place of the task's own.
-/

namespace CoopTasks

theorem Task.outcome_of_still {P R W : Type} {t t' : Task P R W} (h : t'.still = t.still) :
    t'.outcome = t.outcome := by
  have hstill := congrArg Task.outcome h
  exact hstill

namespace Scheduler

variable {P R W : Type} {s s' : Scheduler P R W} {h : Host P R W} {A : Set TaskId}
variable {D D' : List (Departure P R W)} {d : Departure P R W} {id j : TaskId} {e : TaskError}
variable {t' : Task P R W} {m : Move P} {log : List (Scheduler P R W × Move P)}

/-! ## Blame -/

/-- A forked task leaves failed, and nobody waits to join it. -/
structure Blames (d : Departure P R W) (parent : TaskId) (e : TaskError) : Prop where
  forked : d.task.role = .forked
  parent : d.task.parent = some parent
  failed : d.record.failure? = some e
  unjoined : d.task.joiners = []

theorem Steady.abort_of (hs : Steady A s s') (ht' : s'.task? j = some t')
    (habort : t'.abort = some e) : ∃ t, s.task? j = some t ∧ t.abort = some e := by
  cases ht : s.task? j with
  | none =>
    rw [(hs.came j t' ht' ht).2] at habort
    cases habort
  | some t =>
    obtain ⟨u, hu, hsteady⟩ := hs.stays j t ht
    obtain rfl := Option.some.inj (ht'.symm.trans hu)
    exact ⟨t, rfl, hsteady.abort.symm.trans habort⟩

theorem abort_of_verdict (hs : s'.verdict? j = s.verdict? j) (ht' : s'.task? j = some t')
    (habort : t'.abort = some e) : ∃ t, s.task? j = some t ∧ t.abort = some e := by
  simp only [verdict?, ht', Option.map_some] at hs
  obtain ⟨t, ht, hpair⟩ := Option.map_eq_some_iff.1 hs.symm
  exact ⟨t, ht, (Prod.mk.inj hpair).2.trans habort⟩

theorem abort_of_abort {p : TaskId} {e' : TaskError} (ht' : (s.abort p e').task? j = some t')
    (habort : t'.abort = some e) :
    (∃ t, s.task? j = some t ∧ t.abort = some e) ∨ j = p ∧ e = e' := by
  rcases abort_cases s p e' with ⟨hsame, -⟩ | ⟨t, ht, -, -, hblamed⟩
  · rw [hsame] at ht'
    exact Or.inl ⟨t', ht', habort⟩
  rw [hblamed] at ht'
  have hsteady : Steady ∅ _ _ :=
    (changes_cancelSubtree (Q := s.plain) (s.updateTask p fun t => { t with abort := some e' })
      p).changed.toSteady
  obtain ⟨u, hu, ha⟩ := hsteady.abort_of ht' habort
  by_cases hj : j = p
  · subst hj
    simp only [task?_updateTask, if_true, ht, Option.map_some, Option.some.injEq] at hu
    rw [← hu] at ha
    exact Or.inr ⟨rfl, (Option.some.inj ha).symm⟩
  · exact Or.inl ⟨u, by simpa [hj] using hu, ha⟩

theorem abort_of_settleBranch {g : GroupId} {slot : Nat} {outcome : Outcome}
    (ht' : (s.settleBranch g slot outcome).task? j = some t') (habort : t'.abort = some e) :
    ∃ t, s.task? j = some t ∧ t.abort = some e := by
  rcases settleBranch_cases s g slot outcome with
    ⟨-, heq⟩ | ⟨group, -, ⟨-, heq⟩ | ⟨input, -, heq⟩⟩ <;> rw [heq] at ht'
  · exact ⟨t', ht', habort⟩
  · exact ⟨t', ht', habort⟩
  · have hsteady : Steady ∅ _ _ :=
      (changes_cancelSubtrees (Q := s.plain) (wakeIfWaiting { s with groups := s.groups.erase g }
        group.owner (.group g) input) group.branches).changed.toSteady
    obtain ⟨u, hu, ha⟩ := hsteady.abort_of ht' habort
    have hwoken := woken_wakeIfWaiting { s with groups := s.groups.erase g } group.owner (.group g)
      input
    exact abort_of_verdict (hwoken.verdict j) hu ha

/-- A departure blames nobody but the parent, and with nothing but its own failure. -/
theorem abort_of_after (d : Departure P R W) (h : Host P R W) (ht' : (d.after h).task? j = some t')
    (habort : t'.abort = some e) :
    (∃ t, d.before.task? j = some t ∧ t.abort = some e) ∨ Blames d j e := by
  have hne : j ≠ d.id := (find_of_after d h ht').1
  have hfiled : (∃ t, (d.filed h).task? j = some t ∧ t.abort = some e) →
      ∃ t, d.before.task? j = some t ∧ t.abort = some e := by
    rintro ⟨t, ht, ha⟩
    exact abort_of_verdict (((woken_filed d h).verdict j).trans (verdict?_cleared d h hne)) ht ha
  rw [d.after_eq h] at ht'
  rcases deliver_cases (d.filed h) d.task d.record with
    heq | ⟨caller, -, -, heq⟩ | ⟨e', -, -, heq⟩ | ⟨parent, e', hrole, hparent, hfail, hnil, heq⟩ |
      ⟨g, slot, -, -, heq⟩ <;> rw [heq] at ht'
  · exact Or.inl (hfiled ⟨t', ht', habort⟩)
  · exact Or.inl (hfiled (abort_of_verdict ((woken_wakeIfWaiting ..).verdict j) ht' habort))
  · exact Or.inl (hfiled ⟨t', ht', habort⟩)
  · rcases abort_of_abort ht' habort with hold | ⟨rfl, rfl⟩
    · exact Or.inl (hfiled hold)
    · exact Or.inr ⟨hrole, hparent, hfail, hnil⟩
  · exact Or.inl (hfiled (abort_of_settleBranch ht' habort))

/-- Who is blamed for a failure was blamed before, or a child of it has left failed. -/
theorem Course.abort_of (hcourse : Course h A s D s') (ht' : s'.task? j = some t')
    (habort : t'.abort = some e) :
    (∃ t, s.task? j = some t ∧ t.abort = some e) ∨ ∃ d ∈ D, Blames d j e := by
  induction hcourse generalizing t' with
  | refl => exact Or.inl ⟨t', ht', habort⟩
  | change _ hchange ih =>
    obtain ⟨t, ht, ha⟩ := hchange.changed.toSteady.abort_of ht' habort
    exact ih ht ha
  | group id mode _ htidy hl _ ih =>
    obtain ⟨t, ht, ha⟩ := (steady_startGroup (A := A) htidy hl mode _).abort_of ht' habort
    exact ih ht ha
  | @leave d D _ _ ih =>
    rcases abort_of_after d h ht' habort with ⟨t, ht, ha⟩ | hblames
    · exact (ih ht ha).imp id fun ⟨d', hd', hblames⟩ => ⟨d', List.mem_append_left _ hd', hblames⟩
    · exact Or.inr ⟨d, by simp, hblames⟩

/-! ## Failed tasks -/

/-- The process of a task has failed. If the task is blamed for another failure, one of the tasks
that have left since is a child that failed with it. -/
structure Fallen (D : List (Departure P R W)) (s : Scheduler P R W) (id : TaskId) (e : TaskError) :
    Prop where
  old : id.val < s.nextTask
  ended : ∀ t, s.task? id = some t → t.process = none ∧ t.outcome = some (.error e)
  blame : ∀ t e', s.task? id = some t → t.abort = some e' → ∃ d ∈ D, Blames d id e'

theorem Fallen.steady (hs : Fallen D s id e) (hsteady : Steady A s s') (hid : id ∉ A) :
    Fallen D s' id e := by
  refine ⟨Nat.lt_of_lt_of_le hs.old hsteady.next, fun t' ht' => ?_, fun t' e' ht' habort => ?_⟩
  · cases ht : s.task? id with
    | none => exact absurd (hsteady.came id t' ht' ht).1 (Nat.not_le.2 hs.old)
    | some t =>
      obtain ⟨u, hu, hkept⟩ := hsteady.stays id t ht
      obtain rfl := Option.some.inj (ht'.symm.trans hu)
      rw [hkept.process.resolve_left hid, hkept.outcome.resolve_left hid]
      exact hs.ended t ht
  · obtain ⟨t, ht, ha⟩ := hsteady.abort_of ht' habort
    exact hs.blame t e' ht ha

theorem Fallen.leave (hs : Fallen D d.before id e) (h : Host P R W) :
    Fallen (D ++ [d]) (d.after h) id e := by
  refine ⟨by rw [nextTask_after]; exact hs.old, fun t' ht' => ?_, fun t' e' ht' habort => ?_⟩
  · obtain ⟨u, hu, hstill⟩ := (sameTree_after d h).symm.find ht'
    obtain ⟨-, t, ht, heq⟩ := find_of_cleared d h hu
    obtain ⟨hprocess, houtcome⟩ := hs.ended t ht
    rw [← Task.process_of_still hstill, ← Task.outcome_of_still hstill, heq]
    exact ⟨hprocess, houtcome⟩
  · rcases abort_of_after d h ht' habort with ⟨t, ht, ha⟩ | hblames
    · obtain ⟨d', hd', hblames⟩ := hs.blame t e' ht ha
      exact ⟨d', List.mem_append_left _ hd', hblames⟩
    · exact ⟨d, by simp, hblames⟩

theorem Course.fallen (hcourse : Course h A s D' s') (hid : id ∉ A) (hs : Fallen D s id e) :
    Fallen (D ++ D') s' id e := by
  induction hcourse with
  | refl => simpa using hs
  | change _ hchange ih => exact ih.steady hchange.changed.toSteady hid
  | group owner mode _ htidy hl _ ih =>
    exact ih.steady (steady_startGroup (A := A) htidy hl mode _) hid
  | leave _ _ ih =>
    rw [← List.append_assoc]
    exact ih.leave h

/-- What a failed task settles with: its own failure, unless it was cancelled or a child that failed
has left. -/
theorem Fallen.record (hs : Fallen D d.before d.id e) (hd : Leaving d) :
    (d.task.cancelling = false ∧ d.record = ⟨d.id, .failed, .error e⟩) ∨
    (d.task.cancelling = true ∧ d.record = ⟨d.id, .cancelled, .error (.cancelled d.id)⟩) ∨
    ∃ d' ∈ D, ∃ e', Blames d' d.id e' ∧ d.record = ⟨d.id, .failed, .error e'⟩ := by
  obtain ⟨-, houtcome⟩ := hs.ended d.task hd.found
  cases ha : d.task.abort with
  | some e' =>
    obtain ⟨d', hd', hblames⟩ := hs.blame d.task e' hd.found ha
    exact Or.inr (Or.inr ⟨d', hd', e', hblames, record_of_abort ha⟩)
  | none =>
    cases hc : d.task.cancelling with
    | true => exact Or.inr (Or.inl ⟨rfl, record_of_cancelled hc ha⟩)
    | false =>
      refine Or.inl ⟨rfl, ?_⟩
      simp [Departure.record, Task.endStatus, Task.endResult, ha, hc, houtcome]

/-! ## Steps and runs -/

/-- A task stays after its process has failed: it is not being cancelled for that, but all that is
below it is. -/
structure Lingers (s : Scheduler P R W) (id : TaskId) (e : TaskError) : Prop where
  live : s.isLive id
  calm : s.beingCancelled id = false
  fallen : Fallen [] s id e
  torn : TornDown s id

theorem fallen_of_task {t : Task P R W} (hf : Forest s) (ht : s.task? id = some (t.fallen e))
    (ha : t.abort = none) : Fallen [] s id e := by
  refine ⟨hf.fresh id (by simp [isLive_eq, ht]), fun u hu => ?_, fun u e' hu habort => ?_⟩
  · obtain rfl := Option.some.inj (ht.symm.trans hu)
    exact ⟨rfl, rfl⟩
  · obtain rfl := Option.some.inj (ht.symm.trans hu)
    cases ha.symm.trans habort

theorem lingers_cancelSubtrees {t : Task P R W} (hf : Forest s)
    (ht : s.task? id = some (t.fallen e)) (hc : t.cancelling = false) (ha : t.abort = none) :
    Lingers (s.cancelSubtrees t.children) id e := by
  have htree := (quiet_cancelSubtrees s t.children).tree
  have hsteady : Steady ∅ s (s.cancelSubtrees t.children) :=
    (changes_cancelSubtrees (Q := s.plain) s t.children).changed.toSteady
  have hlisted : s.children id = t.children := (children_eq ht).trans rfl
  refine ⟨?_, ?_, (fallen_of_task hf ht ha).steady hsteady (Set.notMem_empty id), ?_⟩
  · rw [htree.isLive]
    simp [isLive_eq, ht]
  · have hyounger : ∀ child ∈ t.children, s.isLive child → id.val < child.val :=
      fun child hm _ => hf.lt_of_mem_children (hlisted ▸ hm)
    rw [beingCancelled_cancelSubtrees_of_older hf _ hyounger, beingCancelled_eq ht]
    exact hc
  · intro j hj hb hne
    rw [htree.isLive] at hj
    have hb' := hb.congr fun k => (htree.shape.parent k).symm
    obtain ⟨child, hm, hbelow⟩ := ((hf.below_iff id j).1 hb').resolve_left hne
    exact (beingCancelled_cancelSubtrees hf t.children).2
      ⟨child, hlisted ▸ hm, (hf.mem_subtree child j).2 ⟨hj, hbelow⟩⟩

theorem Lingers.takeFault (hs : Lingers s id e) : Lingers s.takeFault.2 id e := by
  have htasks := tasks_takeFault s
  have htree := (quiet_takeFault s).tree
  have hflag : ∀ j, s.takeFault.2.beingCancelled j = s.beingCancelled j := fun j => by
    rw [beingCancelled, task?_of_tasks htasks, beingCancelled]
  refine ⟨by rw [htree.isLive]; exact hs.live, by rw [hflag]; exact hs.calm, ?_, ?_⟩
  · exact hs.fallen.steady (A := ∅) (.of_tasks htasks htree.next) (Set.notMem_empty id)
  · intro j hj hb hne
    rw [htree.isLive] at hj
    rw [hflag]
    exact hs.torn j hj (hb.congr fun k => (htree.shape.parent k).symm) hne

theorem Blamed.abort_eq_none {t : Task P R W} (hb : Blamed s) (ht : s.task? id = some t)
    (hc : t.cancelling = false) : t.abort = none := by
  cases ha : t.abort with
  | none => rfl
  | some e =>
    have hcancel := hb id t ht (by simp [ha])
    rw [hc] at hcancel
    cases hcancel

/-- A task whose process fails settles in the move, with its own failure, or it stays. -/
theorem Run.failed_move (run : Run h log s) (hend : s.ending? h m = some (id, .error e))
    (hcalm : s.beingCancelled id = false) :
    (∃ d D, s.departures h m = d :: D ∧ d.id = id ∧ d.task.cancelling = false ∧
      d.record = ⟨id, .failed, .error e⟩) ∨
    s.departures h m = [] ∧ Lingers (s.move h m) id e := by
  obtain ⟨hl, r, hshape, hverdict, hmove, hclimb⟩ := finish_of_ending? hend
  obtain ⟨u, hu⟩ : ∃ u, s.task? id = some u := Option.isSome_iff_exists.1 hl
  rw [beingCancelled_eq hu] at hcalm
  have hspared : r.verdict? id = some (false, none) := by
    rw [hverdict, verdict?, hu, Option.map_some, hcalm, run.blamed_along.1.abort_eq_none hu hcalm]
  obtain ⟨t, ht, hpair⟩ := Option.map_eq_some_iff.1 hspared
  obtain ⟨hc, ha⟩ := Prod.mk.inj hpair
  rcases finish_failed ht hc h e with ⟨-, d, D, hleaves, rfl, htask⟩ | ⟨-, hstays, hfinish⟩
  · refine Or.inl ⟨d, D, hclimb.trans hleaves, rfl, by rw [htask]; exact hc, ?_⟩
    simp [Departure.record, Task.endStatus, Task.endResult, htask, Task.fallen, hc, ha]
  · have hforest : Forest ((r.raiseOf id (.error e)).endProcess id (.error e)) :=
      (run.tidy.forest.congr hshape).congr (sameShape_endProcess r id (.error e) [])
    refine Or.inr ⟨hclimb.trans hstays, ?_⟩
    rw [hmove, hfinish]
    exact (lingers_cancelSubtrees hforest (task?_fallen ht e) hc ha).takeFault

theorem Run.fallen_moves (run : Run h log s) (hs : Fallen D s id e) (ms : List (Move P))
    {E E' : List (Departure P R W)} (hE : settlements h (s.history h ms) = E ++ d :: E') :
    Fallen (D ++ E) d.before id e := by
  induction ms generalizing log s D E with
  | nil => simp [history] at hE
  | cons m ms ih =>
    have hidle : id ∉ s.active := by
      intro hactive
      obtain ⟨input, hhead⟩ := mem_active.1 hactive
      obtain ⟨t, ht, hp⟩ := run.find_of_queued (List.mem_of_head? hhead)
      rw [(hs.ended t ht).1] at hp
      cases hp
    have hpopped : Fallen D (s.popped m) id e := by
      have hpop : Steady ∅ s (s.popped m) := by cases m <;> exact .of_tasks rfl rfl
      exact hs.steady hpop (Set.notMem_empty id)
    have hcourse := run.course m
    rw [history, settlements_cons] at hE
    rcases List.append_eq_append_iff.1 hE with ⟨F, rfl, hF⟩ | ⟨F, hdepartures, hF⟩
    · rw [← List.append_assoc]
      exact ih (run.move m) (hcourse.fallen hidle hpopped) hF
    · cases F with
      | nil =>
        rw [List.append_nil] at hdepartures
        have hlater := ih (run.move m) (hcourse.fallen hidle hpopped) (E := [])
          (by simpa using hF.symm)
        rwa [List.append_nil, hdepartures] at hlater
      | cons first F =>
        obtain ⟨rfl, -⟩ := List.cons.inj hF
        exact (hcourse.split F hdepartures).1.fallen hidle hpopped

/-- A task that is torn down does not blame another for a failure unless it was blamed itself
before. -/
theorem Run.blamed_child (run : Run h log s) (hs : Lingers s id e)
    (ms : List (Move P)) (hd : d ∈ settlements h (s.history h ms)) {e' : TaskError}
    (hblames : Blames d id e') : s.verdict? d.id = some (true, some e') := by
  have hleaving := run.leaving_history hd
  have hparent : d.before.parent? d.id = some id := by
    rw [parent?_eq hleaving.found, hblames.parent]
  have holder := hleaving.forest.older d.id id hparent
  obtain ⟨entry, he, hdeparts⟩ := List.mem_flatMap.1 hd
  obtain ⟨before, after, -, hstate⟩ := mem_history he
  obtain ⟨r, m⟩ := entry
  obtain rfl : r = s.moves h before := hstate
  -- the child is one of those that the task had when it failed
  have hold : d.id.val < s.nextTask := by
    obtain ⟨E, E', hE⟩ := List.append_of_mem hdeparts
    have hbetween := ((run.moves before).course m).split E' hE |>.1.firm
    have hfirm := (firm_popped (s.moves h before) m).trans hbetween
    have hfresh : d.id.val < (s.moves h before).nextTask := by
      rw [← (nextTask_same hdeparts).1]
      exact hleaving.forest.fresh d.id (by simp [isLive_eq, hleaving.found])
    obtain ⟨t, ht, hkept, -⟩ := hfirm.stands d.id d.task hleaving.found hfresh
    have hfixed := run.fixed_moves (.refl s) hs.torn hs.fallen.old
      (fun t ht => (hs.fallen.ended t ht).1)
      (fun j p hp _ => run.tidy.forest.fresh j (isLive_of_parent hp)) before
    exact hfixed d.id id (by rw [parent?_eq ht, ← hkept, hblames.parent]) .self
  obtain ⟨t, ht, hkept, hstands⟩ := (run.firm_before ms hd).stands d.id d.task hleaving.found hold
  have hbelow : Below s id d.id := .child (by rw [parent?_eq ht, ← hkept, hblames.parent]) .self
  have hc := hs.torn d.id (by simp [isLive_eq, ht]) hbelow fun heq => by simp [heq] at holder
  rw [beingCancelled_eq ht] at hc
  obtain ⟨hcancel, habort⟩ := hstands hc
  have hfailed := hblames.failed
  cases ha : d.task.abort with
  | none =>
    rw [record_of_cancelled hcancel ha] at hfailed
    cases hfailed
  | some e'' =>
    rw [record_of_abort ha] at hfailed
    cases hfailed
    simp [verdict?, ht, hc, ← habort, ha]

theorem task?_popped (s : Scheduler P R W) (m : Move P) (j : TaskId) :
    (s.popped m).task? j = s.task? j := by
  cases m <;> rfl

/-- In a move in which nobody leaves nobody is blamed. -/
theorem Run.verdict_of_departures (run : Run h log s) (hnone : s.departures h m = [])
    (hverdict : (s.move h m).verdict? j = some (true, some e)) :
    s.verdict? j = some (true, some e) := by
  obtain ⟨t', ht', hpair⟩ := Option.map_eq_some_iff.1 hverdict
  rcases (run.course m).abort_of ht' (Prod.mk.inj hpair).2 with ⟨t, ht, habort⟩ | ⟨d, hd, -⟩
  · rw [task?_popped] at ht
    have hcancel := run.blamed_along.1 j t ht (by simp [habort])
    simp [verdict?, ht, hcancel, habort]
  · rw [hnone] at hd
    cases hd

/-- From the departure of a failed child on, that nobody joins, its parent is being cancelled. -/
theorem Run.cancelling_of_blames (run : Run h log s) {E E' : List (Departure P R W)}
    (hE : settlements h log = E ++ d :: E') {d' : Departure P R W} (hd' : d' ∈ E)
    (hblames : Blames d' d.id e) : d.task.cancelling = true := by
  obtain ⟨E₁, E₂, rfl⟩ := List.append_of_mem hd'
  have hleaving : Leaving d := run.leaving (by simp [hE])
  have hleaving' : Leaving d' := run.leaving (by simp [hE])
  have hparent : d'.before.parent? d'.id = some d.id := by
    rw [parent?_eq hleaving'.found, hblames.parent]
  have hfresh := hleaving'.forest.fresh d.id (hleaving'.forest.isLive_parent hparent)
  have hfirm : Firm (d'.after h) d.before :=
    (run.firm_since (E := E₁) (by simpa using hE)).2 d (by simp)
  have hlive : d.before.isLive d.id := by simp [isLive_eq, hleaving.found]
  rw [← beingCancelled_eq hleaving.found]
  cases hcalm : d'.before.beingCancelled d.id with
  | true => exact ((firm_after d' h).trans hfirm).beingCancelled hlive hfresh hcalm
  | false =>
    have hjoin := hleaving'.joiners_eq_nil.1 hblames.unjoined
    obtain ⟨hverdict, -⟩ := hleaving'.propagates (h := h) (run.blamed_before (by simp [hE]))
      hblames.forked hblames.parent hblames.failed hjoin hcalm
    obtain ⟨t, ht, hpair⟩ := Option.map_eq_some_iff.1 hverdict
    have hcancel : (d'.after h).beingCancelled d.id := by
      rw [beingCancelled_eq ht, (Prod.mk.inj hpair).1]
    exact hfirm.beingCancelled hlive (by rwa [nextTask_after]) hcancel

/-- The host is told of the failure of a root. -/
theorem unhandled_after_root (hrecord : d.record = ⟨d.id, .failed, .error e⟩)
    (hrole : d.task.role = .root) :
    (d.after h).unhandled = d.before.unhandled ++ [⟨d.id, d.task.name, e⟩] := by
  have hfail : d.record.failure? = some e := by rw [hrecord]; rfl
  rw [← unhandled_cleared d h, ← (woken_filed d h).unhandled, d.after_eq h, deliver, hrole, hfail]
  rfl

/-- What a task leaves with whose process failed with `e` in the state `s`, after these departures.
-/
inductive Settles (h : Host P R W) (s : Scheduler P R W) (e : TaskError)
    (before : List (Departure P R W)) (d : Departure P R W) : Prop where
  /-- Its own failure. Of a root the host is told. -/
  | own : d.task.cancelling = false → (∀ d' ∈ before, ∀ e', ¬Blames d' d.id e') →
      d.record = ⟨d.id, .failed, .error e⟩ →
      (d.task.role = .root →
        (d.after h).unhandled = d.before.unhandled ++ [⟨d.id, d.task.name, e⟩]) →
      Settles h s e before d
  /-- It has been cancelled since. -/
  | cancelled : d.task.cancelling = true →
      d.record = ⟨d.id, .cancelled, .error (.cancelled d.id)⟩ → Settles h s e before d
  /-- The failure of a child that was torn down for it already when the process failed. -/
  | displaced {d' : Departure P R W} {e' : TaskError} : d' ∈ before → Blames d' d.id e' →
      s.verdict? d'.id = some (true, some e') → d.record = ⟨d.id, .failed, .error e'⟩ →
      Settles h s e before d

/-- A task leaves once. -/
theorem eq_nil_of_once {D : List (Departure P R W)} (honce : (D.map Departure.id).Nodup)
    {first : Departure P R W} {before rest after : List (Departure P R W)}
    (hD : D = first :: rest) (hD' : D = before ++ d :: after) (hid : first.id = d.id) :
    before = [] ∧ first = d := by
  cases before with
  | nil => exact ⟨rfl, (List.cons.inj (hD.symm.trans hD')).1⟩
  | cons other before =>
    obtain ⟨rfl, hrest⟩ := List.cons.inj (hD.symm.trans hD')
    rw [hD, hrest, List.map_cons, List.nodup_cons] at honce
    exact absurd (by simp [hid]) honce.1

/-- What a task leaves with that stays after its process has failed. -/
theorem Run.settles_lingering (run : Run h log s) (hnone : s.departures h m = [])
    (hlingers : Lingers (s.move h m) d.id e) (ms : List (Move P))
    {before after : List (Departure P R W)}
    (hE : settlements h ((s.move h m).history h ms) = before ++ d :: after) :
    Settles h s e before d := by
  have hleaves : ∀ d' ∈ before ++ d :: after,
      d' ∈ settlements h ((s.move h m).history h ms) := fun d' hd' => hE ▸ hd'
  have hleaving : Leaving d := (run.move m).leaving_history (hleaves d (by simp))
  have hstill := (run.move m).fallen_moves hlingers.fallen ms hE
  rcases hstill.record hleaving with ⟨hc, hrecord⟩ | ⟨hc, hrecord⟩ | ⟨d', hd', e', hblames, hrecord⟩
  · refine .own hc (fun d' hd' e' hblames => ?_) hrecord (unhandled_after_root hrecord)
    have hE' : settlements h ((log ++ [(s, m)]) ++ (s.move h m).history h ms) =
        (settlements h (log ++ [(s, m)]) ++ before) ++ d :: after := by
      rw [settlements_append, hE, List.append_assoc]
    have hcancel := ((run.move m).moves ms).cancelling_of_blames hE'
      (List.mem_append_right _ hd') hblames
    rw [hc] at hcancel
    cases hcancel
  · exact .cancelled hc hrecord
  · have hverdict := (run.move m).blamed_child hlingers ms
      (hleaves d' (List.mem_append_left _ hd')) hblames
    exact .displaced hd' hblames (run.verdict_of_departures hnone hverdict) hrecord

/-- The process of a task fails while the task is not being cancelled. It is not cancelled for that,
and it stays until it leaves. If nobody has cancelled it by then, and no child that nobody joins has
left failed, the failure of its process is what it settles with, and what the host is told of a
root. The only failure that takes its place is that of such a child, and only of one that was torn
down for this failure already when the process failed. -/
theorem Run.own_failure (run : Run h log s) (m : Move P)
    (hend : s.ending? h m = some (id, .error e)) (hcalm : s.beingCancelled id = false)
    (ms : List (Move P)) :
    let s' := (s.move h m).moves h ms
    let later := s.departures h m ++ settlements h ((s.move h m).history h ms)
    (s.move h m).beingCancelled id = false ∧
    (s'.isLive id ∨ ∃ d ∈ later, d.id = id) ∧
    (∀ record ∈ s'.settled, record.task = id → ∃ d ∈ later, d.id = id ∧ d.record = record) ∧
    ∀ before d after, later = before ++ d :: after → d.id = id → Settles h s e before d := by
  intro s' later
  have hl : s.isLive id := (finish_of_ending? hend).1
  have hlater : settlements h (s.history h (m :: ms)) = later := settlements_cons ..
  refine ⟨?_, hlater ▸ run.live_or_left hl (m :: ms),
    fun record hr hid => hlater ▸ run.filed_later hl (m :: ms) hr hid, ?_⟩
  · rcases run.failed_move hend hcalm with ⟨d, D, hD, rfl, -⟩ | ⟨-, hlingers⟩
    · have hgone := ((run.move m).roster.gone d (by simp [hD])).2
      simp [beingCancelled, hgone]
    · exact hlingers.calm
  rintro before d after hE rfl
  rcases run.failed_move hend hcalm with ⟨first, D, hD, hid, hc, hrecord⟩ | ⟨hnone, hlingers⟩
  · have hfirst : later = first :: (D ++ settlements h ((s.move h m).history h ms)) := by
      simp [later, hD]
    have honce := (run.moves (m :: ms)).roster.once
    rw [settlements_append, hlater, List.map_append] at honce
    obtain ⟨rfl, rfl⟩ := eq_nil_of_once (List.nodup_append.1 honce).2.1 hfirst hE hid
    exact .own hc (by simp) hrecord (unhandled_after_root hrecord)
  · exact run.settles_lingering hnone hlingers ms (by rw [← hE]; simp [later, hnone])

/-! ## A family of three -/

/-- A parent forks a child, which forks a grandchild. The grandchild fails at once, which takes down
the child. The parent fails when it is notified. -/
inductive Kin where
  | parent
  /-- Waits for a notification once more before it ends, when it is taken down. -/
  | child
  | grandchild

namespace Kin

def own : TaskError := .operation ⟨"own", .null⟩

def inherited : TaskError := .operation ⟨"inherited", .null⟩

def act : Kin → Nat → Input → Step Kin Unit
  | .parent, 0, _ => .yield (.fork .child [])
  | .child, 0, _ => .yield (.fork .grandchild [])
  | .parent, 1, _ | .child, 1, _ | .child, 2, .error _ => .yield (.take .wildcard)
  | .parent, _, _ => .failed own
  | .child, _, _ => .done .unit
  | .grandchild, _, _ => .failed inherited

def resume : Kin × Nat → Input → Unit → Step Kin Unit × (Kin × Nat) × Unit
  | (p, n), input, w => (p.act n input, (p, n + 1), w)

end Kin

def kin : Host Kin (Kin × Nat) Unit where
  program := ⟨fun _ => "kin", fun p => .routine fun _ w => ((p, 0), w), Kin.resume⟩

/-- Where the family is when the grandchild has failed, the child is being taken down, and both it
and the parent are about to be told of a notification. -/
def kinNotified : Scheduler Kin (Kin × Nat) Unit :=
  moves { world := () } kin
    [.enroll .parent [], .step, .step, .step, .step, .step, .step, .announce ⟨"GO", .null⟩]

theorem kinNotified_run : ∃ log, Run kin log kinNotified := by
  have hnew : Run kin [] (({ world := () } : Scheduler Kin (Kin × Nat) Unit)) := .new rfl
  exact ⟨_, hnew.moves _⟩

/-- The child leaves with the failure of the grandchild, and the parent is blamed for it. -/
theorem own_failure_kin :
    kinNotified.ending? kin .step = some (⟨1⟩, .error Kin.own) ∧
    kinNotified.beingCancelled ⟨1⟩ = false ∧
    ∃ child parent, kinNotified.departures kin .step ++
        settlements kin ((kinNotified.move kin .step).history kin [.step]) =
          [child] ++ parent :: [] ∧
      parent.id = ⟨1⟩ ∧ ∃ e', Blames child ⟨1⟩ e' ∧
        kinNotified.verdict? child.id = some (true, some e') ∧
        parent.record = ⟨⟨1⟩, .failed, .error e'⟩ := by
  obtain ⟨log, run⟩ := kinNotified_run
  have hend : kinNotified.ending? kin .step = some (⟨1⟩, .error Kin.own) := rfl
  have hcases := (run.own_failure .step hend rfl [.step]).2.2.2
  obtain ⟨child, parent, hlater, hid, hfailed⟩ : ∃ child parent,
      kinNotified.departures kin .step ++ settlements kin
        ((kinNotified.move kin .step).history kin [.step]) = [child] ++ parent :: [] ∧
      parent.id = ⟨1⟩ ∧ parent.record = ⟨⟨1⟩, .failed, .error Kin.inherited⟩ :=
    ⟨_, _, rfl, rfl, rfl⟩
  refine ⟨rfl, rfl, child, parent, hlater, hid, ?_⟩
  cases hcases [child] parent [] hlater hid with
  | own _ _ hrecord _ =>
    rw [hfailed, hid] at hrecord
    exact absurd hrecord (by simp [Kin.own, Kin.inherited])
  | cancelled _ hrecord =>
    rw [hfailed, hid] at hrecord
    cases hrecord
  | @displaced d' e' hd' hblames hverdict hrecord =>
    obtain rfl := List.mem_singleton.1 hd'
    rw [hid] at hblames hrecord
    exact ⟨e', hblames, hverdict, hrecord⟩

/-- The failure of a root is not what the root settles with, though nobody cancels anything once it
has failed. -/
theorem own_failure_displaced :
    ¬∀ (log : List (Scheduler Kin (Kin × Nat) Unit × Move Kin))
      (s : Scheduler Kin (Kin × Nat) Unit) (m : Move Kin) (ms : List (Move Kin)) (id : TaskId)
      (e : TaskError), Run kin log s → s.ending? kin m = some (id, .error e) →
      s.beingCancelled id = false → s.parent? id = none → (∀ m' ∈ ms, m' = .step) →
      (∀ entry ∈ (s.move kin m).history kin ms, ∀ a effect,
        entry.1.turn? kin ≠ some (a, .yield effect)) →
      ∀ record ∈ ((s.move kin m).moves kin ms).settled, record.task = id →
        record = ⟨id, .failed, .error e⟩ := by
  intro hall
  obtain ⟨log, run⟩ := kinNotified_run
  have hsettled : (⟨⟨1⟩, .failed, .error Kin.inherited⟩ : Settlement) ∈
      ((kinNotified.move kin .step).moves kin [.step]).settled := List.mem_cons_self
  have hidle : ∀ entry ∈ (kinNotified.move kin .step).history kin [.step], ∀ a effect,
      entry.1.turn? kin ≠ some (a, .yield effect) := by
    intro entry he a effect hturn
    obtain rfl := List.mem_singleton.1 he
    have hdone : (kinNotified.move kin .step).turn? kin = some (⟨2⟩, .done .unit) := rfl
    cases hdone.symm.trans hturn
  have hrecord := hall log kinNotified .step [.step] ⟨1⟩ Kin.own run rfl rfl rfl (by simp) hidle _
    hsettled rfl
  simp [Kin.own, Kin.inherited] at hrecord

end Scheduler

end CoopTasks
