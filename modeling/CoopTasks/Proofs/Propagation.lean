import CoopTasks.Proofs.Idempotence
import CoopTasks.Proofs.Verdict

/-!
# Failures that nobody joins

The failure of a forked task goes to those who wait to join it. If nobody does it aborts the parent:
all that is live below the parent is signalled, and the parent settles with the failure, whatever
its cleanup does. A parent that is being cancelled already is left to settle as it would have.
-/

namespace CoopTasks.Scheduler

variable {P R W : Type} {s s' : Scheduler P R W} {h : Host P R W} {A : Set TaskId}
variable {D : List (Departure P R W)} {d : Departure P R W} {id parent : TaskId} {e : TaskError}
variable {log : List (Scheduler P R W × Move P)}

/-! ## Blame -/

/-- Only tasks that are being cancelled are blamed on a child. -/
def Blamed (s : Scheduler P R W) : Prop :=
  ∀ id t, s.task? id = some t → t.abort.isSome → t.cancelling = true

theorem Blamed.steady (hb : Blamed s) (hs : Steady A s s') : Blamed s' := by
  intro id t' ht' habort
  cases ht : s.task? id with
  | none =>
    rw [(hs.came id t' ht' ht).2] at habort
    cases habort
  | some t =>
    obtain ⟨u, hu, hsteady⟩ := hs.stays id t ht
    obtain rfl := Option.some.inj (ht'.symm.trans hu)
    rw [hsteady.abort] at habort
    exact hsteady.cancelling (hb id t ht habort)

theorem Blamed.of_tasks (hb : Blamed s) (htasks : s'.tasks = s.tasks) : Blamed s' :=
  fun id t ht => hb id t (by rwa [← task?_of_tasks htasks])

theorem sameTree_blame (s : Scheduler P R W) (id : TaskId) (error : TaskError) :
    SameTree s (s.updateTask id fun t => { t with abort := some error }) :=
  sameTree_updateTask s id _ fun _ => rfl

/-- A task that is blamed is signalled, and so is everything below it. -/
theorem abort_calm (hf : Forest s) {t : Task P R W} (ht : s.task? id = some t)
    (hc : t.cancelling = false) (ha : t.abort = none) :
    (s.abort id e).verdict? id = some (true, some e) ∧
      ∀ j, s.isLive j → Below s id j → (s.abort id e).beingCancelled j := by
  rcases abort_cases s id e with ⟨-, hnot⟩ | ⟨u, -, -, -, heq⟩
  · rcases hnot t ht with hc' | ha'
    · rw [hc] at hc'
      cases hc'
    · rw [ha] at ha'
      cases ha'
  · rw [heq]
    have htree := sameTree_blame s id e
    have hf' := hf.congr htree.shape
    have hbelow : ∀ j, s.isLive j → Below s id j →
        ((s.updateTask id fun t => { t with abort := some e }).cancelSubtree id).beingCancelled j := by
      intro j hl hb
      refine beingCancelled_cancelSubtree hf' ((hf'.mem_subtree id j).2 ⟨?_, ?_⟩)
      · rwa [htree.isLive]
      · exact hb.congr htree.shape.parent
    refine ⟨?_, hbelow⟩
    have hself := hbelow id (by simp [isLive_eq, ht]) .self
    have hblamed : (s.updateTask id fun t => { t with abort := some e }).task? id =
        some { t with abort := some e } := by simp [ht]
    have hchanged := (changes_cancelSubtree (A := ∅) (Q := s.plain)
      (s.updateTask id fun t => { t with abort := some e }) id).changed
    obtain ⟨t', ht', hsteady⟩ := hchanged.stays id _ hblamed
    rw [beingCancelled_eq ht'] at hself
    simp [verdict?, ht', hself, hsteady.abort]

theorem Blamed.abort (hb : Blamed s) (hf : Forest s) (id : TaskId) (error : TaskError) :
    Blamed (s.abort id error) := by
  rcases abort_cases s id error with ⟨heq, -⟩ | ⟨t, ht, hc, ha, heq⟩
  · rwa [heq]
  · have hverdict := (abort_calm (e := error) hf ht hc ha).1
    intro j u hu habort
    by_cases hj : j = id
    · subst hj
      simp only [verdict?, hu, Option.map_some, Option.some.injEq, Prod.mk.injEq] at hverdict
      exact hverdict.1
    · -- the other tasks were blamed before
      rw [heq] at hu
      have hchanged := (changes_cancelSubtree (A := ∅) (Q := s.plain)
        (s.updateTask id fun t => { t with abort := some error }) id).changed
      cases hv : (s.updateTask id fun t => { t with abort := some error }).task? j with
      | none =>
        rw [(hchanged.came j u hu hv).2] at habort
        cases habort
      | some v =>
        obtain ⟨w, hw, hsteady⟩ := hchanged.stays j v hv
        obtain rfl := Option.some.inj (hu.symm.trans hw)
        rw [hsteady.abort] at habort
        exact hsteady.cancelling (hb j v (by simpa [hj] using hv) habort)

theorem Blamed.leave (hb : Blamed d.before) (hd : Leaving d) : Blamed (d.after h) := by
  have hcleared : Blamed (d.cleared h) := by
    intro j t' ht' habort
    obtain ⟨-, t, ht, heq⟩ := find_of_cleared d h ht'
    rw [heq] at habort ⊢
    exact hb j t ht habort
  have hfiled := hcleared.steady (changes_filed d h ∅).changed.toSteady
  rw [d.after_eq h]
  rcases deliver_cases (d.filed h) d.task d.record with
    heq | ⟨caller, -, -, heq⟩ | ⟨e, -, -, heq⟩ | ⟨parent, e, -, -, -, -, heq⟩ |
      ⟨g, slot, -, -, heq⟩ <;> rw [heq]
  · exact hfiled
  · exact hfiled.steady (changes_wakeIfWaiting (A := ∅) (Q := (· = d.record.answer))
      (d.filed h) caller (.call d.record.task) rfl).changed.toSteady
  · exact hfiled.of_tasks rfl
  · exact hfiled.abort (hd.forest_filed h) parent e
  · rcases settleBranch_cases (d.filed h) g slot d.record.result with
      ⟨-, heq⟩ | ⟨group, -, ⟨-, heq⟩ | ⟨input, -, heq⟩⟩ <;> rw [heq]
    · exact hfiled
    · exact hfiled.of_tasks rfl
    · have herase : Blamed { d.filed h with groups := (d.filed h).groups.erase g } :=
        hfiled.of_tasks rfl
      have hwake := changes_wakeIfWaiting (A := ∅) (Q := (· = input))
        { d.filed h with groups := (d.filed h).groups.erase g } group.owner (.group g) rfl
      have hcancel := changes_cancelSubtrees (A := ∅) (Q := (· = input))
        (wakeIfWaiting { d.filed h with groups := (d.filed h).groups.erase g } group.owner
          (.group g) input) group.branches
      exact (herase.steady hwake.changed.toSteady).steady hcancel.changed.toSteady

theorem Run.blamed_along (run : Run h log s) :
    Blamed s ∧ ∀ D d D', settlements h log = D ++ d :: D' → Blamed d.before ∧ Leaving d := by
  refine run.along (K := fun _ s => Blamed s) (fun world id t ht => ?_) ?_ ?_ ?_ ?_
  · cases ht
  · exact fun hb => hb.of_tasks rfl
  · exact fun hb hchange => hb.steady hchange.changed.toSteady
  · exact fun hb ht hl _ => hb.steady (A := ∅) (steady_startGroup ht hl _ _)
  · exact fun hb hd => hb.leave hd

theorem Run.blamed_before (run : Run h log s) (hd : d ∈ settlements h log) : Blamed d.before := by
  obtain ⟨D, D', hD⟩ := List.append_of_mem hd
  exact (run.blamed_along.2 D d D' hD).1

/-! ## Failures -/

/-- A task has joiners if and only if some task waits to join it. -/
theorem Leaving.joiners_eq_nil (hd : Leaving d) :
    d.task.joiners = [] ↔ ∀ j, d.before.wait? j ≠ some (.join d.id) := by
  obtain ⟨L, hc⟩ := hd.coherent
  have hwaiters : d.before.waiters (.join d.id) = d.task.joiners := by simp [waiters, hd.found]
  constructor
  · intro hnil j hj
    have hm := hc.mem_joiners hd.found hj
    rw [hnil] at hm
    cases hm
  · intro hnone
    refine List.eq_nil_iff_forall_not_mem.2 fun j hj => ?_
    rw [← hwaiters] at hj
    exact hnone j (hc.of_mem_waiters hj).2.2.2.1

theorem Firm.below (hs : Firm s s') (hf' : Forest s') {root : TaskId} (hb : Below s' root id)
    (hid : id.val < s.nextTask) : Below s root id := by
  induction hb with
  | self => exact .self
  | @child id parent hp _ ih =>
    obtain ⟨t', ht'⟩ := Option.isSome_iff_exists.1 (isLive_of_parent hp)
    obtain ⟨t, ht, hparent, -⟩ := hs.stands id t' ht' hid
    have hp' : s.parent? id = some parent := by
      rw [parent?_eq ht, ← hparent, ← parent?_eq ht', hp]
    exact .child hp' (ih (Nat.lt_trans (hf'.older id parent hp) hid))

/-- The parent of a forked task that fails unjoined is blamed and all below it is signalled, as soon
as the task has left. -/
theorem Leaving.propagates (hd : Leaving d) (hb : Blamed d.before) (hrole : d.task.role = .forked)
    (hparent : d.task.parent = some parent) (hfail : d.record.failure? = some e)
    (hjoin : ∀ j, d.before.wait? j ≠ some (.join d.id))
    (hcalm : d.before.beingCancelled parent = false) :
    (d.after h).verdict? parent = some (true, some e) ∧
      ∀ j, (d.after h).isLive j → Below (d.after h) parent j → (d.after h).beingCancelled j := by
  have hnil := hd.joiners_eq_nil.2 hjoin
  have hp : d.before.parent? d.id = some parent := by rw [parent?_eq hd.found, hparent]
  have hne : parent ≠ d.id := fun he => by simpa [he] using hd.forest.older d.id parent hp
  obtain ⟨t, ht⟩ := Option.isSome_iff_exists.1 (hd.forest.isLive_parent hp)
  have ht' : d.before.task? parent = some t := ht
  have hverdict : (d.filed h).verdict? parent = some (false, none) := by
    rw [(woken_filed d h).verdict, verdict?_cleared d h hne]
    rw [beingCancelled_eq ht'] at hcalm
    have hnone : t.abort = none := by
      cases ha : t.abort with
      | none => rfl
      | some e =>
        have hcancel := hb parent t ht' (by rw [ha]; rfl)
        rw [hcalm] at hcancel
        cases hcancel
    simp [verdict?, ht', hcalm, hnone]
  obtain ⟨u, hu, hpair⟩ := Option.map_eq_some_iff.1 hverdict
  obtain ⟨hc, ha⟩ := Prod.mk.inj hpair
  have hafter : d.after h = (d.filed h).abort parent e := by
    rw [d.after_eq h, deliver, hrole, hparent, hfail, hnil]
    rfl
  obtain ⟨hblamed, hbelow⟩ := abort_calm (e := e) (hd.forest_filed h) hu hc ha
  have htree := (quiet_abort (d.filed h) parent e).tree
  rw [hafter]
  refine ⟨hblamed, fun j hl hbj => hbelow j ?_ (hbj.congr fun k => (htree.shape.parent k).symm)⟩
  rwa [htree.isLive] at hl

/-- From a departure on verdicts stand until the end of the run, and at every later departure. -/
theorem Run.firm_since (run : Run h log s) {E E' : List (Departure P R W)}
    (hE : settlements h log = E ++ d :: E') :
    Firm (d.after h) s ∧ ∀ d' ∈ E', Firm (d.after h) d'.before := by
  let K : List (Departure P R W) → Scheduler P R W → Prop := fun D s =>
    ∀ E d E', D = E ++ d :: E' → Firm (d.after h) s ∧ ∀ d' ∈ E', Firm (d.after h) d'.before
  have hstep : ∀ {D r r'}, K D r → Firm r r' → K D r' := by
    intro D r r' hK hfirm E d E' hE
    obtain ⟨hend, hlater⟩ := hK E d E' hE
    exact ⟨hend.trans hfirm, hlater⟩
  have hK : K (settlements h log) s := by
    refine (run.along (K := K) (fun world => by simp [K]) ?_ ?_ ?_ ?_).1
    · exact fun hK => hstep hK (.of_tasks rfl rfl)
    · exact fun hK hchange => hstep hK hchange.changed.firm
    · exact fun hK ht hl _ => hstep hK (steady_startGroup (A := ∅) ht hl _ _).firm
    · intro D e hK _ E d E' hE
      rcases List.eq_nil_or_concat E' with rfl | ⟨E', e', rfl⟩
      · obtain ⟨-, he⟩ := List.append_inj' hE rfl
        cases he
        exact ⟨.refl _, by simp⟩
      · have hE' : D ++ [e] = (E ++ d :: E') ++ [e'] := by simpa using hE
        obtain ⟨rfl, he⟩ := List.append_inj' hE' rfl
        cases he
        obtain ⟨hend, hlater⟩ := hK E d E' rfl
        refine ⟨hend.trans (firm_after e h), fun d' hd' => ?_⟩
        rcases List.mem_append.1 (List.concat_eq_append ▸ hd') with hd' | hd'
        · exact hlater d' hd'
        · rw [List.mem_singleton.1 hd']
          exact hend
  exact hK E d E' hE

/-- A task that was blamed for a failure before it left settles failed with it. -/
theorem Run.settles_blamed (run : Run h log s) {E E' : List (Departure P R W)}
    (hE : settlements h log = E ++ d :: E')
    (hverdict : (d.after h).verdict? parent = some (true, some e)) :
    (s.isLive parent ∨ ∃ d' ∈ E', d'.id = parent) ∧
    (∀ d' ∈ E', d'.id = parent → d'.record = ⟨parent, .failed, .error e⟩) ∧
    ∀ record ∈ s.settled, record.task = parent → record = ⟨parent, .failed, .error e⟩ := by
  obtain ⟨t, ht, hpair⟩ := Option.map_eq_some_iff.1 hverdict
  obtain ⟨hc, ha⟩ := Prod.mk.inj hpair
  obtain ⟨hend, hlater⟩ := run.firm_since hE
  obtain ⟨hroster, hleaving⟩ := run.roster_along.2 E d E' hE
  have hlive := isLive_after d h parent
  rw [isLive_eq, ht, Option.isSome_some, eq_comm, Bool.and_eq_true, decide_eq_true_eq] at hlive
  obtain ⟨hne, hlive⟩ := hlive
  have hfresh := hleaving.forest.fresh parent hlive
  -- a task that is live after the departure leaves later or not at all
  have hwhen : ∀ d' ∈ settlements h log, d'.id = parent → d' ∈ E' := by
    intro d' hd' hid
    rw [hE] at hd'
    rcases List.mem_append.1 hd' with hd' | hd'
    · have hnone := (hroster.gone d' hd').2
      rw [isLive_eq, ← hid, hnone] at hlive
      cases hlive
    · rcases List.mem_cons.1 hd' with rfl | hd'
      · exact absurd hid.symm hne
      · exact hd'
  have hrecord : ∀ d' ∈ E', d'.id = parent → d'.record = ⟨parent, .failed, .error e⟩ := by
    rintro d' hd' rfl
    have hleaving' := run.leaving (d := d') (by simp [hE, hd'])
    have hfresh' : d'.id.val < (d.after h).nextTask := by rwa [nextTask_after]
    obtain ⟨-, habort⟩ := (hlater d' hd').verdict hleaving' ht hfresh' hc
    exact record_of_abort (habort.trans ha)
  refine ⟨?_, hrecord, fun record hr hid => ?_⟩
  · have hissued : s.issued parent := by
      have hpositive := hroster.positive.2 parent hlive
      have hnext := hend.next
      rw [nextTask_after] at hnext
      have hlt := Nat.lt_of_lt_of_le hfresh hnext
      simp [Scheduler.issued, hpositive, hlt]
    rcases run.roster.known parent hissued with hl | ⟨d', hd', hid⟩
    · exact Or.inl hl
    · exact Or.inr ⟨d', hwhen d' hd' hid, hid⟩
  · obtain ⟨d', hd', rfl⟩ := run.roster.filed record hr
    exact hrecord d' (hwhen d' hd' hid) hid

/-- A forked task fails in a move. If nobody waits to join it and its parent is not being cancelled,
then all that is live below the parent at the end of the move is being cancelled, and the parent
settles failed with the same error whenever it leaves. If somebody waits to join it, the parent is
neither blamed nor signalled for it. -/
theorem Run.failure_propagates (run : Run h log s) (m : Move P)
    {before after : List (Departure P R W)} (hd : s.departures h m = before ++ d :: after)
    (hrole : d.task.role = .forked) (hparent : d.task.parent = some parent)
    (hfail : d.record.failure? = some e) :
    ((∀ j, d.before.wait? j ≠ some (.join d.id)) → d.before.beingCancelled parent = false →
      (∀ j, (s.move h m).isLive j → Below (s.move h m) parent j →
        (s.move h m).beingCancelled j) ∧
      ∀ ms, let s' := (s.move h m).moves h ms
        let later := after ++ settlements h ((s.move h m).history h ms)
        (s'.isLive parent ∨ ∃ d' ∈ later, d'.id = parent) ∧
        (∀ d' ∈ later, d'.id = parent → d'.record = ⟨parent, .failed, .error e⟩) ∧
        ∀ record ∈ s'.settled, record.task = parent → record = ⟨parent, .failed, .error e⟩) ∧
    ((∃ j, d.before.wait? j = some (.join d.id)) →
      (d.after h).verdict? parent = d.before.verdict? parent) := by
  have hE : settlements h (log ++ [(s, m)]) = (settlements h log ++ before) ++ d :: after := by
    simp [hd]
  have hleaving : Leaving d := (run.move m).leaving (by simp [hE])
  refine ⟨fun hjoin hcalm => ?_, ?_⟩
  · have hblamed : Blamed d.before := (run.move m).blamed_before (by simp [hE])
    obtain ⟨hverdict, hbelow⟩ := hleaving.propagates (h := h) hblamed hrole hparent hfail hjoin hcalm
    refine ⟨fun j hl hb => ?_, fun ms => ?_⟩
    · -- nothing was spawned after the task left
      have hfirm := ((run.move m).firm_since hE).1
      have hf' := (run.move m).tidy.forest
      have hnext : (s.move h m).nextTask = (d.after h).nextTask := by
        rw [nextTask_after]
        exact nextTask_of_departure (by simp [hd])
      have hfresh : j.val < (d.after h).nextTask := hnext ▸ hf'.fresh j hl
      obtain ⟨t', ht'⟩ := Option.isSome_iff_exists.1 hl
      obtain ⟨t, ht, -, -⟩ := hfirm.stands j t' ht' hfresh
      exact hfirm.beingCancelled hl hfresh
        (hbelow j (by simp [isLive_eq, ht]) (hfirm.below hf' hb hfresh))
    · have hE' : settlements h ((log ++ [(s, m)]) ++ (s.move h m).history h ms) =
          (settlements h log ++ before) ++
            d :: (after ++ settlements h ((s.move h m).history h ms)) := by
        rw [settlements_append, hE]
        simp
      exact ((run.move m).moves ms).settles_blamed hE' hverdict
  · rintro ⟨j, hj⟩
    have hne : parent ≠ d.id := by
      rintro rfl
      have hp : d.before.parent? d.id = some d.id := by rw [parent?_eq hleaving.found, hparent]
      exact absurd (hleaving.forest.older d.id d.id hp) (Nat.lt_irrefl _)
    refine (unheard_of_joined hrole fun hnil => ?_).verdict parent hne
    exact hleaving.joiners_eq_nil.1 hnil j hj

/-- The breaker fails. Its parent settles with the failure, but not if it joins the breaker. -/
theorem failure_propagates_breaker :
    let s := (stageAfter [.enroll .forker [], .step, .step]).move stage .step
    let r := stageAfter [.enroll .joiner [], .step, .step]
    (s.moves stage [.step]).settled.map Settlement.task = [⟨1⟩, ⟨2⟩] ∧
      (∀ record ∈ (s.moves stage [.step]).settled, record.task = ⟨1⟩ →
        record = ⟨⟨1⟩, .failed, .error (.protocol (.unknownTask ⟨0⟩))⟩) ∧
      ∃ d, r.departures stage .step = [d] ∧ (d.after stage).verdict? ⟨1⟩ = some (false, none) := by
  intro s r
  have run := stageAfter_run [.enroll .forker [], .step, .step]
  have run' := stageAfter_run [.enroll .joiner [], .step, .step]
  refine ⟨rfl, ?_, _, rfl, ?_⟩
  · obtain ⟨d, hd, hrole, hparent, hfail, hjoiners, hcalm⟩ :
        ∃ d, (stageAfter [.enroll .forker [], .step, .step]).departures stage .step = [] ++ d :: [] ∧
          d.task.role = .forked ∧ d.task.parent = some ⟨1⟩ ∧
          d.record.failure? = some (.protocol (.unknownTask ⟨0⟩)) ∧ d.task.joiners = [] ∧
          d.before.beingCancelled ⟨1⟩ = false := ⟨_, rfl, rfl, rfl, rfl, rfl, rfl⟩
    have hleaving : Leaving d := (run.move .step).leaving (by simp [hd])
    have hjoin := hleaving.joiners_eq_nil.1 hjoiners
    exact (((run.failure_propagates .step hd hrole hparent hfail).1 hjoin hcalm).2 [.step]).2.2
  · have hd : r.departures stage .step = [] ++ _ :: [] := rfl
    exact (run'.failure_propagates .step hd rfl rfl rfl).2 ⟨⟨1⟩, rfl⟩

end CoopTasks.Scheduler
