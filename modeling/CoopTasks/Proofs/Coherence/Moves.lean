import CoopTasks.Proofs.Coherence.Effects

/-!
# Steps and moves keep coherence

A move begins and ends with no task in hand. A step takes the first task of the queue in hand, and
its effect or its end puts it down, unless the task forsakes itself: then it strands. The tasks that
stranded in a run are the only ones that are lost.
-/

namespace CoopTasks.Scheduler

variable {P R W : Type} {s s' : Scheduler P R W} {h : Host P R W} {L X : Set TaskId}

/-- The task that is stepped next, and what its process will answer. -/
def turn? (s : Scheduler P R W) (h : Host P R W) : Option (TaskId × Step P W) :=
  match s.queue with
  | [] => none
  | (id, input) :: _ =>
    (s.task? id).bind fun t => t.process.map fun process =>
      (id, (process.step h.program.resume input s.world).1)

/-- Who answers in the next step is the first task of the queue. -/
theorem process_of_turn {id : TaskId} {answer : Step P W} (hturn : s.turn? h = some (id, answer)) :
    ∃ t process input rest, s.queue = (id, input) :: rest ∧ s.task? id = some t ∧
      t.process = some process ∧ (process.step h.program.resume input s.world).1 = answer := by
  cases hq : s.queue with
  | nil => simp [turn?, hq] at hturn
  | cons entry rest =>
    obtain ⟨j, input⟩ := entry
    simp only [turn?, hq, Option.bind_eq_some_iff, Option.map_eq_some_iff, Prod.mk.injEq] at hturn
    obtain ⟨t, ht, process, hp, rfl, hanswer⟩ := hturn
    exact ⟨t, process, input, rest, rfl, ht, hp, hanswer⟩

/-- In the next step the task yields an effect that it does not survive. -/
def Strands (s : Scheduler P R W) (h : Host P R W) (id : TaskId) : Prop :=
  ∃ effect, s.turn? h = some (id, .yield effect) ∧ Forsakes s id effect

/-- A step of the past stranded the task. -/
def Stranded (h : Host P R W) (log : List (Scheduler P R W × Move P)) (id : TaskId) : Prop :=
  ∃ entry ∈ log, entry.2 = .step ∧ entry.1.Strands h id

theorem Below.congr {root id : TaskId} (hb : Below s root id)
    (hparent : ∀ j, s'.parent? j = s.parent? j) : Below s' root id := by
  induction hb with
  | self => exact .self
  | child hp _ ih => exact .child ((hparent _).trans hp) ih

theorem Forsakes.congr {id : TaskId} {effect : Effect P W} (hf : Forsakes s id effect)
    (hparent : ∀ j, s'.parent? j = s.parent? j)
    (hcancel : s'.beingCancelled id = s.beingCancelled id) : Forsakes s' id effect := by
  obtain ⟨target, he, hbeing, hb⟩ := hf
  exact ⟨target, he, hcancel.trans hbeing, hb.congr hparent⟩

/-- A task that forsakes itself is carried out: it breaks no contract. -/
theorem Forsakes.carryOut {id : TaskId} {effect : Effect P W} (hforsakes : Forsakes s id effect)
    (hf : Forest s) (hl : s.isLive id) (h : Host P R W) :
    effect.violation? = none ∧ ∃ s', s.carryOut h id effect = .ok s' := by
  obtain ⟨target, rfl, -, hb⟩ := hforsakes
  have htarget := hf.isLive_above hb hl
  have hlineage := (hf.mem_lineage hl target).2 hb
  refine ⟨rfl, s.cancelSubtree target, ?_⟩
  simp [Scheduler.carryOut, Scheduler.cancel, htarget, hlineage]

/-! ## Steps -/

/-- What a task in hand answers is carried out. -/
theorem Coherent.dispatch {id : TaskId} (hc : Coherent s L {id}) (htidy : Tidy s) {t : Task P R W}
    (ht : s.task? id = some t) (hwait : t.wait = .nothing) (hstatus : t.status = .running)
    (h : Host P R W) (effect : Effect P W) :
    Coherent (s.dispatch h id effect) (L ∪ {j | j = id ∧ Forsakes s j effect}) ∅ := by
  have hlive : s.isLive id := by simp [isLive_eq, ht]
  have htasks : (s.note h id effect).tasks = s.tasks := by
    unfold note
    split <;> rfl
  have hnote : Coherent (s.note h id effect) L {id} := by
    unfold note
    split
    · exact hc.of_tables rfl rfl rfl rfl rfl rfl rfl rfl
    · exact hc
  have htree := (quiet_note s h id effect).tree
  have hparent : ∀ j, (s.note h id effect).parent? j = s.parent? j := htree.shape.parent
  have hcancel : ∀ j, (s.note h id effect).beingCancelled j = s.beingCancelled j := by
    intro j
    rw [beingCancelled, beingCancelled, task?_of_tasks htasks]
  rcases dispatch_cases s h id effect with
    ⟨s', -, hs, heq⟩ | ⟨violation, ⟨hv, heq⟩ | ⟨hs, heq⟩⟩ <;> rw [heq]
  · refine (hnote.carryOut (htidy.congr htree) ((task?_of_tasks htasks id).trans ht) hwait hstatus
      hs).congr_lost fun j => or_congr_right (and_congr_right fun _ => ?_)
    exact ⟨fun hf => hf.congr (fun j => (hparent j).symm) (hcancel j).symm,
      fun hf => hf.congr hparent (hcancel j)⟩
  · refine (hc.finish h _).spare fun hforsakes => ?_
    rw [(hforsakes.carryOut htidy.forest hlive h).1] at hv
    cases hv
  · refine (hnote.finish h _).spare fun hforsakes => ?_
    obtain ⟨-, s', hs'⟩ := (hforsakes.congr hparent (hcancel id)).carryOut
      (htidy.congr htree).forest ((htree.isLive id).trans hlive) h
    rw [hs] at hs'
    cases hs'

/-- The state of the process of a task in hand is stored. -/
theorem Coherent.storeProcess {id : TaskId} (hc : Coherent s L X) (hid : id ∈ X)
    {process : Process P R W} (hp : process ≠ .ended) :
    Coherent (s.storeProcess id process) L X := by
  obtain ⟨t, ht, -⟩ := (hc.loose id hid).live
  have hafter := task?_storeProcess ht process s.world
  refine hc.hold hid (hc.sound.of_tables rfl rfl rfl rfl)
    (fun child caller hcalled => hcalled.updateTask id _ (fun _ => rfl) fun _ => rfl)
    (fun j hj => untouched_storeProcess s id process hj) ?_ ⟨⟨_, hafter, rfl⟩, fun w => ?_⟩
  · intro u hu
    rw [hafter] at hu
    cases hu
    exact ⟨by simp, by simpa using hp, fun h => absurd rfl h⟩
  · rw [waiters_storeProcess]
    exact (hc.loose id hid).place w

/-- The end of a process overwrites what was stored of it. -/
theorem finish_storeProcess {id : TaskId} {t : Task P R W} (ht : s.task? id = some t)
    (h : Host P R W) (process : Process P R W) (outcome : Outcome) :
    (s.storeProcess id process).finish h id outcome = s.finish h id outcome := by
  have hstore := task?_storeProcess ht process s.world
  have hend : ((s.storeProcess id process).raiseOf id outcome).endProcess id outcome =
      (s.raiseOf id outcome).endProcess id outcome := by
    unfold raiseOf
    split <;> simp [storeProcess, endProcess, updateTask, raise, Table.modify_modify]
  unfold finish
  simp only [hstore, ht, hend]
  rfl

/-- The first of the queue is stepped. -/
theorem Coherent.step {id : TaskId} {t : Task P R W} {process : Process P R W}
    (hc : Coherent s L {id}) (htidy : Tidy s) (ht : s.task? id = some t)
    (hp : t.process = some process) (h : Host P R W) (input : Input) :
    Coherent (s.step h id input) (L ∪ {j | j = id ∧ ∃ effect,
      (process.step h.program.resume input s.world).1 = .yield effect ∧ Forsakes s j effect}) ∅ := by
  obtain ⟨process', world, hcase⟩ := step_of_process ht hp h input
  have hworld : Coherent { s with world } L {id} := hc.frame
  rcases hcase with ⟨effect, hstep, heq⟩ | ⟨answer, outcome, hstep, hterminal, heq⟩ <;> rw [heq]
  · have hnotEnded : process' ≠ .ended := by
      have hne := Process.step_yield_ne_ended (congrArg Prod.fst hstep)
      rwa [hstep] at hne
    have hstored := hworld.storeProcess rfl hnotEnded
    have hafter := task?_storeProcess ht process' world
    have hparent := (sameShape_storeProcess s id process' world).parent
    have hcancel : ({ s with world }.storeProcess id process').beingCancelled id =
        s.beingCancelled id := by
      rw [beingCancelled_eq hafter, beingCancelled_eq ht]
    have htidy' := htidy.storeProcess id process' world
    refine (hstored.dispatch htidy' hafter rfl rfl h effect).congr_lost fun j =>
      or_congr_right (and_congr_right ?_)
    rintro rfl
    constructor
    · exact fun hf => ⟨effect, by rw [hstep], hf.congr (fun j => (hparent j).symm) hcancel.symm⟩
    · rintro ⟨effect', he, hf⟩
      obtain rfl : effect = effect' := by simpa [hstep] using he
      exact hf.congr hparent hcancel
  · rw [finish_storeProcess (s := { s with world }) ht]
    refine (hworld.finish h outcome).spare ?_
    rintro ⟨effect, he, -⟩
    rw [hstep] at he
    subst he
    cases hterminal

/-! ## Moves -/

/-- A task that waits where nobody is listed is taken in hand. -/
theorem Coherent.pickUp {id : TaskId} {w : Wait} (hc : Coherent s L X) (hw : s.wait? id = some w)
    (hlisted : w.isListed = false) (hne : w ≠ .children) : Coherent s L (X ∪ {id}) := by
  have hnothing : w ≠ .nothing := by
    rintro rfl
    cases hlisted
  refine hc.change {id} hc.sound (fun j _ child _ hcalled => hcalled) (fun j _ => .refl s j)
    (fun j hj => by simp [Set.mem_singleton_iff.not.1 hj]) ?_
  rintro j rfl
  refine ⟨hc.not_lost_of_wait hw hnothing, hc.fit j, fun _ => ?_, fun h => absurd (Or.inr rfl) h⟩
  refine ⟨hc.process_of_wait hw hne, fun w' => hc.not_mem_waiters ?_⟩
  by_cases he : w' = w
  · exact Or.inr (he ▸ hlisted)
  · exact Or.inl fun hw' => he (Option.some.inj (hw'.symm.trans hw))

theorem Coherent.applyCompletion (hc : Coherent s L ∅) (c : Completion) :
    Coherent (s.applyCompletion c).2 L ∅ := by
  unfold Scheduler.applyCompletion
  split
  · rename_i await _
    have hdiscard : Coherent { s with pending := s.pending.discard c.operation } L ∅ :=
      hc.of_tables rfl rfl rfl rfl rfl rfl rfl rfl
    dsimp only
    split
    · rename_i hwait
      have hwoken := (hdiscard.pickUp hwait rfl Wait.noConfusion).wakeLast (Or.inr rfl)
      exact (hwoken _).congr_hand (by simp)
    · exact hdiscard
  · split
    · exact hc
    · exact hc

theorem Coherent.announce (hc : Coherent s L ∅) (h : Host P R W) (n : Notification) :
    Coherent (s.announce h n) L ∅ := by
  obtain ⟨hpublish, hnodup, -⟩ := hc.publish h n
  have hwoken := Coherent.foldl_wake
    (fun s X id hc hid => hc.wakeLast hid (.value (.notification n))) _ hnodup
    (fun j hj => Or.inr hj) hpublish
  refine hwoken.congr_hand fun j => ⟨?_, fun hj => absurd hj (by simp)⟩
  rintro ⟨hj | hj, hnot⟩
  · exact hj
  · exact absurd hj hnot

theorem Coherent.enroll (hc : Coherent s L ∅) (hf : Forest s) (h : Host P R W) (process : P)
    (args : List Value) : Coherent (s.enroll h process args).2 L ∅ := by
  obtain ⟨hspawn, t, ht, -, -, hwait⟩ := hc.spawn hf h process args none .root
  refine (hspawn.enqueueLast (Or.inr rfl) ?_ _).congr_hand (by simp)
  simp [wait?, ht, hwait]

/-- A move leaves no task in hand, and loses those that strand. -/
theorem Coherent.move (hc : Coherent s L ∅) (htidy : Tidy s) (h : Host P R W) (m : Move P) :
    Coherent (s.move h m) (L ∪ {id | m = .step ∧ s.Strands h id}) ∅ := by
  have hcalm : m ≠ .step → ∀ {r : Scheduler P R W}, Coherent r L ∅ →
      Coherent r (L ∪ {id | m = .step ∧ s.Strands h id}) ∅ :=
    fun hm r hr => hr.congr_lost fun j => by simp [hm]
  cases m with
  | step =>
    cases hq : s.queue with
    | nil =>
      rw [move_step_nil h hq]
      exact hc.congr_lost fun j => by simp [Strands, turn?, hq]
    | cons entry rest =>
      obtain ⟨id, input⟩ := entry
      have hpop : Coherent { s with queue := rest } L {id} := (hc.pop hq).congr_hand (by simp)
      have htree : SameTree s { s with queue := rest } := .of_tasks rfl rfl
      obtain ⟨t, ht, hp⟩ := (hpop.loose id rfl).live
      obtain ⟨process, hp⟩ := Option.isSome_iff_exists.1 hp
      have hstep := hpop.step (htidy.congr htree) ht hp h input
      have hfault : ∀ {r : Scheduler P R W} {L : Set TaskId}, Coherent r L ∅ →
          Coherent r.takeFault.2 L ∅ := by
        intro r L hr
        unfold takeFault
        split
        · exact hr
        · exact hr.of_tables rfl rfl rfl rfl rfl rfl rfl rfl
      have hturn : s.turn? h = some (id, (process.step h.program.resume input s.world).1) := by
        simp [turn?, hq, show s.task? id = some t from ht, hp]
      rw [move_step_cons h hq]
      refine (hfault hstep).congr_lost fun j => or_congr_right ?_
      simp only [Set.mem_ofPred_eq, true_and, Strands, hturn, Option.some.injEq, Prod.mk.injEq]
      constructor
      · rintro ⟨rfl, effect, he, hf⟩
        exact ⟨effect, ⟨rfl, he⟩, hf.congr (fun _ => rfl) rfl⟩
      · rintro ⟨effect, ⟨rfl, he⟩, hf⟩
        exact ⟨rfl, effect, he, hf.congr (fun _ => rfl) rfl⟩
  | enroll process args => exact hcalm (by simp) (hc.enroll htidy.forest h process args)
  | announce n => exact hcalm (by simp) (hc.announce h n)
  | deliver c => exact hcalm (by simp) (hc.applyCompletion c)
  | receive =>
    refine hcalm (by simp) ?_
    simp only [Scheduler.move]
    split
    · exact hc
    · rename_i c rest _
      have hrest : Coherent { s with pending := { s.pending with inbox := rest } } L ∅ :=
        hc.of_tables rfl rfl rfl rfl rfl rfl rfl rfl
      exact hrest.applyCompletion c
  | cancel id => exact hcalm (by simp) (hc.cancelSubtree_of_none id)
  | _ => exact hcalm (by simp) (hc.of_tables rfl rfl rfl rfl rfl rfl rfl rfl)

theorem stranded_append (h : Host P R W) (log : List (Scheduler P R W × Move P))
    (s : Scheduler P R W) (m : Move P) (id : TaskId) :
    Stranded h (log ++ [(s, m)]) id ↔ Stranded h log id ∨ m = .step ∧ s.Strands h id := by
  simp [Stranded, or_and_right, exists_or]

/-- Along a run every task is at home, but those that stranded. -/
theorem Run.coherent {log : List (Scheduler P R W × Move P)} (run : Run h log s) :
    Coherent s {id | Stranded h log id} ∅ := by
  induction run with
  | @new world s hs =>
    obtain rfl := eq_of_new hs
    have hnone : ∀ w, waiters ({ world } : Scheduler P R W) w = [] := by
      intro w
      cases w <;> rfl
    refine ⟨fun id _ _ => ⟨fun w => ?_, fun child hw => ?_⟩, by simp, by simp [Stranded], by simp,
      fun id t ht => ?_, ⟨fun c channel hc => ?_, fun g group hg => ?_, fun c channel hc => ?_⟩⟩
    · simp [hnone, wait?, task?]
    · cases hw
    · cases ht
    · cases hc
    · cases hg
    · cases hc
  | @move log s run m ih =>
    exact (ih.move run.tidy h m).congr_lost fun j => (stranded_append h log s m j).symm

end CoopTasks.Scheduler
