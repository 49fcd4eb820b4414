import CoopTasks.Proofs.Annals
import CoopTasks.Proofs.Order

/-!
# Twins

Two schedulers are twins if they are the same but for their annals. Twins that are run in the same
way, with hosts that differ only in what is written down, stay twins: they make the same moves and
give the same answers. What they must agree on is the record of a task that is joined after it has
settled, since this is the only place where the annals are read.
-/

namespace CoopTasks.Scheduler

variable {P R W : Type} {s s' r r' : Scheduler P R W} {h : Host P R W} {c : Config}
variable {Q : Annals P W → Annals P W → Prop} {fine : Scheduler P R W × Move P → Prop}
variable {log log' : List (Scheduler P R W × Move P)}

/-- To file a record under two configurations keeps a relation between the annals. -/
def Files (c c' : Config) (Q : Annals P W → Annals P W → Prop) : Prop :=
  ∀ a a' record, Q a a' → Q (a.file c.maxSettled record) (a'.file c'.maxSettled record)

/-- What is written down under two configurations keeps a relation between the annals. -/
structure Upkeep (c c' : Config) (Q : Annals P W → Annals P W → Prop) : Prop where
  file : Files c c' Q
  note : ∀ {a a'} id effect, Q a a' →
    Q (a.note c.recordDispatches id effect) (a'.note c'.recordDispatches id effect)
  drop : ∀ {a a'}, Q a a' → Q a.dropJournal a'.dropJournal

/-- The schedulers are the same but for their annals, and these are related. -/
def Twins (Q : Annals P W → Annals P W → Prop) (s s' : Scheduler P R W) : Prop :=
  ∃ a, s' = s.withAnnals a ∧ Q s.annals a

/-- A task that joins in its turn one that has settled finds the same record in both schedulers. -/
def Agree (h : Host P R W) (s s' : Scheduler P R W) : Prop :=
  ∀ id target, s.turn? h = some (id, .yield (.join target)) → s.isLive target = false →
    s'.settled? target = s.settled? target

/-- What does not look at the annals does not change them. -/
theorem annals_of_neutral {f : Scheduler P R W → Scheduler P R W}
    (hf : ∀ s a, f (s.withAnnals a) = (f s).withAnnals a) (s : Scheduler P R W) :
    (f s).annals = s.annals := by
  have hsame := hf s s.annals
  rw [withAnnals_annals] at hsame
  rw [hsame, annals_withAnnals]

namespace Twins

theorem map {f : Scheduler P R W → Scheduler P R W} (hs : Twins Q s s')
    (hf : ∀ s a, f (s.withAnnals a) = (f s).withAnnals a) : Twins Q (f s) (f s') := by
  obtain ⟨a, rfl, hQ⟩ := hs
  exact ⟨a, hf s a, by rwa [annals_of_neutral hf]⟩

theorem refl (hQ : Q s.annals s.annals) : Twins Q s s := ⟨s.annals, rfl, hQ⟩

theorem annals (hs : Twins Q s s') : Q s.annals s'.annals := by
  obtain ⟨a, rfl, hQ⟩ := hs
  exact hQ

theorem write (hs : Twins Q s s') {a a' : Annals P W} (hQ : Q a a') :
    Twins Q (s.withAnnals a) (s'.withAnnals a') := by
  obtain ⟨b, rfl, -⟩ := hs
  exact ⟨a', rfl, hQ⟩

/-! ## The step of a task -/

theorem retire (hs : Twins Q s s') (hf : Files h.config c Q) (id : TaskId) (t : Task P R W) :
    Twins Q (s.retire h id t) (s'.retire (h.withConfig c) id t) := by
  let record : Settlement := ⟨id, t.endStatus, t.endResult id⟩
  have hremoved := hs.map (f := (remove · id t.parent)) fun s a => remove_withAnnals ..
  have hfiled := hremoved.write (hf _ _ record hremoved.annals)
  have hanswered := hfiled.map (f := (answerJoiners · t.joiners record)) fun s a =>
    answerJoiners_withAnnals ..
  exact hanswered.map (f := (deliver · t record)) fun s a => deliver_withAnnals ..

theorem settleWithin (hs : Twins Q s s') (hf : Files h.config c Q) (fuel : Nat) (id : TaskId) :
    Twins Q (settleWithin h fuel id s) (settleWithin (h.withConfig c) fuel id s') := by
  induction fuel generalizing id s s' with
  | zero => exact hs
  | succ fuel ih =>
    have htask : s'.task? id = s.task? id := by
      obtain ⟨a, rfl, -⟩ := hs
      rfl
    simp only [Scheduler.settleWithin, htask]
    cases s.task? id with
    | none => exact hs
    | some t =>
      dsimp only
      split
      · cases t.parent with
        | none => exact hs.retire hf id t
        | some parent => exact ih (hs.retire hf id t) parent
      · exact hs

theorem settle (hs : Twins Q s s') (hf : Files h.config c Q) (id : TaskId) :
    Twins Q (s.settle h id) (s'.settle (h.withConfig c) id) := by
  have hsize : s'.tasks = s.tasks := by
    obtain ⟨a, rfl, -⟩ := hs
    rfl
  unfold Scheduler.settle
  rw [hsize]
  exact hs.settleWithin hf _ id

theorem finish (hs : Twins Q s s') (hf : Files h.config c Q) (id : TaskId) (outcome : Outcome) :
    Twins Q (s.finish h id outcome) (s'.finish (h.withConfig c) id outcome) := by
  have htask : s'.task? id = s.task? id := by
    obtain ⟨a, rfl, -⟩ := hs
    rfl
  have hraised := hs.map (f := (raiseOf · id outcome)) fun s a => raiseOf_withAnnals ..
  simp only [Scheduler.finish, htask]
  cases s.task? id with
  | none => exact hraised
  | some t =>
    have hended := hraised.map (f := (endProcess · id outcome)) fun s a => endProcess_withAnnals ..
    have hcancelled := hended.map (f := (cancelSubtrees · (t.takenDown outcome))) fun s a =>
      cancelSubtrees_withAnnals ..
    exact hcancelled.settle hf id

theorem carryOut (hs : Twins Q s s') {id : TaskId} {effect : Effect P W}
    (hrecord : ∀ target, effect = .join target → s.isLive target = false →
      s'.settled? target = s.settled? target) :
    (∃ v, s.carryOut h id effect = .error v ∧
        s'.carryOut (h.withConfig c) id effect = .error v) ∨
      ∃ r r', s.carryOut h id effect = .ok r ∧
        s'.carryOut (h.withConfig c) id effect = .ok r' ∧ Twins Q r r' := by
  obtain ⟨a, rfl, hQ⟩ := hs
  rw [carryOut_withAnnals h c id hrecord]
  cases hr : s.carryOut h id effect with
  | error v => exact Or.inl ⟨v, rfl, rfl⟩
  | ok r => exact Or.inr ⟨r, r.withAnnals a, rfl, rfl, a, rfl, by rwa [annals_carryOut hr]⟩

theorem dispatch (hs : Twins Q s s') (hk : Upkeep h.config c Q) (id : TaskId)
    {effect : Effect P W} (hrecord : ∀ target, effect = .join target → s.isLive target = false →
      s'.settled? target = s.settled? target) :
    Twins Q (s.dispatch h id effect) (s'.dispatch (h.withConfig c) id effect) := by
  unfold Scheduler.dispatch
  cases effect.violation? with
  | some v => exact hs.finish hk.file id _
  | none =>
    have hnoted : Twins Q (s.note h id effect) (s'.note (h.withConfig c) id effect) := by
      rw [note_eq, note_eq]
      exact hs.write (hk.note id effect hs.annals)
    have hsettled : ∀ (s : Scheduler P R W) (h : Host P R W) target,
        (s.note h id effect).settled? target = s.settled? target := by
      intro s h target
      unfold note
      split <;> rfl
    have hlive : ∀ target, (s.note h id effect).isLive target = s.isLive target := by
      intro target
      rw [note_eq, isLive_withAnnals]
    dsimp only
    have hnoted_record : ∀ target, effect = .join target →
        (s.note h id effect).isLive target = false →
        (s'.note (h.withConfig c) id effect).settled? target =
          (s.note h id effect).settled? target := by
      intro target he hl
      rw [hsettled, hsettled, hrecord target he (hlive target ▸ hl)]
    rcases hnoted.carryOut hnoted_record with ⟨v, hv, hv'⟩ | ⟨r, r', hr, hr', htwins⟩
    · rw [hv, hv']
      exact hnoted.finish hk.file id _
    · rw [hr, hr']
      exact htwins

theorem step (hs : Twins Q s s') (hk : Upkeep h.config c Q) (id : TaskId) (input : Input)
    (hrecord : ∀ t process target, s.task? id = some t → t.process = some process →
      (process.step h.program.resume input s.world).1 = .yield (.join target) →
      s.isLive target = false → s'.settled? target = s.settled? target) :
    Twins Q (s.step h id input) (s'.step (h.withConfig c) id input) := by
  have htask : s'.task? id = s.task? id := by
    obtain ⟨a, rfl, -⟩ := hs
    rfl
  have hworld : s'.world = s.world := by
    obtain ⟨a, rfl, -⟩ := hs
    rfl
  have hresume : (h.withConfig c).program.resume = h.program.resume := rfl
  simp only [Scheduler.step, htask, hworld, hresume]
  cases ht : s.task? id with
  | none => exact hs
  | some t =>
    cases hp : t.process with
    | none => simpa only [hp] using hs
    | some process =>
      have hstep := hrecord t process
      simp only [hp]
      cases hanswer : process.step h.program.resume input s.world with
      | mk answer rest =>
        obtain ⟨process', world⟩ := rest
        have hstored : Twins Q ({ s with world }.storeProcess id process')
            ({ s' with world }.storeProcess id process') :=
          hs.map (f := fun s => { s with world }.storeProcess id process') fun _ _ => rfl
        cases answer with
        | done v => exact hstored.finish hk.file id _
        | failed e => exact hstored.finish hk.file id _
        | yield effect =>
          refine hstored.dispatch hk id fun target he hl => ?_
          have hlive : s.isLive target = false := by
            rw [← hl, isLive_eq, isLive_eq, storeProcess, task?_updateTask]
            split
            · exact Option.isSome_map.symm
            · rfl
          exact hstep target ht hp (by rw [hanswer, he]) hlive

theorem takeFault (hs : Twins Q s s') : ∃ answer r r', s.takeFault = (answer, r) ∧
    s'.takeFault = (answer, r') ∧ Twins Q r r' := by
  have hleft := hs.map (f := fun s => s.takeFault.2) fun s a => by rw [takeFault_withAnnals]
  obtain ⟨a, rfl, -⟩ := hs
  rw [takeFault_withAnnals] at hleft ⊢
  exact ⟨_, _, _, rfl, rfl, hleft⟩

theorem stepNext? (hs : Twins Q s s') (hk : Upkeep h.config c Q) (hagree : Agree h s s') :
    (s.stepNext? h = none ∧ s'.stepNext? (h.withConfig c) = none) ∨
      ∃ answer r r', s.stepNext? h = some (answer, r) ∧
        s'.stepNext? (h.withConfig c) = some (answer, r') ∧ Twins Q r r' := by
  have hqueue : s'.queue = s.queue := by
    obtain ⟨a, rfl, -⟩ := hs
    rfl
  unfold Scheduler.stepNext?
  rw [hqueue]
  cases hq : s.queue with
  | nil => exact Or.inl ⟨rfl, rfl⟩
  | cons entry rest =>
    obtain ⟨id, input⟩ := entry
    have hpopped : Twins Q { s with queue := rest } { s' with queue := rest } :=
      hs.map (f := fun s => { s with queue := rest }) fun _ _ => rfl
    have hstepped := hpopped.step hk id input fun t process target ht hp hyield =>
      hagree id target (by simp [turn?, hq, show s.task? id = some t from ht, hp,
        show (process.step h.program.resume input s.world).1 = _ from hyield])
    obtain ⟨answer, r, r', hr, hr', htwins⟩ := hstepped.takeFault
    exact Or.inr ⟨answer, r, r', congrArg some hr, congrArg some hr', htwins⟩

/-! ## Moves -/

theorem enroll (hs : Twins Q s s') (process : P) (args : List Value) :
    Twins Q (s.enroll h process args).2 (s'.enroll (h.withConfig c) process args).2 :=
  hs.map (f := fun s => (s.enroll h process args).2) fun _ _ => by simp [Scheduler.enroll]

theorem announce (hs : Twins Q s s') (n : Notification) :
    Twins Q (s.announce h n) (s'.announce (h.withConfig c) n) := by
  refine hs.map (f := fun s => s.announce h n) fun s a => ?_
  simp only [Scheduler.announce, publish_withAnnals]
  exact foldl_withAnnals (fun _ _ _ => rfl) _ a _

/-- Twins that make the same move stay twins. -/
theorem move (hs : Twins Q s s') (hk : Upkeep h.config c Q) {m : Move P}
    (hagree : m = .step → Agree h s s') :
    Twins Q (s.move h m) (s'.move (h.withConfig c) m) := by
  cases m with
  | enroll process args => exact hs.enroll process args
  | announce n => exact hs.announce n
  | deliver d =>
    exact hs.map (f := fun s => (s.applyCompletion d).2) fun _ _ => by simp
  | queue d => exact hs.map (f := fun s => s.enqueueCompletion d) fun _ _ => rfl
  | receive =>
    have hpending : s'.pending = s.pending := by
      obtain ⟨a, rfl, -⟩ := hs
      rfl
    simp only [Scheduler.move, hpending]
    split
    · exact hs
    · exact hs.map (f := fun s => (s.receive _ _).2) fun _ _ => by simp
  | cancel id => exact hs.map (f := (cancelSubtree · id)) fun s a => cancelSubtree_withAnnals ..
  | step =>
    simp only [Scheduler.move]
    rcases hs.stepNext? hk (hagree rfl) with ⟨hnone, hnone'⟩ | ⟨answer, r, r', hr, hr', htwins⟩
    · rwa [hnone, hnone']
    · rwa [hr, hr']
  | expire timer => exact hs.map (f := fun s => s.expire timer) fun _ _ => rfl
  | setClock now => exact hs.map (f := fun s => s.setClock now) fun _ _ => rfl
  | takeUnhandled => exact hs.map (f := fun s => s.takeUnhandled.2) fun _ _ => rfl
  | dropJournal =>
    simp only [Scheduler.move, dropJournal_eq]
    exact hs.write (hk.drop hs.annals)

end Twins

end CoopTasks.Scheduler
