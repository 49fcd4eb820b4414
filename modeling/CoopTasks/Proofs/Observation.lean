import CoopTasks.Proofs.Lockstep
import Mathlib.Data.List.DropRight

/-!
# Observation is free

A scheduler that keeps a journal answers its host as one that keeps none, and goes through the same
moves in the same states. Its journal holds the well-formed effects that were dispatched since it
was last cleared, in order, each with its place among all that were ever dispatched.
-/

namespace CoopTasks

variable {P R W : Type}

/-- The host with the journal switched on or off. -/
def Host.recording (h : Host P R W) (on : Bool) : Host P R W :=
  h.withConfig { h.config with recordDispatches := on }

namespace Scheduler

variable {s s' : Scheduler P R W} {a a' : Annals P W} {h : Host P R W} {m : Move P}
variable {id : TaskId} {effect : Effect P W} {world : W}
variable {log log' : List (Scheduler P R W × Move P)}

/-! ## What is entered into the journal -/

def isDrop : Move P → Bool
  | .dropJournal => true
  | _ => false

theorem isDrop_eq_false : isDrop m = false ↔ m ≠ .dropJournal := by
  cases m <;> simp [isDrop]

/-- The entries of a log up to the last time that the journal was cleared. -/
def cleared (log : List (Scheduler P R W × Move P)) : List (Scheduler P R W × Move P) :=
  log.rdropWhile fun e => !isDrop e.2

/-- The entries of a log since the journal was last cleared. -/
def sinceCleared (log : List (Scheduler P R W × Move P)) : List (Scheduler P R W × Move P) :=
  log.rtakeWhile fun e => !isDrop e.2

/-- Effects as they stand in a journal, numbered from `start` on. -/
def chronicle (start : Nat) (ds : List (TaskId × Effect P W)) : List (Dispatch P W) :=
  (ds.zipIdx start).map fun entry => ⟨entry.2, entry.1.1, entry.1.2⟩

/-- The journal holds what was dispatched since it was last cleared. The numbers count all that was
ever dispatched. -/
structure Chronicled (h : Host P R W) (log : List (Scheduler P R W × Move P))
    (s : Scheduler P R W) : Prop where
  count : s.nextSeq = (dispatches h log).length
  journal : s.journal.toList =
    chronicle (dispatches h (cleared log)).length (dispatches h (sinceCleared log))

/-- The journal and the number of the next entry. -/
def diary (s : Scheduler P R W) : Array (Dispatch P W) × Nat := (s.journal, s.nextSeq)

theorem diary_of_annals (hs : s'.annals = s.annals) : s'.diary = s.diary :=
  congrArg (fun a : Annals P W => (a.journal, a.nextSeq)) hs

theorem diary_finish (s : Scheduler P R W) (h : Host P R W) (id : TaskId) (outcome : Outcome) :
    (s.finish h id outcome).diary = s.diary := by
  let Q : Annals P W → Annals P W → Prop := fun a _ => (a.journal, a.nextSeq) = s.diary
  have hself : Twins Q s s := .refl rfl
  exact (hself.finish (c := h.config) (fun _ _ _ hsame => hsame) id outcome).annals

theorem diary_takeFault (s : Scheduler P R W) : s.takeFault.2.diary = s.diary := by
  unfold takeFault
  split <;> rfl

theorem diary_dispatch (s : Scheduler P R W) (h : Host P R W) (id : TaskId)
    (hvalid : effect.violation? = none) :
    (s.dispatch h id effect).diary = (s.note h id effect).diary := by
  simp only [dispatch, hvalid]
  split
  · rename_i r hr
    exact diary_of_annals (annals_carryOut hr)
  · exact diary_finish ..

/-- A dispatched effect is entered, with the next number. -/
theorem diary_of_dispatched (hrec : h.config.recordDispatches = true)
    (hd : dispatched? h (s, m) = some (id, effect)) :
    (s.move h m).diary = (s.journal.push ⟨s.nextSeq, id, effect⟩, s.nextSeq + 1) := by
  unfold dispatched? at hd
  split at hd
  · rename_i id' effect' hstep hturn
    obtain rfl : m = .step := hstep
    split at hd
    · rename_i hvalid
      cases hd
      obtain ⟨t, process, input, rest, hq, ht, hp, hyield, hmove⟩ := turn_yield hturn
      rw [hmove, diary_takeFault, diary_dispatch _ h id hvalid]
      simp [note, hrec, diary, storeProcess, updateTask]
    · cases hd
  · cases hd

/-- Unless the journal is cleared, nothing else happens to it. -/
theorem diary_of_silent (hd : dispatched? h (s, m) = none) (hm : isDrop m = false) :
    (s.move h m).diary = s.diary := by
  cases m with
  | enroll process args => rfl
  | announce n =>
    refine diary_of_annals (annals_of_neutral (f := (announce · h n)) (fun s a => ?_) s)
    simp only [announce, publish_withAnnals]
    exact foldl_withAnnals (fun _ _ _ => rfl) _ a _
  | deliver c =>
    exact diary_of_annals (annals_of_neutral (f := fun s => (s.applyCompletion c).2)
      (fun s a => by rw [applyCompletion_withAnnals]) s)
  | queue c => rfl
  | receive =>
    simp only [move]
    split
    · rfl
    · exact diary_of_annals (annals_of_neutral (f := fun s => (s.receive _ _).2)
        (fun s a => by rw [receive_withAnnals]) s)
  | cancel id =>
    exact diary_of_annals (annals_of_neutral (f := (cancelSubtree · id))
      (fun s a => cancelSubtree_withAnnals ..) s)
  | step =>
    cases hq : s.queue with
    | nil => rw [move_step_nil h hq]
    | cons entry rest =>
      obtain ⟨id, input⟩ := entry
      rw [move_step_cons h hq, diary_takeFault]
      have htask : { s with queue := rest }.task? id = s.task? id := rfl
      simp only [step, htask]
      cases ht : s.task? id with
      | none => rfl
      | some t =>
        cases hp : t.process with
        | none => simp only [hp]; rfl
        | some process =>
          simp only [hp]
          cases hanswer : process.step h.program.resume input s.world with
          | mk answer after =>
            cases answer with
            | done v => exact diary_finish ..
            | failed e => exact diary_finish ..
            | yield effect =>
              cases hvalid : effect.violation? with
              | none => simp [dispatched?, turn?, hq, ht, hp, hanswer, hvalid] at hd
              | some v =>
                simp only [dispatch, hvalid]
                exact diary_finish ..
  | expire timer => rfl
  | setClock now => rfl
  | takeUnhandled => rfl
  | dropJournal => cases hm

/-! ## The journal of a run -/

theorem chronicle_append (start : Nat) (ds ds' : List (TaskId × Effect P W)) :
    chronicle start (ds ++ ds') = chronicle start ds ++ chronicle (start + ds.length) ds' := by
  simp [chronicle, List.zipIdx_append]

theorem seq_chronicle (start : Nat) (ds : List (TaskId × Effect P W)) :
    (chronicle start ds).map Dispatch.seq = List.range' start ds.length := by
  simp [chronicle, Function.comp_def]

theorem dispatches_append (h : Host P R W) (log log' : List (Scheduler P R W × Move P)) :
    dispatches h (log ++ log') = dispatches h log ++ dispatches h log' :=
  List.filterMap_append

theorem dispatches_cut (h : Host P R W) (log : List (Scheduler P R W × Move P)) :
    (dispatches h (cleared log)).length + (dispatches h (sinceCleared log)).length =
      (dispatches h log).length := by
  rw [← List.length_append, ← dispatches_append, cleared, sinceCleared,
    List.rdropWhile_append_rtakeWhile]

theorem Chronicled.move (hrec : h.config.recordDispatches = true) (hc : Chronicled h log s)
    (m : Move P) : Chronicled h (log ++ [(s, m)]) (s.move h m) := by
  cases hm : isDrop m with
  | true =>
    obtain rfl : m = .dropJournal := by cases m <;> first | rfl | cases hm
    have hsilent : dispatches h [(s, .dropJournal)] = [] := rfl
    have hnow : sinceCleared (log ++ [(s, .dropJournal)]) = [] :=
      List.rtakeWhile_concat_neg _ _ _ (by simp [isDrop])
    refine ⟨?_, by rw [hnow]; rfl⟩
    rw [dispatches_append, hsilent, List.append_nil]
    exact hc.count
  | false =>
    have hclear : cleared (log ++ [(s, m)]) = cleared log :=
      List.rdropWhile_concat_pos _ _ _ (by simp [hm])
    have hsince : sinceCleared (log ++ [(s, m)]) = sinceCleared log ++ [(s, m)] :=
      List.rtakeWhile_concat_pos _ _ _ (by simp [hm])
    cases hd : dispatched? h (s, m) with
    | none =>
      have hsilent : dispatches h [(s, m)] = [] := by simp [dispatches, hd]
      obtain ⟨hjournal, hseq⟩ := Prod.mk.inj (diary_of_silent hd hm)
      constructor
      · rw [hseq, dispatches_append, hsilent, List.append_nil, hc.count]
      · rw [hjournal, hclear, hsince, dispatches_append, hsilent, List.append_nil, hc.journal]
    | some entry =>
      obtain ⟨id, effect⟩ := entry
      have hone : dispatches h [(s, m)] = [(id, effect)] := by simp [dispatches, hd]
      obtain ⟨hjournal, hseq⟩ := Prod.mk.inj (diary_of_dispatched hrec hd)
      constructor
      · rw [hseq, dispatches_append, hone, List.length_append, hc.count]
        rfl
      · rw [hjournal, hclear, hsince, dispatches_append, hone, chronicle_append, dispatches_cut,
          Array.toList_push, hc.journal, hc.count]
        rfl

theorem Run.chronicled (hrec : h.config.recordDispatches = true) (run : Run h log s) :
    Chronicled h log s := by
  induction run with
  | new hs =>
    obtain rfl := eq_of_new hs
    exact ⟨rfl, rfl⟩
  | move run m ih => exact ih.move hrec m

/-- The numbers of a journal go up. They lie between the number of effects that were dispatched
before the journal was last cleared, and that of all effects. -/
theorem Chronicled.seqs (hc : Chronicled h log s) :
    s.journal.toList.map Dispatch.seq =
      List.range' (dispatches h (cleared log)).length (dispatches h (sinceCleared log)).length := by
  rw [hc.journal, seq_chronicle]

/-! ## With and without a journal -/

/-- The schedulers are the same, the journal and the number of its next entry apart. -/
def SameButJournal (s s' : Scheduler P R W) : Prop :=
  s' = { s with journal := s'.journal, nextSeq := s'.nextSeq }

theorem SameButJournal.of_twins (hs : Twins (fun a a' => a'.settled = a.settled) s s') :
    SameButJournal s s' := by
  obtain ⟨a, rfl, hsettled⟩ := hs
  have hsame : s.withAnnals a = { s with journal := a.journal, nextSeq := a.nextSeq } := by
    simp only [withAnnals, hsettled]
    rfl
  exact hsame

/-- Whether a journal is kept makes no difference but to the journal. -/
theorem mirror_recording (h : Host P R W) (on off : Bool) :
    Mirror (h.recording on) ((h.recording off).config) (fun a a' => a'.settled = a.settled)
      fun _ => True where
  budget := rfl
  upkeep := by
    refine ⟨fun a a' record hsame => ?_, fun {a a'} id effect hsame => ?_, id⟩
    · exact congrArg (fun l => (record :: l).take h.config.maxSettled) hsame
    · have hnote : ∀ (a : Annals P W) on, (a.note on id effect).settled = a.settled := by
        intro a on
        unfold Annals.note
        split <;> rfl
      rw [hnote, hnote, hsame]
  agree := by
    rintro log' s s' - ⟨a, rfl, hsettled⟩ - id target - -
    exact congrArg (List.find? fun record => record.task = target) hsettled

/-- A scheduler that keeps a journal answers every host as one that keeps none. Both make the same
moves, step the same tasks, dispatch the same effects and publish the same notifications, and they
are in the same states but for the journal. At every moment the journal holds the well-formed
effects that were dispatched since it was last cleared, in order and with increasing numbers, which
count all effects from the beginning. -/
theorem observation_free {requests : List (Request P)}
    (hs : Scheduler.new (h.recording true) world = .ok s)
    (hs' : Scheduler.new (h.recording false) world = .ok s') :
    Lockstep SameButJournal (h.recording true) (h.recording false) s s' requests ∧
      ∀ ms, ms <+: s.serveTrail (h.recording true) requests →
        Chronicled (h.recording true) (s.history (h.recording true) ms)
            (s.moves (h.recording true) ms) ∧
          ((s.moves (h.recording true) ms).journal.toList.map Dispatch.seq).Pairwise (· < ·) := by
  have run : Run (h.recording true) [] s := .new hs
  have run' : Run (h.recording false) [] s' := .new hs'
  refine ⟨?_, fun ms _ => ?_⟩
  · have hsame : s' = s := by rw [eq_of_new hs, eq_of_new hs']
    have hpaired : Paired (h.recording true) ((h.recording false).config)
        (fun a a' => a'.settled = a.settled) s s' := ⟨hsame ▸ .refl rfl, _, run'⟩
    exact (hpaired.lockstep (mirror_recording h true false) requests fun _ _ => trivial).mono
      SameButJournal.of_twins
  · have hchronicled := (run.moves ms).chronicled rfl
    refine ⟨hchronicled, ?_⟩
    rw [hchronicled.seqs]
    exact List.pairwise_lt_range'

/-- A listener is started, the journal is cleared, and a second listener is started. -/
def cleanSlate : List (Request Demo) :=
  [.call (.start .listener []), .dropJournal, .call (.start .listener [])]

/-- Without a journal the two listeners are started just as well. With one, it holds what the second
has dispatched, with the number one. -/
theorem observation_free_listeners :
    let s : Scheduler Demo (Demo × Nat) Unit := { world := () }
    Lockstep SameButJournal (demo.recording true) (demo.recording false) s s cleanSlate ∧
      ((s.moves (demo.recording true)
          (s.serveTrail (demo.recording true) cleanSlate)).journal.toList.map
        fun d => (d.seq, d.task)) = [(1, ⟨2⟩)] := by
  have hnew : ∀ on, Scheduler.new (demo.recording on) () =
      .ok ({ world := () } : Scheduler Demo (Demo × Nat) Unit) := fun _ => rfl
  exact ⟨(observation_free (hnew true) (hnew false)).1, rfl⟩

end Scheduler

end CoopTasks
