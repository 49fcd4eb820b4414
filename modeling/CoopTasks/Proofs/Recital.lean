import CoopTasks.Proofs.Breaches
import CoopTasks.Proofs.Frailty
import CoopTasks.Proofs.Observation
import CoopTasks.Proofs.Roles
import CoopTasks.Proofs.Watchers

/-!
# Scripts are recited

A task that runs a script dispatches its effects in their order, the next one in the turn in which
it gets the answer to the last. However long the answers take, and whoever gives them, the journal
holds as many of the effects as the task has been given values, until the task returns the answer to
the last effect, is given an error, or breaks the contract.
-/

namespace CoopTasks.Scheduler

variable {P R W : Type} {s : Scheduler P R W} {h : Host P R W} {m : Move P}
variable {id : TaskId} {effect : Effect P W} {effects : List (Effect P W)} {input : Input}
variable {log past : List (Scheduler P R W × Move P)} {ms : List (Move P)} {values : List Value}

/-- What a task is stepped with, one time after the other. -/
def inputsOf (id : TaskId) (log : List (Scheduler P R W × Move P)) : List Input :=
  (turns log).filterMap fun turn => if turn.1 = id then some turn.2 else none

/-- The effects of a task in the journal, in order. -/
def entriesOf (s : Scheduler P R W) (id : TaskId) : List (Effect P W) :=
  s.journal.toList.filterMap fun entry => if entry.task = id then some entry.effect else none

/-! ## Turns of a task, and turns of others -/

theorem dispatched?_eq_some {e : Scheduler P R W × Move P} :
    dispatched? h e = some (id, effect) ↔ e.2 = .step ∧
      e.1.turn? h = some (id, .yield effect) ∧ effect.violation? = none := by
  unfold dispatched?
  split
  · rename_i id' effect' hstep hturn
    constructor
    · intro hd
      split at hd
      · rename_i hvalid
        cases hd
        exact ⟨hstep, hturn, hvalid⟩
      · cases hd
    · rintro ⟨-, hturn', hvalid⟩
      cases hturn.symm.trans hturn'
      exact if_pos hvalid
  · rename_i hother
    simp only [reduceCtorEq, false_iff, not_and]
    exact fun hstep hturn => absurd hturn (hother id effect hstep)

theorem inputsOf_append (id : TaskId) (log log' : List (Scheduler P R W × Move P)) :
    inputsOf id (log ++ log') = inputsOf id log ++ inputsOf id log' := by
  simp [inputsOf]

theorem inputsOf_turn (hhead : s.queue.head? = some (id, input)) :
    inputsOf id [(s, (.step : Move P))] = [input] := by
  simp [inputsOf, turns, served?, hhead]

theorem inputsOf_other (hidle : m = .step → id ∉ s.active) : inputsOf id [(s, m)] = [] := by
  cases hserved : served? (s, m) with
  | none => simp [inputsOf, turns, hserved]
  | some turn =>
    obtain ⟨rfl, hhead⟩ := served?_eq_some.1 hserved
    have hne : turn.1 ≠ id := by
      rintro rfl
      exact hidle rfl (by simp [active, show s.queue.head? = some (turn.1, turn.2) from hhead])
    simp [inputsOf, turns, hserved, hne]

theorem entriesOf_dispatched (hrec : h.config.recordDispatches = true)
    (hd : dispatched? h (s, m) = some (id, effect)) :
    (s.move h m).entriesOf id = s.entriesOf id ++ [effect] := by
  have hjournal := congrArg Prod.fst (diary_of_dispatched hrec hd)
  simp only [diary] at hjournal
  simp [entriesOf, hjournal]

theorem entriesOf_other (hrec : h.config.recordDispatches = true) (hm : isDrop m = false)
    (hd : ∀ effect, dispatched? h (s, m) ≠ some (id, effect)) :
    (s.move h m).entriesOf id = s.entriesOf id := by
  cases hother : dispatched? h (s, m) with
  | none =>
    have hjournal : (s.move h m).journal = s.journal :=
      congrArg Prod.fst (diary_of_silent hother hm)
    rw [entriesOf, hjournal, entriesOf]
  | some entry =>
    have hne : entry.1 ≠ id := by
      rintro rfl
      exact hd entry.2 hother
    have hjournal := congrArg Prod.fst (diary_of_dispatched hrec hother)
    simp only [diary] at hjournal
    simp [entriesOf, hjournal, hne]

/-- Unless it is the turn of a task, nothing of it is dispatched. -/
theorem entriesOf_idle (hrec : h.config.recordDispatches = true) (hm : isDrop m = false)
    (hidle : m = .step → id ∉ s.active) : (s.move h m).entriesOf id = s.entriesOf id := by
  refine entriesOf_other hrec hm fun effect hd => ?_
  obtain ⟨hstep, hturn, -⟩ := dispatched?_eq_some.1 hd
  exact hidle hstep (mem_active_of_turn hturn)

/-! ## Where a script stands -/

/-- The task has been given values, and then perhaps an error; the journal holds so many effects of
the script, not more than there were values. -/
structure Recorded (id : TaskId) (effects : List (Effect P W))
    (log : List (Scheduler P R W × Move P)) (s : Scheduler P R W) (count : Nat)
    (values : List Value) (errors : List TaskError) : Prop where
  entries : s.entriesOf id = effects.take count
  sound : ∀ effect ∈ effects.take count, effect.violation? = none
  inputs : inputsOf id log = values.map .value ++ errors.map .error
  count_le : count ≤ values.length

/-- The process of a task has ended. -/
def Over (s : Scheduler P R W) (id : TaskId) : Prop :=
  id.val < s.nextTask ∧ ∀ t, s.task? id = some t → t.process = none

/-- Where the script of a task stands: it goes on with the effects that are left, one for each value
but the first, or it is over. -/
inductive Recites (id : TaskId) (effects : List (Effect P W))
    (log : List (Scheduler P R W × Move P)) (s : Scheduler P R W) : Prop where
  | going {values : List Value} : Recorded id effects log s values.length values [] →
      values.length ≤ effects.length → s.Runs id {.script (effects.drop values.length)} →
      (values = [] ∧ s.Answered id (.value .unit) false ∨ values.head? = some .unit) →
      Recites id effects log s
  | ended {count : Nat} {values : List Value} {errors : List TaskError} :
      Recorded id effects log s count values errors → s.Over id → Recites id effects log s

theorem Over.move (ho : s.Over id) (h : Host P R W) (m : Move P) : (s.move h m).Over id := by
  have hlater := later_move s h m
  refine ⟨Nat.lt_of_lt_of_le ho.1 hlater.next, fun t ht => ?_⟩
  obtain ⟨u, hu, honward⟩ := hlater.onward id t ht ho.1
  exact honward.ended (ho.2 u hu)

theorem Run.idle_of_over (run : Run h past s) (ho : s.Over id) : id ∉ s.active := by
  intro hactive
  obtain ⟨input, hhead⟩ := mem_active.1 hactive
  obtain ⟨t, ht, hp⟩ := run.find_of_queued (List.mem_of_head? hhead)
  simp [ho.2 t ht] at hp

theorem Recorded.idle {count : Nat} {values : List Value} {errors : List TaskError}
    (hr : Recorded id effects log s count values errors) (hrec : h.config.recordDispatches = true)
    (hm : isDrop m = false) (hidle : m = .step → id ∉ s.active) :
    Recorded id effects (log ++ [(s, m)]) (s.move h m) count values errors where
  entries := (entriesOf_idle hrec hm hidle).trans hr.entries
  sound := hr.sound
  inputs := by rw [inputsOf_append, inputsOf_other hidle, List.append_nil, hr.inputs]
  count_le := hr.count_le

/-- The first value that a script is given is the unit. -/
theorem Run.first_value (run : Run h past s) {v : Value}
    (hopen : values = [] ∧ s.Answered id (.value .unit) false ∨ values.head? = some .unit)
    (hhead : s.queue.head? = some (id, .value v)) : (values ++ [v]).head? = some .unit := by
  rcases hopen with ⟨rfl, -, t, -, -, ⟨hm, -⟩ | ⟨hm, -⟩⟩ | hunit
  · obtain ⟨rest, hq⟩ := List.head?_eq_some_iff.1 hhead
    cases run.input_of_head hq hm
    rfl
  · obtain ⟨rest, hq⟩ := List.head?_eq_some_iff.1 hhead
    cases run.input_of_head hq hm
  · rw [List.head?_append, hunit]
    rfl

theorem Run.over_of_ending (run : Run h past s) {outcome : Outcome}
    (hend : s.ending? h .step = some (id, outcome)) : (s.move h .step).Over id := by
  have hid := run.tidy.forest.fresh id (finish_of_ending? hend).1
  refine ⟨Nat.lt_of_lt_of_le hid (later_move s h .step).next, fun t ht => ?_⟩
  have hlast := List.mem_append_right past (List.mem_singleton_self (s, Move.step (P := P)))
  exact (run.move .step).ended_since hlast hend ht

theorem Recorded.turned (hr : Recorded id effects log s values.length values [])
    (hhead : s.queue.head? = some (id, input)) :
    inputsOf id (log ++ [(s, .step)]) = values.map .value ++ [input] := by
  rw [inputsOf_append, inputsOf_turn hhead, hr.inputs, List.map_nil, List.append_nil]

/-- A turn in which nothing is dispatched leaves the journal alone. -/
theorem Recorded.silent (hr : Recorded id effects log s values.length values [])
    (hrec : h.config.recordDispatches = true)
    (hnone : ∀ effect, effect.violation? = none → s.turn? h ≠ some (id, .yield effect)) :
    (s.move h .step).entriesOf id = effects.take values.length := by
  refine (entriesOf_other hrec rfl fun effect hd => ?_).trans hr.entries
  obtain ⟨-, hyield, hvalid⟩ := dispatched?_eq_some.1 hd
  exact hnone effect hvalid hyield

/-- A valid effect that a script yields for a value is entered into the journal. -/
theorem Recorded.dispatched (hr : Recorded id effects log s values.length values [])
    (hrec : h.config.recordDispatches = true) {v : Value}
    (hhead : s.queue.head? = some (id, .value v))
    (hnext : effects[values.length]? = some effect)
    (hd : dispatched? h (s, .step) = some (id, effect)) :
    Recorded id effects (log ++ [(s, .step)]) (s.move h .step) (values ++ [v]).length
      (values ++ [v]) [] := by
  have htake : effects.take (values ++ [v]).length = effects.take values.length ++ [effect] := by
    rw [List.length_append, List.length_singleton, List.take_add_one, hnext, Option.toList_some]
  refine ⟨?_, fun effect' he => ?_, ?_, Nat.le_refl _⟩
  · rw [entriesOf_dispatched hrec hd, hr.entries, htake]
  · rw [htake] at he
    rcases List.mem_append.1 he with he | he
    · exact hr.sound effect' he
    · rw [List.mem_singleton.1 he]
      exact (dispatched?_eq_some.1 hd).2.2
  · rw [hr.turned hhead]
    simp

/-- A task that has yielded goes on with what its turn made of its process, or is over. -/
theorem Run.goes_on (run : Run h past s) {process : Process P R W} (hruns : s.Runs id {process})
    (hhead : s.queue.head? = some (id, input))
    (hanswer : (process.step h.program.resume input s.world).1 = .yield effect) :
    (s.move h .step).Runs id {(process.step h.program.resume input s.world).2.1} ∨
      (s.move h .step).Over id := by
  have hyield : s.turn? h = some (id, .yield effect) := hanswer ▸ turn_of_head hhead hruns
  by_cases hended : ∀ t, (s.move h .step).task? id = some t → t.process = none
  · have hid := run.tidy.forest.fresh id hruns.isLive
    exact .inr ⟨Nat.lt_of_lt_of_le hid (later_move s h .step).next, hended⟩
  · simp only [not_forall] at hended
    obtain ⟨t', ht', hp'⟩ := hended
    obtain ⟨process', hp'⟩ := Option.ne_none_iff_exists'.1 hp'
    obtain ⟨t, own, input', hhead', ht, hp, -, rfl⟩ := run.process_of_yield hyield ht' hp'
    obtain ⟨u, process, hu, hown, rfl⟩ := hruns
    obtain rfl := Option.some.inj (ht.symm.trans hu)
    obtain rfl := Option.some.inj (hp.symm.trans hown)
    cases hhead.symm.trans hhead'
    exact .inl ⟨t', _, ht', hp', rfl⟩

/-- On its turn a script yields the next effect for a value and returns the value after the last
one, and with an error it fails. -/
theorem Run.recites_turn (run : Run h past s) (hrec : h.config.recordDispatches = true)
    (hr : Recorded id effects log s values.length values [])
    (hruns : s.Runs id {.script (effects.drop values.length)})
    (hopen : values = [] ∧ s.Answered id (.value .unit) false ∨ values.head? = some .unit)
    (hhead : s.queue.head? = some (id, input)) :
    Recites id effects (log ++ [(s, .step)]) (s.move h .step) := by
  have hturn := turn_of_head (h := h) hhead hruns
  have hinputs := hr.turned hhead
  cases input with
  | error e =>
    have hfailed : s.turn? h = some (id, .failed e) := by
      rw [hturn]
      cases effects.drop values.length <;> rfl
    have hrecorded : Recorded id effects (log ++ [(s, .step)]) (s.move h .step) values.length values
        [e] := ⟨hr.silent hrec (by simp [hfailed]), hr.sound, hinputs, Nat.le_refl _⟩
    exact .ended hrecorded (run.over_of_ending (ending?_of_failed hfailed))
  | value v =>
    have hvalues : inputsOf id (log ++ [(s, .step)]) =
        (values ++ [v]).map .value ++ ([] : List TaskError).map .error := by simp [hinputs]
    have hcount : values.length ≤ (values ++ [v]).length := by simp
    cases hleft : effects.drop values.length with
    | nil =>
      have hdone : s.turn? h = some (id, .done v) := by rw [hturn, hleft]; rfl
      exact .ended ⟨hr.silent hrec (by simp [hdone]), hr.sound, hvalues, hcount⟩
        (run.over_of_ending (ending?_of_done hdone))
    | cons effect rest =>
      rw [hleft] at hruns
      have hyield : s.turn? h = some (id, .yield effect) := turn_of_head hhead hruns
      cases hvalid : effect.violation? with
      | some violation =>
        have hbreach : Breaches h s id violation := .malformed hyield hvalid
        refine .ended ⟨hr.silent hrec fun effect' hvalid' hyield' => ?_, hr.sound, hvalues, hcount⟩
          (run.over_of_ending (run.breaches_iff.1 hbreach))
        cases hyield.symm.trans hyield'
        simp [hvalid] at hvalid'
      | none =>
        have hnext : effects[values.length]? = some effect := by
          rw [← List.head?_drop, hleft, List.head?_cons]
        have hdrop : effects.drop (values ++ [v]).length = rest := by
          rw [List.length_append, List.length_singleton, ← List.drop_drop, hleft, List.drop_one,
            List.tail_cons]
        have hlt := (List.getElem?_eq_some_iff.1 hnext).1
        have hrecorded := hr.dispatched hrec hhead hnext
          (dispatched?_eq_some.2 ⟨rfl, hyield, hvalid⟩)
        rcases run.goes_on hruns hhead rfl with hgoes | hover
        · exact .going hrecorded (by rwa [List.length_append]) (hdrop.symm ▸ hgoes)
            (.inr (run.first_value hopen hhead))
        · exact .ended hrecorded hover

theorem Recites.move (hr : Recites id effects log s) (run : Run h past s)
    (hrec : h.config.recordDispatches = true) (hm : m ≠ .dropJournal) :
    Recites id effects (log ++ [(s, m)]) (s.move h m) := by
  have hkept : isDrop m = false := isDrop_eq_false.2 hm
  cases hr with
  | @going values hr hle hruns hopen =>
    by_cases hactive : m = .step ∧ id ∈ s.active
    · obtain ⟨rfl, hactive⟩ := hactive
      obtain ⟨input, hhead⟩ := mem_active.1 hactive
      exact run.recites_turn hrec hr hruns hopen hhead
    · have hidle : m = .step → id ∉ s.active := fun hstep hin => hactive ⟨hstep, hin⟩
      refine .going (hr.idle hrec hkept hidle) hle (run.runs_move hruns m hidle) ?_
      exact hopen.imp_left fun ⟨hnil, ha⟩ => ⟨hnil, run.answered_move m hidle ha⟩
  | ended hr hover =>
    exact .ended (hr.idle hrec hkept fun _ => run.idle_of_over hover) (hover.move h m)

theorem Recites.moves (hr : Recites id effects log s) (run : Run h past s)
    (hrec : h.config.recordDispatches = true) (hms : .dropJournal ∉ ms) :
    Recites id effects (log ++ s.history h ms) (s.moves h ms) := by
  induction ms generalizing past log s with
  | nil => simpa [history] using hr
  | cons m ms ih =>
    obtain ⟨hm, hms⟩ := List.ne_and_not_mem_of_not_mem_cons hms
    have hnext := ih (hr.move run hrec (Ne.symm hm)) (run.move m) hms
    rwa [List.append_assoc] at hnext

/-- The journal has nothing of a task that is still to be spawned. -/
theorem Run.entriesOf_unspawned (run : Run h past s) (hrec : h.config.recordDispatches = true)
    (hid : s.nextTask ≤ id.val) : s.entriesOf id = [] := by
  induction run with
  | new hs =>
    obtain rfl := eq_of_new hs
    rfl
  | @move past s run m ih =>
    have hid' : s.nextTask ≤ id.val := Nat.le_trans (later_move s h m).next hid
    by_cases hm : m = .dropJournal
    · subst hm
      rfl
    · have hkept : isDrop m = false := isDrop_eq_false.2 hm
      refine (entriesOf_idle hrec hkept fun _ hactive => ?_).trans (ih hid')
      obtain ⟨input, hhead⟩ := mem_active.1 hactive
      have hl := run.isLive_of_queued (List.mem_of_head? hhead)
      exact absurd (run.tidy.forest.fresh _ hl) (Nat.not_lt.2 hid')

/-- A script that has just been started is at its beginning. -/
theorem Run.recites_enrolled (run : Run h past s) (hrec : h.config.recordDispatches = true) {p : P}
    (hscript : h.program.define p = .script effects) (args : List Value) :
    Recites ⟨s.nextTask⟩ effects [] (s.move h (.enroll p args)) := by
  have htask : (s.move h (.enroll p args)).task? ⟨s.nextTask⟩ = some {
      name := h.program.name p, parent := none, role := .root
      process := some (.script effects) } := by
    refine (task?_spawn s h p args none .root _).trans ?_
    rw [if_pos rfl, Program.spawn, hscript]
  have hqueue : (s.move h (.enroll p args)).queue = s.queue ++ [(⟨s.nextTask⟩, .value .unit)] := rfl
  have hentries : (s.move h (.enroll p args)).entriesOf ⟨s.nextTask⟩ = s.entriesOf ⟨s.nextTask⟩ :=
    entriesOf_idle hrec rfl (by simp)
  have hrecorded : Recorded ⟨s.nextTask⟩ effects [] (s.move h (.enroll p args))
      ([] : List Value).length [] [] := by
    refine ⟨?_, by simp, rfl, Nat.le_refl _⟩
    rw [hentries, run.entriesOf_unspawned hrec (Nat.le_refl _)]
    rfl
  refine .going hrecorded (Nat.zero_le _) ⟨_, _, htask, rfl, rfl⟩ (.inl ⟨rfl, ?_⟩)
  exact ⟨Nat.lt_succ_self s.nextTask, _, htask, rfl, .inl ⟨by simp [hqueue], rfl⟩⟩

/-! ## What a script dispatches -/

/-- How far a script is recited. -/
structure Recited (h : Host P R W) (id : TaskId) (effects : List (Effect P W))
    (log : List (Scheduler P R W × Move P)) (s : Scheduler P R W) : Prop where
  /-- The journal holds the effects of the script, from the first one on. -/
  entries : s.entriesOf id <+: effects
  /-- A script that has returned has dispatched all of them. It was given a value for each, and has
  returned the last one. -/
  done : ∀ e ∈ log, ∀ v, e.2 = .step → e.1.turn? h = some (id, .done v) →
    s.entriesOf id = effects ∧ ∃ answers : List Value, answers.length = effects.length ∧
      inputsOf id log = (.unit :: answers).map .value ∧ (Value.unit :: answers).getLast? = some v
  /-- An effect is dispatched in the turn in which the script is given the answer to the one before,
  and that is when all before are in the journal. -/
  turn : ∀ before e after effect, log = before ++ e :: after →
    dispatched? h e = some (id, effect) → ∃ answers : List Value,
      effects[answers.length]? = some effect ∧ e.1.entriesOf id = effects.take answers.length ∧
      inputsOf id (before ++ [e]) = (.unit :: answers).map .value
  /-- With a malformed effect the recital ends. -/
  malformed : ∀ k effect, effects[k]? = some effect → effect.violation?.isSome →
    (s.entriesOf id).length ≤ k
  /-- With an error in place of an answer the recital ends. -/
  failed : ∀ k e, (inputsOf id log)[k]? = some (.error e) → (s.entriesOf id).length ≤ k

theorem Recorded.length_le {count : Nat} {errors : List TaskError}
    (hr : Recorded id effects log s count values errors) : (s.entriesOf id).length ≤ count := by
  rw [hr.entries, List.length_take]
  exact Nat.min_le_left _ _

theorem Recites.recorded (hr : Recites id effects log s) :
    ∃ count values errors, Recorded id effects log s count values errors := by
  cases hr with
  | going hr => exact ⟨_, _, _, hr⟩
  | ended hr => exact ⟨_, _, _, hr⟩

theorem Recorded.malformed {count : Nat} {errors : List TaskError}
    (hr : Recorded id effects log s count values errors) {k : Nat} (hk : effects[k]? = some effect)
    (hbad : effect.violation?.isSome) : (s.entriesOf id).length ≤ k := by
  refine Nat.le_of_not_lt fun hlt => ?_
  have hmem : effect ∈ effects.take count :=
    List.mem_of_getElem? ((List.getElem?_take_of_lt (Nat.lt_of_lt_of_le hlt hr.length_le)).trans hk)
  simp [hr.sound effect hmem] at hbad

theorem Recorded.failed {count : Nat} {errors : List TaskError}
    (hr : Recorded id effects log s count values errors) {k : Nat} {e : TaskError}
    (hk : (inputsOf id log)[k]? = some (.error e)) : (s.entriesOf id).length ≤ k := by
  refine Nat.le_of_not_lt fun hlt => ?_
  have hvalue : k < (values.map Input.value).length := by
    rw [List.length_map]
    exact Nat.lt_of_lt_of_le hlt (Nat.le_trans hr.length_le hr.count_le)
  rw [hr.inputs, List.getElem?_append_left hvalue, List.getElem?_map] at hk
  simp at hk

/-- A script that does not fail on its turn has been given a value, and yields the next effect, or
returns the value if none is left. -/
theorem Recites.at_turn (hr : Recites id effects log s) (run : Run h past s) {answer : Step P W}
    (hturn : s.turn? h = some (id, answer)) (hanswer : ∀ e, answer ≠ .failed e) :
    ∃ (values answers : List Value) (v : Value), values ++ [v] = .unit :: answers ∧
      answers.length = values.length ∧ values.length ≤ effects.length ∧
      Recorded id effects log s values.length values [] ∧ s.queue.head? = some (id, .value v) ∧
      answer = (effects[values.length]?).elim (.done v) .yield := by
  have hactive := mem_active_of_turn hturn
  cases hr with
  | ended hr hover => exact absurd hactive (run.idle_of_over hover)
  | @going values hr hle hruns hopen =>
    obtain ⟨input, hhead⟩ := mem_active.1 hactive
    have hturn' := (turn_of_head (h := h) hhead hruns).symm.trans hturn
    cases input with
    | error e =>
      cases hleft : effects.drop values.length <;> rw [hleft] at hturn' <;> cases hturn' <;>
        exact absurd rfl (hanswer e)
    | value v =>
      obtain ⟨answers, hanswers⟩ := List.head?_eq_some_iff.1 (run.first_value hopen hhead)
      have hlength : answers.length = values.length := by
        have hcount := congrArg List.length hanswers
        simpa using hcount.symm
      refine ⟨values, answers, v, hanswers, hlength, hle, hr, hhead, ?_⟩
      rw [← List.head?_drop]
      cases hleft : effects.drop values.length <;> rw [hleft] at hturn' <;> cases hturn' <;> rfl

/-- What is dispatched is the effect after those that are in the journal, and the script has been
given as many answers. -/
theorem Recites.dispatched (hr : Recites id effects log s) (run : Run h past s)
    (hd : dispatched? h (s, m) = some (id, effect)) : ∃ answers : List Value,
      effects[answers.length]? = some effect ∧ s.entriesOf id = effects.take answers.length ∧
      inputsOf id (log ++ [(s, m)]) = (.unit :: answers).map .value := by
  obtain ⟨hstep, hturn, -⟩ := dispatched?_eq_some.1 hd
  obtain rfl : m = .step := hstep
  obtain ⟨values, answers, v, hanswers, hlength, -, hrecorded, hhead, hanswer⟩ :=
    hr.at_turn run hturn (by simp)
  refine ⟨answers, ?_, by rw [hlength, hrecorded.entries], ?_⟩
  · rw [hlength]
    cases hnext : effects[values.length]? with
    | none => simp [hnext] at hanswer
    | some effect' => simpa [hnext, eq_comm] using hanswer
  · rw [hrecorded.turned hhead, ← hanswers]
    simp

/-- A script that returns has dispatched all its effects, has been given an answer to each, and
returns the last one. -/
theorem Recites.returned (hr : Recites id effects log s) (run : Run h past s)
    (hrec : h.config.recordDispatches = true) {v : Value}
    (hturn : s.turn? h = some (id, .done v)) : (s.move h .step).entriesOf id = effects ∧
      ∃ answers : List Value, answers.length = effects.length ∧
        inputsOf id (log ++ [(s, .step)]) = (.unit :: answers).map .value ∧
        (Value.unit :: answers).getLast? = some v := by
  obtain ⟨values, answers, w, hanswers, hlength, hle, hrecorded, hhead, hanswer⟩ :=
    hr.at_turn run hturn (by simp)
  cases hnext : effects[values.length]? with
  | some effect => simp [hnext] at hanswer
  | none =>
    obtain rfl : v = w := by simpa [hnext] using hanswer
    have hall : values.length = effects.length :=
      Nat.le_antisymm hle (List.getElem?_eq_none_iff.1 hnext)
    refine ⟨?_, answers, hlength.trans hall, ?_, ?_⟩
    · rw [hrecorded.silent hrec (by simp [hturn]), hall, List.take_length]
    · rw [hrecorded.turned hhead, ← hanswers]
      simp
    · rw [← hanswers]
      simp

/-- After the end of its process a task is given nothing. -/
theorem Over.given_nothing (ho : s.Over id) (run : Run h past s) (ms : List (Move P)) :
    inputsOf id (s.history h ms) = [] := by
  induction ms generalizing past s with
  | nil => rfl
  | cons m ms ih =>
    rw [history, ← List.singleton_append, inputsOf_append,
      inputsOf_other fun _ => run.idle_of_over ho, ih (ho.move h m) (run.move m)]
    rfl

/-- After the end of its process a task dispatches nothing. -/
theorem Over.still (ho : s.Over id) (run : Run h past s) (hrec : h.config.recordDispatches = true)
    (hms : .dropJournal ∉ ms) : (s.moves h ms).entriesOf id = s.entriesOf id := by
  induction ms generalizing past s with
  | nil => rfl
  | cons m ms ih =>
    obtain ⟨hm, hms⟩ := List.ne_and_not_mem_of_not_mem_cons hms
    have hkept : isDrop m = false := isDrop_eq_false.2 (Ne.symm hm)
    exact (ih (ho.move h m) (run.move m) hms).trans
      (entriesOf_idle hrec hkept fun _ => run.idle_of_over ho)

/-- From its beginning on a script is recited. -/
theorem Recites.recital (hr : Recites id effects [] s) (run : Run h past s)
    (hrec : h.config.recordDispatches = true) (hms : .dropJournal ∉ ms) :
    Recited h id effects (s.history h ms) (s.moves h ms) := by
  obtain ⟨count, values, errors, hrecorded⟩ := (hr.moves run hrec hms).recorded
  rw [List.nil_append] at hrecorded
  -- the script stands somewhere at every entry of the log
  have hbefore : ∀ ms₁, .dropJournal ∉ ms₁ →
      Recites id effects (s.history h ms₁) (s.moves h ms₁) := fun ms₁ hms₁ => by
    simpa using hr.moves run hrec hms₁
  constructor
  · rw [hrecorded.entries]
    exact List.take_prefix _ _
  · rintro ⟨q, m⟩ he v (rfl : m = .step) hturn
    obtain ⟨ms₁, ms₂, rfl, hq⟩ := mem_history he
    obtain rfl : q = s.moves h ms₁ := hq
    simp only [List.mem_append, List.mem_cons, not_or] at hms
    have hrun := run.moves (h := h) ms₁
    obtain ⟨hentries, answers, hlength, hinputs, hlast⟩ :=
      (hbefore ms₁ hms.1).returned hrun hrec hturn
    have hover := hrun.over_of_ending (ending?_of_done hturn)
    have hkept := hover.still (hrun.move .step) hrec hms.2.2
    have hnone := hover.given_nothing (hrun.move .step) ms₂
    refine ⟨by rw [moves_append, moves_cons, hkept, hentries], answers, hlength, ?_, hlast⟩
    rw [history_append, history, ← List.singleton_append, ← List.append_assoc, inputsOf_append,
      hinputs, hnone, List.append_nil]
  · rintro before ⟨q, m⟩ after effect hlog hd
    obtain ⟨ms₁, ms₂, rfl, rfl, hq, -⟩ := history_cut hlog
    obtain rfl : q = s.moves h ms₁ := hq
    simp only [List.mem_append, not_or] at hms
    exact (hbefore ms₁ hms.1).dispatched (run.moves ms₁) hd
  · exact fun k effect hk hbad => hrecorded.malformed hk hbad
  · exact fun k e hk => hrecorded.failed hk

/-- A root that runs a script dispatches its effects in their order, and nothing else. Until the
script has returned, has failed or has been given an error, each of them is dispatched as soon as
the task goes on with the answer to the one before; a script that has returned has dispatched all,
and has returned the answer to the last. -/
theorem Run.recited (run : Run h past s) (hrec : h.config.recordDispatches = true) {p : P}
    (hscript : h.program.define p = .script effects) (args : List Value)
    (hms : .dropJournal ∉ ms) :
    Recited h ⟨s.nextTask⟩ effects ((s.move h (.enroll p args)).history h ms)
      ((s.move h (.enroll p args)).moves h ms) :=
  (run.recites_enrolled hrec hscript args).recital (run.move (.enroll p args)) hrec hms

/-- A relay is stepped, is told of a notification, publishes another and returns. -/
def relayed : List (Move Party) := [.step, .announce ⟨"signal", .bool false⟩, .step, .step]

/-- Along the way the relay takes and puts, as its script says, and it returns what it is given for
the last of the two. -/
theorem recited_relay :
    let h := wire.recording true
    let s := ({ world := () } : Scheduler Party Unit Unit).move h (.enroll .relay [])
    (s.moves h relayed).entriesOf ⟨1⟩ =
        [.take (.tag "signal"), .put ⟨"signal", .bool true⟩] ∧
      ∃ answers : List Value, answers.length = 2 ∧
        inputsOf ⟨1⟩ (s.history h relayed) = (.unit :: answers).map .value ∧
        (Value.unit :: answers).getLast? = some .unit := by
  intro h s
  have hnew : Run h [] ({ world := () } : Scheduler Party Unit Unit) := .new rfl
  have hms : .dropJournal ∉ relayed := by simp [relayed]
  have hrecited := hnew.recited rfl (show h.program.define .relay = .script _ from rfl) [] hms
  have hlast : (s.moves h (relayed.take 3), .step) ∈ s.history h relayed := by
    simp [history, relayed]
  exact hrecited.done _ hlast .unit rfl rfl

end CoopTasks.Scheduler
