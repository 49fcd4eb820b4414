import CoopTasks.Proofs.Delivery
import CoopTasks.Proofs.Registration
import Mathlib.Data.List.Induction

/-!
# Verdicts stand

A task that is being cancelled, and was not torn down for the failure of a child, settles cancelled.
What its cleanup does, what fails below it and how often it is cancelled again makes no difference:
it gets one signal, nobody is blamed for its end and no group hears of it. Another task may fail
with an error that looks like the signal. Whoever asked for its result is told so, and that is an
answer, not a signal.
-/

namespace CoopTasks.Scheduler

variable {P R W : Type} {s s' : Scheduler P R W} {h : Host P R W} {A : Set TaskId}
variable {Q : Input → Prop} {D : List (Departure P R W)} {d : Departure P R W} {id : TaskId}
variable {log log' : List (Scheduler P R W × Move P)} {entry : Scheduler P R W × Move P}
variable {E : Scheduler P R W × Move P → Prop} {input : Input}

/-- In this entry of a log the task is stepped with the input. -/
def Receives (entry : Scheduler P R W × Move P) (id : TaskId) (input : Input) : Prop :=
  entry.2 = .step ∧ entry.1.queue.head? = some (id, input)

/-- In this entry a task is signalled. -/
def Cancels (h : Host P R W) (entry : Scheduler P R W × Move P) (id : TaskId) : Prop :=
  entry.1.beingCancelled id = false ∧ (entry.1.move h entry.2).beingCancelled id = true

/-- Such an entry is found in the log, and the task has not been stepped since. -/
def Since (E : Scheduler P R W × Move P → Prop) (log : List (Scheduler P R W × Move P))
    (id : TaskId) : Prop :=
  ∃ before entry after, log = before ++ entry :: after ∧ E entry ∧
    ∀ e ∈ after, ∀ input, ¬Receives e id input

theorem since_append : Since E (log ++ [entry]) id ↔
    E entry ∨ Since E log id ∧ ∀ input, ¬Receives entry id input := by
  constructor
  · rintro ⟨before, first, after, hlog, hfirst, hafter⟩
    rcases List.eq_nil_or_concat after with rfl | ⟨middle, last, rfl⟩
    · obtain ⟨-, hlast⟩ := List.append_inj' hlog rfl
      cases hlast
      exact .inl hfirst
    · have hsplit : log ++ [entry] = (before ++ first :: middle) ++ [last] := by simpa using hlog
      obtain ⟨rfl, hlast⟩ := List.append_inj' hsplit rfl
      cases hlast
      exact .inr ⟨⟨before, first, middle, rfl, hfirst, fun e he => hafter e (by simp [he])⟩,
        hafter entry (by simp)⟩
  · rintro (hentry | ⟨⟨before, first, after, rfl, hfirst, hafter⟩, hturn⟩)
    · exact ⟨log, entry, [], rfl, hentry, by simp⟩
    · refine ⟨before, first, after ++ [entry], by simp, hfirst, fun e he => ?_⟩
      rcases List.mem_append.1 he with he | he
      · exact hafter e he
      · exact List.mem_singleton.1 he ▸ hturn

/-- The task is being cancelled, or it is gone. -/
structure Condemned (s : Scheduler P R W) (id : TaskId) : Prop where
  old : id.val < s.nextTask
  cancelled : ∀ t, s.task? id = some t → t.cancelling = true

theorem condemned_of_beingCancelled (hid : id.val < s.nextTask) (hc : s.beingCancelled id) :
    Condemned s id := by
  refine ⟨hid, fun t ht => ?_⟩
  rwa [beingCancelled_eq ht] at hc

theorem isLive_of_beingCancelled (hc : s.beingCancelled id = true) : s.isLive id := by
  obtain ⟨t, ht, -⟩ := (Option.any_eq_true _ _).1 hc
  simp [isLive_eq, ht]

theorem beingCancelled_of_verdict (hs : s'.verdict? id = s.verdict? id) :
    s'.beingCancelled id = s.beingCancelled id := by
  have hflag := congrArg (Option.any Prod.fst) hs
  simpa [beingCancelled, verdict?, Option.any_map] using hflag

theorem beingCancelled_popped (s : Scheduler P R W) (m : Move P) (id : TaskId) :
    (s.popped m).beingCancelled id = s.beingCancelled id := by
  cases m <;> rfl

theorem Firm.condemned (hs : Firm s s') (hc : Condemned s id) : Condemned s' id := by
  refine ⟨Nat.lt_of_lt_of_le hc.old hs.next, fun t' ht' => ?_⟩
  obtain ⟨t, ht, -, hstands⟩ := hs.stands id t' ht' hc.old
  exact (hstands (hc.cancelled t ht)).1

/-- No signal reaches a condemned task. -/
theorem Condemned.not_signalled (hc : Condemned s id) (hs : Firm s s')
    (hcalm : s.beingCancelled id = false) : s'.beingCancelled id = false := by
  cases ht' : s'.task? id with
  | none => simp [beingCancelled, ht']
  | some t' =>
    obtain ⟨t, ht, -, -⟩ := hs.stands id t' ht' hc.old
    rw [beingCancelled_eq ht, hc.cancelled t ht] at hcalm
    cases hcalm

/-- A task that is signalled later was not being cancelled before. -/
theorem Firm.calm_before {r : Scheduler P R W} (hs : Firm s r) (hs' : Firm r s')
    (hold : s.beingCancelled id → id.val < s.nextTask) (hcalm : r.beingCancelled id = false)
    (hcancel : s'.beingCancelled id = true) : s.beingCancelled id = false := by
  by_contra hc
  rw [Bool.not_eq_false] at hc
  have hcondemned := hs.condemned (condemned_of_beingCancelled (hold hc) hc)
  rw [hcondemned.not_signalled hs' hcalm] at hcancel
  cases hcancel

/-! ## What looks like a signal -/

theorem queue_addBranches (owner : TaskId) (group : GroupId) (mode : GroupMode) (slot : Nat)
    (effects : List (Effect P W)) (s : Scheduler P R W) :
    (s.addBranches owner group mode slot effects).2.queue = s.queue := by
  induction effects generalizing slot s with
  | nil => rfl
  | cons effect rest ih => exact ih (slot + 1) _

/-- Only values are queued when a group starts. -/
theorem mem_queue_startGroup {owner : TaskId} {mode : GroupMode} {effects : List (Effect P W)}
    {input : Input} (hm : (id, input) ∈ (s.startGroup owner mode effects).queue) :
    (id, input) ∈ s.queue ∨ ∃ v, input = .value v := by
  unfold startGroup at hm
  split at hm
  · rcases List.mem_cons.1 hm with he | hm
    · cases he
      exact Or.inr ⟨_, rfl⟩
    · exact Or.inl hm
  · rcases List.mem_append.1 hm with hm | hm
    · obtain ⟨branch, -, he⟩ := List.mem_map.1 hm
      cases he
      exact Or.inr ⟨_, rfl⟩
    · left
      rwa [suspend, updateTask, queue_addBranches] at hm

/-- What a failed task is told to others is the error that it failed with. -/
theorem failure?_of_answer (hanswer : d.record.answer = .error (.cancelled id)) :
    d.record.failure? = some (.cancelled id) := by
  simp only [Settlement.answer, Departure.record, Task.endStatus, Task.endResult] at hanswer
  simp only [Settlement.failure?, Departure.record, Task.endStatus, Task.endResult]
  cases ha : d.task.abort with
  | some e => simpa [ha, Input.ofOutcome] using hanswer
  | none =>
    cases hc : d.task.cancelling with
    | true => simp [ha, hc] at hanswer
    | false =>
      cases ho : d.task.outcome with
      | none => simp [ha, hc, ho, Input.ofOutcome] at hanswer
      | some outcome =>
        cases outcome with
        | ok v => simp [ha, hc, ho, Input.ofOutcome] at hanswer
        | error e => simpa [ha, hc, ho, Input.ofOutcome] using hanswer

/-- What looks like the signal of a task after a departure is its signal, unless the task that left
passes on an error that looks the same. -/
theorem Leaving.signalled (hleaving : Leaving d) (hanswer : d.record.answer ≠ .error (.cancelled id))
    (hm : (id, .error (.cancelled id)) ∈ (d.after h).queue) :
    (id, .error (.cancelled id)) ∈ d.before.queue ∨
      d.before.beingCancelled id = false ∧ (d.after h).beingCancelled id = true := by
  obtain ⟨r, hready, -, hchanges⟩ := after_stages d h ∅
  rcases hchanges.mem_queue hm with hm | htells | ⟨-, hcalm, hcancel⟩
  · rw [hready.queue] at hm
    rcases (changes_filed d h ∅).mem_queue hm with hm | he | ⟨-, hcalm, hcancel⟩
    · exact .inl (by rwa [queue_cleared] at hm)
    · exact absurd he.symm hanswer
    · rw [beingCancelled_of_verdict ((woken_filed d h).verdict id), hcalm] at hcancel
      cases hcancel
  · exact absurd (answer_of_tells htells) hanswer
  · refine .inr ⟨?_, hcancel⟩
    exact ((firm_filed d h).trans hready.firm).calm_before hchanges.changed.firm
      (fun hc => hleaving.forest.fresh id (isLive_of_beingCancelled hc)) hcalm hcancel

/-- What looks like the signal of a task is its signal, unless another task failed with an error
that looks the same. -/
theorem Course.signalled (hcourse : Course h A s D s')
    (hold : s.beingCancelled id → id.val < s.nextTask)
    (hsettled : ∀ record ∈ s.settled, record.answer ≠ .error (.cancelled id))
    (hD : ∀ d ∈ D, d.record.answer ≠ .error (.cancelled id)) :
    ((id, .error (.cancelled id)) ∈ s'.queue → (id, .error (.cancelled id)) ∈ s.queue ∨
      s.beingCancelled id = false ∧ (s'.beingCancelled id = true ∨ ∃ d ∈ D, d.id = id)) ∧
    ∀ record ∈ s'.settled, record.answer ≠ .error (.cancelled id) := by
  induction hcourse with
  | refl => exact ⟨.inl, hsettled⟩
  | @change r r' D hfirst hchange ih =>
    obtain ⟨hqueue, hkept⟩ := ih hD
    have hplain : ¬r.plain (.error (.cancelled id)) := by
      rintro (hcancel | ⟨record, hr, he⟩)
      · cases hcancel
      · exact hkept record hr he.symm
    refine ⟨fun hm => ?_, by rwa [hchange.changed.settled]⟩
    rcases hchange.mem_queue hm with hm | hinput | ⟨-, hcalm, hcancel⟩
    · exact (hqueue hm).imp_right (And.imp_right (Or.imp_left hchange.changed.beingCancelled))
    · exact absurd hinput hplain
    · exact .inr ⟨hfirst.firm.calm_before hchange.changed.firm hold hcalm hcancel, .inl hcancel⟩
  | group owner mode _ htidy hl _ ih =>
    obtain ⟨hqueue, hkept⟩ := ih hD
    refine ⟨fun hm => ?_, by rwa [settled_startGroup]⟩
    rcases mem_queue_startGroup hm with hm | ⟨v, he⟩
    · exact (hqueue hm).imp_right (And.imp_right (Or.imp_left
        (steady_startGroup (A := A) htidy hl mode _).beingCancelled))
    · cases he
  | @leave d D hfirst hleaving ih =>
    obtain ⟨hqueue, hkept⟩ := ih fun e he => hD e (List.mem_append_left _ he)
    have hanswer := hD d (by simp)
    refine ⟨fun hm => ?_, fun record hr => ?_⟩
    · rcases hleaving.signalled hanswer hm with hm | ⟨hcalm, hcancel⟩
      · refine (hqueue hm).imp_right (And.imp_right fun hlater => ?_)
        by_cases hid : d.id = id
        · exact .inr ⟨d, by simp, hid⟩
        rcases hlater with hcancel | ⟨e, he, heid⟩
        · have hl := isLive_of_beingCancelled hcancel
          refine .inl ((firm_after d h).beingCancelled ?_ (hleaving.forest.fresh id hl) hcancel)
          simp [isLive_after, hl, Ne.symm hid]
        · exact .inr ⟨e, List.mem_append_left _ he, heid⟩
      · exact .inr ⟨hfirst.firm.calm_before (firm_after d h) hold hcalm hcancel, .inl hcancel⟩
    · rw [settled_after] at hr
      rcases List.mem_cons.1 (List.mem_of_mem_take hr) with rfl | hr
      · exact hanswer
      · exact hkept record hr

theorem queue_popped_subset (s : Scheduler P R W) (m : Move P) : (s.popped m).queue ⊆ s.queue := by
  cases m with
  | step => exact fun _ => List.mem_of_mem_tail
  | _ => exact List.Subset.refl _

/-- In this entry a task is told of a failure that looks like its own signal. -/
structure Echoes (h : Host P R W) (entry : Scheduler P R W × Move P) (id : TaskId) : Prop where
  calm : ¬Cancels h entry id
  queued : (id, .error (.cancelled id)) ∉ (entry.1.popped entry.2).queue ∧
    (id, .error (.cancelled id)) ∈ (entry.1.move h entry.2).queue
  /-- Another task fails with this error, or it did before. -/
  failed : (∃ d ∈ entry.1.departures h entry.2, d.record.failure? = some (.cancelled id)) ∨
    ∃ record ∈ entry.1.settled, record.failure? = some (.cancelled id)

/-- What comes into the queue and looks like the signal of a task is its signal or an echo. -/
theorem Run.cancels_or_echoes (run : Run h log s) (m : Move P)
    (hnew : (id, .error (.cancelled id)) ∉ (s.popped m).queue)
    (hm : (id, .error (.cancelled id)) ∈ (s.move h m).queue) :
    Cancels h (s, m) id ∨ Echoes h (s, m) id := by
  refine or_iff_not_imp_left.2 fun hcalm => ⟨hcalm, ⟨hnew, hm⟩, ?_⟩
  by_contra hnone
  rw [not_or] at hnone
  have hD : ∀ d ∈ s.departures h m, d.record.answer ≠ .error (.cancelled id) :=
    fun d hd hanswer => hnone.1 ⟨d, hd, failure?_of_answer hanswer⟩
  have hsettled : ∀ record ∈ (s.popped m).settled, record.answer ≠ .error (.cancelled id) := by
    intro record hr hanswer
    have hr' : record ∈ s.settled := by cases m <;> exact hr
    obtain ⟨d, -, rfl⟩ := run.roster.filed record hr'
    exact hnone.2 ⟨d.record, hr', failure?_of_answer hanswer⟩
  have hold : (s.popped m).beingCancelled id → id.val < (s.popped m).nextTask := by
    rw [beingCancelled_popped]
    intro hc
    have hfresh := run.tidy.forest.fresh id (isLive_of_beingCancelled hc)
    cases m <;> exact hfresh
  rcases ((run.course m).signalled hold hsettled hD).1 hm with
    hold | ⟨hbefore, hcancel | ⟨d, hd, rfl⟩⟩
  · exact hnew hold
  · rw [beingCancelled_popped] at hbefore
    exact hcalm ⟨hbefore, hcancel⟩
  · -- a task that has left is not queued
    obtain ⟨t, -, ht, -⟩ := ((run.move m).coherent.registered d.id).queued
      (List.mem_map_of_mem (f := Prod.fst) hm)
    have hgone := ((run.move m).roster.gone d (by simp [hd])).2
    cases hgone.symm.trans ht

/-- After its turn nothing is left in the queue for a task. -/
theorem Run.not_mem_popped (run : Run h log s) (hhead : s.queue.head? = some (id, input))
    (input' : Input) : (id, input') ∉ (s.popped .step).queue := by
  intro hm
  obtain ⟨rest, hq⟩ := List.head?_eq_some_iff.1 hhead
  have honce := (run.coherent.registered id).once
  rw [hq, List.map_cons, List.count_cons_self] at honce
  simp only [popped, hq, List.tail_cons] at hm
  have hpos : 0 < (rest.map Prod.fst).count id :=
    List.count_pos_iff.2 (List.mem_map_of_mem (f := Prod.fst) hm)
  omega

/-- Whatever in the queue looks like the signal of a task came there as its signal or as an echo. -/
theorem Run.source (run : Run h log s) (hm : (id, .error (.cancelled id)) ∈ s.queue) :
    Since (fun e => Cancels h e id ∨ Echoes h e id) log id := by
  induction run with
  | new hs =>
    obtain rfl := eq_of_new hs
    cases hm
  | @move log s run m ih =>
    rw [since_append]
    by_cases hbefore : (id, .error (.cancelled id)) ∈ (s.popped m).queue
    · refine .inr ⟨ih (queue_popped_subset s m hbefore), ?_⟩
      rintro input ⟨rfl, hhead⟩
      exact run.not_mem_popped hhead _ hbefore
    · exact .inl (run.cancels_or_echoes m hbefore hm)

/-! ## The signal -/

/-- In this entry, which follows the log, a task takes its signal: it is stepped with it for the
first time since it was signalled. -/
def TakesSignal (h : Host P R W) (log : List (Scheduler P R W × Move P))
    (entry : Scheduler P R W × Move P) (id : TaskId) : Prop :=
  Receives entry id (.error (.cancelled id)) ∧ Since (Cancels h · id) log id

/-- A task takes its signal once at most. In any other turn in which it receives what looks like the
signal it is told of the failure of another. -/
structure SignalledOnce (h : Host P R W) (log : List (Scheduler P R W × Move P))
    (id : TaskId) : Prop where
  once : ∀ before entry between entry' after,
    log = before ++ entry :: between ++ entry' :: after →
      TakesSignal h before entry id → ¬TakesSignal h (before ++ entry :: between) entry' id
  others : ∀ before entry after, log = before ++ entry :: after →
    Receives entry id (.error (.cancelled id)) →
      TakesSignal h before entry id ∨ Since (Echoes h · id) before id

/-- Where nobody fails with an error that looks like the signal, it is received once at most. -/
theorem SignalledOnce.receives_once (hs : SignalledOnce h log id)
    (hnone : ∀ e ∈ log, ¬Echoes h e id) {before between after : List (Scheduler P R W × Move P)}
    {e e' : Scheduler P R W × Move P} (hlog : log = before ++ e :: between ++ e' :: after)
    (hturn : Receives e id (.error (.cancelled id))) :
    ¬Receives e' id (.error (.cancelled id)) := by
  have htakes : ∀ past e rest, log = past ++ e :: rest →
      Receives e id (.error (.cancelled id)) → TakesSignal h past e id := by
    intro past e rest hsplit hturn
    refine (hs.others past e rest hsplit hturn).resolve_right ?_
    rintro ⟨first, echo, last, rfl, hecho, -⟩
    exact hnone echo (by simp [hsplit]) hecho
  intro hturn'
  have hfirst := htakes before e (between ++ e' :: after) (by simpa using hlog) hturn
  exact hs.once _ _ _ _ _ hlog hfirst (htakes _ _ _ hlog hturn')

theorem record_of_cancelled (hc : d.task.cancelling = true) (ha : d.task.abort = none) :
    d.record = ⟨d.id, .cancelled, .error (.cancelled d.id)⟩ := by
  simp [Departure.record, Task.endStatus, Task.endResult, hc, ha]

theorem record_of_abort {e : TaskError} (ha : d.task.abort = some e) :
    d.record = ⟨d.id, .failed, .error e⟩ := by
  simp [Departure.record, Task.endStatus, Task.endResult, ha]

/-- A task leaves with the verdict that it was cancelled with. -/
theorem Firm.verdict (hs : Firm s d.before) (hleaving : Leaving d) {t : Task P R W}
    (ht : s.task? d.id = some t) (hfresh : d.id.val < s.nextTask) (hc : t.cancelling = true) :
    d.task.cancelling = true ∧ d.task.abort = t.abort := by
  obtain ⟨u, hu, -, hstands⟩ := hs.stands d.id d.task hleaving.found hfresh
  obtain rfl := Option.some.inj (ht.symm.trans hu)
  exact hstands hc

theorem Run.leaving_history (run : Run h log s) {ms : List (Move P)}
    (hd : d ∈ settlements h (s.history h ms)) : Leaving d :=
  (run.moves ms).leaving (by simp [hd])

/-- A record of a task that is live now is filed by a departure to come. -/
theorem Run.filed_later (run : Run h log s) (hl : s.isLive id) (ms : List (Move P))
    {record : Settlement} (hr : record ∈ (s.moves h ms).settled) (hid : record.task = id) :
    ∃ d ∈ settlements h (s.history h ms), d.id = id ∧ d.record = record := by
  obtain ⟨d, hd, rfl⟩ := (run.moves ms).roster.filed record hr
  rw [settlements_append] at hd
  rcases List.mem_append.1 hd with hd | hd
  · have hnone := (run.roster.gone d hd).2
    rw [isLive_eq, ← hid] at hl
    simp [show s.task? d.record.task = none from hnone] at hl
  · exact ⟨d, hd, hid, rfl⟩

/-- A task that is live now is live later, or it has left in between. -/
theorem Run.live_or_left (run : Run h log s) (hl : s.isLive id) (ms : List (Move P)) :
    (s.moves h ms).isLive id ∨ ∃ d ∈ settlements h (s.history h ms), d.id = id := by
  have hissued := (later_moves s h ms).issued (run.issued hl)
  rcases (run.moves ms).roster.known id hissued with hl' | ⟨d, hd, hid⟩
  · exact Or.inl hl'
  · rw [settlements_append] at hd
    rcases List.mem_append.1 hd with hd | hd
    · have hnone := (run.roster.gone d hd).2
      rw [isLive_eq, ← hid, hnone] at hl
      cases hl
    · exact Or.inr ⟨d, hd, hid⟩

/-- Processes that are told of errors which look like a signal. -/
inductive Cast where
  /-- Waits for a notification. Its cleanup calls a mimic, and then it fails. -/
  | victim
  /-- Fails with what looks like the signal of the first task. -/
  | mimic

def Cast.resume : Cast × Nat → Input → Unit → Step Cast Unit × (Cast × Nat) × Unit
  | (.victim, 0), _, w => (.yield (.take .wildcard), (.victim, 1), w)
  | (.victim, 1), _, w => (.yield (.callProcess .mimic []), (.victim, 2), w)
  | (.victim, _), _, w => (.failed (.operation ⟨"lost", .null⟩), (.victim, 3), w)
  | (.mimic, _), _, w => (.failed (.cancelled ⟨1⟩), (.mimic, 1), w)

end CoopTasks.Scheduler
