import CoopTasks.Proofs.Joining
import CoopTasks.Proofs.Lockstep

/-!
# Eviction

Only so many records are kept of the tasks that have settled. How many makes no difference to what
is done, unless a task joins one whose record has been dropped: what depends on a task that is gone
otherwise asks whether its number was ever handed out. A scheduler that keeps fewer records keeps
the latest of those that one with more room keeps.
-/

namespace CoopTasks

variable {P R W : Type}

/-- The host with room for so many records. -/
def Host.keeping (h : Host P R W) (room : Nat) : Host P R W :=
  h.withConfig { h.config with maxSettled := room }

namespace Scheduler

variable {s s' : Scheduler P R W} {h : Host P R W} {m : Move P} {world : W} {target : TaskId}
variable {log log' : List (Scheduler P R W × Move P)} {few many : Nat}

/-- Whether in this entry of a log a task joins one that was spawned and is gone, and whose record is
not kept any more. -/
def evicts (h : Host P R W) (e : Scheduler P R W × Move P) : Bool :=
  match e.2, e.1.turn? h with
  | .step, some (_, .yield (.join target)) =>
    !e.1.isLive target && (e.1.settled? target).isNone && e.1.issued target
  | _, _ => false

theorem evicts_iff {e : Scheduler P R W × Move P} : evicts h e ↔
    e.2 = .step ∧ ∃ id target, e.1.turn? h = some (id, .yield (.join target)) ∧
      e.1.isLive target = false ∧ e.1.settled? target = none ∧ e.1.issued target := by
  unfold evicts
  split
  · rename_i id target hstep hturn
    simp only [Bool.and_eq_true, Bool.not_eq_true', Option.isNone_iff_eq_none, and_assoc]
    constructor
    · exact fun hgone => ⟨hstep, id, target, hturn, hgone⟩
    · rintro ⟨-, id', target', hturn', hgone⟩
      rw [hturn] at hturn'
      cases hturn'
      exact hgone
  · rename_i hother
    simp only [Bool.false_eq_true, false_iff, not_and, not_exists]
    exact fun hstep id target hturn => absurd hturn (hother id target hstep)

/-- A task that joins such a one is told at once that the result has been dropped. -/
theorem answer_of_evicts (he : evicts h (s, m)) :
    ∃ id target, s.turn? h = some (id, .yield (.join target)) ∧
      (s.move h m).queue.head? = some (id, .error (.resultEvicted target)) := by
  obtain ⟨hm, id, target, hturn, hgone, hnone, hissued⟩ := evicts_iff.1 he
  obtain rfl : m = .step := hm
  refine ⟨id, target, hturn, ?_⟩
  obtain ⟨t, process, input, rest, hq, -, -, -, hmove⟩ := turn_yield hturn
  rw [hmove, queue_takeFault, queue_dispatch_join]
  · have hlate : s.lateAnswer target = .error (.resultEvicted target) := by
      simp only [lateAnswer, show s.settled? target = none from hnone, Option.elim_none]
    exact congrArg (fun input => some (id, input)) hlate
  · have hnotask : s.task? target = none := by simpa [isLive_eq] using hgone
    have hgone' : ∀ world, task? { s with queue := rest, world } target = none := fun _ => hnotask
    simp [isLive_eq, storeProcess, hgone']
  · exact hissued

/-- A record that is kept belongs to a task that was spawned. -/
theorem Run.issued_of_record {record : Settlement} (run : Run h log s)
    (hr : s.settled? target = some record) : s.issued target := by
  obtain ⟨d, hd, rfl⟩ := run.roster.filed record (List.mem_of_find?_eq_some hr)
  obtain rfl : d.record.task = target := by simpa using List.find?_some hr
  obtain ⟨D, D', hD⟩ := List.append_of_mem hd
  obtain ⟨hroster, hleaving⟩ := run.roster_along.2 D d D' hD
  have hpositive := hroster.positive.2 d.id (by simp [isLive_eq, hleaving.found])
  have hlt := (run.roster.gone d hd).1
  simp [Scheduler.issued, Departure.record, hpositive, hlt]

/-- A record that is found among the latest is found among more. -/
theorem settled?_of_latest {few many : List Settlement} (hlatest : few <+: many)
    {record : Settlement} (hr : few.find? (fun record => record.task = target) = some record) :
    many.find? (fun record => record.task = target) = some record := by
  obtain ⟨older, rfl⟩ := hlatest
  rw [List.find?_append, hr, Option.some_or]

/-- The records on the one side are the latest of those on the other. -/
def Outlasts (a a' : Annals P W) : Prop :=
  a'.journal = a.journal ∧ a'.nextSeq = a.nextSeq ∧ a.settled <+: a'.settled

theorem Outlasts.file {a a' : Annals P W} (hs : Outlasts a a') (hroom : few ≤ many)
    (record : Settlement) : Outlasts (a.file few record) (a'.file many record) := by
  refine ⟨hs.1, hs.2.1, ?_⟩
  have hcons : record :: a.settled <+: record :: a'.settled :=
    (List.prefix_cons_inj record).2 hs.2.2
  exact (hcons.take few).trans (List.take_isPrefix_take.2 (Or.inl hroom))

theorem Outlasts.note {a a' : Annals P W} (hs : Outlasts a a') (recording : Bool) (id : TaskId)
    (effect : Effect P W) : Outlasts (a.note recording id effect) (a'.note recording id effect) := by
  obtain ⟨hjournal, hseq, hsettled⟩ := hs
  unfold Annals.note
  split
  · exact ⟨by rw [hjournal, hseq], by rw [hseq], hsettled⟩
  · exact ⟨hjournal, hseq, hsettled⟩

/-- Where the records differ, a join is answered that its result has been dropped. -/
theorem mirror_keeping (h : Host P R W) (hroom : few ≤ many) :
    Mirror (h.keeping few) ((h.keeping many).config) Outlasts
      fun e => evicts (h.keeping few) e = false where
  budget := rfl
  upkeep := ⟨fun _ _ record hs => hs.file hroom record, fun id effect hs => hs.note _ id effect,
    fun hs => ⟨rfl, hs.2⟩⟩
  agree := by
    rintro log' s s' run ⟨a, rfl, hQ⟩ hkept id target hturn hgone
    cases hr : s.settled? target with
    | some record => exact settled?_of_latest hQ.2.2 hr
    | none =>
      by_contra hfound
      obtain ⟨record, hr'⟩ := Option.ne_none_iff_exists'.1 hfound
      have hissued : s.issued target := run.issued_of_record hr'
      have hevicts : evicts (h.keeping few) (s, .step) :=
        evicts_iff.2 ⟨rfl, id, target, hturn, hgone, hr, hissued⟩
      exact absurd hevicts (by simp [hkept])

/-- The schedulers are the same, but the second keeps more records: those of the first and older
ones. -/
structure FewerRecords (s s' : Scheduler P R W) : Prop where
  same : s' = { s with settled := s'.settled }
  latest : s.settled <+: s'.settled
  found : ∀ id record, s.settled? id = some record → s'.settled? id = some record

theorem FewerRecords.of_twins (hs : Twins Outlasts s s') : FewerRecords s s' := by
  obtain ⟨a, rfl, hjournal, hseq, hsettled⟩ := hs
  refine ⟨?_, hsettled, fun id record hr => settled?_of_latest hsettled hr⟩
  obtain ⟨journal, nextSeq, settled⟩ := a
  obtain rfl : journal = s.journal := hjournal
  obtain rfl : nextSeq = s.nextSeq := hseq
  rfl

/-- How many records are kept makes no difference, unless a task joins one whose record has been
dropped: schedulers with room for fewer and for more answer every host alike, make the same moves,
step the same tasks, dispatch the same effects and publish the same notifications, and are in the
same states but for the records. At every moment the records of the one with less room are the
latest of those of the other. -/
theorem eviction_unseen {requests : List (Request P)} (hroom : few ≤ many)
    (hs : Scheduler.new (h.keeping few) world = .ok s)
    (hs' : Scheduler.new (h.keeping many) world = .ok s')
    (hkept : ∀ e ∈ s.history (h.keeping few) (s.serveTrail (h.keeping few) requests),
      evicts (h.keeping few) e = false) :
    Lockstep FewerRecords (h.keeping few) (h.keeping many) s s' requests := by
  have run' : Run (h.keeping many) [] s' := .new hs'
  have hsame : s' = s := by rw [eq_of_new hs, eq_of_new hs']
  have hself : Twins Outlasts s s := .refl ⟨rfl, rfl, List.prefix_refl _⟩
  have hpaired : Paired (h.keeping few) ((h.keeping many).config) Outlasts s s' :=
    ⟨by rwa [hsame], _, run'⟩
  exact (hpaired.lockstep (mirror_keeping h hroom) requests hkept).mono FewerRecords.of_twins

/-- Two joiners are started, and run until nothing is left to do. The second joins a task that has
settled before. -/
def encores : List (Request Play) :=
  [.call (.start .joiner []), .call (.start .joiner []), .call .run, .call .run]

/-- With room for two records the second joiner finds the one it asks for, so with room for three
all goes the same way. In the end the one scheduler keeps two records, and the other three. -/
theorem eviction_unseen_joiners :
    let s : Scheduler Play Unit Unit := { world := () }
    Lockstep FewerRecords (stage.keeping 2) (stage.keeping 3) s s encores ∧
      ((s.moves (stage.keeping 2) (s.serveTrail (stage.keeping 2) encores)).settled.map
        Settlement.task = [⟨3⟩, ⟨4⟩]) ∧
      ((s.moves (stage.keeping 3) (s.serveTrail (stage.keeping 3) encores)).settled.map
        Settlement.task = [⟨3⟩, ⟨4⟩, ⟨1⟩]) := by
  have hnew : ∀ room, 0 < room → Scheduler.new (stage.keeping room) () =
      .ok ({ world := () } : Scheduler Play Unit Unit) := by
    intro room hroom
    simp [Scheduler.new, Config.error?, Host.keeping, Host.withConfig, stage, Nat.ne_of_gt hroom]
  refine ⟨eviction_unseen (by decide) (hnew 2 (by decide)) (hnew 3 (by decide)) ?_, rfl, rfl⟩
  simpa using List.all_eq_true.1 (show ((history { world := () } (stage.keeping 2)
    (serveTrail { world := () } (stage.keeping 2) encores)).all
      fun e => !evicts (stage.keeping 2) e) = true from rfl)

end Scheduler

end CoopTasks
