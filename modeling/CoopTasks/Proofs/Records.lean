import CoopTasks.Proofs.Delivery
import Mathlib.Data.List.Sort

/-!
# Numbers and records

Tasks are numbered in the order in which they are spawned, and no number is used twice. A task
settles once. Its record says how it ended, and is kept until too many other tasks have settled
since; then the task is unknown for good.
-/

namespace CoopTasks

/-- The status and the result of a record agree. -/
structure Settlement.Consistent (record : Settlement) : Prop where
  terminal : record.status.isTerminal
  completed : record.status = .completed → ∃ v, record.result = .ok v
  failed : record.status = .failed → ∃ e, record.result = .error e
  cancelled : record.status = .cancelled → record.result = .error (.cancelled record.task)

theorem Departure.consistent {P R W : Type} (d : Departure P R W) : d.record.Consistent := by
  cases ha : d.task.abort with
  | some e => constructor <;> simp [record, Task.endStatus, Task.endResult, ha, Status.isTerminal]
  | none =>
    cases hc : d.task.cancelling with
    | true =>
      constructor <;> simp [record, Task.endStatus, Task.endResult, ha, hc, Status.isTerminal]
    | false =>
      rcases ho : d.task.outcome with - | (e | v) <;> constructor <;>
        simp [record, Task.endStatus, Task.endResult, ha, hc, ho, Status.isTerminal]

namespace Scheduler

variable {P R W : Type} {s s' : Scheduler P R W} {h : Host P R W}
variable {A : Set TaskId} {Q : Input → Prop} {D D' : List (Departure P R W)}
variable {d : Departure P R W} {log : List (Scheduler P R W × Move P)}

/-! ## Numbers -/

/-- The live tasks are listed in the order of their numbers. -/
def Enlisted (s : Scheduler P R W) : Prop := s.tasks.Numbered TaskId.val s.nextTask

theorem mem_keys_iff (s : Scheduler P R W) (id : TaskId) : id ∈ s.tasks.keys ↔ s.isLive id :=
  Table.mem_keys s.tasks id

theorem Enlisted.of_keys (he : Enlisted s) (hkeys : s'.tasks.keys = s.tasks.keys)
    (hnext : s'.nextTask = s.nextTask) : Enlisted s' := by
  have hkept : s'.tasks.Numbered TaskId.val s.nextTask := he.of_sublist (hkeys ▸ .refl _)
  rwa [← hnext] at hkept

theorem Enlisted.addTask (he : Enlisted s) (name : String) (parent : Option TaskId) (role : Role)
    (process : Process P R W) : Enlisted (s.addTask name parent role process).2 := by
  have hkeys : ∀ child, (s.addChild child parent).tasks.keys = s.tasks.keys := by
    intro child
    cases parent with
    | none => rfl
    | some parent => exact keys_updateTask s parent _
  have hparent : (s.addChild ⟨s.nextTask⟩ parent).tasks.Numbered TaskId.val s.nextTask :=
    he.of_sublist (hkeys _ ▸ .refl _)
  have hnext : (s.addTask name parent role process).2.nextTask = s.nextTask + 1 := by
    cases parent <;> rfl
  unfold Enlisted
  rw [hnext]
  exact hparent.insert rfl _

theorem Enlisted.change (he : Enlisted s) (hs : Change A Q s s') : Enlisted s' := by
  cases hs with
  | frame htasks hqueue hgroups hsettled hnext hnextGroup => exact he.of_keys (by rw [htasks]) hnext
  | turn id f hf => exact he.of_keys (keys_updateTask s id f) rfl
  | first id hinput => exact he.of_keys rfl rfl
  | last id hinput => exact he.of_keys rfl rfl
  | signal id => exact he.of_keys (quiet_signal s id).tree.keys (quiet_signal s id).tree.next
  | spawn name parent process hfresh hrole => exact he.addTask name parent _ process

theorem Enlisted.addBranches (owner : TaskId) (group : GroupId) (mode : GroupMode) (slot : Nat)
    (effects : List (Effect P W)) (s : Scheduler P R W) (he : Enlisted s) :
    Enlisted (s.addBranches owner group mode slot effects).2 := by
  induction effects generalizing slot s with
  | nil => exact he
  | cons effect rest ih => exact ih (slot + 1) _ (he.addTask _ _ _ _)

theorem Enlisted.startGroup (he : Enlisted s) (id : TaskId) (mode : GroupMode)
    (effects : List (Effect P W)) : Enlisted (s.startGroup id mode effects) := by
  unfold Scheduler.startGroup
  split
  · exact he.of_keys (keys_updateTask s id _) rfl
  · have hbranches : Enlisted ({ s with nextGroup := s.nextGroup + 1 }.addBranches id
        ⟨s.nextGroup⟩ mode 0 effects).2 := .addBranches _ _ _ _ _ _ (he.of_keys rfl rfl)
    exact hbranches.of_keys (keys_updateTask _ id _) rfl

theorem Enlisted.leave (he : Enlisted d.before) (h : Host P R W) : Enlisted (d.after h) := by
  have hkeys : (d.after h).tasks.keys = d.before.tasks.keys.filter (· ≠ d.id) := by
    rw [(sameTree_after d h).keys, ← Table.keys_erase]
    unfold Departure.cleared
    cases d.task.parent with
    | none => rfl
    | some parent => exact keys_updateTask { d.before with tasks := _ } parent _
  have hleft : (d.after h).tasks.Numbered TaskId.val d.before.nextTask :=
    he.of_sublist (hkeys ▸ List.filter_sublist)
  rwa [← nextTask_after d h] at hleft

theorem Run.enlisted (run : Run h log s) : Enlisted s := by
  refine (run.along (K := fun _ s => Enlisted s) (fun world => ?_) ?_ Enlisted.change
    (fun he _ _ _ => he.startGroup _ _ _) fun he _ => he.leave h).1
  · exact ⟨.nil, by simp [Table.keys, Table.empty]⟩
  · exact fun he => he.of_keys rfl rfl

/-- The tasks that are spawned in a move, in the order of the table. -/
def arrivals (h : Host P R W) (entry : Scheduler P R W × Move P) : List TaskId :=
  (entry.1.move h entry.2).tasks.keys.filter fun id => !entry.1.isLive id

/-- A number that was handed out in a move belongs to a task that is live after it. -/
theorem Run.isLive_arrived (run : Run h log s) (m : Move P) {id : TaskId}
    (hold : s.nextTask ≤ id.val) (hid : id.val < (s.move h m).nextTask) :
    (s.move h m).isLive id := by
  have hroster := (run.move m).roster
  have hissued : (s.move h m).issued id := by
    have hpositive := Nat.le_trans run.roster.positive.1 hold
    simp [Scheduler.issued, hpositive, hid]
  rcases hroster.known id hissued with hl | ⟨d, hd, rfl⟩
  · exact hl
  · rw [settlements_append, List.mem_append] at hd
    rcases hd with hd | hd
    · exact absurd (run.roster.gone d hd).1 (Nat.not_lt.2 hold)
    · have hsame := (nextTask_same (s := s) (h := h) (m := m) (by simpa using hd)).2
      rw [hsame] at hid
      exact absurd hid (Nat.not_lt.2 hold)

/-- The tasks that are spawned in a move get the next numbers, in this order. -/
theorem Run.arrivals (run : Run h log s) (m : Move P) :
    arrivals h (s, m) =
      (List.range' s.nextTask ((s.move h m).nextTask - s.nextTask)).map TaskId.mk := by
  have hlater := later_move s h m
  have hsorted := ((run.move m).enlisted.sorted).filter fun id => !s.isLive id
  have hrange : ((List.range' s.nextTask ((s.move h m).nextTask - s.nextTask)).map
      TaskId.mk).Pairwise fun a b => a.val < b.val :=
    List.pairwise_map.2 List.pairwise_lt_range'
  have : Std.Irrefl fun a b : TaskId => a.val < b.val := ⟨fun a => Nat.lt_irrefl a.val⟩
  have : Std.Antisymm fun a b : TaskId => a.val < b.val :=
    ⟨fun a b hab hba => absurd hab (Nat.lt_asymm hba)⟩
  refine hsorted.eq_of_mem_iff hrange fun id => ?_
  have hrangeMem : id ∈ (List.range' s.nextTask ((s.move h m).nextTask - s.nextTask)).map
      TaskId.mk ↔ s.nextTask ≤ id.val ∧ id.val < (s.move h m).nextTask := by
    have hnext := hlater.next
    simp only [List.mem_map, List.mem_range'_1]
    constructor
    · rintro ⟨n, hn, rfl⟩
      exact ⟨hn.1, by dsimp only; omega⟩
    · exact fun hid => ⟨id.val, ⟨hid.1, by omega⟩, rfl⟩
  rw [hrangeMem, List.mem_filter, mem_keys_iff, Bool.not_eq_true', ← Bool.not_eq_true]
  constructor
  · rintro ⟨hl, hnot⟩
    refine ⟨Nat.not_lt.1 fun hid => hnot (hlater.isLive hid hl), ?_⟩
    exact (run.move m).enlisted.fresh id ((mem_keys_iff _ id).2 hl)
  · rintro ⟨hold, hid⟩
    refine ⟨run.isLive_arrived m hold hid, fun hl => ?_⟩
    exact absurd (run.enlisted.fresh id ((mem_keys_iff s id).2 hl)) (Nat.not_lt.2 hold)

/-- The numbers of all tasks that were ever spawned, in the order of spawning. -/
theorem Run.all_arrivals (run : Run h log s) :
    log.flatMap (Scheduler.arrivals h) = (List.range' 1 (s.nextTask - 1)).map TaskId.mk := by
  induction run with
  | new hs =>
    obtain rfl := eq_of_new hs
    rfl
  | @move log s run m ih =>
    have hpositive := run.roster.positive.1
    have hnext := (later_move s h m).next
    rw [List.flatMap_append, ih, List.flatMap_singleton, run.arrivals m, ← List.map_append]
    congr 1
    have hstart : s.nextTask = 1 + (s.nextTask - 1) := by omega
    have hcount : (s.move h m).nextTask - 1 =
        (s.nextTask - 1) + ((s.move h m).nextTask - s.nextTask) := by omega
    rw [hcount, ← List.range'_append_1, ← hstart]

/-! ## Records -/

/-- The records that are kept are those of the tasks that settled last. -/
theorem Run.retained (run : Run h log s) :
    s.settled = ((settlements h log).reverse.map Departure.record).take h.config.maxSettled := by
  refine (run.along (K := fun D s => s.settled =
    (D.reverse.map Departure.record).take h.config.maxSettled) (fun _ => by simp) id
    (fun hs hchange => hchange.changed.settled.trans hs)
    (fun hs _ _ _ => (settled_startGroup ..).trans hs) fun {D d} hs _ => ?_).1
  rw [settled_after, hs, List.reverse_append, List.reverse_singleton]
  cases h.config.maxSettled with
  | zero => rfl
  | succ n => simp [List.take_take]

/-- The record of a task is kept as long as not too many others have settled since. -/
theorem Run.settled?_of_split (run : Run h log s) (hD : settlements h log = D ++ d :: D') :
    s.settled? d.id = if D'.length < h.config.maxSettled then some d.record else none := by
  have honce := run.roster.once
  have hnot : ∀ record ∈ D'.reverse.map Departure.record, record.task ≠ d.id := by
    rw [hD, List.map_append, List.map_cons, List.nodup_append, List.nodup_cons] at honce
    intro record hm heq
    obtain ⟨e, he, rfl⟩ := List.mem_map.1 hm
    exact honce.2.1.1 (heq ▸ List.mem_map_of_mem (List.mem_reverse.1 he))
  have hlist : (settlements h log).reverse.map Departure.record =
      D'.reverse.map Departure.record ++ d.record :: D.reverse.map Departure.record := by
    simp [hD]
  rw [Scheduler.settled?, run.retained, hlist]
  split
  · rename_i hlt
    obtain ⟨n, hn⟩ : ∃ n, h.config.maxSettled = D'.length + (n + 1) :=
      ⟨h.config.maxSettled - D'.length - 1, by omega⟩
    rw [List.find?_eq_some_iff_append]
    refine ⟨by simp [Departure.record], D'.reverse.map Departure.record,
      (D.reverse.map Departure.record).take n, ?_, by simpa using hnot⟩
    have hlength : (D'.reverse.map Departure.record).length = D'.length := by simp
    rw [hn, ← hlength, List.take_length_add_append, List.take_succ_cons]
  · rename_i hle
    rw [List.take_append_of_le_length (by simpa using hle), List.find?_eq_none]
    exact fun record hm => by simpa using hnot record (List.mem_of_mem_take hm)

theorem status?_of_gone {id : TaskId} (hgone : s.task? id = none) :
    s.status? id = (s.settled? id).map Settlement.status := by
  simp [status?, hgone]

/-- What the host learns about a task that settled, whatever happens to the scheduler; `since` are
the tasks that have settled after it. -/
structure Final (h : Host P R W) (s : Scheduler P R W) (d : Departure P R W)
    (since : List (Departure P R W)) : Prop where
  consistent : d.record.Consistent
  gone : ∀ ms, (s.moves h ms).isLive d.id = false
  known : ∀ ms, since.length + (settlements h (s.history h ms)).length < h.config.maxSettled →
    (s.moves h ms).status? d.id = some d.record.status ∧
      (s.moves h ms).result? d.id = some d.record.result
  forgotten : ∀ ms, h.config.maxSettled ≤ since.length + (settlements h (s.history h ms)).length →
    (s.moves h ms).status? d.id = none ∧ (s.moves h ms).result? d.id = none

theorem Run.final (run : Run h log s) (hD : settlements h log = D ++ d :: D') :
    Final h s d D' := by
  have hgone : ∀ ms, (s.moves h ms).task? d.id = none :=
    fun ms => ((run.moves ms).roster.gone d (by simp [hD])).2
  have hkept : ∀ ms, (s.moves h ms).settled? d.id =
      if D'.length + (settlements h (s.history h ms)).length < h.config.maxSettled
      then some d.record else none := by
    intro ms
    have hsplit : settlements h (log ++ s.history h ms) =
        D ++ d :: (D' ++ settlements h (s.history h ms)) := by simp [hD]
    rw [(run.moves ms).settled?_of_split hsplit, List.length_append]
  refine ⟨d.consistent, fun ms => by rw [isLive_eq, hgone]; rfl, fun ms hlt => ?_, fun ms hle => ?_⟩
  · rw [status?_of_gone (hgone ms), result?, hkept, if_pos hlt]
    exact ⟨rfl, rfl⟩
  · rw [status?_of_gone (hgone ms), result?, hkept, if_neg (Nat.not_lt.2 hle)]
    exact ⟨rfl, rfl⟩

/-- In every run the tasks get the numbers from one on, in the order of spawning and without gaps.
Every task that has a number is live until it settles, and it settles once; its status and its
result stay the same as long as its record is kept, and the records that are kept are those of the
tasks that settled last. -/
theorem Run.settled_for_good (run : Run h log s) :
    log.flatMap (Scheduler.arrivals h) = (List.range' 1 (s.nextTask - 1)).map TaskId.mk ∧
      (∀ id, s.issued id → (s.isLive id ↔ id ∉ (settlements h log).map Departure.id)) ∧
      ((settlements h log).map Departure.id).Nodup ∧
      (∀ D d D', settlements h log = D ++ d :: D' → Final h s d D') ∧
      s.settled = ((settlements h log).reverse.map Departure.record).take h.config.maxSettled := by
  refine ⟨run.all_arrivals, fun id hid => ⟨fun hl hm => ?_, fun hnot => ?_⟩, run.roster.once,
    fun D d D' hD => run.final hD, run.retained⟩
  · obtain ⟨d, hd, rfl⟩ := List.mem_map.1 hm
    rw [isLive_eq, (run.roster.gone d hd).2] at hl
    cases hl
  · rcases run.roster.known id hid with hl | ⟨d, hd, rfl⟩
    · exact hl
    · exact absurd (List.mem_map_of_mem hd) hnot

/-- The small program with room for one record. -/
def frugal : Host Demo (Demo × Nat) Unit :=
  { demo with config := { maxSteps := 8, maxSettled := 1 } }

/-- Two listeners are cancelled, one after the other. -/
def cancellations : List (Move Demo) :=
  [.enroll .listener [], .enroll .listener [], .step, .step, .cancel ⟨1⟩, .step, .cancel ⟨2⟩, .step]

/-- Of the two listeners the host learns how the second ended; the first is forgotten. -/
theorem settled_for_good_listeners :
    let s := moves { world := () } frugal cancellations
    (s.status? ⟨1⟩ = none ∧ s.result? ⟨1⟩ = none) ∧
      s.status? ⟨2⟩ = some .cancelled ∧ s.result? ⟨2⟩ = some (.error (.cancelled ⟨2⟩)) := by
  have hnew : Run frugal [] ({ world := () } : Scheduler Demo (Demo × Nat) Unit) := .new rfl
  have run := hnew.moves cancellations
  obtain ⟨d, e, hd, hid, hid', hstatus⟩ : ∃ d e,
      settlements frugal ([] ++ history { world := () } frugal cancellations) = [d, e] ∧
        d.id = ⟨1⟩ ∧ e.id = ⟨2⟩ ∧ e.record.status = .cancelled :=
    ⟨_, _, rfl, rfl, rfl, rfl⟩
  have hforgotten := (run.settled_for_good.2.2.2.1 [] d [e] hd).forgotten [] (Nat.le_refl 1)
  have hfinal := run.settled_for_good.2.2.2.1 [d] e [] hd
  have hknown := hfinal.known [] (by decide)
  have hresult := hfinal.consistent.cancelled hstatus
  rw [hid', hstatus, hresult, show e.record.task = ⟨2⟩ from hid'] at hknown
  rw [hid] at hforgotten
  exact ⟨hforgotten, hknown⟩

end Scheduler

end CoopTasks
