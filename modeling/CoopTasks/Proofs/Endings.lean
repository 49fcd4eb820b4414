import CoopTasks.Proofs.Delivery

/-!
# Ends of processes

A process ends when it returns or fails, and when it yields an effect that breaks the contract. The
failure of a process takes down all that is below its task: the children are signalled, and nobody
else is. The task leaves at once if it has no children, and else it stays until they are gone.
-/

namespace CoopTasks

/-- The task as the failure of its process leaves it. -/
def Task.fallen {P R W : Type} (t : Task P R W) (e : TaskError) : Task P R W :=
  { t with process := none, wait := .children, status := .waiting, outcome := some (.error e) }

namespace Scheduler

variable {P R W : Type} {s s' : Scheduler P R W} {h : Host P R W} {id : TaskId}
variable {outcome : Outcome} {input : Input} {t : Task P R W} {m : Move P}

/-- What the process of a task ends with if the effect that it yields breaks the contract. -/
def dispatchEnd? (s : Scheduler P R W) (h : Host P R W) (id : TaskId) (effect : Effect P W) :
    Option Outcome :=
  match effect.violation? with
  | some violation => some (.error (.protocol violation))
  | none =>
    match (s.note h id effect).carryOut h id effect with
    | .ok _ => none
    | .error violation => some (.error (.protocol violation))

/-- What the process of a task ends with if it ends in a step. -/
def stepEnd? (s : Scheduler P R W) (h : Host P R W) (id : TaskId) (input : Input) :
    Option Outcome :=
  match s.task? id with
  | none => none
  | some t =>
    match t.process with
    | none => none
    | some process =>
      let (answer, process, world) := process.step h.program.resume input s.world
      let s := { s with world }.storeProcess id process
      match answer with
      | .yield effect => s.dispatchEnd? h id effect
      | .done v => some (.ok v)
      | .failed e => some (.error e)

/-- The task whose process ends in a move, and what it ends with. -/
def ending? (s : Scheduler P R W) (h : Host P R W) : Move P → Option (TaskId × Outcome)
  | .step =>
    match s.queue with
    | [] => none
    | (id, input) :: rest =>
      ({ s with queue := rest }.stepEnd? h id input).map fun outcome => (id, outcome)
  | _ => none

theorem dispatch_of_end? {effect : Effect P W} (hend : s.dispatchEnd? h id effect = some outcome) :
    ∃ r : Scheduler P R W, r.tasks = s.tasks ∧ r.nextTask = s.nextTask ∧
      s.dispatch h id effect = r.finish h id outcome ∧
      s.dispatchClimb h id effect = r.finishClimb h id outcome := by
  unfold dispatchEnd? at hend
  unfold dispatch dispatchClimb violate
  cases hv : effect.violation? with
  | some violation =>
    rw [hv] at hend
    cases hend
    exact ⟨s, rfl, rfl, rfl, rfl⟩
  | none =>
    rw [hv] at hend
    dsimp only at hend ⊢
    cases hs : (s.note h id effect).carryOut h id effect with
    | ok s' => simp [hs] at hend
    | error violation =>
      rw [hs] at hend
      cases hend
      have hnote : (s.note h id effect).tasks = s.tasks ∧
          (s.note h id effect).nextTask = s.nextTask := by
        unfold note
        split <;> exact ⟨rfl, rfl⟩
      exact ⟨_, hnote.1, hnote.2, rfl, rfl⟩

theorem verdict?_of_tasks (htasks : s'.tasks = s.tasks) (j : TaskId) :
    s'.verdict? j = s.verdict? j := by
  rw [verdict?, task?_of_tasks htasks, verdict?]

theorem verdict?_storeProcess (s : Scheduler P R W) (id j : TaskId) (process : Process P R W) :
    (s.storeProcess id process).verdict? j = s.verdict? j := by
  by_cases hj : j = id
  · simp [verdict?, storeProcess, hj, Function.comp_def]
  · simp [verdict?, storeProcess, hj]

theorem step_of_end? (hend : s.stepEnd? h id input = some outcome) :
    s.isLive id ∧ ∃ r : Scheduler P R W, SameShape s r ∧ (∀ j, r.verdict? j = s.verdict? j) ∧
      s.step h id input = r.finish h id outcome ∧
      s.stepClimb h id input = r.finishClimb h id outcome := by
  unfold stepEnd? at hend
  unfold step stepClimb
  cases ht : s.task? id with
  | none => simp [ht] at hend
  | some t =>
    cases hp : t.process with
    | none => simp [ht, hp] at hend
    | some process =>
      simp only [ht, hp] at hend ⊢
      refine ⟨by simp [isLive_eq, ht], ?_⟩
      generalize process.step h.program.resume input s.world = stepped at hend ⊢
      obtain ⟨answer, process', world⟩ := stepped
      have hshape := sameShape_storeProcess s id process' world
      have hverdict := fun j => verdict?_storeProcess { s with world } id j process'
      cases answer with
      | done v =>
        cases hend
        exact ⟨_, hshape, hverdict, rfl, rfl⟩
      | failed e =>
        cases hend
        exact ⟨_, hshape, hverdict, rfl, rfl⟩
      | yield effect =>
        obtain ⟨r, htasks, hnext, hdispatch, hclimb⟩ := dispatch_of_end? hend
        exact ⟨r, hshape.trans (SameTree.of_tasks htasks hnext).shape,
          fun j => (verdict?_of_tasks htasks j).trans (hverdict j), hdispatch, hclimb⟩

/-- A move in which a process ends finishes its task. -/
theorem finish_of_ending? (hend : s.ending? h m = some (id, outcome)) :
    s.isLive id ∧ ∃ r : Scheduler P R W, SameShape s r ∧ (∀ j, r.verdict? j = s.verdict? j) ∧
      s.move h m = (r.finish h id outcome).takeFault.2 ∧
      s.departures h m = r.finishClimb h id outcome := by
  cases m with
  | step =>
    cases hq : s.queue with
    | nil => simp [ending?, hq] at hend
    | cons entry rest =>
      obtain ⟨a, input⟩ := entry
      simp only [ending?, hq, Option.map_eq_some_iff, Prod.mk.injEq] at hend
      obtain ⟨outcome', hend, rfl, rfl⟩ := hend
      obtain ⟨hl, r, hshape, hverdict, hstep, hclimb⟩ := step_of_end? hend
      have hpop : SameTree s { s with queue := rest } := .of_tasks rfl rfl
      refine ⟨hl, r, hpop.shape.trans hshape, hverdict, ?_, ?_⟩
      · rw [move_step_cons h hq, hstep]
      · rw [departures, hq, ← hclimb]
  | _ => cases hend

/-! ## What a failure takes down -/

theorem task?_fallen (ht : s.task? id = some t) (e : TaskError) :
    ((s.raiseOf id (.error e)).endProcess id (.error e)).task? id = some (t.fallen e) := by
  have hraise : (s.raiseOf id (.error e)).tasks = s.tasks := by
    unfold raiseOf
    split <;> rfl
  simp [endProcess, task?_of_tasks hraise, ht, Task.fallen]

/-- A task whose process fails leaves at once if it has no children. Otherwise they are cancelled,
and it stays. -/
theorem finish_failed (ht : s.task? id = some t) (hcalm : t.cancelling = false) (h : Host P R W)
    (e : TaskError) :
    (t.children = [] ∧ ∃ d D, s.finishClimb h id (.error e) = d :: D ∧ d.id = id ∧
      d.task = t.fallen e) ∨
    t.children ≠ [] ∧ s.finishClimb h id (.error e) = [] ∧ s.finish h id (.error e) =
      ((s.raiseOf id (.error e)).endProcess id (.error e)).cancelSubtrees t.children := by
  have hended := task?_fallen ht e
  have htaken : t.takenDown (.error e) = t.children := by simp [Task.takenDown, hcalm]
  generalize hr : (s.raiseOf id (.error e)).endProcess id (.error e) = r at hended ⊢
  unfold finishClimb finish settle
  simp only [ht, htaken, hr]
  cases hchildren : t.children with
  | nil =>
    refine Or.inl ⟨rfl, ?_⟩
    have hl : r.isLive id := by simp [isLive_eq, hended]
    have hpos : 0 < r.tasks.size := Nat.lt_of_le_of_lt (Nat.zero_le _) (size_remove_lt hl none)
    obtain ⟨n, hsize⟩ := Nat.exists_eq_succ_of_ne_zero (Nat.pos_iff_ne_zero.1 hpos)
    have hdone : (t.fallen e).isDone := Task.isDone_iff.2 ⟨rfl, hchildren⟩
    simp only [cancelSubtrees, List.foldl_nil, hsize, climb, hended, hdone, if_true]
    cases (t.fallen e).parent <;> exact ⟨_, _, rfl, rfl, rfl⟩
  | cons child rest =>
    refine Or.inr ⟨List.cons_ne_nil _ _, ?_⟩
    obtain ⟨u, hu, hstill⟩ := (quiet_cancelSubtrees r (child :: rest)).tree.find hended
    have hdone : u.isDone = false := by
      have hkept : u.children = child :: rest := (Task.children_of_still hstill).trans hchildren
      simp [Task.isDone, hkept]
    cases (r.cancelSubtrees (child :: rest)).tasks.size with
    | zero => exact ⟨rfl, rfl⟩
    | succ n => simp [climb, settleWithin, hu, hdone]

end Scheduler

end CoopTasks
