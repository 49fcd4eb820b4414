import CoopTasks.Scheduler.Cancel

/-!
# Settlement

A task settles when its process has ended and no child is left. It then leaves the tree for good,
and its result goes to those who wait for it: to the tasks that join it, to the caller, to the group
that it is a branch of, or, if it failed and nobody joined it, to its parent as an abort. A root's
failure goes to the host. After that the parent may settle in turn.
-/

namespace CoopTasks.Scheduler

variable {P R W : Type}

/-- Tears a task down because a child of it failed; the task will settle with the child's error. -/
def abort (s : Scheduler P R W) (id : TaskId) (error : TaskError) : Scheduler P R W :=
  match s.task? id with
  | none => s
  | some t =>
    if t.cancelling ∨ t.abort.isSome then s
    else (s.updateTask id fun t => { t with abort := some error }).cancelSubtree id

/-- Tells a group what a branch ended with. Once the group resolves, its owner goes on and the
branches that are left are cancelled. -/
def settleBranch (s : Scheduler P R W) (id : GroupId) (slot : Nat) (outcome : Outcome) :
    Scheduler P R W :=
  match s.groups.find? id with
  | none => s
  | some group =>
    match group.settle slot outcome with
    | (group, none) => { s with groups := s.groups.modify id fun _ => group }
    | (group, some input) =>
      let s := { s with groups := s.groups.erase id }
      (s.wakeIfWaiting group.owner (.group id) input).cancelSubtrees group.branches

/-- Resumes the tasks that wait to join a settled one, the one that asked first before the others.
-/
def answerJoiners (s : Scheduler P R W) (joiners : List TaskId) (record : Settlement) :
    Scheduler P R W :=
  joiners.reverse.foldl
    (fun s joiner => s.wakeIfWaiting joiner (.join record.task) record.answer) s

/-- Passes on what a task settled with, by its role. -/
def deliver (s : Scheduler P R W) (t : Task P R W) (record : Settlement) : Scheduler P R W :=
  match t.role, t.parent, record.failure? with
  | .root, _, some e => { s with unhandled := s.unhandled ++ [⟨record.task, t.name, e⟩] }
  | .root, _, none => s
  | .forked, some parent, some e => if t.joiners.isEmpty then s.abort parent e else s
  | .forked, _, _ => s
  | .branch group slot, _, _ =>
    if record.status = .cancelled then s else s.settleBranch group slot record.result
  | .called, some caller, _ => s.wakeIfWaiting caller (.call record.task) record.answer
  | .called, none, _ => s

/-- Takes a task out of the tree. -/
def remove (s : Scheduler P R W) (id : TaskId) (parent : Option TaskId) : Scheduler P R W :=
  { s with tasks := s.tasks.erase id }.dropChild id parent

/-- Lets a task leave the tree, files its record and passes on its result. -/
def retire (s : Scheduler P R W) (h : Host P R W) (id : TaskId) (t : Task P R W) :
    Scheduler P R W :=
  let record : Settlement := ⟨id, t.endStatus, t.endResult id⟩
  (((s.remove id t.parent).remember h record).answerJoiners t.joiners record).deliver t record

/-- Settles a task that has nothing left to do, and then its ancestors as far as they are done too.
Every round takes a task out of the tree, so there are at most as many as live tasks. -/
def settleWithin (h : Host P R W) : Nat → TaskId → Scheduler P R W → Scheduler P R W
  | 0, _, s => s
  | fuel + 1, id, s =>
    match s.task? id with
    | none => s
    | some t =>
      if t.isDone then
        match t.parent with
        | some parent => settleWithin h fuel parent (s.retire h id t)
        | none => s.retire h id t
      else s

def settle (s : Scheduler P R W) (h : Host P R W) (id : TaskId) : Scheduler P R W :=
  settleWithin h s.tasks.size id s

/-- Raises the violation that a task ended with, if it did. -/
def raiseOf (s : Scheduler P R W) (id : TaskId) : Outcome → Scheduler P R W
  | .error (.protocol violation) => s.raise id violation
  | _ => s

/-- Records what a task's process ended with. The task goes on waiting for its children. -/
def endProcess (s : Scheduler P R W) (id : TaskId) (outcome : Outcome) : Scheduler P R W :=
  s.updateTask id fun t =>
    { t with process := none, wait := .children, status := .waiting, outcome := some outcome }

/-- Takes note of the end of a task's process. -/
def finish (s : Scheduler P R W) (h : Host P R W) (id : TaskId) (outcome : Outcome) :
    Scheduler P R W :=
  match s.task? id with
  | none => s.raiseOf id outcome
  | some t =>
    (((s.raiseOf id outcome).endProcess id outcome).cancelSubtrees (t.takenDown outcome)).settle h id

end CoopTasks.Scheduler
