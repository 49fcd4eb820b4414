import CoopTasks.Process
import CoopTasks.Status

/-!
# Tasks

A task is a process that has been given a place in the tree of tasks. It settles once its process
has ended and all its children have settled, so its record holds what it waits for, what its process
ended with, and who wants to know.
-/

namespace CoopTasks

/-- What a task is suspended on. -/
inductive Wait where
  /-- Nothing: it is queued, or being stepped. -/
  | nothing
  | take
  | operation (operation : OperationId)
  | join (task : TaskId)
  | channelTake (channel : ChannelId)
  | channelPut (channel : ChannelId)
  | group (group : GroupId)
  /-- The end of a process that it called. -/
  | call (task : TaskId)
  /-- The settlement of its children, its own process having ended. -/
  | children
deriving DecidableEq, Repr

/-- How the end of a task is made use of. -/
inductive Role where
  /-- Started by the host. -/
  | root
  /-- Forked: a failure that nobody joins aborts the parent. -/
  | forked
  /-- Runs one effect of a group. -/
  | branch (group : GroupId) (slot : Nat)
  /-- Called: the parent waits for it. -/
  | called
deriving DecidableEq, Repr

structure Task (P R W : Type) where
  name : String
  parent : Option TaskId
  role : Role
  /-- The live children, in the order of spawning. -/
  children : List TaskId := []
  /-- None once the process has ended. -/
  process : Option (Process P R W)
  status : Status := .running
  wait : Wait := .nothing
  /-- The cancellation signal has been delivered. -/
  cancelling : Bool := false
  /-- The failure of a child for which the task was torn down. -/
  abort : Option TaskError := none
  /-- What the process ended with. -/
  outcome : Option Outcome := none
  /-- The tasks that wait to join this one, in the order in which they asked. -/
  joiners : List TaskId := []

/-- What is kept of a task once it has settled. -/
structure Settlement where
  task : TaskId
  status : Status
  result : Outcome

namespace Wait

def describe? : Wait → Option String
  | .nothing => none
  | .take => some "take"
  | .operation id => some s!"call {id}"
  | .join id => some s!"join {id}"
  | .channelTake id => some s!"take {id}"
  | .channelPut id => some s!"put {id}"
  | .group id => some s!"group {id}"
  | .call id => some s!"call {id}"
  | .children => some "children"

end Wait

namespace Role

def isBranch : Role → Bool
  | .branch _ _ => true
  | _ => false

end Role

namespace Task

variable {P R W : Type}

/-- Whether the task runs an effect of a group for its parent. -/
def isBranch (t : Task P R W) : Bool := t.role.isBranch && t.parent.isSome

/-- Whether the task has nothing left to do. -/
def isDone (t : Task P R W) : Bool := t.process.isNone && t.children.isEmpty

/-- The children that the end of the task's process takes down with it: all of them if it failed and
the task is not being cancelled already. -/
def takenDown (t : Task P R W) : Outcome → List TaskId
  | .error _ => if t.cancelling then [] else t.children
  | .ok _ => []

/-- The status with which the task settles: an abort counts before a cancellation, and that before
the outcome of the process. -/
def endStatus (t : Task P R W) : Status :=
  if t.abort.isSome then .failed
  else if t.cancelling then .cancelled
  else
    match t.outcome with
    | some (.error _) => .failed
    | _ => .completed

/-- The result with which the task settles. -/
def endResult (t : Task P R W) (id : TaskId) : Outcome :=
  match t.abort with
  | some e => .error e
  | none => if t.cancelling then .error (.cancelled id) else t.outcome.getD (.ok .unit)

end Task

namespace Settlement

/-- The error with which the task failed; a cancelled task has not failed. -/
def failure? (s : Settlement) : Option TaskError :=
  match s.status, s.result with
  | .failed, .error e => some e
  | _, _ => none

/-- What a task that joins or called the settled one is told. -/
def answer (s : Settlement) : Input :=
  if s.status = .cancelled then .error (.joinedCancelled s.task) else .ofOutcome s.result

end Settlement

end CoopTasks
