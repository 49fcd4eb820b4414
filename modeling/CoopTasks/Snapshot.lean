import CoopTasks.Channel
import CoopTasks.Status
import CoopTasks.Timestamp
import CoopTasks.Uuid

/-!
# Snapshots

A view of everything live in a scheduler, as plain data to be shown or stored. It holds nothing of
the processes themselves, so no scheduler can be restored from it.
-/

namespace CoopTasks

/-- A live task, as seen from outside. -/
structure TaskView where
  id : TaskId
  name : String
  parent : Option TaskId
  children : List TaskId
  status : Status
  /-- What the task is suspended on, in words. -/
  waitingOn : Option String
  cancelling : Bool
  createdAt : Timestamp
deriving DecidableEq, Repr

structure Snapshot where
  version : Nat
  id : Uuid
  takenAt : Timestamp
  scheduler : Uuid
  /-- The clock in milliseconds. -/
  clock : Nat
  tasks : List TaskView
  channels : List ChannelView
  pendingTakers : Nat
  pendingOperations : Nat
deriving DecidableEq, Repr

/-- Why a stored snapshot cannot be used. -/
inductive SnapshotError where
  | malformed
  | unsupportedVersion (found : Nat)
deriving DecidableEq, Repr

namespace Snapshot

/-- The version of the stored form. -/
def currentVersion : Nat := 1

def task? (s : Snapshot) (id : TaskId) : Option TaskView := s.tasks.find? fun t => t.id = id

/-- The tasks whose parent is not among the tasks. -/
def roots (s : Snapshot) : List TaskView :=
  s.tasks.filter fun t => t.parent.all fun parent => (s.task? parent).isNone

/-- Accepts a snapshot that was read if it is of the current version. -/
def accept (s : Option Snapshot) : Except SnapshotError Snapshot :=
  match s with
  | none => .error .malformed
  | some s =>
    if s.version = currentVersion then .ok s else .error (.unsupportedVersion s.version)

end Snapshot

/-- What is said of a snapshot of another version. -/
def SnapshotError.message : SnapshotError → String
  | .malformed => "Deserialization failed"
  | .unsupportedVersion found =>
    s!"Unsupported snapshot version {found}, supported: {Snapshot.currentVersion}"

end CoopTasks
