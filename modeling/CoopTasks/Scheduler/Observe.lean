import CoopTasks.Scheduler.Host
import CoopTasks.Snapshot

/-!
# Taking snapshots

The view of a scheduler from outside. What the scheduler does not know itself, the identifiers and
the moments, is given by a `Stamp`.
-/

namespace CoopTasks

/-- What a snapshot says of itself and of the time. -/
structure Stamp where
  id : Uuid
  scheduler : Uuid
  takenAt : Timestamp
  createdAt : TaskId → Timestamp

namespace Scheduler

variable {P R W : Type}

def viewTask (s : Scheduler P R W) (stamp : Stamp) (id : TaskId) (t : Task P R W) : TaskView where
  id := id
  name := t.name
  parent := t.parent
  children := s.children id
  status := t.status
  waitingOn := t.wait.describe?
  cancelling := t.cancelling
  createdAt := stamp.createdAt id

/-- The live tasks and the channels, each in the order of their numbers. The clock is shown as far
as 64 bits go. -/
def snapshot (s : Scheduler P R W) (stamp : Stamp) : Snapshot where
  version := Snapshot.currentVersion
  id := stamp.id
  takenAt := stamp.takenAt
  scheduler := stamp.scheduler
  clock := min s.pending.clock (Nat.pow 2 64 - 1)
  tasks := s.tasks.entries.map fun entry => s.viewTask stamp entry.1 entry.2
  channels := s.channels.entries.map fun entry => entry.2.view entry.1
  pendingTakers := s.takers.length
  pendingOperations := s.pending.size

end Scheduler

end CoopTasks
