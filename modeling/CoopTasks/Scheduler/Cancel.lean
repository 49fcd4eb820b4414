import CoopTasks.Scheduler.Basic

/-!
# Cancellation

Cancelling a task signals the whole tree below it. Signals are put before all that is queued, the
innermost task first, so that the cleanup of a child runs before that of its parent. A task that is
already being cancelled is left alone.
-/

namespace CoopTasks.Scheduler

variable {P R W : Type}

/-- Forgets what a task was suspended on. -/
def withdraw (s : Scheduler P R W) (id : TaskId) : Wait → Scheduler P R W
  | .nothing | .children | .call _ => s
  | .take => { s with takers := s.takers.filter (·.1 ≠ id) }
  | .operation op => { s with pending := s.pending.discard op }
  | .join target => s.updateTask target fun t => { t with joiners := t.joiners.filter (· ≠ id) }
  | .channelTake c | .channelPut c => { s with channels := s.channels.modify c (·.withdraw id) }
  | .group g => { s with groups := s.groups.erase g }

/-- Drops what is queued for a task. -/
def unqueue (s : Scheduler P R W) (id : TaskId) : Scheduler P R W :=
  { s with queue := s.queue.filter (·.1 ≠ id) }

/-- Notes that a task is being cancelled, and takes it off everything it waits for. -/
def mark (s : Scheduler P R W) (id : TaskId) (t : Task P R W) (wait : Wait) : Scheduler P R W :=
  ((s.updateTask id fun t => { t with cancelling := true, wait }).withdraw id t.wait).unqueue id

/-- Signals one task. If its process has ended there is nothing to signal, and it goes on waiting
for its children. -/
def signal (s : Scheduler P R W) (id : TaskId) : Scheduler P R W :=
  match s.task? id with
  | none => s
  | some t =>
    if t.cancelling then s
    else if t.process.isSome then
      (s.mark id t .nothing).enqueueFirst id (.error (.cancelled id))
    else s.mark id t .children

/-- Signals a task and all below it. -/
def cancelSubtree (s : Scheduler P R W) (root : TaskId) : Scheduler P R W :=
  (s.subtree root).reverse.foldl signal s

/-- Cancels the trees of several tasks, one after the other. -/
def cancelSubtrees (s : Scheduler P R W) (roots : List TaskId) : Scheduler P R W :=
  roots.foldl cancelSubtree s

end CoopTasks.Scheduler
