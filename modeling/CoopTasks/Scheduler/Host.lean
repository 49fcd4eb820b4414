import CoopTasks.Scheduler.Run

/-!
# Calls of the host

A scheduler begins without tasks. Every call changes the scheduler and then runs it until nothing is
queued. Time passes only by `advance`, which delivers the timers that fall due in the order of their
deadlines.
-/

namespace CoopTasks.Scheduler

variable {P R W : Type}

/-- A scheduler without tasks in the given world, if the configuration allows one. -/
def new (h : Host P R W) (world : W) : Except BuildError (Scheduler P R W) :=
  match h.config.error? with
  | some e => .error e
  | none => .ok { world }

/-- Runs, and answers with the given value if the run ends well. -/
def runThen {α : Type} (s : Scheduler P R W) (h : Host P R W) (value : α) : Reply P R W α :=
  match s.run h with
  | (.ok _, s) => (.ok value, s)
  | (.error e, s) => (.error e, s)

/-- Adds a process as a root task, queued after all others. -/
def enroll (s : Scheduler P R W) (h : Host P R W) (process : P) (args : List Value) :
    TaskId × Scheduler P R W :=
  let (id, s) := s.spawn h process args none .root
  (id, s.enqueueLast id (.value .unit))

/-- Starts a process as a root task. -/
def start (s : Scheduler P R W) (h : Host P R W) (process : P) (args : List Value) :
    Reply P R W TaskId :=
  let (id, s) := s.enroll h process args
  s.runThen h id

/-- Publishes a notification, and queues the tasks that waited for it after all others. -/
def announce (s : Scheduler P R W) (h : Host P R W) (n : Notification) : Scheduler P R W :=
  let (takers, s) := s.publish h n
  takers.foldl (fun s id => s.wakeLast id (.value (.notification n))) s

/-- Publishes a notification from outside. -/
def notify (s : Scheduler P R W) (h : Host P R W) (n : Notification) : Reply P R W Unit :=
  (s.announce h n).run h

/-- Delivers the completion of an operation. -/
def complete (s : Scheduler P R W) (h : Host P R W) (c : Completion) : Reply P R W Unit :=
  match s.applyCompletion c with
  | (.ok _, s) => s.run h
  | (.error e, s) => (.error e, s)

/-- Queues a completion for the next run. -/
def enqueueCompletion (s : Scheduler P R W) (c : Completion) : Scheduler P R W :=
  { s with pending := s.pending.enqueue c }

/-- Cancels a task and all below it; nothing happens to one that has settled. -/
def cancelTask (s : Scheduler P R W) (h : Host P R W) (id : TaskId) : Reply P R W Unit :=
  if s.isLive id then (s.cancelSubtree id).run h
  else if s.issued id then s.run h
  else (.error (.protocol none (.unknownTask id)), s)

def setClock (s : Scheduler P R W) (now : Nat) : Scheduler P R W :=
  { s with pending := s.pending.setClock now }

/-- Takes a timer out of the index when its time has come. -/
def expire (s : Scheduler P R W) (timer : Nat × OperationId) : Scheduler P R W :=
  { s with pending := s.pending.expire timer }

/-- Delivers the timers that are due at the given time, each followed by a run, and sets the clock.
Processes may set timers without end at one moment, so the number of timers delivered is limited;
nothing is answered if that is not enough. -/
def fireTimers (h : Host P R W) (target : Nat) : Nat → Scheduler P R W → Option (Reply P R W Unit)
  | fuel, s =>
    match s.pending.due? target, fuel with
    | none, _ => some (.ok (), s.setClock target)
    | some _, 0 => none
    | some timer, fuel + 1 =>
      match (s.expire timer).complete h ⟨timer.2, .ok .unit⟩ with
      | (.ok _, s) => fireTimers h target fuel s
      | (.error e, s) => some (.error e, s)

/-- Lets so many milliseconds pass. -/
def advance (s : Scheduler P R W) (h : Host P R W) (ms fuel : Nat) : Option (Reply P R W Unit) :=
  match s.run h with
  | (.ok _, s) => fireTimers h (s.pending.clock + ms) fuel s
  | (.error e, s) => some (.error e, s)

/-- Hands over the failures of root tasks. -/
def takeUnhandled (s : Scheduler P R W) : List Unhandled × Scheduler P R W :=
  (s.unhandled, { s with unhandled := [] })

def dropJournal (s : Scheduler P R W) : Scheduler P R W := { s with journal := #[] }

/-- The status of a task that is live, or whose record is kept. -/
def status? (s : Scheduler P R W) (id : TaskId) : Option Status :=
  ((s.task? id).map Task.status).or ((s.settled? id).map Settlement.status)

/-- The result of a task whose record is kept. -/
def result? (s : Scheduler P R W) (id : TaskId) : Option Outcome :=
  (s.settled? id).map Settlement.result

def beingCancelled (s : Scheduler P R W) (id : TaskId) : Bool := (s.task? id).any Task.cancelling

def channel? (s : Scheduler P R W) (id : ChannelId) : Option ChannelView :=
  (s.channels.find? id).map fun c => c.view id

end CoopTasks.Scheduler
