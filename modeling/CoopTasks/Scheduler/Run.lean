import CoopTasks.Scheduler.Dispatch

/-!
# Running

The run loop takes the first task off the queue and steps it, until the queue is empty. It stops
early when a task breaks the contract and when the budget of steps is used up; then everything that
was queued stays queued, and a later run goes on with it.
-/

namespace CoopTasks.Scheduler

variable {P R W : Type}

/-- The answer to a call of the host, and the scheduler it leaves. -/
abbrev Reply (P R W : Type) (α : Type) := Except HostError α × Scheduler P R W

/-- Stores the state of a task's process after a step. -/
def storeProcess (s : Scheduler P R W) (id : TaskId) (process : Process P R W) :
    Scheduler P R W :=
  s.updateTask id fun t => { t with process := some process, status := .running, wait := .nothing }

/-- Steps a task, and does what its process answers. -/
def step (s : Scheduler P R W) (h : Host P R W) (id : TaskId) (input : Input) :
    Scheduler P R W :=
  match s.task? id with
  | none => s
  | some t =>
    match t.process with
    | none => s
    | some process =>
      let (answer, process, world) := process.step h.program.resume input s.world
      let s := { s with world }.storeProcess id process
      match answer with
      | .yield effect => s.dispatch h id effect
      | .done v => s.finish h id (.ok v)
      | .failed e => s.finish h id (.error e)

/-- Applies the completion of an operation. It resumes the owner if that still waits for it; the
completion of an operation that is not awaited any more does nothing. -/
def applyCompletion (s : Scheduler P R W) (c : Completion) : Reply P R W Unit :=
  match s.pending.awaited.find? c.operation with
  | some owner =>
    let s := { s with pending := s.pending.discard c.operation }
    if s.wait? owner = some (.operation c.operation) then
      (.ok (), s.wakeLast owner (.ofResult c.result))
    else (.ok (), s)
  | none =>
    if s.pending.isStale c.operation then (.ok (), s)
    else (.error (.protocol none (.unknownOperation c.operation)), s)

/-- Takes a queued completion, of which the given ones are left, and applies it. -/
def receive (s : Scheduler P R W) (c : Completion) (rest : List Completion) : Reply P R W Unit :=
  { s with pending := { s.pending with inbox := rest } }.applyCompletion c

/-- Applies queued completions in order, up to the first that is in error. -/
def applyAll (s : Scheduler P R W) : List Completion → Reply P R W Unit
  | [] => (.ok (), s)
  | c :: rest =>
    match s.receive c rest with
    | (.ok _, s) => s.applyAll rest
    | (.error e, s) => (.error e, s)

def applyInbox (s : Scheduler P R W) : Reply P R W Unit := s.applyAll s.pending.inbox

/-- Hands over the fault that a step left, if it left one. -/
def takeFault (s : Scheduler P R W) : Reply P R W Unit :=
  match s.fault with
  | none => (.ok (), s)
  | some e => (.error e, { s with fault := none })

/-- Steps the first task of the queue, if there is one. -/
def stepNext? (s : Scheduler P R W) (h : Host P R W) : Option (Reply P R W Unit) :=
  match s.queue with
  | [] => none
  | (id, input) :: rest => some ({ s with queue := rest }.step h id input).takeFault

/-- Runs with so many steps left; `limit` is the number that was allowed. -/
def runWithin (h : Host P R W) (limit : Nat) : Nat → Scheduler P R W → Reply P R W Unit
  | 0, s =>
    match s.applyInbox with
    | (.error e, s) => (.error e, s)
    | (.ok _, s) =>
      if s.queue.isEmpty then (.ok (), s) else (.error (.stepBudgetExhausted limit), s)
  | left + 1, s =>
    match s.applyInbox with
    | (.error e, s) => (.error e, s)
    | (.ok _, s) =>
      match s.stepNext? h with
      | none => (.ok (), s)
      | some (.ok _, s) => runWithin h limit left s
      | some (.error e, s) => (.error e, s)

/-- Runs until nothing is queued. -/
def run (s : Scheduler P R W) (h : Host P R W) : Reply P R W Unit :=
  runWithin h h.config.maxSteps h.config.maxSteps s

end CoopTasks.Scheduler
