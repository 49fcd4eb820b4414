import CoopTasks.Operation
import CoopTasks.Table

/-!
# Pending operations and the virtual clock

Completions that are still to come, and who waits for them. Some are delivered by the clock: they
have a timer in an index of its own, and whatever takes an operation off the one takes it off the
other. The clock counts milliseconds and moves only when it is set. Completions that were queued
from outside wait in the inbox until the scheduler takes them.
-/

namespace CoopTasks

/-- A result delivered for an operation. -/
structure Completion where
  operation : OperationId
  result : Except Failure Value

structure Pending where
  /-- Who waits for which completion. -/
  awaited : Table OperationId TaskId := .empty
  /-- The operations that the clock completes, each with its deadline. -/
  timers : List (Nat × OperationId) := []
  nextId : Nat := 1
  clock : Nat := 0
  inbox : List Completion := []

/-- What an operation said in the end. -/
inductive Ending where
  | answered (result : Except Failure Value)
  | awaiting (operation : OperationId)

namespace Pending

/-- Registers a completion that the host delivers. -/
def defer (p : Pending) (owner : TaskId) : OperationId × Pending :=
  let id : OperationId := ⟨p.nextId⟩
  (id, { p with awaited := p.awaited.insert id owner, nextId := p.nextId + 1 })

/-- Registers a completion that the clock delivers after so many milliseconds. -/
def schedule (p : Pending) (owner : TaskId) (after : Nat) : OperationId × Pending :=
  let (id, p) := p.defer owner
  (id, { p with timers := p.timers ++ [(p.clock + after, id)] })

/-- Forgets an operation, and its timer. -/
def discard (p : Pending) (id : OperationId) : Pending :=
  { p with awaited := p.awaited.erase id, timers := p.timers.filter fun timer => timer.2 ≠ id }

/-- Whether the number was ever handed out; one that is not awaited any more is stale. -/
def isStale (p : Pending) (id : OperationId) : Bool := id.val < p.nextId

def enqueue (p : Pending) (completion : Completion) : Pending :=
  { p with inbox := p.inbox ++ [completion] }

/-- The clock is never set back. -/
def setClock (p : Pending) (now : Nat) : Pending := { p with clock := max p.clock now }

/-- The number of operations whose completion is still to come. -/
def size (p : Pending) : Nat := p.awaited.size

/-- Whether a timer comes before another: by deadline, then in the order of registration. -/
def earlier (x y : Nat × OperationId) : Bool :=
  x.1 < y.1 || (x.1 == y.1 && x.2.val < y.2.val)

/-- The first of the given timers. -/
def first? : List (Nat × OperationId) → Option (Nat × OperationId)
  | [] => none
  | timer :: rest =>
    match first? rest with
    | none => some timer
    | some other => if earlier other timer then some other else some timer

/-- The first timer that is due at the given time. -/
def due? (p : Pending) (limit : Nat) : Option (Nat × OperationId) :=
  (first? p.timers).filter fun timer => timer.1 ≤ limit

/-- Takes a timer out of the index, and sets the clock to its deadline. The operation is awaited
until its completion is delivered. -/
def expire (p : Pending) (timer : Nat × OperationId) : Pending :=
  { p with timers := p.timers.filter fun other => other ≠ timer }.setClock timer.1

/-- Carries out the requests of an operation called by a task. -/
def carryOut {W : Type} (p : Pending) (caller : TaskId) : Invocation W → Ending × Pending × W
  | .answer result world => (.answered result, p, world)
  | .await id world => (.awaiting id, p, world)
  | .defer next =>
    let (id, p) := p.defer caller
    p.carryOut caller (next id)
  | .timer after next =>
    let (id, p) := p.schedule caller after
    p.carryOut caller (next id)
  | .now next => p.carryOut caller (next p.clock)
  | .complete id result next => (p.enqueue ⟨id, result⟩).carryOut caller next

end Pending

end CoopTasks
