import CoopTasks.Json.Printer
import CoopTasks.Value

/-!
# Errors

Three layers: a `Failure` is reported by an operation, a `TaskError` is thrown into a task, and a
`HostError` is returned to the host. A `Violation` is a breach of the contract between the scheduler
and a task; it is both thrown and returned.
-/

namespace CoopTasks

/-- What an operation reports when it fails; the detail is null if there is none. -/
structure Failure where
  message : String
  detail : Json := .null
deriving Inhabited

inductive Violation where
  | alreadySettled
  | unknownTask (task : TaskId)
  | unknownChannel (channel : ChannelId)
  | unknownOperation (operation : OperationId)
  | malformedEffect (problems : List String)
  | unexpectedValue (expected found : Value.Kind)
deriving DecidableEq, Repr

inductive TaskError where
  | operation (failure : Failure)
  /-- The signal that unwinds a task, so that its cleanup runs. -/
  | cancelled (task : TaskId)
  | joinedCancelled (task : TaskId)
  | resultEvicted (task : TaskId)
  | bufferOverflow (channel : ChannelId) (capacity : Nat)
  | protocol (violation : Violation)

inductive HostError where
  /-- A breach by a task, or by the host itself if no task is named. -/
  | protocol (task : Option TaskId) (violation : Violation)
  | stepBudgetExhausted (limit : Nat)
deriving DecidableEq, Repr

/-- A failure that no task above it handled. -/
structure Unhandled where
  task : TaskId
  name : String
  error : TaskError

/-- The terminal result of a task. -/
abbrev Outcome := Except TaskError Value

namespace Failure

def text (f : Failure) : String :=
  if f.detail.isNull then f.message else s!"{f.message} ({f.detail.compact})"

instance : ToString Failure := ⟨text⟩

end Failure

namespace Violation

def message : Violation → String
  | .alreadySettled => "process resumed after it already settled"
  | .unknownTask task => s!"unknown task {task}"
  | .unknownChannel channel => s!"unknown channel {channel}"
  | .unknownOperation operation => s!"completion for {operation}, which was never issued"
  | .malformedEffect problems => "malformed effect: " ++ "; ".intercalate problems
  | .unexpectedValue expected found => s!"expected a {expected.name} value, found {found.name}"

instance : ToString Violation := ⟨message⟩

end Violation

namespace TaskError

def message : TaskError → String
  | .operation failure => s!"operation failed: {failure}"
  | .cancelled task => s!"{task} is being cancelled"
  | .joinedCancelled task => s!"joined {task} was cancelled"
  | .resultEvicted task => s!"{task} settled and its result was evicted"
  | .bufferOverflow channel capacity => s!"{channel} overflowed its buffer of {capacity}"
  | .protocol violation => violation.message

instance : ToString TaskError := ⟨message⟩

/-- The name of the kind of error. -/
def kindName : TaskError → String
  | .operation _ => "Operation"
  | .cancelled _ => "Cancelled"
  | .joinedCancelled _ => "JoinedCancelled"
  | .resultEvicted _ => "ResultEvicted"
  | .bufferOverflow _ _ => "BufferOverflow"
  | .protocol _ => "Protocol"

/-- A failure with a message alone. -/
def failure (message : String) : TaskError := .operation ⟨message, .null⟩

def isCancellation : TaskError → Bool
  | .cancelled _ => true
  | _ => false

def violation? : TaskError → Option Violation
  | .protocol violation => some violation
  | _ => none

def failure? : TaskError → Option Failure
  | .operation failure => some failure
  | _ => none

end TaskError

namespace HostError

def message : HostError → String
  | .protocol none violation => s!"protocol violation in host: {violation}"
  | .protocol (some task) violation => s!"protocol violation in {task}: {violation}"
  | .stepBudgetExhausted limit =>
    s!"step budget of {limit} exhausted without reaching quiescence"

instance : ToString HostError := ⟨message⟩

end HostError

namespace Unhandled

def message (u : Unhandled) : String :=
  s!"unhandled failure in root {u.task} ({u.name}): {u.error}"

instance : ToString Unhandled := ⟨message⟩

end Unhandled

namespace Value

def unexpected (v : Value) (expected : Kind) : TaskError :=
  .protocol (.unexpectedValue expected v.kind)

/-- The task, or the violation of having been given something else. -/
def requireTask (v : Value) : Except TaskError TaskId :=
  v.task?.elim (.error (v.unexpected .task)) .ok

def requireChannel (v : Value) : Except TaskError ChannelId :=
  v.channel?.elim (.error (v.unexpected .channel)) .ok

def requireNotification (v : Value) : Except TaskError Notification :=
  v.notification?.elim (.error (v.unexpected .notification)) .ok

end Value

end CoopTasks
