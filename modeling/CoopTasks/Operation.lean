import CoopTasks.Error

/-!
# Operations

A named function of the outside world that a task calls. Invoked, it may register completions that
come later, by the host or by the virtual clock, read the clock and queue completions, and it ends
by answering at once or by naming the completion that the caller is to wait for. The outside world
is a value of type `W` that operations read and change; they reach the scheduler only through the
requests of `Invocation`.
-/

namespace CoopTasks

/-- What an operation asks for, one request after the other, up to its answer. -/
inductive Invocation (W : Type) where
  | answer (result : Except Failure Value) (world : W)
  /-- The caller is to wait for this completion. -/
  | await (operation : OperationId) (world : W)
  /-- Registers a completion that the host delivers. -/
  | defer (next : OperationId → Invocation W)
  /-- Registers a completion that the clock delivers after so many milliseconds. -/
  | timer (after : Nat) (next : OperationId → Invocation W)
  /-- Reads the clock in milliseconds. -/
  | now (next : Nat → Invocation W)
  /-- Queues a completion. -/
  | complete (operation : OperationId) (result : Except Failure Value) (next : Invocation W)

/-- A named function; it is given the arguments and the calling task. Operations are compared by
name. -/
structure Operation (W : Type) where
  name : String
  invoke : List Value → TaskId → W → Invocation W

namespace Operation

variable {W : Type}

/-- Completes with the unit value once the clock has advanced by the number of milliseconds given as
the first argument. -/
def delay : Operation W where
  name := "delay"
  invoke args _ world :=
    match args.head?.bind Value.millis? with
    | some ms => .timer ms fun id => .await id world
    | none => .answer (.error ⟨"delay expects a duration in milliseconds", .null⟩) world

end Operation

end CoopTasks
