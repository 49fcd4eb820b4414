import CoopTasks.Routine.Template

/-!
# Running routines

A routine is a list of instructions with a position. Stepped with a value, it stores the value and
executes instructions until one yields an effect or ends it. Stepped with an error, it goes on at
the label that handles errors, if there is one. At most 10000 instructions are executed in one step.
-/

namespace CoopTasks.Routine

inductive Instr where
  /-- Yields an effect, whose answer goes to the variable `binding` and whose error to the label
  `handler`. -/
  | yield (effect : Template) (binding handler : Option String)
  | label (name : String)
  | jump (label : String)
  | jumpIf (condition : Cond) (label : String)
  | set (name : String) (value : Expr)
  | log (value : Expr)
  | return (value : Expr)
  | fail (failure : Failure)
  /-- Fails with the last error. -/
  | rethrow

/-- The text of a routine. -/
structure Code where
  name : String
  instrs : List Instr
  /-- The label for errors that the suspended effect does not handle. -/
  handler : Option String := none
  /-- Whether its steps are left out of the log. -/
  quiet : Bool := false

/-- A routine that has been started. -/
structure Frame where
  code : Code
  number : Nat
  scope : Scope
  position : Nat := 0
  binding : Option String := none
  handler : Option String := none

/-- The instructions executed in one step. -/
def maxInstructions : Nat := 10000

namespace Instr

def isLabel (name : String) : Instr → Bool
  | .label other => name == other
  | _ => false

end Instr

namespace Frame

/-- The answer of a step and what is left of the routine. -/
abbrev Stop := Step String World × Frame × World

def assign (f : Frame) (name : String) (v : Value) : Frame :=
  { f with scope.bound := (name, v) :: f.scope.bound.filter (·.1 ≠ name) }

/-- Goes on at a label. -/
def goto (f : Frame) (label : String) : Except TaskError Frame :=
  match f.code.instrs.findIdx? (Instr.isLabel label) with
  | some position => .ok { f with position }
  | none => .error (.failure s!"unknown label {label}")

/-- Executes one instruction, after the position has been moved on. It answers a step if it yields
or ends the routine. -/
def perform (f : Frame) (w : World) :
    Instr → Except TaskError (Option (Step String World) × Frame × World)
  | .yield template binding handler => do
    let effect ← template.build f.scope
    return (some (.yield effect), { f with binding, handler }, w)
  | .label _ => .ok (none, f, w)
  | .jump label => do return (none, ← f.goto label, w)
  | .jumpIf condition label => do
    if ← condition.holds f.scope then return (none, ← f.goto label, w) else return (none, f, w)
  | .set name e => do return (none, f.assign name (← e.eval f.scope), w)
  | .log e => do
    let v ← e.eval f.scope
    return (none, f, w.record (.log f.code.name f.number v))
  | .return e => do return (some (.done (← e.eval f.scope)), f, w)
  | .fail failure => .ok (some (.failed (.operation failure)), f, w)
  | .rethrow => .error (f.scope.error.getD (.failure "nothing to rethrow"))

/-- Executes instructions up to the next effect or the end. Past the last one the routine is done,
with the last value. -/
def execute : Nat → Frame → World → Stop
  | fuel, f, w =>
    match f.code.instrs[f.position]?, fuel with
    | none, _ => (.done f.scope.last, f, w)
    | some _, 0 => (.failed (.failure "instruction limit"), f, w)
    | some instr, fuel + 1 =>
      match { f with position := f.position + 1 }.perform w instr with
      | .ok (none, f, w) => execute fuel f w
      | .ok (some step, f, w) => (step, f, w)
      | .error e => (.failed e, f, w)

/-- Takes in the answer to the suspended effect. -/
def receive (f : Frame) (v : Value) : Frame :=
  let f := f.binding.elim f fun name => f.assign name v
  { f with scope.last := v }

/-- Steps a routine. -/
def resume (f : Frame) (input : Input) (w : World) : Stop :=
  let w := if f.code.quiet then w else w.record (.step f.code.name f.number input)
  match input with
  | .value v => (f.receive v).execute maxInstructions w
  | .error e =>
    match f.handler.or f.code.handler with
    | none => (.failed e, f, w)
    | some label =>
      match { f with scope.error := some e }.goto label with
      | .ok f => f.execute maxInstructions w
      | .error e => (.failed e, f, w)

end Frame

end CoopTasks.Routine
