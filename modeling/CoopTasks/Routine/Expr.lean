import CoopTasks.Effect.Timeout

/-!
# Expressions and conditions

What a routine computes with: its arguments and variables, the last value and the last error it was
given. An expression that asks of a value what its kind does not offer gives the unit value.
-/

namespace CoopTasks.Routine

/-- What expressions refer to. -/
structure Scope where
  args : List Value := []
  bound : List (String × Value) := []
  last : Value := .unit
  error : Option TaskError := none

inductive Expr where
  | constant (value : Value)
  | list (items : List Expr)
  | keyed (key : String) (value : Expr)
  | last
  /-- The text of the last error. -/
  | error
  | variable (name : String)
  | argument (index : Nat)
  | item (list : Expr) (index : Nat)
  /-- The value of a keyed value. -/
  | inner (keyed : Expr)
  /-- The key of a keyed value. -/
  | key (keyed : Expr)
  | payload (notification : Expr)
  | tag (notification : Expr)
  /-- The sum of two integers, in 64 bits. -/
  | add (left right : Expr)
  /-- The result of a timeout, or its error. -/
  | withinTime (keyed : Expr)

inductive Cond where
  | is (value : Expr) (kind : String)
  | eq (left right : Expr)
  | lt (left right : Expr)
  | errorIs (kind : String)
  | not (condition : Cond)

/-- The integer that a value counts as; anything but an integer of 64 bits counts as zero. -/
def integer (v : Value) : Int := (v.data?.bind Json.toInt?).getD 0

namespace Expr

mutual

def eval (scope : Scope) : Expr → Except TaskError Value
  | .constant v => .ok v
  | .list es => do return .list (← evalAll scope es)
  | .keyed k e => do return .keyed k (← e.eval scope)
  | .last => .ok scope.last
  | .error => .ok (scope.error.elim .unit fun e => .data (.string e.message))
  | .variable x => .ok ((scope.bound.lookup x).getD .unit)
  | .argument i => .ok (scope.args.getD i .unit)
  | .item e i => do return ((← e.eval scope).list?.bind (·[i]?)).getD .unit
  | .inner e => do return (← e.eval scope).keyed?.elim .unit Prod.snd
  | .key e => do return (← e.eval scope).keyed?.elim .unit fun k => .data (.string k.1)
  | .payload e => do return (← e.eval scope).notification?.elim .unit fun n => .data n.payload
  | .tag e => do return (← e.eval scope).notification?.elim .unit fun n => .data (.string n.tag)
  | .add a b => do
    let a ← a.eval scope
    let b ← b.eval scope
    return .data (.ofInt ((integer a + integer b).bmod (Nat.pow 2 64)))
  | .withinTime e => do (← e.eval scope).withinTime

def evalAll (scope : Scope) : List Expr → Except TaskError (List Value)
  | [] => .ok []
  | e :: rest => do
    let v ← e.eval scope
    let vs ← evalAll scope rest
    return v :: vs

end

end Expr

def Cond.holds (scope : Scope) : Cond → Except TaskError Bool
  | .is e kind => do return (← e.eval scope).kind.name == kind
  | .eq a b => do
    let a ← a.eval scope
    let b ← b.eval scope
    return a == b
  | .lt a b => do
    let a ← a.eval scope
    let b ← b.eval scope
    return integer a < integer b
  | .errorIs kind => .ok (scope.error.any fun e => e.kindName == kind)
  | .not c => do return !(← c.holds scope)

end CoopTasks.Routine
