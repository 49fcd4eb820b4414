import CoopTasks.Effect

/-!
# Timeouts

A timeout is nothing new: it races an effect against a delay. The winner's key tells whether the
effect or the deadline came first.
-/

namespace CoopTasks

/-- The key of the guarded effect. -/
def resultKey : String := "result"

/-- The key of the deadline. -/
def timedOutKey : String := "timedOut"

/-- Races an effect against a delay of so many milliseconds. -/
def Effect.timeout {P W : Type} (effect : Effect P W) (ms : Nat) : Effect P W :=
  .race [(resultKey, effect), (timedOutKey, .call .delay [.data (.ofNat ms)])]

/-- The result of the guarded effect, or the error of a deadline that passed. -/
def Value.withinTime : Value → Except TaskError Value
  | .keyed key value => if key = resultKey then .ok value else .error (.failure "timed out")
  | _ => .error (.failure "timed out")

end CoopTasks
