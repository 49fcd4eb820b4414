import CoopTasks.Json.Decode
import CoopTasks.Json.Printer

/-!
# Configuration

What can be tuned about a scheduler. Every field has a default, so a document may leave out any.
-/

namespace CoopTasks

structure Config where
  /-- The process steps allowed in one run. -/
  maxSteps : Nat := 100000
  /-- Whether every dispatched effect goes into the journal. -/
  recordDispatches : Bool := false
  /-- How many settled tasks stay known. -/
  maxSettled : Nat := 10000
deriving DecidableEq, Repr

inductive BuildError where
  | zeroStepBudget
  | zeroSettledRecords
deriving DecidableEq, Repr

def BuildError.message : BuildError → String
  | .zeroStepBudget => "Step budget must be at least 1. Set max_steps_per_run to a positive value"
  | .zeroSettledRecords =>
    "At least one settled task record must be kept. Set max_settled_records to a positive value"

namespace Config

/-- Why no scheduler can be built with the configuration, if so. -/
def error? (c : Config) : Option BuildError :=
  if c.maxSteps = 0 then some .zeroStepBudget
  else if c.maxSettled = 0 then some .zeroSettledRecords
  else none

def toJson (c : Config) : Json :=
  .object [
    ("max_steps_per_run", .ofNat c.maxSteps),
    ("record_dispatches", .bool c.recordDispatches),
    ("max_settled_records", .ofNat c.maxSettled)]

def decoder : Decoder Config :=
  .record ["max_steps_per_run", "record_dispatches", "max_settled_records"] fun room fields => do
    let [steps, record, settled] := fields | none
    let defaults : Config := {}
    some {
      maxSteps := ← Decoder.defaulting .nat64 defaults.maxSteps room steps
      recordDispatches := ← Decoder.defaulting .bool defaults.recordDispatches room record
      maxSettled := ← Decoder.defaulting .nat64 defaults.maxSettled room settled }

/-- The configuration that a text holds. -/
def read? (text : String) : Option Config := Decoder.decode? decoder text

def write (c : Config) : String := c.toJson.pretty

end Config

end CoopTasks
