/-!
# Status of a task

A task is `running` or `waiting` until it settles in one of the three terminal statuses.
-/

namespace CoopTasks

inductive Status where
  /-- Ready to be stepped, or being stepped. -/
  | running
  /-- Suspended on an effect, or on the settlement of its children. -/
  | waiting
  | completed
  | failed
  | cancelled
deriving DecidableEq, Repr

namespace Status

def name : Status → String
  | running => "Running"
  | waiting => "Waiting"
  | completed => "Completed"
  | failed => "Failed"
  | cancelled => "Cancelled"

def all : List Status := [running, waiting, completed, failed, cancelled]

def ofName? (name : String) : Option Status := all.find? fun status => status.name == name

def isTerminal : Status → Bool
  | running | waiting => false
  | completed | failed | cancelled => true

/-- Cancellation is a signal, not an error. -/
def isError : Status → Bool
  | failed => true
  | _ => false

instance : ToString Status := ⟨name⟩

end Status

end CoopTasks
