import CoopTasks.Process

/-!
# The world of routines

What routines, operations and observers leave behind: a log of events, the number of routines
started so far, and how often each tag was published.
-/

namespace CoopTasks.Routine

/-- Something that was seen to happen. -/
inductive Event where
  /-- A routine was stepped. -/
  | step (process : String) (number : Nat) (input : Input)
  /-- A routine logged a value. -/
  | log (process : String) (number : Nat) (value : Value)
  /-- An operation was invoked. The task is left out if the operation does not see it. -/
  | invoke (operation : String) (task : Option TaskId) (args : List Value)
  /-- An observer was shown a notification. -/
  | publish (sink : Nat) (notification : Notification)

structure World where
  events : Array Event := #[]
  /-- The number of routines started so far. -/
  started : Nat := 0
  /-- How often each tag was published. -/
  tally : List (String × Nat) := []

namespace World

def record (w : World) (event : Event) : World := { w with events := w.events.push event }

def clearEvents (w : World) : World := { w with events := #[] }

def count (w : World) (tag : String) : World :=
  { w with tally := (tag, (w.tally.lookup tag).getD 0 + 1) :: w.tally.filter (·.1 ≠ tag) }

/-- The tally as an object. -/
def tallyJson (w : World) : Json :=
  .ofMembers (w.tally.map fun entry => (entry.1, .ofNat entry.2))

/-- The observer with the given number. The first one keeps the tally. -/
def sink (index : Nat) (n : Notification) (w : World) : World :=
  let w := w.record (.publish index n)
  if index = 0 then w.count n.tag else w

end World

end CoopTasks.Routine
