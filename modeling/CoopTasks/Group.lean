import CoopTasks.Process

/-!
# Groups

Bookkeeping for one ALL or RACE. Every nested effect runs in a branch task of its own; the group
collects what the branches end with and decides when the task that asked for it goes on.
-/

namespace CoopTasks

inductive GroupMode where
  | all
  | race (keys : List String)
deriving DecidableEq, Repr

structure Group where
  owner : TaskId
  mode : GroupMode
  /-- The branch tasks, in the order of the effects. -/
  branches : List TaskId
  /-- The results so far, by slot. -/
  results : List (Option Value)

namespace GroupMode

/-- The name of the branch task in a slot. -/
def label (mode : GroupMode) (slot : Nat) : String :=
  match mode with
  | .all => s!"ALL[{slot}]"
  | .race keys => s!"RACE[{keys.getD slot (toString slot)}]"

end GroupMode

namespace Group

/-- Takes note of the outcome of a branch. The group resolves with the first error; a race also with
the first result, and an ALL with the last one. -/
def settle (group : Group) (slot : Nat) (outcome : Outcome) : Group × Option Input :=
  match outcome, group.mode with
  | .error e, _ => (group, some (.error e))
  | .ok v, .race keys => (group, some (.value (.keyed (keys.getD slot "") v)))
  | .ok v, .all =>
    let group := { group with results := group.results.set slot (some v) }
    if group.results.all Option.isSome then
      (group, some (.value (.list (group.results.filterMap id))))
    else (group, none)

theorem settle_owner (group : Group) (slot : Nat) (outcome : Outcome) :
    (group.settle slot outcome).1.owner = group.owner := by
  unfold settle
  split
  · rfl
  · rfl
  · dsimp only
    split <;> rfl

end Group

end CoopTasks
