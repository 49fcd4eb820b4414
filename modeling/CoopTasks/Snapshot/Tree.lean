import CoopTasks.Snapshot

/-!
# The tree of tasks as text

One task a line, indented below its parent. The children of a task are looked up by their
identifiers, so a snapshot that was stored by someone else may lead round in a circle; then the tree
has no end and there is no text. Where it ends no path is longer than the number of tasks.
-/

namespace CoopTasks.Snapshot

/-- The line of a task at some depth. -/
def line (depth : Nat) (t : TaskView) : String :=
  String.ofList (List.replicate (2 * depth) ' ') ++ s!"{t.id} {t.name} [{t.status}" ++
    t.waitingOn.elim "" (fun wait => s!": {wait}") ++ "]" ++
    if t.cancelling then " (cancelling)" else ""

/-- The lines of a task and of those below it, unless a path is longer than the fuel allows. -/
def linesBelow (s : Snapshot) : Nat → Nat → TaskView → Option (List String)
  | 0, _, _ => none
  | fuel + 1, depth, t => do
    let below ← (t.children.filterMap s.task?).mapM (s.linesBelow fuel (depth + 1))
    some (line depth t :: below.flatten)

/-- The lines of the tree, if it has an end. -/
def treeLines? (s : Snapshot) : Option (List String) := do
  let trees ← s.roots.mapM (s.linesBelow s.tasks.length 0)
  some trees.flatten

/-- The tree as text, if it has an end. -/
def tree? (s : Snapshot) : Option String :=
  s.treeLines?.map fun lines => String.join (lines.map (· ++ "\n"))

end CoopTasks.Snapshot
