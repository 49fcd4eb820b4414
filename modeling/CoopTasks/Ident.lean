/-!
# Identifiers

Tasks, channels, pending operations and groups are numbered from one in the order in which they are
created. Numbers are never reused, so an identifier of something gone is told apart from one that
was never handed out by comparing it with the next number.
-/

namespace CoopTasks

structure TaskId where
  val : Nat
deriving DecidableEq, Repr, Inhabited

structure ChannelId where
  val : Nat
deriving DecidableEq, Repr, Inhabited

structure OperationId where
  val : Nat
deriving DecidableEq, Repr, Inhabited

/-- A group of branch tasks started for one ALL or RACE. -/
structure GroupId where
  val : Nat
deriving DecidableEq, Repr, Inhabited

instance : ToString TaskId := ⟨fun id => s!"task-{id.val}"⟩

instance : ToString ChannelId := ⟨fun id => s!"chan-{id.val}"⟩

instance : ToString OperationId := ⟨fun id => s!"op-{id.val}"⟩

instance : ToString GroupId := ⟨fun id => s!"{id.val}"⟩

end CoopTasks
