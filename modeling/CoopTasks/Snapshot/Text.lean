import CoopTasks.Json.Decode
import CoopTasks.Json.Printer
import CoopTasks.Snapshot

/-!
# Snapshots as JSON

How a snapshot and its parts are written as JSON and read back. Readers check the version last.
-/

namespace CoopTasks

namespace Decoder

def taskId : Decoder TaskId := fun room document => (nat64 room document).map TaskId.mk

def channelId : Decoder ChannelId := fun room document => (nat64 room document).map ChannelId.mk

def operationId : Decoder OperationId := fun room document =>
  (nat64 room document).map OperationId.mk

def status : Decoder Status := choice Status.ofName?

def overflow : Decoder Overflow := choice Overflow.ofName?

def uuid : Decoder Uuid := fun room document => (string room document).bind Uuid.read?

def timestamp : Decoder Timestamp := fun room document =>
  (string room document).bind Timestamp.read?

/-- The variant without fields is a name, or maps its name to null. -/
def buffering : Decoder Buffering := fun room document =>
  match room, document with
  | room + 1, .object [(q, fields)] =>
    if q.toString? = some "Fixed" then
      record ["capacity", "overflow"] (fun room fields => do
        let [capacity, overflow] := fields | none
        some (.fixed (← required nat64 room capacity) (← required Decoder.overflow room overflow)))
        room fields
    else choice unbounded? (room + 1) document
  | room, document => choice unbounded? room document
where
  unbounded? (name : String) : Option Buffering :=
    if name = "Unbounded" then some .unbounded else none

def channelView : Decoder ChannelView :=
  record ["id", "policy", "buffered", "pending_takers", "blocked_putters", "closed"]
    fun room fields => do
      let [id, policy, buffered, takers, putters, closed] := fields | none
      some {
        id := ← required channelId room id
        policy := ← required buffering room policy
        buffered := ← required nat64 room buffered
        pendingTakers := ← required nat64 room takers
        blockedPutters := ← required nat64 room putters
        closed := ← required bool room closed }

def taskView : Decoder TaskView :=
  record ["id", "name", "parent", "children", "status", "waiting_on", "cancelling", "created_at"]
    fun room fields => do
      let [id, name, parent, children, status, waitingOn, cancelling, createdAt] := fields | none
      some {
        id := ← required taskId room id
        name := ← required string room name
        parent := ← defaulting (option taskId) none room parent
        children := ← required (list taskId) room children
        status := ← required Decoder.status room status
        waitingOn := ← defaulting (option string) none room waitingOn
        cancelling := ← required bool room cancelling
        createdAt := ← required timestamp room createdAt }

def snapshot : Decoder Snapshot :=
  record ["version", "id", "taken_at", "scheduler", "clock_ms", "tasks", "channels",
      "pending_takers", "pending_operations"]
    fun room fields => do
      let [version, id, takenAt, scheduler, clock, tasks, channels, takers, operations] := fields
        | none
      some {
        version := ← required nat32 room version
        id := ← required uuid room id
        takenAt := ← required timestamp room takenAt
        scheduler := ← required uuid room scheduler
        clock := ← required nat64 room clock
        tasks := ← required (list taskView) room tasks
        channels := ← required (list channelView) room channels
        pendingTakers := ← required nat64 room takers
        pendingOperations := ← required nat64 room operations }

end Decoder

def Buffering.toJson : Buffering → Json
  | .unbounded => .string "Unbounded"
  | .fixed capacity overflow =>
    .object [("Fixed",
      .object [("capacity", .ofNat capacity), ("overflow", .string overflow.name)])]

def ChannelView.toJson (c : ChannelView) : Json :=
  .object [
    ("id", .ofNat c.id.val),
    ("policy", c.policy.toJson),
    ("buffered", .ofNat c.buffered),
    ("pending_takers", .ofNat c.pendingTakers),
    ("blocked_putters", .ofNat c.blockedPutters),
    ("closed", .bool c.closed)]

def TaskView.toJson (t : TaskView) : Json :=
  .object [
    ("id", .ofNat t.id.val),
    ("name", .string t.name),
    ("parent", t.parent.elim .null fun id => .ofNat id.val),
    ("children", .array (t.children.map fun id => .ofNat id.val)),
    ("status", .string t.status.name),
    ("waiting_on", t.waitingOn.elim .null .string),
    ("cancelling", .bool t.cancelling),
    ("created_at", .string t.createdAt.render)]

namespace Snapshot

def toJson (s : Snapshot) : Json :=
  .object [
    ("version", .ofNat s.version),
    ("id", .string s.id.render),
    ("taken_at", .string s.takenAt.render),
    ("scheduler", .string s.scheduler.render),
    ("clock_ms", .ofNat s.clock),
    ("tasks", .array (s.tasks.map TaskView.toJson)),
    ("channels", .array (s.channels.map ChannelView.toJson)),
    ("pending_takers", .ofNat s.pendingTakers),
    ("pending_operations", .ofNat s.pendingOperations)]

def write (s : Snapshot) : String := s.toJson.pretty

def read (text : String) : Except SnapshotError Snapshot :=
  accept (Decoder.decode? Decoder.snapshot text)

end Snapshot

end CoopTasks
