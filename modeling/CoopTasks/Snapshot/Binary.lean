import CoopTasks.Binary
import CoopTasks.Snapshot

/-!
# Snapshots as bytes

The compact form of a snapshot. Fields follow one another in the order of their declaration.
Identifiers of schedulers and snapshots are sixteen bytes with their length, moments are texts.
-/

namespace CoopTasks

namespace Binary

def uuid (id : Uuid) : Bytes := bytes (natBytes id.value 16).reverse

def timestamp (t : Timestamp) : Bytes := text t.render

/-- The number of a variant in a list of all. -/
def variant {α : Type} [DecidableEq α] (variants : List α) (a : α) : Bytes :=
  nat32 (variants.idxOf a)

def buffering : Buffering → Bytes
  | .unbounded => nat32 0
  | .fixed capacity overflow => nat32 1 ++ nat64 capacity ++ variant Overflow.all overflow

def channelView (c : ChannelView) : Bytes :=
  nat64 c.id.val ++ buffering c.policy ++ nat64 c.buffered ++ nat64 c.pendingTakers ++
    nat64 c.blockedPutters ++ bool c.closed

def taskView (t : TaskView) : Bytes :=
  nat64 t.id.val ++ text t.name ++ option (fun id => nat64 id.val) t.parent ++
    list (fun id => nat64 id.val) t.children ++ variant Status.all t.status ++
    option text t.waitingOn ++ bool t.cancelling ++ timestamp t.createdAt

def snapshot (s : Snapshot) : Bytes :=
  nat32 s.version ++ uuid s.id ++ timestamp s.takenAt ++ uuid s.scheduler ++ nat64 s.clock ++
    list taskView s.tasks ++ list channelView s.channels ++ nat64 s.pendingTakers ++
    nat64 s.pendingOperations

end Binary

namespace Reader

def taskId : Reader TaskId := nat64.interpret fun n => some ⟨n⟩

def channelId : Reader ChannelId := nat64.interpret fun n => some ⟨n⟩

def uuid : Reader Uuid := bytes.interpret fun bs =>
  if bs.length = 16 then some ⟨bs.foldl (fun n b => 256 * n + b.toNat) 0⟩ else none

def timestamp : Reader Timestamp := text.interpret Timestamp.read?

def buffering : Reader Buffering := fun bs => do
  let (tag, bs) ← variant [false, true] bs
  if tag then
    let (capacity, bs) ← nat64 bs
    let (overflow, bs) ← variant Overflow.all bs
    some (.fixed capacity overflow, bs)
  else some (.unbounded, bs)

def channelView : Reader ChannelView := fun bs => do
  let (id, bs) ← channelId bs
  let (policy, bs) ← buffering bs
  let (buffered, bs) ← nat64 bs
  let (pendingTakers, bs) ← nat64 bs
  let (blockedPutters, bs) ← nat64 bs
  let (closed, bs) ← bool bs
  some ({ id, policy, buffered, pendingTakers, blockedPutters, closed }, bs)

def taskView : Reader TaskView := fun bs => do
  let (id, bs) ← taskId bs
  let (name, bs) ← text bs
  let (parent, bs) ← option taskId bs
  let (children, bs) ← list taskId bs
  let (status, bs) ← variant Status.all bs
  let (waitingOn, bs) ← option text bs
  let (cancelling, bs) ← bool bs
  let (createdAt, bs) ← timestamp bs
  some ({ id, name, parent, children, status, waitingOn, cancelling, createdAt }, bs)

def snapshot : Reader Snapshot := fun bs => do
  let (version, bs) ← nat32 bs
  let (id, bs) ← uuid bs
  let (takenAt, bs) ← timestamp bs
  let (scheduler, bs) ← uuid bs
  let (clock, bs) ← nat64 bs
  let (tasks, bs) ← list taskView bs
  let (channels, bs) ← list channelView bs
  let (pendingTakers, bs) ← nat64 bs
  let (pendingOperations, bs) ← nat64 bs
  some (⟨version, id, takenAt, scheduler, clock, tasks, channels, pendingTakers,
    pendingOperations⟩, bs)

end Reader

namespace Snapshot

def toBytes (s : Snapshot) : Bytes := Binary.snapshot s

/-- Bytes after the snapshot are ignored. -/
def ofBytes (bs : Bytes) : Except SnapshotError Snapshot :=
  accept ((Reader.snapshot bs).map Prod.fst)

end Snapshot

end CoopTasks
