import CoopTasks.Config
import CoopTasks.Group
import CoopTasks.Pending
import CoopTasks.Task

/-!
# The state of a scheduler

A scheduler holds the tree of live tasks, the queue of tasks to step, and the tables in which
suspended tasks wait. What does not change during its life stands apart in a `Host`: the program,
the observers of the bus, the state that SELECT reads, and the configuration.

A live task names its parent and lists its children. Children are younger than their parent, so the
ways up and down the tree are no longer than the numbers handed out so far.
-/

namespace CoopTasks

/-- What a scheduler is run with. -/
structure Host (P R W : Type) where
  program : Program P R W
  /-- Observers of every published notification. -/
  sinks : List (Notification → W → W) := []
  /-- The state of the application, if there is any. -/
  state : Option (W → Json) := none
  config : Config := {}

/-- An effect that was dispatched. -/
structure Dispatch (P W : Type) where
  seq : Nat
  task : TaskId
  effect : Effect P W

structure Scheduler (P R W : Type) where
  tasks : Table TaskId (Task P R W) := .empty
  /-- The tasks to step, each with its input. -/
  queue : List (TaskId × Input) := []
  /-- The tasks that wait for a notification, in the order in which they asked. -/
  takers : List (TaskId × Pattern) := []
  channels : Table ChannelId Channel := .empty
  groups : Table GroupId Group := .empty
  pending : Pending := {}
  /-- The tasks that settled last, the latest first. -/
  settled : List Settlement := []
  unhandled : List Unhandled := []
  /-- The breach of the contract for which the run is to be stopped. -/
  fault : Option HostError := none
  journal : Array (Dispatch P W) := #[]
  nextTask : Nat := 1
  nextChannel : Nat := 1
  nextGroup : Nat := 1
  nextSeq : Nat := 0
  world : W

namespace Scheduler

variable {P R W : Type}

def task? (s : Scheduler P R W) (id : TaskId) : Option (Task P R W) := s.tasks.find? id

def isLive (s : Scheduler P R W) (id : TaskId) : Bool := s.tasks.contains id

/-- What a live task waits for. -/
def wait? (s : Scheduler P R W) (id : TaskId) : Option Wait := (s.task? id).map Task.wait

/-- Whether a task of this number was ever spawned. -/
def issued (s : Scheduler P R W) (id : TaskId) : Bool := 1 ≤ id.val && id.val < s.nextTask

def settled? (s : Scheduler P R W) (id : TaskId) : Option Settlement :=
  s.settled.find? fun record => record.task = id

def updateTask (s : Scheduler P R W) (id : TaskId) (f : Task P R W → Task P R W) :
    Scheduler P R W :=
  { s with tasks := s.tasks.modify id f }

def parent? (s : Scheduler P R W) (id : TaskId) : Option TaskId := (s.task? id).bind Task.parent

/-- The live children of a task, in the order of spawning. -/
def children (s : Scheduler P R W) (id : TaskId) : List TaskId :=
  (s.task? id).elim [] Task.children

/-- A task and its ancestors, up to a number of steps. -/
def lineageWithin (s : Scheduler P R W) : Nat → TaskId → List TaskId
  | 0, id => [id]
  | fuel + 1, id =>
    match s.parent? id with
    | some parent => id :: s.lineageWithin fuel parent
    | none => [id]

/-- A task and its ancestors, the task itself first. -/
def lineage (s : Scheduler P R W) (id : TaskId) : List TaskId := s.lineageWithin s.nextTask id

/-- The live tasks below a task and the task itself, as far down as a number of levels. -/
def subtreeWithin (s : Scheduler P R W) : Nat → TaskId → List TaskId
  | 0, _ => []
  | fuel + 1, id =>
    if s.isLive id then (s.children id).flatMap (s.subtreeWithin fuel) ++ [id] else []

/-- The live tasks below a task and the task itself, every task after its children. -/
def subtree (s : Scheduler P R W) (id : TaskId) : List TaskId := s.subtreeWithin s.nextTask id

theorem isLive_eq (s : Scheduler P R W) (id : TaskId) : s.isLive id = (s.task? id).isSome := rfl

@[simp] theorem task?_updateTask (s : Scheduler P R W) (id j : TaskId)
    (f : Task P R W → Task P R W) :
    (s.updateTask id f).task? j = if j = id then (s.task? j).map f else s.task? j :=
  Table.find?_modify s.tasks id j f

theorem keys_updateTask (s : Scheduler P R W) (id : TaskId) (f : Task P R W → Task P R W) :
    (s.updateTask id f).tasks.keys = s.tasks.keys :=
  Table.keys_modify s.tasks id f

def enqueueFirst (s : Scheduler P R W) (id : TaskId) (input : Input) : Scheduler P R W :=
  { s with queue := (id, input) :: s.queue }

def enqueueLast (s : Scheduler P R W) (id : TaskId) (input : Input) : Scheduler P R W :=
  { s with queue := s.queue ++ [(id, input)] }

/-- Makes a task ready to be stepped. -/
def makeReady (s : Scheduler P R W) (id : TaskId) : Scheduler P R W :=
  s.updateTask id fun t => { t with wait := .nothing, status := .running }

/-- Resumes a task before all that are queued. -/
def wakeFirst (s : Scheduler P R W) (id : TaskId) (input : Input) : Scheduler P R W :=
  (s.makeReady id).enqueueFirst id input

/-- Resumes a task after all that are queued. -/
def wakeLast (s : Scheduler P R W) (id : TaskId) (input : Input) : Scheduler P R W :=
  (s.makeReady id).enqueueLast id input

def suspend (s : Scheduler P R W) (id : TaskId) (wait : Wait) : Scheduler P R W :=
  s.updateTask id fun t => { t with wait := wait, status := .waiting }

/-- Resumes a task if it still waits as stated. -/
def wakeIfWaiting (s : Scheduler P R W) (id : TaskId) (wait : Wait) (input : Input) :
    Scheduler P R W :=
  if s.wait? id = some wait then s.wakeFirst id input else s

/-- Enters a child at the end of the list of its parent. -/
def addChild (s : Scheduler P R W) (child : TaskId) : Option TaskId → Scheduler P R W
  | none => s
  | some parent => s.updateTask parent fun t => { t with children := t.children ++ [child] }

/-- Takes a child off the list of its parent. -/
def dropChild (s : Scheduler P R W) (child : TaskId) : Option TaskId → Scheduler P R W
  | none => s
  | some parent =>
    s.updateTask parent fun t => { t with children := t.children.filter (· ≠ child) }

/-- Adds a task with the next number. It is not queued yet. -/
def addTask (s : Scheduler P R W) (name : String) (parent : Option TaskId) (role : Role)
    (process : Process P R W) : TaskId × Scheduler P R W :=
  let id : TaskId := ⟨s.nextTask⟩
  let s := s.addChild id parent
  (id, { s with
    tasks := s.tasks.insert id { name, parent, role, process := some process }
    nextTask := s.nextTask + 1 })

/-- Starts the process behind a handle as a task. -/
def spawn (s : Scheduler P R W) (h : Host P R W) (process : P) (args : List Value)
    (parent : Option TaskId) (role : Role) : TaskId × Scheduler P R W :=
  let (started, world) := h.program.spawn process args s.world
  { s with world }.addTask (h.program.name process) parent role started

/-- Shows a notification to every observer, and takes out the tasks that waited for it. -/
def publish (s : Scheduler P R W) (h : Host P R W) (n : Notification) :
    List TaskId × Scheduler P R W :=
  let (matched, others) := s.takers.partition fun taker => taker.2.accepts n
  (matched.map Prod.fst,
    { s with takers := others, world := h.sinks.foldl (fun world sink => sink n world) s.world })

/-- Keeps the record of a settled task, and forgets the oldest beyond the limit. -/
def remember (s : Scheduler P R W) (h : Host P R W) (record : Settlement) : Scheduler P R W :=
  { s with settled := (record :: s.settled).take h.config.maxSettled }

/-- Keeps a violation by a task for the host, unless one is kept already. -/
def raise (s : Scheduler P R W) (id : TaskId) (violation : Violation) : Scheduler P R W :=
  { s with fault := s.fault.or (some (.protocol (some id) violation)) }

/-- Enters a dispatched effect into the journal, if one is kept. -/
def note (s : Scheduler P R W) (h : Host P R W) (id : TaskId) (effect : Effect P W) :
    Scheduler P R W :=
  if h.config.recordDispatches then
    { s with journal := s.journal.push ⟨s.nextSeq, id, effect⟩, nextSeq := s.nextSeq + 1 }
  else s

end Scheduler

end CoopTasks
