import CoopTasks.Effect.Validity
import CoopTasks.Scheduler.Settle

/-!
# Carrying out effects

What each effect does to the scheduler. A task whose effect is answered at once is put before all
that is queued, so it runs on without interruption; the tasks that an effect wakes are put before
it. An effect that names a task or a channel that never existed is a violation and changes nothing.
-/

namespace CoopTasks.Scheduler

variable {P R W : Type}

/-- Answers an effect at once. -/
def answer (s : Scheduler P R W) (id : TaskId) (v : Value) : Scheduler P R W :=
  s.wakeFirst id (.value v)

/-- Resumes several tasks with one value, the first of them before the others. -/
def wakeAll (s : Scheduler P R W) (ids : List TaskId) (v : Value) : Scheduler P R W :=
  ids.reverse.foldl (fun s id => s.answer id v) s

def call (s : Scheduler P R W) (id : TaskId) (operation : Operation W) (args : List Value) :
    Scheduler P R W :=
  let (outcome, pending, world) := s.pending.carryOut id (operation.invoke args id s.world)
  let s := { s with pending, world }
  match outcome with
  | .answered result => s.wakeFirst id (.ofResult result)
  | .awaiting op => s.suspend id (.operation op)

def callProcess (s : Scheduler P R W) (h : Host P R W) (id : TaskId) (process : P)
    (args : List Value) : Scheduler P R W :=
  let (child, s) := s.spawn h process args (some id) .called
  (s.suspend id (.call child)).enqueueFirst child (.value .unit)

def put (s : Scheduler P R W) (h : Host P R W) (id : TaskId) (n : Notification) :
    Scheduler P R W :=
  let (takers, s) := s.publish h n
  (s.answer id .unit).wakeAll takers (.notification n)

/-- The task that a fork belongs to: the nearest one that is not a branch of a group. -/
def forkOwner (s : Scheduler P R W) (id : TaskId) : TaskId :=
  ((s.lineage id).find? fun ancestor => !(s.task? ancestor).any Task.isBranch).getD id

def fork (s : Scheduler P R W) (h : Host P R W) (id : TaskId) (process : P) (args : List Value) :
    Scheduler P R W :=
  let (child, s) := s.spawn h process args (some (s.forkOwner id)) .forked
  (s.enqueueLast child (.value .unit)).answer id (.task child)

/-- A task that has settled is joined at once, as long as its record is kept. -/
def join (s : Scheduler P R W) (id target : TaskId) : Except Violation (Scheduler P R W) :=
  if s.isLive target then
    .ok ((s.updateTask target fun t => { t with joiners := t.joiners ++ [id] }).suspend id
      (.join target))
  else
    match s.settled? target with
    | some record => .ok (s.wakeFirst id record.answer)
    | none =>
      if s.issued target then .ok (s.wakeFirst id (.error (.resultEvicted target)))
      else .error (.unknownTask target)

/-- The caller goes on after every signal has been delivered. If it belongs to the cancelled tree it
gets its own signal instead of an answer. -/
def cancel (s : Scheduler P R W) (id target : TaskId) : Except Violation (Scheduler P R W) :=
  if s.isLive target then
    if target ∈ s.lineage id then .ok (s.cancelSubtree target)
    else .ok ((s.answer id .unit).cancelSubtree target)
  else if s.issued target then .ok (s.answer id .unit)
  else .error (.unknownTask target)

/-- Adds a branch task for each effect of a group, in order. -/
def addBranches (s : Scheduler P R W) (owner : TaskId) (group : GroupId) (mode : GroupMode) :
    Nat → List (Effect P W) → List TaskId × Scheduler P R W
  | _, [] => ([], s)
  | slot, effect :: rest =>
    let (branch, s) :=
      s.addTask (mode.label slot) (some owner) (.branch group slot) (.script [effect])
    let (branches, s) := s.addBranches owner group mode (slot + 1) rest
    (branch :: branches, s)

/-- Runs effects as the branches of a group. -/
def startGroup (s : Scheduler P R W) (id : TaskId) (mode : GroupMode)
    (effects : List (Effect P W)) : Scheduler P R W :=
  if effects.isEmpty then s.answer id (.list [])
  else
    let group : GroupId := ⟨s.nextGroup⟩
    let (branches, s) :=
      { s with nextGroup := s.nextGroup + 1 }.addBranches id group mode 0 effects
    let s := s.suspend id (.group group)
    { s with
      queue := branches.map (fun branch => (branch, .value .unit)) ++ s.queue
      groups := s.groups.insert group ⟨id, mode, branches, effects.map fun _ => none⟩ }

def openChannel (s : Scheduler P R W) (id : TaskId) (policy : Buffering) : Scheduler P R W :=
  let channel : ChannelId := ⟨s.nextChannel⟩
  { s with
    channels := s.channels.insert channel { policy }
    nextChannel := s.nextChannel + 1 }.answer id (.channel channel)

def setChannel (s : Scheduler P R W) (id : ChannelId) (c : Channel) : Scheduler P R W :=
  { s with channels := s.channels.modify id fun _ => c }

def channelTake (s : Scheduler P R W) (id : TaskId) (channel : ChannelId) :
    Except Violation (Scheduler P R W) :=
  match s.channels.find? channel with
  | none => .error (.unknownChannel channel)
  | some c =>
    match c.take id with
    | (.ready v (some putter), c) =>
      .ok (((s.setChannel channel c).answer putter .unit).answer id v)
    | (.ready v none, c) => .ok ((s.setChannel channel c).answer id v)
    | (.pending, c) => .ok ((s.setChannel channel c).suspend id (.channelTake channel))
    | (.closed, c) => .ok ((s.setChannel channel c).answer id .closed)

def channelPut (s : Scheduler P R W) (id : TaskId) (channel : ChannelId) (v : Value) :
    Except Violation (Scheduler P R W) :=
  match s.channels.find? channel with
  | none => .error (.unknownChannel channel)
  | some c =>
    match c.put id v with
    | (.delivered taker, c) => .ok (((s.setChannel channel c).answer id .unit).answer taker v)
    | (.buffered, c) | (.dropped, c) => .ok ((s.setChannel channel c).answer id .unit)
    | (.blocked, c) => .ok ((s.setChannel channel c).suspend id (.channelPut channel))
    | (.overflowed capacity, c) =>
      .ok ((s.setChannel channel c).wakeFirst id (.error (.bufferOverflow channel capacity)))

/-- Takers learn that the channel is closed before its putters go on, and those before the task that
closed it. -/
def channelClose (s : Scheduler P R W) (id : TaskId) (channel : ChannelId) :
    Except Violation (Scheduler P R W) :=
  match s.channels.find? channel with
  | none => .error (.unknownChannel channel)
  | some c =>
    let s := (s.setChannel channel c.close).answer id .unit
    .ok ((s.wakeAll (c.putters.map (·.1)) .unit).wakeAll c.takers .closed)

/-- The state of the application, or null if there is none, as the selector shows it. -/
def select (s : Scheduler P R W) (h : Host P R W) (id : TaskId) (selector : Option Selector) :
    Scheduler P R W :=
  let state := h.state.elim Json.null fun read => read s.world
  s.answer id (.data (selector.elim state fun selector => selector.project state))

/-- Whether a task is being cancelled, and not torn down for the failure of a child. -/
def isCancelled (s : Scheduler P R W) (id : TaskId) : Bool :=
  (s.task? id).any fun t => t.cancelling && t.abort.isNone

/-- Carries out a valid effect. -/
def carryOut (s : Scheduler P R W) (h : Host P R W) (id : TaskId) :
    Effect P W → Except Violation (Scheduler P R W)
  | .call operation args => .ok (s.call id operation args)
  | .callProcess process args => .ok (s.callProcess h id process args)
  | .put n => .ok (s.put h id n)
  | .take (.channel channel) => s.channelTake id channel
  | .take pattern => .ok ({ s with takers := s.takers ++ [(id, pattern)] }.suspend id .take)
  | .fork process args => .ok (s.fork h id process args)
  | .join target => s.join id target
  | .cancel target => s.cancel id target
  | .cancelled => .ok (s.answer id (.bool (s.isCancelled id)))
  | .all effects => .ok (s.startGroup id .all effects)
  | .race branches =>
    .ok (s.startGroup id (.race (branches.map Prod.fst)) (branches.map Prod.snd))
  | .channel policy => .ok (s.openChannel id policy)
  | .channelTake channel => s.channelTake id channel
  | .channelPut channel v => s.channelPut id channel v
  | .channelClose channel => s.channelClose id channel
  | .select selector => .ok (s.select h id selector)

/-- Ends a task that broke the contract. -/
def violate (s : Scheduler P R W) (h : Host P R W) (id : TaskId) (violation : Violation) :
    Scheduler P R W :=
  s.finish h id (.error (.protocol violation))

/-- Checks an effect, enters it into the journal and carries it out. -/
def dispatch (s : Scheduler P R W) (h : Host P R W) (id : TaskId) (effect : Effect P W) :
    Scheduler P R W :=
  match effect.violation? with
  | some violation => s.violate h id violation
  | none =>
    let s := s.note h id effect
    match s.carryOut h id effect with
    | .ok s => s
    | .error violation => s.violate h id violation

end CoopTasks.Scheduler
