import CoopTasks.Channel
import CoopTasks.Operation
import CoopTasks.Pattern

/-!
# Effects

What a task asks of the scheduler, as plain data: building an effect does nothing. Processes are
mentioned by handles of type `P`; handles, operations, selectors and predicates are compared by
name.
-/

namespace CoopTasks

/-- A named view of the state of the application. -/
structure Selector where
  name : String
  project : Json → Json

inductive Effect (P W : Type) where
  /-- Calls an operation and waits for its result. -/
  | call (operation : Operation W) (args : List Value)
  /-- Runs a process as a child and waits for its result. -/
  | callProcess (process : P) (args : List Value)
  | put (notification : Notification)
  | take (pattern : Pattern)
  /-- Runs a process as a child without waiting. -/
  | fork (process : P) (args : List Value)
  | join (task : TaskId)
  | cancel (task : TaskId)
  /-- Asks whether the task itself is being cancelled. -/
  | cancelled
  /-- Runs all and waits for every result. -/
  | all (effects : List (Effect P W))
  /-- Runs all and waits for the first result; the keys tell which one it was. -/
  | race (branches : List (String × Effect P W))
  | channel (policy : Buffering)
  | channelTake (channel : ChannelId)
  | channelPut (channel : ChannelId) (value : Value)
  | channelClose (channel : ChannelId)
  /-- Reads the state of the application, or a part of it. -/
  | select (selector : Option Selector)

namespace Effect

inductive Kind where
  | call | put | take | fork | join | cancel | cancelled | all | race | channel | channelTake
  | channelPut | channelClose | select
deriving DecidableEq, Repr

/-- The name of a kind as shown. -/
def Kind.name : Kind → String
  | .call => "CALL"
  | .put => "PUT"
  | .take => "TAKE"
  | .fork => "FORK"
  | .join => "JOIN"
  | .cancel => "CANCEL"
  | .cancelled => "CANCELLED"
  | .all => "ALL"
  | .race => "RACE"
  | .channel => "CHANNEL"
  | .channelTake => "CHANNEL_TAKE"
  | .channelPut => "CHANNEL_PUT"
  | .channelClose => "CHANNEL_CLOSE"
  | .select => "SELECT"

/-- The name of a kind as stored in a document. -/
def Kind.tag : Kind → String
  | .call => "Call"
  | .put => "Put"
  | .take => "Take"
  | .fork => "Fork"
  | .join => "Join"
  | .cancel => "Cancel"
  | .cancelled => "Cancelled"
  | .all => "All"
  | .race => "Race"
  | .channel => "Channel"
  | .channelTake => "ChannelTake"
  | .channelPut => "ChannelPut"
  | .channelClose => "ChannelClose"
  | .select => "Select"

def Kind.every : List Kind :=
  [.call, .put, .take, .fork, .join, .cancel, .cancelled, .all, .race, .channel, .channelTake,
    .channelPut, .channelClose, .select]

def Kind.ofTag? (tag : String) : Option Kind := Kind.every.find? fun kind => kind.tag == tag

variable {P W : Type}

def kind : Effect P W → Kind
  | .call _ _ | .callProcess _ _ => .call
  | .put _ => .put
  | .take _ => .take
  | .fork _ _ => .fork
  | .join _ => .join
  | .cancel _ => .cancel
  | .cancelled => .cancelled
  | .all _ => .all
  | .race _ => .race
  | .channel _ => .channel
  | .channelTake _ => .channelTake
  | .channelPut _ _ => .channelPut
  | .channelClose _ => .channelClose
  | .select _ => .select

mutual

/-- Equality of effects, given the names of processes. -/
def same (name : P → String) : Effect P W → Effect P W → Bool
  | .call f as, .call g bs => f.name == g.name && as == bs
  | .callProcess p as, .callProcess q bs => name p == name q && as == bs
  | .put m, .put n => m == n
  | .take p, .take q => p.same q
  | .fork p as, .fork q bs => name p == name q && as == bs
  | .join a, .join b => a == b
  | .cancel a, .cancel b => a == b
  | .cancelled, .cancelled => true
  | .all xs, .all ys => sameEffects name xs ys
  | .race xs, .race ys => sameBranches name xs ys
  | .channel a, .channel b => a == b
  | .channelTake a, .channelTake b => a == b
  | .channelPut a v, .channelPut b w => a == b && v == w
  | .channelClose a, .channelClose b => a == b
  | .select a, .select b => a.map Selector.name == b.map Selector.name
  | _, _ => false

def sameEffects (name : P → String) : List (Effect P W) → List (Effect P W) → Bool
  | [], [] => true
  | x :: xs, y :: ys => same name x y && sameEffects name xs ys
  | _, _ => false

def sameBranches (name : P → String) :
    List (String × Effect P W) → List (String × Effect P W) → Bool
  | [], [] => true
  | (j, x) :: xs, (k, y) :: ys => j == k && same name x y && sameBranches name xs ys
  | _, _ => false

end

end Effect

end CoopTasks
