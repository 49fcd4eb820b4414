import CoopTasks.Ident
import CoopTasks.Json.Basic

/-!
# Values

What a task is resumed with and what it returns. Data travel as JSON; tasks and channels travel as
identifiers, so that a task never holds one.
-/

namespace CoopTasks

/-- A tagged message on the bus. -/
structure Notification where
  tag : String
  payload : Json := .null
deriving Inhabited

inductive Value where
  | unit
  | bool (value : Bool)
  | data (json : Json)
  | notification (notification : Notification)
  | task (id : TaskId)
  | channel (id : ChannelId)
  | list (items : List Value)
  | keyed (key : String) (value : Value)
  /-- Given to a taker of a channel that is closed and drained. -/
  | closed
deriving Inhabited

namespace Notification

def same (m n : Notification) : Bool := m.tag == n.tag && m.payload == n.payload

instance : BEq Notification := ⟨same⟩

end Notification

namespace Value

inductive Kind where
  | unit | bool | data | notification | task | channel | list | keyed | closed
deriving DecidableEq, Repr

def Kind.name : Kind → String
  | .unit => "unit"
  | .bool => "bool"
  | .data => "data"
  | .notification => "notification"
  | .task => "task"
  | .channel => "channel"
  | .list => "list"
  | .keyed => "keyed"
  | .closed => "closed"

def Kind.all : List Kind :=
  [.unit, .bool, .data, .notification, .task, .channel, .list, .keyed, .closed]

def Kind.ofName? (name : String) : Option Kind := Kind.all.find? fun kind => kind.name == name

def kind : Value → Kind
  | .unit => .unit
  | .bool _ => .bool
  | .data _ => .data
  | .notification _ => .notification
  | .task _ => .task
  | .channel _ => .channel
  | .list _ => .list
  | .keyed _ _ => .keyed
  | .closed => .closed

mutual

def same : Value → Value → Bool
  | .unit, .unit => true
  | .bool a, .bool b => a == b
  | .data a, .data b => a == b
  | .notification m, .notification n => m == n
  | .task a, .task b => a == b
  | .channel a, .channel b => a == b
  | .list xs, .list ys => sameItems xs ys
  | .keyed j x, .keyed k y => j == k && x.same y
  | .closed, .closed => true
  | _, _ => false

def sameItems : List Value → List Value → Bool
  | [], [] => true
  | x :: xs, y :: ys => x.same y && sameItems xs ys
  | _, _ => false

end

instance : BEq Value := ⟨same⟩

def bool? : Value → Option Bool
  | .bool b => some b
  | _ => none

def data? : Value → Option Json
  | .data json => some json
  | _ => none

def notification? : Value → Option Notification
  | .notification n => some n
  | _ => none

def task? : Value → Option TaskId
  | .task id => some id
  | _ => none

def channel? : Value → Option ChannelId
  | .channel id => some id
  | _ => none

def list? : Value → Option (List Value)
  | .list items => some items
  | _ => none

def keyed? : Value → Option (String × Value)
  | .keyed key value => some (key, value)
  | _ => none

/-- A duration in milliseconds, carried as a natural number of 64 bits. -/
def millis? (v : Value) : Option Nat := v.data?.bind Json.toNat?

def isClosed : Value → Bool
  | .closed => true
  | _ => false

end Value

end CoopTasks
