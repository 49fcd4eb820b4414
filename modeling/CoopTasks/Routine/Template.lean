import CoopTasks.Routine.Expr
import CoopTasks.Routine.World

/-!
# Effect templates

Effects as routines and scripts write them down: like effects, with expressions in the place of
values, processes by name, and operations described by what they do. A template is made into an
effect in the scope in which it is reached.
-/

namespace CoopTasks.Routine

/-- What an operation does when it is invoked, with values of type `α`. -/
inductive Behaviour (α : Type) where
  | succeed (value : α)
  | fail (failure : Failure)
  /-- Waits for a completion by the host. -/
  | defer
  /-- Waits for the clock. -/
  | timer (ms : Nat)
  /-- Tells the time. -/
  | now
  /-- Tells the calling task. -/
  | whoAmI
  /-- Gives back the arguments. -/
  | echo
  /-- Registers a completion, and answers without waiting for it. -/
  | deferThenSucceed (value : α)
  | timerThenSucceed (ms : Nat) (value : α)
  /-- Waits for a completion that it did not register. -/
  | awaitForeign (operation : OperationId)
  /-- Registers a completion and queues it at once: the failure if there is one, else the value. -/
  | completeItself (failure : Option Failure) (value : α)
  /-- Queues the completion of another operation in the same way, and answers that it was queued. -/
  | completeOther (operation : OperationId) (failure : Option Failure) (value : α)

/-- What is called. -/
inductive Callee (α : Type) where
  | delay
  | named (name : String) (behaviour : Behaviour α)

/-- One step of a path into data. -/
inductive PathStep where
  | member (name : String)
  | item (index : Nat)

/-- A rule for notifications. -/
inductive Rule where
  | always (answer : Bool)
  | tagPrefix (text : String)
  /-- The tag takes more than so many bytes. -/
  | tagLonger (bytes : Nat)
  | payloadIs (json : Json)
  | payloadMember (name : String) (json : Json)

inductive PatternTemplate where
  | pattern (pattern : Pattern)
  | channel (channel : Expr)

inductive Template where
  | call (callee : Callee Expr) (args : List Expr)
  | callProcess (process : String) (args : List Expr)
  | fork (process : String) (args : List Expr)
  | put (notification : Notification)
  /-- Puts a notification whose payload is computed. -/
  | putData (tag : String) (payload : Expr)
  | putValue (notification : Expr)
  | take (pattern : PatternTemplate)
  | join (task : Expr)
  | cancel (task : Expr)
  | cancelled
  | all (templates : List Template)
  | race (branches : List (String × Template))
  | timeout (template : Template) (ms : Nat)
  | channel (policy : Buffering)
  | channelTake (channel : Expr)
  | channelPut (channel value : Expr)
  | channelClose (channel : Expr)
  | select (selector : Option Selector)

namespace Behaviour

def mapM {α β : Type} (f : α → Except TaskError β) :
    Behaviour α → Except TaskError (Behaviour β)
  | .succeed a => do return .succeed (← f a)
  | .fail failure => .ok (.fail failure)
  | .defer => .ok .defer
  | .timer ms => .ok (.timer ms)
  | .now => .ok .now
  | .whoAmI => .ok .whoAmI
  | .echo => .ok .echo
  | .deferThenSucceed a => do return .deferThenSucceed (← f a)
  | .timerThenSucceed ms a => do return .timerThenSucceed ms (← f a)
  | .awaitForeign id => .ok (.awaitForeign id)
  | .completeItself failure a => do return .completeItself failure (← f a)
  | .completeOther id failure a => do return .completeOther id failure (← f a)

/-- Whether the operation answers without seeing the scheduler. -/
def isBlind {α : Type} : Behaviour α → Bool
  | .succeed _ | .fail _ => true
  | _ => false

/-- The conversation of an invoked operation; the world has taken note of the invocation. -/
def converse (args : List Value) (task : TaskId) (w : World) : Behaviour Value → Invocation World
  | .succeed v => .answer (.ok v) w
  | .fail failure => .answer (.error failure) w
  | .defer => .defer fun id => .await id w
  | .timer ms => .timer ms fun id => .await id w
  | .now => .now fun ms => .answer (.ok (.data (.ofNat (ms % Nat.pow 2 64)))) w
  | .whoAmI => .answer (.ok (.task task)) w
  | .echo => .answer (.ok (.list args)) w
  | .deferThenSucceed v => .defer fun _ => .answer (.ok v) w
  | .timerThenSucceed ms v => .timer ms fun _ => .answer (.ok v) w
  | .awaitForeign id => .await id w
  | .completeItself failure v =>
    .defer fun id => .complete id (failure.elim (.ok v) .error) (.await id w)
  | .completeOther id failure v =>
    .complete id (failure.elim (.ok v) .error) (.answer (.ok (.bool true)) w)

/-- The operation of the given name that behaves so. -/
def operation (name : String) (behaviour : Behaviour Value) : Operation World where
  name
  invoke args task w :=
    let seen := if behaviour.isBlind then none else some task
    behaviour.converse args task (w.record (.invoke name seen args))

end Behaviour

def Callee.operation (scope : Scope) : Callee Expr → Except TaskError (Operation World)
  | .delay => .ok .delay
  | .named name behaviour => do
    let behaviour ← behaviour.mapM (Expr.eval scope)
    return behaviour.operation name

/-- What is found at the end of a path, or null. -/
def walk (path : List PathStep) (json : Json) : Json :=
  match path with
  | [] => json
  | .member name :: rest => (json.member? name).elim .null (walk rest)
  | .item index :: rest => (json.item? index).elim .null (walk rest)

/-- The selector of the given name that follows a path. -/
def pathSelector (name : String) (path : List PathStep) : Selector := ⟨name, walk path⟩

def Rule.check : Rule → Notification → Bool
  | .always answer, _ => answer
  | .tagPrefix text, n => text.toList.isPrefixOf n.tag.toList
  | .tagLonger bytes, n => bytes < n.tag.utf8ByteSize
  | .payloadIs json, n => n.payload == json
  | .payloadMember name json, n => (n.payload.member? name).any (· == json)

def Rule.matcher (name : String) (rule : Rule) : Matcher := ⟨name, rule.check⟩

def PatternTemplate.build (scope : Scope) : PatternTemplate → Except TaskError Pattern
  | .pattern p => .ok p
  | .channel e => do return .channel (← (← e.eval scope).requireChannel)

namespace Template

mutual

/-- The effect that a template stands for. -/
def build (scope : Scope) : Template → Except TaskError (Effect String World)
  | .call callee args => do
    let operation ← callee.operation scope
    return .call operation (← Expr.evalAll scope args)
  | .callProcess process args => do return .callProcess process (← Expr.evalAll scope args)
  | .fork process args => do return .fork process (← Expr.evalAll scope args)
  | .put n => .ok (.put n)
  | .putData tag e => do return .put ⟨tag, (← e.eval scope).data?.getD .null⟩
  | .putValue e => do return .put (← (← e.eval scope).requireNotification)
  | .take pattern => do return .take (← pattern.build scope)
  | .join e => do return .join (← (← e.eval scope).requireTask)
  | .cancel e => do return .cancel (← (← e.eval scope).requireTask)
  | .cancelled => .ok .cancelled
  | .all templates => do return .all (← buildAll scope templates)
  | .race branches => do return .race (← buildBranches scope branches)
  | .timeout template ms => do return (← template.build scope).timeout ms
  | .channel policy => .ok (.channel policy)
  | .channelTake e => do return .channelTake (← (← e.eval scope).requireChannel)
  | .channelPut e value => do
    let channel ← (← e.eval scope).requireChannel
    return .channelPut channel (← value.eval scope)
  | .channelClose e => do return .channelClose (← (← e.eval scope).requireChannel)
  | .select selector => .ok (.select selector)

def buildAll (scope : Scope) : List Template → Except TaskError (List (Effect String World))
  | [] => .ok []
  | template :: rest => do
    let effect ← template.build scope
    let effects ← buildAll scope rest
    return effect :: effects

def buildBranches (scope : Scope) :
    List (String × Template) → Except TaskError (List (String × Effect String World))
  | [] => .ok []
  | (key, template) :: rest => do
    let effect ← template.build scope
    let branches ← buildBranches scope rest
    return (key, effect) :: branches

end

end Template

end CoopTasks.Routine
