import CoopTasks.Effect

/-!
# Processes

A process is a unit of control flow that yields effects. The scheduler steps it with the answer to
the last effect, or with an error thrown into it, and it answers with its next effect or with its
end.

A script yields fixed effects; a watcher forks a worker for each notification it takes; a routine is
any other program, with a state of type `R` that is advanced by the function `resume` of the
`Program`. All of them share one rule: an ended process is not stepped again.
-/

namespace CoopTasks

/-- What a process is stepped with. -/
inductive Input where
  | value (value : Value)
  | error (error : TaskError)

/-- What a process answers when stepped. -/
inductive Step (P W : Type) where
  | yield (effect : Effect P W)
  | done (value : Value)
  | failed (error : TaskError)

/-- How to run the process behind a handle. -/
inductive Definition (P R W : Type) where
  | script (effects : List (Effect P W))
  | watchEvery (pattern : Pattern) (worker : P)
  | watchLatest (pattern : Pattern) (worker : P)
  | routine (start : List Value → W → R × W)

/-- What the handles stand for: the names of processes, how to run them, and how the state of a
routine advances. -/
structure Program (P R W : Type) where
  name : P → String
  define : P → Definition P R W
  resume : R → Input → W → Step P W × R × W

/-- Where a watcher that keeps one worker stands. -/
inductive LatestStage where
  /-- Waits for a notification, with the last worker that it forked. -/
  | listening (current : Option TaskId)
  /-- Has cancelled the last worker, and will fork for this notification. -/
  | cancelling (notification : Value)
  /-- Has forked a worker. -/
  | forking

/-- A process that has been started. -/
inductive Process (P R W : Type) where
  | script (rest : List (Effect P W))
  | watchEvery (pattern : Pattern) (worker : P) (args : List Value) (forking : Bool)
  | watchLatest (pattern : Pattern) (worker : P) (args : List Value) (stage : LatestStage)
  | routine (state : R)
  | ended

namespace Input

def isCancellation : Input → Bool
  | .error e => e.isCancellation
  | .value _ => false

/-- The input that reports an outcome. -/
def ofOutcome : Outcome → Input
  | .ok v => .value v
  | .error e => .error e

/-- The input that reports the result of an operation. -/
def ofResult : Except Failure Value → Input
  | .ok v => .value v
  | .error failure => .error (.operation failure)

end Input

namespace Step

variable {P W : Type}

def isTerminal : Step P W → Bool
  | .yield _ => false
  | .done _ | .failed _ => true

end Step

namespace Process

variable {P R W : Type}

/-- A watcher that forks a worker for every notification. While it listens it answers anything but a
notification by listening again. -/
def stepEvery (pattern : Pattern) (worker : P) (args : List Value) (forking : Bool) (v : Value) :
    Step P W × Process P R W :=
  match forking, v with
  | false, .notification _ =>
    (.yield (.fork worker (args ++ [v])), .watchEvery pattern worker args true)
  | _, _ => (.yield (.take pattern), .watchEvery pattern worker args false)

/-- A watcher that cancels the worker of the last notification before it forks the next one. -/
def stepLatest (pattern : Pattern) (worker : P) (args : List Value) (stage : LatestStage)
    (v : Value) : Step P W × Process P R W :=
  match stage, v with
  | .listening (some previous), .notification _ =>
    (.yield (.cancel previous), .watchLatest pattern worker args (.cancelling v))
  | .listening none, .notification _ =>
    (.yield (.fork worker (args ++ [v])), .watchLatest pattern worker args .forking)
  | .listening current, _ =>
    (.yield (.take pattern), .watchLatest pattern worker args (.listening current))
  | .cancelling n, _ =>
    (.yield (.fork worker (args ++ [n])), .watchLatest pattern worker args .forking)
  | .forking, v =>
    match v.requireTask with
    | .ok task =>
      (.yield (.take pattern), .watchLatest pattern worker args (.listening (some task)))
    | .error e => (.failed e, .ended)

/-- Steps a process. An error ends a script and a watcher; a routine may handle it. -/
def step (resume : R → Input → W → Step P W × R × W) (process : Process P R W) (input : Input)
    (world : W) : Step P W × Process P R W × W :=
  match process, input with
  | .ended, _ => (.failed (.protocol .alreadySettled), .ended, world)
  | .routine state, input =>
    let (answer, state, world) := resume state input world
    (answer, if answer.isTerminal then .ended else .routine state, world)
  | _, .error e => (.failed e, .ended, world)
  | .script [], .value v => (.done v, .ended, world)
  | .script (effect :: rest), .value _ => (.yield effect, .script rest, world)
  | .watchEvery pattern worker args forking, .value v =>
    let (answer, process) := stepEvery pattern worker args forking v
    (answer, process, world)
  | .watchLatest pattern worker args stage, .value v =>
    let (answer, process) := stepLatest pattern worker args stage v
    (answer, process, world)

/-- A process that yields has not ended. -/
theorem step_yield_ne_ended {resume : R → Input → W → Step P W × R × W} {process : Process P R W}
    {input : Input} {world : W} {effect : Effect P W}
    (h : (process.step resume input world).1 = .yield effect) :
    (process.step resume input world).2.1 ≠ .ended := by
  cases process with
  | ended => simp [step] at h
  | routine state =>
    simp only [step] at h ⊢
    simp [h, Step.isTerminal]
  | script rest =>
    cases rest <;> cases input <;> simp [step] at h ⊢
  | watchEvery pattern worker args forking =>
    cases input with
    | error e => simp [step] at h
    | value v =>
      simp only [step]
      unfold stepEvery
      split <;> simp
  | watchLatest pattern worker args stage =>
    cases input with
    | error e => simp [step] at h
    | value v =>
      simp only [step] at h ⊢
      unfold stepLatest at h ⊢
      split <;> simp_all
      split at h <;> simp_all

/-- The answers to several inputs, one after the other. -/
def stepAll (resume : R → Input → W → Step P W × R × W) (process : Process P R W) (world : W) :
    List Input → List (Step P W) × W
  | [] => ([], world)
  | input :: rest =>
    let (answer, process, world) := process.step resume input world
    let (answers, world) := process.stepAll resume world rest
    (answer :: answers, world)

end Process

namespace Program

variable {P R W : Type}

/-- Starts the process behind a handle. -/
def spawn (program : Program P R W) (p : P) (args : List Value) (world : W) : Process P R W × W :=
  match program.define p with
  | .script effects => (.script effects, world)
  | .watchEvery pattern worker => (.watchEvery pattern worker args false, world)
  | .watchLatest pattern worker => (.watchLatest pattern worker args (.listening none), world)
  | .routine start =>
    let (state, world) := start args world
    (.routine state, world)

/-- A process that is started has not ended. -/
theorem spawn_ne_ended (program : Program P R W) (p : P) (args : List Value) (world : W) :
    (program.spawn p args world).1 ≠ .ended := by
  unfold spawn
  split <;> simp

/-- Starts a process and steps it with several inputs, without a scheduler. -/
def rehearse (program : Program P R W) (p : P) (args : List Value) (inputs : List Input)
    (world : W) : List (Step P W) × W :=
  let (process, world) := program.spawn p args world
  process.stepAll program.resume world inputs

/-- The name of a watcher. -/
def watcherName (combinator : String) (pattern : Pattern) (worker : String) : String :=
  s!"{combinator}({pattern}, {worker})"

end Program

end CoopTasks
