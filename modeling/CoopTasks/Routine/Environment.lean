import CoopTasks.Routine.Machine
import CoopTasks.Scheduler.Host

/-!
# Environments of named processes

Processes declared by name. A name that is not declared is that of an empty script. A watcher's own
name is made of its pattern and the name of its worker, which may be a watcher too.
-/

namespace CoopTasks.Routine

inductive Declaration where
  | script (effects : List (Effect String World))
  | watchEvery (pattern : Pattern) (worker : String)
  | watchLatest (pattern : Pattern) (worker : String)
  | routine (code : Code)

abbrev Environment := List (String × Declaration)

/-- What SELECT reads. -/
inductive StateSource where
  | none
  /-- How often each tag was published. -/
  | tally
  | fixed (json : Json)

namespace Environment

/-- The name of a process, found through at most so many watchers. -/
def nameWithin (env : Environment) : Nat → String → String
  | 0, key => key
  | fuel + 1, key =>
    match env.lookup key with
    | some (.watchEvery pattern worker) =>
      Program.watcherName "watch_every" pattern (env.nameWithin fuel worker)
    | some (.watchLatest pattern worker) =>
      Program.watcherName "watch_latest" pattern (env.nameWithin fuel worker)
    | _ => key

def name (env : Environment) (key : String) : String := env.nameWithin (env.length + 1) key

/-- Starts a routine, and numbers it. -/
def startRoutine (code : Code) (args : List Value) (w : World) : Frame × World :=
  let number := w.started + 1
  (⟨code, number, { args }, 0, none, none⟩, { w with started := number })

def define (env : Environment) (key : String) : Definition String Frame World :=
  match env.lookup key with
  | none => .script []
  | some (.script effects) => .script effects
  | some (.watchEvery pattern worker) => .watchEvery pattern worker
  | some (.watchLatest pattern worker) => .watchLatest pattern worker
  | some (.routine code) => .routine (startRoutine code)

def program (env : Environment) : Program String Frame World where
  name := env.name
  define := env.define
  resume := Frame.resume

end Environment

namespace StateSource

def read? : StateSource → Option (World → Json)
  | .none => Option.none
  | .tally => some World.tallyJson
  | .fixed json => some fun _ => json

end StateSource

/-- What a scheduler of declared processes is run with. -/
def host (env : Environment) (sinks : Nat) (state : StateSource) (config : Config) :
    Host String Frame World where
  program := env.program
  sinks := (List.range sinks).map World.sink
  state := state.read?
  config

end CoopTasks.Routine
