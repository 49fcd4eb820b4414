import CoopTasks.Effect

/-!
# Validity of effects

An effect is checked before it is carried out, with all effects nested in it, and every problem is
reported, in the order in which the effect was written down.
-/

namespace CoopTasks

/-- A structural defect of an effect. -/
inductive Problem where
  | emptyRace
  | emptyKey
  | repeatedKey (key : String)
  | zeroCapacity
deriving DecidableEq, Repr

def Problem.message : Problem → String
  | .emptyRace => "RACE needs at least one branch"
  | .emptyKey => "RACE branch keys must not be empty"
  | .repeatedKey key => "RACE key '" ++ key ++ "' is used more than once"
  | .zeroCapacity => "fixed channel buffers need a capacity of at least 1"

namespace Effect

variable {P W : Type}

/-- The problem with a key, given the sound keys before it. -/
def keyProblems (seen : List String) (key : String) : List Problem :=
  if key = "" then [.emptyKey] else if key ∈ seen then [.repeatedKey key] else []

mutual

/-- All problems of an effect and of the effects nested in it. -/
def problems : Effect P W → List Problem
  | .all effects => problemsOfAll effects
  | .race [] => [.emptyRace]
  | .race branches => problemsOfRace [] branches
  | .channel (.fixed 0 _) => [.zeroCapacity]
  | _ => []

def problemsOfAll : List (Effect P W) → List Problem
  | [] => []
  | effect :: rest => effect.problems ++ problemsOfAll rest

/-- The problems of branches that follow branches with the given keys. -/
def problemsOfRace (seen : List String) : List (String × Effect P W) → List Problem
  | [] => []
  | (key, effect) :: rest =>
    keyProblems seen key ++ effect.problems ++ problemsOfRace (key :: seen) rest

end

/-- The violation that an effect amounts to, if it has a problem. -/
def violation? (effect : Effect P W) : Option Violation :=
  match effect.problems with
  | [] => none
  | problems => some (.malformedEffect (problems.map Problem.message))

end Effect

end CoopTasks
