/-!
# JSON data

A value of the data format carried by notifications, failures and results. Members of an object
that holds data are sorted by name and unnamed twice (`Json.ofMembers`); a document written field by
field may list them in any order. An integer and a floating point number are never the same number,
whatever their values.
-/

namespace CoopTasks

/-- Integers lie between `-2^63` and `2^64 - 1`; other numbers are binary floating point. -/
inductive Number where
  | int (value : Int)
  | float (value : Float)
deriving Inhabited

inductive Json where
  | null
  | bool (value : Bool)
  | number (value : Number)
  | string (value : String)
  | array (items : List Json)
  | object (members : List (String × Json))
deriving Inhabited

namespace Number

/-- Equality of numbers; floating point numbers compare as such, so zero equals minus zero. -/
def same : Number → Number → Bool
  | int a, int b => a == b
  | float a, float b => a == b
  | _, _ => false

end Number

namespace Json

def ofNat (n : Nat) : Json := .number (.int n)

def ofInt (n : Int) : Json := .number (.int n)

mutual

/-- Equality of data. -/
def same : Json → Json → Bool
  | .null, .null => true
  | .bool a, .bool b => a == b
  | .number a, .number b => a.same b
  | .string a, .string b => a == b
  | .array xs, .array ys => sameItems xs ys
  | .object xs, .object ys => sameMembers xs ys
  | _, _ => false

def sameItems : List Json → List Json → Bool
  | [], [] => true
  | x :: xs, y :: ys => x.same y && sameItems xs ys
  | _, _ => false

def sameMembers : List (String × Json) → List (String × Json) → Bool
  | [], [] => true
  | (j, x) :: xs, (k, y) :: ys => j == k && x.same y && sameMembers xs ys
  | _, _ => false

end

instance : BEq Json := ⟨same⟩

/-- Puts a member at its place in the order of names, over an earlier one of the same name. -/
def insertMember (name : String) (value : Json) : List (String × Json) → List (String × Json)
  | [] => [(name, value)]
  | (other, old) :: rest =>
    if name < other then (name, value) :: (other, old) :: rest
    else if name = other then (name, value) :: rest
    else (other, old) :: insertMember name value rest

/-- The object with the given members; the last one of a name counts. -/
def ofMembers (members : List (String × Json)) : Json :=
  .object (members.foldl (fun sorted member => insertMember member.1 member.2 sorted) [])

def isNull : Json → Bool
  | .null => true
  | _ => false

/-- The member of an object. -/
def member? (name : String) : Json → Option Json
  | .object members => members.lookup name
  | _ => none

/-- The item of an array. -/
def item? (index : Nat) : Json → Option Json
  | .array items => items[index]?
  | _ => none

/-- A natural number of 64 bits. -/
def toNat? : Json → Option Nat
  | .number (.int n) => if 0 ≤ n ∧ n < Nat.pow 2 64 then some n.toNat else none
  | _ => none

/-- A signed integer of 64 bits. -/
def toInt? : Json → Option Int
  | .number (.int n) => if -(Nat.pow 2 63) ≤ n ∧ n < Nat.pow 2 63 then some n else none
  | _ => none

end Json

end CoopTasks
