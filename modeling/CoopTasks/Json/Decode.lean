import CoopTasks.Json.Document

/-!
# What a document means

A decoder reads a document as a value of some type. Arrays and objects nest at most 127 deep, so
every decoder is told how much room for nesting is left. A record is an object, in which unknown
members are ignored and known ones may stand once, or an array of its fields in order.
-/

namespace CoopTasks

/-- Reads a document as a value, with the given room for nesting. -/
abbrev Decoder (α : Type) := Nat → Document → Option α

namespace Decoder

/-- The greatest depth of nesting. -/
def maxDepth : Nat := 127

def natBelow (limit : Nat) : Decoder Nat := fun _ document =>
  match document with
  | .number numeral =>
    match numeral.value? with
    | some (.int n) => if 0 ≤ n ∧ n < limit then some n.toNat else none
    | _ => none
  | _ => none

def nat64 : Decoder Nat := natBelow (Nat.pow 2 64)

def nat32 : Decoder Nat := natBelow (Nat.pow 2 32)

def bool : Decoder Bool := fun _ document =>
  match document with
  | .bool b => some b
  | _ => none

def string : Decoder String := fun _ document =>
  match document with
  | .string q => q.toString?
  | _ => none

/-- A value, or null for none. -/
def option {α : Type} (value : Decoder α) : Decoder (Option α) := fun room document =>
  match document with
  | .null => some none
  | document => (value room document).map some

def list {α : Type} (item : Decoder α) : Decoder (List α) := fun room document =>
  match room, document with
  | room + 1, .array items => items.mapM (item room)
  | _, _ => none

/-- Decodes the text of one value. -/
def decode? {α : Type} (decoder : Decoder α) (text : String) : Option α :=
  (Document.read? text).bind (decoder maxDepth)

/-- The document of each named field, where there is one. -/
def fieldsOfMembers (names : List String) (members : List (Quoted × Document)) :
    Option (List (Option Document)) := do
  let members ← members.mapM fun (name, value) => name.toString?.map fun name => (name, value)
  names.mapM fun name =>
    match members.filter fun member => member.1 == name with
    | [] => some none
    | [member] => some (some member.2)
    | _ => none

/-- A record with the given field names, as the documents of its fields. What is made of them has
one level less for nesting. -/
def record {α : Type} (names : List String)
    (build : Nat → List (Option Document) → Option α) : Decoder α := fun room document =>
  match room, document with
  | room + 1, .object members => (fieldsOfMembers names members).bind (build room)
  | room + 1, .array items =>
    if items.length ≤ names.length then
      build room (items.map some ++ List.replicate (names.length - items.length) none)
    else none
  | _, _ => none

/-- A field that must be there. -/
def required {α : Type} (decoder : Decoder α) (room : Nat) (field : Option Document) : Option α :=
  field.bind (decoder room)

/-- A field that may be left out. -/
def defaulting {α : Type} (decoder : Decoder α) (default : α) (room : Nat) :
    Option Document → Option α
  | none => some default
  | some document => decoder room document

/-- One of several named values: the name alone, or an object that maps the name to null. -/
def choice {α : Type} (named? : String → Option α) : Decoder α := fun room document =>
  match room, document with
  | _, .string q => q.toString?.bind named?
  | _ + 1, .object [(q, .null)] => q.toString?.bind named?
  | _, _ => none

mutual

/-- Any data. -/
def json (room : Nat) : Document → Option Json
  | .null => some .null
  | .bool b => some (.bool b)
  | .number numeral => numeral.value?.map .number
  | .string q => q.toString?.map .string
  | .array items => if room = 0 then none else (jsonItems (room - 1) items).map .array
  | .object members =>
    if room = 0 then none else (jsonMembers (room - 1) members).map Json.ofMembers

def jsonItems (room : Nat) : List Document → Option (List Json)
  | [] => some []
  | item :: rest => do
    let item ← json room item
    let rest ← jsonItems room rest
    some (item :: rest)

def jsonMembers (room : Nat) : List (Quoted × Document) → Option (List (String × Json))
  | [] => some []
  | (name, value) :: rest => do
    let name ← name.toString?
    let value ← json room value
    let rest ← jsonMembers room rest
    some ((name, value) :: rest)

end

end Decoder

/-- The data that a text holds. -/
def Json.read? (text : String) : Option Json := Decoder.decode? Decoder.json text

end CoopTasks
