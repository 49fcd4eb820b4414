/-!
# Binary form

Numbers are little endian and of fixed width: 8 bytes, or 4 for versions and for the number of a
variant. A text and a list are preceded by their length, an optional value by a byte that is one if
it is there. A reader takes what it needs from the front of the bytes and leaves the rest.
-/

namespace CoopTasks

abbrev Bytes := List UInt8

/-- Reads a value from the front of some bytes. -/
abbrev Reader (α : Type) := Bytes → Option (α × Bytes)

namespace Binary

/-- The lowest bytes of a number, the lowest first. -/
def natBytes (n : Nat) : Nat → Bytes
  | 0 => []
  | width + 1 => UInt8.ofNat (n % 256) :: natBytes (n / 256) width

def nat64 (n : Nat) : Bytes := natBytes n 8

def nat32 (n : Nat) : Bytes := natBytes n 4

def bool (b : Bool) : Bytes := [if b then 1 else 0]

def bytes (bs : Bytes) : Bytes := nat64 bs.length ++ bs

def text (s : String) : Bytes := bytes s.toUTF8.toList

def option {α : Type} (value : α → Bytes) : Option α → Bytes
  | none => [0]
  | some a => 1 :: value a

def list {α : Type} (item : α → Bytes) (items : List α) : Bytes :=
  nat64 items.length ++ items.flatMap item

end Binary

namespace Reader

def nat : Nat → Reader Nat
  | 0, bs => some (0, bs)
  | _ + 1, [] => none
  | width + 1, b :: bs => (nat width bs).map fun (n, bs) => (b.toNat + 256 * n, bs)

def nat64 : Reader Nat := nat 8

def nat32 : Reader Nat := nat 4

def bool : Reader Bool
  | 0 :: bs => some (false, bs)
  | 1 :: bs => some (true, bs)
  | _ => none

def bytes : Reader Bytes := fun bs =>
  match nat64 bs with
  | some (n, bs) => if n ≤ bs.length then some (bs.take n, bs.drop n) else none
  | none => none

def text : Reader String := fun bs =>
  match bytes bs with
  | some (content, bs) => (String.fromUTF8? content.toByteArray).map fun s => (s, bs)
  | none => none

def option {α : Type} (value : Reader α) : Reader (Option α)
  | 0 :: bs => some (none, bs)
  | 1 :: bs => (value bs).map fun (a, bs) => (some a, bs)
  | _ => none

/-- Reads so many items. -/
def items {α : Type} (item : Reader α) : Nat → Reader (List α)
  | 0, bs => some ([], bs)
  | count + 1, bs =>
    match item bs with
    | some (a, bs) => (items item count bs).map fun (as, bs) => (a :: as, bs)
    | none => none

def list {α : Type} (item : Reader α) : Reader (List α) := fun bs =>
  match nat64 bs with
  | some (n, bs) => items item n bs
  | none => none

/-- Reads the number of a variant. -/
def variant {α : Type} (variants : List α) : Reader α := fun bs =>
  match nat32 bs with
  | some (n, bs) => (variants[n]?).map fun a => (a, bs)
  | none => none

/-- Makes something else of what is read, unless that is impossible. -/
def interpret {α β : Type} (reader : Reader α) (f : α → Option β) : Reader β := fun bs =>
  match reader bs with
  | some (a, bs) => (f a).map fun b => (b, bs)
  | none => none

end Reader

end CoopTasks
