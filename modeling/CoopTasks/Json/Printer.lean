import CoopTasks.Decimal.Shortest
import CoopTasks.Json.Basic

/-!
# Writing JSON

Two layouts: compact, without any blanks, and indented by two spaces per level with one item a line.
Strings escape the quote, the backslash and the controls below U+0020, and nothing else. Floating
point numbers are written as shortest decimals, in positional notation from `0.00001` up to below
`10 ^ 16` and always with a point there, and with a signed exponent elsewhere.
-/

namespace CoopTasks

namespace Decimal

/-- The digits with the point where it belongs. `place` counts the digits before the point. -/
def render (x : Decimal) : String :=
  let digits := toString x.digits
  let place := (digits.length : Int) + x.exponent
  if 0 ≤ x.exponent ∧ place ≤ 16 then
    digits ++ String.ofList (List.replicate x.exponent.toNat '0') ++ ".0"
  else if 0 < place ∧ place ≤ 16 then
    String.ofList (digits.toList.take place.toNat) ++ "." ++
      String.ofList (digits.toList.drop place.toNat)
  else if -5 < place ∧ place ≤ 0 then
    "0." ++ String.ofList (List.replicate (-place).toNat '0') ++ digits
  else
    let tail := digits.toList.drop 1
    String.ofList (digits.toList.take 1) ++ (if tail.isEmpty then "" else ".") ++
      String.ofList tail ++ (if 0 < place then "e+" else "e") ++ toString (place - 1)

end Decimal

namespace Number

def render : Number → String
  | .int n => toString n
  | .float x =>
    (if x.toBits.toNat < Nat.pow 2 63 then "" else "-") ++ (Dyadic.ofFloat x).shortest.render

end Number

namespace Json

/-- The character with the given value below sixteen in hexadecimal. -/
def hexDigit (n : Nat) : Char := if n < 10 then Char.ofNat (48 + n) else Char.ofNat (87 + n)

def escape (c : Char) : List Char :=
  match c with
  | '"' => ['\\', '"']
  | '\\' => ['\\', '\\']
  | '\n' => ['\\', 'n']
  | '\r' => ['\\', 'r']
  | '\t' => ['\\', 't']
  | c =>
    if c.toNat = 8 then ['\\', 'b']
    else if c.toNat = 12 then ['\\', 'f']
    else if c.toNat < 32 then
      ['\\', 'u', '0', '0', hexDigit (c.toNat / 16), hexDigit (c.toNat % 16)]
    else [c]

def quote (s : String) : String := "\"" ++ String.ofList (s.toList.flatMap escape) ++ "\""

mutual

/-- The text without blanks. -/
def compact : Json → String
  | .null => "null"
  | .bool true => "true"
  | .bool false => "false"
  | .number n => n.render
  | .string s => quote s
  | .array items => "[" ++ ",".intercalate (compactItems items) ++ "]"
  | .object members => "\x7b" ++ ",".intercalate (compactMembers members) ++ "\x7d"

def compactItems : List Json → List String
  | [] => []
  | item :: rest => item.compact :: compactItems rest

def compactMembers : List (String × Json) → List String
  | [] => []
  | (name, value) :: rest => (quote name ++ ":" ++ value.compact) :: compactMembers rest

end

/-- Blanks for a number of levels. -/
def indent (level : Nat) : String := String.ofList (List.replicate (2 * level) ' ')

/-- Items one a line between brackets, or the brackets alone if there are none. -/
def block (level : Nat) (opening : String) (items : List String) (closing : String) : String :=
  if items.isEmpty then opening ++ closing
  else
    let line := "\n" ++ indent (level + 1)
    opening ++ line ++ ("," ++ line).intercalate items ++ "\n" ++ indent level ++ closing

mutual

/-- The text with one item a line, for a value that stands at the given level. -/
def indented (level : Nat) : Json → String
  | .null => "null"
  | .bool true => "true"
  | .bool false => "false"
  | .number n => n.render
  | .string s => quote s
  | .array items => block level "[" (indentedItems (level + 1) items) "]"
  | .object members => block level "\x7b" (indentedMembers (level + 1) members) "\x7d"

def indentedItems (level : Nat) : List Json → List String
  | [] => []
  | item :: rest => indented level item :: indentedItems level rest

def indentedMembers (level : Nat) : List (String × Json) → List String
  | [] => []
  | (name, value) :: rest =>
    (quote name ++ ": " ++ indented level value) :: indentedMembers level rest

end

def pretty (json : Json) : String := json.indented 0

end Json

end CoopTasks
