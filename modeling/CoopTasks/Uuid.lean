import CoopTasks.Json.Document
import CoopTasks.Json.Printer

/-!
# Universally unique identifiers

A number of 128 bits. It is written as 32 lower case hexadecimal digits in five groups. It is read
in either case, with the digits in groups or in one run; the grouped form may also stand in braces
or after `urn:uuid:`, whose letters may be of either case as well.
-/

namespace CoopTasks

structure Uuid where
  value : Nat
deriving DecidableEq, Repr

namespace Uuid

/-- The lengths of the groups of digits. -/
def groups : List Nat := [8, 4, 4, 4, 12]

/-- The number of so many hexadecimal digits, most significant first. -/
def digits (n : Nat) : Nat → List Char
  | 0 => []
  | count + 1 => digits (n / 16) count ++ [Json.hexDigit (n % 16)]

def ofDigits? (cs : List Char) : Option Uuid := do
  let digits ← cs.mapM Document.hexValue?
  some ⟨digits.foldl (fun n d => 16 * n + d) 0⟩

/-- Puts a dash between groups of the given lengths. -/
def hyphenate : List Nat → List Char → List Char
  | [], cs => cs
  | [_], cs => cs
  | n :: ns, cs => cs.take n ++ '-' :: hyphenate ns (cs.drop n)

/-- Takes away the dashes, which must stand between groups of the given lengths. -/
def dehyphenate? : List Nat → List Char → Option (List Char)
  | [], cs => if cs.isEmpty then some [] else none
  | [n], cs => if cs.length = n then some cs else none
  | n :: ns, cs =>
    match cs.drop n with
    | '-' :: rest => (dehyphenate? ns rest).map (cs.take n ++ ·)
    | _ => none

def render (id : Uuid) : String := String.ofList (hyphenate groups (digits id.value 32))

def readGrouped? (cs : List Char) : Option Uuid := (dehyphenate? groups cs).bind ofDigits?

/-- What may stand before the groups, in either case. -/
def mark : List Char := ['u', 'r', 'n', ':', 'u', 'u', 'i', 'd', ':']

def read? (text : String) : Option Uuid :=
  match text.toList with
  | '{' :: rest => if rest.getLast? = some '}' then readGrouped? rest.dropLast else none
  | cs =>
    if cs.length = 32 then ofDigits? cs
    else if (cs.take 9).map Char.toLower = mark then readGrouped? (cs.drop 9)
    else readGrouped? cs

end Uuid

end CoopTasks
