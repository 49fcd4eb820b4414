import CoopTasks.Json.Basic

/-!
# Numerals

A number as it is written in a JSON text, and the number it denotes. A numeral without a fraction
and without an exponent is an integer if it fits into 64 bits. Any other numeral denotes a floating
point number, computed from the leading digits that fit into 64 bits and a power of ten, so that the
result is rounded at most twice and need not be the nearest one.
-/

namespace CoopTasks

/-- The digits of a number as written; no fraction is the empty list. The exponent comes with its
sign, true for a minus. -/
structure Numeral where
  negative : Bool
  whole : List Nat
  fraction : List Nat
  exponent : Option (Bool × List Nat)

namespace Numeral

/-- Appends digits to a number as long as it stays below `limit`; the digits left over are returned.
-/
def absorb (limit : Nat) : Nat → List Nat → Nat × List Nat
  | n, [] => (n, [])
  | n, d :: ds => if 10 * n + d < limit then absorb limit (10 * n + d) ds else (n, d :: ds)

/-- Divides by a power of ten in steps of at most `10 ^ 308`, the greatest one that is finite. -/
def scaleDown (x : Float) (e : Nat) : Float :=
  if e ≤ 308 then x / Float.ofScientific 1 false e
  else if x == 0 then x
  else scaleDown (x / Float.ofScientific 1 false 308) (e - 308)
termination_by e

/-- The magnitude `significand * 10 ^ e`, unless it is too large. -/
def magnitude? (significand : Nat) (e : Int) : Option Float :=
  let x := significand.toUInt64.toFloat
  if e < 0 then some (scaleDown x e.natAbs)
  else if e.toNat ≤ 308 then
    let y := x * Float.ofScientific 1 false e.toNat
    if y.isInf then none else some y
  else if x == 0 then some x
  else none

def signed (negative : Bool) (x : Float) : Number := .float (if negative then -x else x)

/-- The floating point number with the given leading digits. An exponent that does not fit into 31
bits gives zero or is out of range. -/
def float? (n : Numeral) (significand : Nat) (shift : Int) : Option Number :=
  match n.exponent with
  | none => (magnitude? significand shift).map (signed n.negative)
  | some (down, digits) =>
    match absorb (Nat.pow 2 31) 0 digits with
    | (e, []) =>
      (magnitude? significand (if down then shift - e else shift + e)).map (signed n.negative)
    | (_, _ :: _) =>
      if significand ≠ 0 ∧ ¬down then none else some (signed n.negative 0.0)

/-- The number denoted by a numeral, or nothing if it is out of range. Minus zero is a floating
point number. -/
def value? (n : Numeral) : Option Number :=
  let (significand, dropped) := absorb (Nat.pow 2 64) 0 n.whole
  if n.fraction.isEmpty ∧ n.exponent.isNone ∧ dropped.isEmpty then
    if ¬n.negative then some (.int significand)
    else if significand = 0 ∨ Nat.pow 2 63 < significand then
      some (signed true significand.toUInt64.toFloat)
    else some (.int (-significand))
  else
    let (significand, ignored) := absorb (Nat.pow 2 64) significand n.fraction
    n.float? significand ((dropped.length : Int) - (n.fraction.length - ignored.length : Nat))

end Numeral

end CoopTasks
