/-!
# Shortest decimals

A finite binary floating point number stands for every real that rounds to it. Among the decimals in
that interval the one with the fewest digits is chosen, of those the nearest, and of two equally
near ones the one that ends in an even digit. All comparisons are made in natural numbers.
-/

namespace CoopTasks

/-- The value `mantissa * 2 ^ exponent`, as stored in the bits of a number. -/
structure Dyadic where
  mantissa : Nat
  exponent : Int

/-- The value `digits * 10 ^ exponent`. -/
structure Decimal where
  digits : Nat
  exponent : Int
deriving DecidableEq, Repr

namespace Dyadic

/-- The magnitude of a finite number. -/
def ofFloat (x : Float) : Dyadic :=
  let bits : Nat := x.toBits.toNat % Nat.pow 2 63
  let field : Nat := bits / Nat.pow 2 52
  let fraction : Nat := bits % Nat.pow 2 52
  if field = 0 then ⟨fraction, -1074⟩ else ⟨fraction + Nat.pow 2 52, (field : Int) - 1075⟩

/-- Whether the numbers below are twice as dense as those above. -/
def isBinadeStart (x : Dyadic) : Bool := x.mantissa == Nat.pow 2 52 && x.exponent != -1074

/-- Four times the mantissas of the ends of the interval that rounds to the number. -/
def bounds (x : Dyadic) : Nat × Nat :=
  (4 * x.mantissa - if x.isBinadeStart then 1 else 2, 4 * x.mantissa + 2)

/-- The multiple of `10 ^ p` in the interval that is nearest to the number, if there is one. -/
def onGrid? (x : Dyadic) (p : Int) : Option Nat :=
  -- Everything is measured in units of 2 ^ (exponent - 2) and 10 ^ p, both made whole.
  let binary := Nat.pow 2 (x.exponent - 2).toNat * Nat.pow 10 (-p).toNat
  let decimal := Nat.pow 10 p.toNat * Nat.pow 2 (2 - x.exponent).toNat
  let (low, high) := x.bounds
  let value := 4 * x.mantissa * binary
  let closed := x.mantissa % 2 = 0
  let inside (d : Nat) : Bool :=
    let point := d * decimal
    if closed then low * binary ≤ point && point ≤ high * binary
    else low * binary < point && point < high * binary
  let below := value / decimal
  let above := below + 1
  match inside below, inside above with
  | false, false => none
  | true, false => some below
  | false, true => some above
  | true, true =>
    let toBelow := value - below * decimal
    let toAbove := above * decimal - value
    if toBelow < toAbove ∨ (toBelow = toAbove ∧ below % 2 = 0) then some below else some above

/-- Tries the grids from `10 ^ p` downwards. -/
def refine (x : Dyadic) : Nat → Int → Decimal
  | 0, p => ⟨0, p⟩
  | fuel + 1, p =>
    match x.onGrid? p with
    | some d => ⟨d, p⟩
    | none => refine x fuel (p - 1)

/-- The shortest decimal that reads back. No power of ten in the interval exceeds the first one
tried, and seventeen digits always reach into it. -/
def shortest (x : Dyadic) : Decimal :=
  if x.mantissa = 0 then ⟨0, 0⟩
  else x.refine 24 ((x.mantissa.log2 + x.exponent + 1) * 30103 / 100000 + 1)

end Dyadic

end CoopTasks
