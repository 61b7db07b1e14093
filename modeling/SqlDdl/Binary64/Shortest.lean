import SqlDdl.Binary64.Basic
/-!
# Shortest decimal digits of a binary64 value

A finite positive binary64 value is written with the fewest significant decimal digits that
read back as the same value. Of the decimals with that many digits in the value's rounding
interval, the nearer of the two that enclose the value is taken, and of two at the same distance
the upper one.

The rounding interval reaches half a unit to each side; its ends belong to it when the
significand is even, since a tie reads back to the even neighbour. A normal value whose fraction
bits are all clear is written with a lower half-distance of a quarter of its unit.

Main definition: `Binary64.shortest`, with `Decimal.value`'s `digits · 10 ^ exponent` the
decimal chosen. The search runs over 1 to 17 digits: seventeen always suffice for binary64.
-/

namespace SqlDdl

/-- A decimal `digits · 10 ^ exponent`. -/
structure Decimal where
  digits : Nat
  exponent : Int
  deriving DecidableEq, Repr

namespace Decimal

/-- Removes trailing zeros from the digits of a decimal, keeping its value. -/
def normalize (d : Decimal) : Decimal :=
  if h : d.digits ≠ 0 ∧ d.digits % 10 = 0 then
    normalize ⟨d.digits / 10, d.exponent + 1⟩
  else d
termination_by d.digits
decreasing_by exact Nat.div_lt_self (Nat.pos_of_ne_zero h.1) (by decide)

end Decimal

namespace Binary64

/-- The reals that read back as a positive value `mant · 2 ^ exp`: the interval from
`(mant - minus) · 2 ^ exp` to `(mant + plus) · 2 ^ exp`, ends included when `inclusive`. -/
structure Interval where
  mant : Nat
  minus : Nat
  plus : Nat
  exp : Int
  inclusive : Bool
  deriving Repr

/-- The rounding interval of the finite positive value `significand · 2 ^ exponent` with the
given biased exponent field. -/
def Interval.ofValue (biased significand : Nat) (exponent : Int) : Interval :=
  if biased ≠ 0 ∧ significand = Nat.pow 2 52 then
    ⟨4 * significand, 1, 2, exponent - 2, significand % 2 = 0⟩
  else
    ⟨2 * significand, 1, 1, exponent - 1, significand % 2 = 0⟩

/-- Compares `a · 10 ^ t` with `b · 2 ^ s` exactly. -/
def comparePowers (a : Nat) (t : Int) (b : Nat) (s : Int) : Ordering :=
  compare (a * Nat.pow 10 t.toNat * Nat.pow 2 (-s).toNat)
    (b * Nat.pow 2 s.toNat * Nat.pow 10 (-t).toNat)

/-- The integer part `⌊b · 2 ^ s / 10 ^ t⌋`. -/
def floorQuotient (b : Nat) (s t : Int) : Nat :=
  b * Nat.pow 2 s.toNat * Nat.pow 10 (-t).toNat / (Nat.pow 2 (-s).toNat * Nat.pow 10 t.toNat)

/-- The exponent `e` with `10 ^ e ≤ b · 2 ^ s < 10 ^ (e + 1)`, for positive `b`. The estimate
from the binary logarithm with `log 2 ≈ 0.30103` is off by at most one, either way. -/
def decimalExponent (b : Nat) (s : Int) : Int :=
  let e : Int := ((Nat.log2 b : Int) + s) * 30103 / 100000
  if comparePowers 1 e b s == .gt then e - 1
  else if comparePowers 1 (e + 1) b s != .gt then e + 1
  else e

namespace Interval

/-- Whether the decimal `k · 10 ^ t` lies in the interval. -/
def containsDecimal (i : Interval) (k : Nat) (t : Int) : Bool :=
  let aboveLow := comparePowers k t (i.mant - i.minus) i.exp
  let belowHigh := comparePowers k t (i.mant + i.plus) i.exp
  if i.inclusive then aboveLow != .lt && belowHigh != .gt
  else aboveLow == .gt && belowHigh == .lt

/-- The decimal of the grid `10 ^ t` in the interval nearest to its value, if the grid has a
point there: the value's lower or upper neighbour on the grid, the upper one on a tie. -/
def nearestOnGrid (i : Interval) (t : Int) : Option Decimal :=
  let k := floorQuotient i.mant i.exp t
  let down := i.containsDecimal k t
  let up := i.containsDecimal (k + 1) t
  -- twice the distance to the lower neighbour against the grid step
  let upperNearer := comparePowers (2 * k + 1) t (2 * i.mant) i.exp != .gt
  if up && (!down || upperNearer) then some ⟨k + 1, t⟩
  else if down then some ⟨k, t⟩
  else none

end Interval

/-- The shortest decimal of a positive value `significand · 2 ^ exponent` with the given biased
exponent field: the first grid, from one significant digit to seventeen, on which the rounding
interval holds a point. -/
def shortestOf (biased significand : Nat) (exponent : Int) : Decimal :=
  let i := Interval.ofValue biased significand exponent
  let e := decimalExponent significand exponent
  let grids := (List.range 17).map fun (n : Nat) => e - (n : Int)
  match grids.findSome? i.nearestOnGrid with
  | some d => d.normalize
  | none => ⟨floorQuotient significand exponent (e - 16), e - 16⟩

end Binary64

end SqlDdl
