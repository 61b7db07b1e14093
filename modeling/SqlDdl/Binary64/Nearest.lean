import SqlDdl.Binary64.Basic
/-!
# The binary64 value nearest to a decimal

A decimal `n · 10 ^ k` is read as the binary64 value nearest to it. When it lies exactly halfway
between two values, the one with the even significand is taken; a value at or beyond the
halfway point above the largest finite value becomes infinity, and one at or below half the
least subnormal value becomes zero. All of it is exact arithmetic on natural numbers.

Main definitions: `Binary64.ofDecimal`, and `Binary64.ofNumeral?`, which reads the text of a
decimal number such as `1.5e3` and refuses an exponent mark without digits.
-/

namespace SqlDdl

namespace Binary64

/-- The quotient `num / den` rounded to the nearest natural number, a tie going to the even
one. -/
def divRoundEven (num den : Nat) : Nat :=
  let q := num / den
  let r := num % den
  if 2 * r < den then q
  else if den < 2 * r then q + 1
  else if q % 2 = 0 then q else q + 1

/-- The number of decimal digits of `n`, at least one. -/
def decimalLength (n : Nat) : Nat := (Nat.repr n).length

/-- The exponent `e` with `2 ^ e ≤ num / den < 2 ^ (e + 1)`, for positive `num` and `den`.
The difference of the two binary logarithms is off by at most one, so one comparison
settles it. -/
def binaryExponent (num den : Nat) : Int :=
  let e : Int := (Nat.log2 num : Int) - Nat.log2 den
  if den * Nat.pow 2 e.toNat ≤ num * Nat.pow 2 (-e).toNat then e else e - 1

/-- The binary64 value nearest to `num / den`, for positive `num` and `den`: the significand is
the quotient by the unit of the value's binade (or by the subnormal unit below the normal range),
rounded to even. -/
def ofFraction (num den : Nat) : Binary64 :=
  let unit : Int := max (binaryExponent num den) (-1022) - 52
  let q := divRoundEven (num * Nat.pow 2 (-unit).toNat) (den * Nat.pow 2 unit.toNat)
  -- a significand rounded up to `2 ^ 53` moves to the next binade
  let (q, unit) := if q = Nat.pow 2 53 then (Nat.pow 2 52, unit + 1) else (q, unit)
  if 1023 < unit + 52 then infinity
  else if q < Nat.pow 2 52 then ofFields 0 q
  else ofFields (unit + 52 + 1023).toNat (q - Nat.pow 2 52)

/-- The binary64 value nearest to `n · 10 ^ k`. A decimal of `d` digits is at least
`10 ^ (d - 1 + k)`, so from `d + k ≥ 310` on it lies beyond every finite value, and it is below
`10 ^ (d + k)`, so from `d + k ≤ -325` on it lies below half the least subnormal value; between
the two the exact quotient is rounded. -/
def ofDecimal (n : Nat) (k : Int) : Binary64 :=
  if n = 0 then zero
  else if 310 ≤ (decimalLength n : Int) + k then infinity
  else if (decimalLength n : Int) + k ≤ -325 then zero
  else ofFraction (n * Nat.pow 10 k.toNat) (Nat.pow 10 (-k).toNat)

/-- The digits of a numeral as a natural number. -/
def digitsValue (ds : List Char) : Nat :=
  ds.foldl (fun acc c => 10 * acc + (c.toNat - '0'.toNat)) 0

/-- Reads the exponent part of a numeral: an optional sign and one or more digits. -/
def readExponent : List Char → Option Int
  | '+' :: ds => if ds ≠ [] ∧ ds.all Char.isDigit then some (digitsValue ds) else none
  | '-' :: ds => if ds ≠ [] ∧ ds.all Char.isDigit then some (-(digitsValue ds : Int)) else none
  | ds => if ds ≠ [] ∧ ds.all Char.isDigit then some (digitsValue ds) else none

/-- Reads a decimal numeral: digits, an optional point and digits, with a digit on at least
one side of the point, then optionally `e` or `E`, an optional sign and one or more digits.
The value is the nearest binary64 value. -/
def ofNumeral? (s : String) : Option Binary64 :=
  let cs := s.toList
  let whole := cs.takeWhile Char.isDigit
  let (frac, rest) :=
    match cs.dropWhile Char.isDigit with
    | '.' :: more => (more.takeWhile Char.isDigit, more.dropWhile Char.isDigit)
    | rest => ([], rest)
  if whole.isEmpty && frac.isEmpty then none
  else
    let exp? : Option Int :=
      match rest with
      | [] => some 0
      | c :: more => if c = 'e' ∨ c = 'E' then readExponent more else none
    exp?.map fun e => ofDecimal (digitsValue (whole ++ frac)) (e - frac.length)

end Binary64

end SqlDdl
