/-!
# Binary64 values

A binary64 floating-point number (IEEE 754 double precision) is kept as its 64-bit pattern: a
sign bit, eleven exponent bits and fifty-two fraction bits. Nothing here uses the runtime's
floating-point operations; the value of a pattern is read off its fields in exact arithmetic,
so every statement about it is a statement about natural numbers and powers of two.

Main definition: `Binary64.classify`, which tells a NaN and the infinities from the finite
values `± significand · 2 ^ exponent`.
-/

namespace SqlDdl

/-- A binary64 floating-point value, held as its bit pattern. -/
structure Binary64 where
  bits : UInt64
  deriving DecidableEq, Repr

namespace Binary64

/-- The exponent of the least normal value's significand unit, `2 ^ minExponent`, which is also
the unit of every subnormal value. -/
def minExponent : Int := -1074

/-- The fifty-two fraction bits. -/
def fraction (x : Binary64) : Nat := x.bits.toNat % Nat.pow 2 52

/-- The eleven exponent bits, with their bias of 1023 still in. -/
def biasedExponent (x : Binary64) : Nat := x.bits.toNat / Nat.pow 2 52 % Nat.pow 2 11

/-- The sign bit. -/
def negative (x : Binary64) : Bool := Nat.pow 2 63 ≤ x.bits.toNat

/-- The value with the given biased exponent and fraction bits and a clear sign bit. -/
def ofFields (biased fraction : Nat) : Binary64 :=
  ⟨UInt64.ofNat (biased * Nat.pow 2 52 + fraction)⟩

/-- Positive zero. -/
def zero : Binary64 := ofFields 0 0

/-- Positive infinity. -/
def infinity : Binary64 := ofFields 2047 0

/-- What a bit pattern stands for: a NaN, an infinity, or the finite value
`± significand · 2 ^ exponent`. -/
inductive Class where
  | nan
  | infinite (negative : Bool)
  | finite (negative : Bool) (significand : Nat) (exponent : Int)
  deriving DecidableEq, Repr

/-- A pattern's meaning. A normal value has the hidden leading bit `2 ^ 52` added to its
fraction and the exponent `biased - 1075`; a subnormal one (biased exponent zero) has the
fraction alone and the exponent of the least normal unit. -/
def classify (x : Binary64) : Class :=
  if x.biasedExponent = 2047 then
    if x.fraction = 0 then .infinite x.negative else .nan
  else if x.biasedExponent = 0 then
    .finite x.negative x.fraction minExponent
  else
    .finite x.negative (Nat.pow 2 52 + x.fraction) ((x.biasedExponent : Int) - 1075)

/-- A pattern built from fields in range has those fields, and a clear sign bit. -/
theorem fields_ofFields {biased fraction : Nat} (hb : biased < 2048) (hf : fraction < Nat.pow 2 52) :
    (ofFields biased fraction).biasedExponent = biased ∧
      (ofFields biased fraction).fraction = fraction ∧ (ofFields biased fraction).negative = false := by
  have h52 : Nat.pow 2 52 = 4503599627370496 := rfl
  have h11 : Nat.pow 2 11 = 2048 := rfl
  have h63 : Nat.pow 2 63 = 9223372036854775808 := rfl
  rw [h52] at hf
  have hbits : (ofFields biased fraction).bits.toNat = biased * 4503599627370496 + fraction := by
    show (UInt64.ofNat (biased * Nat.pow 2 52 + fraction)).toNat = _
    rw [UInt64.toNat_ofNat', h52, Nat.mod_eq_of_lt]
    show _ < 18446744073709551616
    omega
  simp only [Binary64.biasedExponent, Binary64.fraction, Binary64.negative, hbits, h52, h11, h63]
  refine ⟨by omega, by omega, ?_⟩
  simp only [decide_eq_false_iff_not, Nat.not_le]
  omega

/-- The meaning of a pattern built from fields in range: the top biased exponent holds the
infinity and the NaNs, the least one the subnormal values, and the others the normal ones. -/
theorem classify_ofFields {biased fraction : Nat} (hb : biased < 2048)
    (hf : fraction < Nat.pow 2 52) :
    (ofFields biased fraction).classify =
      if biased = 2047 then (if fraction = 0 then .infinite false else .nan)
      else if biased = 0 then .finite false fraction minExponent
      else .finite false (Nat.pow 2 52 + fraction) ((biased : Int) - 1075) := by
  obtain ⟨hbiased, hfraction, hnegative⟩ := fields_ofFields hb hf
  simp only [classify, hbiased, hfraction, hnegative]

example : zero.classify = .finite false 0 minExponent := by decide

example : infinity.classify = .infinite false := by decide

end Binary64

end SqlDdl
