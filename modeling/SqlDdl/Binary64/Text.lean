import SqlDdl.Binary64.Shortest
/-!
# The text of a binary64 value

A finite value is written as its shortest decimal in positional notation, never with an
exponent: `100000000000000000000` for `1e20`, `0.0000001` for `1e-7`, `1500` for `1.5e3`. A
whole number has no fractional part, zero is `0`, and the infinities are `inf` and `-inf`.
-/

namespace SqlDdl

namespace Decimal

/-- The decimal in positional notation: all its digits, a point only when some digit stands
after it, and as many zeros as the exponent asks for between the digits and the point. -/
def positional (d : Decimal) : String :=
  let ds := (Nat.repr d.digits).toList
  let point : Int := ds.length + d.exponent
  if point ≤ 0 then
    "0." ++ String.ofList (List.replicate (-point).toNat '0' ++ ds)
  else if point < ds.length then
    String.ofList (ds.take point.toNat ++ '.' :: ds.drop point.toNat)
  else
    String.ofList (ds ++ List.replicate (point.toNat - ds.length) '0')

end Decimal

namespace Binary64

/-- The text of a value: `NaN`, `inf`, or the shortest decimal in positional notation, with a
leading minus when the sign bit is set. -/
def toText (x : Binary64) : String :=
  let sign := if x.negative then "-" else ""
  match x.classify with
  | .nan => "NaN"
  | .infinite _ => sign ++ "inf"
  | .finite _ 0 _ => sign ++ "0"
  | .finite _ m e => sign ++ (shortestOf x.biasedExponent m e).positional

end Binary64

end SqlDdl
