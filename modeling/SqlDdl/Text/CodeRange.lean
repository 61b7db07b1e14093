/-!
# Code point ranges

A character property of the Unicode Character Database is stored here as a sorted list of
inclusive code point ranges, the form in which the database itself lists most properties. A
character has the property when its code point lies in one of the ranges.
-/

namespace SqlDdl.Text

/-- An inclusive range `lo..hi` of code points. -/
structure CodeRange where
  lo : Nat
  hi : Nat
  deriving Repr, DecidableEq

namespace CodeRange

/-- Whether `n` lies between the two ends of the range, both included. -/
def contains (r : CodeRange) (n : Nat) : Bool :=
  r.lo ≤ n && n ≤ r.hi

/-- Whether `n` lies in one of the ranges of a table. -/
def anyContains (table : List CodeRange) (n : Nat) : Bool :=
  table.any (·.contains n)

@[simp] theorem contains_iff (r : CodeRange) (n : Nat) :
    r.contains n = true ↔ r.lo ≤ n ∧ n ≤ r.hi := by
  simp [contains]

theorem anyContains_iff (table : List CodeRange) (n : Nat) :
    anyContains table n = true ↔ ∃ r ∈ table, r.lo ≤ n ∧ n ≤ r.hi := by
  simp [anyContains]

end CodeRange

end SqlDdl.Text
