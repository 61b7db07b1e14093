/-!
# Object names

A possibly qualified name of a table or column, such as `shop.orders`, kept as its parts, each
as written and without quotes. The name is written back by joining the parts with `.`, and its
*base* is the last part.

Read from text, a name is split at every `.`, so the empty text is one empty part and `a..b`
has an empty part in the middle; written back, it gives the text it was read from.
-/

namespace SqlDdl

/-- A possibly qualified object name. -/
structure ObjectName where
  parts : List String
  deriving DecidableEq, Repr

namespace ObjectName

/-- The name read from text, split at every `.`. -/
def ofString (s : String) : ObjectName :=
  ⟨(s.toList.splitOn '.').map String.ofList⟩

/-- The last part of the name, or the empty text for a name without parts. -/
def base (n : ObjectName) : String :=
  n.parts.getLast?.getD ""

/-- The parts joined by `.`. -/
def render (n : ObjectName) : String :=
  String.ofList (['.'].intercalate (n.parts.map String.toList))

/-- Reading a text as a name and writing the name back gives the text. -/
theorem render_ofString (s : String) : (ofString s).render = s := by
  simp [ofString, render, List.map_map, Function.comp_def, List.intercalate_splitOn]

end ObjectName

end SqlDdl
