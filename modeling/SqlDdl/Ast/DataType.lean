/-!
# Column types

The types a column can be declared with. The integer types keep their display width and whether
they are unsigned; `DECIMAL` keeps precision and scale, `CHAR` and `VARCHAR` their length. Any
type name that is not one of the known ones is kept as written, with the text of its arguments.
-/

namespace SqlDdl

/-- The sizes of the integer types, from `TINYINT` to `BIGINT`. -/
inductive IntegerSize where
  | tiny | small | medium | int | big
  deriving DecidableEq, Repr

/-- The type of a column. -/
inductive DataType where
  | integer (size : IntegerSize) (width : Option Nat) (unsigned : Bool)
  | decimal (precision scale : Option Nat)
  | float
  | double
  | boolean
  | char (length : Option Nat)
  | varchar (length : Nat)
  | text
  | blob
  | date
  | time
  | dateTime
  | timestamp
  /-- A type the grammar does not know: its name as written and its arguments as text. -/
  | custom (name : String) (args : List String)
  deriving DecidableEq, Repr

end SqlDdl
