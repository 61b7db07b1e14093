import SqlDdl.Grammar.Cursor
import SqlDdl.Ast.DataType
import SqlDdl.Text.UpperCase
import SqlDdl.Binary64.Nearest
/-!
# The type grammar

A column type is a name, matched by its full upper case, and arguments in parentheses. The known
types take unsigned 32-bit integers as arguments, at most as many as the type has; the integer
types may be followed by `UNSIGNED` and `ZEROFILL`, and `DOUBLE` by `PRECISION`. A name the
grammar does not know is kept as written, with its arguments as text: numbers, strings and
identifiers, at least one when there are parentheses.
-/

namespace SqlDdl

namespace Grammar

/-- The value of a number token with digits alone, if it fits in 32 bits unsigned. -/
def u32? (n : String) : Option Nat :=
  if !n.toList.isEmpty && n.toList.all Char.isDigit then
    let v := Binary64.digitsValue n.toList
    if v < Nat.pow 2 32 then some v else none
  else none

/-- A numeric type argument. -/
def typeArgument : Grammar Nat := do
  match ← takeMap fun | .number n => u32? n | _ => none with
  | some n => pure n
  | none => expected "unsigned integer type argument"

/-- One round of the numeric arguments after `args`, those read so far, last first: an
argument, then a comma unless it was the `max`-th; without a comma the list ends, in order. -/
def typeArgumentRound (max : Nat) (args : List Nat) : Grammar (List Nat ⊕ List Nat) := do
  let args := (← typeArgument) :: args
  if args.length ≥ max then return .inl args.reverse
  if ← takeIf .comma then return .inr args else return .inl args.reverse

/-- Numeric arguments in parentheses, if a `(` follows: at most `max` of them, with commas
between; the list ends at the `max`-th argument even if a comma follows. -/
def typeArguments (max : Nat) : Grammar (List Nat) := do
  if !(← takeIf .openParen) then return []
  let args ← loop (typeArgumentRound max) List.reverse []
  expect .closeParen
  return args

/-- An argument of a type the grammar does not know, as its text. -/
def customArgument? : Token → Option String
  | t@(.number _) | t@(.string _) | t@(.ident _) | t@(.quotedIdent _) => some t.literal
  | _ => none

/-- An argument of a type the grammar does not know. -/
def customArgument : Grammar String := do
  match ← takeMap customArgument? with
  | some a => pure a
  | none => expected "type argument"

/-- The arguments of a type the grammar does not know, in parentheses if a `(` follows. -/
def customArguments : Grammar (List String) := do
  if !(← takeIf .openParen) then return []
  let args ← sepBy1 customArgument .comma
  expect .closeParen
  return args

section Types

variable {m : Type → Type} [Monad m] [MonadLiftT Grammar m] [Parser m]

/-- An integer type of the given size: a display width, then `UNSIGNED` and `ZEROFILL`. -/
def integerType (size : IntegerSize) : m DataType := do
  let width := (← typeArguments 1).head?
  let unsigned ← Parser.takeWord "UNSIGNED"
  let _ ← Parser.takeWord "ZEROFILL"
  return .integer size width unsigned

/-- A column type. -/
def dataType : m DataType := do
  let name ← expectName "data type"
  match Text.toUpperCase name with
  | "TINYINT" => integerType .tiny
  | "SMALLINT" => integerType .small
  | "MEDIUMINT" => integerType .medium
  | "INT" | "INTEGER" => integerType .int
  | "BIGINT" => integerType .big
  | "DECIMAL" | "NUMERIC" | "DEC" =>
    let args ← typeArguments 2
    return .decimal args[0]? args[1]?
  | "FLOAT" | "REAL" =>
    let _ ← typeArguments 2
    return .float
  | "DOUBLE" =>
    let _ ← Parser.takeWord "PRECISION"
    let _ ← typeArguments 2
    return .double
  | "BOOL" | "BOOLEAN" => return .boolean
  | "CHAR" | "CHARACTER" => return .char (← typeArguments 1).head?
  | "VARCHAR" =>
    expect .openParen
    let length ← typeArgument
    expect .closeParen
    return .varchar length
  | "TEXT" | "TINYTEXT" | "MEDIUMTEXT" | "LONGTEXT" =>
    let _ ← typeArguments 1
    return .text
  | "BLOB" | "TINYBLOB" | "MEDIUMBLOB" | "LONGBLOB" =>
    let _ ← typeArguments 1
    return .blob
  | "DATE" => return .date
  | "TIME" =>
    let _ ← typeArguments 1
    return .time
  | "DATETIME" =>
    let _ ← typeArguments 1
    return .dateTime
  | "TIMESTAMP" =>
    let _ ← typeArguments 1
    return .timestamp
  | _ => return .custom name (← customArguments)

end Types

end Grammar

end SqlDdl
