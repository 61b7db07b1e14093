import SqlDdl.Grammar.Expr
import SqlDdl.Grammar.DataType
import SqlDdl.Ast.Table
/-!
# Columns, indexes and primary keys

A column definition is a name, a type, and then options in any order: `NULL` or `NOT NULL` (one
of them, once), `DEFAULT` and an expression, `PRIMARY KEY`, `UNIQUE [KEY]`, `AUTO_INCREMENT`, and
`COMMENT` with a string. An index names its columns in parentheses, at least one, each an
expression with an optional `ASC` or `DESC`, and may give its type after `USING`, before or
after the columns. A primary key constraint is `PRIMARY KEY` and such an index.
-/

namespace SqlDdl

namespace Grammar

/-- Whether the column admits null: `NOT NULL` gives `false`, `NULL` gives `true`, and anything
else none. -/
def nullability : Grammar (Option Bool) := do
  if ← takeIf (.keyword .not) then
    expect (.keyword .null)
    return some false
  return if ← takeIf (.keyword .null) then some true else none

section Rules

variable {m : Type → Type} [Monad m] [MonadLiftT Grammar m] [Parser m] [ExprParser m]

/-- One option of a column definition after `col` other than `NULL` and `NOT NULL`, or the
end of the options. -/
def otherOption (col : Column) : m (Column ⊕ Column) := do
  if ← takeIf (.keyword .default) then
    return .inr { col with defaultValue := some (← ExprParser.expression) }
  else if ← takeIf (.keyword .primary) then
    expect (.keyword .key)
    return .inr { col with primaryKey := true }
  else if ← takeIf (.keyword .unique) then
    let _ ← takeIf (.keyword .key)
    return .inr { col with unique := true }
  else if ← Parser.takeWord "AUTO_INCREMENT" then
    return .inr { col with autoIncrement := true }
  else if ← Parser.takeWord "COMMENT" then
    return .inr { col with comment := some (← stringLiteral) }
  else return .inl col

/-- One option of a column definition after `col`, or the end of the options. -/
def columnOption (col : Column) : m (Column ⊕ Column) := do
  let off ← offset
  if let some n ← nullability then
    if col.nullable.isSome then
      fail (.expected "a single NULL or NOT NULL per column" (some (.keyword .null)) off)
    else return .inr { col with nullable := some n }
  else otherOption col

/-- A column definition. -/
def columnDef : m Column := do
  let name ← name
  let dataType ← dataType
  Parser.loop columnOption id { name, dataType }

/-- The index type after `USING`, if `USING` follows. -/
def indexType : m (Option String) := do
  if ← Parser.takeWord "USING" then return some (← expectName "index type") else return none

/-- An indexed expression, with an optional direction that is read and dropped. -/
def indexColumn : m Expr := do
  let e ← ExprParser.expression
  let _ ← takeMap fun
    | .keyword .asc | .keyword .desc => some ()
    | _ => none
  return e

/-- The indexed expressions in parentheses, at least one. -/
def indexColumns : m (List Expr) := do
  expect .openParen
  if (← peek) == some .closeParen then expected "at least one index column"
  let columns ← sepBy1 indexColumn .comma
  expect .closeParen
  return columns

/-- A primary key constraint with the given name. -/
def primaryKeyConstraint (name : Option String) : m Constraint := do
  expect (.keyword .primary)
  expect (.keyword .key)
  let before ← indexType
  let columns ← indexColumns
  let indexType ← if before.isNone then indexType else pure before
  return ⟨name, .primaryKey indexType columns⟩

end Rules

/-- The name after `CONSTRAINT`, if `CONSTRAINT` follows; the name itself may be missing. -/
def constraintName : Grammar (Option String) := do
  if ← takeIf (.keyword .constraint) then takeMap Token.name? else return none

end Grammar

/-! ## Columns, indexes and primary keys with the nesting counter -/

namespace Method

def columnDef : Method Column := Grammar.columnDef

def indexColumns : Method (List Expr) := Grammar.indexColumns

def primaryKeyConstraint (name : Option String) : Method Constraint :=
  Grammar.primaryKeyConstraint name

end Method

end SqlDdl
