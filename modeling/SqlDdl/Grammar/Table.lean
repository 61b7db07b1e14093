import SqlDdl.Grammar.Column
import SqlDdl.Grammar.Select
import SqlDdl.Dialect
/-!
# The table grammar

`CREATE [TEMPORARY] TABLE [IF NOT EXISTS] name [(elements)] tail [[AS] SELECT …]`, and at the
end of a statement an optional `;`.

The elements are separated by commas. In the generic dialect an element is a column definition
or a primary key constraint, with an optional `CONSTRAINT [name]` before it. MySQL adds
`INDEX` definitions and `KEY` constraints. The tail is where the dialects differ most: the
generic one has nothing there, while MySQL reads table options (`ENGINE`, `TYPE`,
`AUTO_INCREMENT`, `CHARSET` or `CHARACTER SET`, `COLLATE`, `COMMENT`, `ROW_FORMAT`, each with
`=` and a value; `DEFAULT` may stand before `CHARSET` and `COLLATE`) and at most one
`PARTITION BY KEY (columns) [PARTITIONS n]`, in any order. Both refuse an `ON` clause after the
definition.

Main definition: `parse`, a whole statement from its text.
-/

namespace SqlDdl

namespace Grammar

/-- The names of the table options, as they are stored. -/
def optionNames : List String :=
  ["ENGINE", "TYPE", "AUTO_INCREMENT", "CHARSET", "CHARACTER", "COLLATE", "COMMENT", "ROW_FORMAT"]

/-- The value of a table option: the text of the one token that follows. -/
def optionValue : Grammar String := do
  match ← peek with
  | none => expected "table option value"
  | some t =>
    let _ ← takeAny
    return t.literal

/-- Refuses an `ON` clause after a table definition. -/
def rejectOnClause : Grammar Unit := do
  if (← peek) == some (.keyword .on) then unsupported "ON clause after table definition"

section Rules

variable {m : Type → Type} [Monad m] [MonadLiftT Grammar m] [Parser m] [ExprParser m]

/-- An index definition after `INDEX` or `KEY`: an optional name, an optional type, the columns,
and the type after them if it was not given before. -/
def indexDef : m IndexDef := do
  let named := (← peekName) && !(← Parser.peekWord "USING")
  let name ← if named then some <$> expectName "identifier" else pure none
  let before ← indexType
  let columns ← indexColumns
  let indexType ← if before.isNone then indexType else pure before
  return ⟨name, indexType, columns⟩

/-- A table constraint. -/
def tableConstraint : Dialect → m Constraint
  | .generic => do
    let name ← constraintName
    if (← peek) == some (.keyword .primary) then primaryKeyConstraint name
    else unsupported "table constraint other than PRIMARY KEY"
  | .mysql => do
    let name ← constraintName
    if ← takeIf (.keyword .key) then return ⟨name, .key (← indexDef)⟩
    if (← peek) == some (.keyword .primary) then primaryKeyConstraint name
    else unsupported "table constraint other than KEY or PRIMARY KEY"

/-- An element of a table definition. -/
def tableElement : Dialect → m Element
  | .generic => do
    if ← peekName then return .column (← columnDef)
    match ← peek with
    | some (.keyword .constraint) | some (.keyword .primary) =>
      return .constraint (← tableConstraint .generic)
    | _ => expected "column definition or table constraint"
  | .mysql => do
    if ← peekName then return .column (← columnDef)
    match ← peek with
    | some (.keyword .constraint) | some (.keyword .key) | some (.keyword .primary) =>
      return .constraint (← tableConstraint .mysql)
    | some (.keyword .index) =>
      let _ ← takeAny
      return .index (← indexDef)
    | _ => expected "column definition, constraint, INDEX, KEY or PRIMARY KEY"

/-- The elements of a table definition in parentheses, separated by commas. -/
def tableElements (d : Dialect) : m (List Element) := do
  expect .openParen
  let elements ← sepBy1 (tableElement d) .comma
  expect .closeParen
  return elements

/-- The name of a table option, if one follows: the word matched up to ASCII case, with
`CHARACTER SET` read as `CHARSET`. `DEFAULT` may stand before `CHARSET` and `COLLATE` only. -/
def optionName : m (Option String) := do
  let hasDefault ← takeIf (.keyword .default)
  let word ← Parser.takeWordOf optionNames
  let name ← if word == some "CHARACTER" then do
      if ← Parser.takeWord "SET" then pure (some "CHARSET") else expected "SET after CHARACTER"
    else pure word
  if hasDefault && !(name == some "CHARSET" || name == some "COLLATE") then
    expected "CHARSET or COLLATE after DEFAULT"
  else return name

/-- Partitioning after `PARTITION`: `BY KEY`, the key columns in parentheses, and an optional
`PARTITIONS` count. -/
def keyPartitioning : m KeyPartitioning := do
  expect (.keyword .by)
  if !(← takeIf (.keyword .key)) then unsupported "partitioning other than PARTITION BY KEY"
  expect .openParen
  if (← peek) == some .closeParen then expected "at least one partitioning column"
  let columns ← sepBy1 qualifiedName .comma
  expect .closeParen
  let partitions ← if ← Parser.takeWord "PARTITIONS" then some <$> ExprParser.expression
    else pure none
  return ⟨columns, partitions⟩

/-- One table option or partitioning clause of MySQL after `stmt`, or the end of them. -/
def tailClause (stmt : Statement) : m (Statement ⊕ Statement) := do
  if let some name ← optionName then
    expect .equal
    let value ← optionValue
    return .inr { stmt with options := stmt.options.insert name value }
  else if ← Parser.peekWord "PARTITION" then
    if stmt.partitioning.isSome then expected "at most one PARTITION BY clause"
    else
      let _ ← takeAny
      return .inr { stmt with partitioning := some (← keyPartitioning) }
  else return .inl stmt

/-- The query after a table definition, after `AS` or if `SELECT` follows. -/
def trailingQuery : m (Option Select) := do
  if (← takeIf (.keyword .as)) || (← peek) == some (.keyword .select) then
    return some (← select)
  else return none

/-- What follows the elements of a table definition, filled into `stmt`. -/
def tableTail (d : Dialect) (stmt : Statement) : m Statement := do
  let stmt ← match d with
    | .generic => pure stmt
    | .mysql => Parser.loop tailClause id stmt
  rejectOnClause
  return { stmt with query := ← trailingQuery }

/-- A `CREATE TABLE` statement; without `acceptCreate` it starts after `CREATE`. -/
def createTable (d : Dialect) (acceptCreate : Bool) : m Statement := do
  if acceptCreate then expect (.keyword .create)
  let temporary ← takeIf (.keyword .temporary)
  expect (.keyword .table)
  let ifNotExists ← if ← takeIf (.keyword .if) then do
      expect (.keyword .not)
      expect (.keyword .exists)
      pure true
    else pure false
  let name ← qualifiedName
  let stmt : Statement := { name, temporary, ifNotExists }
  let stmt ← if (← peek) == some .openParen then
      pure { stmt with elements := ← tableElements d }
    else pure stmt
  tableTail d stmt

/-- A whole statement: a table definition, an optional `;`, and nothing after it. -/
def statement (d : Dialect) : m Statement := do
  let stmt ← createTable d true
  let _ ← takeIf .semicolon
  if (← peek).isSome then expected "end of statement"
  else return stmt

end Rules

end Grammar

/-- The statement a text holds in the given dialect, or why it holds none. -/
def parse (d : Dialect) (sql : String) : Except ParseError Statement :=
  (Grammar.statement d : Grammar Statement).run (Cursor.ofString sql) |>.map (·.1)

/-! ## The table grammar with the nesting counter -/

namespace Method

def tableConstraint (d : Dialect) : Method Constraint := Grammar.tableConstraint d

def tableElement (d : Dialect) : Method Element := Grammar.tableElement d

def tableElements (d : Dialect) : Method (List Element) := Grammar.tableElements d

def trailingQuery : Method (Option Select) := Grammar.trailingQuery

def tableTail (d : Dialect) (stmt : Statement) : Method Statement := Grammar.tableTail d stmt

def createTable (d : Dialect) (acceptCreate : Bool) : Method Statement :=
  Grammar.createTable d acceptCreate

def statement (d : Dialect) : Method Statement := Grammar.statement d

end Method

end SqlDdl
