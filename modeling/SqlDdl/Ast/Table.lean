import SqlDdl.Ast.DataType
import SqlDdl.Ast.Select
import SqlDdl.Ast.Options
/-!
# Table definitions

A `CREATE TABLE` statement: the table's name, whether it is temporary and whether it is only to
be made if it does not exist yet, its elements (columns, constraints and indexes), its options,
its partitioning, and the query that may fill it.
-/

namespace SqlDdl

/-- A column definition. -/
structure Column where
  name : String
  dataType : DataType
  /-- Whether the column admits null, if `NULL` or `NOT NULL` was given. -/
  nullable : Option Bool := none
  defaultValue : Option Expr := none
  primaryKey : Bool := false
  unique : Bool := false
  autoIncrement : Bool := false
  comment : Option String := none
  deriving Repr

/-- An index: its name, the index type after `USING`, and the indexed expressions, of which
there is at least one. -/
structure IndexDef where
  name : Option String
  indexType : Option String
  columns : List Expr
  deriving Repr

/-- What a table constraint requires. -/
inductive ConstraintKind where
  /-- A key, which is an index. -/
  | key (index : IndexDef)
  /-- The primary key over the given expressions. -/
  | primaryKey (indexType : Option String) (columns : List Expr)
  deriving Repr

/-- A table constraint with its optional name. -/
structure Constraint where
  name : Option String
  kind : ConstraintKind
  deriving Repr

/-- An element of a table definition. -/
inductive Element where
  | column (c : Column)
  | constraint (c : Constraint)
  | index (i : IndexDef)
  deriving Repr

/-- Partitioning by key: the key columns, of which there is at least one, and the number of
partitions. -/
structure KeyPartitioning where
  columns : List ObjectName
  partitions : Option Expr
  deriving Repr

/-- Whether a table is an ordinary one or a temporary one. -/
inductive TableKind where
  | table
  | globalTemporary
  deriving DecidableEq, Repr

/-- A `CREATE TABLE` statement. -/
structure Statement where
  name : ObjectName
  temporary : Bool := false
  ifNotExists : Bool := false
  elements : List Element := []
  options : TableOptions := {}
  partitioning : Option KeyPartitioning := none
  query : Option Select := none
  deriving Repr

namespace Statement

/-- A temporary table is a global temporary one. -/
def kind (s : Statement) : TableKind :=
  if s.temporary then .globalTemporary else .table

/-- The column definitions among the elements, in order. -/
def columns (s : Statement) : List Column :=
  s.elements.filterMap fun
    | .column c => some c
    | _ => none

end Statement

end SqlDdl
