import SqlDdl.Ast.Expr
import SqlDdl.Ast.Name
/-!
# Queries

The query that may follow a table definition (`CREATE TABLE t AS SELECT …`): the selected
expressions with their aliases, the tables read, the filter, grouping, the filter on groups,
the order, and the limit with its offset.
-/

namespace SqlDdl

/-- A selected expression with its alias. -/
structure SelectItem where
  expr : Expr
  aliasName : Option String
  deriving Repr

/-- A table read by a query, with its alias. -/
structure TableRef where
  name : ObjectName
  aliasName : Option String
  deriving Repr

/-- The direction of an ordering. -/
inductive Direction where
  | asc | desc
  deriving DecidableEq, Repr

/-- An expression to order by, with its direction. -/
structure OrderItem where
  expr : Expr
  direction : Direction
  deriving Repr

/-- A `SELECT` query. -/
structure Select where
  distinct : Bool
  items : List SelectItem
  tables : List TableRef
  filter : Option Expr
  groupBy : List Expr
  having : Option Expr
  orderBy : List OrderItem
  offset : Option Expr
  limit : Option Expr
  deriving Repr

end SqlDdl
