import SqlDdl.Grammar.Expr
import SqlDdl.Ast.Select
/-!
# The query grammar

`SELECT [DISTINCT] items [FROM tables] [WHERE e] [GROUP BY es] [HAVING e] [ORDER BY items]
[LIMIT …]`. A selected expression and a table may have an alias, after `AS` or directly; `*` may
not. An ordering is ascending unless `DESC` says otherwise. `LIMIT a, b` skips `a` rows and keeps
`b`, as `LIMIT b OFFSET a` does.
-/

namespace SqlDdl

namespace Grammar

/-- An alias, if `AS` or a name follows. -/
def aliasAfter (what : String) : Grammar (Option String) := do
  if (← takeIf (.keyword .as)) || (← peekName) then return some (← expectName what)
  else return none

/-- A table read by a query, with its alias. -/
def tableRef : Grammar TableRef := do
  let name ← qualifiedName
  return ⟨name, ← aliasAfter "table alias"⟩

section Rules

variable {m : Type → Type} [Monad m] [MonadLiftT Grammar m] [Parser m] [ExprParser m]

/-- A selected expression with its alias. -/
def selectItem : m SelectItem := do
  let expr ← ExprParser.expression
  if (← takeIf (.keyword .as)) || (← peekName) then
    if let .all := expr then expected "no alias after *"
    else return ⟨expr, some (← expectName "column alias")⟩
  else return ⟨expr, none⟩

/-- An expression to order by with its direction. -/
def orderItem : m OrderItem := do
  let expr ← ExprParser.expression
  let direction ← takeMap fun
    | .keyword .asc => some Direction.asc
    | .keyword .desc => some .desc
    | _ => none
  return ⟨expr, direction.getD .asc⟩

/-- The limit clause, if `LIMIT` follows: the offset and the limit. -/
def limitClause : m (Option Expr × Option Expr) := do
  if !(← takeIf (.keyword .limit)) then return (none, none)
  let first ← ExprParser.expression
  if ← takeIf .comma then return (some first, some (← ExprParser.expression))
  if ← takeIf (.keyword .offset) then return (some (← ExprParser.expression), some first)
  return (none, some first)

/-- A `SELECT` query. -/
def select : m Select := do
  expect (.keyword .select)
  let distinct ← takeIf (.keyword .distinct)
  let items ← sepBy1 selectItem .comma
  let tables ← if ← takeIf (.keyword .from) then sepBy1 tableRef .comma else pure []
  let filter ← if ← takeIf (.keyword .where) then some <$> ExprParser.expression else pure none
  let groupBy ← if ← takeIf (.keyword .group) then do
      expect (.keyword .by)
      sepBy1 ExprParser.expression .comma
    else pure []
  let having ← if ← takeIf (.keyword .having) then some <$> ExprParser.expression else pure none
  let orderBy ← if ← takeIf (.keyword .order) then do
      expect (.keyword .by)
      sepBy1 orderItem .comma
    else pure []
  let (offset, limit) ← limitClause
  return { distinct, items, tables, filter, groupBy, having, orderBy, offset, limit }

end Rules

end Grammar

/-! ## The query grammar with the nesting counter -/

namespace Method

def select : Method Select := Grammar.select

end Method

end SqlDdl
