import SqlDdl.Grammar.Cursor
import SqlDdl.Ast.Expr
import SqlDdl.Ast.Name
import SqlDdl.Binary64.Nearest
/-!
# The expression grammar

Expressions are read by precedence climbing. The binding powers, from loosest to tightest:

| power | operators |
|---|---|
| 1 | `OR` |
| 2 | `AND` |
| 3 | prefix `NOT` |
| 4 | `=`, `!=` (also written `<>`), postfix `IS [NOT] NULL` |
| 5 | `<`, `<=`, `>`, `>=` |
| 6 | `+`, `-` |
| 7 | `*`, `/`, `%` |
| 10 | prefix `-`, `+` |

Binary operators group to the left: the right operand is read at one power more. A prefix
operator's operand is read at its own power. At each level an operand is read first (a prefix
operator with its operand, or an atom), then postfix tests, then binary operators, then postfix
tests again. An atom is `*`, a literal, a column `c` or `t.c`, a call `f(args)`, or an
expression in parentheses.

Nesting is bounded: reading an expression inside another goes one level deeper, and at
`maxDepth` levels the text is refused, so deep input cannot exhaust the stack.

Also here: names, qualified names and string literals, which the other rules share.
-/

namespace SqlDdl

namespace Literal

/-- The literal a number stands for: an integer when the number has digits alone, which must
then lie within the range of 64-bit signed integers; otherwise the nearest binary64 value. On
failure, what was expected instead. -/
def ofNumeral (n : String) : Except String Literal :=
  if n.toList.all Char.isDigit then
    let v := Binary64.digitsValue n.toList
    if v < Nat.pow 2 63 then .ok (.integer v) else .error "integer within 64-bit range"
  else
    match Binary64.ofNumeral? n with
    | some x => .ok (.float x)
    | none => .error "numeric literal"

end Literal

namespace Grammar

/-- The deepest nesting of expressions that is read. -/
def maxDepth : Nat := 128

/-- A prefix operator with its binding power. -/
def prefixOp? : Token → Option (UnaryOp × Nat)
  | .keyword .not => some (.not, 3)
  | .minus => some (.negate, 10)
  | .plus => some (.identity, 10)
  | _ => none

/-- A binary operator with its binding power. -/
def infixOp? : Token → Option (BinaryOp × Nat)
  | .keyword .or => some (.or, 1)
  | .keyword .and => some (.and, 2)
  | .equal => some (.equal, 4)
  | .notEqual => some (.notEqual, 4)
  | .greaterThan => some (.greaterThan, 5)
  | .greaterThanOrEqual => some (.greaterThanOrEqual, 5)
  | .lessThan => some (.lessThan, 5)
  | .lessThanOrEqual => some (.lessThanOrEqual, 5)
  | .plus => some (.add, 6)
  | .minus => some (.subtract, 6)
  | .asterisk => some (.multiply, 7)
  | .slash => some (.divide, 7)
  | .percent => some (.remainder, 7)
  | _ => none

/-- The binding power of the postfix test `IS [NOT] NULL`, that of `=`. -/
def isNullPower : Nat := 4

/-- Keeps an operator only if it binds at least as tight as `minPower`. -/
def atLeast (minPower : Nat) (op : Option (α × Nat)) : Option (α × Nat) :=
  op.filter (minPower ≤ ·.2)

/-- A null test, if the next token starts one and `minPower` admits it: `IS NULL` gives
`false` and `IS NOT NULL` gives `true`. The next token is looked at even when the power does
not admit the test, so a lex error there is reported. -/
def nullTest? (minPower : Nat) : Grammar (Option Bool) := do
  if (← peek) != some (.keyword .is) then return none
  if isNullPower < minPower then return none
  expect (.keyword .is)
  let negated ← takeIf (.keyword .not)
  expect (.keyword .null)
  return some negated

/-- The expression with a null test applied: `IS NOT NULL` is the negation of `IS NULL`. -/
def applyNullTest (negated : Bool) (e : Expr) : Expr :=
  if negated then .unary .not (.isNull e) else .isNull e

/-- Null tests after `e`, as many as follow. -/
def nullTests (minPower : Nat) (e : Expr) : Grammar Expr :=
  loop (fun e => do
      match ← nullTest? minPower with
      | some negated => return .inr (applyNullTest negated e)
      | none => return .inl e)
    id e

section Operators

variable {m : Type → Type} [Monad m] [MonadLiftT Grammar m] [Parser m]

/-- Binary operators and their right operands after `lhs`, as many as follow and bind at least
as tight as `minPower`; `sub p` reads an operand at power `p`, one level deeper. -/
def infixes (sub : Nat → m Expr) (minPower : Nat) (lhs : Expr) : m Expr :=
  Parser.loop (fun lhs => do
      match ← takeMap (atLeast minPower ∘ infixOp?) with
      | some (op, power) =>
        let rhs ← sub (power + 1)
        return .inr (.binary op lhs rhs)
      | none => return .inl lhs)
    id lhs

/-- The arguments of a call after its `(`, up to and with the `)`, separated by commas. -/
def callArguments (sub : Nat → m Expr) : m (List Expr) :=
  Parser.loop (fun args => do
      if ← takeIf .closeParen then return .inl args.reverse
      if !args.isEmpty then expect .comma
      let arg ← sub 0
      return .inr (arg :: args))
    List.reverse []

/-- An atom; `sub 0` reads an expression one level deeper, in parentheses or as an argument. -/
def atom (sub : Nat → m Expr) : m Expr := do
  let some token ← peek | expected "expression"
  let off ← offset
  let _ ← takeAny
  match token with
  | .asterisk => return .all
  | .number n =>
    match Literal.ofNumeral n with
    | .ok l => return .literal l
    | .error what => fail (.expected what (some token) off)
  | .string s => return .literal (.string s)
  | .keyword .true => return .literal (.boolean true)
  | .keyword .false => return .literal (.boolean false)
  | .keyword .null => return .literal .null
  | .ident name | .quotedIdent name =>
    if ← takeIf .openParen then return .function name (← callArguments sub)
    else if ← takeIf .period then return .column (some name) (← expectName "column name")
    else return .column none name
  | .openParen =>
    let e ← sub 0
    expect .closeParen
    return e
  | _ => fail (.expected "expression" (some token) off)

/-- The operators and operands of one level; `sub p` reads an operand at power `p`, one level
deeper. -/
def operators (sub : Nat → m Expr) (minPower : Nat) : m Expr := do
  let first ← match ← takeMap (atLeast minPower ∘ prefixOp?) with
    | some (op, power) => pure (.unary op (← sub power))
    | none => atom sub
  let lhs ← nullTests minPower first
  let lhs ← infixes sub minPower lhs
  nullTests minPower lhs

end Operators

/-- An expression at nesting depth `depth` whose operators bind at least as tight as
`minPower`. -/
def expressionAt (depth minPower : Nat) : Grammar Expr :=
  if _h : maxDepth ≤ depth then expected "expression nesting within limit"
  else operators (fun power => expressionAt (depth + 1) power) minPower
termination_by maxDepth - depth

/-- An expression. -/
def expression : Grammar Expr := expressionAt 0 0

/-- A name: a bare or quoted identifier. -/
def name : Grammar String := expectName "name"

/-- A possibly qualified name: names separated by `.`. -/
def qualifiedName : Grammar ObjectName := do
  return ⟨← sepBy1 name .period⟩

/-- A string literal's contents. -/
def stringLiteral : Grammar String := do
  match ← takeMap fun | .string s => some s | _ => none with
  | some s => pure s
  | none => expected "string literal"

end Grammar

/-- A parser that reads expressions, for the rules that read expressions within them. -/
class ExprParser (m : Type → Type) where
  /-- Reads an expression. -/
  expression : m Expr

instance : ExprParser Grammar := ⟨Grammar.expression⟩

@[simp] theorem Grammar.exprParser_expression :
    (ExprParser.expression : Grammar Expr) = Grammar.expression := rfl

/-! ## The expression rule with the nesting counter -/

namespace Method

/-- An expression whose operators bind at least as tight as `minPower`. At `maxDepth` nested
expressions the counter refuses to go deeper; below it, the operators and operands of one level
are read one level deeper, and the nested expressions by this same method.

`fuel` is bookkeeping for the recursion, not a bound: the counter is checked before every level,
so a run given at least `maxDepth - depth` of it never runs out, and the limit answers before the
fuel does. -/
def expressionAt : (fuel minPower : Nat) → Method Expr
  | 0, _ => lift (Grammar.expected "expression nesting within limit")
  | fuel + 1, minPower => do
    if Grammar.maxDepth ≤ (← depth) then Grammar.expected "expression nesting within limit"
    else deeper (Grammar.operators (expressionAt fuel) minPower)

/-- An expression, read with the counter where it stands. -/
def expression : Method Expr := expressionAt Grammar.maxDepth 0

end Method

instance : ExprParser Method := ⟨Method.expression⟩

end SqlDdl
