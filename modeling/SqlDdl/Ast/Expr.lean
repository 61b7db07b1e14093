import SqlDdl.Binary64.Text
/-!
# Expressions

The expressions of column defaults, index columns, partition counts and queries: literals,
column references, function calls, `*`, and the operators of the SQL grammar.

Every expression is written back fully parenthesised, so that its text shows its tree: a binary
operator as `(l OP r)`, `NOT e` as `(NOT e)`, the test for null as `(e IS NULL)`, while a sign is
written bare before its operand, as `-e` and `+e`. Strings are quoted with single quotes, a quote
inside written twice.
-/

namespace SqlDdl

/-- A literal value. Integers are those written with digits alone, within the range of 64-bit
signed integers; any other number is a binary64 value. -/
inductive Literal where
  | null
  | boolean (b : Bool)
  | integer (n : Nat)
  | float (x : Binary64)
  | string (s : String)
  deriving DecidableEq, Repr

namespace Literal

/-- The characters with each `q` among them written twice. -/
def doubleQuote (q : Char) : List Char → List Char
  | [] => []
  | c :: cs => if c = q then q :: q :: doubleQuote q cs else c :: doubleQuote q cs

/-- The text of a string literal: single quotes around it, each quote inside written twice. -/
def quote (s : String) : String :=
  String.ofList ('\'' :: doubleQuote '\'' s.toList ++ ['\''])

/-- The text of a literal. -/
def render : Literal → String
  | .null => "NULL"
  | .boolean true => "TRUE"
  | .boolean false => "FALSE"
  | .integer n => Nat.repr n
  | .float x => x.toText
  | .string s => quote s

end Literal

/-- The operators written before their operand. -/
inductive UnaryOp where
  | not | negate | identity
  deriving DecidableEq, Repr

/-- The operators written between their operands. -/
inductive BinaryOp where
  | and | or | equal | notEqual | greaterThan | greaterThanOrEqual | lessThan | lessThanOrEqual
  | add | subtract | multiply | divide | remainder
  deriving DecidableEq, Repr

/-- How a binary operator is written. -/
def BinaryOp.symbol : BinaryOp → String
  | .and => "AND" | .or => "OR" | .equal => "=" | .notEqual => "!="
  | .greaterThan => ">" | .greaterThanOrEqual => ">=" | .lessThan => "<"
  | .lessThanOrEqual => "<=" | .add => "+" | .subtract => "-" | .multiply => "*"
  | .divide => "/" | .remainder => "%"

/-- An expression. -/
inductive Expr where
  /-- All columns, written `*`. -/
  | all
  /-- A column, possibly qualified by its table. -/
  | column (table : Option String) (name : String)
  | literal (l : Literal)
  /-- A call of a function by name. -/
  | function (name : String) (args : List Expr)
  | unary (op : UnaryOp) (operand : Expr)
  | binary (op : BinaryOp) (left right : Expr)
  /-- The test `operand IS NULL`. -/
  | isNull (operand : Expr)
  deriving Repr

namespace Expr

/-- The fully parenthesised text of an expression. -/
def render : Expr → String
  | .all => "*"
  | .column none c => c
  | .column (some t) c => t ++ "." ++ c
  | .literal l => l.render
  | .function name args => name ++ "(" ++ ", ".intercalate (args.map render) ++ ")"
  | .unary .not e => "(NOT " ++ render e ++ ")"
  | .unary .negate e => "-" ++ render e
  | .unary .identity e => "+" ++ render e
  | .binary op l r => "(" ++ render l ++ " " ++ op.symbol ++ " " ++ render r ++ ")"
  | .isNull e => "(" ++ render e ++ " IS NULL)"

end Expr

end SqlDdl
