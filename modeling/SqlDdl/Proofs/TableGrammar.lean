import SqlDdl.Proofs.ExprGrammar
import SqlDdl.Grammar.Table

/-!
# The grammar of MySQL table definitions

The statements the MySQL dialect defines, as a grammar: one predicate on token sequences for
each production.

    CREATE [TEMPORARY] TABLE [IF NOT EXISTS] name ['(' element {',' element} ')'] tail
      [[AS] query] [';']

An element is a column definition, a key, a primary key or an index. A column has a name, a type
from the table of known types (any other name takes numbers, strings and names as arguments),
and options in any order with at most one of `NULL` and `NOT NULL`. An index may give its type
after `USING` before its columns or after them, not both; an index name is never a bare
`USING`. The tail holds table options and at most one key partitioning, in any order. The query
has the clauses of a `SELECT` in their order; `*` takes no alias. Expressions are those of the
precedence grammar, nested no deeper than the parser's limit.

Dialect words such as `USING` and `ENGINE` are bare identifiers, matched up to ASCII case
(`Token.isWord`); keywords are tokens of their own.
-/

namespace SqlDdl

/-- Whether a token is the bare word `w`, up to ASCII case. -/
def Token.isWord (w : String) : Token → Bool
  | .ident s => Text.equalsIgnoringAsciiCase s w
  | _ => false

namespace MySql

open Precedence

/-! ## Forms of phrases -/

/-- Nothing, or a phrase of `P`. -/
def Opt (P : List Token → Prop) (w : List Token) : Prop := w = [] ∨ P w

/-- The token `t`, then a phrase of `P`. -/
def After (t : Token) (P : List Token → Prop) (w : List Token) : Prop :=
  ∃ w', w = t :: w' ∧ P w'

/-- A phrase of `P` in parentheses. -/
def Parens (P : List Token → Prop) (w : List Token) : Prop :=
  ∃ w', w = .openParen :: w' ++ [.closeParen] ∧ P w'

/-- Phrases of `P` with the token `sep` between them, at least one. -/
inductive SepBy1 (P : List Token → Prop) (sep : Token) : List Token → Prop
  | one {w : List Token} : P w → SepBy1 P sep w
  | cons {w ws : List Token} : P w → SepBy1 P sep ws → SepBy1 P sep (w ++ sep :: ws)

/-- A possibly qualified name: names with `.` between them. -/
def QualifiedName : List Token → Prop :=
  SepBy1 (fun w => ∃ t, w = [t] ∧ t.name?.isSome) .period

/-- An expression of the precedence grammar with tree `e`, nested within the parser's limit. -/
def ExprOf (w : List Token) (e : Expr) : Prop := ∃ n, n ≤ Grammar.maxDepth ∧ Derives n 0 w e

def Expression (w : List Token) : Prop := ∃ e, ExprOf w e

/-! ## Types -/

/-- A type argument: an unsigned 32-bit integer, in digits alone. -/
def IsTypeArgument (t : Token) : Prop := ∃ n, t = .number n ∧ (Grammar.u32? n).isSome

/-- At least one and at most `max` type arguments in parentheses, with commas between. -/
def TypeArguments (max : Nat) (w : List Token) : Prop :=
  ∃ args : List Token, args ≠ [] ∧ args.length ≤ max ∧ (∀ a ∈ args, IsTypeArgument a) ∧
    w = .openParen :: args.intersperse .comma ++ [.closeParen]

/-- An argument of a type the table does not know: a number, a string or a name. -/
def IsCustomArgument (t : Token) : Prop :=
  ∃ s, t = .number s ∨ t = .string s ∨ t = .ident s ∨ t = .quotedIdent s

/-- A display width, then `UNSIGNED` and `ZEROFILL`, each optional. -/
def IntegerRest (w : List Token) : Prop :=
  ∃ a u z, w = a ++ u ++ z ∧ Opt (TypeArguments 1) a ∧
    Opt (fun u => ∃ t, u = [t] ∧ t.isWord "UNSIGNED") u ∧
    Opt (fun z => ∃ t, z = [t] ∧ t.isWord "ZEROFILL") z

/-- What may follow the name of a type, by the name in upper case: the table of known types,
and arguments as text after any other name. -/
def TypeRest : String → List Token → Prop
  | "TINYINT" | "SMALLINT" | "MEDIUMINT" | "INT" | "INTEGER" | "BIGINT" => IntegerRest
  | "DECIMAL" | "NUMERIC" | "DEC" | "FLOAT" | "REAL" => Opt (TypeArguments 2)
  | "DOUBLE" => fun w => ∃ p a, w = p ++ a ∧
      Opt (fun p => ∃ t, p = [t] ∧ t.isWord "PRECISION") p ∧ Opt (TypeArguments 2) a
  | "BOOL" | "BOOLEAN" | "DATE" => (· = [])
  | "VARCHAR" => TypeArguments 1
  | "CHAR" | "CHARACTER" | "TEXT" | "TINYTEXT" | "MEDIUMTEXT" | "LONGTEXT" | "BLOB" | "TINYBLOB"
  | "MEDIUMBLOB" | "LONGBLOB" | "TIME" | "DATETIME" | "TIMESTAMP" => Opt (TypeArguments 1)
  | _ => Opt (Parens (SepBy1 (fun w => ∃ t, w = [t] ∧ IsCustomArgument t) .comma))

/-- A column type: a name, matched by its full upper case, and what may follow it. -/
def DataType (w : List Token) : Prop :=
  ∃ t s rest, w = t :: rest ∧ t.name? = some s ∧ TypeRest (Text.toUpperCase s) rest

/-! ## Columns, indexes and elements -/

/-- `NULL` or `NOT NULL`. -/
def Nullability (w : List Token) : Prop :=
  w = [.keyword .null] ∨ w = [.keyword .not, .keyword .null]

/-- A column option other than `NULL` and `NOT NULL`. -/
inductive OtherOption : List Token → Prop
  | default {w : List Token} : Expression w → OtherOption (.keyword .default :: w)
  | primaryKey : OtherOption [.keyword .primary, .keyword .key]
  | unique : OtherOption [.keyword .unique]
  | uniqueKey : OtherOption [.keyword .unique, .keyword .key]
  | autoIncrement {t : Token} : t.isWord "AUTO_INCREMENT" → OtherOption [t]
  | comment {t : Token} {s : String} : t.isWord "COMMENT" → OtherOption [t, .string s]

/-- A column definition: a name, a type, and options in any order, with at most one `NULL` or
`NOT NULL` among them. -/
def ColumnDef (w : List Token) : Prop :=
  ∃ (t : Token) (ty : List Token) (os₁ : List (List Token)) (n : List Token)
    (os₂ : List (List Token)), w = t :: ty ++ os₁.flatten ++ n ++ os₂.flatten ∧ t.name?.isSome ∧
    DataType ty ∧ (∀ o ∈ os₁ ++ os₂, OtherOption o) ∧ Opt Nullability n

/-- `USING` and the name of an index type. -/
def IndexType (w : List Token) : Prop :=
  ∃ u t, w = [u, t] ∧ u.isWord "USING" ∧ t.name?.isSome

/-- An expression with an optional direction, as indexes and orderings take them. -/
def Ordered (w : List Token) : Prop :=
  ∃ e d, w = e ++ d ∧ Expression e ∧ Opt (· ∈ [[.keyword .asc], [.keyword .desc]]) d

/-- The indexed expressions in parentheses, with the index type before or after them, not
both. -/
def TypedColumns (w : List Token) : Prop :=
  ∃ b cols a, w = b ++ cols ++ a ∧ Parens (SepBy1 Ordered .comma) cols ∧ Opt IndexType b ∧
    Opt IndexType a ∧ (b = [] ∨ a = [])

/-- An index: an optional name that is no bare `USING`, then its typed columns. -/
def IndexDef (w : List Token) : Prop :=
  ∃ n rest, w = n ++ rest ∧
    Opt (fun n => ∃ t, n = [t] ∧ t.name?.isSome ∧ t.isWord "USING" = false) n ∧ TypedColumns rest

/-- `CONSTRAINT` with an optional name, or nothing. -/
def ConstraintName : List Token → Prop :=
  Opt (After (.keyword .constraint) (Opt fun w => ∃ t, w = [t] ∧ t.name?.isSome))

inductive Element : List Token → Prop
  | column {w : List Token} : ColumnDef w → Element w
  | key {c w : List Token} : ConstraintName c → IndexDef w → Element (c ++ .keyword .key :: w)
  | primaryKey {c w : List Token} : ConstraintName c → TypedColumns w →
      Element (c ++ .keyword .primary :: .keyword .key :: w)
  | index {w : List Token} : IndexDef w → Element (.keyword .index :: w)

/-! ## The tail -/

/-- The name of a character set or collation option, which `DEFAULT` may precede. -/
def CharsetName (w : List Token) : Prop :=
  (∃ t, w = [t] ∧ (t.isWord "CHARSET" ∨ t.isWord "COLLATE")) ∨
    ∃ t u, w = [t, u] ∧ t.isWord "CHARACTER" ∧ u.isWord "SET"

/-- The name of a table option. -/
def OptionName (w : List Token) : Prop :=
  (∃ t, w = [t] ∧ ∃ n ∈ ["ENGINE", "TYPE", "AUTO_INCREMENT", "COMMENT", "ROW_FORMAT"],
    t.isWord n) ∨ CharsetName w ∨ After (.keyword .default) CharsetName w

/-- A table option: its name, `=`, and the one token of its value. -/
def TableOption (w : List Token) : Prop := ∃ n v, w = n ++ [.equal, v] ∧ OptionName n

/-- `PARTITION BY KEY`, the key columns in parentheses, and an optional `PARTITIONS` count. -/
def Partitioning (w : List Token) : Prop :=
  ∃ p cols count, w = p :: .keyword .by :: .keyword .key :: .openParen :: cols ++
      .closeParen :: count ∧ p.isWord "PARTITION" ∧ SepBy1 QualifiedName .comma cols ∧
    Opt (fun w => ∃ t e, w = t :: e ∧ t.isWord "PARTITIONS" ∧ Expression e) count

/-- Table options and at most one partitioning, in any order. -/
def Tail (w : List Token) : Prop :=
  ∃ (os₁ : List (List Token)) (p : List Token) (os₂ : List (List Token)),
    w = os₁.flatten ++ p ++ os₂.flatten ∧ (∀ o ∈ os₁ ++ os₂, TableOption o) ∧ Opt Partitioning p

/-! ## Queries -/

/-- An alias: a name, after `AS` or directly. -/
def Alias (w : List Token) : Prop :=
  ∃ a t, w = a ++ [t] ∧ Opt (· = [.keyword .as]) a ∧ t.name?.isSome

/-- A selected expression and its alias; `*` takes none. -/
def SelectItem (w : List Token) : Prop :=
  ∃ ew e al, w = ew ++ al ∧ ExprOf ew e ∧ (al = [] ∨ e ≠ .all ∧ Alias al)

/-- A table and its alias. -/
def TableRef (w : List Token) : Prop :=
  ∃ n al, w = n ++ al ∧ QualifiedName n ∧ Opt Alias al

/-- `LIMIT` and an expression, then another after a comma or `OFFSET`. -/
def Limit : List Token → Prop :=
  After (.keyword .limit) fun w => ∃ e r, w = e ++ r ∧ Expression e ∧
    Opt (fun r => ∃ t e', r = t :: e' ∧ (t = .comma ∨ t = .keyword .offset) ∧ Expression e') r

/-- A `SELECT` query: its clauses, each optional but the items, in their order. -/
def Query (w : List Token) : Prop :=
  ∃ d items tables filter groups having orders limit,
    w = .keyword .select :: d ++ items ++ tables ++ filter ++ groups ++ having ++ orders ++
      limit ∧
    Opt (· = [.keyword .distinct]) d ∧ SepBy1 SelectItem .comma items ∧
    Opt (After (.keyword .from) (SepBy1 TableRef .comma)) tables ∧
    Opt (After (.keyword .where) Expression) filter ∧
    Opt (After (.keyword .group) (After (.keyword .by) (SepBy1 Expression .comma))) groups ∧
    Opt (After (.keyword .having) Expression) having ∧
    Opt (After (.keyword .order) (After (.keyword .by) (SepBy1 Ordered .comma))) orders ∧
    Opt Limit limit

/-! ## Statements -/

/-- A table definition in the MySQL dialect, with an optional `;` at its end. -/
def CreateTable (w : List Token) : Prop :=
  ∃ tmp ine name elems tail query semi,
    w = .keyword .create :: tmp ++ .keyword .table :: ine ++ name ++ elems ++ tail ++ query ++
      semi ∧
    Opt (· = [.keyword .temporary]) tmp ∧
    Opt (· = [.keyword .if, .keyword .not, .keyword .exists]) ine ∧
    QualifiedName name ∧ Opt (Parens (SepBy1 Element .comma)) elems ∧ Tail tail ∧
    Opt (fun w => ∃ a q, w = a ++ q ∧ Opt (· = [.keyword .as]) a ∧ Query q) query ∧
    Opt (· = [.semicolon]) semi

end MySql

end SqlDdl
