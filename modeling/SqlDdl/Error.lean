import SqlDdl.Token.Scan
/-!
# Parse errors

A statement is refused for one of three reasons: a token other than the grammar expects, a
construct the grammar knows but does not support, or a fault in the text itself. The first two
name the token found, or the end of the input, and the offset where it stands.
-/

namespace SqlDdl

/-- Why a text is not a statement of the grammar. -/
inductive ParseError where
  /-- The grammar expected `what` where `found` stands, at byte offset `offset`. -/
  | expected (what : String) (found : Option Token) (offset : Nat)
  /-- A construct that is recognised but not supported. -/
  | unsupported (construct : String) (found : Option Token) (offset : Nat)
  /-- The text could not be cut into tokens. -/
  | lex (e : LexError)
  deriving DecidableEq, Repr

namespace ParseError

/-- The byte offset of the error. -/
def offset : ParseError → Nat
  | .expected _ _ o | .unsupported _ _ o => o
  | .lex e => e.offset

/-- How the token found is named: its description, or `end of input`. -/
def describeFound : Option Token → String
  | some t => t.describe
  | none => "end of input"

/-- The error in words. -/
def message : ParseError → String
  | .expected what found o =>
    "syntax error at offset " ++ Nat.repr o ++ ": expected " ++ what ++ ", found " ++
      describeFound found
  | .unsupported construct found o =>
    "unsupported construct at offset " ++ Nat.repr o ++ ": " ++ construct ++ " (found " ++
      describeFound found ++ ")"
  | .lex e => "lex error at offset " ++ Nat.repr e.offset ++ ": " ++ e.message

end ParseError

end SqlDdl
