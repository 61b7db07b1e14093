/-!
# Tokens

The tokens of the SQL text: numbers, strings, bare and quoted identifiers, keywords and
punctuation. A word is a keyword when its upper case is one of the reserved words below; every
other word is an identifier. A token carries the text it was read from where that text matters:
the digits of a number as written, the contents of a string or quoted identifier with doubled
quotes already undone, the spelling of a bare identifier.

Each token has a *literal*, the text it stands for, and a *description* used in error
messages (`keyword CREATE`, `identifier x`, `'('`).
-/

namespace SqlDdl

/-- The reserved words of the grammar. -/
inductive Keyword where
  | and | as | asc | by | constraint | create | default | desc | distinct | exists | false | from
  | group | having | if | index | is | key | limit | not | null | offset | on | or | order
  | primary | select | table | temporary | true | unique | where
  deriving DecidableEq, Repr

namespace Keyword

/-- Every keyword, in alphabetical order. -/
def all : List Keyword :=
  [.and, .as, .asc, .by, .constraint, .create, .default, .desc, .distinct, .exists, .false, .from,
   .group, .having, .if, .index, .is, .key, .limit, .not, .null, .offset, .on, .or, .order,
   .primary, .select, .table, .temporary, .true, .unique, .where]

/-- The keyword's spelling, in upper case. -/
def text : Keyword → String
  | .and => "AND" | .as => "AS" | .asc => "ASC" | .by => "BY" | .constraint => "CONSTRAINT"
  | .create => "CREATE" | .default => "DEFAULT" | .desc => "DESC" | .distinct => "DISTINCT"
  | .exists => "EXISTS" | .false => "FALSE" | .from => "FROM" | .group => "GROUP"
  | .having => "HAVING" | .if => "IF" | .index => "INDEX" | .is => "IS" | .key => "KEY"
  | .limit => "LIMIT" | .not => "NOT" | .null => "NULL" | .offset => "OFFSET" | .on => "ON"
  | .or => "OR" | .order => "ORDER" | .primary => "PRIMARY" | .select => "SELECT"
  | .table => "TABLE" | .temporary => "TEMPORARY" | .true => "TRUE" | .unique => "UNIQUE"
  | .where => "WHERE"

/-- The keyword spelled exactly `s`, which is in upper case for every keyword. -/
def ofText? (s : String) : Option Keyword :=
  all.find? (·.text == s)

end Keyword

/-- A token of SQL text. -/
inductive Token where
  /-- A number as written: digits, an optional fraction and an optional exponent. -/
  | number (text : String)
  /-- A string in single quotes, with its contents. -/
  | string (text : String)
  /-- A bare word that is no keyword, as written. -/
  | ident (name : String)
  /-- An identifier in double quotes or backticks, with its contents. -/
  | quotedIdent (name : String)
  | keyword (k : Keyword)
  | period | equal | notEqual | greaterThan | greaterThanOrEqual | lessThan | lessThanOrEqual
  | plus | minus | asterisk | slash | percent | openParen | closeParen | comma | semicolon
  deriving DecidableEq, Repr

namespace Token

/-- The spelling of a punctuation token; `<>` and `!=` are one token, spelled `!=`. -/
def symbol? : Token → Option String
  | .period => some "." | .equal => some "=" | .notEqual => some "!="
  | .greaterThan => some ">" | .greaterThanOrEqual => some ">=" | .lessThan => some "<"
  | .lessThanOrEqual => some "<=" | .plus => some "+" | .minus => some "-"
  | .asterisk => some "*" | .slash => some "/" | .percent => some "%"
  | .openParen => some "(" | .closeParen => some ")" | .comma => some ","
  | .semicolon => some ";"
  | _ => none

/-- The text a token stands for: the number as written, the contents of a string or quoted
identifier, the identifier, the keyword in upper case, the spelling of the punctuation. -/
def literal : Token → String
  | .number s | .string s | .ident s | .quotedIdent s => s
  | .keyword k => k.text
  | t => (symbol? t).getD ""

/-- How a token is named in an error message. -/
def describe : Token → String
  | .number s => "number " ++ s
  | .string s => "string '" ++ s ++ "'"
  | .ident s => "identifier " ++ s
  | .quotedIdent s => "quoted identifier " ++ s
  | .keyword k => "keyword " ++ k.text
  | t => "'" ++ (symbol? t).getD "" ++ "'"

/-- The name carried by a bare or quoted identifier. -/
def name? : Token → Option String
  | .ident s | .quotedIdent s => some s
  | _ => none

end Token

/-- A token with the byte offset in the text at which it starts. -/
structure Spanned where
  token : Token
  offset : Nat
  deriving DecidableEq, Repr

end SqlDdl
