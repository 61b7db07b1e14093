import SqlDdl.Token.Basic
import SqlDdl.Text.WhiteSpace
import SqlDdl.Text.Alphabetic
import SqlDdl.Text.Numeric
import SqlDdl.Text.UpperCase
/-!
# Cutting text into tokens

The text is read from the front. Between tokens stand gaps of White_Space characters, line
comments from `--` up to the next line feed, and block comments from `/*` to the first `*/` after
it; block comments do not nest. A token is then read by its first character:

* a single quote opens a string, a double quote or a backtick a quoted identifier; inside, the
  quote written twice stands for itself and written once closes the text;
* an ASCII digit starts a number: digits, optionally `.` and digits, optionally `e` or `E`, a
  sign and digits, each run of digits possibly empty;
* an alphabetic character or `_` starts a word, which goes on over alphanumeric characters, `_`
  and `$`; its full upper case decides whether it is a keyword;
* otherwise it is punctuation, `<=`, `<>`, `>=` and `!=` taking two characters.

Offsets count bytes of the UTF-8 encoding. The first error ends the stream: a character that
starts no token, a quote or a block comment left open.

Main definitions: `TokenStream.ofString`, which gives the tokens up to the end of the text or to
the first error, and `tokenize`.
-/

namespace SqlDdl

/-- Why text could not be cut into tokens, with the byte offset of the fault. -/
inductive LexError where
  /-- A character that starts no token. -/
  | unexpectedChar (c : Char) (offset : Nat)
  /-- Quoted text opened by `quote` at `offset` and never closed. -/
  | unterminatedQuote (quote : Char) (offset : Nat)
  /-- A block comment opened at `offset` and never closed. -/
  | unterminatedComment (offset : Nat)
  deriving DecidableEq, Repr

namespace LexError

/-- The byte offset of the fault. -/
def offset : LexError → Nat
  | .unexpectedChar _ o | .unterminatedQuote _ o | .unterminatedComment o => o

/-- What went wrong, in words. -/
def message : LexError → String
  | .unexpectedChar c _ => "unexpected character " ++ c.toString
  | .unterminatedQuote q _ => "unterminated " ++ q.toString ++ "-quoted text"
  | .unterminatedComment _ => "unterminated block comment"

end LexError

/-- How a token stream ends: at the end of the text, `length` bytes long, or at an error. -/
inductive StreamEnd where
  | finished (length : Nat)
  | failed (e : LexError)
  deriving DecidableEq, Repr

/-- The tokens of a text, each with its offset, and how the stream ends. -/
structure TokenStream where
  tokens : List Spanned
  stop : StreamEnd
  deriving DecidableEq, Repr

namespace Scan

/-- The number of bytes of characters in UTF-8. -/
def byteLength (cs : List Char) : Nat :=
  cs.foldr (fun c n => c.utf8Size + n) 0

/-- The text after the first `*/` of `cs`, and the position after it, for `cs` starting at
position `pos`. -/
def afterClose : List Char → Nat → Option (List Char × Nat)
  | '*' :: '/' :: rest, pos => some (rest, pos + 2)
  | c :: rest, pos => afterClose rest (pos + c.utf8Size)
  | [], _ => none

/-- A closed block comment is read past: what is left is shorter. -/
theorem afterClose_length {cs r : List Char} {pos p : Nat}
    (h : afterClose cs pos = some (r, p)) : r.length < cs.length := by
  induction cs, pos using afterClose.induct with
  | case1 rest pos =>
    simp only [afterClose, Option.some.injEq, Prod.mk.injEq] at h
    obtain ⟨rfl, -⟩ := h
    simp only [List.length_cons]; omega
  | case2 c rest pos hne ih =>
    rw [afterClose] at h
    · have := ih h; simp only [List.length_cons]; omega
    · exact hne
  | case3 pos => simp [afterClose] at h

/-- Dropping a prefix never lengthens a text. -/
theorem length_dropWhile_le (p : Char → Bool) (cs : List Char) :
    (cs.dropWhile p).length ≤ cs.length :=
  (List.dropWhile_sublist p).length_le

/-- Skips the gap at the front of `cs`, which starts at position `pos`: White_Space, line
comments and block comments. Gives the text from the next token on and its position. -/
def skipGap : List Char → Nat → Except LexError (List Char × Nat)
  | '-' :: '-' :: more, pos =>
    skipGap (more.dropWhile (· != '\n')) (pos + 2 + byteLength (more.takeWhile (· != '\n')))
  | '/' :: '*' :: more, pos =>
    match h : afterClose ('*' :: more) (pos + 1) with
    | some (rest, next) =>
      have := afterClose_length h
      skipGap rest next
    | none => .error (.unterminatedComment pos)
  | c :: rest, pos =>
    if Text.isWhiteSpace c then skipGap rest (pos + c.utf8Size) else .ok (c :: rest, pos)
  | [], pos => .ok ([], pos)
termination_by cs => cs.length
decreasing_by
  · have := length_dropWhile_le (· != '\n') more; simp only [List.length_cons]; omega
  · simp only [List.length_cons] at this ⊢; omega
  · simp

/-- Skipping a gap never lengthens the text. -/
theorem skipGap_length {cs r : List Char} {pos p : Nat} (h : skipGap cs pos = .ok (r, p)) :
    r.length ≤ cs.length := by
  fun_induction skipGap cs pos generalizing r p with
  | case1 more pos ih =>
    have := ih h
    have := length_dropWhile_le (· != '\n') more
    simp only [List.length_cons]; omega
  | case2 more pos rest next _ hlt ih =>
    have := ih h
    simp only [List.length_cons] at hlt ⊢; omega
  | case3 => cases h
  | case4 c rest pos _ _ _ ih => have := ih h; simp only [List.length_cons]; omega
  | case5 c rest pos => cases h; exact Nat.le_refl _
  | case6 => cases h; exact Nat.le_refl _

/-- Reads quoted text after its opening quote `q`: the contents, with each doubled `q` read as
one, the text after the closing quote, and the number of bytes read up to and including that
quote. Nothing when the quote is never closed. -/
def readQuoted (q : Char) : List Char → Option (List Char × List Char × Nat)
  | [] => none
  | c :: rest =>
    if c = q then
      match rest with
      | c' :: rest' =>
        if c' = q then (readQuoted q rest').map fun (t, r, n) => (q :: t, r, n + 2 * q.utf8Size)
        else some ([], rest, q.utf8Size)
      | [] => some ([], [], q.utf8Size)
    else (readQuoted q rest).map fun (t, r, n) => (c :: t, r, n + c.utf8Size)

/-- Quoted text is read up to and with its closing quote: what is left is shorter. -/
theorem readQuoted_length (q : Char) :
    ∀ {cs t r : List Char} {n : Nat}, readQuoted q cs = some (t, r, n) → r.length < cs.length
  | [], _, _, _, h => by simp [readQuoted] at h
  | c :: rest, t, r, n, h => by
    unfold readQuoted at h
    split at h
    · split at h
      · rename_i c' rest'
        split at h
        · obtain ⟨⟨t', r', n'⟩, h', he⟩ := Option.map_eq_some_iff.1 h
          cases he
          have := readQuoted_length q h'
          simp only [List.length_cons]; omega
        · cases h; simp
      · cases h; simp
    · obtain ⟨⟨t', r', n'⟩, h', he⟩ := Option.map_eq_some_iff.1 h
      cases he
      have := readQuoted_length q h'
      simp only [List.length_cons]; omega

/-- The ASCII digits at the front of `cs`, and the rest. -/
def digitRun (cs : List Char) : List Char × List Char :=
  (cs.takeWhile Char.isDigit, cs.dropWhile Char.isDigit)

/-- A point and the digits after it, if `cs` starts with a point, and the rest. -/
def fractionPart : List Char → List Char × List Char
  | '.' :: r => ('.' :: (digitRun r).1, (digitRun r).2)
  | r => ([], r)

/-- A sign, if `cs` starts with one, and the rest. -/
def signPart : List Char → List Char × List Char
  | s :: r => if s = '+' ∨ s = '-' then ([s], r) else ([], s :: r)
  | [] => ([], [])

/-- An exponent mark `e` or `E` with the sign and digits after it, if `cs` starts with the
mark, and the rest. -/
def exponentPart : List Char → List Char × List Char
  | e :: r =>
    if e = 'e' ∨ e = 'E' then
      (e :: (signPart r).1 ++ (digitRun (signPart r).2).1, (digitRun (signPart r).2).2)
    else ([], e :: r)
  | [] => ([], [])

/-- Splits a number off the front of `cs`: digits, a fraction part and an exponent part; gives
its text and the rest. -/
def readNumber (cs : List Char) : List Char × List Char :=
  let (whole, r1) := digitRun cs
  let (fraction, r2) := fractionPart r1
  let (exponent, r3) := exponentPart r2
  (whole ++ fraction ++ exponent, r3)

/-- The digits and the rest make up the input. -/
@[simp] theorem digitRun_append (cs : List Char) : (digitRun cs).1 ++ (digitRun cs).2 = cs :=
  List.takeWhile_append_dropWhile

/-- The fraction part and the rest make up the input. -/
@[simp] theorem fractionPart_append (cs : List Char) :
    (fractionPart cs).1 ++ (fractionPart cs).2 = cs := by
  unfold fractionPart; split <;> simp

/-- The sign and the rest make up the input. -/
@[simp] theorem signPart_append (cs : List Char) : (signPart cs).1 ++ (signPart cs).2 = cs := by
  unfold signPart; split
  · split <;> simp
  · rfl

/-- The exponent part and the rest make up the input. -/
@[simp] theorem exponentPart_append (cs : List Char) :
    (exponentPart cs).1 ++ (exponentPart cs).2 = cs := by
  unfold exponentPart; split
  · split
    · simp only [List.cons_append, List.append_assoc, digitRun_append, signPart_append]
    · rfl
  · rfl

/-- The number's text and the rest make up the input. -/
@[simp] theorem readNumber_append (cs : List Char) : (readNumber cs).1 ++ (readNumber cs).2 = cs := by
  simp [readNumber]

/-- What is left after a prefix is no longer than the whole. -/
theorem length_le_of_append {a r cs : List Char} (h : a ++ r = cs) : r.length ≤ cs.length := by
  subst h; simp

/-- Whether a character may start a word: an alphabetic character or `_`. -/
def isWordStart (c : Char) : Bool :=
  Text.isAlphabetic c || c == '_'

/-- Whether a character may go on with a word: an alphanumeric character, `_` or `$`. -/
def isWordChar (c : Char) : Bool :=
  Text.isAlphabetic c || Text.isNumeric c || c == '_' || c == '$'

/-- Punctuation starting with `c`, before `rest`: the token, the text after it and the number
of characters it takes, one or two. -/
def readSymbol : Char → List Char → Option (Token × List Char × Nat)
  | '.', r => some (.period, r, 1)
  | '=', r => some (.equal, r, 1)
  | ',', r => some (.comma, r, 1)
  | ';', r => some (.semicolon, r, 1)
  | '(', r => some (.openParen, r, 1)
  | ')', r => some (.closeParen, r, 1)
  | '+', r => some (.plus, r, 1)
  | '-', r => some (.minus, r, 1)
  | '*', r => some (.asterisk, r, 1)
  | '/', r => some (.slash, r, 1)
  | '%', r => some (.percent, r, 1)
  | '<', '=' :: r => some (.lessThanOrEqual, r, 2)
  | '<', '>' :: r => some (.notEqual, r, 2)
  | '<', r => some (.lessThan, r, 1)
  | '>', '=' :: r => some (.greaterThanOrEqual, r, 2)
  | '>', r => some (.greaterThan, r, 1)
  | '!', '=' :: r => some (.notEqual, r, 2)
  | _, _ => none

/-- Punctuation is read from the front: what is left is no longer than the input. -/
theorem readSymbol_length {c : Char} {rest r : List Char} {t : Token} {n : Nat}
    (h : readSymbol c rest = some (t, r, n)) : r.length ≤ rest.length := by
  unfold readSymbol at h
  split at h <;> cases h <;> simp

end Scan

namespace Token

/-- The token of a word: the keyword that its full upper case spells, or else an identifier
as written. -/
def ofWord (w : String) : Token :=
  match Keyword.ofText? (Text.toUpperCase w) with
  | some k => .keyword k
  | none => .ident w

end Token

namespace Scan

/-- Reads the token that starts with the character `c` at position `pos`, before `rest`: the
token, the text after it and the position after it. -/
def readToken (c : Char) (rest : List Char) (pos : Nat) :
    Except LexError (Token × List Char × Nat) :=
  if c = '\'' ∨ c = '"' ∨ c = '`' then
    match readQuoted c rest with
    | some (t, r, n) =>
      let text := String.ofList t
      .ok (if c = '\'' then .string text else .quotedIdent text, r, pos + c.utf8Size + n)
    | none => .error (.unterminatedQuote c pos)
  else if c.isDigit then
    .ok (.number (String.ofList (c :: (readNumber rest).1)), (readNumber rest).2,
      pos + 1 + (readNumber rest).1.length)
  else if isWordStart c then
    let word := c :: rest.takeWhile isWordChar
    .ok (Token.ofWord (String.ofList word), rest.dropWhile isWordChar, pos + byteLength word)
  else
    match readSymbol c rest with
    | some (t, r, n) => .ok (t, r, pos + n)
    | none => .error (.unexpectedChar c pos)

/-- Reading a token never lengthens the text after its first character. -/
theorem readToken_length {c : Char} {rest r : List Char} {pos p : Nat} {t : Token}
    (h : readToken c rest pos = .ok (t, r, p)) : r.length ≤ rest.length := by
  unfold readToken at h
  split at h
  · split at h
    · cases h; exact Nat.le_of_lt (readQuoted_length _ ‹_›)
    · cases h
  · split at h
    · cases h; exact length_le_of_append (readNumber_append rest)
    · split at h
      · cases h; exact length_dropWhile_le _ _
      · split at h
        · cases h; exact readSymbol_length ‹_›
        · cases h

/-- The tokens of the text `cs`, which starts at byte position `pos`, up to its end or to the
first error. -/
def scanFrom (cs : List Char) (pos : Nat) : TokenStream :=
  match h : skipGap cs pos with
  | .error e => ⟨[], .failed e⟩
  | .ok ([], p) => ⟨[], .finished p⟩
  | .ok (c :: rest, p) =>
    match h' : readToken c rest p with
    | .error e => ⟨[], .failed e⟩
    | .ok (t, r, p') =>
      have := skipGap_length h
      have := readToken_length h'
      let more := scanFrom r p'
      ⟨⟨t, p⟩ :: more.tokens, more.stop⟩
termination_by cs.length
decreasing_by simp only [List.length_cons] at *; omega

end Scan

namespace TokenStream

/-- The tokens of a text, up to its end or to the first lex error. -/
def ofString (s : String) : TokenStream :=
  Scan.scanFrom s.toList 0

end TokenStream

/-- All the tokens of a text, or the first lex error in it. -/
def tokenize (s : String) : Except LexError (List Spanned) :=
  let stream := TokenStream.ofString s
  match stream.stop with
  | .finished _ => .ok stream.tokens
  | .failed e => .error e

end SqlDdl
