import SqlDdl.Error
import SqlDdl.Text.AsciiCase
/-!
# Reading a token stream

A parser reads the tokens of a text from the front with one token of lookahead. Its place is a
`Cursor`: the tokens not read yet and how the stream ends. A lex error sits at the end of the
stream and is never read past: a step that merely asks whether the next token is some token
sees no token there and reads nothing, while a step that needs the next token, or reports an
error at it, reports the lex error instead.

A `Grammar α` is one step of a parser: from a cursor it fails with a `ParseError` or gives a
value and the cursor after it, which is never further from the end than the one it started
from. That bound is part of the step's type, so repetitions can be shown to end: `loop`
repeats a round for as long as the round asks to go on and reads a token.
-/

namespace SqlDdl

/-- A place in a token stream: the tokens not read yet and how the stream ends. The number of
tokens not read yet is kept beside them, so that asking for it costs nothing. -/
structure Cursor where
  rest : List Spanned
  stop : StreamEnd
  size : Nat
  size_eq : size = rest.length
  deriving DecidableEq

namespace Cursor

/-- The cursor at the start of `tokens`. -/
def ofTokens (tokens : List Spanned) (stop : StreamEnd) : Cursor :=
  ⟨tokens, stop, tokens.length, rfl⟩

/-- The start of a token stream. -/
def ofStream (s : TokenStream) : Cursor := ofTokens s.tokens s.stop

/-- The start of the tokens of a text. -/
def ofString (s : String) : Cursor := ofStream (TokenStream.ofString s)

/-- The next token; none at the end of the text; the lex error when the stream stops with one
here. -/
def peek (c : Cursor) : Except ParseError (Option Token) :=
  match c.rest, c.stop with
  | t :: _, _ => .ok (some t.token)
  | [], .finished _ => .ok none
  | [], .failed e => .error (.lex e)

/-- The next token, if there is one; none at the end and at a lex error. -/
def next? (c : Cursor) : Option Token :=
  c.rest.head?.map (·.token)

/-- The byte offset of the next token, of the lex error, or of the end of the text. -/
def offset (c : Cursor) : Nat :=
  match c.rest, c.stop with
  | t :: _, _ => t.offset
  | [], .finished n => n
  | [], .failed e => e.offset

/-- The cursor after the next token. -/
def advance (c : Cursor) : Cursor :=
  ⟨c.rest.tail, c.stop, c.size - 1, by rw [c.size_eq, List.length_tail]⟩

theorem size_advance (c : Cursor) : c.advance.size = c.size - 1 := rfl

/-- The error that `what` was expected here: it names the next token, or the end of the text;
where the stream stops with a lex error, that error. -/
def expectedHere (c : Cursor) (what : String) : ParseError :=
  match c.peek with
  | .ok found => .expected what found c.offset
  | .error e => e

/-- The error that the construct here is not supported, or the lex error that stops the stream
here. -/
def unsupportedHere (c : Cursor) (construct : String) : ParseError :=
  match c.peek with
  | .ok found => .unsupported construct found c.offset
  | .error e => e

end Cursor

/-- A cursor no further from the end than `c`: what a step leaves of the input. -/
abbrev Rest (c : Cursor) := { r : Cursor // r.size ≤ c.size }

/-- One step of a parser: from a cursor, an error, or a value and what is left. -/
def Grammar (α : Type) : Type := (c : Cursor) → Except ParseError (α × Rest c)

namespace Grammar

/-- The value, reading nothing. -/
@[inline] protected def pure (a : α) : Grammar α :=
  fun c => .ok (a, ⟨c, Nat.le_refl _⟩)

/-- The first step, then the step chosen by its value. -/
@[inline] protected def bind (g : Grammar α) (f : α → Grammar β) : Grammar β := fun c =>
  match g c with
  | .error e => .error e
  | .ok (a, ⟨c₁, h₁⟩) =>
    match f a c₁ with
    | .error e => .error e
    | .ok (b, ⟨c₂, h₂⟩) => .ok (b, ⟨c₂, Nat.le_trans h₂ h₁⟩)

instance : Monad Grammar where
  pure := Grammar.pure
  bind := Grammar.bind

/-- Runs a step from the start of a cursor: the value and the cursor after it. -/
def run (g : Grammar α) (c : Cursor) : Except ParseError (α × Cursor) :=
  match g c with
  | .error e => .error e
  | .ok (a, r) => .ok (a, r.1)

/-- Fails with the given error. -/
def fail (e : ParseError) : Grammar α := fun _ => .error e

/-- Fails: `what` was expected at the next token. -/
def expected (what : String) : Grammar α := fun c => .error (c.expectedHere what)

/-- Fails: the construct at the next token is not supported. -/
def unsupported (construct : String) : Grammar α := fun c => .error (c.unsupportedHere construct)

/-- The next token, reading nothing; the lex error when the stream stops with one here. -/
def peek : Grammar (Option Token) := fun c =>
  match c.peek with
  | .ok t => .ok (t, ⟨c, Nat.le_refl _⟩)
  | .error e => .error e

/-- The byte offset of the next token, reading nothing. -/
def offset : Grammar Nat := fun c => .ok (c.offset, ⟨c, Nat.le_refl _⟩)

/-- Reads the next token when `f` maps it to a value, and gives that value; reads nothing and
gives none otherwise, also at the end and at a lex error. -/
def takeMap (f : Token → Option β) : Grammar (Option β) := fun c =>
  match c.next? >>= f with
  | some b => .ok (some b, ⟨c.advance, by rw [Cursor.size_advance]; omega⟩)
  | none => .ok (none, ⟨c, Nat.le_refl _⟩)

/-- Reads the next token whatever it is, if there is one. -/
def takeAny : Grammar (Option Token) := takeMap some

/-- Reads the next token if it is `t`, and tells whether it did. -/
def takeIf (t : Token) : Grammar Bool := do
  return (← takeMap fun u => if u = t then some () else none).isSome

/-- Reads the token `t`, or fails: `t` was expected. -/
def expect (t : Token) : Grammar Unit := do
  if ← takeIf t then pure () else expected t.describe

/-- Reads a bare or quoted identifier and gives its name, or fails: `what` was expected. -/
def expectName (what : String) : Grammar String := do
  match ← takeMap Token.name? with
  | some n => pure n
  | none => expected what

/-- Whether the next token is the bare identifier `w`, up to ASCII case; reads nothing. -/
def peekWord (w : String) : Grammar Bool := fun c =>
  let found := match c.next? with
    | some (.ident s) => Text.equalsIgnoringAsciiCase s w
    | _ => false
  .ok (found, ⟨c, Nat.le_refl _⟩)

/-- Reads the next token if it is the bare identifier `w`, up to ASCII case, and tells whether
it did. -/
def takeWord (w : String) : Grammar Bool := do
  return (← takeMap fun
    | .ident s => if Text.equalsIgnoringAsciiCase s w then some () else none
    | _ => none).isSome

/-- Reads the next token if it is a bare identifier equal to one of `ws` up to ASCII case, and
gives the first such word of `ws`. -/
def takeWordOf (ws : List String) : Grammar (Option String) :=
  takeMap fun
    | .ident w => ws.find? (Text.equalsIgnoringAsciiCase · w)
    | _ => none

/-- Whether the next token is a bare or quoted identifier; reads nothing. -/
def peekName : Grammar Bool := fun c =>
  .ok ((c.next? >>= Token.name?).isSome, ⟨c, Nat.le_refl _⟩)

/-- The rounds of `loop` from a given cursor. -/
def loopFrom (round : σ → Grammar (β ⊕ σ)) (done : σ → β) (s : σ) (c : Cursor) :
    Except ParseError (β × Rest c) :=
  match round s c with
  | .error e => .error e
  | .ok (.inl b, r) => .ok (b, r)
  | .ok (.inr s', ⟨c', h⟩) =>
    if _hlt : c'.size < c.size then
      match loopFrom round done s' c' with
      | .error e => .error e
      | .ok (b, ⟨c'', h'⟩) => .ok (b, ⟨c'', Nat.le_trans h' h⟩)
    else .ok (done s', ⟨c', h⟩)
termination_by c.size

/-- Runs `round` from `s` again and again. A round gives `.inl b` to finish with `b`, or `.inr s'`
to go on from `s'`. A round that goes on without reading a token ends the repetition as well,
with `done s'`: so every repetition ends, and in this grammar every round that goes on reads
one. -/
def loop (round : σ → Grammar (β ⊕ σ)) (done : σ → β) (s : σ) : Grammar β :=
  loopFrom round done s

end Grammar

/-! ## Rules for every parser

A rule is written once, for every parser that runs the steps of `Grammar` (`MonadLiftT Grammar m`)
and offers repetition and the tests for the bare words the grammar reads as syntax (`Parser`).
`Grammar` is such a parser, and so is a parser that keeps a nesting counter (`Method`, below).
Dialect words are tested through the parser, so that a parser may also note where it found one. -/

/-- What a rule asks of the parser that runs it beyond the steps of `Grammar`. -/
class Parser (m : Type → Type) where
  /-- Runs a round again and again, as `Grammar.loop` does. -/
  loop {σ β : Type} : (σ → m (β ⊕ σ)) → (σ → β) → σ → m β
  /-- Reads the bare word given if it comes next, as `Grammar.takeWord` does. -/
  takeWord : String → m Bool
  /-- Whether the bare word given comes next, as `Grammar.peekWord` tells. -/
  peekWord : String → m Bool
  /-- Reads one of the bare words given if it comes next, as `Grammar.takeWordOf` does. -/
  takeWordOf : List String → m (Option String)

/-- A rule named without its parser is run by `Grammar`. -/
@[default_instance]
instance : Parser Grammar where
  loop := Grammar.loop
  takeWord := Grammar.takeWord
  peekWord := Grammar.peekWord
  takeWordOf := Grammar.takeWordOf

namespace Grammar

/-! A rule run by `Grammar` itself takes the steps of `Grammar`. -/

@[simp] theorem liftM_self (g : Grammar α) : (liftM g : Grammar α) = g := rfl

@[simp] theorem parser_loop (round : σ → Grammar (β ⊕ σ)) (done : σ → β) (s : σ) :
    (Parser.loop round done s : Grammar β) = loop round done s := rfl

@[simp] theorem parser_takeWord (w : String) : (Parser.takeWord w : Grammar Bool) = takeWord w :=
  rfl

@[simp] theorem parser_peekWord (w : String) : (Parser.peekWord w : Grammar Bool) = peekWord w :=
  rfl

@[simp] theorem parser_takeWordOf (ws : List String) :
    (Parser.takeWordOf ws : Grammar (Option String)) = takeWordOf ws := rfl

variable {m : Type → Type} [Monad m] [MonadLiftT Grammar m] [Parser m]

/-- One or more `item`s with the token `sep` between them. -/
def sepBy1 (item : m α) (sep : Token) : m (List α) :=
  Parser.loop (fun acc => do
      let a ← item
      if ← takeIf sep then return .inr (a :: acc) else return .inl (a :: acc).reverse)
    List.reverse []

end Grammar

/-! ## Rules as methods of a parser with a nesting counter

A parser also keeps a counter of how many expressions it is reading one inside another. The
expression rule alone reads and changes it: it refuses to go deeper at the limit, and otherwise
raises the counter before it reads the operators of one level and lowers it after, whether they
were read or not. Every other rule leaves the counter to the expressions it reads.

A `Method α` is a rule run on such a parser. From a cursor and the counter it gives an error, or
a value and what is left of the input, and in both cases the counter it leaves. A step that only
reads tokens is a method that leaves the counter alone (`Method.lift`). -/

/-- The nesting counter of a parser: how many expressions it is reading one inside another
(`depth`), and the most it has read at once so far (`peak`). No rule reads `peak`; it keeps the
highest value the counter has taken, so that a statement can speak of the whole of a run. -/
structure Nesting where
  depth : Nat
  peak : Nat
  deriving DecidableEq

namespace Nesting

/-- The counter of a new parser. -/
def fresh : Nesting := ⟨0, 0⟩

/-- The counter one level deeper. -/
def enter (n : Nesting) : Nesting := ⟨n.depth + 1, max n.peak (n.depth + 1)⟩

/-- The counter one level less deep. -/
def leave (n : Nesting) : Nesting := { n with depth := n.depth - 1 }

end Nesting

/-- A rule run on a parser with a nesting counter: from a cursor and the counter, an error or a
value and what is left, and the counter after it, which is there whether the rule succeeded or
failed. -/
def Method (α : Type) : Type := (c : Cursor) → Nesting → Except ParseError (α × Rest c) × Nesting

namespace Method

/-- The value, reading nothing. -/
@[inline] protected def pure (a : α) : Method α :=
  fun c n => (.ok (a, ⟨c, Nat.le_refl _⟩), n)

/-- The first method, then the method chosen by its value; a failure stops with the counter the
failed method left. -/
@[inline] protected def bind (m : Method α) (f : α → Method β) : Method β := fun c n =>
  match m c n with
  | (.error e, n₁) => (.error e, n₁)
  | (.ok (a, ⟨c₁, h₁⟩), n₁) =>
    match f a c₁ n₁ with
    | (.error e, n₂) => (.error e, n₂)
    | (.ok (b, ⟨c₂, h₂⟩), n₂) => (.ok (b, ⟨c₂, Nat.le_trans h₂ h₁⟩), n₂)

instance : Monad Method where
  pure := Method.pure
  bind := Method.bind

/-- A step that reads tokens only, as a method: it leaves the counter alone. -/
def lift (g : Grammar α) : Method α := fun c n => (g c, n)

instance : MonadLift Grammar Method := ⟨lift⟩

/-- The depth of the counter, reading nothing. -/
def depth : Method Nat := fun c n => (.ok (n.depth, ⟨c, Nat.le_refl _⟩), n)

/-- Runs `m` one level deeper: the counter is raised before it and lowered after it, whether `m`
succeeded or failed. -/
def deeper (m : Method α) : Method α := fun c n =>
  let r := m c n.enter
  (r.1, r.2.leave)

/-- The rounds of `loop` from a given cursor and counter. -/
def loopFrom (round : σ → Method (β ⊕ σ)) (done : σ → β) (s : σ) (c : Cursor) (n : Nesting) :
    Except ParseError (β × Rest c) × Nesting :=
  match round s c n with
  | (.error e, n₁) => (.error e, n₁)
  | (.ok (.inl b, r), n₁) => (.ok (b, r), n₁)
  | (.ok (.inr s', ⟨c', h⟩), n₁) =>
    if _hlt : c'.size < c.size then
      match loopFrom round done s' c' n₁ with
      | (.error e, n₂) => (.error e, n₂)
      | (.ok (b, ⟨c'', h'⟩), n₂) => (.ok (b, ⟨c'', Nat.le_trans h' h⟩), n₂)
    else (.ok (done s', ⟨c', h⟩), n₁)
termination_by c.size

/-- Runs `round` from `s` again and again, as `Grammar.loop` does, with the counter carried from
each round to the next. -/
def loop (round : σ → Method (β ⊕ σ)) (done : σ → β) (s : σ) : Method β :=
  loopFrom round done s

end Method

/-- A parser with a nesting counter repeats with the counter carried along, and tests words as
`Grammar` does. -/
instance : Parser Method where
  loop := Method.loop
  takeWord w := Method.lift (Grammar.takeWord w)
  peekWord w := Method.lift (Grammar.peekWord w)
  takeWordOf ws := Method.lift (Grammar.takeWordOf ws)

end SqlDdl
