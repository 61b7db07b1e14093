import SqlDdl.Proofs.Steps
import SqlDdl.Proofs.Invariant

/-!
# Expressions, types and queries stay in the stream

The rules for expressions, names, column types and queries are sound with no admission: run from
a place in a token stream, each ends at a place in it or fails with an error that points into it.
Soundness is an `Invariant` of the grammar (`soundness`): every primitive step builds its errors
with `expected` and `unsupported`, which name the token at hand, and the combinators keep it, so
the walk through the rules is the one of `Invariant`. The exception is `atom`, which takes the
offset before it reads the token and names that token later: the two still belong together,
since nothing is read between them (`sound_atom`).
-/

namespace SqlDdl.Grammar

/-- Soundness in a stream, with the errors `X` admits, as an invariant of the grammar. -/
def soundness (s : TokenStream) (X : ParseError → Prop) : Invariant where
  holds := Sound s X
  pure := sound_pure
  bind := Sound.bind
  expected := sound_expected
  unsupported := sound_unsupported
  peek := sound_peek
  takeMap := sound_takeMap
  peekWord := sound_peekWord
  peekName := sound_peekName
  loop h := sound_loop h

variable {s : TokenStream} {X : ParseError → Prop}

/-! ## Expressions -/

theorem sound_nullTests (p : Nat) (e : Expr) : Sound s X (nullTests p e) :=
  (soundness s X).holds_nullTests p e

section Operands

variable {sub : Nat → Grammar Expr} (hsub : ∀ p, Sound s X (sub p))
include hsub

theorem sound_infixes (p : Nat) (lhs : Expr) : Sound s X (infixes sub p lhs) :=
  Walk.holds_infixes (I := (soundness s X).toWalk) hsub p lhs

/-- What follows a name in an atom: the arguments of a call, or a column name after `.`. -/
theorem sound_afterName (name : String) :
    Sound s X (do
      if ← takeIf .openParen then return Expr.function name (← callArguments sub)
      else if ← takeIf .period then return .column (some name) (← expectName "column name")
      else return .column none name) :=
  Walk.holds_afterName (I := (soundness s X).toWalk) hsub name

/-- An atom's errors point into the stream: the offset it takes before it reads a token is that
token's, since it reads nothing in between. -/
theorem sound_atom : Sound s X (atom sub) := by
  intro c hc
  unfold atom
  simp only [liftM_self]
  rw [run_bind, run_peek]
  rcases hpeek : c.peek with e | _ | token
  · exact .inl (hc.peek_error hpeek)
  · exact .inl (hc.expectedHere _)
  have hnext := Cursor.next?_of_peek hpeek
  have hmem := hc.next?_mem hnext
  have hadv := hc.advance
  simp only [run_bind, run_offset, takeAny, run_takeMap, hnext, Option.bind_eq_bind,
    Option.bind_some]
  split
  · exact hadv
  · split
    · exact hadv
    · exact .inl hmem
  · exact hadv
  · exact hadv
  · exact hadv
  · exact hadv
  · exact sound_afterName hsub _ _ hadv
  · exact sound_afterName hsub _ _ hadv
  · exact ((hsub 0).bind fun _ => (sound_expect _).bind fun _ => sound_pure _) _ hadv
  · exact .inl hmem

end Operands

/-- Expressions at every depth and power are sound: the walk of `Invariant`, with atoms sound
by `sound_atom`. -/
theorem sound_expressionAt (depth p : Nat) : Sound s X (expressionAt depth p) :=
  Walk.holds_expressionAt (I := (soundness s X).toWalk) (fun _ => sound_atom) depth p

theorem sound_expression : Sound s X expression := sound_expressionAt 0 0

theorem sound_name : Sound s X name := (soundness s X).holds_name

theorem sound_qualifiedName : Sound s X qualifiedName := (soundness s X).holds_qualifiedName

theorem sound_stringLiteral : Sound s X stringLiteral := (soundness s X).holds_stringLiteral

/-! ## Types and queries -/

theorem sound_dataType : Sound s X dataType := (soundness s X).holds_dataType

theorem sound_select : Sound s X select :=
  Walk.holds_select (I := (soundness s X).toWalk) fun _ => sound_atom

end SqlDdl.Grammar

