import SqlDdl.Proofs.Offsets
import Mathlib.Data.List.Forall2

/-!
# Steps that cannot tell a name bare from the same name quoted

A bare identifier and a quoted one of the same text are two tokens, and the parser tells them
apart in one way only: it reads the dialect words, such as `ENGINE`, `USING` or `UNSIGNED`, as
bare identifiers alone. Every other step reads either as the name it carries.

Quoting is a relation between two places in token streams (`Cursor.Requotes q`): the tokens agree
one by one, except that a bare identifier of the first may be the same identifier quoted in the
second where `q` admits its offset, and both streams end alike. Offsets do not matter otherwise,
since quoting moves every token after the quoted one. `RunRequoted q g g'` says that `g` and
`g'` run alike from such places: both fail, or both give the same value at such places again. A
step that runs alike with itself is blind to quoting (`QuoteBlind`); every rule that tests no
dialect word is, whatever `q` admits. The rules that do test one are taken up with the parser
that notes where it found one (`SqlDdl.Proofs.WordReads`).
-/

namespace SqlDdl

/-- `t'` is `t`, or `t` is a bare identifier and `t'` the same identifier quoted. -/
def Token.Requotes (t t' : Token) : Prop :=
  t' = t ∨ ∃ w, t = .ident w ∧ t' = .quotedIdent w

/-- `y` is `x`, or, where `q` admits the offset of `x`, `x` is a bare identifier and `y` the same
identifier quoted. -/
def Spanned.Requotes (q : Nat → Prop) (x y : Spanned) : Prop :=
  y.token = x.token ∨ q x.offset ∧ ∃ w, x.token = .ident w ∧ y.token = .quotedIdent w

instance (q : Nat → Prop) [DecidablePred q] (x y : Spanned) : Decidable (x.Requotes q y) :=
  decidable_of_iff
    (y.token = x.token ∨ q x.offset ∧ ∃ w ∈ x.token.name?, x.token = .ident w ∧
      y.token = .quotedIdent w) <|
    or_congr_right <| and_congr_right fun _ => ⟨fun ⟨w, _, h⟩ => ⟨w, h⟩,
      fun ⟨w, ht, ht'⟩ => ⟨w, by rw [ht]; rfl, ht, ht'⟩⟩

namespace Spanned

variable {q : Nat → Prop} {x y : Spanned}

theorem Requotes.token (h : x.Requotes q y) : x.token.Requotes y.token := by
  rcases h with h | ⟨-, h⟩
  · exact .inl h
  · exact .inr h

theorem Requotes.eq_of_not (h : x.Requotes q y) (hq : ¬ q x.offset) : y.token = x.token := by
  rcases h with h | ⟨h, -⟩
  · exact h
  · exact absurd h hq

end Spanned

namespace Cursor

/-- The place `c'` holds the tokens of `c`, with some bare identifiers quoted where `q` admits
their offsets, at any offsets of its own, and ends the same way. -/
def Requotes (c : Cursor) (q : Nat → Prop) (c' : Cursor) : Prop :=
  List.Forall₂ (Spanned.Requotes q) c.rest c'.rest ∧ c.stop.finishes = c'.stop.finishes

instance (c : Cursor) (q : Nat → Prop) [DecidablePred q] (c' : Cursor) :
    Decidable (c.Requotes q c') :=
  inferInstanceAs (Decidable (_ ∧ _))

variable {q : Nat → Prop} {c c' : Cursor}

theorem Requotes.next? (h : c.Requotes q c') : (c.next? = none ∧ c'.next? = none) ∨
    ∃ t t', c.next? = some t ∧ c'.next? = some t' ∧ t.Requotes t' := by
  obtain ⟨hr, -⟩ := h
  rcases c with ⟨rest, _, _, _⟩
  rcases c' with ⟨rest', _, _, _⟩
  unfold Cursor.next?
  cases hr with
  | nil => exact .inl ⟨rfl, rfl⟩
  | cons hxy _ => exact .inr ⟨_, _, rfl, rfl, hxy.token⟩

/-- Where `q` does not admit the offset of the next token, both places show the same next
token. -/
theorem Requotes.next?_eq (h : c.Requotes q c') (hq : ¬ q c.offset) : c'.next? = c.next? := by
  obtain ⟨hr, -⟩ := h
  rcases c with ⟨rest, _, _, _⟩
  rcases c' with ⟨rest', _, _, _⟩
  unfold Cursor.next?
  cases hr with
  | nil => rfl
  | cons hxy _ =>
    dsimp only [List.head?, Option.map]
    rw [hxy.eq_of_not hq]

theorem Requotes.size (h : c.Requotes q c') : c.size = c'.size := by
  rw [c.size_eq, c'.size_eq]
  exact h.1.length_eq

theorem Requotes.advance (h : c.Requotes q c') : c.advance.Requotes q c'.advance := by
  obtain ⟨hr, hs⟩ := h
  rcases c with ⟨rest, _, _, _⟩
  rcases c' with ⟨rest', _, _, _⟩
  refine ⟨?_, hs⟩
  unfold Cursor.advance
  cases hr with
  | nil => exact .nil
  | cons _ htail => exact htail

/-- Such places both show a next token, the one requoting the other, or both none, or both stop
at a lex error. -/
theorem Requotes.peek (h : c.Requotes q c') :
    (∃ x x', c.peek = .ok x ∧ c'.peek = .ok x' ∧ Option.Rel Token.Requotes x x') ∨
      (∃ e e', c.peek = .error e ∧ c'.peek = .error e') := by
  obtain ⟨hr, hs⟩ := h
  rcases c with ⟨rest, stop, _, _⟩
  rcases c' with ⟨rest', stop', _, _⟩
  dsimp only at hr hs
  cases hr with
  | nil => cases stop <;> cases stop' <;> simp_all [StreamEnd.finishes, Cursor.peek]
  | cons hxy _ => exact .inl ⟨_, _, rfl, rfl, .some hxy.token⟩

end Cursor

namespace Grammar

variable {α β σ : Type} {q : Nat → Prop}

/-- Two outcomes of a step from places that requote one another: both errors, or the same value
at places that requote one another. -/
def RequotedRuns (q : Nat → Prop) :
    Except ParseError (α × Cursor) → Except ParseError (α × Cursor) → Prop
  | .error _, .error _ => True
  | .ok (a, c), .ok (a', c') => a = a' ∧ c.Requotes q c'
  | .error _, .ok _ => False
  | .ok _, .error _ => False

theorem requotedRuns_iff {r r' : Except ParseError (α × Cursor)} :
    RequotedRuns q r r' ↔ (∃ e e', r = .error e ∧ r' = .error e') ∨
      ∃ a c c', r = .ok (a, c) ∧ r' = .ok (a, c') ∧ c.Requotes q c' := by
  rcases r with e | ⟨a, c⟩ <;> rcases r' with e' | ⟨a', c'⟩
  case ok.ok =>
    constructor
    · rintro ⟨rfl, h⟩
      exact .inr ⟨a, c, c', rfl, rfl, h⟩
    · rintro (⟨_, _, h, _⟩ | ⟨_, _, _, h, h', hc⟩)
      · cases h
      · cases h
        cases h'
        exact ⟨rfl, hc⟩
  all_goals simp [RequotedRuns]

/-- `g` and `g'` run alike from places that requote one another where `q` admits. -/
def RunRequoted (q : Nat → Prop) (g g' : Grammar α) : Prop :=
  ∀ c c', c.Requotes q c' → RequotedRuns q (g.run c) (g'.run c')

/-- A step that runs alike with itself from places that requote one another: it cannot tell a
bare identifier from the same identifier quoted. -/
abbrev QuoteBlind (q : Nat → Prop) (g : Grammar α) : Prop := RunRequoted q g g

theorem runRequoted_pure (a : α) : RunRequoted q (pure a : Grammar α) (pure a) :=
  fun _ _ h => ⟨rfl, h⟩

theorem RunRequoted.bind {g g' : Grammar α} {f f' : α → Grammar β} (hg : RunRequoted q g g')
    (hf : ∀ a, RunRequoted q (f a) (f' a)) : RunRequoted q (g >>= f) (g' >>= f') := by
  intro c c' hc
  rw [run_bind, run_bind]
  obtain ⟨e, e', h, h'⟩ | ⟨a, c₁, c₁', h, h', hc₁⟩ :=
    requotedRuns_iff.1 (hg c c' hc) <;> rw [h, h']
  · trivial
  · exact hf a c₁ c₁' hc₁

theorem runRequoted_fail (e e' : ParseError) : RunRequoted q (fail e : Grammar α) (fail e') :=
  fun _ _ _ => trivial

theorem runRequoted_expected (what what' : String) :
    RunRequoted q (expected what : Grammar α) (expected what') :=
  fun _ _ _ => trivial

theorem runRequoted_unsupported (construct construct' : String) :
    RunRequoted q (unsupported construct : Grammar α) (unsupported construct') :=
  fun _ _ _ => trivial

/-- What follows a look at the next token runs alike when it runs alike on next tokens that
requote one another. -/
theorem runRequoted_peek_bind {k k' : Option Token → Grammar β}
    (h : ∀ x x', Option.Rel Token.Requotes x x' → RunRequoted q (k x) (k' x')) :
    RunRequoted q (peek >>= k) (peek >>= k') := by
  intro c c' hc
  rw [run_bind, run_bind, run_peek, run_peek]
  obtain ⟨x, x', hx, hx', hrel⟩ | ⟨e, e', he, he'⟩ := hc.peek
  · rw [hx, hx']
    exact h x x' hrel c c' hc
  · rw [he, he']
    trivial

/-- The usual case: a step chosen by the next token, the same for a name bare and quoted. -/
theorem quoteBlind_peek_bind {k : Option Token → Grammar β} (hk : ∀ x, QuoteBlind q (k x))
    (heq : ∀ w, k (some (.ident w)) = k (some (.quotedIdent w))) :
    QuoteBlind q (peek >>= k) := by
  refine runRequoted_peek_bind fun x x' hrel => ?_
  cases hrel with
  | none => exact hk none
  | some ht =>
      rcases ht with rfl | ⟨w, rfl, rfl⟩
      · exact hk _
      · rw [← heq w]
        exact hk _

theorem runRequoted_offset_bind {k k' : Nat → Grammar β}
    (h : ∀ n n', RunRequoted q (k n) (k' n')) : RunRequoted q (offset >>= k) (offset >>= k') := by
  intro c c' hc
  rw [run_bind, run_bind, run_offset, run_offset]
  exact h _ _ c c' hc

/-- A token read with a function that gives a name the same value bare and quoted. -/
theorem quoteBlind_takeMap (f : Token → Option β)
    (hf : ∀ w, f (.ident w) = f (.quotedIdent w)) : QuoteBlind q (takeMap f) := by
  intro c c' hc
  rw [run_takeMap, run_takeMap]
  obtain ⟨hn, hn'⟩ | ⟨t, t', hn, hn', ht⟩ := hc.next?
  · rw [hn, hn']
    exact ⟨rfl, hc⟩
  · have hft : f t = f t' := by
      rcases ht with rfl | ⟨w, rfl, rfl⟩
      · rfl
      · exact hf w
    simp only [hn, hn', Option.bind_eq_bind, Option.bind_some, hft]
    cases f t'
    · exact ⟨rfl, hc⟩
    · exact ⟨rfl, hc.advance⟩

theorem runRequoted_takeAny_bind {g g' : Grammar β} (h : RunRequoted q g g') :
    RunRequoted q (takeAny >>= fun _ => g) (takeAny >>= fun _ => g') := by
  intro c c' hc
  rw [run_bind, run_bind]
  unfold takeAny
  rw [run_takeMap, run_takeMap]
  obtain ⟨hn, hn'⟩ | ⟨t, t', hn, hn', -⟩ := hc.next?
  · rw [hn, hn']
    exact h c c' hc
  · rw [hn, hn']
    exact h _ _ hc.advance

theorem quoteBlind_peekName : QuoteBlind q peekName := by
  intro c c' hc
  rw [run_peekName, run_peekName]
  refine ⟨?_, hc⟩
  obtain ⟨hn, hn'⟩ | ⟨t, t', hn, hn', ht⟩ := hc.next?
  · rw [hn, hn']
  · rw [hn, hn']
    rcases ht with rfl | ⟨w, rfl, rfl⟩ <;> rfl

/-- Rounds that run alike make repetitions that run alike: places that requote one another are
as far from the end, so both repetitions go on or stop together. -/
theorem RunRequoted.loop {round round' : σ → Grammar (β ⊕ σ)}
    (h : ∀ s, RunRequoted q (round s) (round' s)) (done : σ → β) (s : σ) :
    RunRequoted q (loop round done s) (loop round' done s) := by
  intro c c' hc
  induction hn : c.size using Nat.strong_induction_on generalizing c c' s with
  | _ n ih =>
    rw [run_loop, run_loop]
    obtain ⟨e, e', hr, hr'⟩ | ⟨b | s₁, c₁, c₁', hr, hr', hc₁⟩ :=
      requotedRuns_iff.1 (h s c c' hc) <;> rw [hr, hr']
    · trivial
    · exact ⟨rfl, hc₁⟩
    · dsimp only
      rw [← hc.size, ← hc₁.size]
      split
      · next hlt => exact ih _ (hn ▸ hlt) s₁ c₁ c₁' hc₁ rfl
      · exact ⟨rfl, hc₁⟩

/-! ## Steps made of the primitives -/

theorem quoteBlind_takeIf {t : Token} (ht : t.name? = none) : QuoteBlind q (takeIf t) := by
  refine RunRequoted.bind (quoteBlind_takeMap _ fun w => ?_) fun _ => runRequoted_pure _
  have h₁ : Token.ident w ≠ t := by
    rintro rfl
    cases ht
  have h₂ : Token.quotedIdent w ≠ t := by
    rintro rfl
    cases ht
  rw [if_neg h₁, if_neg h₂]

theorem quoteBlind_expect {t : Token} (ht : t.name? = none) : QuoteBlind q (expect t) := by
  refine RunRequoted.bind (quoteBlind_takeIf ht) fun b => ?_
  cases b
  · exact runRequoted_expected _ _
  · exact runRequoted_pure _

theorem quoteBlind_expectName (what : String) : QuoteBlind q (expectName what) := by
  refine RunRequoted.bind (quoteBlind_takeMap _ fun _ => rfl) fun n => ?_
  cases n
  · exact runRequoted_expected _ _
  · exact runRequoted_pure _

theorem quoteBlind_sepBy1 {item : Grammar α} (h : QuoteBlind q item) {sep : Token}
    (hsep : sep.name? = none) : QuoteBlind q (sepBy1 item sep) := by
  refine RunRequoted.loop (fun acc => RunRequoted.bind h fun a =>
    RunRequoted.bind (quoteBlind_takeIf hsep) fun b => ?_) _ _
  cases b <;> exact runRequoted_pure _

theorem quoteBlind_map {g : Grammar α} (h : QuoteBlind q g) (f : α → β) :
    QuoteBlind q (f <$> g) :=
  RunRequoted.bind h fun a => runRequoted_pure (f a)

/-! ## Expressions -/

theorem quoteBlind_nullTest (p : Nat) : QuoteBlind q (nullTest? p) := by
  unfold nullTest?
  refine quoteBlind_peek_bind (fun t => ?_) fun _ => rfl
  split
  · exact runRequoted_pure _
  split
  · exact runRequoted_pure _
  exact RunRequoted.bind (quoteBlind_expect rfl) fun _ =>
    RunRequoted.bind (quoteBlind_takeIf rfl) fun _ =>
    RunRequoted.bind (quoteBlind_expect rfl) fun _ => runRequoted_pure _

theorem quoteBlind_nullTests (p : Nat) (e : Expr) : QuoteBlind q (nullTests p e) := by
  unfold nullTests
  refine RunRequoted.loop (fun e => RunRequoted.bind (quoteBlind_nullTest p) fun r => ?_) _ _
  cases r <;> exact runRequoted_pure _

section Operands

variable {sub : Nat → Grammar Expr} (hsub : ∀ p, QuoteBlind q (sub p))
include hsub

theorem quoteBlind_infixes (p : Nat) (lhs : Expr) : QuoteBlind q (infixes sub p lhs) := by
  unfold infixes
  refine RunRequoted.loop (fun lhs =>
    RunRequoted.bind (quoteBlind_takeMap _ fun _ => rfl) fun r => ?_) _ _
  rcases r with _ | ⟨op, power⟩
  · exact runRequoted_pure _
  · exact RunRequoted.bind (hsub _) fun _ => runRequoted_pure _

theorem quoteBlind_callArguments : QuoteBlind q (callArguments sub) := by
  refine RunRequoted.loop (fun args => RunRequoted.bind (quoteBlind_takeIf rfl) fun b => ?_) _ _
  split
  · exact runRequoted_pure _
  · dsimp only
    split
    · exact RunRequoted.bind (quoteBlind_expect rfl) fun _ =>
        RunRequoted.bind (hsub 0) fun _ => runRequoted_pure _
    · exact RunRequoted.bind (hsub 0) fun _ => runRequoted_pure _

/-- What follows a name in an atom, which the name's spelling does not choose. -/
theorem quoteBlind_afterName (name : String) :
    QuoteBlind q (do
      if ← takeIf .openParen then return Expr.function name (← callArguments sub)
      else if ← takeIf .period then return .column (some name) (← expectName "column name")
      else return .column none name) := by
  refine RunRequoted.bind (quoteBlind_takeIf rfl) fun b => ?_
  split
  · exact RunRequoted.bind (quoteBlind_callArguments hsub) fun _ => runRequoted_pure _
  · refine RunRequoted.bind (quoteBlind_takeIf rfl) fun b => ?_
    split
    · exact RunRequoted.bind (quoteBlind_expectName _) fun _ => runRequoted_pure _
    · exact runRequoted_pure _

/-- An atom reads a bare and a quoted identifier in one branch, and puts the offset of its token
into errors only. -/
theorem quoteBlind_atom : QuoteBlind q (atom sub) := by
  unfold atom
  simp only [liftM_self]
  refine quoteBlind_peek_bind (fun t => ?_) fun _ => rfl
  rcases t with _ | token
  · exact runRequoted_expected _ _
  dsimp only
  refine runRequoted_offset_bind fun n n' => runRequoted_takeAny_bind ?_
  split
  case h_2 =>
    split
    · exact runRequoted_pure _
    · exact runRequoted_fail _ _
  case h_7 | h_8 => exact quoteBlind_afterName hsub _
  case h_9 =>
    exact RunRequoted.bind (hsub 0) fun _ =>
      RunRequoted.bind (quoteBlind_expect rfl) fun _ => runRequoted_pure _
  case h_10 => exact runRequoted_fail _ _
  all_goals exact runRequoted_pure _

theorem quoteBlind_operators (p : Nat) : QuoteBlind q (operators sub p) := by
  unfold operators
  refine RunRequoted.bind (quoteBlind_takeMap _ fun _ => rfl) fun r => ?_
  dsimp only
  have hrest : ∀ first, QuoteBlind q (do
      let lhs ← nullTests p first
      let lhs ← infixes sub p lhs
      nullTests p lhs) := fun first =>
    RunRequoted.bind (quoteBlind_nullTests p first) fun lhs =>
      RunRequoted.bind (quoteBlind_infixes hsub p lhs) fun lhs => quoteBlind_nullTests p lhs
  rcases r with _ | ⟨op, power⟩
  · exact RunRequoted.bind (quoteBlind_atom hsub) hrest
  · exact RunRequoted.bind (hsub power) fun _ => RunRequoted.bind (runRequoted_pure _) hrest

end Operands

/-- The induction follows the recursion of `expressionAt`, whose operands are read one level
deeper. -/
theorem quoteBlind_expressionAt (depth p : Nat) : QuoteBlind q (expressionAt depth p) := by
  fun_induction expressionAt depth p with
  | case1 => exact runRequoted_expected _ _
  | case2 depth p _ ih => exact quoteBlind_operators ih p

theorem quoteBlind_expression : QuoteBlind q expression := quoteBlind_expressionAt 0 0

/-! ## Rules that read no expression and test no word -/

theorem quoteBlind_name : QuoteBlind q name := quoteBlind_expectName _

theorem quoteBlind_qualifiedName : QuoteBlind q qualifiedName :=
  RunRequoted.bind (quoteBlind_sepBy1 quoteBlind_name rfl) fun _ => runRequoted_pure _

theorem quoteBlind_stringLiteral : QuoteBlind q stringLiteral := by
  refine RunRequoted.bind (quoteBlind_takeMap _ fun _ => rfl) fun r => ?_
  cases r
  · exact runRequoted_expected _ _
  · exact runRequoted_pure _

theorem quoteBlind_typeArgument : QuoteBlind q typeArgument := by
  refine RunRequoted.bind (quoteBlind_takeMap _ fun _ => rfl) fun r => ?_
  cases r
  · exact runRequoted_expected _ _
  · exact runRequoted_pure _

theorem quoteBlind_typeArguments (max : Nat) : QuoteBlind q (typeArguments max) := by
  refine RunRequoted.bind (quoteBlind_takeIf rfl) fun b => ?_
  split
  · exact runRequoted_pure _
  refine RunRequoted.bind ?_ fun _ =>
    RunRequoted.bind (quoteBlind_expect rfl) fun _ => runRequoted_pure _
  refine RunRequoted.loop (fun args => ?_) _ _
  unfold typeArgumentRound
  refine RunRequoted.bind quoteBlind_typeArgument fun a => ?_
  dsimp only
  split
  · exact runRequoted_pure _
  · refine RunRequoted.bind (quoteBlind_takeIf rfl) fun b => ?_
    split <;> exact runRequoted_pure _

/-- An argument of a type the grammar does not know is kept as its text, which a name has the
same bare and quoted. -/
theorem quoteBlind_customArgument : QuoteBlind q customArgument := by
  refine RunRequoted.bind (quoteBlind_takeMap _ fun _ => rfl) fun r => ?_
  cases r
  · exact runRequoted_expected _ _
  · exact runRequoted_pure _

theorem quoteBlind_customArguments : QuoteBlind q customArguments := by
  refine RunRequoted.bind (quoteBlind_takeIf rfl) fun b => ?_
  split
  · exact runRequoted_pure _
  exact RunRequoted.bind (quoteBlind_sepBy1 quoteBlind_customArgument rfl) fun _ =>
    RunRequoted.bind (quoteBlind_expect rfl) fun _ => runRequoted_pure _

theorem quoteBlind_aliasAfter (what : String) : QuoteBlind q (aliasAfter what) := by
  refine RunRequoted.bind (quoteBlind_takeIf rfl) fun _ =>
    RunRequoted.bind quoteBlind_peekName fun _ => ?_
  split
  · exact RunRequoted.bind (quoteBlind_expectName _) fun _ => runRequoted_pure _
  · exact runRequoted_pure _

theorem quoteBlind_tableRef : QuoteBlind q tableRef :=
  RunRequoted.bind quoteBlind_qualifiedName fun _ =>
    RunRequoted.bind (quoteBlind_aliasAfter _) fun _ => runRequoted_pure _

theorem quoteBlind_nullability : QuoteBlind q nullability := by
  unfold nullability
  refine RunRequoted.bind (quoteBlind_takeIf rfl) fun b => ?_
  split
  · exact RunRequoted.bind (quoteBlind_expect rfl) fun _ => runRequoted_pure _
  · exact RunRequoted.bind (quoteBlind_takeIf rfl) fun _ => runRequoted_pure _

theorem quoteBlind_constraintName : QuoteBlind q constraintName := by
  refine RunRequoted.bind (quoteBlind_takeIf rfl) fun b => ?_
  split
  · exact quoteBlind_takeMap _ fun _ => rfl
  · exact runRequoted_pure _

/-- An option's value is the text of its token, the same for a name bare and quoted. -/
theorem quoteBlind_optionValue : QuoteBlind q optionValue := by
  refine quoteBlind_peek_bind (fun t => ?_) fun _ => rfl
  split
  · exact runRequoted_expected _ _
  · exact runRequoted_takeAny_bind (runRequoted_pure _)

theorem quoteBlind_rejectOnClause : QuoteBlind q rejectOnClause := by
  refine quoteBlind_peek_bind (fun t => ?_) fun _ => rfl
  split
  · exact runRequoted_unsupported _ _
  · exact runRequoted_pure _

end Grammar

end SqlDdl
