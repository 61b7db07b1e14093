import SqlDdl.Proofs.StatementParsed
import SqlDdl.Proofs.Dialects
import SqlDdl.Proofs.ReadBack

/-!
# Every repetition reads a token

The repetitions of the grammar are written with `loop`, which also ends a repetition whose round
asks to go on without reading a token. That guard makes every step a total function, but it is
not how a parser of this grammar stops: a round that went on without reading would go on
forever. This module shows that the guard never decides a result. Every round of every
repetition that asks to go on has read a token (`Progresses`), so a repetition runs as the
unguarded loop `round s >>= Sum.elim pure (loop round done)` (`Progresses.run_loop`), and its
answer does not depend on the fallback `done` (`Progresses.loop_done`).

A round reads a token because of the token it starts with: a separator, an operator, `IS`, the
keyword or word of a column option, a table option's name, `PARTITION`, or an argument. Where it
starts with a whole rule instead, that rule consumes a token whenever it succeeds (`Consumes`):
expressions, table elements, column definitions and types all do. An expression reads its first
token itself, before any operand one level deeper, and an expression is read only within
`maxDepth` levels. With the lexer, which reads at least one character for every token
(`length_tokens_le`), this makes the parser a recursion on the tokens left and the levels of
nesting left (`parser_progresses`).
-/

namespace SqlDdl

namespace Scan

/-- The tokens of a text starting at any position are no more than its characters. -/
theorem length_scanFrom_le (cs : List Char) (pos : Nat) :
    (scanFrom cs pos).tokens.length ≤ cs.length := by
  fun_induction scanFrom cs pos with
  | case1 => simp
  | case2 => simp
  | case3 => simp
  | case4 cs pos c rest p hgap t r p' htok _ _ more ih =>
      have hg := skipGap_length hgap
      have ht := readToken_length htok
      simp only [more, List.length_cons] at ih hg ⊢
      omega

end Scan

/-- Every token of a text takes at least one of its characters. -/
theorem length_tokens_le (s : String) : (TokenStream.ofString s).tokens.length ≤ s.length := by
  have h := Scan.length_scanFrom_le s.toList 0
  rwa [String.length_toList] at h

namespace Grammar

variable {α β γ σ : Type}

/-! ## Reading at least one token -/

/-- Whenever `g` succeeds with a value that `P` admits, it has read at least one token. -/
def ConsumesFor (P : α → Prop) (g : Grammar α) : Prop :=
  ∀ c a c', g.run c = .ok (a, c') → P a → c'.size < c.size

/-- Whenever `g` succeeds, it has read at least one token. -/
def Consumes (g : Grammar α) : Prop := ConsumesFor (fun _ => True) g

/-- A round of a repetition reads at least one token whenever it asks to go on. -/
def Progresses (round : σ → Grammar (β ⊕ σ)) : Prop :=
  ∀ s, ConsumesFor (fun r => r.isRight = true) (round s)

theorem run_size_le {g : Grammar α} {c c' : Cursor} {a : α} (h : g.run c = .ok (a, c')) :
    c'.size ≤ c.size := by
  unfold run at h
  rcases hg : g c with e | ⟨a', r⟩
  · simp [hg] at h
  · simp only [hg, Except.ok.injEq, Prod.mk.injEq] at h
    obtain ⟨-, rfl⟩ := h
    exact r.2

theorem size_advance_lt {c : Cursor} {t : Token} (h : c.next? = some t) :
    c.advance.size < c.size := by
  have hpos : 0 < c.size := by
    rw [c.size_eq]
    unfold Cursor.next? at h
    cases hr : c.rest with
    | nil => simp [hr] at h
    | cons _ _ => simp
  rw [Cursor.size_advance]
  omega

variable {P : β → Prop} {g : Grammar α} {f : α → Grammar β}

/-- A sequence reads a token when its first step did, and otherwise when its second step does. -/
theorem ConsumesFor.bind {Q : α → Prop} (hg : ConsumesFor Q g)
    (hf : ∀ a, ¬ Q a → ConsumesFor P (f a)) : ConsumesFor P (g >>= f) := by
  intro c b c' h hb
  obtain ⟨a, c₁, ha, hb'⟩ := run_bind_eq_ok h
  by_cases hq : Q a
  · exact Nat.lt_of_le_of_lt (run_size_le hb') (hg c a c₁ ha hq)
  · exact Nat.lt_of_lt_of_le (hf a hq c₁ b c' hb' hb) (run_size_le ha)

theorem Consumes.bind_left (hg : Consumes g) : ConsumesFor P (g >>= f) :=
  hg.bind fun _ h => absurd trivial h

theorem consumesFor_bind_right (hf : ∀ a, ConsumesFor P (f a)) : ConsumesFor P (g >>= f) :=
  ConsumesFor.bind (Q := fun _ => False) (fun _ _ _ _ h => h.elim) fun a _ => hf a

theorem consumesFor_pure {a : β} (h : ¬ P a) : ConsumesFor P (pure a) := by
  intro c b c' hrun hb
  cases hrun
  exact absurd hb h

theorem consumesFor_pure_bind {a : α} (h : ConsumesFor P (f a)) : ConsumesFor P (pure a >>= f) := by
  intro c b c' hrun hb
  rw [run_pure_bind] at hrun
  exact h c b c' hrun hb

theorem consumesFor_expected (what : String) : ConsumesFor P (expected what) := by
  intro c b c' h
  simp at h

theorem consumesFor_unsupported (construct : String) : ConsumesFor P (unsupported construct) := by
  intro c b c' h
  simp at h

/-- A look at the next token, then a step that reads a token whenever it succeeds on the token
seen. -/
theorem consumesFor_peek_bind {k : Option Token → Grammar β}
    (hk : ∀ c b c', (k c.next?).run c = .ok (b, c') → P b → c'.size < c.size) :
    ConsumesFor P (peek >>= k) :=
  fun c b c' h hb => hk c b c' (run_peek_bind_ok h) hb

/-! ## The primitive steps -/

theorem consumesFor_takeMap (f : Token → Option β) : ConsumesFor (· ≠ none) (takeMap f) := by
  intro c b c' h hb
  rw [run_takeMap] at h
  split at h
  · next x hx =>
      cases h
      obtain ⟨t, ht, -⟩ := Option.bind_eq_some_iff.1 hx
      exact size_advance_lt ht
  · cases h
    exact absurd rfl hb

theorem consumesFor_takeIf (t : Token) : ConsumesFor (· = true) (takeIf t) := by
  intro c b c' h hb
  rw [run_takeIf] at h
  split at h
  · next ht =>
      cases h
      exact size_advance_lt ht
  · cases h
    cases hb

theorem consumesFor_takeWord (w : String) : ConsumesFor (· = true) (takeWord w) := by
  intro c b c' h hb
  rw [run_takeWord] at h
  split at h
  · next ht =>
      cases h
      obtain ⟨u, hu, -⟩ := (Option.any_eq_true _ _).1 ht
      exact size_advance_lt hu
  · cases h
    cases hb

theorem consumes_expect (t : Token) : Consumes (expect t) :=
  (consumesFor_takeIf t).bind fun b hb => by
    rw [if_neg hb]
    exact consumesFor_expected _

theorem consumes_expectName (what : String) : Consumes (expectName what) :=
  (consumesFor_takeMap _).bind fun n hn => by
    rw [not_not.1 hn]
    exact consumesFor_expected _

/-! ## Expressions -/

theorem consumes_atom (sub : Nat → Grammar Expr) : Consumes (atom sub) := by
  refine consumesFor_peek_bind fun c e c' h _ => ?_
  cases hn : c.next? with
  | none =>
      rw [hn] at h
      simp at h
  | some token =>
      rw [hn] at h
      obtain ⟨off, c₁, hoff, h⟩ := run_bind_eq_ok h
      rw [liftM_self, run_offset] at hoff
      cases hoff
      obtain ⟨x, c₂, hany, h⟩ := run_bind_eq_ok h
      rw [liftM_self, run_takeAny_of_next hn] at hany
      cases hany
      exact Nat.lt_of_le_of_lt (run_size_le h) (size_advance_lt hn)

/-- A level reads its first token itself: a prefix operator, or the token of its atom. -/
theorem consumes_operators (sub : Nat → Grammar Expr) (p : Nat) : Consumes (operators sub p) := by
  rw [operators_eq]
  refine (consumesFor_takeMap _).bind fun r hr => ?_
  rw [not_not.1 hr]
  exact (consumes_atom sub).bind_left

theorem consumes_expressionAt (depth p : Nat) : Consumes (expressionAt depth p) := by
  rw [expressionAt]
  split
  · exact consumesFor_expected _
  · exact consumes_operators _ p

theorem consumes_expression : Consumes expression := consumes_expressionAt 0 0

/-- An expression is read only within `maxDepth` levels of nesting. -/
theorem depth_lt_of_expressionAt {depth p : Nat} {c c' : Cursor} {e : Expr}
    (h : (expressionAt depth p).run c = .ok (e, c')) : depth < maxDepth := by
  rw [expressionAt] at h
  split at h
  · simp at h
  · omega

/-- One round of the binary operators after `lhs`: an operator that binds at least as tight as
`minPower`, with its right operand, or none. -/
def infixRound (sub : Nat → Grammar Expr) (minPower : Nat) (lhs : Expr) :
    Grammar (Expr ⊕ Expr) := do
  match ← takeMap (atLeast minPower ∘ infixOp?) with
  | some (op, power) =>
    let rhs ← sub (power + 1)
    return .inr (.binary op lhs rhs)
  | none => return .inl lhs

theorem infixes_eq (sub : Nat → Grammar Expr) (minPower : Nat) (lhs : Expr) :
    infixes sub minPower lhs = loop (infixRound sub minPower) id lhs := rfl

/-- One round of the null tests after `e`: a test that `minPower` admits, or none. -/
def nullTestRound (minPower : Nat) (e : Expr) : Grammar (Expr ⊕ Expr) := do
  match ← nullTest? minPower with
  | some negated => return .inr (applyNullTest negated e)
  | none => return .inl e

theorem nullTests_eq (minPower : Nat) (e : Expr) :
    nullTests minPower e = loop (nullTestRound minPower) id e := rfl

theorem progresses_infixRound (sub : Nat → Grammar Expr) (minPower : Nat) :
    Progresses (infixRound sub minPower) := fun _ =>
  (consumesFor_takeMap _).bind fun r hr => by
    rw [not_not.1 hr]
    exact consumesFor_pure (by simp)

theorem consumesFor_nullTest (minPower : Nat) : ConsumesFor (· ≠ none) (nullTest? minPower) := by
  unfold nullTest?
  refine consumesFor_bind_right fun t => ?_
  split
  · exact consumesFor_pure (by simp)
  split
  · exact consumesFor_pure (by simp)
  · exact (consumes_expect _).bind_left

theorem progresses_nullTestRound (minPower : Nat) : Progresses (nullTestRound minPower) := fun _ =>
  (consumesFor_nullTest minPower).bind fun r hr => by
    rw [not_not.1 hr]
    exact consumesFor_pure (by simp)

/-- The arguments of a call go on only after an argument, which reads a token. -/
theorem progresses_argRound {sub : Nat → Grammar Expr} (hsub : Consumes (sub 0)) :
    Progresses (argRound sub) := fun _ =>
  (consumesFor_takeIf _).bind fun b hb => by
    rw [if_neg hb]
    dsimp only
    split
    · exact (consumes_expect _).bind_left
    · exact hsub.bind_left

/-! ## Lists, types and columns -/

theorem progresses_sepRound (item : Grammar α) (sep : Token) : Progresses (sepRound item sep) :=
  fun _ => consumesFor_bind_right fun _ =>
    (consumesFor_takeIf sep).bind fun b hb => by
      rw [if_neg hb]
      exact consumesFor_pure (by simp)

theorem consumes_typeArgument : Consumes typeArgument :=
  (consumesFor_takeMap _).bind fun r hr => by
    rw [not_not.1 hr]
    exact consumesFor_expected _

theorem progresses_typeArgumentRound (max : Nat) : Progresses (typeArgumentRound max) :=
  fun _ => consumes_typeArgument.bind_left

theorem consumes_dataType : Consumes dataType := (consumes_expectName _).bind_left

theorem consumesFor_nullability : ConsumesFor (· ≠ none) nullability :=
  (consumesFor_takeIf _).bind fun b hb => by
    rw [if_neg hb]
    exact (consumesFor_takeIf _).bind fun b' hb' => consumesFor_pure (by simp [hb'])

/-- Each option other than nullability starts with its keyword or word. -/
theorem consumesFor_otherOption (col : Column) :
    ConsumesFor (fun r => r.isRight = true) (otherOption col) := by
  unfold otherOption
  refine (consumesFor_takeIf _).bind fun b hb => ?_
  rw [if_neg hb]
  refine (consumesFor_takeIf _).bind fun b hb => ?_
  rw [if_neg hb]
  refine (consumesFor_takeIf _).bind fun b hb => ?_
  rw [if_neg hb]
  refine (consumesFor_takeWord _).bind fun b hb => ?_
  rw [if_neg hb]
  refine (consumesFor_takeWord _).bind fun b hb => ?_
  rw [if_neg hb]
  exact consumesFor_pure (by simp)

theorem progresses_columnOption : Progresses columnOption := fun col =>
  consumesFor_bind_right fun _ => consumesFor_nullability.bind fun r hr => by
    rw [not_not.1 hr]
    exact consumesFor_otherOption col

theorem consumes_columnDef : Consumes columnDef := (consumes_expectName _).bind_left

/-! ## Table elements -/

theorem consumes_primaryKeyConstraint (name : Option String) :
    Consumes (primaryKeyConstraint name) :=
  (consumes_expect _).bind_left

/-- Past an optional `CONSTRAINT [name]`, a constraint reads its `KEY` or `PRIMARY`. -/
theorem consumes_tableConstraint (d : Dialect) : Consumes (tableConstraint d) := by
  cases d with
  | generic =>
      refine consumesFor_bind_right fun name => consumesFor_bind_right fun t => ?_
      split
      · exact consumes_primaryKeyConstraint name
      · exact consumesFor_unsupported _
  | mysql =>
      refine consumesFor_bind_right fun name => (consumesFor_takeIf _).bind fun b hb => ?_
      rw [if_neg hb]
      refine consumesFor_bind_right fun t => ?_
      split
      · exact consumes_primaryKeyConstraint name
      · exact consumesFor_unsupported _

/-- An element reads the token it was chosen by; one that starts with none of them is an
error. -/
theorem consumes_tableElement (d : Dialect) : Consumes (tableElement d) := by
  cases d with
  | generic =>
      refine consumesFor_bind_right fun b => ?_
      split
      · exact consumes_columnDef.bind_left
      refine consumesFor_bind_right fun t => ?_
      split
      · exact (consumes_tableConstraint _).bind_left
      · exact (consumes_tableConstraint _).bind_left
      · exact consumesFor_expected _
  | mysql =>
      refine consumesFor_bind_right fun b => ?_
      split
      · exact consumes_columnDef.bind_left
      refine consumesFor_peek_bind fun c e c' h _ => ?_
      split at h
      · exact (consumes_tableConstraint _).bind_left (P := fun _ => True) c e c' h trivial
      · exact (consumes_tableConstraint _).bind_left (P := fun _ => True) c e c' h trivial
      · exact (consumes_tableConstraint _).bind_left (P := fun _ => True) c e c' h trivial
      · next hn =>
          obtain ⟨x, c₁, hany, h⟩ := run_bind_eq_ok h
          rw [liftM_self, run_takeAny_of_next hn] at hany
          cases hany
          exact Nat.lt_of_le_of_lt (run_size_le h) (size_advance_lt hn)
      · simp at h

/-! ## The tail of MySQL -/

/-- A table option's name is read whenever one is found: `DEFAULT` alone is no name, and with no
word read there is no name. -/
theorem consumesFor_optionName : ConsumesFor (· ≠ none) optionName := by
  unfold optionName
  refine (consumesFor_takeIf _).bind fun hasDefault hd => ?_
  refine (consumesFor_takeMap _).bind fun word hw => ?_
  rw [not_not.1 hw]
  refine consumesFor_pure_bind ?_
  dsimp only
  split
  · exact consumesFor_expected _
  · exact consumesFor_pure (by simp)

/-- A clause of the tail goes on after an option's name or after `PARTITION`. -/
theorem progresses_tailClause : Progresses tailClause := fun stmt => by
  unfold tailClause
  refine consumesFor_optionName.bind fun r hr => ?_
  rw [not_not.1 hr]
  dsimp only
  intro c s' c' h hs'
  obtain ⟨b, c₁, hb, h⟩ := run_bind_eq_ok h
  simp only [parser_peekWord, run_peekWord, Except.ok.injEq, Prod.mk.injEq] at hb
  obtain ⟨hb, rfl⟩ := hb
  split at h
  · next hpart =>
      split at h
      · simp at h
      · obtain ⟨t, hn⟩ : ∃ t, c.next? = some t := by
          cases hn : c.next? with
          | none => simp [hn, hpart] at hb
          | some t => exact ⟨t, rfl⟩
        obtain ⟨x, c₂, hany, h⟩ := run_bind_eq_ok h
        rw [liftM_self, run_takeAny_of_next hn] at hany
        cases hany
        exact Nat.lt_of_le_of_lt (run_size_le h) (size_advance_lt hn)
  · cases h
    cases hs'

/-! ## What progress gives -/

/-- A repetition whose rounds progress runs as the unguarded loop: a round that finishes gives
the answer, and a round that goes on is followed by the repetition from where it stopped. -/
theorem Progresses.run_loop {round : σ → Grammar (β ⊕ σ)} (h : Progresses round)
    (done : σ → β) (s : σ) (c : Cursor) :
    (loop round done s).run c = (round s >>= Sum.elim pure (loop round done)).run c := by
  rw [Grammar.run_loop, run_bind]
  rcases hr : (round s).run c with e | ⟨b | s', c'⟩
  · rfl
  · rfl
  · dsimp only
    rw [if_pos (h s c _ c' hr rfl)]
    rfl

/-- The fallback of a repetition whose rounds progress never decides its answer. -/
theorem Progresses.loop_done {round : σ → Grammar (β ⊕ σ)} (h : Progresses round)
    (done done' : σ → β) (s : σ) (c : Cursor) :
    (loop round done s).run c = (loop round done' s).run c := by
  induction hn : c.size using Nat.strong_induction_on generalizing s c with
  | _ n ih =>
      rw [h.run_loop, h.run_loop, run_bind, run_bind]
      rcases hr : (round s).run c with e | ⟨b | s', c'⟩
      · rfl
      · rfl
      · exact ih c'.size (hn ▸ h s c _ c' hr rfl) s' c' rfl

/-! ## The parser -/

/-- The parser reads on the tokens alone. The lexer takes at least one character for each token.
An expression, a table element, a column definition and a type read at least one token whenever
they succeed, and an expression is read only within `maxDepth` levels. Every repetition of the
grammar goes on only after reading a token: the lists with a separator (the elements, the key and
partition columns, the parts of a name, the items, tables, groups and orderings of a query, the
arguments of a type the grammar does not know), the options of a column, the clauses of the MySQL
tail, the arguments of a call, the binary operators and null tests of a level, and the numeric
arguments of a type. -/
theorem parser_progresses (d : Dialect) :
    (∀ s : String, (TokenStream.ofString s).tokens.length ≤ s.length) ∧
    Consumes expression ∧ Consumes (tableElement d) ∧ Consumes columnDef ∧ Consumes dataType ∧
    (∀ depth p c e c', (expressionAt depth p).run c = .ok (e, c') → depth < maxDepth) ∧
    (∀ (α : Type) (item : Grammar α) (sep : Token), Progresses (sepRound item sep)) ∧
    Progresses columnOption ∧ Progresses tailClause ∧
    (∀ depth, Progresses (argRound fun p => expressionAt depth p)) ∧
    (∀ (sub : Nat → Grammar Expr) p, Progresses (infixRound sub p)) ∧
    (∀ p, Progresses (nullTestRound p)) ∧
    (∀ max, Progresses (typeArgumentRound max)) :=
  ⟨length_tokens_le, consumes_expression, consumes_tableElement d, consumes_columnDef,
    consumes_dataType, fun _ _ _ _ _ h => depth_lt_of_expressionAt h,
    fun _ => progresses_sepRound, progresses_columnOption, progresses_tailClause,
    fun depth => progresses_argRound (consumes_expressionAt depth 0), progresses_infixRound,
    progresses_nullTestRound, progresses_typeArgumentRound⟩

end Grammar

end SqlDdl
