import SqlDdl.Proofs.ExprParsed

/-!
# The expression parser agrees with the precedence grammar

The expression rule and the grammar of `Derives` agree on every token sequence in which no null
test is directly followed by a binary operator (`expression_agrees_with_grammar`): what the rule
reads is the longest prefix the grammar derives, derived within the nesting limit and with the
only tree the grammar gives it, and whatever the grammar derives within the limit, the rule reads
whole. The two directions are `expressionAt_derived` and `reads_expressionAt`; unambiguity comes
from the parser itself, which reads every derivation of the same tokens and gives one tree
(`Derives.unique`).

A null test followed by a binary operator is where the two part. The grammar gives
`IS [NOT] NULL` the level of `=`, so its operand and what follows it are read at that level; the
parser applies the tests to whatever its level read before them, goes on with the binary
operators after tests right after an operand, and ends the level after tests that follow a run
of operators. So it reads `a IS NULL + 1` whole as the sum of `a IS NULL` and `1`, a tree the
grammar gives no tokens outside parentheses (`is_null_plus_read_whole`).
-/

namespace SqlDdl.Precedence

open Grammar

/-- Where no null test is followed by a binary operator, the grammar is unambiguous: two
derivations of the same tokens at one level give the same tree, when one of them nests within
the limit. The parser decides it: run on those tokens alone, it reads both derivations, and it
gives one tree. -/
theorem Derives.unique {n₁ n₂ p : Nat} {w : List Token} {e₁ e₂ : Expr}
    (h₁ : Derives n₁ p w e₁) (h₂ : Derives n₂ p w e₂) (hn : n₁ ≤ maxDepth)
    (hfree : TestsLast w) : e₁ = e₂ := by
  have hws : (w.map fun t => (⟨t, 0⟩ : Spanned)).map Spanned.token = w := by
    simp [List.map_map, Function.comp_def]
  have hend : Follows (Closes p) [] (.finished 0) := ⟨⟨0, rfl⟩, trivial⟩
  rcases (reads_expressionAt n₁ 0 p h₁ _ hws hfree).exact [] _ hend with hr₁ | ⟨hdeep, -⟩
  · rcases (reads_expressionAt n₂ 0 p h₂ _ hws hfree).exact [] _ hend with
      hr₂ | ⟨-, err, herr⟩
    · rw [hr₁] at hr₂
      cases hr₂
      rfl
    · rw [hr₁] at herr
      cases herr
  · omega

/-- The expression rule agrees with the grammar on the tokens `ts`: what it reads is the
longest prefix of `ts` the grammar derives, derived within the nesting limit, with the tree every
derivation of it gives; and when the grammar derives all of `ts` within the limit and the
stream ends after them, the rule reads all of it, with that tree. -/
def AgreesWithGrammar (ts : List Spanned) (stop : StreamEnd) : Prop :=
  (∀ e c', expression.run (Cursor.ofTokens ts stop) = .ok (e, c') →
    ∃ p, ts = p ++ c'.rest ∧ Derives maxDepth 0 (p.map Spanned.token) e ∧
      (∀ p' r n e', ts = p' ++ r → Derives n 0 (p'.map Spanned.token) e' →
        p'.length ≤ p.length) ∧
      (∀ n e', Derives n 0 (p.map Spanned.token) e' → e' = e)) ∧
  (∀ n e k, n ≤ maxDepth → stop = .finished k → Derives n 0 (ts.map Spanned.token) e →
    expression.run (Cursor.ofTokens ts stop) = .ok (e, Cursor.ofTokens [] stop))

/-- On every token sequence in which no null test is directly followed by a binary operator, the
expression rule agrees with the precedence grammar. -/
theorem expression_agrees_with_grammar (ts : List Spanned) (stop : StreamEnd)
    (hfree : TestsLast (ts.map Spanned.token)) : AgreesWithGrammar ts stop := by
  unfold AgreesWithGrammar expression
  refine ⟨fun e c' h => ?_, fun n e k hn hstop hd => ?_⟩
  · obtain ⟨p, hp, hd, -⟩ :=
      expressionAt_derived maxDepth 0 0 rfl (Nat.zero_le _) _ e c' h hfree
    change ts = p ++ c'.rest at hp
    have hpfree : TestsLast (p.map Spanned.token) := by
      rw [hp, List.map_append] at hfree
      exact hfree.left
    refine ⟨p, hp, hd, fun p' r n' e' hts hd' => ?_, fun n' e' hd' => ?_⟩
    · -- a derivable prefix is read at least whole, so it is no longer
      have hp'free : TestsLast (p'.map Spanned.token) := by
        rw [hts, List.map_append] at hfree
        exact hfree.left
      have hsuf := (reads_expressionAt n' 0 0 hd' p' rfl hp'free).atLeast r stop e c'
        (by rw [← hts]; exact h)
      have hlen := hsuf.length_le
      have h₁ := congrArg List.length hp
      have h₂ := congrArg List.length hts
      simp only [List.length_append] at h₁ h₂
      omega
    · exact (Derives.unique hd hd' (Nat.le_refl _) hpfree).symm
  · subst hstop
    rcases (reads_expressionAt n 0 0 hd ts rfl hfree).exact [] _ ⟨⟨k, rfl⟩, trivial⟩ with
      hr | ⟨hdeep, -⟩
    · simpa using hr
    · omega

/-- The rule agrees with the grammar on the tokens of `-c * 2 OR NOT a = b IS NULL`, whose null
test ends the operand of `NOT`. -/
theorem expression_agrees_on_mixed_operators :
    TestsLast ((TokenStream.ofString "-c * 2 OR NOT a = b IS NULL").tokens.map Spanned.token) ∧
      AgreesWithGrammar (TokenStream.ofString "-c * 2 OR NOT a = b IS NULL").tokens
        (TokenStream.ofString "-c * 2 OR NOT a = b IS NULL").stop :=
  ⟨by decide +kernel, expression_agrees_with_grammar _ _ (by decide +kernel)⟩

/-! ## Null tests -/

/-- A null test derived at a level tighter than its own stands in parentheses. -/
theorem Derives.isNull_level {e : Expr} :
    ∀ {n p : Nat} {w : List Token} {e' : Expr}, Derives n p w e' → e' = .isNull e →
      p ≤ isNullPower ∨ w.head? = some .openParen
  | _, _, _, _, .lift h, he => (Derives.isNull_level h he).imp Nat.le_of_succ_le id
  | _, _, _, _, .binary _ _ _, he => by cases he
  | _, _, _, _, .unary _ _, he => by cases he
  | _, _, _, _, .isNull _, _ => .inl (Nat.le_refl _)
  | _, _, _, _, .isNotNull _, he => by cases he
  | _, _, _, _, .atom ha, he => by
      cases ha with
      | paren _ => exact .inr rfl
      | _ => cases he

/-- The left operand of a binary operator is derived at the operator's level, unless the whole
stands in parentheses. -/
theorem Derives.binary_left {op : BinaryOp} {l r : Expr} :
    ∀ {n p : Nat} {w : List Token} {e' : Expr}, Derives n p w e' → e' = .binary op l r →
      w.head? = some .openParen ∨ ∃ t q w₁ w₂ n', infixOp? t = some (op, q) ∧
        w = w₁ ++ t :: w₂ ∧ Derives n' q w₁ l
  | _, _, _, _, .lift h, he => Derives.binary_left h he
  | _, _, _, _, .binary ht h₁ _, he => by
      cases he
      exact .inr ⟨_, _, _, _, _, ht, rfl, h₁⟩
  | _, _, _, _, .unary _ _, he => by cases he
  | _, _, _, _, .isNull _, he => by cases he
  | _, _, _, _, .isNotNull _, he => by cases he
  | _, _, _, _, .atom ha, he => by
      cases ha with
      | paren _ => exact .inl rfl
      | _ => cases he

/-- A null test is no left operand of an operator tighter than it, unless in parentheses. -/
theorem Derives.isNull_not_left {n p : Nat} {w : List Token} {op : BinaryOp} {e r : Expr}
    (hop : ∀ t q, infixOp? t = some (op, q) → isNullPower < q)
    (h : Derives n p w (.binary op (.isNull e) r)) : w.head? = some .openParen := by
  rcases h.binary_left rfl with hw | ⟨t, q, w₁, w₂, n', ht, rfl, hl⟩
  · exact hw
  · have hq := hop t q ht
    rcases hl.isNull_level rfl with hle | hw₁
    · omega
    · obtain ⟨u, w', rfl, -⟩ := hl.head
      exact hw₁

/-- The parser reads all of `a IS NULL + 1`, as the sum of `a IS NULL` and `1`; the grammar
gives that tree to no tokens that start outside parentheses, as `IS NULL` binds looser than
`+`. -/
theorem is_null_plus_read_whole :
    (∃ c, expression.run (Cursor.ofString "a IS NULL + 1") =
        .ok (.binary .add (.isNull (.column none "a")) (.literal (.integer 1)), c) ∧
        c.rest = []) ∧
      ∀ n p, ¬ Derives n p ((TokenStream.ofString "a IS NULL + 1").tokens.map Spanned.token)
        (.binary .add (.isNull (.column none "a")) (.literal (.integer 1))) := by
  refine ⟨?_, fun n p h => ?_⟩
  · have hcheck : (match expression.run (Cursor.ofString "a IS NULL + 1") with
        | .ok (.binary .add (.isNull (.column none "a")) (.literal (.integer 1)), c) =>
          c.rest.isEmpty
        | _ => false) = true := by
      decide +kernel
    split at hcheck
    · next c heq => exact ⟨c, heq, List.isEmpty_iff.mp hcheck⟩
    · cases hcheck
  · have hop : ∀ t q, infixOp? t = some (.add, q) → isNullPower < q := by
      intro t q ht
      unfold infixOp? at ht
      split at ht <;> cases ht
      decide
    have hhead := h.isNull_not_left hop
    revert hhead
    decide +kernel

end SqlDdl.Precedence
