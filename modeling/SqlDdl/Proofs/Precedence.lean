import SqlDdl.Grammar.Expr
import Mathlib.Data.List.Infix

/-!
# The precedence grammar of expressions

The operator tables describe an operator-precedence grammar (`Derives`). It has one level per
binding power: a level holds the expressions of the next tighter level, its binary operators
with a left operand of the same level and a right operand of the next, and its prefix
operators with an operand of the same level; `IS [NOT] NULL` follows an expression of its level.
Atoms form the tightest level. Nesting is counted as the parser counts it: one for the whole
expression, and one more for each operand of a prefix or binary operator, each expression in
parentheses and each argument of a call.

The parser does not go through this grammar level by level. At the level of power `m` it reads
a first operand (`Primary`), a run of binary operators of power at least `m`, each no tighter
than the one before (`Chain`), and a run of null tests (`Tests`). Where no null test is directly
followed by a binary operator (`TestsLast`), the two forms derive the same trees: a derivation
is a first operand, such a run and such tests (`Derives.flat`), and a run builds a derivation
(`Chain.derives`). This is what lets one flat loop read a grammar of many levels.
-/

namespace SqlDdl.Precedence

open Grammar

/-- The level of atoms, tighter than every operator. -/
def atomPower : Nat := 11

mutual

/-- `Derives n p w e`: the tokens `w` are an expression of the level of binding power `p`,
nested at most `n` deep, and `e` is its tree. -/
inductive Derives : Nat → Nat → List Token → Expr → Prop
  /-- An expression of the next tighter level. -/
  | lift {n p : Nat} {w : List Token} {e : Expr} :
      Derives (n + 1) (p + 1) w e → Derives (n + 1) p w e
  /-- A binary operator of this level; its operators group to the left. -/
  | binary {n p : Nat} {t : Token} {op : BinaryOp} {w₁ w₂ : List Token} {e₁ e₂ : Expr} :
      infixOp? t = some (op, p) → Derives (n + 1) p w₁ e₁ → Derives n (p + 1) w₂ e₂ →
      Derives (n + 1) p (w₁ ++ t :: w₂) (.binary op e₁ e₂)
  /-- A prefix operator of this level. -/
  | unary {n p : Nat} {t : Token} {op : UnaryOp} {w : List Token} {e : Expr} :
      prefixOp? t = some (op, p) → Derives n p w e → Derives (n + 1) p (t :: w) (.unary op e)
  | isNull {n : Nat} {w : List Token} {e : Expr} :
      Derives (n + 1) isNullPower w e →
      Derives (n + 1) isNullPower (w ++ [.keyword .is, .keyword .null]) (.isNull e)
  /-- `IS NOT NULL` is the negation of `IS NULL`. -/
  | isNotNull {n : Nat} {w : List Token} {e : Expr} :
      Derives (n + 1) isNullPower w e →
      Derives (n + 1) isNullPower (w ++ [.keyword .is, .keyword .not, .keyword .null])
        (.unary .not (.isNull e))
  | atom {n : Nat} {w : List Token} {e : Expr} : Atom (n + 1) w e → Derives (n + 1) atomPower w e

/-- `Atom n w e`: the tokens `w` are an atom nested at most `n` deep, with tree `e`: `*`, a
literal, a column `c` or `t.c`, a call `f(args)`, or an expression in parentheses. -/
inductive Atom : Nat → List Token → Expr → Prop
  | all {n : Nat} : Atom (n + 1) [.asterisk] .all
  /-- A number stands for the literal it denotes; one that denotes none is no atom. -/
  | number {n : Nat} {s : String} {l : Literal} :
      Literal.ofNumeral s = .ok l → Atom (n + 1) [.number s] (.literal l)
  | string {n : Nat} {s : String} : Atom (n + 1) [.string s] (.literal (.string s))
  | true {n : Nat} : Atom (n + 1) [.keyword .true] (.literal (.boolean true))
  | false {n : Nat} : Atom (n + 1) [.keyword .false] (.literal (.boolean false))
  | null {n : Nat} : Atom (n + 1) [.keyword .null] (.literal .null)
  | column {n : Nat} {t : Token} {c : String} :
      t.name? = some c → Atom (n + 1) [t] (.column none c)
  | qualified {n : Nat} {t u : Token} {table c : String} :
      t.name? = some table → u.name? = some c →
      Atom (n + 1) [t, .period, u] (.column (some table) c)
  | call {n : Nat} {t : Token} {f : String} {w : List Token} {args : List Expr} :
      t.name? = some f → Args n false w args →
      Atom (n + 1) (t :: .openParen :: w) (.function f args)
  | paren {n : Nat} {w : List Token} {e : Expr} :
      Derives n 0 w e → Atom (n + 1) (.openParen :: w ++ [.closeParen]) e

/-- `Args n later w es`: the arguments `es` of a call after its `(`, up to and with the `)`,
each nested at most `n` deep, with a comma before each but the first (`later = false` before
the first). -/
inductive Args : Nat → Bool → List Token → List Expr → Prop
  | close {n : Nat} {later : Bool} : Args n later [.closeParen] []
  | arg {n : Nat} {later : Bool} {w ws : List Token} {e : Expr} {es : List Expr} :
      Derives n 0 w e → Args n true ws es →
      Args n later ((if later then [.comma] else []) ++ w ++ ws) (e :: es)

end

/-- The first operand of the level of power `m`, as the parser reads it: an atom, or a prefix
operator of power at least `m` with its operand. The last index bounds the binary operators
that may follow at this level: any after an atom, and after a prefix operator only looser ones,
since its operand takes the tighter ones. -/
inductive Primary : Nat → Nat → List Token → Expr → Nat → Prop
  | atom {n m : Nat} {w : List Token} {e : Expr} :
      m ≤ atomPower → Atom (n + 1) w e → Primary (n + 1) m w e atomPower
  | unary {n m p : Nat} {t : Token} {op : UnaryOp} {w : List Token} {e : Expr} :
      prefixOp? t = some (op, p) → m ≤ p → Derives n p w e →
      Primary (n + 1) m (t :: w) (.unary op e) p

/-- The binary operators after a first operand at the level of power `m`, as the parser's loop
reads them: each of power at least `m` and at most the bound `k` left by what came before, with
its right operand one level tighter and nested one deeper. The tree grows to the left. -/
inductive Chain (n m : Nat) : Nat → Expr → List Token → Expr → Prop
  | done {k : Nat} {lhs : Expr} : Chain n m k lhs [] lhs
  | step {k q : Nat} {t : Token} {op : BinaryOp} {lhs r e : Expr} {w ws : List Token} :
      infixOp? t = some (op, q) → m ≤ q → q ≤ k → Derives n (q + 1) w r →
      Chain n m q (.binary op lhs r) ws e → Chain n m k lhs (t :: w ++ ws) e

/-! ## Null tests -/

/-- The tokens of a null test: `IS NULL`, or `IS NOT NULL` when it is negated. -/
def testTokens (negated : Bool) : List Token :=
  if negated then [.keyword .is, .keyword .not, .keyword .null] else [.keyword .is, .keyword .null]

/-- `Tests e w e'`: the tokens `w` are a run of null tests, which applied to `e` give `e'`. -/
inductive Tests : Expr → List Token → Expr → Prop
  | done {e : Expr} : Tests e [] e
  | test {e e' : Expr} {w : List Token} (negated : Bool) :
      Tests (applyNullTest negated e) w e' → Tests e (testTokens negated ++ w) e'

/-- Whether the tokens start with a null test that a binary operator follows directly, as
`IS NULL + 1` does. -/
def testThenOperator : List Token → Bool
  | .keyword .is :: .keyword .null :: t :: _ => (infixOp? t).isSome
  | .keyword .is :: .keyword .not :: .keyword .null :: t :: _ => (infixOp? t).isSome
  | _ => false

/-- No null test among the tokens is directly followed by a binary operator: each test ends the
operand it tests. -/
def TestsLast (w : List Token) : Prop := ∀ v ∈ w.tails, testThenOperator v = false

instance (w : List Token) : Decidable (TestsLast w) :=
  inferInstanceAs (Decidable (∀ v ∈ w.tails, testThenOperator v = false))

theorem testThenOperator_testTokens (negated : Bool) (t : Token) (w : List Token) :
    testThenOperator (testTokens negated ++ t :: w) = (infixOp? t).isSome := by
  cases negated <;> rfl

theorem testThenOperator_eq_true {v : List Token} :
    testThenOperator v = true ↔
      ∃ negated t w, v = testTokens negated ++ t :: w ∧ (infixOp? t).isSome = true := by
  constructor
  · intro h
    unfold testThenOperator at h
    split at h
    · exact ⟨false, _, _, rfl, h⟩
    · exact ⟨true, _, _, rfl, h⟩
    · cases h
  · rintro ⟨negated, t, w, rfl, h⟩
    rw [testThenOperator_testTokens, h]

/-- The condition passes to every stretch of the tokens, so to each phrase of a derivation. -/
theorem TestsLast.factor {u w : List Token} (h : TestsLast w) (hu : u <:+: w) : TestsLast u := by
  intro v hv
  obtain ⟨s, r, rfl⟩ := hu
  obtain ⟨p, rfl⟩ := (List.mem_tails _ _).mp hv
  rw [Bool.eq_false_iff]
  intro hv'
  obtain ⟨negated, t, w, rfl, ht⟩ := testThenOperator_eq_true.mp hv'
  have hsuf : testTokens negated ++ t :: (w ++ r) ∈
      (s ++ (p ++ (testTokens negated ++ t :: w)) ++ r).tails :=
    (List.mem_tails _ _).mpr ⟨s ++ p, by simp⟩
  have hfalse := h _ hsuf
  rw [testThenOperator_testTokens, ht] at hfalse
  cases hfalse

/-- What directly follows a null test is no binary operator. -/
theorem TestsLast.infixOp_after {negated : Bool} {t : Token} {w u : List Token}
    (h : TestsLast w) (hu : testTokens negated ++ t :: u <:+: w) : infixOp? t = none := by
  have := h.factor hu _ ((List.mem_tails _ _).mpr (List.suffix_refl _))
  rw [testThenOperator_testTokens] at this
  simpa using this

theorem testsLast_nil : TestsLast [] := by
  simp [TestsLast, testThenOperator]

theorem TestsLast.left {u v : List Token} (h : TestsLast (u ++ v)) : TestsLast u :=
  h.factor (List.prefix_append u v).isInfix

theorem TestsLast.right {u v : List Token} (h : TestsLast (u ++ v)) : TestsLast v :=
  h.factor (List.suffix_append u v).isInfix

theorem TestsLast.tail {t : Token} {w : List Token} (h : TestsLast (t :: w)) : TestsLast w :=
  h.right (u := [t])

/-- Tokens with no `IS` hold no null test. -/
theorem testsLast_of_not_mem {w : List Token} (h : Token.keyword .is ∉ w) : TestsLast w := by
  intro v hv
  rw [Bool.eq_false_iff]
  intro hv'
  obtain ⟨negated, t, u, rfl, -⟩ := testThenOperator_eq_true.mp hv'
  apply h
  exact ((List.mem_tails _ _).mp hv).subset (by cases negated <;> simp [testTokens])

theorem Tests.eq_of_nil {e e' : Expr} {w : List Token} (h : Tests e w e') (hw : w = []) :
    e' = e := by
  cases h with
  | done => rfl
  | test negated _ => cases negated <;> simp [testTokens] at hw

/-- A run of null tests that is not empty ends with a test. -/
theorem Tests.last {e e' : Expr} {w : List Token} (h : Tests e w e') :
    w = [] ∨ ∃ u negated, w = u ++ testTokens negated := by
  induction h with
  | done => exact .inl rfl
  | test negated _ ih =>
      rcases ih with rfl | ⟨u, negated', rfl⟩
      · exact .inr ⟨[], negated, by simp⟩
      · exact .inr ⟨testTokens negated ++ u, negated', by simp⟩

/-- A run of null tests that is not empty starts with `IS`. -/
theorem Tests.head {e e' : Expr} {w : List Token} (h : Tests e w e') :
    w = [] ∨ ∃ w', w = .keyword .is :: w' := by
  cases h with
  | done => exact .inl rfl
  | test negated _ => cases negated <;> exact .inr ⟨_, rfl⟩

/-- One more null test, at the end of a run. -/
theorem Tests.snoc {e e' : Expr} {w : List Token} (h : Tests e w e') (negated : Bool) :
    Tests e (w ++ testTokens negated) (applyNullTest negated e') := by
  induction h with
  | done => simpa using Tests.test negated .done
  | test negated' _ ih => simpa using Tests.test negated' ih

/-- A null test applies to an expression of its level. -/
theorem Derives.test {n : Nat} {w : List Token} {e : Expr} (negated : Bool)
    (h : Derives (n + 1) isNullPower w e) :
    Derives (n + 1) isNullPower (w ++ testTokens negated) (applyNullTest negated e) := by
  cases negated
  · exact .isNull h
  · exact .isNotNull h

theorem Derives.tests {n : Nat} {w ws : List Token} {e e' : Expr}
    (h : Derives (n + 1) isNullPower w e) (ht : Tests e ws e') :
    Derives (n + 1) isNullPower (w ++ ws) e' := by
  induction ht generalizing w with
  | done => simpa using h
  | test negated _ ih => simpa using ih (h.test negated)

/-! ## From the parser's form to the grammar -/

/-- An expression of a tighter level is one of every looser level. -/
theorem Derives.lift_le {n p q : Nat} {w : List Token} {e : Expr} (hpq : p ≤ q) :
    Derives (n + 1) q w e → Derives (n + 1) p w e := by
  induction hpq with
  | refl => exact id
  | step _ ih => exact fun h => ih h.lift

theorem Primary.derives {n m k : Nat} {w : List Token} {e : Expr} :
    Primary (n + 1) m w e k → m ≤ k ∧ Derives (n + 1) k w e
  | .atom hm ha => ⟨hm, .atom ha⟩
  | .unary ht hm h => ⟨hm, .unary ht h⟩

/-- A run of binary operators after an operand derived at the run's bound derives the whole at
the run's level; each operator lifts what came before to its own level. -/
theorem Chain.derives {n m k : Nat} {lhs e : Expr} {w₀ w : List Token}
    (hc : Chain n m k lhs w e) (hl : Derives (n + 1) k w₀ lhs) (hmk : m ≤ k) :
    Derives (n + 1) m (w₀ ++ w) e := by
  induction hc generalizing w₀ with
  | done => simpa using hl.lift_le hmk
  | step ht hmq hqk hr _ ih =>
      have hb := Derives.binary ht (hl.lift_le hqk) hr
      simpa [List.append_assoc] using ih hb hmq

/-! ## From the grammar to the parser's form -/

theorem Primary.mono {n m m' k : Nat} {w : List Token} {e : Expr} (hm : m' ≤ m) :
    Primary n m w e k → Primary n m' w e k
  | .atom hma ha => .atom (Nat.le_trans hm hma) ha
  | .unary ht hmp h => .unary ht (Nat.le_trans hm hmp) h

theorem Chain.mono {n m m' k : Nat} {lhs e : Expr} {w : List Token} (hm : m' ≤ m)
    (hc : Chain n m k lhs w e) : Chain n m' k lhs w e := by
  induction hc with
  | done => exact .done
  | step ht hmq hqk hr _ ih => exact .step ht (Nat.le_trans hm hmq) hqk hr ih

/-- One more binary operator of the run's own level, at its end. -/
theorem Chain.snoc {n m k : Nat} {lhs e r : Expr} {w w' : List Token} {t : Token}
    {op : BinaryOp} (hc : Chain n m k lhs w e) (hmk : m ≤ k) (ht : infixOp? t = some (op, m))
    (hr : Derives n (m + 1) w' r) : Chain n m k lhs (w ++ t :: w') (.binary op e r) := by
  induction hc with
  | done => simpa using Chain.step ht (Nat.le_refl _) hmk hr .done
  | step ht' hmq hqk hr' _ ih => simpa [List.append_assoc] using Chain.step ht' hmq hqk hr' (ih hmq)

/-- Binary operators bind at powers up to 7, none at the power 3 of prefix `NOT`. -/
theorem infixOp_power {u : Token} {op : BinaryOp} {q : Nat} (h : infixOp? u = some (op, q)) :
    q ≤ 7 ∧ q ≠ 3 := by
  unfold infixOp? at h
  split at h <;> cases h <;> decide

theorem prefixOp_power {t : Token} {op : UnaryOp} {p : Nat} (h : prefixOp? t = some (op, p)) :
    p = 3 ∨ p = 10 := by
  unfold prefixOp? at h
  split at h <;> cases h <;> decide

/-- The bound a first operand leaves is never the level of null tests. -/
theorem Primary.bound_ne {N m k : Nat} {w : List Token} {e : Expr} :
    Primary N m w e k → k ≠ isNullPower
  | .atom _ _ => by decide
  | .unary ht _ _ => by rcases prefixOp_power ht with rfl | rfl <;> decide

/-- A first operand at the level of null tests binds tighter than they do. -/
theorem Primary.nullPower_lt {n k : Nat} {w : List Token} {e : Expr}
    (hp : Primary (n + 1) isNullPower w e k) : isNullPower < k :=
  Nat.lt_of_le_of_ne hp.derives.1 hp.bound_ne.symm

/-- Where no null test is directly followed by a binary operator, an expression is read the
parser's way: a first operand, a run of binary operators, then a run of null tests, which only
come where the operand and the run bind at least as tight as they do. The recursion follows the
left spine of the derivation; a null test is never a left operand, as an operator would follow
it. -/
theorem Derives.flat {N m : Nat} {w : List Token} {e : Expr} :
    Derives N m w e → TestsLast w →
      ∃ n w₀ w₁ w₂ e₀ e₁ k, N = n + 1 ∧ w = w₀ ++ w₁ ++ w₂ ∧ Primary N m w₀ e₀ k ∧
        Chain n m k e₀ w₁ e₁ ∧ Tests e₁ w₂ e ∧
        (w₂ = [] ∨ m ≤ isNullPower ∧ isNullPower < k ∧ Chain n isNullPower k e₀ w₁ e₁)
  | .lift h, hw => by
      obtain ⟨_, w₀, w₁, w₂, e₀, e₁, k, hn, rfl, hp, hc, ht, hside⟩ := Derives.flat h hw
      obtain rfl := Nat.succ.inj hn
      refine ⟨_, w₀, w₁, w₂, e₀, e₁, k, rfl, rfl, hp.mono (Nat.le_succ m),
        hc.mono (Nat.le_succ m), ht, hside.imp_right fun ⟨hm, hk, hc'⟩ => ⟨by omega, hk, hc'⟩⟩
  | @Derives.binary _ _ t _ _ wr _ _ ht h₁ h₂, hw => by
      obtain ⟨_, w₀, w₁, w₂, e₀, e₁, k, hn, rfl, hp, hc, hts, -⟩ := Derives.flat h₁ hw.left
      obtain rfl := Nat.succ.inj hn
      rcases hts.last with rfl | ⟨u, negated, rfl⟩
      · obtain rfl := hts.eq_of_nil rfl
        exact ⟨_, w₀, w₁ ++ _, [], e₀, _, k, rfl, by simp, hp, hc.snoc hp.derives.1 ht h₂, .done,
          .inl rfl⟩
      · have hinfix : testTokens negated ++ t :: wr <:+: w₀ ++ w₁ ++ (u ++ testTokens negated) ++
            t :: wr := ⟨w₀ ++ w₁ ++ u, [], by simp⟩
        have hnone := hw.infixOp_after hinfix
        rw [ht] at hnone
        cases hnone
  | .unary ht h, _ => ⟨_, _, [], [], _, _, _, rfl, by simp, .unary ht (Nat.le_refl _) h, .done,
      .done, .inl rfl⟩
  | .isNull h, hw => by
      obtain ⟨_, w₀, w₁, w₂, e₀, e₁, k, hn, rfl, hp, hc, hts, -⟩ := Derives.flat h hw.left
      obtain rfl := Nat.succ.inj hn
      exact ⟨_, w₀, w₁, w₂ ++ testTokens false, e₀, e₁, k, rfl, by simp [testTokens], hp, hc,
        hts.snoc false, .inr ⟨Nat.le_refl _, hp.nullPower_lt, hc⟩⟩
  | .isNotNull h, hw => by
      obtain ⟨_, w₀, w₁, w₂, e₀, e₁, k, hn, rfl, hp, hc, hts, -⟩ := Derives.flat h hw.left
      obtain rfl := Nat.succ.inj hn
      exact ⟨_, w₀, w₁, w₂ ++ testTokens true, e₀, e₁, k, rfl, by simp [testTokens], hp, hc,
        hts.snoc true, .inr ⟨Nat.le_refl _, hp.nullPower_lt, hc⟩⟩
  | .atom h, _ => ⟨_, _, [], [], _, _, _, rfl, by simp, .atom (Nat.le_refl _) h, .done, .done,
      .inl rfl⟩

end SqlDdl.Precedence
