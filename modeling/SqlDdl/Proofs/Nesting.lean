import SqlDdl.Proofs.StatementExprs

/-!
# How deep the parsed expressions nest

The expression rule refuses to nest deeper than `maxDepth` levels, but a level is a level of the
rule's recursion, not of the tree it builds. A level reads one operand, and then as many binary
operators and null tests as follow, each applied to what the level has read so far: the tree grows
to the left without the level growing. Only an operand read one level deeper, that of a prefix
operator, the right operand of a binary operator, an argument of a call and an expression in
parentheses, costs a level.

`Expr.levels` counts a tree that way, and every expression the parser gives fits in the limit
(`levels_add_depth_le`, and for whole statements `parse_levels_le`). The height of the tree
(`Expr.height`) is not bounded at all: a chain of additions `1 + 1 + … + 1` is read on two
levels, whatever its length (`expression_height_unbounded`).
-/

namespace SqlDdl

namespace Expr

/-- Whether the expression is a test for null. -/
def isNullTest : Expr → Bool
  | .all => false
  | .column _ _ => false
  | .literal _ => false
  | .function _ _ => false
  | .unary _ _ => false
  | .binary _ _ _ => false
  | .isNull _ => true

mutual

/-- The levels of nesting the expression rule takes to read an expression: one for its atom, and
one more for each operand read one level deeper, the operand of a prefix operator, the right
operand of a binary operator and each argument of a call. A left operand and the operand of a
null test are read on the level of their node, and so is the negation that `IS NOT NULL` puts
around its test. -/
def levels : Expr → Nat
  | .all => 1
  | .column _ _ => 1
  | .literal _ => 1
  | .function _ args => argsLevels args + 1
  | .unary op e => if op == .not && e.isNullTest then levels e else levels e + 1
  | .binary _ l r => max (levels l) (levels r + 1)
  | .isNull e => levels e

/-- The most levels any of the expressions takes. -/
def argsLevels : List Expr → Nat
  | [] => 0
  | e :: es => max (levels e) (argsLevels es)

end

mutual

/-- The height of the tree of an expression. -/
def height : Expr → Nat
  | .all => 1
  | .column _ _ => 1
  | .literal _ => 1
  | .function _ args => argsHeight args + 1
  | .unary _ e => height e + 1
  | .binary _ l r => max (height l) (height r) + 1
  | .isNull e => height e + 1

/-- The greatest height of the expressions. -/
def argsHeight : List Expr → Nat
  | [] => 0
  | e :: es => max (height e) (argsHeight es)

end

theorem argsLevels_le_iff (es : List Expr) (B : Nat) :
    argsLevels es ≤ B ↔ ∀ e ∈ es, e.levels ≤ B := by
  induction es with
  | nil => simp [argsLevels]
  | cons e es ih => simp [argsLevels, ih]

@[simp] theorem levels_applyNullTest (negated : Bool) (e : Expr) :
    (Grammar.applyNullTest negated e).levels = e.levels := by
  cases negated <;> simp [Grammar.applyNullTest, levels, isNullTest]

end Expr

namespace Grammar

/-! ## The levels of an expression read -/

section Operands

variable {sub : Nat → Grammar Expr} {B : Nat}
  (hsub : ∀ p, Gives (fun e => e.levels + 1 ≤ B) (sub p))
include hsub

theorem gives_callArguments_levels :
    Gives (fun args => ∀ e ∈ args, e.levels + 1 ≤ B) (callArguments sub) := by
  rw [callArguments_eq]
  refine gives_loop (I := fun args => ∀ e ∈ args, e.levels + 1 ≤ B) (fun args hargs => ?_)
    (fun args hargs e he => hargs e (List.mem_reverse.1 he)) (by simp)
  refine gives_bind fun b => ?_
  split
  · exact gives_pure fun e he => hargs e (List.mem_reverse.1 he)
  · dsimp only
    split
    · exact gives_bind fun _ => (hsub 0).bind fun _ harg =>
        gives_pure (List.forall_mem_cons.2 ⟨harg, hargs⟩)
    · exact (hsub 0).bind fun _ harg => gives_pure (List.forall_mem_cons.2 ⟨harg, hargs⟩)

/-- An atom takes one level, and what it reads inside, in parentheses or as arguments, one level
deeper. -/
theorem gives_atom_levels (hB : 1 ≤ B) : Gives (fun e => e.levels ≤ B) (atom sub) := by
  unfold atom
  refine gives_bind fun t => ?_
  rcases t with _ | token
  · exact gives_expected _
  dsimp only
  refine gives_bind fun _ => gives_bind fun _ => ?_
  split
  case h_2 =>
    split
    · exact gives_pure hB
    · exact gives_fail _
  case h_7 | h_8 =>
    refine gives_bind fun b => ?_
    split
    · refine (gives_callArguments_levels hsub).bind fun args hargs => gives_pure ?_
      have hmax := (Expr.argsLevels_le_iff args (B - 1)).2 fun e he => by
        have := hargs e he
        omega
      simp only [Expr.levels]
      omega
    · exact gives_bind fun b => by
        split
        · exact gives_bind fun _ => gives_pure hB
        · exact gives_pure hB
  case h_9 =>
    exact (hsub 0).bind fun e he => gives_bind fun _ => gives_pure (by omega)
  case h_10 => exact gives_fail _
  all_goals exact gives_pure hB

/-- Each binary operator keeps its left operand on the level and reads its right operand one
level deeper. -/
theorem gives_infixes_levels (p : Nat) {lhs : Expr} (hlhs : lhs.levels ≤ B) :
    Gives (fun e => e.levels ≤ B) (infixes sub p lhs) := by
  rw [infixes_eq]
  refine gives_loop (I := fun e => e.levels ≤ B) (fun lhs hlhs => ?_) (fun _ h => h) hlhs
  refine gives_bind fun r => ?_
  split
  · refine (hsub _).bind fun rhs hrhs => gives_pure ?_
    simp only [Sum.elim_inr, Expr.levels]
    omega
  · exact gives_pure hlhs

end Operands

theorem gives_nullTests_levels (p : Nat) {B : Nat} {e : Expr} (he : e.levels ≤ B) :
    Gives (fun e => e.levels ≤ B) (nullTests p e) := by
  rw [nullTests_eq]
  refine gives_loop (I := fun e => e.levels ≤ B) (fun e he => ?_) (fun _ h => h) he
  refine gives_bind fun r => ?_
  split
  · exact gives_pure (by simpa using he)
  · exact gives_pure he

/-- A level reads within its bound when what it reads one level deeper does. -/
theorem gives_operators_levels {sub : Nat → Grammar Expr} {B : Nat}
    (hsub : ∀ p, Gives (fun e => e.levels + 1 ≤ B) (sub p)) (hB : 1 ≤ B) (p : Nat) :
    Gives (fun e => e.levels ≤ B) (operators sub p) := by
  have htail : ∀ first : Expr, first.levels ≤ B →
      Gives (fun e => e.levels ≤ B) (levelTail sub p first) :=
    fun first hfirst => (gives_nullTests_levels p hfirst).bind fun lhs hlhs =>
      (gives_infixes_levels hsub p hlhs).bind fun lhs hlhs => gives_nullTests_levels p hlhs
  rw [operators_eq]
  refine gives_bind fun r => ?_
  split
  · refine (hsub _).bind fun x hx => (gives_pure (P := fun e => e.levels ≤ B) ?_).bind htail
    simp only [Expr.levels]
    split <;> omega
  · exact (gives_atom_levels hsub hB).bind htail

/-- An expression read at depth `depth` takes at most the levels left below the limit. The
induction runs over the levels left, as the rule's recursion does. -/
theorem gives_expressionAt_levels (depth p : Nat) :
    Gives (fun e => e.levels + depth ≤ maxDepth) (expressionAt depth p) := by
  fun_induction expressionAt depth p with
  | case1 => exact gives_expected _
  | case2 depth p hdepth ih =>
      have hsub : ∀ power, Gives (fun e => e.levels + 1 ≤ maxDepth - depth)
          (expressionAt (depth + 1) power) :=
        fun power => (ih power).mono fun e he => by omega
      exact (gives_operators_levels hsub (by omega) p).mono fun e he => by omega

end Grammar

/-- Every expression the expression rule reads at depth `depth` takes at most the levels left
below the limit; at depth 0, at most `maxDepth`. -/
theorem levels_add_depth_le {depth p : Nat} {c c' : Cursor} {e : Expr}
    (h : (Grammar.expressionAt depth p).run c = .ok (e, c')) :
    e.levels + depth ≤ Grammar.maxDepth :=
  Grammar.gives_expressionAt_levels depth p c e c' h

/-- Every expression of a parsed statement takes at most `maxDepth` levels. -/
theorem parse_levels_le {d : Dialect} {sql : String} {st : Statement} (h : parse d sql = .ok st) :
    ∀ e ∈ st.exprs, e.levels ≤ Grammar.maxDepth :=
  forall_mem_exprs_of_parse ((Grammar.gives_expressionAt_levels 0 0).mono fun _ h => h) h

/-! ## Chains of additions

`1 + 1 + … + 1` is read on one level, each `+` with its right operand one level deeper, so the
chain is read at every length, and its tree, grouped to the left, is as high as the chain is
long. -/

/-- `1 + 1 + … + 1` with `k` additions, grouped to the left as the parser groups it. -/
def additionChain : Nat → Expr
  | 0 => .literal (.integer 1)
  | k + 1 => .binary .add (additionChain k) (.literal (.integer 1))

/-- The text of `additionChain k`, without parentheses. -/
def additionChainText : Nat → List Char
  | 0 => ['1']
  | k + 1 => additionChainText k ++ [' ', '+', ' ', '1']

/-- The tokens of `additionChainText k`. -/
def additionChainTokens : Nat → List Token
  | 0 => [.number "1"]
  | k + 1 => additionChainTokens k ++ [.plus, .number "1"]

theorem height_additionChain (k : Nat) : (additionChain k).height = k + 1 := by
  induction k with
  | zero => rfl
  | succ k ih => simp [additionChain, Expr.height, ih]

theorem levels_additionChain_le (k : Nat) : (additionChain k).levels ≤ 2 := by
  induction k with
  | zero => decide
  | succ k ih => simp [additionChain, Expr.levels, ih]

open Scan in
theorem scans_one {r : List Char} (hr : Stops r) : Scans ['1'] [.number "1"] r :=
  @scans_digits '1' [] r rfl (by simp) hr

open Scan in
theorem scans_additionChain (k : Nat) {r : List Char} (hr : Stops r) :
    Scans (additionChainText k) (additionChainTokens k) r := by
  induction k generalizing r with
  | zero => exact scans_one hr
  | succ k ih =>
      have hplus : Scans [' ', '+', ' ', '1'] [.plus, .number "1"] r :=
        Scans.blank (Scans.cons (scans_punct (c := '+') (by decide) (by decide) rfl)
          (Scans.blank (scans_one hr)))
      exact (ih (stops_blank _)).append hplus

theorem ofString_additionChain (k : Nat) :
    ∃ ws n, ws.map Spanned.token = additionChainTokens k ∧
      TokenStream.ofString (String.ofList (additionChainText k)) = ⟨ws, .finished n⟩ := by
  obtain ⟨ws, p, hw, hs⟩ := scans_additionChain k Scan.stops_nil 0
  have hend : Scan.scanFrom [] p = ⟨[], .finished p⟩ :=
    Scan.scanFrom_of_end (by rw [Scan.skipGap.eq_4])
  rw [List.append_nil, hend] at hs
  exact ⟨ws, p, hw, by simpa [TokenStream.ofString] using hs⟩

theorem ofNumeral_one : Literal.ofNumeral "1" = .ok (.integer 1) := by decide

open Precedence in
/-- The chain derives on two levels: the additions on the level of `+`, each right operand on the
one below. -/
theorem derives_additionChain (k : Nat) :
    Derives 2 6 (additionChainTokens k) (additionChain k) := by
  induction k with
  | zero => exact Derives.lift_le (by decide) (.atom (.number ofNumeral_one))
  | succ k ih =>
      exact .binary (t := .plus) rfl ih
        (Derives.lift_le (n := 0) (by decide) (.atom (.number ofNumeral_one)))

theorem is_not_mem_additionChainTokens (k : Nat) :
    Token.keyword .is ∉ additionChainTokens k := by
  induction k with
  | zero => simp [additionChainTokens]
  | succ k ih => simp [additionChainTokens, ih]

/-- The expression rule reads the chain of `k` additions whole, whatever `k`. -/
theorem expression_additionChain (k : Nat) :
    ∃ c', Grammar.expression.run (Cursor.ofString (String.ofList (additionChainText k))) =
      .ok (additionChain k, c') := by
  obtain ⟨ws, n, hw, hs⟩ := ofString_additionChain k
  have hfree : Precedence.TestsLast (ws.map Spanned.token) := by
    rw [hw]
    exact Precedence.testsLast_of_not_mem (is_not_mem_additionChainTokens k)
  have hd : Precedence.Derives 2 0 (ws.map Spanned.token) (additionChain k) := by
    rw [hw]
    exact Precedence.Derives.lift_le (by decide) (derives_additionChain k)
  refine ⟨Cursor.ofTokens [] (.finished n), ?_⟩
  rw [Cursor.ofString, Cursor.ofStream, hs]
  rcases (Precedence.reads_expressionAt 2 0 0 hd ws rfl hfree).exact [] _ ⟨⟨n, rfl⟩, trivial⟩ with
    hr | ⟨hdeep, -⟩
  · simpa [Grammar.expression] using hr
  · exact absurd hdeep (by decide)

/-- The height of what the expression rule reads is not bounded, even where its levels are: for
every bound, a chain of additions is read, within two levels, into a higher tree. -/
theorem expression_height_unbounded (B : Nat) :
    ∃ (sql : String) (e : Expr) (c' : Cursor),
      Grammar.expression.run (Cursor.ofString sql) = .ok (e, c') ∧ e.levels ≤ 2 ∧ B < e.height := by
  obtain ⟨c', h⟩ := expression_additionChain B
  refine ⟨_, _, c', h, levels_additionChain_le B, ?_⟩
  rw [height_additionChain]
  omega

/-- The 199 additions of `1 + 1 + … + 1` are read into a tree of height 200, beyond the
`maxDepth` levels the rule allows. -/
theorem addition_chain_outgrows_limit :
    ∃ e c', Grammar.expression.run (Cursor.ofString (String.ofList (additionChainText 199))) =
      .ok (e, c') ∧ Grammar.maxDepth < e.height := by
  obtain ⟨c', h⟩ := expression_additionChain 199
  refine ⟨_, c', h, ?_⟩
  rw [height_additionChain]
  decide

/-- The nesting limit bounds the levels of what is read from any text: every expression the
expression rule reads from it takes at most `maxDepth` levels, and so does every expression of
the statement parsed from it, in either dialect. It does not bound their height
(`expression_height_unbounded`). -/
theorem nesting_limit_bounds_levels (d : Dialect) (sql : String) :
    (∀ e c', Grammar.expression.run (Cursor.ofString sql) = .ok (e, c') →
      e.levels ≤ Grammar.maxDepth) ∧
    ∀ st, parse d sql = .ok st → ∀ e ∈ st.exprs, e.levels ≤ Grammar.maxDepth :=
  ⟨fun _ _ h => levels_add_depth_le h, fun _ h => parse_levels_le h⟩

/-- A chain of 199 additions is read within the levels of the limit, and so is the default of a
column that adds three ones. -/
theorem addition_chains_within_levels :
    (∃ c', Grammar.expression.run (Cursor.ofString (String.ofList (additionChainText 199))) =
      .ok (additionChain 199, c') ∧ (additionChain 199).levels ≤ Grammar.maxDepth) ∧
    ∃ st, parse .mysql "CREATE TABLE t (a INT DEFAULT 1 + 1 + 1)" = .ok st ∧
      ∀ e ∈ st.exprs, e.levels ≤ Grammar.maxDepth := by
  have hok : (parse .mysql "CREATE TABLE t (a INT DEFAULT 1 + 1 + 1)").toBool = true := by
    decide +kernel
  obtain ⟨c', h⟩ := expression_additionChain 199
  refine ⟨⟨c', h, (nesting_limit_bounds_levels .mysql _).1 _ c' h⟩, ?_⟩
  cases hp : parse .mysql "CREATE TABLE t (a INT DEFAULT 1 + 1 + 1)" with
  | error e =>
      rw [hp] at hok
      cases hok
  | ok st => exact ⟨st, rfl, (nesting_limit_bounds_levels .mysql _).2 st hp⟩

end SqlDdl
