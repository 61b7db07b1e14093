import SqlDdl.Proofs.Lookahead

/-!
# Where a table head ends

The head of a table definition is all it reads before its end (`tailEnd`): `CREATE TABLE`, the
name, the elements, and in MySQL the clauses of the tail (`tableStart`, `tailClauses`). It may end
with a name, with `)`, with the value of a table option, with a partitioning, or with the
expression after `PARTITIONS`, and the parser knows such a phrase has ended only when the next
token does not continue it. Before a token that continues none of them (`StopsHead`), the head
runs as at the end of the text (`runsAhead_tableStart`), and so does every clause of the tail that
goes on (`runsAhead_tailClause`).
-/

namespace SqlDdl.Grammar

open Precedence

variable {α β σ : Type} {x : Spanned} {more : List Spanned}

/-- A token that continues no phrase a table head may end with: no expression, which rules out
`.` and `(` after a name as well, and no partitioning, which may go on with `PARTITIONS`. -/
def StopsHead (t : Token) : Bool := !continues 0 t && !t.isWord "PARTITIONS"

theorem consumes_loop {round : σ → Grammar (β ⊕ σ)} (h : ∀ s, Consumes (round s))
    (done : σ → β) (s : σ) : Consumes (loop round done s) := by
  intro c b c' hrun _
  refine loop_induction (P := fun _ c _ c' => c'.size < c.size) ?_ ?_ ?_ hrun
  · exact fun s c b c' hr => h s c _ c' hr trivial
  · exact fun s c s' c' hr hlt => absurd (h s c _ c' hr trivial) hlt
  · exact fun s c s' c₁ b c' _ hlt ih => Nat.lt_trans ih hlt

theorem consumes_qualifiedName : Consumes qualifiedName :=
  (consumes_loop (fun _ => (consumes_expectName _).bind_left) _ _).bind_left

/-! ## Expressions -/

/-- The arguments of a call end with their `)`: every round reads `)` or an argument. -/
theorem runsAhead_callArguments {sub : Nat → Grammar Expr}
    (hsub : ∀ p, RunsAhead Anywhere (fun _ => True) (x :: more) (sub p))
    (hsubc : Consumes (sub 0)) :
    RunsAhead Anywhere (fun _ => True) (x :: more) (callArguments sub) := by
  rw [callArguments_eq]
  refine RunsAhead.loop anywhere_append (fun args => ?_) _ _
  unfold argRound
  refine RunsAhead.bind_of_consumes anywhere_append (monotone_of_sound fun _ => sound_takeIf _)
    (fun c d hc had => mirrors_takeIf had hc _) (fun b => ?_) ?_
  · split
    · exact runsAhead_pure _
    dsimp only
    split
    · exact (runsAhead_expect _).bind anywhere_append fun _ =>
        (hsub 0).bind anywhere_append fun _ => runsAhead_pure _
    · exact (hsub 0).bind anywhere_append fun _ => runsAhead_pure _
  · refine (consumesFor_takeIf _).bind fun b hb => ?_
    rw [if_neg hb]
    dsimp only
    split
    · exact (consumes_expect _).bind_left
    · exact hsubc.bind_left

section Expressions

variable (hx : continues 0 x.token = false)
include hx

theorem infixOp_none_of_closes : infixOp? x.token = none := by
  cases h : infixOp? x.token with
  | none => rfl
  | some op => simp [continues, atLeast, h, Option.filter] at hx

theorem ne_of_closes : x.token ≠ .keyword .is ∧ x.token ≠ .openParen ∧ x.token ≠ .period := by
  refine ⟨fun h => ?_, fun h => ?_, fun h => ?_⟩ <;> simp [continues, h] at hx

theorem runsAhead_nullTests (m : Nat) (e : Expr) :
    RunsAhead Anywhere (fun _ => True) (x :: more) (nullTests m e) := by
  rw [nullTests_eq]
  refine RunsAhead.loop anywhere_append (fun e => ?_) _ _
  refine RunsAhead.bind anywhere_append ?_ fun r => by split <;> exact runsAhead_pure _
  unfold nullTest?
  refine runsAhead_peek_bind anywhere_append (fun v => ?_) ?_
  · split
    · exact runsAhead_pure _
    split
    · exact runsAhead_pure _
    exact (runsAhead_expect _).bind anywhere_append fun _ =>
      ((insideRuns _).holds_takeIf _).bind_inside
        (fun _ => (runsAhead_expect _).bind anywhere_append fun _ => runsAhead_pure _)
        fun _ => (consumes_expect _).bind_left
  · simp [(ne_of_closes hx).1]

variable {sub : Nat → Grammar Expr}

theorem runsAhead_infixes (hsub : ∀ p, RunsAhead Anywhere (fun _ => True) (x :: more) (sub p))
    (m : Nat) (lhs : Expr) :
    RunsAhead Anywhere (fun _ => True) (x :: more) (infixes sub m lhs) := by
  rw [infixes_eq]
  refine RunsAhead.loop anywhere_append (fun lhs => ?_) _ _
  refine RunsAhead.bind anywhere_append
    (runsAhead_takeMap_end (by simp [atLeast, infixOp_none_of_closes hx])) fun r => ?_
  split
  · exact (hsub _).bind anywhere_append fun _ => runsAhead_pure _
  · exact runsAhead_pure _

variable (hsub : ∀ p, RunsAhead Anywhere (fun _ => True) (x :: more) (sub p))
  (hsubc : Consumes (sub 0))
include hsub hsubc

/-- What follows a name in an atom: neither `(` nor `.` follows it at the end of the text. -/
theorem runsAhead_afterName (name : String) :
    RunsAhead Anywhere (fun _ => True) (x :: more) (do
      if ← takeIf .openParen then return Expr.function name (← callArguments sub)
      else if ← takeIf .period then return .column (some name) (← expectName "column name")
      else return .column none name) := by
  refine (runsAhead_takeIf_end (ne_of_closes hx).2.1).bind anywhere_append fun b => ?_
  split
  · exact (runsAhead_callArguments hsub hsubc).bind anywhere_append fun _ => runsAhead_pure _
  · refine (runsAhead_takeIf_end (ne_of_closes hx).2.2).bind anywhere_append fun b => ?_
    split
    · exact (runsAhead_expectName _).bind anywhere_append fun _ => runsAhead_pure _
    · exact runsAhead_pure _

/-- An atom reads its first token inside the text; what it reads after that token runs alike
wherever it stops. -/
theorem runsAhead_atom_end :
    RunsAhead Anywhere (fun _ => True) (x :: more) (atom sub) := by
  refine runsAhead_of_consumesFor (monotone_atom fun p => (hsub p).1)
    (consumes_atom sub).consumesFor fun c d hc had => ?_
  obtain ⟨t, r, hr⟩ := List.exists_cons_of_ne_nil hc
  have hn : c.next? = some t.token := by simp [Cursor.next?, hr]
  unfold atom
  refine RunsFrom.peek_bind had hc ?_
  rw [hn]
  refine RunsFrom.offset_takeAny had hc fun n => ?_
  split
  case h_2 =>
    split
    · exact runsAhead_pure _
    · exact runsAhead_fail _
  case h_7 | h_8 => exact runsAhead_afterName hx hsub hsubc _
  case h_9 =>
    exact (hsub 0).bind anywhere_append fun _ =>
      (runsAhead_expect _).bind anywhere_append fun _ => runsAhead_pure _
  case h_10 => exact runsAhead_fail _
  all_goals exact runsAhead_pure _

theorem runsAhead_operators (p : Nat) :
    RunsAhead Anywhere (fun _ => True) (x :: more) (operators sub p) := by
  have htail : ∀ first, RunsAhead Anywhere (fun _ => True) (x :: more) (levelTail sub p first) :=
    fun first => (runsAhead_nullTests hx p first).bind anywhere_append fun lhs =>
      (runsAhead_infixes hx hsub p lhs).bind anywhere_append fun lhs => runsAhead_nullTests hx p lhs
  rw [operators_eq]
  refine RunsAhead.bind_of_consumes anywhere_append (monotone_takeMap _)
    (fun c d hc had => mirrors_takeMap had hc _) (fun r => ?_) (consumes_operators sub p)
  split
  · exact (hsub _).bind anywhere_append fun _ => (runsAhead_pure _).bind anywhere_append htail
  · exact (runsAhead_atom_end hx hsub hsubc).bind anywhere_append htail

omit hsub hsubc in
/-- Before a token that continues no expression, an expression runs as at the end of the text;
the induction follows the recursion of `expressionAt`, whose operands are read one level
deeper. -/
theorem runsAhead_expressionAt (depth p : Nat) :
    RunsAhead Anywhere (fun _ => True) (x :: more) (expressionAt depth p) := by
  fun_induction expressionAt depth p with
  | case1 => exact runsAhead_expected _
  | case2 depth p _ ih => exact runsAhead_operators hx ih (consumes_expressionAt _ 0) p

end Expressions

/-! ## Names, partitionings and table options -/

theorem runsAhead_qualifiedName (hx : x.token ≠ .period) :
    RunsAhead Anywhere (fun _ => True) (x :: more) qualifiedName :=
  (RunsAhead.loop anywhere_append (fun _ => (runsAhead_expectName _).bind anywhere_append
    fun _ => (runsAhead_takeIf_end hx).bind anywhere_append fun b => by
      split <;> exact runsAhead_pure _) _ _).bind anywhere_append fun _ => runsAhead_pure _

theorem runsAhead_keyPartitioning (hx : StopsHead x.token = true) :
    RunsAhead Anywhere (fun _ => True) (x :: more) keyPartitioning := by
  obtain ⟨hcont, hparts⟩ : continues 0 x.token = false ∧ x.token.isWord "PARTITIONS" = false := by
    simpa [StopsHead] using hx
  unfold keyPartitioning
  refine (runsAhead_expect _).bind anywhere_append fun _ => ?_
  extract_lets columns afterKey
  have hcolumns : ∀ u, RunsAhead Anywhere (fun _ => True) (x :: more) (columns u) := by
    intro u
    refine ((insideRuns _).holds_sepBy1 (insideRuns _).holds_qualifiedName _).bind_inside
      (fun _ => ?_) fun _ => (consumes_expect _).bind_left
    refine (runsAhead_expect _).bind anywhere_append fun _ =>
      (runsAhead_takeWord_end hparts).bind anywhere_append fun b => ?_
    extract_lets finish
    split
    · exact ((runsAhead_expressionAt hcont 0 0).bind anywhere_append fun _ => runsAhead_pure _).bind
        anywhere_append fun _ => runsAhead_pure _
    · exact (runsAhead_pure _).bind anywhere_append fun _ => runsAhead_pure _
  have hafterKey : ∀ u, RunsAhead Anywhere (fun _ => True) (x :: more) (afterKey u) := by
    intro u
    refine (runsAhead_expect _).bind anywhere_append fun _ =>
      (insideRuns _).peek.bind_inside (fun v => ?_) fun v => ?_
    · split
      · exact (runsAhead_expected _).bind anywhere_append hcolumns
      · exact hcolumns ()
    · split
      · exact Consumes.bind_left (consumesFor_expected _)
      · exact (consumes_loop (fun _ => consumes_qualifiedName.bind_left) _ _).bind_left
  refine ((insideRuns _).holds_takeIf _).bind_inside (fun b => ?_) fun b => ?_
  · split
    · exact (runsAhead_unsupported _).bind anywhere_append hafterKey
    · exact hafterKey ()
  · split
    · exact Consumes.bind_left (consumesFor_unsupported _)
    · exact (consumes_expect _).bind_left

theorem consumes_keyPartitioning : Consumes keyPartitioning := by
  unfold keyPartitioning
  exact (consumes_expect _).bind_left

theorem consumes_optionValue : Consumes optionValue := by
  refine consumesFor_peek_bind fun c v c' h _ => ?_
  cases hn : c.next? with
  | none =>
      rw [hn] at h
      simp at h
  | some t =>
      rw [hn] at h
      obtain ⟨_, c₁, hany, h⟩ := run_bind_eq_ok h
      rw [run_takeAny_of_next hn] at hany
      cases hany
      simp only [run_pure, Except.ok.injEq, Prod.mk.injEq] at h
      rw [← h.2]
      exact size_advance_lt hn

theorem runsAhead_optionValue :
    RunsAhead Anywhere (fun _ => True) (x :: more) optionValue := by
  refine runsAhead_of_consumesFor (monotonicity.holds_optionValue)
    consumes_optionValue.consumesFor fun c d hc had => ?_
  obtain ⟨t, r, hr⟩ := List.exists_cons_of_ne_nil hc
  have hn : c.next? = some t.token := by simp [Cursor.next?, hr]
  unfold optionValue
  refine RunsFrom.peek_bind had hc ?_
  rw [hn]
  exact RunsFrom.bind anywhere_append (fun _ => monotone_pure _)
    (.of_mirrors (mirrors_takeMap had hc some)) fun _ c₁ d₁ _ _ had₁ =>
      (runsAhead_pure _).2 c₁ d₁ had₁

/-- A clause of the MySQL tail that goes on runs as at the end of the text: its name and `=`,
or `PARTITION`, are read inside the text, and what may end it is a value, a name or an
expression. -/
theorem runsAhead_tailClause (hx : StopsHead x.token = true) (stmt : Statement) :
    RunsAhead Anywhere (fun r => r.isRight = true) (x :: more) (tailClause stmt) := by
  refine (insideRuns _).holds_optionName.bind_inside (fun r => ?_) fun r => ?_
  · split
    · exact (runsAhead_expect _).bind anywhere_append fun _ =>
        runsAhead_optionValue.bind anywhere_append fun _ => runsAhead_pure _
    · refine RunsAhead.bind_of_consumes anywhere_append (monotonicity.peekWord _)
        (fun c d hc had => mirrors_peekWord had hc _) (fun b => ?_) ?_
      · split
        · split
          · exact runsAhead_expected _
          · exact RunsAhead.bind_of_consumes anywhere_append (monotone_takeMap some)
              (fun c d hc had => mirrors_takeMap had hc some)
              (fun _ => (runsAhead_keyPartitioning hx).bind anywhere_append fun _ =>
                runsAhead_pure _)
              (consumesFor_bind_right fun _ => consumes_keyPartitioning.bind_left)
        · exact runsAhead_pure _
      · refine consumesFor_bind_right fun b => ?_
        split
        · split
          · exact consumesFor_expected _
          · exact consumesFor_bind_right fun _ => consumes_keyPartitioning.bind_left
        · exact consumesFor_pure (by simp)
  · split
    · exact (consumes_expect _).bind_left
    · refine consumesFor_bind_right fun b => ?_
      split
      · split
        · exact consumesFor_expected _
        · exact consumesFor_bind_right fun _ => consumes_keyPartitioning.bind_left
      · exact consumesFor_pure (by simp)

section NoClause

variable (hdef : x.token ≠ .keyword .default) (hword : ∀ w, x.token ≠ .ident w)
include hdef hword

/-- Before a token that is neither `DEFAULT` nor a word, no table option is named, at the end of
the text or before it. -/
theorem runsAhead_optionName :
    RunsAhead Anywhere (fun _ => True) (x :: more) optionName := by
  have hnot : ∀ w, x.token.isWord w = false := fun w => by
    cases h : x.token with
    | ident s => exact absurd h (hword s)
    | _ => rfl
  unfold optionName
  refine (runsAhead_takeIf_end hdef).bind anywhere_append fun _ =>
    (runsAhead_takeMap_end ?_).bind anywhere_append fun _ => ?_
  · cases h : x.token with
    | ident s => exact absurd h (hword s)
    | _ => rfl
  extract_lets checked
  have hchecked : ∀ name, RunsAhead Anywhere (fun _ => True) (x :: more) (checked name) := by
    intro name
    dsimp only [checked]
    split
    · exact runsAhead_expected _
    · exact runsAhead_pure _
  split
  · refine (runsAhead_takeWord_end (hnot _)).bind anywhere_append fun b => ?_
    split
    · exact (runsAhead_pure _).bind anywhere_append hchecked
    · exact (runsAhead_expected _).bind anywhere_append hchecked
  · exact (runsAhead_pure _).bind anywhere_append hchecked

/-- Before a token that starts no clause of the tail, every clause of the tail runs as at the
end of the text, the last one too, which finds no clause on either side. -/
theorem runsAhead_tailClause_stop (hx : StopsHead x.token = true) (stmt : Statement) :
    RunsAhead Anywhere (fun _ => True) (x :: more) (tailClause stmt) := by
  refine (runsAhead_optionName hdef hword).bind anywhere_append fun r => ?_
  split
  · exact (runsAhead_expect _).bind anywhere_append fun _ =>
      runsAhead_optionValue.bind anywhere_append fun _ => runsAhead_pure _
  · refine (runsAhead_peekWord_end ?_).bind anywhere_append fun b => ?_
    · cases h : x.token with
      | ident s => exact absurd h (hword s)
      | _ => rfl
    split
    · split
      · exact runsAhead_expected _
      · exact RunsAhead.bind_of_consumes anywhere_append (monotone_takeMap some)
          (fun c d hc had => mirrors_takeMap had hc some)
          (fun _ => (runsAhead_keyPartitioning hx).bind anywhere_append fun _ =>
            runsAhead_pure _)
          (consumesFor_bind_right fun _ => consumes_keyPartitioning.bind_left)
    · exact runsAhead_pure _

end NoClause

/-! ## The head of a table definition -/

theorem ext {g g' : Grammar α} (h : ∀ c, g.run c = g'.run c) : g = g' := by
  funext c
  have hc := h c
  unfold run at hc
  rcases hg : g c with e | ⟨a, r⟩ <;> rcases hg' : g' c with e' | ⟨a', r'⟩ <;> rw [hg, hg'] at hc
  all_goals simp only [Except.ok.injEq, Prod.mk.injEq, Except.error.injEq, reduceCtorEq] at hc
  · rw [hc]
  · obtain ⟨rfl, hr⟩ := hc
    rw [Subtype.ext hr]

theorem bind_assoc (g : Grammar α) (f : α → Grammar β) (k : β → Grammar σ) :
    g >>= f >>= k = g >>= fun a => f a >>= k :=
  ext fun c => by
    rw [run_bind, run_bind, run_bind]
    rcases g.run c with e | ⟨a, c₁⟩
    · rfl
    · dsimp only
      rw [run_bind]

theorem pure_bind (a : α) (f : α → Grammar β) : pure a >>= f = f a :=
  ext fun c => run_pure_bind a f c

theorem ite_bind (p : Prop) [Decidable p] (a b : Grammar α) (k : α → Grammar β) :
    (if p then a else b) >>= k = if p then a >>= k else b >>= k := by
  split <;> rfl

/-- What a table definition reads up to its tail: `CREATE TABLE`, the name and the elements. -/
def tableStart (d : Dialect) : Grammar Statement := do
  expect (.keyword .create)
  let temporary ← takeIf (.keyword .temporary)
  expect (.keyword .table)
  let ifNotExists ← if ← takeIf (.keyword .if) then do
      expect (.keyword .not)
      expect (.keyword .exists)
      pure true
    else pure false
  let name ← qualifiedName
  let stmt : Statement := { name, temporary, ifNotExists }
  if (← peek) == some .openParen then
    pure { stmt with elements := ← tableElements d }
  else pure stmt

/-- The clauses of the tail: none in the generic dialect; the table options and the
partitioning of MySQL. -/
def tailClauses : Dialect → Statement → Grammar Statement
  | .generic, stmt => pure stmt
  | .mysql, stmt => loop tailClause id stmt

/-- The head of a table definition: its start and the clauses of its tail. -/
def tableHead (d : Dialect) : Grammar Statement := tableStart d >>= tailClauses d

theorem createTable_true (d : Dialect) : createTable d true = tableHead d >>= tailEnd := by
  have htail : ∀ stmt, tableTail d stmt = tailClauses d stmt >>= tailEnd := by
    intro stmt
    cases d <;> rfl
  simp only [createTable, liftM_self, tableHead, tableStart, bind_assoc, htail, ↓reduceIte,
    pure_bind, ite_bind]

/-- The start of a table definition keeps every walk that its elements keep. -/
theorem Walk.holds_tableStart (I : Walk) {d : Dialect} (helem : I.holds (tableElement d)) :
    I.holds (tableStart d) := by
  unfold tableStart
  refine I.bind (I.holds_expect _) fun _ => I.bind (I.holds_takeIf _) fun _ =>
    I.bind (I.holds_expect _) fun _ => I.bind (I.holds_takeIf _) fun _ => ?_
  extract_lets afterIf
  have hafterIf : ∀ b, I.holds (afterIf b) := by
    intro b
    refine I.bind I.holds_qualifiedName fun _ => ?_
    extract_lets stmt
    refine I.bind I.peek fun _ => ?_
    split
    · exact I.bind (I.holds_tableElements helem) fun _ => I.pure _
    · exact I.pure _
  split
  · exact I.bind (I.holds_expect _) fun _ => I.bind (I.holds_expect _) fun _ =>
      I.bind (I.pure _) hafterIf
  · exact I.bind (I.pure _) hafterIf

theorem runsAhead_tableElements (d : Dialect) :
    RunsAhead Anywhere (fun _ => True) (x :: more) (tableElements d) :=
  (runsAhead_expect _).bind anywhere_append fun _ =>
    ((insideRuns _).holds_sepBy1 (Walk.holds_tableElement (I := (insideRuns _).toWalk)
      (fun _ => runsAhead_atom) runsAhead_columnOption
      (Invariant.holds_tableConstraint (I := insideRuns _) (fun _ => runsAhead_atom) d))
        _).bind_inside
      (fun _ => (runsAhead_expect _).bind anywhere_append fun _ => runsAhead_pure _)
      fun _ => (consumes_expect _).bind_left

/-- Before a token that continues no phrase of a head, the start of a table definition runs as
at the end of the text: all it reads before its name is followed by more of it, and after the
name comes `(` or nothing more. -/
theorem runsAhead_tableStart (hx : StopsHead x.token = true) (d : Dialect) :
    RunsAhead Anywhere (fun _ => True) (x :: more) (tableStart d) := by
  have hcont : continues 0 x.token = false := by
    simp only [StopsHead, Bool.and_eq_true, Bool.not_eq_eq_eq_not, Bool.not_true] at hx
    exact hx.1
  obtain ⟨-, hparen, hperiod⟩ := ne_of_closes hcont
  unfold tableStart
  refine (runsAhead_expect _).bind anywhere_append fun _ =>
    ((insideRuns _).holds_takeIf _).bind_inside (fun _ => ?_) fun _ => (consumes_expect _).bind_left
  refine (runsAhead_expect _).bind anywhere_append fun _ =>
    ((insideRuns _).holds_takeIf _).bind_inside (fun b => ?_) fun b => ?_
  all_goals extract_lets afterIf
  · have hafterIf : ∀ b, RunsAhead Anywhere (fun _ => True) (x :: more) (afterIf b) := by
      intro b
      refine (runsAhead_qualifiedName hperiod).bind anywhere_append fun _ => ?_
      extract_lets stmt
      refine runsAhead_peek_bind anywhere_append (fun v => ?_) (by simp [hparen])
      split
      · exact (runsAhead_tableElements d).bind anywhere_append fun _ => runsAhead_pure _
      · exact runsAhead_pure _
    split
    · exact (runsAhead_expect _).bind anywhere_append fun _ =>
        (runsAhead_expect _).bind anywhere_append fun _ =>
          (runsAhead_pure _).bind anywhere_append hafterIf
    · exact (runsAhead_pure _).bind anywhere_append hafterIf
  · split
    · exact (consumes_expect _).bind_left
    · exact consumesFor_pure_bind (consumes_qualifiedName.bind_left)

/-- Before a token that continues no phrase of a head and starts no clause of the tail, the
clauses of the tail run as at the end of the text, and so does the whole head. -/
theorem runsAhead_tableHead (hx : StopsHead x.token = true) (hdef : x.token ≠ .keyword .default)
    (hword : ∀ w, x.token ≠ .ident w) (d : Dialect) :
    RunsAhead Anywhere (fun _ => True) (x :: more) (tableHead d) := by
  refine (runsAhead_tableStart hx d).bind anywhere_append fun stmt => ?_
  cases d with
  | generic => exact runsAhead_pure _
  | mysql =>
      exact RunsAhead.loop anywhere_append (fun s => runsAhead_tailClause_stop hdef hword hx s) _ _

end SqlDdl.Grammar
