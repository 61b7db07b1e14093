import SqlDdl.Proofs.ExprReading

/-!
# What the expression parser reads is derived

The converse of the reading theorems: where no null test is directly followed by a binary
operator, what the expression parser reads the grammar derives, with the tree the parser builds
(`expressionAt_derived`), nested no deeper than the levels the parser had left. It also says
where the parser stops: before no binary operator that binds at least as tight as the level
(`Below`), and before no `IS` where the level takes null tests. That is what lets the loop of
binary operators build a run in which each operator is no tighter than the one before it
(`Chain`), and what puts null tests only after a run that binds at least as tight as they do.

The proofs follow the parser: one lemma for each kind of step, and the two loops, of binary
operators and of call arguments, by `loop_induction`, carrying what was read so far.
-/

namespace SqlDdl.Precedence

open Grammar

/-- No binary operator that binds at least as tight as `p` comes next: what ends an expression
of the level of power `p`. -/
def Below (p : Nat) (x : Option Token) : Prop :=
  (x >>= (atLeast p ∘ infixOp?)) = none

/-- In the tokens left, no null test is directly followed by a binary operator. -/
def TestsLastAt (c : Cursor) : Prop := TestsLast (c.rest.map Spanned.token)

/-- Whenever `g` gives an expression from tokens where no null test is followed by a binary
operator, the tokens it read derive that expression at the level of power `p`, nested at most
`n` deep, and it stopped before no binary operator of that level, and before no `IS` if the level
takes null tests. -/
def Derived (n p : Nat) (g : Grammar Expr) : Prop :=
  ∀ c e c', g.run c = .ok (e, c') → TestsLastAt c →
    ∃ ws, c.rest = ws ++ c'.rest ∧ Derives n p (ws.map Spanned.token) e ∧ Below p c'.next? ∧
      (p ≤ isNullPower → c'.next? ≠ some (.keyword .is))

theorem Cursor.eq_ofTokens (c : Cursor) : c = Cursor.ofTokens c.rest c.stop := by
  obtain ⟨rest, stop, size, rfl⟩ := c
  rfl

theorem Cursor.peek_ok {c : Cursor} {x : Option Token} (h : c.peek = .ok x) : x = c.next? := by
  unfold Cursor.peek at h
  unfold Cursor.next?
  split at h <;> cases h <;> simp_all

theorem TestsLastAt.of_rest {c c' : Cursor} {ws : List Spanned} (h : TestsLastAt c)
    (hc : c.rest = ws ++ c'.rest) : TestsLastAt c' := by
  unfold TestsLastAt at h ⊢
  rw [hc, List.map_append] at h
  exact h.right

theorem TestsLastAt.advance {c : Cursor} (h : TestsLastAt c) : TestsLastAt c.advance := by
  unfold TestsLastAt at h ⊢
  cases hr : c.rest with
  | nil => simp [Cursor.advance, hr, testsLast_nil]
  | cons t rs =>
      rw [hr, List.map_cons] at h
      simpa [Cursor.advance, hr] using h.tail

theorem Cursor.rest_of_next {c : Cursor} {t : Token} (hn : c.next? = some t) :
    ∃ u : Spanned, c.rest = u :: c.advance.rest ∧ u.token = t := by
  unfold Cursor.next? at hn
  cases hr : c.rest with
  | nil => simp [hr] at hn
  | cons u rs =>
      simp only [hr, List.head?_cons, Option.map_some, Option.some.injEq] at hn
      exact ⟨u, by simp [Cursor.advance, hr], hn⟩

/-- After a null test comes no binary operator. -/
theorem TestsLastAt.below {c c' : Cursor} {ws : List Spanned} {u : List Token} {negated : Bool}
    (h : TestsLastAt c) (hc : c.rest = ws ++ c'.rest)
    (hws : ws.map Spanned.token = u ++ testTokens negated) (p : Nat) : Below p c'.next? := by
  unfold Below
  cases hn : c'.next? with
  | none => rfl
  | some t =>
      obtain ⟨s, hs, rfl⟩ := Cursor.rest_of_next hn
      have hnone : infixOp? s.token = none := by
        have hinfix : testTokens negated ++ s.token :: c'.advance.rest.map Spanned.token <:+:
            c.rest.map Spanned.token := by
          refine ⟨u, [], ?_⟩
          rw [hc, hs, List.map_append, hws]
          simp
        exact TestsLast.infixOp_after h hinfix
      simp [hnone, atLeast]

theorem next?_of_rest {c : Cursor} {ws r : List Spanned} {t : Token} {w : List Token}
    (h : c.rest = ws ++ r) (hw : ws.map Spanned.token = t :: w) : c.next? = some t := by
  obtain ⟨off, ws', rfl, -⟩ := map_token_eq_cons hw
  simp [Cursor.next?, h]

theorem next?_congr {c c' : Cursor} (h : c.rest = c'.rest) : c.next? = c'.next? := by
  simp [Cursor.next?, h]

theorem Cursor.size_lt {c c' : Cursor} {ws : List Spanned} (h : c.rest = ws ++ c'.rest)
    (hws : ws ≠ []) : c'.size < c.size := by
  rw [c.size_eq, c'.size_eq, h, List.length_append]
  have := List.length_pos_iff.mpr hws
  omega

theorem below_mono {p p' : Nat} (h : p ≤ p') {x : Option Token} (hx : Below p x) :
    Below p' x := by
  unfold Below at hx ⊢
  cases x with
  | none => rfl
  | some t =>
      cases hi : infixOp? t with
      | none => simp [hi, atLeast]
      | some y =>
          have : ¬ p ≤ y.2 := by simpa [hi, atLeast, Option.filter] using hx
          simp [hi, atLeast, Option.filter]
          omega

theorem atLeast_eq_some {α : Type} {m p : Nat} {x : Option (α × Nat)} {a : α} :
    atLeast m x = some (a, p) ↔ x = some (a, p) ∧ m ≤ p := by
  simp [atLeast, Option.filter_eq_some_iff]

/-- Before an operator no tighter than `k`, an expression of the level `k + 1` ends. -/
theorem Below.le {k q : Nat} {t : Token} {op : BinaryOp} (h : Below (k + 1) (some t))
    (ht : infixOp? t = some (op, q)) : q ≤ k := by
  have : ¬ k + 1 ≤ q := by simpa [Below, ht, atLeast, Option.filter] using h
  omega

theorem below_atomPower (x : Option Token) : Below (atomPower + 1) x := by
  cases x with
  | none => rfl
  | some t =>
      cases hi : infixOp? t with
      | none => simp [Below, hi, atLeast]
      | some y =>
          have := (infixOp_power hi).1
          simp [Below, hi, atLeast, Option.filter, atomPower]
          omega

/-- A null test reads `IS NULL` or `IS NOT NULL` at a level that takes it, or else nothing, and
then no test the level takes comes next. -/
theorem run_nullTest_ok {m : Nat} {c c' : Cursor} {r : Option Bool}
    (h : (nullTest? m).run c = .ok (r, c')) :
    (r = none ∧ c' = c ∧ (m ≤ isNullPower → c.next? ≠ some (.keyword .is))) ∨
      ∃ negated ws, r = some negated ∧ m ≤ isNullPower ∧ c.rest = ws ++ c'.rest ∧
        ws.map Spanned.token = testTokens negated := by
  unfold nullTest? at h
  rw [run_bind, run_peek] at h
  rcases hp : c.peek with err | x <;> rw [hp] at h
  · cases h
  rw [Cursor.peek_ok hp] at h
  by_cases his : c.next? = some (.keyword .is)
  swap
  · simp only [his, bne_iff_ne, ne_eq, not_false_eq_true, ↓reduceIte, run_pure,
      Except.ok.injEq, Prod.mk.injEq] at h
    exact .inl ⟨h.1.symm, h.2.symm, fun _ => his⟩
  by_cases hlt : isNullPower < m
  · simp only [his, bne_self_eq_false, Bool.false_eq_true, ↓reduceIte, hlt, run_pure,
      Except.ok.injEq, Prod.mk.injEq] at h
    exact .inl ⟨h.1.symm, h.2.symm, fun hm => absurd hlt (Nat.not_lt.mpr hm)⟩
  simp only [his, bne_self_eq_false, Bool.false_eq_true, ↓reduceIte, hlt] at h
  obtain ⟨_, c₁, hexpect, h₁⟩ := run_bind_eq_ok h
  obtain ⟨-, rfl⟩ := run_expect_ok hexpect
  obtain ⟨negated, c₂, hnot, h₂⟩ := run_bind_eq_ok h₁
  -- `NULL` ends the test either way; only the `NOT` before it differs
  obtain ⟨_, c₃, hnull, h₃⟩ := run_bind_eq_ok h₂
  obtain ⟨hn₃, rfl⟩ := run_expect_ok hnull
  simp only [run_pure, Except.ok.injEq, Prod.mk.injEq] at h₃
  obtain ⟨rfl, rfl⟩ := h₃
  obtain ⟨u₁, hu₁, hut₁⟩ := Cursor.rest_of_next his
  obtain ⟨u₃, hu₃, hut₃⟩ := Cursor.rest_of_next hn₃
  rw [run_takeIf] at hnot
  by_cases hn₂ : c.advance.next? = some (.keyword .not)
  · simp only [hn₂, ↓reduceIte, Except.ok.injEq, Prod.mk.injEq] at hnot
    obtain ⟨rfl, rfl⟩ := hnot
    obtain ⟨u₂, hu₂, hut₂⟩ := Cursor.rest_of_next hn₂
    exact .inr ⟨true, [u₁, u₂, u₃], rfl, Nat.not_lt.mp hlt, by rw [hu₁, hu₂, hu₃]; rfl,
      by simp [hut₁, hut₂, hut₃, testTokens]⟩
  · simp only [hn₂, ↓reduceIte, Except.ok.injEq, Prod.mk.injEq] at hnot
    obtain ⟨rfl, rfl⟩ := hnot
    exact .inr ⟨false, [u₁, u₃], rfl, Nat.not_lt.mp hlt, by rw [hu₁, hu₃]; rfl,
      by simp [hut₁, hut₃, testTokens]⟩

/-- What the null tests of a level read is a run of tests, and then no test the level takes
comes next. The induction is on the rounds of the loop of `nullTests`, one test each. -/
theorem tests_nullTests {m : Nat} {e e' : Expr} {c c' : Cursor}
    (h : (nullTests m e).run c = .ok (e', c')) :
    ∃ ws, c.rest = ws ++ c'.rest ∧ Tests e (ws.map Spanned.token) e' ∧
      (ws = [] ∨ m ≤ isNullPower) ∧ (m ≤ isNullPower → c'.next? ≠ some (.keyword .is)) := by
  unfold nullTests at h
  refine loop_induction (P := fun e c e' c' => ∃ ws, c.rest = ws ++ c'.rest ∧
      Tests e (ws.map Spanned.token) e' ∧ (ws = [] ∨ m ≤ isNullPower) ∧
        (m ≤ isNullPower → c'.next? ≠ some (.keyword .is))) ?_ ?_ ?_ h
  · intro e c b c' hr
    obtain ⟨r, c₀, htest, hr'⟩ := run_bind_eq_ok hr
    rcases run_nullTest_ok htest with ⟨rfl, rfl, hnext⟩ | ⟨negated, ws, rfl, -⟩
    · cases hr'
      exact ⟨[], rfl, .done, .inl rfl, hnext⟩
    · cases hr'
  · intro e c s' c' hr hstay
    obtain ⟨r, c₀, htest, hr'⟩ := run_bind_eq_ok hr
    rcases run_nullTest_ok htest with ⟨rfl, -, -⟩ | ⟨negated, ws, rfl, -, hws, htok⟩
    · cases hr'
    · cases hr'
      have hne : ws ≠ [] := by
        rintro rfl
        cases negated <;> simp [testTokens] at htok
      exact absurd (Cursor.size_lt hws hne) hstay
  · intro e c s' c₁ b c' hr _ ih
    obtain ⟨r, c₀, htest, hr'⟩ := run_bind_eq_ok hr
    rcases run_nullTest_ok htest with ⟨rfl, -, -⟩ | ⟨negated, ws, rfl, hm, hws, htok⟩
    · cases hr'
    · cases hr'
      obtain ⟨ws', hws', ht, -, hend⟩ := ih
      refine ⟨ws ++ ws', by rw [hws, hws', List.append_assoc], ?_, .inr hm, hend⟩
      rw [List.map_append, htok]
      exact .test negated ht

/-- A run of null tests read from tokens, which ends with a test, reads some tokens and starts
with `IS`. -/
theorem Tests.head_of_last {e e' : Expr} {ws : List Spanned} {v : List Token} {negated : Bool}
    (h : Tests e (ws.map Spanned.token) e') (hv : ws.map Spanned.token = v ++ testTokens negated) :
    ws ≠ [] ∧ ∃ w, ws.map Spanned.token = .keyword .is :: w := by
  have hne : ws ≠ [] := by
    rintro rfl
    cases negated <;> simp [testTokens] at hv
  exact ⟨hne, h.head.resolve_left fun h => hne (List.map_eq_nil_iff.mp h)⟩

section Operands

variable {n : Nat} {sub : Nat → Grammar Expr}

/-- One round of the loop of binary operators: it finishes where no operator of the level comes
next, or reads one and its right operand one level tighter. The round is given by what it does
after looking for the operator, as the parser's is. -/
theorem run_infixes_round {m : Nat} {lhs : Expr}
    {f : Option (BinaryOp × Nat) → Grammar (Expr ⊕ Expr)} {c c₁ : Cursor} {r : Expr ⊕ Expr}
    (h : (takeMap (atLeast m ∘ infixOp?) >>= f).run c = .ok (r, c₁))
    (hnone : f none = pure (.inl lhs))
    (hsome : ∀ op q, f (some (op, q)) =
      sub (q + 1) >>= fun rhs => pure (.inr (.binary op lhs rhs))) :
    (Below m c.next? ∧ r = .inl lhs ∧ c₁ = c) ∨
      ∃ t op q rhs, c.next? = some t ∧ infixOp? t = some (op, q) ∧ m ≤ q ∧
        (sub (q + 1)).run c.advance = .ok (rhs, c₁) ∧ r = .inr (.binary op lhs rhs) := by
  rw [run_bind, run_takeMap] at h
  rcases hx : c.next? >>= (atLeast m ∘ infixOp?) with _ | ⟨op, q⟩ <;> rw [hx] at h
  · dsimp only at h
    rw [hnone] at h
    simp only [run_pure, Except.ok.injEq, Prod.mk.injEq] at h
    exact .inl ⟨hx, h.1.symm, h.2.symm⟩
  · dsimp only at h
    rw [hsome] at h
    obtain ⟨rhs, c₂, hrhs, hpure⟩ := run_bind_eq_ok h
    simp only [run_pure, Except.ok.injEq, Prod.mk.injEq] at hpure
    obtain ⟨rfl, rfl⟩ := hpure
    obtain ⟨t, hn, ht⟩ := Option.bind_eq_some_iff.mp hx
    have ht' : infixOp? t = some (op, q) ∧ m ≤ q := atLeast_eq_some.mp ht
    exact .inr ⟨t, op, q, rhs, hn, ht'.1, ht'.2, hrhs, rfl⟩

/-- The loop of binary operators reads a run of them after `lhs`, the first no tighter than
`k` and each no tighter than the one before it; it stops before no operator of the level. Where
it stops before `IS`, every operator of the run binds at least as tight as null tests: a looser
one's right operand would have read the test. -/
theorem chain_infixes (hsub : ∀ q, q ≤ atomPower → Derived n q (sub q)) {m : Nat}
    {lhs e : Expr} {c c' : Cursor} (h : (infixes sub m lhs).run c = .ok (e, c')) :
    ∀ k, TestsLastAt c → Below (k + 1) c.next? →
      (k < isNullPower → c.next? ≠ some (.keyword .is)) →
      ∃ ws, c.rest = ws ++ c'.rest ∧ Chain n m k lhs (ws.map Spanned.token) e ∧
        Below m c'.next? ∧ (c'.next? = some (.keyword .is) →
          isNullPower ≤ k ∧ Chain n isNullPower k lhs (ws.map Spanned.token) e) := by
  unfold infixes at h
  refine loop_induction (P := fun lhs c e c' => ∀ k, TestsLastAt c → Below (k + 1) c.next? →
      (k < isNullPower → c.next? ≠ some (.keyword .is)) →
      ∃ ws, c.rest = ws ++ c'.rest ∧ Chain n m k lhs (ws.map Spanned.token) e ∧
        Below m c'.next? ∧ (c'.next? = some (.keyword .is) →
          isNullPower ≤ k ∧ Chain n isNullPower k lhs (ws.map Spanned.token) e)) ?_ ?_ ?_ h
  · intro lhs c b c' hr k _ _ hnis
    rcases run_infixes_round hr rfl (fun _ _ => rfl) with
      ⟨hb, hlhs, rfl⟩ | ⟨_, _, _, _, _, _, _, _, hr'⟩
    · cases hlhs
      exact ⟨[], rfl, .done, hb, fun his => ⟨Nat.not_lt.mp fun hk => hnis hk his, .done⟩⟩
    · cases hr'
  · intro lhs c s' c' hr hstay k hc _ _
    rcases run_infixes_round hr rfl (fun _ _ => rfl) with
      ⟨_, hr', _⟩ | ⟨t, op, q, rhs, hn, ht, -, hrhs, -⟩
    · cases hr'
    · have hq := (infixOp_power ht).1
      obtain ⟨ws, hws, -, -, -⟩ := hsub (q + 1) (by simp only [atomPower]; omega) c.advance rhs
        c' hrhs hc.advance
      obtain ⟨u, hu, -⟩ := Cursor.rest_of_next hn
      exact absurd (Cursor.size_lt (show c.rest = (u :: ws) ++ c'.rest by rw [hu, hws]; rfl)
        (List.cons_ne_nil _ _))
        hstay
  · intro lhs c s' c₁ b c' hr _ ih k hc hbelow _
    rcases run_infixes_round hr rfl (fun _ _ => rfl) with
      ⟨_, hr', _⟩ | ⟨t, op, q, rhs, hn, ht, hmq, hrhs, hs'⟩
    · cases hr'
    · cases hs'
      have hq := (infixOp_power ht).1
      obtain ⟨wsr, hwsr, hr, hbr, hisr⟩ := hsub (q + 1) (by simp only [atomPower]; omega)
        c.advance rhs c₁ hrhs hc.advance
      obtain ⟨ws', hws', hchain, hbm, his⟩ := ih q (hc.advance.of_rest hwsr) hbr
        fun hq4 => hisr hq4
      have hqk : q ≤ k := Below.le (hn ▸ hbelow) ht
      obtain ⟨u, hu, hut⟩ := Cursor.rest_of_next hn
      refine ⟨u :: wsr ++ ws', by rw [hu, hwsr, hws']; simp, ?_, hbm, fun his' => ?_⟩
      · simpa [hut] using Chain.step ht hmq hqk hr hchain
      · obtain ⟨hq4, hchain4⟩ := his his'
        exact ⟨Nat.le_trans hq4 hqk, by simpa [hut] using Chain.step ht hq4 hqk hr hchain4⟩

/-- One round of the loop of call arguments: it reads the `)` and finishes, or reads one more
argument, after a comma unless it is the first. -/
theorem run_arguments_round {acc : List Expr} {c c₁ : Cursor} {r : List Expr ⊕ List Expr}
    (h : (do
      if ← takeIf .closeParen then return .inl acc.reverse
      if !acc.isEmpty then expect .comma
      let arg ← sub 0
      return .inr (arg :: acc) : Grammar (List Expr ⊕ List Expr)).run c = .ok (r, c₁)) :
    (c.next? = some .closeParen ∧ r = .inl acc.reverse ∧ c₁ = c.advance) ∨
      ∃ sep c₀ arg, c.rest = sep ++ c₀.rest ∧
        sep.map Spanned.token = (if acc.isEmpty then [] else [.comma]) ∧
        (sub 0).run c₀ = .ok (arg, c₁) ∧ r = .inr (arg :: acc) := by
  rw [run_bind, run_takeIf] at h
  by_cases hclose : c.next? = some .closeParen
  · simp only [hclose, ↓reduceIte, run_pure, Except.ok.injEq, Prod.mk.injEq] at h
    exact .inl ⟨hclose, h.1.symm, h.2.symm⟩
  · simp only [hclose, ↓reduceIte, Bool.false_eq_true] at h
    cases hacc : acc.isEmpty with
    | true =>
        simp only [hacc, Bool.not_true, Bool.false_eq_true, ↓reduceIte] at h
        obtain ⟨arg, c₂, harg, hp⟩ := run_bind_eq_ok h
        simp only [run_pure, Except.ok.injEq, Prod.mk.injEq] at hp
        obtain ⟨rfl, rfl⟩ := hp
        exact .inr ⟨[], c, arg, rfl, rfl, harg, rfl⟩
    | false =>
        simp only [hacc, Bool.not_false, ↓reduceIte] at h
        obtain ⟨_, c₀, hcomma, hrest⟩ := run_bind_eq_ok h
        obtain ⟨hn, rfl⟩ := run_expect_ok hcomma
        obtain ⟨arg, c₂, harg, hp⟩ := run_bind_eq_ok hrest
        simp only [run_pure, Except.ok.injEq, Prod.mk.injEq] at hp
        obtain ⟨rfl, rfl⟩ := hp
        obtain ⟨u, hu, hut⟩ := Cursor.rest_of_next hn
        exact .inr ⟨[u], c.advance, arg, hu, by simp [hut], harg, rfl⟩

/-- The arguments of a call are read up to and with the `)`, each derived one level deeper. -/
theorem args_callArguments (hsub : Derived n 0 (sub 0)) {es : List Expr} {c c' : Cursor}
    (h : (callArguments sub).run c = .ok (es, c')) (hc : TestsLastAt c) :
    ∃ ws, c.rest = ws ++ c'.rest ∧ Args n false (ws.map Spanned.token) es := by
  unfold callArguments at h
  have hloop := loop_induction (P := fun acc c es c' => TestsLastAt c → ∃ ws es',
      c.rest = ws ++ c'.rest ∧ es = acc.reverse ++ es' ∧
        Args n (!acc.isEmpty) (ws.map Spanned.token) es') ?_ ?_ ?_ h hc
  · obtain ⟨ws, es', hws, rfl, hargs⟩ := hloop
    exact ⟨ws, hws, hargs⟩
  · intro acc c b c' hr _
    rcases run_arguments_round hr with ⟨hn, hb, rfl⟩ | ⟨_, _, _, _, _, _, hr'⟩
    · cases hb
      obtain ⟨u, hu, hut⟩ := Cursor.rest_of_next hn
      exact ⟨[u], [], hu, by simp, by simpa [hut] using Args.close⟩
    · cases hr'
  · intro acc c s' c' hr hstay hc
    rcases run_arguments_round hr with ⟨_, hr', _⟩ | ⟨sep, c₀, arg, hsep, -, harg, -⟩
    · cases hr'
    · obtain ⟨ws, hws, hd, -⟩ := hsub c₀ arg c' harg (hc.of_rest hsep)
      obtain ⟨t, w', hw, -⟩ := hd.head
      have hne : sep ++ ws ≠ [] := by
        intro hnil
        rw [List.append_eq_nil_iff] at hnil
        rw [hnil.2] at hw
        cases hw
      exact absurd (Cursor.size_lt (by rw [hsep, hws, List.append_assoc]) hne) hstay
  · intro acc c s' c₁ b c' hr _ ih hc
    rcases run_arguments_round hr with
      ⟨_, hr', _⟩ | ⟨sep, c₀, arg, hsep, hsept, harg, hs'⟩
    · cases hr'
    · cases hs'
      obtain ⟨wsa, hwsa, hd, -⟩ := hsub c₀ arg c₁ harg (hc.of_rest hsep)
      obtain ⟨ws', es', hws', rfl, hargs⟩ := ih ((hc.of_rest hsep).of_rest hwsa)
      refine ⟨sep ++ wsa ++ ws', arg :: es', by rw [hsep, hwsa, hws']; simp, by simp, ?_⟩
      have harg' : Args n (!acc.isEmpty) ((if !acc.isEmpty then [.comma] else []) ++
          wsa.map Spanned.token ++ ws'.map Spanned.token) (arg :: es') := Args.arg hd hargs
      have hsep' : sep.map Spanned.token = if !acc.isEmpty then [.comma] else [] := by
        rw [hsept]
        cases acc.isEmpty <;> rfl
      rw [← hsep'] at harg'
      simpa using harg'

/-- After a name, the atom step reads a call, a qualified column or a column. -/
theorem afterName_derived (hsub : Derived n 0 (sub 0)) {t : Token} {name : String}
    (ht : t.name? = some name) {e : Expr} {c c' : Cursor}
    (h : (do
      if ← takeIf .openParen then return Expr.function name (← callArguments sub)
      else if ← takeIf .period then return .column (some name) (← expectName "column name")
      else return .column none name).run c = .ok (e, c')) (hc : TestsLastAt c) :
    ∃ ws, c.rest = ws ++ c'.rest ∧ Atom (n + 1) (t :: ws.map Spanned.token) e := by
  rw [run_bind, run_takeIf] at h
  by_cases hp : c.next? = some .openParen
  · simp only [hp, ↓reduceIte] at h
    obtain ⟨args, c₁, hargs, hpure⟩ := run_bind_eq_ok h
    simp only [run_pure, Except.ok.injEq, Prod.mk.injEq] at hpure
    obtain ⟨rfl, rfl⟩ := hpure
    obtain ⟨ws, hws, hA⟩ := args_callArguments hsub hargs hc.advance
    obtain ⟨u, hu, hut⟩ := Cursor.rest_of_next hp
    exact ⟨u :: ws, by rw [hu, hws]; rfl, by simpa [hut] using Atom.call ht hA⟩
  simp only [hp, ↓reduceIte, Bool.false_eq_true] at h
  rw [run_bind, run_takeIf] at h
  by_cases hd : c.next? = some .period
  · simp only [hd, ↓reduceIte] at h
    obtain ⟨cn, c₁, hname, hpure⟩ := run_bind_eq_ok h
    simp only [run_pure, Except.ok.injEq, Prod.mk.injEq] at hpure
    obtain ⟨rfl, rfl⟩ := hpure
    obtain ⟨v, hn, hv, rfl⟩ := run_expectName_ok hname
    obtain ⟨u, hu, hut⟩ := Cursor.rest_of_next hd
    obtain ⟨u', hu', hut'⟩ := Cursor.rest_of_next hn
    exact ⟨[u, u'], by rw [hu, hu']; rfl, by simpa [hut, hut'] using Atom.qualified ht hv⟩
  · simp only [hd, ↓reduceIte, Bool.false_eq_true, run_pure, Except.ok.injEq,
      Prod.mk.injEq] at h
    obtain ⟨rfl, rfl⟩ := h
    exact ⟨[], rfl, Atom.column ht⟩

/-- What the atom step reads is an atom, with its parts one level deeper. -/
theorem atom_derived (hsub : Derived n 0 (sub 0)) {e : Expr} {c c' : Cursor}
    (h : (atom sub).run c = .ok (e, c')) (hc : TestsLastAt c) :
    ∃ ws, c.rest = ws ++ c'.rest ∧ Atom (n + 1) (ws.map Spanned.token) e := by
  obtain ⟨rest, stop, size, rfl⟩ := c
  change (atom sub).run (Cursor.ofTokens rest stop) = _ at h
  cases rest with
  | nil => cases stop <;> simp [atom, run_bind, run_peek, Cursor.peek, Cursor.ofTokens] at h
  | cons t rs =>
      have hc' : TestsLastAt (Cursor.ofTokens rs stop) :=
        hc.of_rest (show t :: rs = [t] ++ (Cursor.ofTokens rs stop).rest from rfl)
      have hsingle : ∀ x, Atom (n + 1) [t.token] x →
          (pure x : Grammar Expr).run (Cursor.ofTokens rs stop) = .ok (e, c') →
          ∃ ws, t :: rs = ws ++ c'.rest ∧ Atom (n + 1) (ws.map Spanned.token) e := by
        intro x hx hrun
        cases hrun
        exact ⟨[t], rfl, hx⟩
      simp only [atom, liftM_self, run_bind, run_peek, run_offset, takeAny, run_takeMap,
        Cursor.peek, Cursor.rest_ofTokens, Cursor.next?_ofTokens, Cursor.advance_ofTokens, Option.bind_eq_bind,
        Option.bind_some] at h
      split at h
      next _ ht => exact hsingle _ (ht ▸ .all) h
      next _ s ht =>
        split at h
        next l hl => exact hsingle _ (ht ▸ .number hl) h
        next => cases h
      next _ s ht => exact hsingle _ (ht ▸ .string) h
      next _ ht => exact hsingle _ (ht ▸ .true) h
      next _ ht => exact hsingle _ (ht ▸ .false) h
      next _ ht => exact hsingle _ (ht ▸ .null) h
      next _ name ht =>
        obtain ⟨ws, hws, hA⟩ := afterName_derived hsub (t := .ident name) rfl h hc'
        exact ⟨t :: ws, congrArg (List.cons t) hws, by simpa [ht] using hA⟩
      next _ name ht =>
        obtain ⟨ws, hws, hA⟩ := afterName_derived hsub (t := .quotedIdent name) rfl h hc'
        exact ⟨t :: ws, congrArg (List.cons t) hws, by simpa [ht] using hA⟩
      next _ ht =>
        obtain ⟨e₁, c₁, hin, hrest⟩ := run_bind_eq_ok h
        obtain ⟨_, c₂, hclose, hpure⟩ := run_bind_eq_ok hrest
        simp only [run_pure, Except.ok.injEq, Prod.mk.injEq] at hpure
        obtain ⟨rfl, rfl⟩ := hpure
        obtain ⟨hn, rfl⟩ := run_expect_ok hclose
        obtain ⟨ws, hws, hd, -⟩ := hsub _ _ _ hin hc'
        obtain ⟨u, hu, hut⟩ := Cursor.rest_of_next hn
        refine ⟨t :: ws ++ [u], ?_, by simpa [ht, hut] using Atom.paren hd⟩
        change t :: rs = _
        rw [show rs = (Cursor.ofTokens rs stop).rest from rfl, hws, hu]
        simp
      next => cases h

/-- One level of operators reads what the grammar derives at that level: a first operand, then
null tests or a run of binary operators, and null tests after the run. Tests right after the
operand end the level, as no operator follows a test; tests after the run apply to it whole, as
a looser operator's right operand would have read them. -/
theorem operators_derived (hsub : ∀ q, q ≤ atomPower → Derived n q (sub q)) {m : Nat}
    (hm : m ≤ atomPower) : Derived (n + 1) m (operators sub m) := by
  intro c e c' h hc
  unfold operators at h
  simp only [liftM_self] at h
  obtain ⟨x, c₀, hx, hrest⟩ := run_bind_eq_ok h
  obtain ⟨first, c₁, ws₀, k, hws₀, hp, hbelow, hnis, hjp⟩ : ∃ first c₁ ws₀ k,
      c.rest = ws₀ ++ c₁.rest ∧ Primary (n + 1) m (ws₀.map Spanned.token) first k ∧
        Below (k + 1) c₁.next? ∧ (k < isNullPower → c₁.next? ≠ some (.keyword .is)) ∧
        (nullTests m first >>= fun lhs => infixes sub m lhs >>=
          fun lhs => nullTests m lhs).run c₁ = .ok (e, c') := by
    rw [run_takeMap] at hx
    rcases hpre : c.next? >>= (atLeast m ∘ prefixOp?) with _ | ⟨op, p⟩ <;> rw [hpre] at hx <;>
      cases hx
    · obtain ⟨first, c₁, hatom, hjp⟩ := run_bind_eq_ok hrest
      obtain ⟨ws₀, hws₀, hA⟩ := atom_derived (hsub 0 (Nat.zero_le _)) hatom hc
      exact ⟨first, c₁, ws₀, atomPower, hws₀, .atom hm hA, below_atomPower _,
        fun h => absurd h (by decide), hjp⟩
    · obtain ⟨t, hn, ht⟩ := Option.bind_eq_some_iff.mp hpre
      obtain ⟨ht, hmp⟩ := atLeast_eq_some.mp ht
      obtain ⟨e₁, c₂, hop, hpure⟩ := run_bind_eq_ok hrest
      obtain ⟨first, c₁, hfirst, hjp⟩ := run_bind_eq_ok hpure
      simp only [run_pure, Except.ok.injEq, Prod.mk.injEq] at hfirst
      obtain ⟨rfl, rfl⟩ := hfirst
      have hp : p ≤ atomPower := by
        rcases prefixOp_power ht with rfl | rfl <;> decide
      obtain ⟨ws₁, hws₁, hd, hb, hisp⟩ := hsub p hp c.advance e₁ c₂ hop hc.advance
      obtain ⟨u, hu, hut⟩ := Cursor.rest_of_next hn
      refine ⟨_, c₂, u :: ws₁, p, by rw [hu, hws₁]; rfl, ?_, below_mono (Nat.le_succ p) hb,
        fun hp4 => hisp (Nat.le_of_lt hp4), hjp⟩
      simpa [hut] using Primary.unary ht hmp hd
  have hc₁ := hc.of_rest hws₀
  obtain ⟨hmk, hfirst⟩ := hp.derives
  obtain ⟨l₁, c₂, hnull₁, hrest₁⟩ := run_bind_eq_ok hjp
  obtain ⟨l₂, c₃, hinf, hnull₂⟩ := run_bind_eq_ok hrest₁
  obtain ⟨wt₁, hwt₁, ht₁, hm₁, hend₁⟩ := tests_nullTests hnull₁
  obtain ⟨wt₂, hwt₂, ht₂, hm₂, hend₂⟩ := tests_nullTests hnull₂
  rcases ht₁.last with hnil₁ | ⟨v₁, negated₁, hv₁⟩
  · -- no test after the operand: the run, then the tests after it
    obtain rfl := List.map_eq_nil_iff.mp hnil₁
    obtain rfl := ht₁.eq_of_nil rfl
    have hc₂ : c₁.next? = c₂.next? := next?_congr hwt₁
    obtain ⟨ws₁, hws₁, hchain, hbm, his⟩ := chain_infixes hsub hinf k (hc₁.of_rest hwt₁)
      (hc₂ ▸ hbelow) (hc₂ ▸ hnis)
    have hrest : c.rest = ws₀ ++ ws₁ ++ wt₂ ++ c'.rest := by
      rw [hws₀, hwt₁, hws₁, hwt₂]
      simp
    rcases ht₂.last with hnil₂ | ⟨v₂, negated₂, hv₂⟩
    · obtain rfl := List.map_eq_nil_iff.mp hnil₂
      obtain rfl := ht₂.eq_of_nil rfl
      refine ⟨ws₀ ++ ws₁, by simpa using hrest, by simpa using hchain.derives hfirst hmk, ?_,
        hend₂⟩
      rwa [← next?_congr (by simpa using hwt₂)]
    · obtain ⟨hne, w', hw'⟩ := ht₂.head_of_last hv₂
      obtain ⟨hk4, hchain4⟩ := his (next?_of_rest hwt₂ hw')
      have hm4 := hm₂.resolve_left hne
      have hd := (hchain4.derives hfirst hk4).tests ht₂
      refine ⟨ws₀ ++ ws₁ ++ wt₂, hrest, by simpa using hd.lift_le hm4, ?_, hend₂⟩
      exact (hc₁.of_rest hwt₁).of_rest hws₁ |>.below hwt₂ hv₂ m
  · -- tests after the operand: no operator may follow them, so the level ends there
    obtain ⟨hne, w', hw'⟩ := ht₁.head_of_last hv₁
    have hm4 := hm₁.resolve_left hne
    have hk4 : isNullPower ≤ k := Nat.not_lt.mp fun hk => hnis hk (next?_of_rest hwt₁ hw')
    have hb₂ : ∀ p, Below p c₂.next? := hc₁.below hwt₁ hv₁
    obtain ⟨ws₁, hws₁, hchain, -, -⟩ := chain_infixes hsub hinf isNullPower (hc₁.of_rest hwt₁)
      (hb₂ _) fun h => absurd h (Nat.lt_irrefl _)
    obtain rfl : ws₁ = [] := by
      rcases hchain.head with h | ⟨u, w'', op, q, hu, hop, -⟩
      · exact List.map_eq_nil_iff.mp h
      · have := hb₂ 0
        rw [next?_of_rest hws₁ hu] at this
        simp [Below, hop, atLeast, Option.filter] at this
    obtain rfl := hchain.eq_of_nil rfl
    have hc₃ : c₂.next? = c₃.next? := next?_congr (by simpa using hws₁)
    obtain rfl : wt₂ = [] := by
      rcases ht₂.head with h | ⟨w'', h⟩
      · exact List.map_eq_nil_iff.mp h
      · exact absurd (hc₃ ▸ next?_of_rest hwt₂ h) (hend₁ hm4)
    obtain rfl := ht₂.eq_of_nil rfl
    have hd := (hfirst.lift_le hk4).tests ht₁
    refine ⟨ws₀ ++ wt₁, by rw [hws₀, hwt₁, hws₁, hwt₂]; simp, by simpa using hd.lift_le hm4, ?_,
      ?_⟩
    · have hc' : c₂.next? = c'.next? := hc₃.trans (next?_congr (by simpa using hwt₂))
      exact hc' ▸ hb₂ m
    · intro _
      rw [← next?_congr (by simpa using hwt₂), ← hc₃]
      exact hend₁ hm4

end Operands

/-- Where no null test is followed by a binary operator, what the expression parser at depth
`d` reads the grammar derives at the level asked for, nested no deeper than the `maxDepth - d`
levels left. The induction is on the levels left: each level reads its operands with the parser
one level deeper. -/
theorem expressionAt_derived :
    ∀ (n d m : Nat), maxDepth - d = n → m ≤ atomPower → Derived n m (expressionAt d m)
  | 0, d, m, hd, _ => by
      intro c e c' h _
      rw [expressionAt, dif_pos (by omega), run_expected] at h
      cases h
  | n + 1, d, m, hd, hm => by
      intro c e c' h hc
      rw [expressionAt, dif_neg (by omega)] at h
      exact operators_derived (fun q hq => expressionAt_derived n (d + 1) q (by omega) hq) hm
        c e c' h hc

end SqlDdl.Precedence
