import SqlDdl.Proofs.Precedence
import SqlDdl.Proofs.Reads
import SqlDdl.Proofs.ExprSteps

/-!
# The parser reads every expression of the grammar

Where no null test is directly followed by a binary operator (`TestsLast`), the expression parser
reads each expression the grammar derives, and stops right after it, before anything that cannot
continue it (`Closes`): a token that is no binary operator at least as tight as the level, no
`IS` where the level takes null tests, and no `(` or `.`, which would continue a name
(`reads_expressionAt`). It fails only when the derivation nests deeper than the levels the
parser has left. Before any rest at all it reads at least the expression or fails, which is
what makes what it reads the longest expression at the front of its input.

The proof reads the derivation the parser's way (`Derives.flat`): a first operand, then a run of
binary operators, each read by one round of the parser's loop, then the null tests. It is by
induction on the nesting: every operand read one level deeper is read by the induction
hypothesis.
-/

namespace SqlDdl.Precedence

open Grammar

/-- Whether `t`, after an expression of the level of power `m`, would be read as part of it: a
binary operator that binds at least as tight, `IS` where the level takes null tests, or `(` and
`.`, which continue a name. -/
def continues (m : Nat) (t : Token) : Bool :=
  (atLeast m (infixOp? t)).isSome || (t == .keyword .is && decide (m ≤ isNullPower)) ||
    t == .openParen || t == .period

/-- What may follow an expression of the level of power `m`: the end, or a token that does not
continue it. -/
def Closes (m : Nat) : Option Token → Prop
  | none => True
  | some t => continues m t = false

theorem continues_iff {m : Nat} {t : Token} :
    continues m t = true ↔ (∃ op q, infixOp? t = some (op, q) ∧ m ≤ q) ∨
      (t = .keyword .is ∧ m ≤ isNullPower) ∨ t = .openParen ∨ t = .period := by
  cases hi : infixOp? t with
  | none => simp [continues, atLeast, hi, or_assoc]
  | some x =>
      obtain ⟨op, q⟩ := x
      simp [continues, atLeast, hi, Option.filter, or_assoc]

/-- A binary operator looser than the level closes an expression of it. -/
theorem closes_of_infixOp {t : Token} {op : BinaryOp} {q m : Nat} (ht : infixOp? t = some (op, q))
    (hq : q < m) : Closes m (some t) := by
  show continues m t = false
  rw [Bool.eq_false_iff]
  intro h
  rcases continues_iff.mp h with ⟨op', q', ht', hm⟩ | ⟨rfl, -⟩ | rfl | rfl
  · rw [ht] at ht'
    cases ht'
    omega
  all_goals cases ht

theorem closes_mono {m m' : Nat} (h : m ≤ m') : ∀ {x}, Closes m x → Closes m' x
  | none, _ => trivial
  | some t, hx => by
      show continues m' t = false
      rw [Bool.eq_false_iff]
      intro h'
      apply Bool.eq_false_iff.mp hx
      rcases continues_iff.mp h' with ⟨op, q, ht, hq⟩ | ⟨rfl, hm'⟩ | ht
      · exact continues_iff.mpr (.inl ⟨op, q, ht, Nat.le_trans h hq⟩)
      · exact continues_iff.mpr (.inr (.inl ⟨rfl, Nat.le_trans h hm'⟩))
      · exact continues_iff.mpr (.inr (.inr ht))

/-- `IS` closes exactly the levels tighter than null tests. -/
theorem closes_is_iff {m : Nat} : Closes m (some (.keyword .is)) ↔ isNullPower < m := by
  show continues m _ = false ↔ _
  rw [Bool.eq_false_iff, Ne, continues_iff]
  simp [infixOp?]

theorem Closes.not_call {m : Nat} :
    ∀ {x}, Closes m x → x ≠ some .openParen ∧ x ≠ some .period
  | none, _ => ⟨(Option.some_ne_none _).symm, (Option.some_ne_none _).symm⟩
  | some t, hx => by
      refine ⟨?_, ?_⟩ <;> rintro ⟨⟩
      · exact Bool.eq_false_iff.mp hx (continues_iff.mpr (.inr (.inr (.inl rfl))))
      · exact Bool.eq_false_iff.mp hx (continues_iff.mpr (.inr (.inr (.inr rfl))))

/-- No binary operator of the level comes next where an expression of it is closed. -/
theorem Closes.atLeast_none {m : Nat} {u : Token} (h : Closes m (some u)) :
    atLeast m (infixOp? u) = none := by
  cases hi : infixOp? u with
  | none => rfl
  | some x =>
      obtain ⟨op, q⟩ := x
      have hq : ¬ m ≤ q := fun hq =>
        Bool.eq_false_iff.mp h (continues_iff.mpr (.inl ⟨op, q, hi, hq⟩))
      simp [atLeast, Option.filter, hq]

theorem closes_comma (m : Nat) : Closes m (some .comma) := by
  simp [Closes, continues, infixOp?, atLeast]

theorem closes_closeParen (m : Nat) : Closes m (some .closeParen) := by
  simp [Closes, continues, infixOp?, atLeast]

/-! ## How expressions start -/

theorem Token.head_of_name {t : Token} {c : String} (h : t.name? = some c) :
    prefixOp? t = none ∧ t ≠ .closeParen := by
  cases t <;> simp [Token.name?] at h <;> exact ⟨rfl, by simp⟩

theorem Atom.head {n : Nat} {w : List Token} {e : Expr} :
    Atom n w e → ∃ t w', w = t :: w' ∧ prefixOp? t = none ∧ t ≠ .closeParen
  | .all => ⟨_, _, rfl, rfl, by simp⟩
  | .number _ => ⟨_, _, rfl, rfl, by simp⟩
  | .string => ⟨_, _, rfl, rfl, by simp⟩
  | .true => ⟨_, _, rfl, rfl, by simp⟩
  | .false => ⟨_, _, rfl, rfl, by simp⟩
  | .null => ⟨_, _, rfl, rfl, by simp⟩
  | .column h => ⟨_, _, rfl, Token.head_of_name h⟩
  | .qualified h _ => ⟨_, _, rfl, Token.head_of_name h⟩
  | .call h _ => ⟨_, _, rfl, Token.head_of_name h⟩
  | .paren _ => ⟨_, _, rfl, rfl, by simp⟩

theorem Derives.head {n p : Nat} {w : List Token} {e : Expr} :
    Derives n p w e → ∃ t w', w = t :: w' ∧ t ≠ .closeParen
  | .lift h => h.head
  | .binary _ h₁ _ => by
      obtain ⟨t, w', rfl, ht⟩ := h₁.head
      exact ⟨t, _, rfl, ht⟩
  | .unary ht _ => ⟨_, _, rfl, by rintro rfl; cases ht⟩
  | .isNull h => by
      obtain ⟨t, w', rfl, ht⟩ := h.head
      exact ⟨t, _, rfl, ht⟩
  | .isNotNull h => by
      obtain ⟨t, w', rfl, ht⟩ := h.head
      exact ⟨t, _, rfl, ht⟩
  | .atom h => by
      obtain ⟨t, w', rfl, -, ht⟩ := h.head
      exact ⟨t, w', rfl, ht⟩

/-- A run of binary operators is empty or starts with an operator no tighter than its bound. -/
theorem Chain.head {n m k : Nat} {lhs e : Expr} {w : List Token} :
    Chain n m k lhs w e →
      w = [] ∨ ∃ t w' op q, w = t :: w' ∧ infixOp? t = some (op, q) ∧ q ≤ k
  | .done => .inl rfl
  | .step ht _ hqk _ _ => .inr ⟨_, _, _, _, rfl, ht, hqk⟩

/-- A call's arguments go on to the `)` at least. -/
theorem Args.head {n : Nat} {later : Bool} {w : List Token} {es : List Expr} :
    Args n later w es → ∃ t w', w = t :: w'
  | .close => ⟨_, _, rfl⟩
  | .arg hd _ => by
      obtain ⟨t, w', rfl, -⟩ := hd.head
      cases later <;> exact ⟨_, _, rfl⟩

theorem map_token_eq_cons {ws : List Spanned} {t : Token} {w : List Token}
    (h : ws.map Spanned.token = t :: w) :
    ∃ off ws', ws = ⟨t, off⟩ :: ws' ∧ ws'.map Spanned.token = w := by
  obtain ⟨⟨t', off⟩, ws', rfl, rfl, hws'⟩ := List.map_eq_cons_iff.mp h
  exact ⟨off, ws', rfl, hws'⟩

/-- No binary operator binds at the bound a first operand leaves, the power of its prefix
operator or of atoms: one no looser than the bound is looser. -/
theorem Primary.infix_lt {N m k q : Nat} {w : List Token} {e : Expr} {u : Token} {op : BinaryOp}
    (hp : Primary N m w e k) (hu : infixOp? u = some (op, q)) (hq : q ≤ k) : q < k := by
  have hpow := infixOp_power hu
  cases hp with
  | atom => simp only [atomPower] at hq ⊢; omega
  | unary ht => rcases prefixOp_power ht with rfl | rfl <;> omega

/-- After an operand that a run of binary operators continues comes the run's first operator,
or, when the run is empty, what follows the run. -/
theorem Chain.follows {n m k : Nat} {lhs e : Expr} {w : List Token} {ws : List Spanned}
    {F G : Option Token → Prop} (hc : Chain n m k lhs w e) (hws : ws.map Spanned.token = w)
    (hF : ∀ x, F x → G x) (hop : ∀ {u op q}, infixOp? u = some (op, q) → q ≤ k → G (some u)) :
    (∀ rs stop, Follows F rs stop → Follows G (ws ++ rs) stop) ∧
      (ws = [] ∨ ∀ rs stop, Follows G (ws ++ rs) stop) := by
  rcases hc.head with rfl | ⟨u, w', op, q, rfl, hu, hq⟩
  · obtain rfl := List.map_eq_nil_iff.mp hws
    exact ⟨fun rs stop hf => hf.mono hF, .inl rfl⟩
  · obtain ⟨off, ws', rfl, -⟩ := map_token_eq_cons hws
    exact ⟨fun _ _ _ => hop hu hq, .inr fun _ _ => hop hu hq⟩

/-- A run of null tests that is not empty is followed by what starts with `IS`. -/
theorem Tests.follows {e e' : Expr} {w : List Token} {ws : List Spanned} (ht : Tests e w e')
    (hws : ws.map Spanned.token = w) (hne : w ≠ []) :
    ∀ rs stop, Follows (· = some (.keyword .is)) (ws ++ rs) stop := by
  rcases ht.head with rfl | ⟨w', rfl⟩
  · exact absurd rfl hne
  · obtain ⟨off, ws', rfl, -⟩ := map_token_eq_cons hws
    exact fun _ _ => rfl

theorem Chain.eq_of_nil {n m k : Nat} {lhs e : Expr} {w : List Token} (hc : Chain n m k lhs w e)
    (hw : w = []) : e = lhs := by
  cases hc with
  | done => rfl
  | step => simp at hw

/-! ## Reading the parts of a level -/

section Reading

variable {F : Option Token → Prop} {deep : Prop}

/-- No null test is read before a token that is no `IS`, or an `IS` the level does not take. -/
theorem reads_nullTests (m : Nat) (e : Expr)
    (hF : ∀ x, F x → x = some (.keyword .is) → isNullPower < m) :
    Reads (nullTests m e) [] e F deep := by
  refine reads_nil (monotone_of_sound fun _ => sound_nullTests m e) fun rs stop hf => ?_
  obtain ⟨x, hpeek, -, hx⟩ := Cursor.peek_of_follows hf
  unfold nullTests
  rw [run_loop, run_bind]
  unfold nullTest?
  rw [run_bind, run_peek, hpeek]
  by_cases his : x = some (.keyword .is)
  · simp [his, hF x hx his]
  · simp [his]

theorem run_nullTest_testTokens {m : Nat} (hm : m ≤ isNullPower) (negated : Bool)
    {ws : List Spanned} (hws : ws.map Spanned.token = testTokens negated) (rs : List Spanned)
    (stop : StreamEnd) :
    (nullTest? m).run (.ofTokens (ws ++ rs) stop) = .ok (some negated, .ofTokens rs stop) := by
  have hlt : ¬ isNullPower < m := by omega
  cases negated
  · obtain ⟨o₁, ws₁, rfl, hws₁⟩ := map_token_eq_cons hws
    obtain ⟨o₂, ws₂, rfl, hws₂⟩ := map_token_eq_cons hws₁
    obtain rfl := List.map_eq_nil_iff.mp hws₂
    simp [nullTest?, run_bind, run_peek, Cursor.peek, Cursor.ofTokens, hlt, expect, run_takeIf,
      Cursor.next?]
    rfl
  · obtain ⟨o₁, ws₁, rfl, hws₁⟩ := map_token_eq_cons hws
    obtain ⟨o₂, ws₂, rfl, hws₂⟩ := map_token_eq_cons hws₁
    obtain ⟨o₃, ws₃, rfl, hws₃⟩ := map_token_eq_cons hws₂
    obtain rfl := List.map_eq_nil_iff.mp hws₃
    simp [nullTest?, run_bind, run_peek, Cursor.peek, Cursor.ofTokens, hlt, expect, run_takeIf,
      Cursor.next?]
    rfl

/-- A run of null tests is read whole at a level that takes them, before what is no `IS`. The
induction is on the run, one round of the loop of `nullTests` for each test. -/
theorem reads_tests {m : Nat} (hm : m ≤ isNullPower) (hF : ∀ x, F x → x ≠ some (.keyword .is))
    {e e' : Expr} {w : List Token} (ht : Tests e w e') :
    ∀ ws : List Spanned, ws.map Spanned.token = w → Reads (nullTests m e) ws e' F deep := by
  induction ht with
  | done =>
      intro ws hws
      obtain rfl := List.map_eq_nil_iff.mp hws
      exact reads_nullTests m _ fun x hx his => absurd his (hF x hx)
  | test negated _ ih =>
      intro ws hws
      obtain ⟨wst, wsr, rfl, hwst, hwsr⟩ := List.map_eq_append_iff.mp hws
      have hrest := ih wsr hwsr
      obtain ⟨t, wst', rfl⟩ : ∃ t wst', wst = t :: wst' := by
        cases wst with
        | nil => cases negated <;> simp [testTokens] at hwst
        | cons t wst' => exact ⟨t, wst', rfl⟩
      unfold nullTests at hrest ⊢
      refine Reads.loop_step (reads_of_run fun rs stop => ?_) hrest
        (fun _ _ hf => follows_any _ hf) ?_ ?_
      · rw [run_bind, run_nullTest_testTokens hm negated hwst]
        rfl
      · cases wsr with
        | nil => exact .inl rfl
        | cons => exact .inr fun _ _ => trivial
      · exact fun _ => monotone_of_sound fun s => ((soundness s _).holds_nullTest m).bind fun r => by
          cases r <;> exact sound_pure _

/-- At a level that takes null tests, what closes the level is no `IS`, so a run of tests is read
before it. -/
theorem reads_tests_closes {m : Nat} (hm : m ≤ isNullPower) {e e' : Expr} {w : List Token}
    (ht : Tests e w e') (ws : List Spanned) (hws : ws.map Spanned.token = w) :
    Reads (nullTests m e) ws e' (Closes m) deep :=
  reads_tests hm (fun _ hx his => absurd (closes_is_iff.mp (his ▸ hx)) (Nat.not_lt.mpr hm)) ht
    ws hws

/-- The arguments of a call, read by any repetition whose round reads the `)` and finishes, or
reads one more argument, after a comma unless it is the first. The state of the repetition is
the arguments read so far, last first. -/
theorem reads_args {n : Nat} {round : List Expr → Grammar (List Expr ⊕ List Expr)}
    (hround : ∀ acc, Monotone (round acc))
    (hclose : ∀ acc (t : Spanned), t.token = .closeParen →
      Reads (round acc) [t] (.inl acc.reverse) F deep)
    (harg : ∀ acc w e (sep ws : List Spanned), Derives n 0 w e → ws.map Spanned.token = w →
      TestsLast w → sep.map Spanned.token = (if acc.isEmpty then [] else [.comma]) →
      Reads (round acc) (sep ++ ws) (.inr (e :: acc)) (Closes 0) deep) :
    ∀ {later : Bool} {w : List Token} {es : List Expr}, Args n later w es →
      ∀ (acc : List Expr), later = !acc.isEmpty → ∀ ws : List Spanned,
        ws.map Spanned.token = w → TestsLast w →
          Reads (loop round List.reverse acc) ws (acc.reverse ++ es) F deep
  | _, _, _, .close, acc, _, ws, hws, _ => by
      obtain ⟨off, ws', rfl, hws'⟩ := map_token_eq_cons hws
      obtain rfl := List.map_eq_nil_iff.mp hws'
      simpa using reads_loop_finish (hclose acc _ rfl) hround
  | later, _, _, @Args.arg _ _ w wr e es hd hrest, acc, hlater, ws, hws, hfree => by
      obtain ⟨ws₀, wsr, rfl, hws₀, hwsr⟩ := List.map_eq_append_iff.mp hws
      obtain ⟨sep, wsa, rfl, hsep, hwsa⟩ := List.map_eq_append_iff.mp hws₀
      have hfree' : TestsLast w ∧ TestsLast wr := ⟨hfree.left.right, hfree.right⟩
      have hsep' : sep.map Spanned.token = (if acc.isEmpty then [] else [.comma]) := by
        rw [hsep, hlater]
        cases acc.isEmpty <;> rfl
      have hmore := reads_args hround hclose harg hrest (e :: acc) rfl wsr hwsr hfree'.2
      have hafter : ∃ u wsr', wsr = u :: wsr' ∧ Closes 0 (some u.token) := by
        cases hrest with
        | close =>
            obtain ⟨off, _, rfl, -⟩ := map_token_eq_cons hwsr
            exact ⟨_, _, rfl, closes_closeParen 0⟩
        | arg _ _ =>
            obtain ⟨off, _, rfl, -⟩ := map_token_eq_cons hwsr
            exact ⟨_, _, rfl, closes_comma 0⟩
      obtain ⟨u, wsr', rfl, hu⟩ := hafter
      obtain ⟨t, ws₁, hsplit⟩ : ∃ t ws₁, sep ++ wsa = t :: ws₁ := by
        obtain ⟨_, _, hw, -⟩ := hd.head
        rw [← hwsa] at hw
        obtain ⟨off, wsa', rfl, -⟩ := map_token_eq_cons hw
        cases sep with
        | nil => exact ⟨_, _, rfl⟩
        | cons c sep' => exact ⟨c, sep' ++ _, rfl⟩
      have hstep := harg acc w e sep wsa hd hwsa hfree'.1 hsep'
      rw [hsplit] at hstep
      have hloop := hstep.loop_step hmore (fun _ _ _ => hu) (.inr fun _ _ => hu) hround
      rw [← hsplit] at hloop
      simpa [List.append_assoc] using hloop

end Reading

/-- After a name, an atom is a call, a qualified column or a column. -/
theorem run_atom_name (sub : Nat → Grammar Expr) {t : Spanned} {c : String}
    (h : t.token.name? = some c) (rs : List Spanned) (stop : StreamEnd) :
    (atom sub).run (Cursor.ofTokens (t :: rs) stop) = (do
      if ← takeIf .openParen then return Expr.function c (← callArguments sub)
      else if ← takeIf .period then return .column (some c) (← expectName "column name")
      else return .column none c).run (Cursor.ofTokens rs stop) := by
  obtain ⟨tok, off⟩ := t
  cases tok <;> simp only [Token.name?, reduceCtorEq, Option.some.injEq] at h <;> subst h <;>
    simp only [atom, liftM_self, run_bind, run_peek, run_offset, takeAny, run_takeMap,
      Cursor.peek, Cursor.ofTokens] <;> rfl

theorem run_atom_openParen (sub : Nat → Grammar Expr) (off : Nat) (rs : List Spanned)
    (stop : StreamEnd) :
    (atom sub).run (Cursor.ofTokens (⟨.openParen, off⟩ :: rs) stop) = (do
      let e ← sub 0
      expect .closeParen
      return e).run (Cursor.ofTokens rs stop) := by
  simp only [atom, liftM_self, run_bind, run_peek, run_offset, takeAny, run_takeMap,
    Cursor.peek, Cursor.ofTokens]
  rfl

section Operands

variable {n : Nat} {sub : Nat → Grammar Expr} {F : Option Token → Prop} {deep : Prop}
  (hsub : ∀ p w e (ws : List Spanned), Derives n p w e → ws.map Spanned.token = w →
    TestsLast w → Reads (sub p) ws e (Closes p) deep)
  (hsound : ∀ p (s : TokenStream), Sound s (fun _ => False) (sub p))
include hsub hsound

/-- A run of binary operators of power at least `j` is read by the rounds of a loop that each
look for an operator of power at least `m` and, when there is one, read its right operand one
level tighter; the loop stops before what follows the run, which closes the right operands and
starts no operator the loop takes. The round is given by what it does after looking, as the
parser's is. -/
theorem reads_infix_rounds {m j k : Nat} (hmj : m ≤ j)
    {f : Expr → Option (BinaryOp × Nat) → Grammar (Expr ⊕ Expr)}
    (hnone : ∀ lhs, f lhs none = pure (.inl lhs))
    (hsome : ∀ lhs op q, f lhs (some (op, q)) =
      sub (q + 1) >>= fun rhs => pure (.inr (.binary op lhs rhs)))
    (hF : ∀ x, F x → Closes (j + 1) x ∧ ∀ u, x = some u → atLeast m (infixOp? u) = none)
    {lhs e : Expr} {w : List Token} (hc : Chain n j k lhs w e) :
    ∀ ws : List Spanned, ws.map Spanned.token = w → TestsLast w →
      Reads (loop (fun lhs => takeMap (atLeast m ∘ infixOp?) >>= f lhs) id lhs) ws e F deep := by
  have hcont : ∀ lhs x, Monotone (f lhs x) := by
    intro lhs x
    rcases x with _ | ⟨op, q⟩
    · rw [hnone]
      exact monotone_pure _
    · rw [hsome]
      exact (monotone_of_sound (hsound _)).bind fun _ => monotone_pure _
  have hround : ∀ lhs, Monotone (takeMap (atLeast m ∘ infixOp?) >>= f lhs) :=
    fun lhs => (monotone_takeMap _).bind (hcont lhs)
  induction hc with
  | done =>
      intro ws hws _
      obtain rfl := List.map_eq_nil_iff.mp hws
      refine reads_loop_finish ?_ hround
      refine (reads_takeMap_none fun u hu => (hF _ hu).2 u rfl).bind_nil ?_ (fun _ h => h)
        (hcont _)
      rw [hnone]
      exact reads_pure _
  | @step k q t op lhs r e w ws' ht hjq hqk hr hc ih =>
      intro ws hws hfree
      obtain ⟨tt, ws₀, rfl, htt, hws₀⟩ := List.map_eq_cons_iff.mp hws
      obtain ⟨wsr, wsc, rfl, hwsr, hwsc⟩ := List.map_eq_append_iff.mp hws₀
      obtain ⟨u, wsr', rfl⟩ : ∃ u wsr', wsr = u :: wsr' := by
        obtain ⟨_, _, hw, -⟩ := hr.head
        rw [← hwsr] at hw
        obtain ⟨u, wsr', rfl, -, -⟩ := List.map_eq_cons_iff.mp hw
        exact ⟨u, wsr', rfl⟩
      obtain ⟨hnext, hstart⟩ := hc.follows hwsc
        (fun x hx => closes_mono (Nat.succ_le_succ hjq) (hF x hx).1)
        fun hu hq' => closes_of_infixOp hu (Nat.lt_succ_of_le hq')
      refine Reads.loop_step ?_ (ih wsc hwsc hfree.tail.right) hnext hstart hround
      · have hop : (atLeast m ∘ infixOp?) tt.token = some (op, q) := by
          simp [htt, ht, atLeast, Option.filter, Nat.le_trans hmj hjq]
        have htake : Reads (takeMap (atLeast m ∘ infixOp?)) [tt] (some (op, q)) (fun _ => True)
            deep := reads_takeMap hop
        refine htake.bind_cons ?_ trivial
        rw [hsome]
        exact (hsub (q + 1) w r _ hr hwsr hfree.tail.left).bind_nil (reads_pure _) (fun _ h => h)
          (fun _ => monotone_pure _)

theorem reads_infixes {m j k : Nat} (hmj : m ≤ j)
    (hF : ∀ x, F x → Closes (j + 1) x ∧ ∀ u, x = some u → atLeast m (infixOp? u) = none)
    {lhs e : Expr} {w : List Token} (hc : Chain n j k lhs w e) :
    ∀ ws : List Spanned, ws.map Spanned.token = w → TestsLast w →
      Reads (infixes sub m lhs) ws e F deep := by
  unfold infixes
  exact reads_infix_rounds hsub hsound hmj (fun _ => rfl) (fun _ _ _ => rfl) hF hc

theorem reads_callArguments {w : List Token} {es : List Expr} (hargs : Args n false w es)
    (ws : List Spanned) (hws : ws.map Spanned.token = w) (hfree : TestsLast w) :
    Reads (callArguments sub) ws es F deep := by
  unfold callArguments
  refine reads_args ?_ ?_ ?_ hargs [] rfl ws hws hfree
  · intro acc
    refine (monotone_of_sound fun _ => sound_takeIf _).bind fun b => ?_
    split
    · exact monotone_pure _
    · dsimp only
      split
      · exact (monotone_of_sound fun _ => sound_expect _).bind fun _ =>
          (monotone_of_sound (hsound 0)).bind fun _ => monotone_pure _
      · exact (monotone_of_sound (hsound 0)).bind fun _ => monotone_pure _
  · intro acc t ht
    exact reads_cons (fun rs stop => by simp [takeIf, run_bind, run_takeMap, ht]) (reads_pure _)
  · intro acc w e sep ws hd hws hfree hsep
    obtain ⟨u, w', hw, hu⟩ := hd.head
    rw [hw] at hws
    obtain ⟨off, ws', rfl, -⟩ := map_token_eq_cons hws
    rw [← hw] at hws
    have harg : Reads (sub 0 >>= fun arg => pure (Sum.inr (arg :: acc) : List Expr ⊕ List Expr))
        (⟨u, off⟩ :: ws') (.inr (e :: acc)) (Closes 0) deep :=
      (hsub 0 w e _ hd hws hfree).bind_nil (reads_pure _) (fun _ h => h) fun _ => monotone_pure _
    have hnotClose : Reads (takeIf .closeParen) [] false (fun x => x ≠ some .closeParen) deep :=
      reads_takeIf_false fun _ h => h
    cases acc with
    | nil =>
        obtain rfl := List.map_eq_nil_iff.mp hsep
        exact hnotClose.bind_cons harg (by simpa using hu)
    | cons a acc' =>
        obtain ⟨c, hc⟩ : ∃ c : Spanned, sep = [c] ∧ c.token = .comma := by
          obtain ⟨c, sep', rfl, hc, hsep'⟩ := List.map_eq_cons_iff.mp hsep
          exact ⟨c, by rw [List.map_eq_nil_iff.mp hsep'], hc⟩
        obtain ⟨rfl, hc⟩ := hc
        have hcomma : Reads (expect .comma) [c] () (fun _ => True) deep := reads_expect hc
        refine hnotClose.bind_cons (hcomma.bind_cons harg trivial) ?_
        simp [hc]

/-- An atom is read whole, before anything that does not continue a name. -/
theorem reads_atom {w : List Token} {e : Expr} (ha : Atom (n + 1) w e) (ws : List Spanned)
    (hws : ws.map Spanned.token = w) (hfree : TestsLast w)
    (hF : ∀ x, F x → x ≠ some .openParen ∧ x ≠ some .period) :
    Reads (atom sub) ws e F deep := by
  cases ha
  case number s l hl =>
    obtain ⟨off, ws', rfl, hws'⟩ := map_token_eq_cons hws
    obtain rfl := List.map_eq_nil_iff.mp hws'
    refine reads_cons (fun rs stop => ?_) (reads_pure _)
    simp only [atom, liftM_self, run_bind, run_peek, run_offset, takeAny, run_takeMap, Cursor.peek,
      Cursor.ofTokens, hl]
    rfl
  case column t c h =>
    obtain ⟨off, ws', rfl, hws'⟩ := map_token_eq_cons hws
    obtain rfl := List.map_eq_nil_iff.mp hws'
    refine reads_cons (run_atom_name sub h) ?_
    refine reads_nil (monotone_of_sound fun s => sound_afterName (fun p => hsound p s) _)
      fun rs stop hf => ?_
    obtain ⟨x, -, hnext, hx⟩ := Cursor.peek_of_follows hf
    simp [run_bind, run_takeIf, hnext, (hF x hx).1, (hF x hx).2]
  case qualified t u table c h hu =>
    obtain ⟨o₁, ws₁, rfl, hws₁⟩ := map_token_eq_cons hws
    obtain ⟨o₂, ws₂, rfl, hws₂⟩ := map_token_eq_cons hws₁
    obtain ⟨o₃, ws₃, rfl, hws₃⟩ := map_token_eq_cons hws₂
    obtain rfl := List.map_eq_nil_iff.mp hws₃
    refine reads_cons (run_atom_name sub h) ?_
    have hnotParen : Reads (takeIf .openParen) [] false (fun x => x ≠ some .openParen) deep :=
      reads_takeIf_false fun _ h => h
    have hperiod : Reads (takeIf .period) [⟨.period, o₂⟩] true (fun _ => True) deep :=
      reads_takeIf rfl
    have hname : Reads (expectName "column name" >>= fun c' => pure (Expr.column (some table) c'))
        [⟨u, o₃⟩] (.column (some table) c) F deep :=
      (reads_expectName _ hu).bind_nil (reads_pure _) (fun _ h => h) fun _ => monotone_pure _
    exact hnotParen.bind_cons (hperiod.bind_cons hname trivial) (by simp)
  case call t f w args h hargs =>
    obtain ⟨o₁, ws₁, rfl, hws₁⟩ := map_token_eq_cons hws
    obtain ⟨o₂, wsa, rfl, hwsa⟩ := map_token_eq_cons hws₁
    refine reads_cons (run_atom_name sub h) ?_
    have hopen : Reads (takeIf .openParen) [⟨.openParen, o₂⟩] true (fun _ => True) deep :=
      reads_takeIf rfl
    have hargs' : Reads (callArguments sub >>= fun args => pure (Expr.function f args)) wsa
        (.function f args) F deep :=
      (reads_callArguments hsub hsound hargs wsa hwsa hfree.tail.tail).bind_nil
        (reads_pure _) (fun _ h => h) fun _ => monotone_pure _
    obtain ⟨a, w', hw⟩ := hargs.head
    rw [hw] at hwsa
    obtain ⟨o₃, wsa', rfl, -⟩ := map_token_eq_cons hwsa
    exact hopen.bind_cons hargs' trivial
  case paren w hd =>
    obtain ⟨o, ws', rfl, hws'⟩ := map_token_eq_cons hws
    obtain ⟨wsi, wsc, rfl, hwsi, hwsc⟩ := List.map_eq_append_iff.mp hws'
    obtain ⟨o', ws'', rfl, hws''⟩ := map_token_eq_cons hwsc
    obtain rfl := List.map_eq_nil_iff.mp hws''
    have hinner := hsub 0 w e wsi hd hwsi hfree.tail.left
    have hexpect : Reads (expect .closeParen) [⟨.closeParen, o'⟩] () (fun _ => True) deep :=
      reads_expect rfl
    have hclose : Reads (expect .closeParen >>= fun _ => pure e) [⟨.closeParen, o'⟩] e F deep :=
      hexpect.bind_nil (reads_pure e) (fun _ _ => trivial) fun _ => monotone_pure _
    exact reads_cons (run_atom_openParen sub o) (hinner.bind_cons hclose (closes_closeParen 0))
  all_goals
    obtain ⟨off, ws', rfl, hws'⟩ := map_token_eq_cons hws
    obtain rfl := List.map_eq_nil_iff.mp hws'
    refine reads_cons (fun rs stop => ?_) (reads_pure _)
    simp only [atom, liftM_self, run_bind, run_peek, run_offset, takeAny, run_takeMap, Cursor.peek,
      Cursor.ofTokens]
    rfl

/-- The run of binary operators after an operand, and the null tests after the run. Without
tests the loop stops before what closes the level; tests need an expression of their level, so
before them the run binds at least as tight as they do and the loop stops before `IS`. -/
theorem reads_runTests {m k : Nat} {lhs e₁ e : Expr} {w₁ w₂ : List Token}
    (hc : Chain n m k lhs w₁ e₁) (ht : Tests e₁ w₂ e)
    (hside : w₂ = [] ∨ m ≤ isNullPower ∧ Chain n isNullPower k lhs w₁ e₁)
    (ws₁ ws₂ : List Spanned) (hws₁ : ws₁.map Spanned.token = w₁)
    (hws₂ : ws₂.map Spanned.token = w₂) (hfree : TestsLast w₁) :
    Reads (infixes sub m lhs >>= fun lhs => nullTests m lhs) (ws₁ ++ ws₂) e (Closes m) deep := by
  have hmono : ∀ a, Monotone (nullTests m a) := fun a =>
    monotone_of_sound fun _ => sound_nullTests m a
  by_cases hw₂ : w₂ = []
  · subst hw₂
    obtain rfl := List.map_eq_nil_iff.mp hws₂
    obtain rfl := ht.eq_of_nil rfl
    have hrun := reads_infixes hsub hsound (Nat.le_refl m)
      (fun x hx => ⟨closes_mono (Nat.le_succ m) hx, fun u hu => (hu ▸ hx).atLeast_none⟩) hc
      ws₁ hws₁ hfree
    simpa using hrun.bind_nil (reads_nullTests m _ fun x hx his => closes_is_iff.mp (his ▸ hx))
      (fun _ h => h) hmono
  · obtain ⟨hm, hc₄⟩ := hside.resolve_left hw₂
    have hrun := reads_infixes hsub hsound hm (F := (· = some (.keyword .is)))
      (fun x hx => ⟨hx ▸ closes_is_iff.mpr (Nat.lt_succ_self _), fun u hu => by
        rw [hx] at hu
        cases hu
        rfl⟩) hc₄ ws₁ hws₁ hfree
    exact hrun.bind (reads_tests_closes hm ht ws₂ hws₂)
      (fun rs stop _ => ht.follows hws₂ hw₂ rs stop) (.inr (ht.follows hws₂ hw₂)) hmono

/-- After a first operand that leaves the bound `k`, a level reads its run of binary operators
and its null tests: right after the operand when the run is empty, after the run otherwise. It
stops before what closes the level, and what it reads, or else what follows the level, closes
the operand. -/
theorem reads_levelTail {m k : Nat} {e₀ e₁ e : Expr} {w₁ w₂ : List Token}
    (hc : Chain n m k e₀ w₁ e₁) (ht : Tests e₁ w₂ e)
    (hside : w₂ = [] ∨ m ≤ isNullPower ∧ isNullPower < k ∧ Chain n isNullPower k e₀ w₁ e₁)
    (hmk : m ≤ k) (hk : ∀ {u op q}, infixOp? u = some (op, q) → q ≤ k → q < k)
    (ws₁ ws₂ : List Spanned) (hws₁ : ws₁.map Spanned.token = w₁)
    (hws₂ : ws₂.map Spanned.token = w₂) (hfree : TestsLast w₁) :
    Reads (nullTests m e₀ >>= fun lhs => infixes sub m lhs >>= fun lhs => nullTests m lhs)
        (ws₁ ++ ws₂) e (Closes m) deep ∧
      (∀ rs stop, Follows (Closes m) rs stop → Follows (Closes k) (ws₁ ++ ws₂ ++ rs) stop) ∧
      (ws₁ ++ ws₂ = [] ∨ ∀ rs stop, Follows (Closes k) (ws₁ ++ ws₂ ++ rs) stop) := by
  have hmono : ∀ a, Monotone (infixes sub m a >>= fun lhs => nullTests m lhs) := fun a =>
    monotone_of_sound fun s => (sound_infixes (fun p => hsound p s) m a).bind fun b =>
      sound_nullTests m b
  -- before the run, the operand is followed by its first operator or by what follows the level
  let G : Option Token → Prop := fun x => Closes k x ∧ (x = some (.keyword .is) → isNullPower < m)
  have hnone : Reads (nullTests m e₀) [] e₀ G deep := reads_nullTests m e₀ fun _ h => h.2
  have hop : ∀ {u op q}, infixOp? u = some (op, q) → q ≤ k → G (some u) := fun hu hq =>
    ⟨closes_of_infixOp hu (hk hu hq), fun h => by cases h; cases hu⟩
  have hrun := reads_runTests hsub hsound hc ht (hside.imp_right fun h => ⟨h.1, h.2.2⟩) ws₁ ws₂
    hws₁ hws₂ hfree
  by_cases hw₂ : w₂ = []
  · subst hw₂
    obtain rfl := List.map_eq_nil_iff.mp hws₂
    obtain ⟨hnext, hstart⟩ := hc.follows hws₁ (G := G)
      (fun x hx => ⟨closes_mono hmk hx, fun his => closes_is_iff.mp (his ▸ hx)⟩) hop
    simp only [List.append_nil] at hrun ⊢
    exact ⟨hnone.bind hrun hnext hstart hmono,
      fun rs stop hf => (hnext rs stop hf).mono fun _ h => h.1,
      hstart.imp_right fun h rs stop => (h rs stop).mono fun _ h => h.1⟩
  obtain ⟨hm, hlt, -⟩ := hside.resolve_left hw₂
  have hfirst : ∀ rs stop, Follows (Closes k) (ws₁ ++ ws₂ ++ rs) stop := by
    intro rs stop
    rw [List.append_assoc]
    exact (hc.follows hws₁ (fun x hx => hx ▸ closes_is_iff.mpr hlt)
      fun hu hq => closes_of_infixOp hu (hk hu hq)).1 _ stop (ht.follows hws₂ hw₂ rs stop)
  refine ⟨?_, fun rs stop _ => hfirst rs stop, .inr hfirst⟩
  cases ws₁ with
  | nil =>
      -- with no operator before them, the tests are read right after the operand
      obtain rfl := hc.eq_of_nil hws₁.symm
      simpa using (reads_tests_closes hm ht ws₂ hws₂).bind_nil
        (reads_runTests hsub hsound (k := k) .done .done (.inl rfl) [] [] rfl rfl testsLast_nil)
        (fun _ h => h) hmono
  | cons u ws₁' =>
      have hstart := (hc.follows hws₁ (F := fun _ => False) (G := G) (fun _ h => h.elim) hop).2
      have hnext := hstart.resolve_left (List.cons_ne_nil _ _)
      -- only the first token matters to what follows
      exact hnone.bind hrun (fun rs stop _ => hnext rs stop) (.inr fun rs stop => hnext rs stop)
        hmono

/-- One level of operators reads an expression derived at its power: the first operand, then
the run of binary operators and the null tests; it stops before what closes the level. -/
theorem reads_operators {m : Nat} {w : List Token} {e : Expr} (hd : Derives (n + 1) m w e)
    (ws : List Spanned) (hws : ws.map Spanned.token = w) (hfree : TestsLast w) :
    Reads (operators sub m) ws e (Closes m) deep := by
  obtain ⟨n', w₀, w₁, w₂, e₀, e₁, k, hn, rfl, hp, hc, ht, hside⟩ := hd.flat hfree
  obtain rfl := Nat.succ.inj hn
  obtain ⟨ws₀₁, ws₂, rfl, hws₀₁, hws₂⟩ := List.map_eq_append_iff.mp hws
  obtain ⟨ws₀, ws₁, rfl, hws₀, hws₁⟩ := List.map_eq_append_iff.mp hws₀₁
  have hfree₀ : TestsLast w₀ := hfree.left.left
  obtain ⟨htail, hnext, hstart⟩ := reads_levelTail hsub hsound hc ht hside hp.derives.1
    (fun hu hq => hp.infix_lt hu hq) ws₁ ws₂ hws₁ hws₂ hfree.left.right
  have htailMono : ∀ a, Monotone (nullTests m a >>= fun lhs =>
      infixes sub m lhs >>= fun lhs => nullTests m lhs) := fun a =>
    monotone_of_sound fun s => (sound_nullTests m a).bind fun b =>
      (sound_infixes (fun p => hsound p s) m b).bind fun c => sound_nullTests m c
  rw [List.append_assoc]
  unfold operators
  cases hp
  case atom hm ha =>
    obtain ⟨t, w', rfl, hpre, -⟩ := ha.head
    obtain ⟨off, ws₀', rfl, -⟩ := map_token_eq_cons hws₀
    have hnoPrefix : Reads (takeMap (atLeast m ∘ prefixOp?)) [] none (fun x => x = some t)
        deep := reads_takeMap_none fun u hu => by
      rw [Option.some.inj hu]
      show atLeast m (prefixOp? t) = none
      rw [hpre]
      rfl
    have hatom := reads_atom hsub hsound ha _ hws₀ hfree₀ fun x (h : Closes atomPower x) =>
      h.not_call
    exact hnoPrefix.bind_cons (hatom.bind htail hnext hstart htailMono) rfl
  case unary t op w' e' ht hd' hmp =>
    obtain ⟨off, wsp, rfl, hwsp⟩ := map_token_eq_cons hws₀
    have hprefix : Reads (takeMap (atLeast m ∘ prefixOp?)) [⟨t, off⟩] (some (op, k))
        (fun _ => True) deep :=
      reads_takeMap (by simp [ht, atLeast, Option.filter, hmp])
    have hoperand := hsub k w' e' wsp hd' hwsp hfree₀.tail
    obtain ⟨u, w'', hw, -⟩ := hd'.head
    rw [hw] at hwsp
    obtain ⟨o, wsp', rfl, -⟩ := map_token_eq_cons hwsp
    exact hprefix.bind_cons (hoperand.bind htail.pure_bind hnext hstart fun a =>
      (monotone_pure _).bind htailMono) trivial

end Operands

/-- Where no null test is directly followed by a binary operator, the expression parser at depth
`d` reads each expression the grammar derives, and stops right after it; it fails only where the
derivation nests deeper than the `maxDepth - d` levels left. The induction is on the nesting:
each level reads its operands with the parser one level deeper. -/
theorem reads_expressionAt :
    ∀ (n d p : Nat) {w : List Token} {e : Expr}, Derives n p w e → ∀ ws : List Spanned,
      ws.map Spanned.token = w → TestsLast w →
        Reads (expressionAt d p) ws e (Closes p) (maxDepth < d + n)
  | 0, _, _, _, _, hd, _, _, _ => nomatch hd
  | n + 1, d, p, w, e, hd, ws, hws, hfree => by
      rw [expressionAt]
      split
      case isTrue hmax =>
        exact reads_of_fails (by omega) fun c => ⟨_, run_expected _ c⟩
      case isFalse =>
        have hsub : ∀ q w e (ws : List Spanned), Derives n q w e → ws.map Spanned.token = w →
            TestsLast w →
            Reads (expressionAt (d + 1) q) ws e (Closes q) (maxDepth < d + (n + 1)) :=
          fun q _ _ ws hd hws hfree =>
            (reads_expressionAt n (d + 1) q hd ws hws hfree).deep_mono fun h => by omega
        exact reads_operators hsub (fun q _ => sound_expressionAt (d + 1) q) hd ws hws hfree

end SqlDdl.Precedence
