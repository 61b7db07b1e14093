import SqlDdl.Proofs.RenderTokens
import SqlDdl.Proofs.Phrases

/-!
# Reading a rendered expression back

The expression rule reads the text of every `renderable` expression back as that expression, and
reads all of it (`expression_reads_render`), when its parentheses and signs nest within the
parser's limit (`Expr.nesting`).

The text is fully parenthesized, so each rendering is read as the first operand of whatever level
reads it: an atom, a parenthesized phrase, or a sign before one (`FirstAt`, `firstAt`). What
follows a rendering inside a larger one is `)`, `,`, a binary operator, `IS`, or the end, and none
of these goes on with it at the power it is read at (`Ends`). The proof is by recursion on the
expression, with the arguments of a call read round by round by the loop of `callArguments`
(`argsAt`).

The law needs all of `renderable`: a quoted name is read whatever its text but written bare, so a
quoted keyword is written as the keyword (`quoted_keyword_reads_back_as_keyword`).
-/

namespace SqlDdl

namespace Expr

mutual

/-- How many levels of the expression parser the text of `e` takes: one for each atom, call, sign
and parenthesis, and two for `(NOT e)`, whose operand is read inside the parenthesis at the power
of `NOT`. The right operand of a binary operator is read one level below its left. -/
def nesting : Expr → Nat
  | .function _ args => 1 + argsNesting args
  | .unary .not e => 2 + nesting e
  | .unary _ e => 1 + nesting e
  | .binary _ l r => 1 + max (nesting l) (1 + nesting r)
  | .isNull e => 1 + nesting e
  | _ => 1

/-- The deepest `nesting` among the arguments of a call. -/
def argsNesting : List Expr → Nat
  | [] => 0
  | e :: es => max (nesting e) (argsNesting es)

end

theorem one_le_nesting (e : Expr) : 1 ≤ e.nesting := by
  unfold nesting
  split <;> omega

end Expr

namespace Literal

theorem digitsValue_snoc (ds : List Char) (c : Char) :
    Binary64.digitsValue (ds ++ [c]) = 10 * Binary64.digitsValue ds + (c.toNat - 48) := by
  simp only [Binary64.digitsValue, List.foldl_append, List.foldl_cons, List.foldl_nil]
  rfl

theorem digitsValue_toDigits (n : Nat) : Binary64.digitsValue (Nat.toDigits 10 n) = n := by
  induction n using Nat.strong_induction_on with
  | _ n ih =>
    rcases Nat.lt_or_ge n 10 with hn | hn
    · rw [Nat.toDigits_of_lt_base hn, ← List.nil_append [_], digitsValue_snoc,
        Nat.toNat_digitChar_sub_48_of_lt_ten hn]
      simp [Binary64.digitsValue]
    · rw [Nat.toDigits_of_base_le (by decide) hn, digitsValue_snoc, ih (n / 10) (by omega),
        Nat.toNat_digitChar_sub_48_of_lt_ten (Nat.mod_lt n (by decide))]
      omega

/-- An integer below 2^63 is read back from its digits. -/
theorem ofNumeral_repr {n : Nat} (hn : n < Nat.pow 2 63) :
    ofNumeral (Nat.repr n) = .ok (.integer n) := by
  have hdigits : (Nat.repr n).toList.all Char.isDigit = true := by
    simp only [Nat.repr, String.toList_ofList, List.all_eq_true]
    exact fun _ hx => Nat.isDigit_of_mem_toDigits (by decide) (by decide) hx
  rw [ofNumeral, if_pos hdigits]
  simp only [Nat.repr, String.toList_ofList, digitsValue_toDigits, if_pos hn]

end Literal

namespace Grammar

open Precedence

/-! ## What ends an expression -/

/-- What may follow an expression read at power `p` and not go on with it: what closes it, or
`IS` where the power admits no null test. -/
def Ends (p : Nat) (x : Option Token) : Prop :=
  Closes p x ∨ (x = some (.keyword .is) ∧ isNullPower < p)

theorem Ends.not_call {p : Nat} {x : Option Token} (h : Ends p x) :
    x ≠ some .openParen ∧ x ≠ some .period := by
  rcases h with h | ⟨rfl, -⟩
  · exact h.not_call
  · exact ⟨by simp, by simp⟩

theorem Ends.nullTest {p : Nat} {x : Option Token} (h : Ends p x) (hx : x = some (.keyword .is)) :
    isNullPower < p := by
  rcases h with h | ⟨-, hp⟩
  · exact closes_is_iff.mp (hx ▸ h)
  · exact hp

theorem Ends.lt_of_infixOp {p q : Nat} {t : Token} {op : BinaryOp} (h : Ends p (some t))
    (ht : infixOp? t = some (op, q)) : q < p := by
  rcases h with h | ⟨hx, -⟩
  · by_contra hq
    exact Bool.eq_false_iff.mp h (continues_iff.mpr (.inl ⟨op, q, ht, by omega⟩))
  · cases hx
    cases ht

theorem Ends.mono {p p' : Nat} (hp : p ≤ p') {x : Option Token} (h : Ends p x) : Ends p' x := by
  rcases h with h | ⟨hx, hlt⟩
  · exact .inl (closes_mono hp h)
  · exact .inr ⟨hx, by omega⟩

theorem ends_none (p : Nat) : Ends p none := .inl trivial

theorem ends_closeParen (p : Nat) : Ends p (some .closeParen) := .inl (closes_closeParen p)

theorem ends_comma (p : Nat) : Ends p (some .comma) := .inl (closes_comma p)

theorem ends_of_infixOp {p q : Nat} {t : Token} {op : BinaryOp} (ht : infixOp? t = some (op, q))
    (hq : q < p) : Ends p (some t) :=
  Or.inl <| closes_of_infixOp ht hq

theorem ends_is {p : Nat} (hp : isNullPower < p) : Ends p (some (.keyword .is)) := .inr ⟨rfl, hp⟩

/-- Each binary operator is read as its token, at a power no tighter than 7. -/
theorem infixOp_token (op : BinaryOp) : ∃ q, infixOp? op.token = some (op, q) ∧ q ≤ 7 := by
  cases op <;> exact ⟨_, rfl, by decide⟩

/-- A binary operator ends its left operand even at the power of a sign. -/
theorem ends_token (op : BinaryOp) : Ends 10 (some op.token) := by
  obtain ⟨q, hq, h7⟩ := infixOp_token op
  exact ends_of_infixOp hq (by omega)

/-! ## One level, operand by operand -/

/-- What a level reads after its first operand: null tests, binary operators, null tests. -/
def levelTail (sub : Nat → Grammar Expr) (minPower : Nat) (first : Expr) : Grammar Expr := do
  let lhs ← nullTests minPower first
  let lhs ← infixes sub minPower lhs
  nullTests minPower lhs

/-- A level reads its first operand, a prefix operator with its operand or an atom, and then its
tail. -/
theorem operators_eq (sub : Nat → Grammar Expr) (p : Nat) :
    operators sub p = takeMap (atLeast p ∘ prefixOp?) >>= fun op? =>
      match op? with
      | some (op, power) => sub power >>= fun x => pure (Expr.unary op x) >>= levelTail sub p
      | none => atom sub >>= levelTail sub p := rfl

section Level

variable {sub : Nat → Grammar Expr} {p : Nat} {e first : Expr} {ws ws₁ ws₂ : List Spanned}
  {F G : Option Token → Prop}

/-- No null test is read before a token that is no `IS`, or an `IS` the power does not admit. -/
theorem accepts_nullTests_none (hF : ∀ x, F x → x = some (.keyword .is) → isNullPower < p) :
    Accepts (nullTests p e) [] e F := by
  intro rs stop hf
  obtain ⟨x, hpeek, -, hx⟩ := Cursor.peek_of_follows hf
  unfold nullTests nullTest?
  rw [List.nil_append, run_loop, run_bind, run_bind, run_peek, hpeek]
  by_cases his : x = some (.keyword .is)
  · have hp := hF x hx his
    simp [his, hp]
  · simp [his]

theorem accepts_infixes_none (hF : ∀ x, F x → Ends p x) : Accepts (infixes sub p e) [] e F := by
  have hnone : Accepts (takeMap (atLeast p ∘ infixOp?)) [] none F := by
    refine accepts_takeMap_none fun u hu => ?_
    cases ht : infixOp? u with
    | none => simp [atLeast, ht]
    | some y =>
        obtain ⟨op, q⟩ := y
        have hq := (hF _ hu).lt_of_infixOp ht
        simp [atLeast, ht, Option.filter]
        omega
  exact accepts_loop_finish (hnone.bind (accepts_pure _) (follows_of_nil fun _ hx => hx))

theorem accepts_levelTail_none (hF : ∀ x, F x → Ends p x) :
    Accepts (levelTail sub p e) [] e F :=
  (accepts_nullTests_none fun x hx => (hF x hx).nullTest).bind
    ((accepts_infixes_none hF).bind (accepts_nullTests_none fun x hx => (hF x hx).nullTest)
      (follows_of_nil fun _ hx => hx))
    (follows_of_nil fun _ hx => hx)

theorem accepts_operators_atom {t : Spanned} (hp : atLeast p (prefixOp? t.token) = none)
    (ha : Accepts (atom sub) (t :: ws₁) first G) (ht : Accepts (levelTail sub p first) ws₂ e F)
    (hGF : ∀ rs stop, Follows F rs stop → Follows G (ws₂ ++ rs) stop) :
    Accepts (operators sub p) (t :: ws₁ ++ ws₂) e F := by
  have hnone : Accepts (takeMap (atLeast p ∘ prefixOp?)) [] none (fun x => x = some t.token) :=
    accepts_takeMap_none fun u hu => by
      cases hu
      exact hp
  rw [operators_eq]
  exact hnone.bind (ha.bind ht hGF) fun _ _ _ => rfl

theorem accepts_operators_prefix {t : Spanned} {op : UnaryOp} {power : Nat} {x : Expr}
    (hp : atLeast p (prefixOp? t.token) = some (op, power)) (hx : Accepts (sub power) ws₁ x G)
    (ht : Accepts (levelTail sub p (.unary op x)) ws₂ e F)
    (hGF : ∀ rs stop, Follows F rs stop → Follows G (ws₂ ++ rs) stop) :
    Accepts (operators sub p) (t :: (ws₁ ++ ws₂)) e F := by
  have hop : Accepts (takeMap (atLeast p ∘ prefixOp?)) [t] (some (op, power))
      (fun _ => True) := accepts_takeMap hp
  rw [operators_eq]
  exact hop.bind (hx.bind ((accepts_pure _).bind ht fun _ _ hf => follows_any _ hf) hGF)
    fun _ _ hf => follows_any _ hf

/-! ## Atoms -/

/-- An atom in parentheses: what `sub 0` reads before the `)`, and the `)`. -/
theorem accepts_atom_paren {o : Nat} {t : Spanned} (ht : t.token = .closeParen)
    (h : Accepts (sub 0) ws e (· = some .closeParen)) :
    Accepts (atom sub) (⟨.openParen, o⟩ :: (ws ++ [t])) e F := by
  intro rs stop hf
  have hclose : Accepts (expect .closeParen >>= fun _ => pure e) ([t] ++ []) e F :=
    (accepts_expect ht).bind (accepts_pure e) (follows_of_nil fun _ hx => hx)
  have hfollows : ∀ rs stop, Follows F rs stop →
      Follows (· = some .closeParen) ([t] ++ [] ++ rs) stop := fun _ _ _ => congrArg some ht
  rw [List.cons_append, run_atom_openParen]
  exact h.bind hclose hfollows rs stop hf

/-- A column, a name that goes on with neither `(` nor `.`. -/
theorem accepts_atom_column {t : Spanned} {c : String} (ht : t.token.name? = some c)
    (hF : ∀ x, F x → x ≠ some .openParen ∧ x ≠ some .period) :
    Accepts (atom sub) [t] (.column none c) F := by
  intro rs stop hf
  have hcol : Accepts (do
      if ← takeIf .openParen then return Expr.function c (← callArguments sub)
      else if ← takeIf .period then return .column (some c) (← expectName "column name")
      else return .column none c) ([] ++ ([] ++ [])) (.column none c) F :=
    (accepts_takeIf_false fun x hx => (hF x hx).1).bind
      ((accepts_takeIf_false fun x hx => (hF x hx).2).bind (accepts_pure _)
        (follows_of_nil fun _ hx => hx))
      (follows_of_nil fun _ hx => hx)
  rw [List.singleton_append, run_atom_name sub ht]
  exact hcol rs stop hf

theorem accepts_atom_qualified {t₁ t₂ t₃ : Spanned} {tb c : String} (h₁ : t₁.token.name? = some tb)
    (h₂ : t₂.token = .period) (h₃ : t₃.token.name? = some c) :
    Accepts (atom sub) [t₁, t₂, t₃] (.column (some tb) c) F := by
  intro rs stop hf
  have hname : Accepts (expectName "column name" >>= fun c => pure (Expr.column (some tb) c))
      ([t₃] ++ []) (.column (some tb) c) F :=
    (accepts_expectName _ h₃).bind (accepts_pure _) (follows_of_nil fun _ hx => hx)
  have hcol : Accepts (do
      if ← takeIf .openParen then return Expr.function tb (← callArguments sub)
      else if ← takeIf .period then return .column (some tb) (← expectName "column name")
      else return .column none tb) ([] ++ ([t₂] ++ ([t₃] ++ []))) (.column (some tb) c) F :=
    (accepts_takeIf_false (F := (· = some t₂.token)) fun x hx => by rw [hx, h₂]; simp).bind
      ((accepts_takeIf h₂).bind hname fun _ _ hf => follows_any _ hf) fun _ _ _ => rfl
  rw [List.cons_append, run_atom_name sub h₁]
  exact hcol rs stop hf

/-- A call: a name, `(`, and its arguments up to and with the `)`. -/
theorem accepts_atom_call {t₁ t₂ : Spanned} {f : String} {args : List Expr}
    (h₁ : t₁.token.name? = some f) (h₂ : t₂.token = .openParen)
    (h : Accepts (callArguments sub) ws args F) :
    Accepts (atom sub) (t₁ :: t₂ :: ws) (.function f args) F := by
  intro rs stop hf
  have hcall : Accepts (do
      if ← takeIf .openParen then return Expr.function f (← callArguments sub)
      else if ← takeIf .period then return .column (some f) (← expectName "column name")
      else return .column none f) ([t₂] ++ (ws ++ [])) (.function f args) F :=
    (accepts_takeIf h₂).bind (h.bind (accepts_pure _) (follows_of_nil fun _ hx => hx))
      fun _ _ hf => follows_any _ hf
  rw [List.cons_append, run_atom_name sub h₁]
  simpa only [List.append_nil, List.singleton_append] using hcall rs stop hf

/-- An atom of one token, `*` or a literal, which a number is only when it reads back as
itself. -/
theorem accepts_atom_literal {l : Literal} (hl : (Expr.literal l).renderable = true) {o : Nat} :
    Accepts (atom sub) [⟨l.token, o⟩] (.literal l) F := by
  intro rs stop _
  cases l with
  | null => rfl
  | boolean b => cases b <;> rfl
  | integer n =>
      have hn : n < Nat.pow 2 63 := by simpa [Expr.renderable] using hl
      simp only [Literal.token, atom, liftM_self, run_bind, run_peek, run_offset, takeAny,
        run_takeMap, Cursor.peek, Cursor.ofTokens, List.singleton_append]
      rw [Literal.ofNumeral_repr hn]
      rfl
  | float x => simp [Expr.renderable] at hl
  | string s => rfl

theorem accepts_atom_all {o : Nat} : Accepts (atom sub) [⟨.asterisk, o⟩] .all F :=
  fun _ _ _ => rfl

/-! ## Null tests and binary operators after the first operand -/

theorem accepts_nullTest_isNull {t₁ t₂ : Spanned} (hp : p ≤ isNullPower)
    (h₁ : t₁.token = .keyword .is) (h₂ : t₂.token = .keyword .null) :
    Accepts (nullTest? p) [t₁, t₂] (some false) F := by
  intro rs stop _
  obtain ⟨u₁, o₁⟩ := t₁
  obtain ⟨u₂, o₂⟩ := t₂
  cases h₁
  cases h₂
  have hlt : ¬ isNullPower < p := by omega
  simp [nullTest?, run_bind, run_peek, Cursor.peek, Cursor.ofTokens, hlt, expect, run_takeIf,
    Cursor.next?]
  rfl

/-- A level's tail that reads `IS NULL` after its first operand, before what ends the level. -/
theorem accepts_levelTail_isNull {t₁ t₂ : Spanned} (hp : p ≤ isNullPower)
    (h₁ : t₁.token = .keyword .is) (h₂ : t₂.token = .keyword .null) (hF : ∀ x, F x → Ends p x) :
    Accepts (levelTail sub p first) [t₁, t₂] (.isNull first) F := by
  have htests : Accepts (nullTests p first) (t₁ :: [t₂] ++ []) (.isNull first) F :=
    Accepts.loop_step
      ((accepts_nullTest_isNull hp h₁ h₂).bind (accepts_pure _) (follows_of_nil fun _ hx => hx))
      (accepts_nullTests_none fun x hx => (hF x hx).nullTest) (follows_of_nil fun _ hx => hx)
  have h : Accepts (levelTail sub p first) (t₁ :: [t₂] ++ [] ++ ([] ++ [])) (.isNull first) F :=
    htests.bind ((accepts_infixes_none hF).bind
    (accepts_nullTests_none fun x hx => (hF x hx).nullTest) (follows_of_nil fun _ hx => hx))
    (follows_of_nil fun _ hx => hx)
  simpa only [List.append_nil, List.cons_append, List.nil_append] using h

/-- A level's tail that reads one binary operator and its right operand, before what ends the
level. -/
theorem accepts_levelTail_binary {t : Spanned} {op : BinaryOp} {q : Nat} {r : Expr}
    (ht : atLeast p (infixOp? t.token) = some (op, q)) (hr : Accepts (sub (q + 1)) ws r F)
    (hF : ∀ x, F x → Ends p x) :
    Accepts (levelTail sub p first) (t :: ws) (.binary op first r) F := by
  have hnone : Accepts (nullTests p first) [] first (· = some t.token) :=
    accepts_nullTests_none fun x hx his => by
      rw [hx, Option.some_inj] at his
      rw [his] at ht
      cases ht
  have hinfixes : Accepts (infixes sub p first) (t :: (ws ++ []) ++ []) (.binary op first r) F :=
    Accepts.loop_step
      ((accepts_takeMap (f := atLeast p ∘ infixOp?) ht).bind
        (hr.bind (accepts_pure _) (follows_of_nil fun _ hx => hx)) fun _ _ hf => follows_any _ hf)
      (accepts_infixes_none hF) (follows_of_nil fun _ hx => hx)
  have h : Accepts (levelTail sub p first) ([] ++ (t :: (ws ++ []) ++ [] ++ []))
      (.binary op first r) F :=
    hnone.bind (hinfixes.bind
    (accepts_nullTests_none fun x hx => (hF x hx).nullTest) (follows_of_nil fun _ hx => hx))
    fun _ _ _ => rfl
  simpa only [List.append_nil, List.cons_append, List.nil_append] using h

end Level

/-! ## The arguments of a call -/

/-- One round of the arguments of a call: the `)` that ends them, or one more argument, after a
comma unless it is the first. -/
def argRound (sub : Nat → Grammar Expr) (args : List Expr) : Grammar (List Expr ⊕ List Expr) := do
  if ← takeIf .closeParen then return .inl args.reverse
  if !args.isEmpty then expect .comma
  let arg ← sub 0
  return .inr (arg :: args)

theorem callArguments_eq (sub : Nat → Grammar Expr) :
    callArguments sub = loop (argRound sub) List.reverse [] := rfl

section Arguments

variable {sub : Nat → Grammar Expr} {e : Expr} {ws : List Spanned} {F : Option Token → Prop}

theorem accepts_args_close {acc : List Expr} {t : Spanned} (ht : t.token = .closeParen) :
    Accepts (loop (argRound sub) List.reverse acc) [t] acc.reverse F :=
  accepts_loop_finish ((accepts_takeIf ht).bind (accepts_pure _) (follows_of_nil fun _ hx => hx))

theorem accepts_argRound_first {t : Spanned} (ht : t.token ≠ .closeParen)
    (h : Accepts (sub 0) (t :: ws) e F) : Accepts (argRound sub []) (t :: ws) (.inr [e]) F := by
  have hround : Accepts (argRound sub []) ([] ++ (t :: ws ++ [])) (.inr [e]) F :=
    (accepts_takeIf_false (F := (· = some t.token)) fun x hx => by
        rw [hx]
        simpa using ht).bind
      (h.bind (accepts_pure _) (follows_of_nil fun _ hx => hx)) fun _ _ _ => rfl
  simpa only [List.nil_append, List.append_nil] using hround

theorem accepts_argRound_next {a : Expr} {acc : List Expr} {t : Spanned} (ht : t.token = .comma)
    (h : Accepts (sub 0) ws e F) :
    Accepts (argRound sub (a :: acc)) (t :: ws) (.inr (e :: a :: acc)) F := by
  have hround : Accepts (argRound sub (a :: acc)) ([] ++ ([t] ++ (ws ++ [])))
      (.inr (e :: a :: acc)) F :=
    (accepts_takeIf_false (F := (· = some t.token)) fun x hx => by
        rw [hx, ht]
        simp).bind
      ((accepts_expect ht).bind (h.bind (accepts_pure _) (follows_of_nil fun _ hx => hx))
        fun _ _ hf => follows_any _ hf) fun _ _ _ => rfl
  simpa only [List.nil_append, List.append_nil, List.singleton_append] using hround

end Arguments

/-! ## Reading a rendering -/

theorem expressionAt_eq {d : Nat} (hd : d < maxDepth) (p : Nat) :
    expressionAt d p = operators (expressionAt (d + 1)) p := by
  rw [expressionAt, dif_neg (by omega)]

theorem prefixOp_literal (l : Literal) : prefixOp? l.token = none := by
  cases l with
  | boolean b => cases b <;> rfl
  | _ => rfl

/-- The text of an expression starts with a token that is no `)`. -/
theorem tokens_head (e : Expr) : ∃ u w, e.tokens = u :: w ∧ u ≠ .closeParen := by
  rcases e with _ | ⟨_ | _, _⟩ | l | _ | ⟨_ | _ | _, _⟩ | _ | _
  case literal =>
    exact ⟨_, _, rfl, by cases l with | boolean b => cases b <;> simp [Literal.token]
                                      | _ => simp [Literal.token]⟩
  all_goals exact ⟨_, _, rfl, by simp⟩

theorem argTokens_head (es : List Expr) :
    ∃ u w, Expr.argTokens true es = u :: w ∧ (u = .comma ∨ u = .closeParen) := by
  cases es with
  | nil => exact ⟨_, _, rfl, .inr rfl⟩
  | cons e es => exact ⟨_, _, rfl, .inl rfl⟩

/-- `e` as the first operand of a level at depth `d` and power `p`: before every tail the level
reads after it, the level reads `e` and that tail. What follows `e` must end it at the power of a
sign, the tightest of all. -/
def FirstAt (d p : Nat) (e : Expr) : Prop :=
  ∀ (ws ws₂ : List Spanned) (v : Expr) (F G : Option Token → Prop),
    ws.map Spanned.token = e.tokens → Accepts (levelTail (expressionAt (d + 1)) p e) ws₂ v F →
    (∀ x, G x → Ends 10 x) → (∀ rs stop, Follows F rs stop → Follows G (ws₂ ++ rs) stop) →
    Accepts (operators (expressionAt (d + 1)) p) (ws ++ ws₂) v F

/-- An expression that is read as a first operand is read at its level, before what ends it. -/
theorem FirstAt.accepts {d p : Nat} {e : Expr} (h : FirstAt d p e) (hd : d + e.nesting ≤ maxDepth)
    (hp : p ≤ 10) {ws : List Spanned} {F : Option Token → Prop}
    (hws : ws.map Spanned.token = e.tokens) (hF : ∀ x, F x → Ends p x) :
    Accepts (expressionAt d p) ws e F := by
  have h' := h ws [] e F F hws (accepts_levelTail_none hF) (fun x hx => (hF x hx).mono hp)
    (follows_of_nil fun _ hx => hx)
  rw [List.append_nil] at h'
  rw [expressionAt_eq (by have := e.one_le_nesting; omega)]
  exact h'

open SqlDdl.Expr in
mutual

/-- Every renderable expression whose text nests within the levels left is read as the first
operand of a level whose power admits signs. -/
theorem firstAt : ∀ (e : Expr), e.renderable = true → ∀ (d p : Nat), d + e.nesting ≤ maxDepth →
    p ≤ 10 → FirstAt d p e
  | .all, _, d, p, _, _ => by
      intro ws ws₂ v F G hws ht hG hGF
      simp only [tokens] at hws
      obtain ⟨o, ws', rfl, hws'⟩ := map_token_eq_cons hws
      rw [List.map_eq_nil_iff.mp hws']
      exact accepts_operators_atom rfl accepts_atom_all ht hGF
  | .column none c, _, d, p, _, _ => by
      intro ws ws₂ v F G hws ht hG hGF
      simp only [tokens] at hws
      obtain ⟨o, ws', rfl, hws'⟩ := map_token_eq_cons hws
      rw [List.map_eq_nil_iff.mp hws']
      exact accepts_operators_atom rfl
        (accepts_atom_column rfl fun x hx => (hG x hx).not_call) ht hGF
  | .column (some tb) c, _, d, p, _, _ => by
      intro ws ws₂ v F G hws ht hG hGF
      simp only [tokens] at hws
      obtain ⟨o₁, ws₁, rfl, hws₁⟩ := map_token_eq_cons hws
      obtain ⟨o₂, ws₂', rfl, hws₂⟩ := map_token_eq_cons hws₁
      obtain ⟨o₃, ws₃, rfl, hws₃⟩ := map_token_eq_cons hws₂
      rw [List.map_eq_nil_iff.mp hws₃]
      exact accepts_operators_atom rfl (accepts_atom_qualified rfl rfl rfl) ht hGF
  | .literal l, he, d, p, _, _ => by
      intro ws ws₂ v F G hws ht hG hGF
      simp only [tokens] at hws
      obtain ⟨o, ws', rfl, hws'⟩ := map_token_eq_cons hws
      rw [List.map_eq_nil_iff.mp hws']
      exact accepts_operators_atom (by rw [prefixOp_literal]; rfl) (accepts_atom_literal he) ht hGF
  | .function f args, he, d, p, hd, _ => by
      intro ws ws₂ v F G hws ht hG hGF
      simp only [tokens] at hws
      simp only [renderable, Bool.and_eq_true] at he
      simp only [nesting] at hd
      obtain ⟨o₁, ws₁, rfl, hws₁⟩ := map_token_eq_cons hws
      obtain ⟨o₂, wa, rfl, hwa⟩ := map_token_eq_cons hws₁
      exact accepts_operators_atom rfl
        (accepts_atom_call rfl rfl (argsAt args he.2 d (by omega) [] hwa)) ht hGF
  | .unary .not x, he, d, p, hd, _ => by
      intro ws ws₂ v F G hws ht hG hGF
      simp only [tokens] at hws
      simp only [renderable] at he
      simp only [nesting] at hd
      obtain ⟨o₁, ws₁, rfl, hws₁⟩ := map_token_eq_cons hws
      obtain ⟨o₂, ws₂', rfl, hws₂⟩ := map_token_eq_cons hws₁
      obtain ⟨wx, wc, rfl, hwx, hwc⟩ := List.map_eq_append_iff.mp hws₂
      obtain ⟨o₃, wnil, rfl, hnil⟩ := map_token_eq_cons hwc
      rw [List.map_eq_nil_iff.mp hnil]
      have hx : Accepts (expressionAt (d + 1 + 1) 3) wx x (· = some .closeParen) :=
        (firstAt x he (d + 1 + 1) 3 (by omega) (by omega)).accepts (by omega) (by omega) hwx
          fun _ h => by subst h; exact ends_closeParen 3
      have hnot : Accepts (operators (expressionAt (d + 1 + 1)) 0)
          (⟨.keyword .not, o₂⟩ :: (wx ++ [])) (.unary .not x) (· = some .closeParen) :=
        accepts_operators_prefix rfl hx
          (accepts_levelTail_none fun _ h => by subst h; exact ends_closeParen 0)
          (follows_of_nil fun _ h => h)
      rw [List.append_nil, ← expressionAt_eq (by omega)] at hnot
      exact accepts_operators_atom rfl (accepts_atom_paren (t := ⟨.closeParen, o₃⟩) rfl hnot) ht hGF
  | .unary .negate x, he, d, p, hd, hp => by
      intro ws ws₂ v F G hws ht hG hGF
      simp only [tokens] at hws
      simp only [nesting] at hd
      obtain ⟨o, wx, rfl, hwx⟩ := map_token_eq_cons hws
      have hx : Accepts (expressionAt (d + 1) 10) wx x G :=
        (firstAt x (renderable_negate.mp he).1 (d + 1) 10 (by omega) le_rfl).accepts (by omega)
          le_rfl hwx hG
      exact accepts_operators_prefix (by simp [prefixOp?, atLeast, Option.filter, hp]) hx ht hGF
  | .unary .identity x, he, d, p, hd, hp => by
      intro ws ws₂ v F G hws ht hG hGF
      simp only [tokens] at hws
      simp only [renderable] at he
      simp only [nesting] at hd
      obtain ⟨o, wx, rfl, hwx⟩ := map_token_eq_cons hws
      have hx : Accepts (expressionAt (d + 1) 10) wx x G :=
        (firstAt x he (d + 1) 10 (by omega) le_rfl).accepts (by omega) le_rfl hwx hG
      exact accepts_operators_prefix (by simp [prefixOp?, atLeast, Option.filter, hp]) hx ht hGF
  | .binary op l r, he, d, p, hd, _ => by
      intro ws ws₂ v F G hws ht hG hGF
      simp only [tokens] at hws
      simp only [renderable, Bool.and_eq_true] at he
      simp only [nesting] at hd
      obtain ⟨o₁, ws₁, rfl, hws₁⟩ := map_token_eq_cons hws
      obtain ⟨wl, wrest, rfl, hwl, hwrest⟩ := List.map_eq_append_iff.mp hws₁
      obtain ⟨o₂, wrc, rfl, hwrc⟩ := map_token_eq_cons hwrest
      obtain ⟨wr, wc, rfl, hwr, hwc⟩ := List.map_eq_append_iff.mp hwrc
      obtain ⟨o₃, wnil, rfl, hnil⟩ := map_token_eq_cons hwc
      rw [List.map_eq_nil_iff.mp hnil]
      obtain ⟨q, hq, hq7⟩ := infixOp_token op
      have hr : Accepts (expressionAt (d + 1 + 1) (q + 1)) wr r (· = some .closeParen) :=
        (firstAt r he.2 (d + 1 + 1) (q + 1) (by omega) (by omega)).accepts (by omega) (by omega)
          hwr fun _ h => by subst h; exact ends_closeParen _
      have htail : Accepts (levelTail (expressionAt (d + 1 + 1)) 0 l) (⟨op.token, o₂⟩ :: wr)
          (.binary op l r) (· = some .closeParen) :=
        accepts_levelTail_binary (by simp [hq, atLeast, Option.filter]) hr
          fun _ h => by subst h; exact ends_closeParen 0
      have hinner := firstAt l he.1 (d + 1) 0 (by omega) (by omega) wl _ _ _ (· = some op.token) hwl
        htail (fun _ h => by subst h; exact ends_token op) fun _ _ _ => rfl
      rw [← expressionAt_eq (by omega)] at hinner
      have h := accepts_operators_atom rfl
        (accepts_atom_paren (o := o₁) (t := ⟨.closeParen, o₃⟩) rfl hinner) ht hGF
      simpa only [List.append_assoc, List.cons_append, List.nil_append] using h
  | .isNull x, he, d, p, hd, _ => by
      intro ws ws₂ v F G hws ht hG hGF
      simp only [tokens] at hws
      simp only [renderable] at he
      simp only [nesting] at hd
      obtain ⟨o₁, ws₁, rfl, hws₁⟩ := map_token_eq_cons hws
      obtain ⟨wx, wrest, rfl, hwx, hwrest⟩ := List.map_eq_append_iff.mp hws₁
      obtain ⟨o₂, w₂, rfl, hw₂⟩ := map_token_eq_cons hwrest
      obtain ⟨o₃, w₃, rfl, hw₃⟩ := map_token_eq_cons hw₂
      obtain ⟨o₄, w₄, rfl, hw₄⟩ := map_token_eq_cons hw₃
      rw [List.map_eq_nil_iff.mp hw₄]
      have htail : Accepts (levelTail (expressionAt (d + 1 + 1)) 0 x)
          [⟨.keyword .is, o₂⟩, ⟨.keyword .null, o₃⟩] (.isNull x) (· = some .closeParen) :=
        accepts_levelTail_isNull (by decide) rfl rfl fun _ h => by subst h; exact ends_closeParen 0
      have hx := x.one_le_nesting
      have hinner := firstAt x he (d + 1) 0 (by omega) (by omega) wx _ _ _
        (· = some (.keyword .is)) hwx htail (fun _ h => by subst h; exact ends_is (by decide))
        fun _ _ _ => rfl
      rw [← expressionAt_eq (by omega)] at hinner
      have h := accepts_operators_atom rfl
        (accepts_atom_paren (o := o₁) (t := ⟨.closeParen, o₄⟩) rfl hinner) ht hGF
      simpa only [List.append_assoc, List.cons_append, List.nil_append] using h

/-- The arguments of a call after `acc` are read, each at the loosest power, up to and with the
`)`. -/
theorem argsAt : ∀ (es : List Expr), renderableArgs es = true → ∀ (d : Nat),
    d + 1 + argsNesting es ≤ maxDepth → ∀ (acc : List Expr) {ws : List Spanned}
    {F : Option Token → Prop}, ws.map Spanned.token = argTokens (!acc.isEmpty) es →
    Accepts (loop (argRound (expressionAt (d + 1))) List.reverse acc) ws (acc.reverse ++ es) F
  | [], _, d, _, acc, ws, F, hws => by
      simp only [argTokens] at hws
      obtain ⟨o, wnil, rfl, hnil⟩ := map_token_eq_cons hws
      rw [List.map_eq_nil_iff.mp hnil, List.append_nil]
      exact accepts_args_close rfl
  | e :: es, he, d, hd, acc, ws, F, hws => by
      simp only [renderableArgs, Bool.and_eq_true] at he
      simp only [argsNesting] at hd
      have harg : ∀ {we : List Spanned}, we.map Spanned.token = e.tokens →
          Accepts (expressionAt (d + 1) 0) we e (fun x => x = some .comma ∨ x = some .closeParen) :=
        fun hwe => (firstAt e he.1 (d + 1) 0 (by omega) (by omega)).accepts (by omega) (by omega)
          hwe fun _ h => by rcases h with rfl | rfl; exacts [ends_comma 0, ends_closeParen 0]
      have hrest : ∀ {wr : List Spanned}, wr.map Spanned.token = argTokens true es →
          Accepts (loop (argRound (expressionAt (d + 1))) List.reverse (e :: acc)) wr
            (acc.reverse ++ e :: es) F := by
        intro wr hwr
        have h := argsAt es he.2 d (by omega) (e :: acc) (F := F) hwr
        simpa only [List.reverse_cons, List.append_assoc, List.singleton_append] using h
      have hfollows : ∀ {wr : List Spanned}, wr.map Spanned.token = argTokens true es →
          ∀ rs stop, Follows F rs stop →
            Follows (fun x => x = some .comma ∨ x = some .closeParen) (wr ++ rs) stop := by
        intro wr hwr rs stop _
        obtain ⟨u, w, hu, hcomma⟩ := argTokens_head es
        rw [hu] at hwr
        obtain ⟨o, wr', rfl, -⟩ := map_token_eq_cons hwr
        rcases hcomma with rfl | rfl
        · exact .inl rfl
        · exact .inr rfl
      cases acc with
      | nil =>
          simp only [argTokens, List.isEmpty_nil, Bool.not_true, Bool.false_eq_true, if_false,
            List.nil_append] at hws
          obtain ⟨we, wr, rfl, hwe, hwr⟩ := List.map_eq_append_iff.mp hws
          obtain ⟨u, w, hu, hne⟩ := tokens_head e
          have hwe' := hwe
          rw [hu] at hwe'
          obtain ⟨o, we', rfl, -⟩ := map_token_eq_cons hwe'
          exact (accepts_argRound_first hne (harg hwe)).loop_step (hrest hwr) (hfollows hwr)
      | cons a acc =>
          simp only [argTokens, List.isEmpty_cons, Bool.not_false, if_true, List.cons_append,
            List.nil_append] at hws
          obtain ⟨o, ws', rfl, hws'⟩ := map_token_eq_cons hws
          obtain ⟨we, wr, rfl, hwe, hwr⟩ := List.map_eq_append_iff.mp hws'
          exact (accepts_argRound_next rfl (harg hwe)).loop_step (hrest hwr) (hfollows hwr)

end

/-- The expression rule reads the text of every renderable expression back as that expression,
and reads all of it, when its parentheses and signs nest within the parser's limit. -/
theorem expression_reads_render (e : Expr) (he : e.renderable = true)
    (hn : e.nesting ≤ maxDepth) :
    ∃ n, expression.run (Cursor.ofString e.render) = .ok (e, Cursor.ofTokens [] (.finished n)) := by
  obtain ⟨ws, n, hws, hscan⟩ := e.ofString_render he
  have h : Accepts expression ws e (· = none) :=
    (firstAt e he 0 0 (by omega) (by omega) ).accepts (by omega) (by omega) hws
      fun _ h => by subst h; exact ends_none 0
  refine ⟨n, ?_⟩
  have hrun := h [] (.finished n) ⟨⟨n, rfl⟩, rfl⟩
  rw [List.append_nil] at hrun
  rw [Cursor.ofString, Cursor.ofStream, hscan]
  exact hrun

/-- A call of a signed number and a null test of a column of a table reads back from its text,
`f(-1, (t.a IS NULL))`. -/
theorem call_reads_back :
    (Expr.function "f"
        [.unary .negate (.literal (.integer 1)), .isNull (.column (some "t") "a")]).renderable ∧
      (Expr.function "f"
        [.unary .negate (.literal (.integer 1)), .isNull (.column (some "t") "a")]).nesting ≤
        maxDepth ∧
      (Expr.function "f"
        [.unary .negate (.literal (.integer 1)), .isNull (.column (some "t") "a")]).render =
        "f(-1, (t.a IS NULL))" ∧
      ∃ n, expression.run (Cursor.ofString "f(-1, (t.a IS NULL))") =
        .ok (.function "f"
            [.unary .negate (.literal (.integer 1)), .isNull (.column (some "t") "a")],
          Cursor.ofTokens [] (.finished n)) :=
  have he : (Expr.function "f"
      [.unary .negate (.literal (.integer 1)), .isNull (.column (some "t") "a")]).renderable =
      true := by
    decide +kernel
  have hn : (Expr.function "f"
      [.unary .negate (.literal (.integer 1)), .isNull (.column (some "t") "a")]).nesting ≤
      maxDepth := by
    decide
  have hr : (Expr.function "f"
      [.unary .negate (.literal (.integer 1)), .isNull (.column (some "t") "a")]).render =
      "f(-1, (t.a IS NULL))" := by
    simp only [Expr.render, Literal.render, Nat.repr, List.map_cons, List.map_nil,
      String.intercalate_cons_cons, String.intercalate_singleton]
    decide +kernel
  ⟨he, hn, hr, hr ▸ expression_reads_render _ he hn⟩

/-- A quoted name is read as a column whatever its text, and the column is written bare: the
keyword `select`, quoted, is read as a column, and its text is the keyword, which is no
expression. -/
theorem quoted_keyword_reads_back_as_keyword :
    (∃ c, expression.run (Cursor.ofString "\"select\"") = .ok (.column none "select", c) ∧
        c.rest = []) ∧
      (Expr.column none "select").render = "select" ∧
      ∀ v c, expression.run (Cursor.ofString "select") ≠ .ok (v, c) := by
  refine ⟨?_, by simp [Expr.render], fun v c h => ?_⟩
  · have hcheck : (match expression.run (Cursor.ofString "\"select\"") with
        | .ok (.column none "select", c) => c.rest.isEmpty
        | _ => false) = true := by
      decide +kernel
    split at hcheck
    · next c h => exact ⟨c, h, List.isEmpty_iff.mp hcheck⟩
    · cases hcheck
  · have hfails : (match expression.run (Cursor.ofString "select") with
        | .ok _ => false
        | .error _ => true) = true := by
      decide +kernel
    rw [h] at hfails
    cases hfails

end Grammar

end SqlDdl
