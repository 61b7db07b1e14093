import SqlDdl.Proofs.TableGrammar

/-!
# Accepting and parsing phrases

The two halves of a parser's agreement with a grammar, each stated one step at a time.

A step `Accepts` the tokens `ws` as the value `v`, where `F` may follow them, when before every
rest that `F` admits it reads exactly `ws` and gives `v`: what the grammar derives, the parser
reads. With one token of lookahead, where a phrase ends is decided by the token after it, so
every lemma names what may follow. This is the exact half of `Reads` with no failure for depth:
the rules of a table definition start each expression afresh, and an expression the grammar
derives nests within the limit.

A step `Parses` phrases of `R` when, whatever it gives from tokens in which no null test is
followed by a binary operator, it read a
phrase `w` of which `R v w` holds: what the parser reads, the grammar derives. Where a later
choice of the parser depends on what it read, as whether an index type came before the columns,
`R` ties the value to the tokens.
-/

namespace SqlDdl

namespace Grammar

open Precedence

variable {α β γ σ : Type}

/-! ## Accepting -/

/-- Before every rest that `F` admits, `g` reads exactly `ws` and gives `v`. -/
def Accepts (g : Grammar α) (ws : List Spanned) (v : α) (F : Option Token → Prop) : Prop :=
  ∀ rs stop, Follows F rs stop → g.run (.ofTokens (ws ++ rs) stop) = .ok (v, .ofTokens rs stop)

variable {g : Grammar α} {f : α → Grammar β} {ws ws₁ ws₂ : List Spanned} {v : α} {b : β}
  {F G : Option Token → Prop}

theorem Accepts.follows_mono (h : Accepts g ws v F) (hGF : ∀ x, G x → F x) :
    Accepts g ws v G :=
  fun rs stop hf => h rs stop (hf.mono hGF)

/-- Reading with no failure for depth accepts. -/
theorem Reads.accepts (h : Reads g ws v F False) : Accepts g ws v F :=
  fun rs stop hf => (h.exact rs stop hf).resolve_right fun hd => hd.1

/-- A sequence accepts what its parts accept one after the other, when what the second reads
and what follows it may follow the first. -/
theorem Accepts.bind (hg : Accepts g ws₁ v F) (hf : Accepts (f v) ws₂ b G)
    (hGF : ∀ rs stop, Follows G rs stop → Follows F (ws₂ ++ rs) stop) :
    Accepts (g >>= f) (ws₁ ++ ws₂) b G := by
  intro rs stop hfol
  rw [List.append_assoc, run_bind, hg _ _ (hGF rs stop hfol)]
  exact hf rs stop hfol

theorem follows_of_nil (hGF : ∀ x, G x → F x) :
    ∀ rs stop, Follows G rs stop → Follows F ([] ++ rs) stop :=
  fun _ _ h => h.mono hGF

theorem Accepts.map (h : Accepts g ws v F) (k : α → β) : Accepts (k <$> g) ws (k v) F := by
  have hb : Accepts (g >>= fun a => pure (k a)) (ws ++ []) (k v) F :=
    h.bind (fun _ _ _ => rfl) (follows_of_nil fun _ hx => hx)
  rwa [List.append_nil] at hb

theorem accepts_pure (a : α) : Accepts (pure a : Grammar α) [] a F := fun _ _ _ => rfl

theorem accepts_offset_bind {f : Nat → Grammar β} (h : ∀ n, Accepts (f n) ws b F) :
    Accepts (offset >>= f) ws b F := by
  intro rs stop hf
  rw [run_bind, run_offset]
  exact h _ rs stop hf

theorem accepts_takeMap {f : Token → Option β} {t : Spanned} (hf : f t.token = some b) :
    Accepts (takeMap f) [t] (some b) F := by
  intro rs stop _
  simp [run_takeMap, hf]

theorem accepts_takeMap_none {f : Token → Option β} (hF : ∀ u, F (some u) → f u = none) :
    Accepts (takeMap f) [] none F := by
  intro rs stop hf
  obtain ⟨x, -, hnext, hx⟩ := Cursor.peek_of_follows hf
  rw [List.nil_append, run_takeMap, hnext]
  cases x with
  | none => rfl
  | some u => simp [hF u hx]

theorem accepts_takeIf {t : Spanned} {u : Token} (ht : t.token = u) :
    Accepts (takeIf u) [t] true F :=
  (accepts_takeMap (by simp [ht] : (fun x => if x = u then some () else none) t.token = some ())).bind
    (accepts_pure _) (follows_of_nil fun _ hx => hx)

theorem accepts_takeIf_false {u : Token} (hF : ∀ x, F x → x ≠ some u) :
    Accepts (takeIf u) [] false F :=
  (accepts_takeMap_none fun _ hv => if_neg fun h => hF _ hv (congrArg some h)).bind
    (accepts_pure _) (follows_of_nil fun _ hx => hx)

theorem accepts_expect {t : Spanned} {u : Token} (ht : t.token = u) :
    Accepts (expect u) [t] () F :=
  (accepts_takeIf ht).bind (accepts_pure ()) (follows_of_nil fun _ hx => hx)

theorem accepts_expectName {t : Spanned} {name : String} (what : String)
    (ht : t.token.name? = some name) : Accepts (expectName what) [t] name F :=
  (accepts_takeMap ht).bind (accepts_pure name) (follows_of_nil fun _ hx => hx)

/-- `takeWord w` reads the next token when it is the word `w`. -/
theorem run_takeWord (w : String) (c : Cursor) :
    (takeWord w).run c =
      if c.next?.any (Token.isWord w) then .ok (true, c.advance) else .ok (false, c) := by
  unfold takeWord
  rw [run_bind, run_takeMap]
  rcases c.next? with _ | u
  · rfl
  · cases u with
    | ident s => by_cases h : Text.equalsIgnoringAsciiCase s w <;> simp [h, Token.isWord]
    | _ => rfl

theorem accepts_takeWord {t : Spanned} {w : String} (ht : t.token.isWord w) :
    Accepts (takeWord w) [t] true F := by
  intro rs stop _
  simp [run_takeWord, ht]

theorem accepts_takeWord_false {w : String} (hF : ∀ u, F (some u) → u.isWord w = false) :
    Accepts (takeWord w) [] false F := by
  intro rs stop hf
  obtain ⟨x, -, hnext, hx⟩ := Cursor.peek_of_follows hf
  rw [List.nil_append, run_takeWord, hnext]
  cases x with
  | none => rfl
  | some u => simp [hF u hx]

/-- Where no null test is followed by a binary operator, the expression rule accepts every
expression of the grammar before what closes it. -/
theorem accepts_expression {e : Expr} (h : MySql.ExprOf (ws.map Spanned.token) e)
    (hfree : TestsLast (ws.map Spanned.token)) (hF : ∀ x, F x → Closes 0 x) :
    Accepts expression ws e F := by
  obtain ⟨n, hn, hd⟩ := h
  have hr : Reads (expressionAt 0 0) ws e (Closes 0) False :=
    (reads_expressionAt n 0 0 hd ws rfl hfree).deep_mono fun h => absurd h (by omega)
  exact (hr.follows_mono hF).accepts

/-! ## Looking ahead -/

/-- `g` reads nothing and gives `φ` of the next token, wherever the tokens do not stop with a
lex error right there. -/
def Looks (g : Grammar γ) (φ : Option Token → γ) : Prop :=
  ∀ rs stop, Follows (fun _ => True) rs stop →
    g.run (.ofTokens rs stop) = .ok (φ (rs.head?.map Spanned.token), .ofTokens rs stop)

theorem looks_peek : Looks peek id := by
  intro rs stop hf
  cases rs with
  | nil =>
      obtain ⟨⟨n, rfl⟩, -⟩ := hf
      rfl
  | cons t rs => rfl

theorem looks_peekName : Looks peekName fun x => (x >>= Token.name?).isSome :=
  fun _ _ _ => rfl

/-- `peekWord w` tells whether the next token is the word `w`. -/
theorem run_peekWord_any (w : String) (c : Cursor) :
    (peekWord w).run c = .ok (c.next?.any (Token.isWord w), c) := by
  rw [run_peekWord]
  rcases c.next? with _ | u
  · rfl
  · cases u <;> rfl

theorem looks_peekWord (w : String) : Looks (peekWord w) fun x => x.any (Token.isWord w) :=
  fun _ _ _ => run_peekWord_any w _

variable {φ : Option Token → γ} {k : γ → Grammar β}

theorem accepts_look_cons {look : Grammar γ} (hl : Looks look φ) {t : Spanned}
    (h : Accepts (k (φ (some t.token))) (t :: ws) b F) : Accepts (look >>= k) (t :: ws) b F := by
  intro rs stop hf
  rw [run_bind, hl (t :: ws ++ rs) stop trivial]
  exact h rs stop hf

theorem accepts_look_nil {look : Grammar γ} (hl : Looks look φ)
    (h : ∀ x, F x → Accepts (k (φ x)) [] b F) : Accepts (look >>= k) [] b F := by
  intro rs stop hf
  obtain ⟨x, -, hnext, hx⟩ := Cursor.peek_of_follows hf
  have hhead : rs.head?.map Spanned.token = x := hnext
  rw [List.nil_append, run_bind, hl _ _ (hf.mono fun _ _ => trivial), hhead]
  exact h x hx rs stop hf

/-! ## Repetitions -/

variable {round : σ → Grammar (β ⊕ σ)} {done : σ → β} {s s' : σ}

theorem accepts_loop_finish (h : Accepts (round s) ws (.inl b) F) :
    Accepts (loop round done s) ws b F := by
  intro rs stop hf
  rw [run_loop, h rs stop hf]

/-- A round that reads a token and goes on, and then the rest of the repetition. -/
theorem Accepts.loop_step {t : Spanned} (h : Accepts (round s) (t :: ws₁) (.inr s') F)
    (hl : Accepts (loop round done s') ws₂ b G)
    (hGF : ∀ rs stop, Follows G rs stop → Follows F (ws₂ ++ rs) stop) :
    Accepts (loop round done s) (t :: ws₁ ++ ws₂) b G := by
  intro rs stop hf
  rw [List.append_assoc, run_loop, h _ _ (hGF rs stop hf)]
  dsimp only
  rw [if_pos (by simp only [Cursor.size_ofTokens, List.length_append, List.length_cons]; omega)]
  exact hl rs stop hf

/-! ## Parsing -/

/-- Whatever `g` gives from tokens in which no null test is followed by a binary operator, it
read a phrase of which `R` holds with its value. -/
def Parses (g : Grammar α) (R : α → List Token → Prop) : Prop :=
  ∀ c v c', g.run c = .ok (v, c') → TestsLastAt c →
    ∃ ws, c.rest = ws ++ c'.rest ∧ R v (ws.map Spanned.token)

variable {R S : α → List Token → Prop}

theorem Parses.mono (h : Parses g R) (hRS : ∀ v w, R v w → S v w) : Parses g S := by
  intro c v c' hrun hc
  obtain ⟨ws, hws, hR⟩ := h c v c' hrun hc
  exact ⟨ws, hws, hRS _ _ hR⟩

/-- A sequence that succeeded: its first part read a phrase of `R` and left tokens of the same
kind, from which the second part succeeded. -/
theorem Parses.bind_ok (hg : Parses g R) {c c' : Cursor} (h : (g >>= f).run c = .ok (b, c'))
    (hc : TestsLastAt c) :
    ∃ a c₁ ws, c.rest = ws ++ c₁.rest ∧ R a (ws.map Spanned.token) ∧ TestsLastAt c₁ ∧
      (f a).run c₁ = .ok (b, c') := by
  obtain ⟨a, c₁, h₁, h₂⟩ := run_bind_eq_ok h
  obtain ⟨ws, hws, hR⟩ := hg c a c₁ h₁ hc
  exact ⟨a, c₁, ws, hws, hR, hc.of_rest hws, h₂⟩

theorem Parses.bind_nil (hg : Parses g fun _ w => w = []) {c c' : Cursor}
    (h : (g >>= f).run c = .ok (b, c')) (hc : TestsLastAt c) :
    ∃ a c₁, c.rest = c₁.rest ∧ TestsLastAt c₁ ∧ (f a).run c₁ = .ok (b, c') := by
  obtain ⟨a, c₁, ws, hws, hw, hc₁, h'⟩ := hg.bind_ok h hc
  obtain rfl := List.map_eq_nil_iff.mp hw
  exact ⟨a, c₁, hws, hc₁, h'⟩

theorem run_peek_ok {c c' : Cursor} {x : Option Token} (h : peek.run c = .ok (x, c')) :
    x = c.next? ∧ c' = c := by
  rw [run_peek] at h
  split at h
  · next hp =>
      cases h
      exact ⟨Cursor.peek_ok hp, rfl⟩
  · cases h

theorem rest_trans {c c₁ c₂ : Cursor} {ws₁ ws₂ : List Spanned} (h₁ : c.rest = ws₁ ++ c₁.rest)
    (h₂ : c₁.rest = ws₂ ++ c₂.rest) : c.rest = ws₁ ++ ws₂ ++ c₂.rest := by
  rw [h₁, h₂, List.append_assoc]

/-- A step followed by a value made of its own reads what the step reads. -/
theorem Parses.bind_pure {P : List Token → Prop} (h : Parses g fun _ w => P w) (k : α → β) :
    Parses (g >>= fun a => pure (k a)) fun _ w => P w := by
  intro c b c' hrun hc
  obtain ⟨a, c₁, ws, hws, hP, -, h'⟩ := h.bind_ok hrun hc
  cases h'
  exact ⟨ws, hws, hP⟩

theorem parses_of_stays (h : ∀ c v c', g.run c = .ok (v, c') → c' = c) :
    Parses g fun _ w => w = [] := by
  intro c v c' hrun _
  obtain rfl := h c v c' hrun
  exact ⟨[], rfl, rfl⟩

theorem parses_of_fails (h : ∀ c, ∃ e, g.run c = .error e) : Parses g R := by
  intro c v c' hrun
  obtain ⟨e, he⟩ := h c
  rw [he] at hrun
  cases hrun

theorem parses_pure (a : α) : Parses (pure a : Grammar α) fun v w => v = a ∧ w = [] := by
  intro c v c' hrun _
  cases hrun
  exact ⟨[], rfl, rfl, rfl⟩

theorem parses_peek : Parses peek fun _ w => w = [] :=
  parses_of_stays fun c v c' h => by
    rw [run_peek] at h
    split at h <;> cases h
    rfl

theorem parses_peekName : Parses peekName fun _ w => w = [] :=
  parses_of_stays fun _ _ _ h => by cases h; rfl

theorem parses_peekWord (w : String) : Parses (peekWord w) fun _ w => w = [] :=
  parses_of_stays fun _ _ _ h => by cases h; rfl

theorem parses_offset : Parses offset fun _ w => w = [] :=
  parses_of_stays fun _ _ _ h => by cases h; rfl

theorem parses_takeMap (f : Token → Option β) :
    Parses (takeMap f) fun v w => (v = none ∧ w = []) ∨ ∃ t b, v = some b ∧ w = [t] ∧ f t = some b := by
  intro c v c' hrun _
  rw [run_takeMap] at hrun
  rcases hx : c.next? >>= f with _ | b <;> rw [hx] at hrun <;> cases hrun
  · exact ⟨[], rfl, .inl ⟨rfl, rfl⟩⟩
  · obtain ⟨t, hn, hf⟩ := Option.bind_eq_some_iff.mp hx
    obtain ⟨u, hu, rfl⟩ := Cursor.rest_of_next hn
    exact ⟨[u], hu, .inr ⟨u.token, b, rfl, rfl, hf⟩⟩

theorem parses_takeIf (u : Token) : Parses (takeIf u) fun b w => w = if b then [u] else [] := by
  intro c b c' hrun hc
  obtain ⟨x, c₁, ws, hws, hx, -, h⟩ := (parses_takeMap _).bind_ok hrun hc
  cases h
  rcases hx with ⟨rfl, hw⟩ | ⟨t, _, rfl, hw, ht⟩
  · exact ⟨ws, hws, by simp [hw]⟩
  · have htu : t = u := by
      by_contra hne
      simp [hne] at ht
    exact ⟨ws, hws, by simp [hw, htu]⟩

theorem parses_takeWord (w : String) :
    Parses (takeWord w) fun b x => x = [] ∧ b = false ∨ ∃ t, x = [t] ∧ t.isWord w ∧ b = true := by
  intro c b c' hrun _
  rw [run_takeWord] at hrun
  split at hrun <;> cases hrun
  · next hw =>
      obtain ⟨u, hn, hu⟩ := (Option.any_eq_true _ _).mp hw
      obtain ⟨t, ht, rfl⟩ := Cursor.rest_of_next hn
      exact ⟨[t], ht, .inr ⟨t.token, rfl, hu, rfl⟩⟩
  · exact ⟨[], rfl, .inl ⟨rfl, rfl⟩⟩

theorem parses_expect (u : Token) : Parses (expect u) fun _ w => w = [u] := by
  intro c v c' hrun _
  obtain ⟨hn, rfl⟩ := run_expect_ok hrun
  obtain ⟨t, ht, rfl⟩ := Cursor.rest_of_next hn
  exact ⟨[t], ht, rfl⟩

theorem parses_expectName (what : String) :
    Parses (expectName what) fun n w => ∃ t, w = [t] ∧ t.name? = some n := by
  intro c v c' hrun _
  obtain ⟨t, hn, ht, rfl⟩ := run_expectName_ok hrun
  obtain ⟨u, hu, rfl⟩ := Cursor.rest_of_next hn
  exact ⟨[u], hu, u.token, rfl, ht⟩

theorem parses_expected (what : String) : Parses (expected what : Grammar α) R :=
  parses_of_fails fun c => ⟨_, run_expected what c⟩

theorem parses_unsupported (construct : String) : Parses (unsupported construct : Grammar α) R :=
  parses_of_fails fun c => ⟨_, run_unsupported construct c⟩

/-- What the expression rule reads is an expression of the grammar, with the tree the rule
gives. -/
theorem parses_expression : Parses expression fun e w => MySql.ExprOf w e := by
  intro c e c' hrun hc
  obtain ⟨ws, hws, hd, -⟩ :=
    expressionAt_derived maxDepth 0 0 rfl (Nat.zero_le _) c e c' hrun hc
  exact ⟨ws, hws, maxDepth, Nat.le_refl _, hd⟩

/-- What a repetition reads, from what its rounds read. `Q s r w` holds of a round from the
state `s` that gave `r` and read `w`; `I s b w` of the repetition from `s` that gave `b` and read
`w`. The repetition is taken apart round by round, as `loop_induction` does. -/
theorem Parses.loop {Q : σ → β ⊕ σ → List Token → Prop} {I : σ → β → List Token → Prop}
    (hround : ∀ s, Parses (round s) (Q s))
    (hdone : ∀ s b w, Q s (.inl b) w → I s b w)
    (hstay : ∀ s s', Q s (.inr s') [] → I s (done s') [])
    (hmore : ∀ s s' b w₁ w₂, Q s (.inr s') w₁ → w₁ ≠ [] → I s' b w₂ → I s b (w₁ ++ w₂))
    (s : σ) : Parses (loop round done s) (I s) := by
  intro c b c' hrun
  refine loop_induction (P := fun s c b c' => TestsLastAt c →
    ∃ ws, c.rest = ws ++ c'.rest ∧ I s b (ws.map Spanned.token)) ?_ ?_ ?_ hrun
  · intro s c b c' hr hc
    obtain ⟨ws, hws, hq⟩ := hround s c _ c' hr hc
    exact ⟨ws, hws, hdone _ _ _ hq⟩
  · intro s c s' c' hr hlt hc
    obtain ⟨ws, hws, hq⟩ := hround s c _ c' hr hc
    obtain rfl : ws = [] := by
      by_contra hne
      exact hlt (Cursor.size_lt hws hne)
    exact ⟨[], hws, hstay _ _ hq⟩
  · intro s c s' c₁ b c' hr hlt hrest hc
    obtain ⟨ws₁, hws₁, hq⟩ := hround s c _ c₁ hr hc
    obtain ⟨ws₂, hws₂, hI⟩ := hrest (hc.of_rest hws₁)
    have hne : ws₁ ≠ [] := by
      rintro rfl
      simp [c.size_eq, c₁.size_eq, hws₁] at hlt
    refine ⟨ws₁ ++ ws₂, by rw [hws₁, hws₂, List.append_assoc], ?_⟩
    rw [List.map_append]
    exact hmore _ _ _ _ _ hq (by simpa using hne) hI

/-- What `sepBy1` reads is items with the separator between them. -/
theorem parses_sepBy1 {item : Grammar α} {P : List Token → Prop} (sep : Token)
    (h : Parses item fun _ w => P w) :
    Parses (sepBy1 item sep) fun _ w => MySql.SepBy1 P sep w := by
  refine Parses.loop (Q := fun _ r w => (∃ b, r = .inl b ∧ P w) ∨
      ∃ s', r = .inr s' ∧ ∃ w₁, w = w₁ ++ [sep] ∧ P w₁) (I := fun _ _ w => MySql.SepBy1 P sep w)
    ?_ ?_ ?_ ?_ []
  · intro acc c r c' hrun hc
    obtain ⟨a, c₁, ws₁, hws₁, hP, hc₁, h₁⟩ := h.bind_ok hrun hc
    obtain ⟨x, c₂, ws₂, hws₂, hx, -, h₂⟩ := (parses_takeIf sep).bind_ok h₁ hc₁
    cases x <;> cases h₂ <;>
      simp only [Bool.false_eq_true, ↓reduceIte, List.map_eq_nil_iff] at hx
    · subst hx
      exact ⟨ws₁, by simpa [hws₂] using hws₁, .inl ⟨_, rfl, hP⟩⟩
    · exact ⟨ws₁ ++ ws₂, by rw [hws₁, hws₂, List.append_assoc],
        .inr ⟨_, rfl, _, by simp [List.map_append, hx], hP⟩⟩
  · rintro _ _ _ (⟨_, ⟨⟩, hP⟩ | ⟨_, ⟨⟩, -⟩)
    exact .one hP
  · rintro _ _ (⟨_, ⟨⟩, -⟩ | ⟨_, ⟨⟩, w₁, hw, -⟩)
    simp at hw
  · rintro _ _ _ _ _ (⟨_, ⟨⟩, -⟩ | ⟨_, ⟨⟩, w₁, rfl, hP⟩) - hI
    simpa using MySql.SepBy1.cons hP hI

/-- A repetition whose rounds each read a phrase of `P`, or a phrase of `Q` once: a round of `Q`
turns `had` on, and none comes after it. What the repetition reads is phrases of `P` with at
most one phrase of `Q` among them, and none once `had` is on: so a column takes one
nullability and a table one partitioning. -/
theorem Parses.loop_atMostOnce (had : σ → Bool) {P Q : List Token → Prop}
    (hround : ∀ s, Parses (round s) fun r w => (∃ b, r = .inl b ∧ w = []) ∨
      ∃ s', r = .inr s' ∧ (had s' = had s ∧ P w ∨ had s = false ∧ had s' = true ∧ Q w))
    (hP : ¬ P []) (hQ : ¬ Q []) (done : σ → β) (s : σ) :
    Parses (Grammar.loop round done s) fun _ w => ∃ (os₁ : List (List Token)) (n : List Token)
      (os₂ : List (List Token)), w = os₁.flatten ++ n ++ os₂.flatten ∧
        (∀ o ∈ os₁ ++ os₂, P o) ∧ MySql.Opt Q n ∧ (had s = true → n = []) := by
  refine Parses.loop (I := fun s _ w => ∃ (os₁ : List (List Token)) (n : List Token)
      (os₂ : List (List Token)), w = os₁.flatten ++ n ++ os₂.flatten ∧
        (∀ o ∈ os₁ ++ os₂, P o) ∧ MySql.Opt Q n ∧ (had s = true → n = []))
    hround ?_ ?_ ?_ s
  · rintro s b w (⟨_, ⟨⟩, rfl⟩ | ⟨_, ⟨⟩, -⟩)
    exact ⟨[], [], [], rfl, by simp, .inl rfl, fun _ => rfl⟩
  · rintro s s' (⟨_, ⟨⟩, -⟩ | ⟨_, ⟨⟩, ⟨-, hp⟩ | ⟨-, -, hq⟩⟩)
    · exact absurd hp hP
    · exact absurd hq hQ
  · rintro s s' b w₁ w₂ (⟨_, ⟨⟩, -⟩ | ⟨_, ⟨⟩, ⟨hhad, hp⟩ | ⟨hnot, hhad, hq⟩⟩) -
      ⟨os₁, n, os₂, rfl, hall, hopt, hfirst⟩
    · refine ⟨w₁ :: os₁, n, os₂, by simp, ?_, hopt, fun h => hfirst (by rwa [hhad])⟩
      intro o ho
      rcases List.mem_cons.mp (by simpa using ho : o ∈ w₁ :: (os₁ ++ os₂)) with rfl | ho
      · exact hp
      · exact hall o ho
    · obtain rfl := hfirst hhad
      exact ⟨[], w₁, os₁ ++ os₂, by simp, by simpa using hall, .inr hq, by simp [hnot]⟩

end Grammar

end SqlDdl
