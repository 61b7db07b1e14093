import SqlDdl.Proofs.StatementParsed
import SqlDdl.Proofs.Dialects
import SqlDdl.Proofs.ReadBack

/-!
# What the MySQL grammar derives, the rules read

The converse of `TableParsed`: every rule of a MySQL table definition reads each phrase of its
production in the grammar whole, when the phrase has no `IS`, and gives a value for it. The
tokens are taken at offset 0 (`spans`): a rule reads offsets only into its errors, so a run on
the tokens of a text goes as the run on these (`Offsets`).

With one token of lookahead a rule decides where its phrase ends by the token after it. Each
lemma therefore says what may follow the phrase (`F`) and asks of it only that it does not go
on with the phrase: no `(` after a type that could take arguments, no `.` after a name, nothing
that continues an expression after one. Where a phrase is followed by more of the statement,
what follows it is the first token of the rest (`Before`), and the grammar's own shape says
that this token goes on with nothing.

The proofs follow each rule's code from its first step to its last, as those of `TableParsed`
do, and the repetitions go round by round along the phrases the grammar lists.
-/

namespace SqlDdl

namespace Grammar

open Precedence MySql

variable {α β σ : Type} {F G : Option Token → Prop}

/-! ## Tokens at offset 0 -/

/-- The tokens `w`, each at offset 0. -/
def spans (w : List Token) : List Spanned := w.map fun t => ⟨t, 0⟩

@[simp] theorem spans_nil : spans [] = [] := rfl

@[simp] theorem spans_cons (t : Token) (w : List Token) : spans (t :: w) = ⟨t, 0⟩ :: spans w :=
  rfl

@[simp] theorem spans_append (w₁ w₂ : List Token) : spans (w₁ ++ w₂) = spans w₁ ++ spans w₂ :=
  List.map_append

@[simp] theorem map_token_spans (w : List Token) : (spans w).map Spanned.token = w := by
  simp [spans, Function.comp_def]

/-- What may follow a phrase that the tokens `w` follow, and then what `G` admits: the first
token of `w`, or what `G` admits when `w` is empty. -/
def Before (w : List Token) (G : Option Token → Prop) : Option Token → Prop :=
  match w with
  | [] => G
  | t :: _ => (· = some t)

theorem follows_before (w : List Token) :
    ∀ rs stop, Follows G rs stop → Follows (Before w G) (spans w ++ rs) stop := by
  intro rs stop h
  cases w with
  | nil => exact h
  | cons t w => rfl

/-- A condition on what follows, from the first tokens that may come and from `G`. -/
theorem before_of {C : Option Token → Prop} {w : List Token}
    (hw : ∀ t w', w = t :: w' → C (some t)) (hG : ∀ x, G x → C x) :
    ∀ x, Before w G x → C x := by
  intro x hx
  cases w with
  | nil => exact hG x hx
  | cons t w' =>
      cases hx
      exact hw t w' rfl

theorem Accepts.then {g : Grammar α} {f : α → Grammar β} {w₁ w₂ : List Token} {v : α} {b : β}
    (hg : Accepts g (spans w₁) v (Before w₂ G)) (hf : Accepts (f v) (spans w₂) b G) :
    Accepts (g >>= f) (spans (w₁ ++ w₂)) b G := by
  rw [spans_append]
  exact hg.bind hf (follows_before w₂)

theorem Accepts.bind_pure {g : Grammar α} {ws : List Spanned} {v : α} (h : Accepts g ws v F)
    (k : α → β) : Accepts (g >>= fun a => pure (k a)) ws (k v) F := by
  simpa using h.bind (accepts_pure (k v)) (follows_of_nil fun _ hx => hx)

/-- A round that reads something and goes on, then the rest of the repetition. -/
theorem Accepts.loop_step_of_ne_nil {round : σ → Grammar (β ⊕ σ)} {done : σ → β} {s s' : σ}
    {b : β} {ws₁ ws₂ : List Spanned} (h : Accepts (round s) ws₁ (.inr s') F) (hne : ws₁ ≠ [])
    (hl : Accepts (loop round done s') ws₂ b G)
    (hGF : ∀ rs stop, Follows G rs stop → Follows F (ws₂ ++ rs) stop) :
    Accepts (loop round done s) (ws₁ ++ ws₂) b G := by
  obtain ⟨t, ws₁, rfl⟩ := List.exists_cons_of_ne_nil hne
  exact h.loop_step hl hGF

theorem spans_ne_nil {w : List Token} (h : w ≠ []) : spans w ≠ [] := by
  simpa [spans] using h

theorem accepts_takeIf_spans (u : Token) : Accepts (takeIf u) (spans [u]) true F :=
  accepts_takeIf (t := ⟨u, 0⟩) rfl

theorem accepts_expect_spans (u : Token) : Accepts (expect u) (spans [u]) () F :=
  accepts_expect (t := ⟨u, 0⟩) rfl

/-! ## Words -/

/-- A token that is the word `a` is the word `b` exactly when `a` and `b` agree up to ASCII
case. -/
theorem Token.isWord_eq_of_isWord {t : Token} {a b : String} (h : t.isWord a = true) :
    t.isWord b = Text.equalsIgnoringAsciiCase a b := by
  cases t with
  | ident s =>
      simp only [Token.isWord, Text.equalsIgnoringAsciiCase, beq_iff_eq] at h ⊢
      rw [h]
  | _ => simp [Token.isWord] at h

theorem Token.ne_of_isWord {t u : Token} {a : String} (h : t.isWord a = true)
    (hu : ∀ s, u ≠ .ident s) : t ≠ u := by
  rintro rfl
  cases t <;> simp_all [Token.isWord]

/-! ## Lists -/

theorem SepBy1.testsLast {P : List Token → Prop} {sep : Token} {w : List Token}
    (h : SepBy1 P sep w) (hw : TestsLast w) : SepBy1 (fun v => P v ∧ TestsLast v) sep w := by
  induction h with
  | one hp => exact .one ⟨hp, hw⟩
  | cons hp _ ih => exact .cons ⟨hp, hw.left⟩ (ih hw.right.tail)

/-- Items of `P` with `sep` between them are read whole, before anything but `sep`. -/
theorem accepts_sepBy1 {item : Grammar α} {P : List Token → Prop} {sep : Token}
    (hitem : ∀ w, P w → ∃ v, Accepts item (spans w) v fun x => x = some sep ∨ F x)
    (hF : ∀ x, F x → x ≠ some sep) {w : List Token} (h : SepBy1 P sep w) :
    ∃ vs, Accepts (sepBy1 item sep) (spans w) vs F := by
  rw [sepBy1_eq]
  suffices hacc : ∀ acc, ∃ vs, Accepts (loop (sepRound item sep) List.reverse acc) (spans w) vs F
    from hacc []
  induction h with
  | @one w₁ hw =>
      intro acc
      obtain ⟨v, hv⟩ := hitem _ hw
      have hend : Accepts (sepAfter sep acc v) ([] ++ []) (.inl (v :: acc).reverse) F :=
        (accepts_takeIf_false hF).bind (accepts_pure _) (follows_of_nil fun _ hx => hx)
      have hround : Accepts (sepRound item sep acc) (spans w₁ ++ ([] ++ []))
          (.inl (v :: acc).reverse) F :=
        (hv.follows_mono fun x hx => .inr hx).bind hend (follows_of_nil fun _ hx => hx)
      exact ⟨_, accepts_loop_finish (by simpa using hround)⟩
  | @cons w₁ ws hw _ ih =>
      intro acc
      obtain ⟨v, hv⟩ := hitem _ hw
      obtain ⟨vs, hl⟩ := ih (v :: acc)
      have hsep : Accepts (sepAfter sep acc v) ([⟨sep, 0⟩] ++ []) (.inr (v :: acc)) (Before ws F) :=
        (accepts_takeIf rfl).bind (accepts_pure _) (follows_of_nil fun _ hx => hx)
      have hround : Accepts (sepRound item sep acc) (spans w₁ ++ ([⟨sep, 0⟩] ++ []))
          (.inr (v :: acc)) (Before ws F) :=
        (hv.follows_mono fun x hx => .inl hx).bind hsep fun _ _ _ => rfl
      refine ⟨vs, ?_⟩
      have h := hround.loop_step_of_ne_nil (by simp) hl (follows_before ws)
      simpa using h

/-! ## Names and types -/

theorem accepts_name {t : Token} {s : String} (ht : t.name? = some s) :
    Accepts name (spans [t]) s F :=
  accepts_expectName "name" ht

/-- A qualified name is read whole before anything but `.`. -/
theorem accepts_qualifiedName {w : List Token} (h : QualifiedName w)
    (hF : ∀ x, F x → x ≠ some .period) : ∃ n, Accepts qualifiedName (spans w) n F := by
  have hnames : ∃ parts, Accepts (sepBy1 name .period) (spans w) parts F := by
    refine accepts_sepBy1 (fun w' hw' => ?_) hF h
    obtain ⟨t, rfl, ht⟩ := hw'
    obtain ⟨s, hs⟩ := Option.isSome_iff_exists.mp ht
    exact ⟨s, accepts_name hs⟩
  obtain ⟨parts, hparts⟩ := hnames
  exact ⟨⟨parts⟩, hparts.bind_pure _⟩


theorem accepts_typeArgument {t : Token} (ht : IsTypeArgument t) :
    ∃ n, Accepts typeArgument (spans [t]) n F := by
  obtain ⟨s, rfl, hs⟩ := ht
  obtain ⟨n, hn⟩ := Option.isSome_iff_exists.mp hs
  have hspans : spans [Token.number s] = [⟨.number s, 0⟩] ++ [] := rfl
  refine ⟨n, ?_⟩
  rw [hspans]
  unfold typeArgument
  exact (accepts_takeMap hn).bind (accepts_pure n) fun _ _ hf => follows_any _ hf

/-- From the arguments `acc` read so far, the rounds read the arguments `ts` with commas
between, and stop before the `)`: the list ends at its last argument, either at the `max`-th
or for want of a comma. -/
theorem accepts_typeArgumentList (max : Nat) {ts : List Token} (hne : ts ≠ [])
    (hall : ∀ a ∈ ts, IsTypeArgument a) (acc : List Nat) (hlen : acc.length + ts.length ≤ max) :
    ∃ args, Accepts (loop (typeArgumentRound max) List.reverse acc) (spans (ts.intersperse .comma))
      args (· = some .closeParen) := by
  induction ts generalizing acc with
  | nil => exact absurd rfl hne
  | cons a ts ih =>
      obtain ⟨n, hn⟩ := accepts_typeArgument (F := fun _ => True) (hall a (by simp))
      cases ts with
      | nil =>
          have hend : Accepts (if (n :: acc).length ≥ max then pure (.inl (n :: acc).reverse)
              else do
                if ← takeIf .comma then return .inr (n :: acc)
                else return .inl (n :: acc).reverse : Grammar (List Nat ⊕ List Nat))
              [] (.inl (n :: acc).reverse) (· = some .closeParen) := by
            split
            · exact accepts_pure _
            · exact (accepts_takeIf_false fun x hx => by simp [hx]).bind (accepts_pure _)
                (follows_of_nil fun _ hx => hx)
          have hround : Accepts (typeArgumentRound max acc) (spans [a] ++ [])
              (.inl (n :: acc).reverse) (· = some .closeParen) :=
            (hn.follows_mono fun _ _ => trivial).bind hend fun _ _ hf => follows_any _ hf
          exact ⟨_, accepts_loop_finish (by simpa using hround)⟩
      | cons b ts =>
          have hlt : ¬ (n :: acc).length ≥ max := by
            simp only [List.length_cons] at hlen ⊢
            omega
          obtain ⟨args, hl⟩ := ih (by simp) (fun x hx => hall x (by simp_all)) (n :: acc)
            (by simp only [List.length_cons] at hlen ⊢; omega)
          have hcomma : Accepts (if (n :: acc).length ≥ max then pure (.inl (n :: acc).reverse)
              else do
                if ← takeIf .comma then return .inr (n :: acc)
                else return .inl (n :: acc).reverse : Grammar (List Nat ⊕ List Nat))
              ([⟨.comma, 0⟩] ++ []) (.inr (n :: acc))
              (Before ((b :: ts).intersperse .comma) (· = some .closeParen)) := by
            rw [if_neg hlt]
            exact (accepts_takeIf (t := ⟨.comma, 0⟩) rfl).bind (accepts_pure _)
              (follows_of_nil fun _ hx => hx)
          have hround : Accepts (typeArgumentRound max acc) (spans [a] ++ ([⟨.comma, 0⟩] ++ []))
              (.inr (n :: acc)) (Before ((b :: ts).intersperse .comma) (· = some .closeParen)) :=
            (hn.follows_mono fun _ _ => trivial).bind hcomma fun _ _ hf => follows_any _ hf
          refine ⟨args, ?_⟩
          have h := hround.loop_step_of_ne_nil (by simp) hl
            (follows_before ((b :: ts).intersperse .comma))
          simpa [List.intersperse_cons_cons] using h

/-- Numeric arguments in parentheses are read whole. -/
theorem accepts_typeArguments {max : Nat} {w : List Token} (h : TypeArguments max w) :
    ∃ args, Accepts (typeArguments max) (spans w) args F := by
  obtain ⟨ts, hne, hlen, hall, rfl⟩ := h
  obtain ⟨args, hl⟩ := accepts_typeArgumentList max hne hall [] (by simpa using hlen)
  have hclose : Accepts (do expect .closeParen; pure args : Grammar (List Nat))
      ([⟨.closeParen, 0⟩] ++ []) args F :=
    (accepts_expect (t := ⟨.closeParen, 0⟩) rfl).bind (accepts_pure _)
      (follows_of_nil fun _ hx => hx)
  have hinside : Accepts (do
        let args ← loop (typeArgumentRound max) List.reverse []
        expect .closeParen
        pure args : Grammar (List Nat))
      (spans (ts.intersperse .comma) ++ ([⟨.closeParen, 0⟩] ++ [])) args F :=
    hl.bind hclose fun _ _ _ => rfl
  have h : Accepts (typeArguments max) ([⟨.openParen, 0⟩] ++
      (spans (ts.intersperse .comma) ++ ([⟨.closeParen, 0⟩] ++ []))) args F :=
    (accepts_takeIf (t := ⟨.openParen, 0⟩) rfl).bind hinside fun _ _ hf => follows_any _ hf
  exact ⟨args, by simpa using h⟩

theorem accepts_typeArguments_nil {max : Nat} (hF : ∀ x, F x → x ≠ some .openParen) :
    Accepts (typeArguments max) [] [] F :=
  (accepts_takeIf_false hF).bind (accepts_pure _) (follows_of_nil fun _ hx => hx)

theorem accepts_optTypeArguments {max : Nat} {w : List Token} (h : Opt (TypeArguments max) w)
    (hF : ∀ x, F x → x ≠ some .openParen) : ∃ args, Accepts (typeArguments max) (spans w) args F := by
  rcases h with rfl | h
  · exact ⟨[], accepts_typeArguments_nil hF⟩
  · exact accepts_typeArguments h

theorem accepts_optWord {w : String} {u : List Token}
    (hu : Opt (fun x => ∃ t, x = [t] ∧ t.isWord w) u) (hF : ∀ t, F (some t) → t.isWord w = false) :
    ∃ b, Accepts (takeWord w) (spans u) b F := by
  rcases hu with rfl | ⟨t, rfl, ht⟩
  · exact ⟨false, accepts_takeWord_false hF⟩
  · exact ⟨true, accepts_takeWord ht⟩

/-- A token that goes on with no type: no `(`, and none of the words a type may end with. -/
def TypeEnds : Option Token → Prop
  | none => True
  | some t => t ≠ .openParen ∧ t.isWord "UNSIGNED" = false ∧ t.isWord "ZEROFILL" = false ∧
      t.isWord "PRECISION" = false

theorem TypeEnds.ne_openParen : ∀ {x}, TypeEnds x → x ≠ some .openParen
  | none, _ => by simp
  | some _, h => by simpa using h.1

theorem ne_openParen_of_isWord {t : Token} {w : String} (ht : t.isWord w = true) :
    some t ≠ some Token.openParen := by
  simpa using Token.ne_of_isWord ht (by simp)

/-- An integer type's width, `UNSIGNED` and `ZEROFILL` are read as they stand. -/
theorem accepts_integerType (size : IntegerSize) {w : List Token} (h : IntegerRest w)
    (hF : ∀ x, F x → TypeEnds x) : ∃ ty, Accepts (integerType size) (spans w) ty F := by
  obtain ⟨a, u, z, rfl, ha, hu, hz⟩ := h
  have hz' : ∃ b, Accepts (takeWord "ZEROFILL") (spans z) b F :=
    accepts_optWord hz fun t ht => (hF _ ht).2.2.1
  have hu' : ∃ b, Accepts (takeWord "UNSIGNED") (spans u) b (Before z F) := by
    refine accepts_optWord hu fun t ht => ?_
    rcases hz with rfl | ⟨t', rfl, ht'⟩
    · exact (hF _ ht).2.1
    · cases ht
      rw [Token.isWord_eq_of_isWord ht']
      decide
  have ha' : ∃ args, Accepts (typeArguments 1) (spans a) args (Before (u ++ z) F) := by
    refine accepts_optTypeArguments ha (before_of (fun t w' hw => ?_) fun x hx => (hF x hx).ne_openParen)
    rcases hu with rfl | ⟨t', rfl, ht'⟩
    · rcases hz with rfl | ⟨t'', rfl, ht''⟩
      · cases hw
      · cases hw
        exact ne_openParen_of_isWord ht''
    · cases hw
      exact ne_openParen_of_isWord ht'
  obtain ⟨b₁, hz'⟩ := hz'
  obtain ⟨b₂, hu'⟩ := hu'
  obtain ⟨args, ha'⟩ := ha'
  rw [List.append_assoc]
  exact ⟨_, ha'.then (hu'.then (hz'.bind_pure _))⟩


theorem accepts_customArgument {t : Token} (ht : IsCustomArgument t) :
    ∃ a, Accepts customArgument (spans [t]) a F := by
  have hsome : ∃ a, customArgument? t = some a := by
    obtain ⟨s, h | h | h | h⟩ := ht <;> subst h <;> exact ⟨_, rfl⟩
  obtain ⟨a, ha⟩ := hsome
  have h : Accepts customArgument ([⟨t, 0⟩] ++ []) a F :=
    (accepts_takeMap (F := fun _ => True) ha).bind (accepts_pure a) fun _ _ hf => follows_any _ hf
  exact ⟨a, by simpa using h⟩

/-- The arguments of a type the table does not know, in parentheses where they stand. -/
theorem accepts_customArguments {w : List Token}
    (h : Opt (Parens (SepBy1 (fun w => ∃ t, w = [t] ∧ IsCustomArgument t) .comma)) w)
    (hF : ∀ x, F x → x ≠ some .openParen) : ∃ args, Accepts customArguments (spans w) args F := by
  rcases h with rfl | ⟨w', rfl, hw'⟩
  · exact ⟨[], (accepts_takeIf_false hF).bind (accepts_pure _) (follows_of_nil fun _ hx => hx)⟩
  · obtain ⟨args, hargs⟩ := accepts_sepBy1 (F := (· = some .closeParen)) (fun w hw => by
      obtain ⟨t, rfl, ht⟩ := hw
      exact accepts_customArgument ht) (by simp) hw'
    have hclose : Accepts (do expect .closeParen; pure args : Grammar (List String))
        ([⟨.closeParen, 0⟩] ++ []) args F :=
      (accepts_expect (t := ⟨.closeParen, 0⟩) rfl).bind (accepts_pure _)
        (follows_of_nil fun _ hx => hx)
    have h : Accepts customArguments ([⟨.openParen, 0⟩] ++
        (spans w' ++ ([⟨.closeParen, 0⟩] ++ []))) args F :=
      (accepts_takeIf (t := ⟨.openParen, 0⟩) rfl).bind (hargs.bind hclose fun _ _ _ => rfl)
        fun _ _ hf => follows_any _ hf
    exact ⟨args, by simpa using h⟩

/-- A type is read whole: its name, and what the table of types lets follow it. The cases are
those of the table, in its order. -/
theorem accepts_dataType {w : List Token} (h : MySql.DataType w) (hF : ∀ x, F x → TypeEnds x) :
    ∃ ty, Accepts dataType (spans w) ty F := by
  obtain ⟨t, s, rest, rfl, ht, hrest⟩ := h
  have hname : ∀ {k : String → Grammar SqlDdl.DataType}, (∃ ty, Accepts (k s) (spans rest) ty F) →
      ∃ ty, Accepts (expectName "data type" >>= k) (spans (t :: rest)) ty F := by
    rintro k ⟨ty, hty⟩
    have h : Accepts (expectName "data type" >>= k) ([⟨t, 0⟩] ++ spans rest) ty F :=
      (accepts_expectName (F := fun _ => True) _ ht).bind hty fun _ _ hf => follows_any _ hf
    exact ⟨ty, by simpa using h⟩
  have hparen : ∀ x, F x → x ≠ some .openParen := fun x hx => (hF x hx).ne_openParen
  have hargs : ∀ {max : Nat} (k : List Nat → SqlDdl.DataType), Opt (TypeArguments max) rest →
      ∃ ty, Accepts (typeArguments max >>= fun a => pure (k a)) (spans rest) ty F := by
    intro max k h
    obtain ⟨args, ha⟩ := accepts_optTypeArguments h hparen
    exact ⟨_, ha.bind_pure k⟩
  unfold dataType
  apply hname
  generalize Text.toUpperCase s = upper at hrest ⊢
  split
  iterate 6 exact accepts_integerType _ hrest hF
  iterate 5 exact hargs _ hrest
  · obtain ⟨p, a, rfl, hp, ha⟩ := hrest
    have hp' : ∃ b, Accepts (takeWord "PRECISION") (spans p) b (Before a F) := by
      refine accepts_optWord hp fun u hu => ?_
      rcases ha with rfl | ⟨ts, -, -, -, rfl⟩
      · exact (hF _ hu).2.2.2
      · cases hu
        rfl
    obtain ⟨args, ha⟩ := accepts_optTypeArguments ha hparen
    obtain ⟨b, hp'⟩ := hp'
    exact ⟨_, hp'.then (ha.bind_pure _)⟩
  iterate 2
    · cases hrest
      exact ⟨_, accepts_pure _⟩
  iterate 2 exact hargs _ hrest
  · obtain ⟨ts, hne, hlen, hall, rfl⟩ := hrest
    obtain ⟨a, rfl⟩ : ∃ a, ts = [a] := by
      match ts, hne, hlen with
      | [a], _, _ => exact ⟨a, rfl⟩
    obtain ⟨n, hn⟩ := accepts_typeArgument (F := (· = some .closeParen)) (hall a (by simp))
    have hclose : Accepts (do expect .closeParen; return SqlDdl.DataType.varchar n)
        ([⟨.closeParen, 0⟩] ++ []) (.varchar n) F :=
      (accepts_expect (t := ⟨.closeParen, 0⟩) rfl).bind (accepts_pure _)
        (follows_of_nil fun _ hx => hx)
    have h : Accepts (do
          expect .openParen
          let length ← typeArgument
          expect .closeParen
          return SqlDdl.DataType.varchar length)
        ([⟨.openParen, 0⟩] ++ (spans [a] ++ ([⟨.closeParen, 0⟩] ++ []))) (.varchar n) F :=
      (accepts_expect (t := ⟨.openParen, 0⟩) rfl).bind (hn.bind hclose fun _ _ _ => rfl)
        fun _ _ hf => follows_any _ hf
    exact ⟨_, by simpa using h⟩
  iterate 8 exact hargs _ hrest
  · cases hrest
    exact ⟨_, accepts_pure _⟩
  iterate 3 exact hargs _ hrest
  · simp only [TypeRest, *] at hrest
    obtain ⟨args, ha⟩ := accepts_customArguments hrest hparen
    exact ⟨_, ha.bind_pure _⟩


/-! ## Columns -/

/-- The tokens an option of a column starts with. -/
def StartsOption (t : Token) : Prop :=
  t = .keyword .not ∨ t = .keyword .null ∨ t = .keyword .default ∨ t = .keyword .primary ∨
    t = .keyword .unique ∨ t.isWord "AUTO_INCREMENT" ∨ t.isWord "COMMENT"

/-- What may follow an option of a column: nothing that goes on with an expression, and no
`KEY` after `UNIQUE`. -/
def OptionFollows (x : Option Token) : Prop := Closes 0 x ∧ x ≠ some (.keyword .key)

/-- What ends the options of a column: no token that starts one. -/
def EndsOptions : Option Token → Prop
  | none => True
  | some t => ¬ StartsOption t

theorem StartsOption.follows {t : Token} (h : StartsOption t) :
    OptionFollows (some t) ∧ TypeEnds (some t) := by
  rcases h with rfl | rfl | rfl | rfl | rfl | h | h
  iterate 5 exact ⟨⟨rfl, by simp⟩, by simp [TypeEnds, Token.isWord]⟩
  all_goals
    obtain ⟨s, rfl⟩ : ∃ s, t = .ident s := by cases t <;> simp_all [Token.isWord]
    refine ⟨⟨rfl, by simp⟩, by simp, ?_, ?_, ?_⟩ <;>
      rw [Token.isWord_eq_of_isWord h] <;> decide

theorem OtherOption.head {o : List Token} (h : OtherOption o) :
    ∃ t w, o = t :: w ∧ StartsOption t ∧ t ≠ .keyword .not ∧ t ≠ .keyword .null := by
  cases h with
  | default => exact ⟨_, _, rfl, by simp [StartsOption], by simp, by simp⟩
  | primaryKey => exact ⟨_, _, rfl, by simp [StartsOption], by simp, by simp⟩
  | unique => exact ⟨_, _, rfl, by simp [StartsOption], by simp, by simp⟩
  | uniqueKey => exact ⟨_, _, rfl, by simp [StartsOption], by simp, by simp⟩
  | autoIncrement ht =>
      exact ⟨_, _, rfl, by simp [StartsOption, ht], Token.ne_of_isWord ht (by simp),
        Token.ne_of_isWord ht (by simp)⟩
  | comment ht =>
      exact ⟨_, _, rfl, by simp [StartsOption, ht], Token.ne_of_isWord ht (by simp),
        Token.ne_of_isWord ht (by simp)⟩

theorem Nullability.head {n : List Token} (h : Nullability n) :
    ∃ t w, n = t :: w ∧ StartsOption t := by
  rcases h with rfl | rfl <;> exact ⟨_, _, rfl, by simp [StartsOption]⟩

/-- What follows a phrase that phrases of `P` follow, each starting with a token of `S`. -/
theorem before_flatten_of {P : List Token → Prop} {S : Token → Prop} {C : Option Token → Prop}
    (hP : ∀ o, P o → ∃ t w, o = t :: w ∧ S t) (hS : ∀ t, S t → C (some t))
    {os : List (List Token)} (hall : ∀ o ∈ os, P o) {rest : List Token}
    (hrest : ∀ x, Before rest G x → C x) : ∀ x, Before (os.flatten ++ rest) G x → C x := by
  cases os with
  | nil => simpa using hrest
  | cons o os =>
      obtain ⟨t, w, rfl, ht⟩ := hP o (hall o (by simp))
      intro x hx
      simp only [List.flatten_cons, List.cons_append, Before] at hx
      subst hx
      exact hS t ht

theorem accepts_nullability {n : List Token} (h : Nullability n) :
    ∃ b, Accepts nullability (spans n) (some b) F := by
  rcases h with rfl | rfl
  · refine ⟨true, fun rs stop _ => ?_⟩
    simp [nullability, run_bind, run_takeIf]
  · refine ⟨false, fun rs stop _ => ?_⟩
    simp [nullability, expect, run_bind, run_takeIf]

theorem accepts_nullability_none (hF : ∀ x, F x → x ≠ some (.keyword .not) ∧ x ≠ some (.keyword .null)) :
    Accepts nullability [] none F := by
  intro rs stop hf
  obtain ⟨x, -, hnext, hx⟩ := Cursor.peek_of_follows hf
  simp [nullability, run_bind, run_takeIf, hnext, (hF x hx).1, (hF x hx).2]

/-- An option other than nullability is read whole, and leaves the nullability as it was. -/
theorem accepts_otherOption (col : Column) {o : List Token} (ho : OtherOption o)
    (hfree : TestsLast o) (hF : ∀ x, F x → OptionFollows x) :
    ∃ col', col'.nullable = col.nullable ∧ Accepts (otherOption col) (spans o) (.inr col') F := by
  cases ho with
  | @default w he =>
      obtain ⟨e, he⟩ := he
      have hexpr : Accepts expression (spans w) e F :=
        accepts_expression (by simpa using he) (by simpa using hfree.tail) fun x hx => (hF x hx).1
      refine ⟨{ col with defaultValue := some e }, rfl, fun rs stop hf => ?_⟩
      have h := hexpr rs stop hf
      simp only [otherOption, liftM_self, exprParser_expression, spans_cons, run_bind, run_takeIf,
        Cursor.next?_ofTokens, List.cons_append, if_true, Cursor.advance_ofTokens, h]
      rfl
  | primaryKey =>
      refine ⟨{ col with primaryKey := true }, rfl, fun rs stop _ => ?_⟩
      simp [otherOption, expect, run_bind, run_takeIf]
  | unique =>
      refine ⟨{ col with unique := true }, rfl, fun rs stop hf => ?_⟩
      obtain ⟨x, -, hnext, hx⟩ := Cursor.peek_of_follows hf
      simp [otherOption, run_bind, run_takeIf, hnext, (hF x hx).2]
  | uniqueKey =>
      refine ⟨{ col with unique := true }, rfl, fun rs stop _ => ?_⟩
      simp [otherOption, run_bind, run_takeIf]
  | autoIncrement ht =>
      refine ⟨{ col with autoIncrement := true }, rfl, fun rs stop _ => ?_⟩
      simp [otherOption, run_bind, run_takeIf, run_takeWord, ht, Token.ne_of_isWord ht]
  | @comment t s ht =>
      refine ⟨{ col with comment := some s }, rfl, fun rs stop _ => ?_⟩
      have hauto : t.isWord "AUTO_INCREMENT" = false := by
        rw [Token.isWord_eq_of_isWord ht]
        decide
      simp [otherOption, stringLiteral, run_bind, run_takeIf, run_takeWord, run_takeMap, ht, hauto,
        Token.ne_of_isWord ht]


theorem Accepts.loop_then {round : σ → Grammar (β ⊕ σ)} {done : σ → β} {s s' : σ} {b : β}
    {w₁ w₂ : List Token} (h : Accepts (round s) (spans w₁) (.inr s') (Before w₂ G))
    (hne : w₁ ≠ []) (hl : Accepts (loop round done s') (spans w₂) b G) :
    Accepts (loop round done s) (spans (w₁ ++ w₂)) b G := by
  rw [spans_append]
  exact h.loop_step_of_ne_nil (spans_ne_nil hne) hl (follows_before w₂)

/-- A round of the options reads an option other than nullability whole. -/
theorem accepts_columnOption_other (col : Column) {o : List Token} (ho : OtherOption o)
    (hfree : TestsLast o) (hF : ∀ x, F x → OptionFollows x) :
    ∃ col', col'.nullable = col.nullable ∧ Accepts (columnOption col) (spans o) (.inr col') F := by
  obtain ⟨col', hnull, hacc⟩ := accepts_otherOption col ho hfree hF
  obtain ⟨t, w, rfl, -, hnot, hnull'⟩ := OtherOption.head ho
  have hnone : Accepts nullability (spans []) none (Before (t :: w) F) :=
    accepts_nullability_none fun x hx => by
      subst hx
      exact ⟨by simpa using hnot, by simpa using hnull'⟩
  exact ⟨col', hnull, accepts_offset_bind fun _ => hnone.then hacc⟩

/-- A round of the options reads the nullability of a column that has none yet. -/
theorem accepts_columnOption_nullability {col : Column} {n : List Token} (hn : Nullability n)
    (hcol : col.nullable = none) :
    ∃ b, Accepts (columnOption col) (spans n) (.inr { col with nullable := some b }) F := by
  obtain ⟨b, hb⟩ := accepts_nullability (F := F) hn
  refine ⟨b, accepts_offset_bind fun _ => ?_⟩
  rw [← List.append_nil (spans n)]
  refine hb.bind ?_ (follows_of_nil fun _ hx => hx)
  simp only [hcol, Option.isSome_none]
  exact accepts_pure _

theorem accepts_columnOption_end {col : Column} (hF : ∀ x, F x → EndsOptions x) :
    Accepts (columnOption col) [] (.inl col) F := by
  intro rs stop hf
  obtain ⟨x, -, hnext, hx⟩ := Cursor.peek_of_follows hf
  cases x with
  | none =>
      simp [columnOption, nullability, otherOption, run_bind, run_takeIf, run_takeWord, hnext]
  | some t =>
      have ht : ¬ StartsOption t := hF _ hx
      simp only [StartsOption, not_or, Bool.not_eq_true] at ht
      obtain ⟨hnot, hnull, hdef, hprim, huniq, hauto, hcomm⟩ := ht
      simp [columnOption, nullability, otherOption, run_bind, run_takeIf, run_takeWord, hnext,
        hnot, hnull, hdef, hprim, huniq, hauto, hcomm]

/-- What options other than nullability and then `rest` start with. -/
theorem before_otherOptions {C : Option Token → Prop} (hC : ∀ t, StartsOption t → C (some t))
    {os : List (List Token)} (hall : ∀ o ∈ os, OtherOption o) {rest : List Token}
    (hrest : ∀ x, Before rest G x → C x) : ∀ x, Before (os.flatten ++ rest) G x → C x :=
  before_flatten_of (P := OtherOption) (fun _ ho => by
    obtain ⟨t, w, h, hs, -⟩ := OtherOption.head ho
    exact ⟨t, w, h, hs⟩) hC hall hrest

/-- What an optional nullability and then `rest` start with. -/
theorem before_nullability {C : Option Token → Prop} (hC : ∀ t, StartsOption t → C (some t))
    {n : List Token} (hn : Opt Nullability n) {rest : List Token}
    (hrest : ∀ x, Before rest G x → C x) : ∀ x, Before (n ++ rest) G x → C x := by
  rcases hn with rfl | hn
  · simpa using hrest
  · obtain ⟨t, w, rfl, ht⟩ := Nullability.head hn
    rintro x rfl
    exact hC t ht

/-- Options other than nullability, read round by round, leave the nullability as it was. -/
theorem accepts_otherOptions (rest : List Token) (hrest : ∀ x, Before rest F x → OptionFollows x) :
    ∀ {os : List (List Token)} (col : Column), (∀ o ∈ os, OtherOption o) →
      TestsLast os.flatten →
      (∀ col' : Column, col'.nullable = col.nullable →
        ∃ c, Accepts (loop columnOption id col') (spans rest) c F) →
      ∃ c, Accepts (loop columnOption id col) (spans (os.flatten ++ rest)) c F
  | [], col, _, _, hk => hk col rfl
  | o :: os, col, hall, hfree, hk => by
      have hnext : ∀ x, Before (os.flatten ++ rest) F x → OptionFollows x :=
        before_otherOptions (fun _ ht => (StartsOption.follows ht).1)
          (fun o ho => hall o (List.mem_cons_of_mem _ ho)) hrest
      obtain ⟨col', hnull, hround⟩ := accepts_columnOption_other col
        (hall o List.mem_cons_self) hfree.left hnext
      obtain ⟨c, hc⟩ := accepts_otherOptions rest hrest col'
        (fun o ho => hall o (List.mem_cons_of_mem _ ho)) hfree.right
        (fun col'' h => hk col'' (h.trans hnull))
      obtain ⟨t, w, rfl, -⟩ := OtherOption.head (hall _ List.mem_cons_self)
      refine ⟨c, ?_⟩
      rw [List.flatten_cons, List.append_assoc]
      exact hround.loop_then (List.cons_ne_nil _ _) hc


/-- A column definition is read whole, before a comma or a closing parenthesis. -/
theorem accepts_columnDef {w : List Token} (h : ColumnDef w) (hfree : TestsLast w)
    (hF : ∀ x, F x → x = some .comma ∨ x = some .closeParen) :
    ∃ col, Accepts columnDef (spans w) col F := by
  obtain ⟨t, ty, os₁, n, os₂, rfl, ht, hty, hall, hn⟩ := h
  obtain ⟨s, hs⟩ := Option.isSome_iff_exists.mp ht
  have hall₁ : ∀ o ∈ os₁, OtherOption o := fun o ho => hall o (by simp [ho])
  have hall₂ : ∀ o ∈ os₂, OtherOption o := fun o ho => hall o (by simp [ho])
  have hfree₁ : TestsLast os₁.flatten := hfree.left.left.right
  have hfree₂ : TestsLast os₂.flatten := hfree.right
  have hFend : ∀ x, F x → (OptionFollows x ∧ TypeEnds x) ∧ EndsOptions x := fun x hx => by
    rcases hF x hx with rfl | rfl <;>
      exact ⟨⟨⟨rfl, by simp⟩, by simp [TypeEnds, Token.isWord]⟩, by simp [EndsOptions, StartsOption, Token.isWord]⟩
  have hstarts : ∀ t, StartsOption t → OptionFollows (some t) ∧ TypeEnds (some t) :=
    fun _ ht => StartsOption.follows ht
  have hbefore₂ : ∀ x, Before os₂.flatten F x → OptionFollows x ∧ TypeEnds x := by
    simpa using before_otherOptions hstarts hall₂ fun x (hx : Before [] F x) => (hFend x hx).1
  have hbefore : ∀ x, Before (os₁.flatten ++ (n ++ os₂.flatten)) F x → OptionFollows x ∧ TypeEnds x :=
    before_otherOptions hstarts hall₁ (before_nullability hstarts hn hbefore₂)
  have htail : ∀ col : Column, ∃ c, Accepts (loop columnOption id col) (spans os₂.flatten) c F := by
    intro col
    simpa using accepts_otherOptions [] (fun x hx => (hFend x hx).1.1) col hall₂ hfree₂
      fun col' _ => ⟨col', accepts_loop_finish (accepts_columnOption_end fun x hx => (hFend x hx).2)⟩
  have hmid : ∀ col : Column, col.nullable = none →
      ∃ c, Accepts (loop columnOption id col) (spans (n ++ os₂.flatten)) c F := by
    intro col hcol
    rcases hn with rfl | hn
    · simpa using htail col
    · obtain ⟨b, hb⟩ := accepts_columnOption_nullability (F := Before os₂.flatten F) hn hcol
      obtain ⟨c, hc⟩ := htail { col with nullable := some b }
      obtain ⟨_, _, rfl, -⟩ := Nullability.head hn
      exact ⟨c, hb.loop_then (List.cons_ne_nil _ _) hc⟩
  obtain ⟨dty, hdty⟩ := accepts_dataType hty fun x hx => (hbefore x hx).2
  obtain ⟨c, hc⟩ := accepts_otherOptions (n ++ os₂.flatten)
    (fun x hx => (before_nullability hstarts hn hbefore₂ x hx).1) { name := s, dataType := dty }
    hall₁ hfree₁ hmid
  have hw : t :: ty ++ os₁.flatten ++ n ++ os₂.flatten =
      [t] ++ (ty ++ (os₁.flatten ++ (n ++ os₂.flatten))) := by simp
  rw [hw]
  exact ⟨c, (accepts_name hs).then (hdty.then hc)⟩


/-! ## Indexes -/

theorem SepBy1.head {P : List Token → Prop} {sep : Token} {C : Token → Prop}
    (hP : ∀ v, P v → ∃ t v', v = t :: v' ∧ C t) {w : List Token} (h : SepBy1 P sep w) :
    ∃ t w', w = t :: w' ∧ C t := by
  cases h with
  | one hw => exact hP _ hw
  | cons hw _ =>
      obtain ⟨t, v', rfl, ht⟩ := hP _ hw
      exact ⟨t, _, rfl, ht⟩

theorem Ordered.head {w : List Token} (h : Ordered w) : ∃ t w', w = t :: w' ∧ t ≠ .closeParen := by
  obtain ⟨ew, d, rfl, ⟨e, n, -, he⟩, -⟩ := h
  obtain ⟨t, w', rfl, ht⟩ := he.head
  exact ⟨t, _, rfl, ht⟩

theorem accepts_indexType_none (hF : ∀ t, F (some t) → t.isWord "USING" = false) :
    Accepts indexType [] none F := by
  intro rs stop hf
  obtain ⟨x, -, hnext, hx⟩ := Cursor.peek_of_follows hf
  cases x with
  | none => simp [indexType, run_bind, run_takeWord, hnext]
  | some t => simp [indexType, run_bind, run_takeWord, hnext, hF t hx]

theorem accepts_indexType {w : List Token} (h : IndexType w) :
    ∃ i, i.isSome ∧ Accepts indexType (spans w) i F := by
  obtain ⟨u, t, rfl, hu, ht⟩ := h
  obtain ⟨n, hn⟩ := Option.isSome_iff_exists.mp ht
  refine ⟨some n, rfl, ?_⟩
  have husing : Accepts (takeWord "USING") (spans [u]) true (Before [t] F) :=
    accepts_takeWord (t := ⟨u, 0⟩) hu
  have hname : Accepts (expectName "index type") (spans [t]) n F := accepts_expectName _ hn
  unfold indexType
  exact husing.then (hname.bind_pure some)

theorem accepts_indexColumn {w : List Token} (h : Ordered w) (hfree : TestsLast w)
    (hF : ∀ x, F x → x = some .comma ∨ x = some .closeParen) :
    ∃ e, Accepts indexColumn (spans w) e F := by
  obtain ⟨ew, d, rfl, ⟨e, he⟩, hd⟩ := h
  have hends : ∀ x, Before d F x → Closes 0 x := by
    rcases hd with rfl | hd
    · intro x hx
      rcases hF x hx with rfl | rfl
      · exact closes_comma 0
      · exact closes_closeParen 0
    · simp only [List.mem_cons, List.not_mem_nil, or_false] at hd
      rcases hd with rfl | rfl <;> rintro x rfl <;> rfl
  have hexpr : Accepts expression (spans ew) e (Before d F) :=
    accepts_expression (by simpa using he) (by simpa using hfree.left) hends
  refine ⟨e, hexpr.then ?_⟩
  rcases hd with rfl | hd
  · refine ((accepts_takeMap_none fun u hu => ?_).bind_pure fun _ => e : Accepts _ [] e F)
    rcases hF _ hu with h | h <;> simp only [Option.some.injEq] at h <;> subst h <;> rfl
  · simp only [List.mem_cons, List.not_mem_nil, or_false] at hd
    rcases hd with rfl | rfl
    · exact (accepts_takeMap (t := ⟨.keyword .asc, 0⟩) rfl).bind_pure fun _ => e
    · exact (accepts_takeMap (t := ⟨.keyword .desc, 0⟩) rfl).bind_pure fun _ => e


theorem accepts_ite_true {c : Bool} (hc : c = true) {g g' : Grammar β} {ws : List Spanned} {b : β}
    (h : Accepts g ws b F) : Accepts (if c = true then g else g') ws b F := by
  simpa [hc] using h

theorem accepts_ite_false {c : Bool} (hc : c = false) {g g' : Grammar β} {ws : List Spanned}
    {b : β} (h : Accepts g' ws b F) : Accepts (if c = true then g else g') ws b F := by
  simpa [hc] using h

theorem accepts_indexColumns {w : List Token} (h : Parens (SepBy1 Ordered .comma) w)
    (hfree : TestsLast w) : ∃ cols, Accepts indexColumns (spans w) cols F := by
  obtain ⟨w', rfl, hw'⟩ := h
  have hfree' : TestsLast w' := hfree.tail.left
  obtain ⟨cols, hcols⟩ : ∃ cols, Accepts (sepBy1 indexColumn .comma) (spans w') cols
      (Before [.closeParen] F) :=
    accepts_sepBy1 (fun v hv => accepts_indexColumn hv.1 hv.2 fun x hx => by simpa [Before] using hx)
      (by simp [Before]) (SepBy1.testsLast hw' hfree')
  have hclose : Accepts (expect .closeParen) (spans [.closeParen]) () F :=
    accepts_expect_spans _
  have hopen : Accepts (expect .openParen) (spans [.openParen]) () (Before (w' ++ [.closeParen]) F) :=
    accepts_expect_spans _
  obtain ⟨t, v, rfl, ht⟩ := SepBy1.head (fun _ => Ordered.head) hw'
  have hrest : Accepts (sepBy1 indexColumn .comma >>= fun columns =>
      expect .closeParen >>= fun _ => pure columns) (spans (t :: v ++ [.closeParen])) cols F :=
    hcols.then (hclose.bind_pure fun _ => cols)
  refine ⟨cols, ?_⟩
  unfold indexColumns
  refine hopen.then (accepts_look_cons looks_peek (accepts_ite_false ?_ hrest))
  simpa using ht


/-- The columns of an index with its type before or after them, as primary keys and indexes end. -/
theorem accepts_typedColumns (k : Option String → List Expr → β) {w : List Token}
    (h : TypedColumns w) (hfree : TestsLast w)
    (hF : ∀ x, F x → x = some .comma ∨ x = some .closeParen) :
    ∃ b, Accepts (indexType >>= fun before => indexColumns >>= fun columns =>
      if before.isNone = true then indexType >>= fun i => pure (k i columns)
      else pure before >>= fun i => pure (k i columns)) (spans w) b F := by
  obtain ⟨b, cols, a, rfl, hcols, hb, ha, hab⟩ := h
  obtain ⟨columns, hc⟩ := accepts_indexColumns (F := Before a F) hcols hfree.left.right
  rw [List.append_assoc]
  rcases hb with rfl | hb
  · obtain ⟨cols', rfl, -⟩ := hcols
    have hnone : Accepts indexType (spans []) none (Before (.openParen :: cols' ++ [.closeParen] ++ a) F) :=
      accepts_indexType_none fun t ht => by cases ht; rfl
    rcases ha with rfl | ha
    · have hafter : Accepts indexType [] none F := accepts_indexType_none fun t ht => by
        rcases hF _ ht with h | h <;> cases h <;> rfl
      exact ⟨k none columns, hnone.then (hc.then (hafter.bind_pure (k · columns)))⟩
    · obtain ⟨i, -, hafter⟩ := accepts_indexType (F := F) ha
      exact ⟨k i columns, hnone.then (hc.then (hafter.bind_pure (k · columns)))⟩
  · obtain rfl : a = [] := hab.resolve_left fun h => by
      obtain ⟨u, t, rfl, -⟩ := hb
      cases h
    obtain ⟨i, hi, hbefore⟩ := accepts_indexType (F := Before (cols ++ []) F) hb
    obtain ⟨n, rfl⟩ := Option.isSome_iff_exists.mp hi
    exact ⟨k (some n) columns, hbefore.then (hc.then ((accepts_pure (some n)).bind_pure (k · columns)))⟩


theorem accepts_primaryKeyConstraint (name : Option String) {w : List Token}
    (h : TypedColumns w) (hfree : TestsLast w)
    (hF : ∀ x, F x → x = some .comma ∨ x = some .closeParen) :
    ∃ c, Accepts (primaryKeyConstraint name) (spans (.keyword .primary :: .keyword .key :: w)) c F := by
  obtain ⟨c, hc⟩ := accepts_typedColumns (fun i columns => (⟨name, .primaryKey i columns⟩ : Constraint)) h hfree hF
  have hprimary : Accepts (expect (.keyword .primary)) (spans [.keyword .primary]) ()
      (Before (.keyword .key :: w) F) := accepts_expect_spans _
  have hkey : Accepts (expect (.keyword .key)) (spans [.keyword .key]) () (Before w F) :=
    accepts_expect_spans _
  unfold primaryKeyConstraint
  exact ⟨c, hprimary.then (hkey.then hc)⟩

theorem accepts_constraintName {c : List Token} (h : ConstraintName c)
    (hF : ∀ x, F x → x = some (.keyword .key) ∨ x = some (.keyword .primary)) :
    ∃ n, Accepts constraintName (spans c) n F := by
  have hnoName : ∀ u, F (some u) → u.name? = none := fun u hu => by
    rcases hF _ hu with h | h <;> cases h <;> rfl
  unfold constraintName
  rcases h with rfl | ⟨c', rfl, hc'⟩
  · have hnone : Accepts (takeIf (.keyword .constraint)) (spans []) false (Before [] F) :=
      accepts_takeIf_false fun x hx => by rcases hF x hx with rfl | rfl <;> simp
    exact ⟨none, hnone.then (accepts_pure none)⟩
  · have hconstraint : Accepts (takeIf (.keyword .constraint)) (spans [.keyword .constraint]) true
        (Before c' F) := accepts_takeIf_spans _
    rcases hc' with rfl | ⟨t, rfl, ht⟩
    · exact ⟨none, hconstraint.then (accepts_takeMap_none hnoName)⟩
    · obtain ⟨s, hs⟩ := Option.isSome_iff_exists.mp ht
      exact ⟨some s, hconstraint.then (accepts_takeMap (t := ⟨t, 0⟩) hs)⟩

theorem TypedColumns.head {w : List Token} (h : TypedColumns w) :
    ∃ t w', w = t :: w' ∧ (t = .openParen ∨ t.isWord "USING") := by
  obtain ⟨b, cols, a, rfl, ⟨cols', rfl, -⟩, hb, -, -⟩ := h
  rcases hb with rfl | ⟨u, t, rfl, hu, -⟩
  · exact ⟨_, _, rfl, .inl rfl⟩
  · exact ⟨u, _, rfl, .inr hu⟩

/-- An index is read whole; its name is read where the next token is a name and no bare
`USING`. -/
theorem accepts_indexDef {w : List Token} (h : MySql.IndexDef w) (hfree : TestsLast w)
    (hF : ∀ x, F x → x = some .comma ∨ x = some .closeParen) :
    ∃ d, Accepts indexDef (spans w) d F := by
  obtain ⟨n, rest, rfl, hn, hrest⟩ := h
  have hfree' : TestsLast rest := hfree.right
  unfold indexDef
  rcases hn with rfl | ⟨t, rfl, ht, husing⟩
  · obtain ⟨d, hd⟩ := accepts_typedColumns (fun i columns => (⟨none, i, columns⟩ : SqlDdl.IndexDef)) hrest hfree' hF
    obtain ⟨t, r, hr, ht⟩ := TypedColumns.head hrest
    have hnone : Accepts (pure none : Grammar (Option String)) (spans []) none (Before rest F) :=
      accepts_pure none
    refine ⟨d, ?_⟩
    rw [List.nil_append, hr, spans_cons]
    refine accepts_look_cons looks_peekName (accepts_look_cons (looks_peekWord _) ?_)
    rw [← spans_cons, ← hr]
    refine accepts_ite_false ?_ (hnone.then hd)
    rcases ht with rfl | hu
    · simp [Token.name?]
    · simp [hu]
  · obtain ⟨s, hs⟩ := Option.isSome_iff_exists.mp ht
    obtain ⟨d, hd⟩ := accepts_typedColumns (fun i columns => (⟨some s, i, columns⟩ : SqlDdl.IndexDef)) hrest
      hfree' hF
    have hname : Accepts (expectName "identifier") (spans [t]) s (Before rest F) :=
      accepts_expectName _ hs
    refine ⟨d, ?_⟩
    rw [List.singleton_append, spans_cons]
    refine accepts_look_cons looks_peekName (accepts_look_cons (looks_peekWord _) ?_)
    rw [← spans_cons, ← List.singleton_append]
    refine accepts_ite_true ?_ ((hname.map some).then hd)
    simp [hs, husing]


/-! ## Elements -/

theorem ConstraintName.head {c : List Token} (h : ConstraintName c) (u : Token) (w : List Token) :
    ∃ t r, c ++ u :: w = t :: r ∧ (t = .keyword .constraint ∨ t = u) := by
  rcases h with rfl | ⟨c', rfl, -⟩
  · exact ⟨u, w, rfl, .inr rfl⟩
  · exact ⟨_, _, rfl, .inl rfl⟩

theorem accepts_keyConstraint {c w : List Token} (hc : ConstraintName c) (hw : MySql.IndexDef w)
    (hfree : TestsLast w) (hF : ∀ x, F x → x = some .comma ∨ x = some .closeParen) :
    ∃ k, Accepts (tableConstraint .mysql) (spans (c ++ .keyword .key :: w)) k F := by
  obtain ⟨n, hn⟩ := accepts_constraintName (F := Before (.keyword .key :: w) F) hc
    fun x hx => .inl hx
  have hkey : Accepts (takeIf (.keyword .key)) (spans [.keyword .key]) true (Before w F) :=
    accepts_takeIf_spans _
  obtain ⟨d, hd⟩ := accepts_indexDef hw hfree hF
  exact ⟨_, hn.then (hkey.then (hd.bind_pure fun d => (⟨n, .key d⟩ : Constraint)))⟩

theorem accepts_primaryKeyElement {c w : List Token} (hc : ConstraintName c) (hw : TypedColumns w)
    (hfree : TestsLast w) (hF : ∀ x, F x → x = some .comma ∨ x = some .closeParen) :
    ∃ k, Accepts (tableConstraint .mysql) (spans (c ++ .keyword .primary :: .keyword .key :: w)) k F := by
  obtain ⟨n, hn⟩ := accepts_constraintName (F := Before (.keyword .primary :: .keyword .key :: w) F)
    hc fun x hx => .inr hx
  have hnoKey : Accepts (takeIf (.keyword .key)) (spans []) false
      (Before (.keyword .primary :: .keyword .key :: w) F) :=
    accepts_takeIf_false fun x hx => by simp [Before] at hx; simp [hx]
  obtain ⟨k, hk⟩ := accepts_primaryKeyConstraint n hw hfree hF
  have hpeek : Accepts (peek >>= fun x => if (x == some (.keyword .primary)) = true then
      primaryKeyConstraint n else unsupported "table constraint other than KEY or PRIMARY KEY")
      (spans (.keyword .primary :: .keyword .key :: w)) k F :=
    accepts_look_cons looks_peek (accepts_ite_true rfl hk)
  exact ⟨k, hn.then (hnoKey.then hpeek)⟩

/-- An element is read whole, before a comma or a closing parenthesis. -/
theorem accepts_tableElement {w : List Token} (h : MySql.Element w) (hfree : TestsLast w)
    (hF : ∀ x, F x → x = some .comma ∨ x = some .closeParen) :
    ∃ e, Accepts (tableElement .mysql) (spans w) e F := by
  cases h with
  | column hw =>
      obtain ⟨col, hcol⟩ := accepts_columnDef hw hfree hF
      obtain ⟨t, ty, os₁, n, os₂, rfl, ht, -⟩ := hw
      exact ⟨_, accepts_look_cons looks_peekName (accepts_ite_true (by simpa using ht)
        (hcol.bind_pure Element.column))⟩
  | @key c w hc hw =>
      obtain ⟨k, hk⟩ := accepts_keyConstraint hc hw hfree.right.tail hF
      obtain ⟨t, r, hr, ht⟩ := ConstraintName.head hc (.keyword .key) w
      rw [hr] at hk ⊢
      refine ⟨.constraint k, accepts_look_cons looks_peekName (accepts_ite_false ?_
        (accepts_look_cons looks_peek ?_))⟩
      · rcases ht with rfl | rfl <;> rfl
      · rcases ht with rfl | rfl
        · exact hk.bind_pure Element.constraint
        · exact hk.bind_pure Element.constraint
  | @primaryKey c w hc hw =>
      obtain ⟨k, hk⟩ := accepts_primaryKeyElement hc hw hfree.right.tail.tail hF
      obtain ⟨t, r, hr, ht⟩ := ConstraintName.head hc (.keyword .primary) (.keyword .key :: w)
      rw [hr] at hk ⊢
      refine ⟨.constraint k, accepts_look_cons looks_peekName (accepts_ite_false ?_
        (accepts_look_cons looks_peek ?_))⟩
      · rcases ht with rfl | rfl <;> rfl
      · rcases ht with rfl | rfl
        · exact hk.bind_pure Element.constraint
        · exact hk.bind_pure Element.constraint
  | @index w hw =>
      obtain ⟨d, hd⟩ := accepts_indexDef hw hfree.tail hF
      have hindex : Accepts takeAny (spans [.keyword .index]) (some (.keyword .index)) (Before w F) :=
        accepts_takeMap (t := ⟨_, 0⟩) rfl
      exact ⟨_, accepts_look_cons looks_peekName (accepts_ite_false rfl
        (accepts_look_cons looks_peek (hindex.then (hd.bind_pure Element.index))))⟩

theorem accepts_tableElements {w : List Token} (h : Parens (SepBy1 MySql.Element .comma) w)
    (hfree : TestsLast w) : ∃ els, Accepts (tableElements .mysql) (spans w) els F := by
  obtain ⟨w', rfl, hw'⟩ := h
  have hfree' : TestsLast w' := hfree.tail.left
  obtain ⟨els, hels⟩ : ∃ els, Accepts (sepBy1 (tableElement .mysql) .comma) (spans w') els
      (Before [.closeParen] F) :=
    accepts_sepBy1 (fun v hv => accepts_tableElement hv.1 hv.2 fun x hx => by simpa [Before] using hx)
      (by simp [Before]) (SepBy1.testsLast hw' hfree')
  have hopen : Accepts (expect .openParen) (spans [.openParen]) () (Before (w' ++ [.closeParen]) F) :=
    accepts_expect_spans _
  have hclose : Accepts (expect .closeParen) (spans [.closeParen]) () F :=
    accepts_expect_spans _
  unfold tableElements
  exact ⟨els, hopen.then (hels.then (hclose.bind_pure fun _ => els))⟩

end Grammar

end SqlDdl
