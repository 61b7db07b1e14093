import SqlDdl.Proofs.Phrases

/-!
# The generic dialect inside MySQL

MySQL extends the generic grammar in three places: an element may also be an `INDEX` or a `KEY`,
a constraint may also be a `KEY`, and table options and partitioning may follow the elements.
Everything else is one grammar. So a text is a generic statement exactly when it is a MySQL
statement that uses none of those extensions, and then the two dialects read the same statement
(`parse_generic_eq_ok_iff`).

The proof replays the two parsers side by side (`Conserves`): from the same cursor, the generic
rule succeeds with a value and a rest exactly when the MySQL rule does and the value is one the
generic grammar can build. Shared steps conserve trivially; the three hooks are proved by hand.
The MySQL tail reads table options only before a bare word or `DEFAULT`; where the generic
statement ends no such token follows, so the tail is stated for rests where none does
(`Cursor.StartsNoClause`).
-/

namespace SqlDdl

namespace Element

/-- Whether an element is one the generic dialect has too: a column or a primary key. -/
def isGeneric : Element → Bool
  | .column _ => true
  | .constraint ⟨_, .primaryKey _ _⟩ => true
  | _ => false

/-- The elements of MySQL alone are its indexes and its keys. -/
theorem isGeneric_iff (e : Element) :
    e.isGeneric = true ↔ (∀ i, e ≠ .index i) ∧ ∀ name i, e ≠ .constraint ⟨name, .key i⟩ := by
  rcases e with _ | ⟨_, _ | _⟩ | _ <;> simp [isGeneric]

end Element

namespace Statement

/-- A statement that uses nothing of MySQL's own: no table options, no partitioning, and only
generic elements. -/
def InGeneric (st : Statement) : Prop :=
  st.options = {} ∧ st.partitioning = none ∧ ∀ e ∈ st.elements, e.isGeneric = true

end Statement

/-- The next token starts no table option and no partitioning: it is neither a bare word nor
`DEFAULT`. -/
def Cursor.StartsNoClause (c : Cursor) : Prop :=
  ∀ t, c.next? = some t → t ≠ .keyword .default ∧ ∀ w, t ≠ .ident w

theorem Cursor.peek_of_next? {c : Cursor} {t : Token} (h : c.next? = some t) :
    c.peek = .ok (some t) := by
  unfold Cursor.next? at h
  unfold Cursor.peek
  rcases hc : c.rest with _ | ⟨u, r⟩ <;> simp_all

namespace Grammar

open Precedence

variable {α β : Type}

/-- Where `E` holds of the rest, `g` succeeds with a value and that rest exactly when `h` does
and `P` admits the value. -/
def Conserves (P : α → Prop) (E : Cursor → Prop) (g h : Grammar α) : Prop :=
  ∀ c v c', E c' → (g.run c = .ok (v, c') ↔ h.run c = .ok (v, c') ∧ P v)

theorem conserves_refl (E : Cursor → Prop) (g : Grammar α) :
    Conserves (fun _ => True) E g g :=
  fun _ _ _ _ => ⟨fun h => ⟨h, trivial⟩, And.left⟩

/-- A step that conserves on both sides the same: whatever it gives, `P` admits. -/
theorem conserves_self {P : α → Prop} {E : Cursor → Prop} {g : Grammar α}
    (hg : ∀ c v c', g.run c = .ok (v, c') → P v) : Conserves P E g g :=
  fun c v c' _ => ⟨fun h => ⟨h, hg c v c' h⟩, And.left⟩

/-- Sequencing conserves: the second parts may rely on what the first parts admit, which must
follow from what the whole admits, and where the first parts end from where the whole ends. -/
theorem Conserves.bind {Q : α → Prop} {P : β → Prop} {F E : Cursor → Prop}
    {g₁ h₁ : Grammar α} {g₂ h₂ : α → Grammar β} (h₁c : Conserves Q F g₁ h₁)
    (h₂c : ∀ a, Q a → Conserves P E (g₂ a) (h₂ a))
    (hg : ∀ a c₁ v c₂, (g₂ a).run c₁ = .ok (v, c₂) → E c₂ → F c₁)
    (hh : ∀ a c₁ v c₂, (h₂ a).run c₁ = .ok (v, c₂) → P v → E c₂ → Q a ∧ F c₁) :
    Conserves P E (g₁ >>= g₂) (h₁ >>= h₂) := by
  intro c v c' hE
  constructor
  · intro hrun
    obtain ⟨a, c₁, ha, hb⟩ := run_bind_eq_ok hrun
    obtain ⟨ha', hQ⟩ := (h₁c c a c₁ (hg a c₁ v c' hb hE)).1 ha
    obtain ⟨hb', hP⟩ := (h₂c a hQ c₁ v c' hE).1 hb
    rw [run_bind, ha']
    exact ⟨hb', hP⟩
  · rintro ⟨hrun, hP⟩
    obtain ⟨a, c₁, ha, hb⟩ := run_bind_eq_ok hrun
    obtain ⟨hQ, hF⟩ := hh a c₁ v c' hb hP hE
    rw [run_bind, (h₁c c a c₁ hF).2 ⟨ha, hQ⟩]
    exact (h₂c a hQ c₁ v c' hE).2 ⟨hb, hP⟩

theorem Conserves.bind_left {P : β → Prop} {E : Cursor → Prop} (g : Grammar α)
    {g₂ h₂ : α → Grammar β} (h₂c : ∀ a, Conserves P E (g₂ a) (h₂ a)) :
    Conserves P E (g >>= g₂) (g >>= h₂) :=
  (conserves_refl (fun _ => True) g).bind (fun a _ => h₂c a) (fun _ _ _ _ _ _ => trivial)
    fun _ _ _ _ _ _ _ => ⟨trivial, trivial⟩

/-- What is admitted may be restated in other words that agree on what `h` gives. -/
theorem Conserves.congr {P P' : α → Prop} {E : Cursor → Prop} {g h : Grammar α}
    (hc : Conserves P E g h) (hPP' : ∀ c v c', h.run c = .ok (v, c') → (P v ↔ P' v)) :
    Conserves P' E g h := by
  intro c v c' hE
  rw [hc c v c' hE]
  exact and_congr_right (hPP' c v c')

/-! ## Lists of items -/

/-- The end of a round of `sepBy1`, after the item `a`: a separator to go on, or none to
finish. -/
def sepAfter (sep : Token) (acc : List α) (a : α) : Grammar (List α ⊕ List α) := do
  if ← takeIf sep then return .inr (a :: acc) else return .inl (a :: acc).reverse

/-- One round of `sepBy1`: an item, then a separator or none. -/
def sepRound (item : Grammar α) (sep : Token) (acc : List α) : Grammar (List α ⊕ List α) :=
  item >>= sepAfter sep acc

theorem sepBy1_eq (item : Grammar α) (sep : Token) :
    sepBy1 item sep = loop (sepRound item sep) List.reverse [] := rfl

/-- The items in the value of a round. -/
def roundItems : List α ⊕ List α → List α := Sum.elim id id

section Lists

variable {item₁ item₂ : Grammar α} {p : α → Prop} {sep : Token}

theorem sepAfter_items {acc : List α} {a : α} {c c' : Cursor} {r : List α ⊕ List α}
    (h : (sepAfter sep acc a).run c = .ok (r, c')) :
    ∀ x, x ∈ roundItems r ↔ x = a ∨ x ∈ acc := by
  obtain ⟨b, c₂, -, h⟩ := run_bind_eq_ok h
  cases b <;> simp only [Bool.false_eq_true, ↓reduceIte, run_pure, Except.ok.injEq,
    Prod.mk.injEq] at h <;> obtain ⟨rfl, -⟩ := h <;> simp [roundItems, or_comm]

theorem sepRound_items {item : Grammar α} {acc : List α} {c c' : Cursor}
    {r : List α ⊕ List α} (h : (sepRound item sep acc).run c = .ok (r, c')) :
    ∃ a, ∀ x, x ∈ roundItems r ↔ x = a ∨ x ∈ acc := by
  obtain ⟨a, c₁, -, h⟩ := run_bind_eq_ok h
  exact ⟨a, sepAfter_items h⟩

/-- Rounds conserve when the items do, after items that are all admitted. -/
theorem sepRound_conserves (hc : Conserves p (fun _ => True) item₁ item₂) {acc : List α}
    (hacc : ∀ x ∈ acc, p x) :
    Conserves (fun r => ∀ x ∈ roundItems r, p x) (fun _ => True)
      (sepRound item₁ sep acc) (sepRound item₂ sep acc) := by
  refine hc.bind (fun a ha => conserves_self fun c r c' h x hx => ?_)
    (fun _ _ _ _ _ _ => trivial) fun a c₁ r c₂ h hr _ => ⟨hr a ((sepAfter_items h a).2 (.inl rfl)), trivial⟩
  rcases (sepAfter_items h x).1 hx with rfl | hx
  · exact ha
  · exact hacc x hx

/-- Lists conserve when their items do: each round reads the same item on both sides. -/
theorem Conserves.sepBy1 (hc : Conserves p (fun _ => True) item₁ item₂) :
    Conserves (fun vs => ∀ x ∈ vs, p x) (fun _ => True) (sepBy1 item₁ sep)
      (sepBy1 item₂ sep) := by
  intro c vs c' _
  rw [sepBy1_eq, sepBy1_eq]
  constructor
  · intro h
    refine loop_induction (P := fun acc c vs c' => (∀ x ∈ acc, p x) →
        (loop (sepRound item₂ sep) List.reverse acc).run c = .ok (vs, c') ∧ ∀ x ∈ vs, p x)
      ?_ ?_ ?_ h (by simp)
    · intro acc c b c' hr hacc
      obtain ⟨hr', hb⟩ := (sepRound_conserves hc hacc c _ c' trivial).1 hr
      rw [run_loop, hr']
      exact ⟨rfl, hb⟩
    · intro acc c s' c' hr hlt hacc
      obtain ⟨hr', hs⟩ := (sepRound_conserves hc hacc c _ c' trivial).1 hr
      rw [run_loop, hr']
      dsimp only
      rw [if_neg hlt]
      exact ⟨rfl, fun x hx => hs x (List.mem_reverse.1 hx)⟩
    · intro acc c s' c₁ b c' hr hlt ih hacc
      obtain ⟨hr', hs⟩ := (sepRound_conserves hc hacc c _ c₁ trivial).1 hr
      rw [run_loop, hr']
      dsimp only
      rw [if_pos hlt]
      exact ih hs
  · rintro ⟨h, hvs⟩
    refine (loop_induction (P := fun acc c vs c' => (∀ x ∈ acc, x ∈ vs) ∧
        ((∀ x ∈ vs, p x) → (loop (sepRound item₁ sep) List.reverse acc).run c = .ok (vs, c')))
      ?_ ?_ ?_ h).2 hvs
    · intro acc c b c' hr
      obtain ⟨a, ha⟩ := sepRound_items hr
      have hsub : ∀ x ∈ acc, x ∈ b := fun x hx => (ha x).2 (.inr hx)
      refine ⟨hsub, fun hb => ?_⟩
      rw [run_loop, (sepRound_conserves hc (fun x hx => hb x (hsub x hx)) c _ c' trivial).2
        ⟨hr, hb⟩]
    · intro acc c s' c' hr hlt
      obtain ⟨a, ha⟩ := sepRound_items hr
      have hsub : ∀ x ∈ acc, x ∈ s'.reverse := fun x hx => List.mem_reverse.2 ((ha x).2 (.inr hx))
      refine ⟨hsub, fun hb => ?_⟩
      have hs : ∀ x ∈ roundItems (.inr s' : List α ⊕ List α), p x :=
        fun x hx => hb x (List.mem_reverse.2 hx)
      rw [run_loop, (sepRound_conserves hc (fun x hx => hb x (hsub x hx)) c _ c' trivial).2
        ⟨hr, hs⟩]
      dsimp only
      rw [if_neg hlt]
    · intro acc c s' c₁ b c' hr hlt ih
      obtain ⟨a, ha⟩ := sepRound_items hr
      have hsub : ∀ x ∈ acc, x ∈ b := fun x hx => ih.1 x ((ha x).2 (.inr hx))
      refine ⟨hsub, fun hb => ?_⟩
      have hs : ∀ x ∈ roundItems (.inr s' : List α ⊕ List α), p x := fun x hx => hb x (ih.1 x hx)
      rw [run_loop, (sepRound_conserves hc (fun x hx => hb x (hsub x hx)) c _ c₁ trivial).2
        ⟨hr, hs⟩]
      dsimp only
      rw [if_pos hlt]
      exact ih.2 hb

end Lists

theorem conserves_of_fails {P : α → Prop} {E : Cursor → Prop} {g h : Grammar α}
    (hg : ∀ c, ∃ e, g.run c = .error e) (hh : ∀ c, ∃ e, h.run c = .error e) :
    Conserves P E g h := by
  intro c v c' _
  obtain ⟨e, he⟩ := hg c
  obtain ⟨e', he'⟩ := hh c
  rw [he, he']
  simp

/-! ## The hooks of the two dialects -/

theorem primaryKeyConstraint_isGeneric {name : Option String} {c c' : Cursor} {k : Constraint}
    (h : (primaryKeyConstraint name).run c = .ok (k, c')) :
    (Element.constraint k).isGeneric = true := by
  unfold primaryKeyConstraint at h
  obtain ⟨_, _, -, h⟩ := run_bind_eq_ok h
  obtain ⟨_, _, -, h⟩ := run_bind_eq_ok h
  obtain ⟨_, _, -, h⟩ := run_bind_eq_ok h
  obtain ⟨_, _, -, h⟩ := run_bind_eq_ok h
  split at h <;> obtain ⟨_, _, -, h⟩ := run_bind_eq_ok h <;> cases h <;> rfl

theorem tableConstraint_mysql_key {c c' : Cursor} {k : Constraint}
    (hn : c.next? = some (.keyword .key)) (h : (tableConstraint .mysql).run c = .ok (k, c')) :
    (Element.constraint k).isGeneric = false := by
  unfold tableConstraint at h
  simp only [liftM_self] at h
  obtain ⟨name, c₁, hname, hrest⟩ := run_bind_eq_ok h
  have hc₁ : c₁ = c := by
    unfold constraintName at hname
    rw [run_bind, run_takeIf, if_neg (by rw [hn]; simp)] at hname
    simp only [Bool.false_eq_true, ↓reduceIte, run_pure, Except.ok.injEq, Prod.mk.injEq] at hname
    exact hname.2.symm
  rw [hc₁, run_bind, run_takeIf, if_pos hn] at hrest
  obtain ⟨_, _, -, hkey⟩ := run_bind_eq_ok hrest
  cases hkey
  rfl

/-- The two dialects read the same constraints where MySQL reads no key; the generic one refuses
a key. -/
theorem tableConstraint_conserves :
    Conserves (fun k => (Element.constraint k).isGeneric = true) (fun _ => True)
      (tableConstraint .generic) (tableConstraint .mysql) := by
  unfold tableConstraint
  simp only [liftM_self]
  refine Conserves.bind_left constraintName fun name => ?_
  -- after the name both look for `PRIMARY`; they differ only in the words of the error
  have hprimary : Conserves (fun k => (Element.constraint k).isGeneric = true) (fun _ => True)
      (do if (← peek) == some (.keyword .primary) then primaryKeyConstraint name
          else unsupported "table constraint other than PRIMARY KEY")
      (do if (← peek) == some (.keyword .primary) then primaryKeyConstraint name
          else unsupported "table constraint other than KEY or PRIMARY KEY") := by
    refine Conserves.bind_left peek fun p => ?_
    split
    · exact conserves_self fun _ _ _ h => primaryKeyConstraint_isGeneric h
    · exact conserves_of_fails (fun _ => ⟨_, rfl⟩) fun _ => ⟨_, rfl⟩
  intro c v c' _
  rw [run_bind (takeIf _), run_takeIf]
  by_cases hkey : c.next? = some (.keyword .key)
  · -- MySQL reads a key here, which the generic dialect refuses
    rw [if_pos hkey]
    refine ⟨fun h => ?_, fun ⟨h, hv⟩ => ?_⟩
    · rw [run_bind, run_peek, Cursor.peek_of_next? hkey] at h
      simp at h
    · simp only [↓reduceIte] at h
      obtain ⟨_, _, -, h⟩ := run_bind_eq_ok h
      cases h
      cases hv
  · rw [if_neg hkey]
    exact hprimary c v c' trivial

/-- A constraint element, read by either dialect's rule for constraints. -/
theorem constraintElement_conserves :
    Conserves (fun e => e.isGeneric = true) (fun _ => True)
      (do return Element.constraint (← tableConstraint .generic))
      (do return Element.constraint (← tableConstraint .mysql)) := by
  refine tableConstraint_conserves.bind (fun k hk => conserves_self fun _ _ _ h => ?_)
    (fun _ _ _ _ _ _ => trivial) fun k _ _ _ h hv _ => ?_
  all_goals
    simp only [run_pure, Except.ok.injEq, Prod.mk.injEq] at h
    obtain ⟨rfl, -⟩ := h
  · exact hk
  · exact ⟨hv, trivial⟩

/-- The two dialects read the same elements where MySQL reads no index and no key; the generic
one refuses those. -/
theorem tableElement_conserves :
    Conserves (fun e => e.isGeneric = true) (fun _ => True)
      (tableElement .generic) (tableElement .mysql) := by
  unfold tableElement
  simp only [liftM_self]
  refine Conserves.bind_left peekName fun named => ?_
  split
  · refine conserves_self fun _ _ _ h => ?_
    obtain ⟨_, _, -, h⟩ := run_bind_eq_ok h
    simp only [run_pure, Except.ok.injEq, Prod.mk.injEq] at h
    obtain ⟨rfl, -⟩ := h
    rfl
  · intro c v c' _
    rw [run_bind, run_bind, run_peek]
    rcases hp : c.peek with e | t
    · simp
    · have hn : t = c.next? := Cursor.peek_ok hp
      dsimp only
      split
      · exact constraintElement_conserves c v c' trivial
      · exact constraintElement_conserves c v c' trivial
      · refine ⟨fun h => by simp at h, fun ⟨h, hv⟩ => ?_⟩
        split at h
        · contradiction
        · obtain ⟨k, _, hk, h⟩ := run_bind_eq_ok h
          simp only [run_pure, Except.ok.injEq, Prod.mk.injEq] at h
          obtain ⟨rfl, -⟩ := h
          rw [tableConstraint_mysql_key hn.symm hk] at hv
          cases hv
        · contradiction
        · obtain ⟨_, _, -, h⟩ := run_bind_eq_ok h
          obtain ⟨_, _, -, h⟩ := run_bind_eq_ok h
          simp only [run_pure, Except.ok.injEq, Prod.mk.injEq] at h
          obtain ⟨rfl, -⟩ := h
          cases hv
        · simp at h

theorem expect_pure_value {t : Token} {x : β} {c c' : Cursor} {v : β}
    (h : (expect t >>= fun _ => pure x).run c = .ok (v, c')) : v = x := by
  obtain ⟨_, _, -, h⟩ := run_bind_eq_ok h
  simp only [run_pure, Except.ok.injEq, Prod.mk.injEq] at h
  exact h.1.symm

theorem tableElements_conserves :
    Conserves (fun els => ∀ e ∈ els, e.isGeneric = true) (fun _ => True)
      (tableElements .generic) (tableElements .mysql) := by
  refine Conserves.bind_left _ fun _ => ?_
  refine tableElement_conserves.sepBy1.bind
    (fun els hels => conserves_self fun _ _ _ h => expect_pure_value h ▸ hels)
    (fun _ _ _ _ _ _ => trivial) fun els _ _ _ h hv _ => ⟨expect_pure_value h ▸ hv, trivial⟩

/-! ## The tail -/

/-- What ends a table definition in both dialects: the refusal of `ON`, and the trailing query. -/
def tailEnd (stmt : Statement) : Grammar Statement := do
  rejectOnClause
  return { stmt with query := ← trailingQuery }

theorem tableTail_generic (stmt : Statement) : tableTail .generic stmt = pure stmt >>= tailEnd :=
  rfl

theorem tableTail_mysql (stmt : Statement) :
    tableTail .mysql stmt = loop tailClause id stmt >>= tailEnd :=
  rfl

/-- The end of a table definition sets the query only, and reads a token only where the query
starts, with `AS` or `SELECT`. -/
theorem tailEnd_run {stmt v : Statement} {c c' : Cursor} (h : (tailEnd stmt).run c = .ok (v, c')) :
    (∃ q, v = { stmt with query := q }) ∧
      (c' = c ∨ c.next? = some (.keyword .as) ∨ c.next? = some (.keyword .select)) := by
  obtain ⟨_, c₁, hon, hquery⟩ := run_bind_eq_ok h
  have hc₁ : c₁ = c := by
    obtain ⟨p, c₂, hp, hcheck⟩ := run_bind_eq_ok hon
    obtain ⟨-, rfl⟩ := run_peek_ok hp
    split at hcheck
    · simp at hcheck
    · simp only [run_pure, Except.ok.injEq, Prod.mk.injEq] at hcheck
      exact hcheck.2.symm
  subst hc₁
  obtain ⟨q, c₂, hq, hend⟩ := run_bind_eq_ok hquery
  simp only [run_pure, Except.ok.injEq, Prod.mk.injEq] at hend
  obtain ⟨rfl, rfl⟩ := hend
  refine ⟨⟨q, rfl⟩, ?_⟩
  unfold trailingQuery at hq
  simp only [liftM_self] at hq
  rw [run_bind, run_takeIf] at hq
  by_cases has : c₁.next? = some (.keyword .as)
  · exact .inr (.inl has)
  rw [if_neg has] at hq
  obtain ⟨p, c₃, hp, hsel⟩ := run_bind_eq_ok hq
  obtain ⟨rfl, rfl⟩ := run_peek_ok hp
  split at hsel
  · next hif =>
      simp only [Bool.false_or, beq_iff_eq] at hif
      exact .inr (.inr hif)
  · simp only [run_pure, Except.ok.injEq, Prod.mk.injEq] at hsel
    exact .inl hsel.2.symm

theorem takeMap_none {f : Token → Option β} {c c' : Cursor}
    (h : (takeMap f).run c = .ok (none, c')) : c' = c := by
  rw [run_takeMap] at h
  split at h <;> simp only [Except.ok.injEq, Prod.mk.injEq, reduceCtorEq, false_and] at h
  exact h.2.symm

theorem takeIf_false {t : Token} {c c' : Cursor} (h : (takeIf t).run c = .ok (false, c')) :
    c' = c := by
  rw [run_takeIf] at h
  split at h <;> simp only [Except.ok.injEq, Prod.mk.injEq, false_and, Bool.true_eq_false,
    true_and] at h
  exact h.symm

theorem optionName_none {c c' : Cursor} (h : optionName.run c = .ok (none, c')) : c' = c := by
  obtain ⟨hasDefault, c₁, hdef, h₁⟩ := run_bind_eq_ok h
  obtain ⟨word, c₂, hword, h₂⟩ := run_bind_eq_ok h₁
  split at h₂
  · obtain ⟨b, c₃, -, h₃⟩ := run_bind_eq_ok h₂
    split at h₃ <;> obtain ⟨_, _, hname, h₄⟩ := run_bind_eq_ok h₃
    · simp only [run_pure, Except.ok.injEq, Prod.mk.injEq] at hname
      obtain ⟨rfl, rfl⟩ := hname
      dsimp only at h₄
      split at h₄ <;> simp at h₄
    · simp at hname
  · obtain ⟨_, _, hname, h₃⟩ := run_bind_eq_ok h₂
    simp only [run_pure, Except.ok.injEq, Prod.mk.injEq] at hname
    obtain ⟨rfl, rfl⟩ := hname
    dsimp only at h₃
    split at h₃
    · simp at h₃
    · next hok =>
        simp only [run_pure, Except.ok.injEq, Prod.mk.injEq] at h₃
        obtain ⟨rfl, rfl⟩ := h₃
        cases hasDefault
        · rw [takeMap_none hword, takeIf_false hdef]
        · simp at hok

/-- Where no clause starts, no option is named and nothing is read. -/
theorem optionName_stop {c : Cursor} (h : c.StartsNoClause) : optionName.run c = .ok (none, c) := by
  unfold optionName
  simp only [liftM_self, parser_takeWordOf]
  rw [run_bind, run_takeIf, if_neg fun hn => (h _ hn).1 rfl]
  simp only
  rw [run_bind, takeWordOf, run_takeMap]
  rcases hn : c.next? with _ | t
  · rfl
  · have hw : ∀ w, t ≠ .ident w := (h _ hn).2
    cases t <;> first | exact absurd rfl (hw _) | rfl

/-- A clause of the tail that finishes gives back the statement and has read nothing. -/
theorem tailClause_inl {stmt b : Statement} {c c' : Cursor}
    (h : (tailClause stmt).run c = .ok (.inl b, c')) : b = stmt ∧ c' = c := by
  obtain ⟨name, c₁, hname, h₁⟩ := run_bind_eq_ok h
  split at h₁
  · obtain ⟨_, _, -, h₂⟩ := run_bind_eq_ok h₁
    obtain ⟨_, _, -, h₃⟩ := run_bind_eq_ok h₂
    simp at h₃
  · next hnone =>
      have hc₁ : c₁ = c := optionName_none (by
        cases name with
        | none => exact hname
        | some n => exact absurd rfl (hnone n))
      obtain ⟨b', c₂, hpw, h₂⟩ := run_bind_eq_ok h₁
      rw [parser_peekWord, run_peekWord] at hpw
      simp only [Except.ok.injEq, Prod.mk.injEq] at hpw
      obtain ⟨-, rfl⟩ := hpw
      cases b'
      · simp only [Bool.false_eq_true, ↓reduceIte, run_pure, Except.ok.injEq, Prod.mk.injEq,
          Sum.inl.injEq] at h₂
        exact ⟨h₂.1.symm, h₂.2.symm.trans hc₁⟩
      · simp only [↓reduceIte] at h₂
        split at h₂
        · simp at h₂
        · obtain ⟨_, _, -, h₃⟩ := run_bind_eq_ok h₂
          obtain ⟨_, _, -, h₄⟩ := run_bind_eq_ok h₃
          simp at h₄

theorem TableOptions.insert_ne_empty (o : TableOptions) (name value : String) :
    o.insert name value ≠ {} := by
  intro h
  have hnames : (o.insert name value).names = [] := by rw [h]; rfl
  rw [TableOptions.names_insert] at hnames
  split at hnames
  · next hmem => simp [hnames] at hmem
  · simp at hnames

/-- A clause of the tail that goes on keeps the elements and has set an option or the
partitioning. -/
theorem tailClause_inr {stmt s' : Statement} {c c' : Cursor}
    (h : (tailClause stmt).run c = .ok (.inr s', c')) :
    s'.elements = stmt.elements ∧ (s'.options ≠ {} ∨ s'.partitioning.isSome) := by
  obtain ⟨name, c₁, -, h₁⟩ := run_bind_eq_ok h
  split at h₁
  · obtain ⟨_, _, -, h₂⟩ := run_bind_eq_ok h₁
    obtain ⟨_, _, -, h₃⟩ := run_bind_eq_ok h₂
    simp only [run_pure, Except.ok.injEq, Prod.mk.injEq, Sum.inr.injEq] at h₃
    obtain ⟨rfl, -⟩ := h₃
    exact ⟨rfl, .inl (TableOptions.insert_ne_empty _ _ _)⟩
  · obtain ⟨_, _, -, h₂⟩ := run_bind_eq_ok h₁
    split at h₂
    · split at h₂
      · simp at h₂
      · obtain ⟨_, _, -, h₃⟩ := run_bind_eq_ok h₂
        obtain ⟨_, _, -, h₄⟩ := run_bind_eq_ok h₃
        simp only [run_pure, Except.ok.injEq, Prod.mk.injEq, Sum.inr.injEq] at h₄
        obtain ⟨rfl, -⟩ := h₄
        exact ⟨rfl, .inr rfl⟩
    · simp at h₂

/-- Where no clause starts, a clause of the tail reads nothing and finishes. -/
theorem tailClause_stop {stmt : Statement} {c : Cursor} (h : c.StartsNoClause) :
    (tailClause stmt).run c = .ok (.inl stmt, c) := by
  unfold tailClause
  simp only [liftM_self, parser_peekWord]
  rw [run_bind, optionName_stop h]
  dsimp only
  rw [run_bind, run_peekWord]
  rcases hn : c.next? with _ | t
  · rfl
  · have hw : ∀ w, t ≠ .ident w := (h _ hn).2
    cases t <;> first | exact absurd rfl (hw _) | rfl

theorem loop_tailClause_stop {stmt : Statement} {c : Cursor} (h : c.StartsNoClause) :
    (loop tailClause id stmt).run c = .ok (stmt, c) := by
  rw [run_loop, tailClause_stop h]

/-- The MySQL tail keeps the elements, and either reads no clause at all or ends with a
statement that has a table option or a partitioning. -/
theorem loop_tailClause_run {stmt b : Statement} {c c' : Cursor}
    (h : (loop tailClause id stmt).run c = .ok (b, c')) :
    b.elements = stmt.elements ∧
      ((b = stmt ∧ c' = c) ∨ b.options ≠ {} ∨ b.partitioning.isSome) := by
  refine loop_induction (P := fun s c b c' => b.elements = s.elements ∧
      ((b = s ∧ c' = c) ∨ b.options ≠ {} ∨ b.partitioning.isSome)) ?_ ?_ ?_ h
  · intro s c b c' hr
    obtain ⟨rfl, rfl⟩ := tailClause_inl hr
    exact ⟨rfl, .inl ⟨rfl, rfl⟩⟩
  · intro s c s' c' hr _
    exact ⟨(tailClause_inr hr).1, .inr (tailClause_inr hr).2⟩
  · intro s c s' c₁ b c' hr _ ⟨hel, hb⟩
    obtain ⟨hel', hset⟩ := tailClause_inr hr
    refine ⟨hel.trans hel', ?_⟩
    rcases hb with ⟨rfl, -⟩ | hb
    · exact .inr hset
    · exact .inr hb

theorem tailEnd_options {stmt v : Statement} {c c' : Cursor}
    (h : (tailEnd stmt).run c = .ok (v, c')) :
    v.options = stmt.options ∧ v.partitioning = stmt.partitioning ∧ v.elements = stmt.elements := by
  obtain ⟨⟨q, rfl⟩, -⟩ := tailEnd_run h
  exact ⟨rfl, rfl, rfl⟩

/-- The end of a table definition starts where no clause starts, when it ends so. -/
theorem tailEnd_startsNoClause {stmt v : Statement} {c c' : Cursor}
    (h : (tailEnd stmt).run c = .ok (v, c')) (hc' : c'.StartsNoClause) : c.StartsNoClause := by
  rcases (tailEnd_run h).2 with rfl | hq | hq
  · exact hc'
  all_goals
    intro t ht
    rw [hq, Option.some.injEq] at ht
    subst ht
    exact ⟨by simp, fun _ => by simp⟩

/-- Both tails read the same where the statement ends with no clause after it, and MySQL's then
reads no option and no partitioning. -/
theorem tableTail_conserves {stmt : Statement} (hs : stmt.options = {} ∧ stmt.partitioning = none) :
    Conserves (fun v => v.options = {} ∧ v.partitioning = none ∧ v.elements = stmt.elements)
      Cursor.StartsNoClause (tableTail .generic stmt) (tableTail .mysql stmt) := by
  rw [tableTail_generic, tableTail_mysql]
  refine Conserves.bind (Q := fun a => a.options = {} ∧ a.partitioning = none ∧
      a.elements = stmt.elements) (F := Cursor.StartsNoClause) ?_ ?_ ?_ ?_
  · intro c v c' hc'
    constructor
    · intro hrun
      simp only [run_pure, Except.ok.injEq, Prod.mk.injEq] at hrun
      obtain ⟨rfl, rfl⟩ := hrun
      exact ⟨loop_tailClause_stop hc', hs.1, hs.2, rfl⟩
    · rintro ⟨hrun, hopt, hpart, -⟩
      obtain ⟨-, hb⟩ := loop_tailClause_run hrun
      rcases hb with ⟨rfl, rfl⟩ | hset
      · rfl
      · simp [hopt, hpart] at hset
  · intro a ha
    refine conserves_self fun _ _ _ hrun => ?_
    obtain ⟨hopt, hpart, hel⟩ := tailEnd_options hrun
    exact ⟨hopt.trans ha.1, hpart.trans ha.2.1, hel.trans ha.2.2⟩
  · exact fun _ _ _ _ hrun hc' => tailEnd_startsNoClause hrun hc'
  · intro a _ v _ hrun hv hc'
    obtain ⟨hopt, hpart, hel⟩ := tailEnd_options hrun
    exact ⟨⟨hopt ▸ hv.1, hpart ▸ hv.2.1, hel ▸ hv.2.2⟩, tailEnd_startsNoClause hrun hc'⟩

theorem tableTail_mysql_elements {stmt v : Statement} {c c' : Cursor}
    (h : (tableTail .mysql stmt).run c = .ok (v, c')) : v.elements = stmt.elements := by
  rw [tableTail_mysql] at h
  obtain ⟨_, _, hloop, hend⟩ := run_bind_eq_ok h
  exact (tailEnd_options hend).2.2.trans (loop_tailClause_run hloop).1

/-- After a statement with nothing of MySQL's own, the two tails read the same. -/
theorem tableTail_conserves_inGeneric {stmt : Statement} (hs : stmt.InGeneric) :
    Conserves Statement.InGeneric Cursor.StartsNoClause
      (tableTail .generic stmt) (tableTail .mysql stmt) := by
  refine (tableTail_conserves ⟨hs.1, hs.2.1⟩).congr fun _ v _ hrun => ?_
  have hel := tableTail_mysql_elements hrun
  unfold Statement.InGeneric
  rw [hel]
  exact ⟨fun ⟨hopt, hpart, _⟩ => ⟨hopt, hpart, hs.2.2⟩, fun hv => ⟨hv.1, hv.2.1, rfl⟩⟩

theorem Conserves.pure_bind {P : β → Prop} {E : Cursor → Prop} {a : α} {g h : α → Grammar β}
    (hc : Conserves P E (g a) (h a)) : Conserves P E (pure a >>= g) (pure a >>= h) := by
  intro c v c' hE
  rw [run_bind, run_bind, run_pure]
  exact hc c v c' hE

/-! ## The statement -/

/-- What a table definition reads after its name: the elements where a parenthesis follows,
then the tail. -/
def tableBody (d : Dialect) (name : ObjectName) (temporary ifNotExists : Bool) :
    Grammar Statement := do
  let stmt : Statement := { name, temporary, ifNotExists }
  let stmt ← if (← peek) == some .openParen then
      pure { stmt with elements := ← tableElements d }
    else pure stmt
  tableTail d stmt

theorem tableBody_conserves (name : ObjectName) (temporary ifNotExists : Bool) :
    Conserves Statement.InGeneric Cursor.StartsNoClause
      (tableBody .generic name temporary ifNotExists) (tableBody .mysql name temporary ifNotExists) := by
  unfold tableBody
  dsimp only
  refine Conserves.bind_left peek fun p => ?_
  split
  · refine tableElements_conserves.bind
      (fun els hels => Conserves.pure_bind (tableTail_conserves_inGeneric ⟨rfl, rfl, hels⟩))
      (fun _ _ _ _ _ _ => trivial) fun els _ v _ hrun hv _ => ?_
    rw [run_bind, run_pure] at hrun
    have hel : v.elements = els := tableTail_mysql_elements hrun
    exact ⟨hel ▸ hv.2.2, trivial⟩
  · exact Conserves.pure_bind (tableTail_conserves_inGeneric ⟨rfl, rfl, by simp⟩)

theorem createTable_conserves (a : Bool) :
    Conserves Statement.InGeneric Cursor.StartsNoClause
      (createTable .generic a) (createTable .mysql a) := by
  unfold createTable
  dsimp only
  repeat' first
    | exact tableBody_conserves _ _ _
    | refine Conserves.bind_left _ fun _ => ?_
    | split

/-- What ends a statement in both dialects: an optional `;` and the end of the text. -/
def statementEnd (stmt : Statement) : Grammar Statement := do
  let _ ← takeIf .semicolon
  if (← peek).isSome then expected "end of statement"
  else return stmt

theorem statement_eq (d : Dialect) : statement d = createTable d true >>= statementEnd := rfl

/-- A statement that ends gives the table definition before it, which ends where no clause
starts: at a `;` or at the end of the text. -/
theorem statementEnd_run {stmt v : Statement} {c c' : Cursor}
    (h : (statementEnd stmt).run c = .ok (v, c')) : v = stmt ∧ c.StartsNoClause := by
  obtain ⟨_, c₁, hsemi, h₁⟩ := run_bind_eq_ok h
  obtain ⟨p, c₂, hp, h₂⟩ := run_bind_eq_ok h₁
  obtain ⟨rfl, rfl⟩ := run_peek_ok hp
  split at h₂
  · simp at h₂
  · next hend =>
      simp only [run_pure, Except.ok.injEq, Prod.mk.injEq] at h₂
      refine ⟨h₂.1.symm, fun t ht => ?_⟩
      rw [run_takeIf] at hsemi
      by_cases hs : c.next? = some .semicolon
      · rw [ht, Option.some.injEq] at hs
        subst hs
        exact ⟨by simp, fun _ => by simp⟩
      · rw [if_neg hs] at hsemi
        simp only [Except.ok.injEq, Prod.mk.injEq] at hsemi
        rw [← hsemi.2, ht] at hend
        simp at hend

theorem statement_conserves :
    Conserves Statement.InGeneric (fun _ => True) (statement .generic) (statement .mysql) := by
  rw [statement_eq, statement_eq]
  refine (createTable_conserves true).bind
    (fun _ hs => conserves_self fun _ _ _ h => (statementEnd_run h).1 ▸ hs)
    (fun _ _ _ _ h _ => (statementEnd_run h).2) fun _ _ _ _ h hv _ => ?_
  obtain ⟨rfl, hc⟩ := statementEnd_run h
  exact ⟨hv, hc⟩

end Grammar

/-- A text parses in a dialect exactly when its statement rule ends with a value. -/
theorem parse_eq_ok_iff {d : Dialect} {sql : String} {st : Statement} :
    parse d sql = .ok st ↔ ∃ c, (Grammar.statement d).run (Cursor.ofString sql) = .ok (st, c) := by
  unfold parse
  rcases Grammar.run (Grammar.statement d) (Cursor.ofString sql) with e | ⟨v, c⟩ <;>
    simp [Except.map]

/-- The generic grammar is the part of MySQL's without its own constructs: a text is a generic
statement exactly when it is a MySQL statement with no table option, no partitioning, no index
and no key, and the two read the same statement. -/
theorem parse_generic_eq_ok_iff (sql : String) (st : Statement) :
    parse .generic sql = .ok st ↔
      parse .mysql sql = .ok st ∧ st.options = {} ∧ st.partitioning = none ∧
        (∀ i, Element.index i ∉ st.elements) ∧
        ∀ name i, Element.constraint ⟨name, .key i⟩ ∉ st.elements := by
  have hgeneric : st.InGeneric ↔ st.options = {} ∧ st.partitioning = none ∧
      (∀ i, Element.index i ∉ st.elements) ∧
      ∀ name i, Element.constraint ⟨name, .key i⟩ ∉ st.elements := by
    unfold Statement.InGeneric
    simp only [Element.isGeneric_iff]
    constructor
    · rintro ⟨hopt, hpart, hel⟩
      exact ⟨hopt, hpart, fun i hi => (hel _ hi).1 i rfl,
        fun name i hk => (hel _ hk).2 name i rfl⟩
    · rintro ⟨hopt, hpart, hidx, hkey⟩
      refine ⟨hopt, hpart, fun e he => ⟨?_, ?_⟩⟩
      · rintro i rfl
        exact hidx i he
      · rintro name i rfl
        exact hkey name i he
  rw [parse_eq_ok_iff, parse_eq_ok_iff, ← hgeneric]
  constructor
  · rintro ⟨c, h⟩
    obtain ⟨h', hst⟩ := (Grammar.statement_conserves _ st c trivial).1 h
    exact ⟨⟨c, h'⟩, hst⟩
  · rintro ⟨⟨c, h⟩, hst⟩
    exact ⟨c, (Grammar.statement_conserves _ st c trivial).2 ⟨h, hst⟩⟩

end SqlDdl
