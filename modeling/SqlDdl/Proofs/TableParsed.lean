import SqlDdl.Proofs.Phrases

/-!
# What the MySQL rules read is derived

Every rule of a MySQL table definition, run on tokens in which no null test is followed by a
binary operator (`TestsLastAt`), reads a phrase of the grammar (`parses_statement`). The proofs follow each rule's code from its first step to its
last, taking each step's reading from the step's own lemma; the repetitions (options of a
column, clauses of the tail, arguments of a type) go by `Parses.loop`, with an invariant that
ties the state of the repetition to what it may still read: a column that has had its
nullability takes no second one, a tail that has had its partitioning takes no second one.
-/

namespace SqlDdl

namespace Grammar

open Precedence MySql

/-- What `takeIf u` read, by what it gave. -/
theorem read_of_takeIf {ws : List Spanned} {u : Token} {b : Bool}
    (h : ws.map Spanned.token = if b then [u] else []) :
    (b = false ∧ ws = []) ∨ (b = true ∧ ws.map Spanned.token = [u]) := by
  cases b
  · exact .inl ⟨rfl, by simpa using h⟩
  · exact .inr ⟨rfl, by simpa using h⟩

/-! ## Names and types -/

theorem parses_name : Parses name fun s w => ∃ t, w = [t] ∧ t.name? = some s :=
  parses_expectName "name"

theorem parses_qualifiedName : Parses qualifiedName fun _ w => QualifiedName w := by
  intro c v c' h hc
  unfold qualifiedName at h
  obtain ⟨xs, c₁, ws, hws, hq, -, h⟩ :=
    (parses_sepBy1 .period (parses_name.mono fun s w ⟨t, hw, ht⟩ =>
      (⟨t, hw, by simp [ht]⟩ : ∃ t, w = [t] ∧ t.name?.isSome))).bind_ok h hc
  cases h
  exact ⟨ws, hws, hq⟩

theorem parses_stringLiteral : Parses stringLiteral fun s w => w = [.string s] := by
  intro c v c' h hc
  unfold stringLiteral at h
  obtain ⟨x, c₁, ws, hws, hx, -, h⟩ := (parses_takeMap _).bind_ok h hc
  rcases hx with ⟨rfl, -⟩ | ⟨t, s, rfl, hw, ht⟩
  · simp at h
  · cases h
    cases t <;> simp at ht
    exact ⟨ws, hws, by rw [hw, ht]⟩

theorem parses_typeArgument : Parses typeArgument fun _ w => ∃ t, w = [t] ∧ IsTypeArgument t := by
  intro c v c' h hc
  unfold typeArgument at h
  obtain ⟨x, c₁, ws, hws, hx, -, h⟩ := (parses_takeMap _).bind_ok h hc
  rcases hx with ⟨rfl, -⟩ | ⟨t, n, rfl, hw, ht⟩
  · simp at h
  · cases h
    cases t <;> simp at ht
    exact ⟨ws, hws, _, hw, _, rfl, by simp [ht]⟩

/-- A round of the numeric arguments reads an argument, and a comma when the list goes on; it
goes on only while the list is shorter than `max`. -/
theorem parses_typeArgumentRound (max : Nat) (args : List Nat) :
    Parses (typeArgumentRound max args) fun r w =>
      (∃ b, r = .inl b ∧ ∃ t, w = [t] ∧ IsTypeArgument t) ∨
      ∃ s', r = .inr s' ∧ s'.length = args.length + 1 ∧ s'.length < max ∧
        ∃ t, w = [t, .comma] ∧ IsTypeArgument t := by
  intro c r c' h hc
  unfold typeArgumentRound at h
  obtain ⟨a, c₁, ws₁, hws₁, ⟨t, ht, harg⟩, hc₁, h⟩ := parses_typeArgument.bind_ok h hc
  dsimp only at h
  split at h
  · cases h
    exact ⟨ws₁, hws₁, .inl ⟨_, rfl, t, ht, harg⟩⟩
  · next hlt =>
      obtain ⟨b, c₂, ws₂, hws₂, hb, -, h⟩ := (parses_takeIf _).bind_ok h hc₁
      rcases read_of_takeIf hb with ⟨rfl, rfl⟩ | ⟨rfl, hb⟩ <;> cases h
      · exact ⟨ws₁, by simpa [hws₂] using hws₁, .inl ⟨_, rfl, t, ht, harg⟩⟩
      · refine ⟨ws₁ ++ ws₂, by rw [hws₁, hws₂, List.append_assoc],
          .inr ⟨_, rfl, rfl, by simpa using hlt, t, by simp [ht, hb], harg⟩⟩

/-- From fewer than `max` arguments, the repetition reads the rest of a list of at most
`max`, with commas between. -/
theorem parses_typeArgumentList (max : Nat) (args : List Nat) :
    Parses (loop (typeArgumentRound max) List.reverse args) fun _ w =>
      args.length < max → ∃ ts : List Token, ts ≠ [] ∧ args.length + ts.length ≤ max ∧
        (∀ a ∈ ts, IsTypeArgument a) ∧ w = ts.intersperse .comma := by
  refine Parses.loop (I := fun args _ w => args.length < max → ∃ ts : List Token, ts ≠ [] ∧
      args.length + ts.length ≤ max ∧ (∀ a ∈ ts, IsTypeArgument a) ∧ w = ts.intersperse .comma)
    (parses_typeArgumentRound max) ?_ ?_ ?_ args
  · rintro args b w (⟨_, ⟨⟩, t, rfl, harg⟩ | ⟨_, ⟨⟩, -⟩) hlt
    refine ⟨[t], by simp, ?_, by simpa using harg, rfl⟩
    simp only [List.length_singleton]
    omega
  · rintro args s' (⟨_, ⟨⟩, -⟩ | ⟨_, ⟨⟩, -, -, t, ht, -⟩)
    simp at ht
  · rintro args s' b w₁ w₂ (⟨_, ⟨⟩, -⟩ | ⟨_, ⟨⟩, hlen, hlt, t, rfl, harg⟩) - hI hargs
    obtain ⟨ts, hne, hts, hall, rfl⟩ := hI hlt
    obtain ⟨u, us, rfl⟩ := List.exists_cons_of_ne_nil hne
    refine ⟨t :: u :: us, by simp, ?_, ?_, by simp⟩
    · simp only [List.length_cons] at hlen hts ⊢
      omega
    · intro a ha
      rcases List.mem_cons.mp ha with rfl | ha
      · exact harg
      · exact hall a ha

theorem parses_typeArguments {max : Nat} (hmax : 0 < max) :
    Parses (typeArguments max) fun _ w => Opt (TypeArguments max) w := by
  intro c v c' h hc
  unfold typeArguments at h
  obtain ⟨b, c₁, ws₁, hws₁, hb, hc₁, h⟩ := (parses_takeIf _).bind_ok h hc
  rcases read_of_takeIf hb with ⟨rfl, rfl⟩ | ⟨rfl, hb⟩
  · cases h
    exact ⟨[], hws₁, .inl rfl⟩
  · obtain ⟨args, c₂, ws₂, hws₂, hargs, hc₂, h⟩ :=
      (parses_typeArgumentList max []).bind_ok h hc₁
    obtain ⟨u, c₃, ws₃, hws₃, hu, -, h⟩ := (parses_expect _).bind_ok h hc₂
    cases h
    obtain ⟨ts, hne, hts, hall, hw⟩ := hargs hmax
    refine ⟨ws₁ ++ ws₂ ++ ws₃, by rw [hws₁, hws₂, hws₃]; simp,
      .inr ⟨ts, hne, by simpa using hts, hall, ?_⟩⟩
    simp [hb, hw, hu]

theorem parses_customArgument :
    Parses customArgument fun _ w => ∃ t, w = [t] ∧ IsCustomArgument t := by
  intro c v c' h hc
  unfold customArgument at h
  obtain ⟨x, c₁, ws, hws, hx, -, h⟩ := (parses_takeMap _).bind_ok h hc
  rcases hx with ⟨rfl, -⟩ | ⟨t, a, rfl, hw, ht⟩
  · simp at h
  · cases h
    refine ⟨ws, hws, t, hw, ?_⟩
    cases t <;> simp [customArgument?, IsCustomArgument] at ht ⊢

theorem parses_customArguments :
    Parses customArguments fun _ w =>
      Opt (Parens (SepBy1 (fun w => ∃ t, w = [t] ∧ IsCustomArgument t) .comma)) w := by
  intro c v c' h hc
  unfold customArguments at h
  obtain ⟨b, c₁, ws₁, hws₁, hb, hc₁, h⟩ := (parses_takeIf _).bind_ok h hc
  rcases read_of_takeIf hb with ⟨rfl, rfl⟩ | ⟨rfl, hb⟩
  · cases h
    exact ⟨[], hws₁, .inl rfl⟩
  · obtain ⟨args, c₂, ws₂, hws₂, hargs, hc₂, h⟩ :=
      (parses_sepBy1 .comma parses_customArgument).bind_ok h hc₁
    obtain ⟨u, c₃, ws₃, hws₃, hu, -, h⟩ := (parses_expect _).bind_ok h hc₂
    cases h
    exact ⟨ws₁ ++ ws₂ ++ ws₃, by rw [hws₁, hws₂, hws₃]; simp, .inr ⟨_, by simp [hb, hu], hargs⟩⟩

/-- What `takeWord w` read is nothing or the word. -/
theorem opt_of_takeWord {x : List Token} {w : String} {b : Bool}
    (h : x = [] ∧ b = false ∨ ∃ t, x = [t] ∧ t.isWord w ∧ b = true) :
    Opt (fun x => ∃ t, x = [t] ∧ t.isWord w) x := by
  rcases h with ⟨rfl, -⟩ | ⟨t, rfl, ht, -⟩
  · exact .inl rfl
  · exact .inr ⟨t, rfl, ht⟩

theorem parses_integerType (size : IntegerSize) :
    Parses (integerType size) fun _ w => IntegerRest w := by
  intro c v c' h hc
  unfold integerType at h
  obtain ⟨args, c₁, ws₁, hws₁, ha, hc₁, h⟩ := (parses_typeArguments Nat.one_pos).bind_ok h hc
  obtain ⟨u, c₂, ws₂, hws₂, hu, hc₂, h⟩ := (parses_takeWord _).bind_ok h hc₁
  obtain ⟨z, c₃, ws₃, hws₃, hz, -, h⟩ := (parses_takeWord _).bind_ok h hc₂
  cases h
  exact ⟨ws₁ ++ ws₂ ++ ws₃, by rw [hws₁, hws₂, hws₃]; simp, _, _, _, by simp, ha,
    opt_of_takeWord hu, opt_of_takeWord hz⟩

/-- A type is a name and what the table of types lets follow it. The cases are those of the
table, in its order. -/
theorem parses_dataType : Parses dataType fun _ w => MySql.DataType w := by
  intro c v c' h hc
  unfold dataType at h
  obtain ⟨name, c₁, ws₁, hws₁, ⟨t, hw₁, ht⟩, hc₁, h⟩ := (parses_expectName _).bind_ok h hc
  have hrun : ∀ {g : Grammar SqlDdl.DataType} {P : List Token → Prop},
      Parses g (fun _ w => P w) → g.run c₁ = .ok (v, c') →
        ∃ ws, c₁.rest = ws ++ c'.rest ∧ P (ws.map Spanned.token) :=
    fun hg h => hg c₁ v c' h hc₁
  have hargs : ∀ max, 0 < max → ∀ k : List Nat → SqlDdl.DataType,
      Parses (typeArguments max >>= fun a => pure (k a)) fun _ w => Opt (TypeArguments max) w :=
    fun _ hmax k => (parses_typeArguments hmax).bind_pure k
  suffices hrest : ∃ ws, c₁.rest = ws ++ c'.rest ∧
      TypeRest (Text.toUpperCase name) (ws.map Spanned.token) by
    obtain ⟨ws₂, hws₂, hR⟩ := hrest
    exact ⟨ws₁ ++ ws₂, by rw [hws₁, hws₂, List.append_assoc], t, name, _, by simp [hw₁], ht, hR⟩
  generalize Text.toUpperCase name = upper at h ⊢
  split at h
  iterate 6 exact hrun (parses_integerType _) h
  iterate 5 exact hrun (hargs 2 (by decide) _) h
  · obtain ⟨p, c₂, ws₂, hws₂, hp, hc₂, h⟩ := (parses_takeWord _).bind_ok h hc₁
    obtain ⟨ws₃, hws₃, ha⟩ := hargs 2 (by decide) _ c₂ v c' h hc₂
    refine ⟨ws₂ ++ ws₃, by rw [hws₂, hws₃, List.append_assoc], ?_⟩
    show ∃ p a, _ = p ++ a ∧ _
    exact ⟨_, _, by simp, opt_of_takeWord hp, ha⟩
  iterate 2 exact hrun ((parses_pure _).mono fun _ _ h => h.2) h
  iterate 2 exact hrun (hargs 1 Nat.one_pos _) h
  · obtain ⟨u₁, c₂, ws₂, hws₂, hu₁, hc₂, h⟩ := (parses_expect _).bind_ok h hc₁
    obtain ⟨n, c₃, ws₃, hws₃, ⟨a, ha, harg⟩, hc₃, h⟩ := parses_typeArgument.bind_ok h hc₂
    obtain ⟨u₂, c₄, ws₄, hws₄, hu₂, -, h⟩ := (parses_expect _).bind_ok h hc₃
    cases h
    refine ⟨ws₂ ++ ws₃ ++ ws₄, by rw [hws₂, hws₃, hws₄]; simp, ?_⟩
    show TypeArguments 1 _
    exact ⟨[a], by simp, by simp, by simpa using harg, by simp [hu₁, ha, hu₂]⟩
  iterate 8 exact hrun (hargs 1 Nat.one_pos _) h
  · exact hrun ((parses_pure _).mono fun _ _ h => h.2) h
  iterate 3 exact hrun (hargs 1 Nat.one_pos _) h
  · obtain ⟨ws₂, hws₂, ha⟩ := hrun (parses_customArguments.bind_pure _) h
    exact ⟨ws₂, hws₂, by simp only [TypeRest, *]⟩

/-! ## Columns -/

theorem parses_nullability :
    Parses nullability fun v w => (v = none ∧ w = []) ∨ (v.isSome ∧ Nullability w) := by
  intro c v c' h hc
  unfold nullability at h
  obtain ⟨b, c₁, ws₁, hws₁, hb, hc₁, h⟩ := (parses_takeIf _).bind_ok h hc
  rcases read_of_takeIf hb with ⟨rfl, rfl⟩ | ⟨rfl, hb⟩
  · obtain ⟨b, c₂, ws₂, hws₂, hb, -, h⟩ := (parses_takeIf _).bind_ok h hc₁
    rcases read_of_takeIf hb with ⟨rfl, rfl⟩ | ⟨rfl, hb⟩ <;> cases h
    · exact ⟨[], rest_trans hws₁ hws₂, .inl ⟨rfl, rfl⟩⟩
    · exact ⟨ws₂, rest_trans hws₁ hws₂, .inr ⟨rfl, .inl hb⟩⟩
  · obtain ⟨u, c₂, ws₂, hws₂, hu, -, h⟩ := (parses_expect _).bind_ok h hc₁
    cases h
    exact ⟨ws₁ ++ ws₂, rest_trans hws₁ hws₂, .inr ⟨rfl, .inr (by simp [hb, hu])⟩⟩

/-- An option other than nullability leaves the column's nullability as it was. The cases are
the options in the order the rule tries them. -/
theorem parses_otherOption (col : Column) :
    Parses (otherOption col) fun r w => (∃ b, r = .inl b ∧ w = []) ∨
      ∃ col', r = .inr col' ∧ col'.nullable = col.nullable ∧ OtherOption w := by
  intro c r c' h hc
  unfold otherOption at h
  obtain ⟨b, c₁, ws₁, hws₁, hb, hc₁, h⟩ := (parses_takeIf _).bind_ok h hc
  rcases read_of_takeIf hb with ⟨rfl, rfl⟩ | ⟨rfl, hb⟩
  swap
  · obtain ⟨e, c₂, ws₂, hws₂, he, -, h⟩ := parses_expression.bind_ok h hc₁
    cases h
    refine ⟨ws₁ ++ ws₂, rest_trans hws₁ hws₂, .inr ⟨_, rfl, rfl, ?_⟩⟩
    rw [List.map_append, hb]
    exact .default ⟨e, he⟩
  obtain ⟨b, c₂, ws₂, hws₂, hb, hc₂, h⟩ := (parses_takeIf _).bind_ok h hc₁
  rcases read_of_takeIf hb with ⟨rfl, rfl⟩ | ⟨rfl, hb⟩
  swap
  · obtain ⟨u, c₃, ws₃, hws₃, hu, -, h⟩ := (parses_expect _).bind_ok h hc₂
    cases h
    refine ⟨ws₂ ++ ws₃, rest_trans (rest_trans hws₁ hws₂) hws₃, .inr ⟨_, rfl, rfl, ?_⟩⟩
    rw [List.map_append, hb, hu]
    exact .primaryKey
  obtain ⟨b, c₃, ws₃, hws₃, hb, hc₃, h⟩ := (parses_takeIf _).bind_ok h hc₂
  rcases read_of_takeIf hb with ⟨rfl, rfl⟩ | ⟨rfl, hb⟩
  swap
  · obtain ⟨k, c₄, ws₄, hws₄, hk, -, h⟩ := (parses_takeIf _).bind_ok h hc₃
    cases h
    refine ⟨ws₃ ++ ws₄, rest_trans (rest_trans (rest_trans hws₁ hws₂) hws₃) hws₄,
      .inr ⟨_, rfl, rfl, ?_⟩⟩
    rcases read_of_takeIf hk with ⟨rfl, rfl⟩ | ⟨rfl, hk⟩
    · simpa [hb] using OtherOption.unique
    · simpa [hb, hk] using OtherOption.uniqueKey
  obtain ⟨b, c₄, ws₄, hws₄, hb, hc₄, h⟩ := (parses_takeWord _).bind_ok h hc₃
  have hrest := rest_trans (rest_trans (rest_trans hws₁ hws₂) hws₃) hws₄
  rcases hb with ⟨hb, rfl⟩ | ⟨t, hb, ht, rfl⟩
  swap
  · cases h
    exact ⟨ws₄, by simpa using hrest, .inr ⟨_, rfl, rfl, by rw [hb]; exact .autoIncrement ht⟩⟩
  obtain rfl := List.map_eq_nil_iff.mp hb
  obtain ⟨b, c₅, ws₅, hws₅, hb, hc₅, h⟩ := (parses_takeWord _).bind_ok h hc₄
  have hrest := rest_trans hrest hws₅
  rcases hb with ⟨hb, rfl⟩ | ⟨t, hb, ht, rfl⟩
  · cases h
    obtain rfl := List.map_eq_nil_iff.mp hb
    exact ⟨[], by simpa using hrest, .inl ⟨_, rfl, rfl⟩⟩
  · obtain ⟨s, c₆, ws₆, hws₆, hs, -, h⟩ := parses_stringLiteral.bind_ok h hc₅
    cases h
    refine ⟨ws₅ ++ ws₆, by simpa using rest_trans hrest hws₆, .inr ⟨_, rfl, rfl, ?_⟩⟩
    rw [List.map_append, hb, hs]
    exact .comment ht

/-- A round of a column's options reads an option other than nullability, which keeps the
column's nullability, or a first `NULL` or `NOT NULL`, which gives it one. -/
theorem parses_columnOption (col : Column) :
    Parses (columnOption col) fun r w => (∃ b, r = .inl b ∧ w = []) ∨
      ∃ col', r = .inr col' ∧ (col'.nullable = col.nullable ∧ OtherOption w ∨
        col.nullable = none ∧ col'.nullable.isSome ∧ Nullability w) := by
  intro c r c' h hc
  unfold columnOption at h
  obtain ⟨off, c₁, hr₁, hc₁, h⟩ := parses_offset.bind_nil h hc
  obtain ⟨x, c₂, ws₂, hws₂, hx, hc₂, h⟩ := parses_nullability.bind_ok h hc₁
  rcases hx with ⟨rfl, hw⟩ | ⟨hx, hn⟩
  · obtain rfl := List.map_eq_nil_iff.mp hw
    obtain ⟨ws, hws, hR⟩ := parses_otherOption col c₂ r c' h hc₂
    refine ⟨ws, by rw [hr₁, hws₂, hws]; rfl, ?_⟩
    rcases hR with hR | ⟨col', rfl, hnull, ho⟩
    · exact .inl hR
    · exact .inr ⟨col', rfl, .inl ⟨hnull, ho⟩⟩
  · obtain ⟨n, rfl⟩ := Option.isSome_iff_exists.mp hx
    dsimp only at h
    split at h
    · simp at h
    · next hnone =>
        cases h
        exact ⟨ws₂, by rw [hr₁, hws₂], .inr ⟨_, rfl, .inr ⟨by simpa using hnone, rfl, hn⟩⟩⟩

/-- The options of a column, in any order, with at most one nullability; none after the
column has one. -/
theorem parses_columnOptions (col : Column) :
    Parses (loop columnOption id col) fun _ w => ∃ (os₁ : List (List Token)) (n : List Token)
      (os₂ : List (List Token)), w = os₁.flatten ++ n ++ os₂.flatten ∧
        (∀ o ∈ os₁ ++ os₂, OtherOption o) ∧ Opt Nullability n ∧ (col.nullable.isSome → n = []) := by
  refine Parses.loop_atMostOnce (fun col => col.nullable.isSome) (P := OtherOption)
    (fun col => (parses_columnOption col).mono ?_) (fun h => by cases h) ?_ id col
  · rintro r w (hend | ⟨col', rfl, ⟨hnull, ho⟩ | ⟨hnone, hsome, hn⟩⟩)
    · exact .inl hend
    · exact .inr ⟨col', rfl, .inl ⟨by rw [hnull], ho⟩⟩
    · exact .inr ⟨col', rfl, .inr ⟨by simp [hnone], hsome, hn⟩⟩
  · rintro (h | h) <;> cases h

theorem parses_columnDef : Parses columnDef fun _ w => ColumnDef w := by
  intro c v c' h hc
  unfold columnDef at h
  obtain ⟨nm, c₁, ws₁, hws₁, ⟨t, ht, hname⟩, hc₁, h⟩ := parses_name.bind_ok h hc
  obtain ⟨ty, c₂, ws₂, hws₂, hty, hc₂, h⟩ := parses_dataType.bind_ok h hc₁
  obtain ⟨ws₃, hws₃, os₁, n, os₂, hw, hall, hopt, -⟩ := parses_columnOptions _ c₂ v c' h hc₂
  refine ⟨ws₁ ++ ws₂ ++ ws₃, by rw [hws₁, hws₂, hws₃]; simp,
    t, ws₂.map Spanned.token, os₁, n, os₂, by simp [ht, hw], by simp [hname], hty, hall, hopt⟩

/-! ## Indexes and elements -/

theorem parses_indexType :
    Parses indexType fun v w => (v = none ∧ w = []) ∨ (v.isSome ∧ IndexType w) := by
  intro c v c' h hc
  unfold indexType at h
  obtain ⟨b, c₁, ws₁, hws₁, hb, hc₁, h⟩ := (parses_takeWord _).bind_ok h hc
  rcases hb with ⟨hb, rfl⟩ | ⟨u, hb, hu, rfl⟩
  · cases h
    obtain rfl := List.map_eq_nil_iff.mp hb
    exact ⟨[], hws₁, .inl ⟨rfl, rfl⟩⟩
  · obtain ⟨n, c₂, ws₂, hws₂, ⟨t, ht, hn⟩, -, h⟩ := (parses_expectName _).bind_ok h hc₁
    cases h
    exact ⟨ws₁ ++ ws₂, rest_trans hws₁ hws₂,
      .inr ⟨rfl, u, t, by simp [hb, ht], hu, by simp [hn]⟩⟩

/-- A direction, where one follows: `ASC` or `DESC`, or nothing. -/
theorem parses_direction {f : Token → Option β}
    (hf : ∀ t b, f t = some b → t = .keyword .asc ∨ t = .keyword .desc) :
    Parses (takeMap f) fun _ w => Opt (· ∈ [[.keyword .asc], [.keyword .desc]]) w := by
  refine (parses_takeMap f).mono fun _ w hx => ?_
  rcases hx with ⟨-, hw⟩ | ⟨t, b, -, rfl, ht⟩
  · exact .inl hw
  · rcases hf t b ht with rfl | rfl
    · exact .inr (by simp)
    · exact .inr (by simp)

theorem parses_indexColumn : Parses indexColumn fun _ w => Ordered w := by
  intro c v c' h hc
  unfold indexColumn at h
  obtain ⟨e, c₁, ws₁, hws₁, he, hc₁, h⟩ := parses_expression.bind_ok h hc
  obtain ⟨x, c₂, ws₂, hws₂, hx, -, h⟩ := (parses_direction fun t b ht => by
    split at ht
    · exact .inl rfl
    · exact .inr rfl
    · cases ht).bind_ok h hc₁
  cases h
  exact ⟨ws₁ ++ ws₂, rest_trans hws₁ hws₂, _, _, List.map_append .., ⟨_, he⟩, hx⟩

theorem parses_indexColumns :
    Parses indexColumns fun _ w => Parens (SepBy1 Ordered .comma) w := by
  intro c v c' h hc
  unfold indexColumns at h
  obtain ⟨u, c₁, ws₁, hws₁, hu, hc₁, h⟩ := (parses_expect _).bind_ok h hc
  obtain ⟨x, c₂, hr₂, hc₂, h⟩ := parses_peek.bind_nil h hc₁
  dsimp only at h
  split at h
  · simp [run_bind] at h
  obtain ⟨cols, c₃, ws₃, hws₃, hcols, hc₃, h⟩ :=
    (parses_sepBy1 .comma parses_indexColumn).bind_ok h hc₂
  obtain ⟨u', c₄, ws₄, hws₄, hu', -, h⟩ := (parses_expect _).bind_ok h hc₃
  cases h
  exact ⟨ws₁ ++ ws₃ ++ ws₄, by rw [hws₁, hr₂, hws₃, hws₄]; simp, _, by simp [hu, hu'], hcols⟩

/-- The columns of an index with its type before them, or after them if not before: how both
primary keys and indexes end. -/
theorem parses_typedColumns {β : Type} (k : Option String → List Expr → β) :
    Parses (indexType >>= fun before => indexColumns >>= fun columns =>
      if before.isNone = true then indexType >>= fun i => pure (k i columns)
      else pure before >>= fun i => pure (k i columns)) fun _ w => TypedColumns w := by
  intro c v c' h hc
  obtain ⟨before, c₁, ws₁, hws₁, hb, hc₁, h⟩ := parses_indexType.bind_ok h hc
  obtain ⟨cols, c₂, ws₂, hws₂, hcols, hc₂, h⟩ := parses_indexColumns.bind_ok h hc₁
  rcases hb with ⟨rfl, hb⟩ | ⟨hsome, hb⟩
  · obtain ⟨i, c₃, ws₃, hws₃, hi, -, h⟩ := parses_indexType.bind_ok h hc₂
    cases h
    refine ⟨ws₁ ++ ws₂ ++ ws₃, rest_trans (rest_trans hws₁ hws₂) hws₃, ws₁.map Spanned.token,
      ws₂.map Spanned.token, ws₃.map Spanned.token, by simp only [List.map_append], hcols, .inl hb,
      ?_, .inl hb⟩
    rcases hi with ⟨-, hw⟩ | ⟨-, hw⟩
    · exact .inl hw
    · exact .inr hw
  · obtain ⟨n, rfl⟩ := Option.isSome_iff_exists.mp hsome
    cases h
    exact ⟨ws₁ ++ ws₂, rest_trans hws₁ hws₂, _, _, [], by simp, hcols, .inr hb, .inl rfl,
      .inr rfl⟩

theorem parses_primaryKeyConstraint (name : Option String) :
    Parses (primaryKeyConstraint name) fun _ w =>
      ∃ w', w = .keyword .primary :: .keyword .key :: w' ∧ TypedColumns w' := by
  intro c v c' h hc
  unfold primaryKeyConstraint at h
  obtain ⟨u₁, c₁, ws₁, hws₁, hu₁, hc₁, h⟩ := (parses_expect _).bind_ok h hc
  obtain ⟨u₂, c₂, ws₂, hws₂, hu₂, hc₂, h⟩ := (parses_expect _).bind_ok h hc₁
  dsimp only at h
  obtain ⟨ws₃, hws₃, hcols⟩ := parses_typedColumns _ c₂ v c' h hc₂
  exact ⟨ws₁ ++ ws₂ ++ ws₃, by rw [hws₁, hws₂, hws₃]; simp, _, by simp [hu₁, hu₂], hcols⟩

theorem parses_constraintName : Parses constraintName fun _ w => ConstraintName w := by
  intro c v c' h hc
  unfold constraintName at h
  obtain ⟨b, c₁, ws₁, hws₁, hb, hc₁, h⟩ := (parses_takeIf _).bind_ok h hc
  rcases read_of_takeIf hb with ⟨rfl, rfl⟩ | ⟨rfl, hb⟩
  · cases h
    exact ⟨[], hws₁, .inl rfl⟩
  · obtain ⟨ws₂, hws₂, hx⟩ := parses_takeMap Token.name? c₁ v c' h hc₁
    refine ⟨ws₁ ++ ws₂, rest_trans hws₁ hws₂, .inr ⟨ws₂.map Spanned.token, by simp [hb], ?_⟩⟩
    rcases hx with ⟨-, hw⟩ | ⟨t, n, -, hw, ht⟩
    · exact .inl hw
    · exact .inr ⟨t, hw, by simp [ht]⟩

/-- An index: the name is read only where the next token is a name and no bare `USING`. -/
theorem parses_indexDef : Parses indexDef fun _ w => MySql.IndexDef w := by
  intro c v c' h hc
  unfold indexDef at h
  simp only [liftM_self, parser_peekWord] at h
  rw [run_bind, run_peekName] at h
  dsimp only at h
  rw [run_bind, run_peekWord_any] at h
  dsimp only at h
  split at h
  · next hnamed =>
      have hname : Parses (some <$> expectName "identifier") fun _ w =>
          ∃ t, w = [t] ∧ t.name?.isSome :=
        ((parses_expectName _).mono fun _ _ ⟨t, hw, ht⟩ => ⟨t, hw, by simp [ht]⟩).bind_pure some
      obtain ⟨nm, c₁, ws₁, hws₁, ⟨t, ht, hn⟩, hc₁, h⟩ := hname.bind_ok h hc
      rw [next?_of_rest hws₁ ht] at hnamed
      obtain ⟨ws₂, hws₂, hcols⟩ := parses_typedColumns _ c₁ v c' h hc₁
      refine ⟨ws₁ ++ ws₂, rest_trans hws₁ hws₂, _, _, List.map_append ..,
        .inr ⟨t, ht, hn, ?_⟩, hcols⟩
      exact (by simpa using hnamed : _ ∧ Token.isWord "USING" t = false).2
  · obtain ⟨_, c₁, hr₁, hc₁, h⟩ := ((parses_pure none).mono fun _ _ h => h.2).bind_nil h hc
    obtain ⟨ws₂, hws₂, hcols⟩ := parses_typedColumns _ c₁ v c' h hc₁
    exact ⟨ws₂, by rw [hr₁, hws₂], [], _, rfl, .inl rfl, hcols⟩

end Grammar

end SqlDdl
