import SqlDdl.Proofs.TableParsed

/-!
# What a MySQL statement reads is derived

The rules above the columns and indexes of a MySQL table definition, run on tokens in which no
null test is followed by a binary operator, read phrases of the grammar: elements, the tail of options and partitioning, the trailing query,
and the statement itself (`parses_statement`). As in `TableParsed`, each proof follows its rule
from its first step to its last. The tail is a repetition with at most one partitioning, read by
`Parses.loop_atMostOnce` as the options of a column are.
-/

namespace SqlDdl

namespace Grammar

open Precedence MySql

/-- A look at the next token, then a step chosen by it: the step runs on the token seen. -/
theorem run_peek_bind_ok {k : Option Token → Grammar β} {c c' : Cursor} {b : β}
    (h : (peek >>= k).run c = .ok (b, c')) : (k c.next?).run c = .ok (b, c') := by
  obtain ⟨x, c₁, hp, h⟩ := run_bind_eq_ok h
  obtain ⟨rfl, rfl⟩ := run_peek_ok hp
  exact h

@[simp] theorem run_pure_bind (a : α) (f : α → Grammar β) (c : Cursor) :
    (pure a >>= f).run c = (f a).run c := by
  rw [run_bind, run_pure]

theorem run_takeAny_of_next {c : Cursor} {t : Token} (h : c.next? = some t) :
    takeAny.run c = .ok (some t, c.advance) := by
  simp [takeAny, run_takeMap, h]

/-- An optional clause after the word `K`: the rule reads `t` when `K` comes, which reads a phrase
of `Q` before it goes on with `k`, and goes on with `k d` when `K` does not come. -/
theorem Parses.opt_bind {K : Token} {t : Grammar β} {d : α} {k : α → Grammar β}
    {Q : List Token → Prop} {c c' : Cursor} {v : β}
    (ht : ∀ c₁, t.run c₁ = .ok (v, c') → TestsLastAt c₁ → ∃ a c₂ ws, c₁.rest = ws ++ c₂.rest ∧
      Q (ws.map Spanned.token) ∧ TestsLastAt c₂ ∧ (k a).run c₂ = .ok (v, c'))
    (h : (takeIf K >>= fun b => if b = true then t else pure d >>= k).run c = .ok (v, c'))
    (hc : TestsLastAt c) :
    ∃ a c₁ ws, c.rest = ws ++ c₁.rest ∧ Opt (After K Q) (ws.map Spanned.token) ∧ TestsLastAt c₁ ∧
      (k a).run c₁ = .ok (v, c') := by
  obtain ⟨b, c₁, ws₁, hws₁, hb, hc₁, h⟩ := (parses_takeIf _).bind_ok h hc
  rcases read_of_takeIf hb with ⟨rfl, rfl⟩ | ⟨rfl, hb⟩
  · simp only [Bool.false_eq_true, ↓reduceIte, run_pure_bind] at h
    exact ⟨d, c₁, [], hws₁, .inl rfl, hc₁, h⟩
  · simp only [↓reduceIte] at h
    obtain ⟨a, c₂, ws₂, hws₂, hQ, hc₂, h⟩ := ht c₁ h hc₁
    exact ⟨a, c₂, ws₁ ++ ws₂, rest_trans hws₁ hws₂, .inr ⟨_, by simp [hb], hQ⟩, hc₂, h⟩

theorem Parses.expect_bind {K : Token} {g : Grammar α} {k : α → Grammar β}
    {P : List Token → Prop} (hg : Parses g fun _ w => P w) {c c' : Cursor} {v : β}
    (h : (expect K >>= fun _ => g >>= k).run c = .ok (v, c')) (hc : TestsLastAt c) :
    ∃ a c₁ ws, c.rest = ws ++ c₁.rest ∧ After K P (ws.map Spanned.token) ∧ TestsLastAt c₁ ∧
      (k a).run c₁ = .ok (v, c') := by
  obtain ⟨_, c₁, ws₁, hws₁, hK, hc₁, h⟩ := (parses_expect _).bind_ok h hc
  obtain ⟨a, c₂, ws₂, hws₂, hP, hc₂, h⟩ := hg.bind_ok h hc₁
  exact ⟨a, c₂, ws₁ ++ ws₂, rest_trans hws₁ hws₂, ⟨_, by simp [hK], hP⟩, hc₂, h⟩

theorem parses_someExpression : Parses (some <$> expression) fun _ w => Expression w :=
  (parses_expression.mono fun e _ he => ⟨e, he⟩).bind_pure some

/-! ## Elements -/

/-- A constraint is a key or a primary key, after an optional `CONSTRAINT` and name. -/
theorem parses_tableConstraint : Parses (tableConstraint .mysql) fun _ w => MySql.Element w := by
  intro c v c' h hc
  unfold tableConstraint at h
  obtain ⟨name, c₁, ws₁, hws₁, hname, hc₁, h⟩ := parses_constraintName.bind_ok h hc
  obtain ⟨b, c₂, ws₂, hws₂, hb, hc₂, h⟩ := (parses_takeIf _).bind_ok h hc₁
  rcases read_of_takeIf hb with ⟨rfl, rfl⟩ | ⟨rfl, hkey⟩
  · have h := run_peek_bind_ok h
    split at h
    · obtain ⟨ws₃, hws₃, w', hw', hcols⟩ := parses_primaryKeyConstraint name c₂ v c' h hc₂
      refine ⟨ws₁ ++ ws₃, by rw [hws₁, hws₂, hws₃]; simp, ?_⟩
      rw [List.map_append, hw']
      exact .primaryKey hname hcols
    · simp at h
  · obtain ⟨i, c₃, ws₃, hws₃, hi, -, h⟩ := parses_indexDef.bind_ok h hc₂
    cases h
    refine ⟨ws₁ ++ ws₂ ++ ws₃, by rw [hws₁, hws₂, hws₃]; simp, ?_⟩
    simp only [List.map_append, hkey, List.append_assoc, List.singleton_append]
    exact .key hname hi

/-- An element is chosen by its first token: a name starts a column, `CONSTRAINT`, `KEY` and
`PRIMARY` a constraint, and `INDEX` an index. -/
theorem parses_tableElement : Parses (tableElement .mysql) fun _ w => MySql.Element w := by
  intro c v c' h hc
  unfold tableElement at h
  obtain ⟨named, c₁, hr₁, hc₁, h⟩ := parses_peekName.bind_nil h hc
  split at h
  · obtain ⟨ws, hws, hcol⟩ := parses_columnDef.bind_pure Element.column c₁ v c' h hc₁
    exact ⟨ws, by rw [hr₁, hws], .column hcol⟩
  have h := run_peek_bind_ok h
  have hconstraint : (tableConstraint .mysql >>= fun x => pure (Element.constraint x)).run c₁ =
      .ok (v, c') → ∃ ws, c.rest = ws ++ c'.rest ∧ MySql.Element (ws.map Spanned.token) := by
    intro h
    obtain ⟨ws, hws, hel⟩ := parses_tableConstraint.bind_pure _ c₁ v c' h hc₁
    exact ⟨ws, by rw [hr₁, hws], hel⟩
  split at h
  · exact hconstraint h
  · exact hconstraint h
  · exact hconstraint h
  · next hnext =>
      obtain ⟨u, hu, hut⟩ := Cursor.rest_of_next hnext
      rw [run_bind] at h
      simp only [liftM_self, takeAny, run_takeMap, hnext, Option.bind_eq_bind,
        Option.bind_some] at h
      obtain ⟨ws, hws, hi⟩ := parses_indexDef.bind_pure _ _ v c' h hc₁.advance
      refine ⟨u :: ws, by rw [hr₁, hu, hws, List.cons_append], ?_⟩
      simp only [List.map_cons, hut]
      exact .index hi
  · simp at h

theorem parses_tableElements :
    Parses (tableElements .mysql) fun _ w => Parens (SepBy1 MySql.Element .comma) w := by
  intro c v c' h hc
  unfold tableElements at h
  obtain ⟨u, c₁, ws₁, hws₁, hu, hc₁, h⟩ := (parses_expect _).bind_ok h hc
  obtain ⟨els, c₂, ws₂, hws₂, hels, hc₂, h⟩ :=
    (parses_sepBy1 .comma parses_tableElement).bind_ok h hc₁
  obtain ⟨u', c₃, ws₃, hws₃, hu', -, h⟩ := (parses_expect _).bind_ok h hc₂
  cases h
  exact ⟨ws₁ ++ ws₂ ++ ws₃, by rw [hws₁, hws₂, hws₃]; simp, _, by simp [hu, hu'], hels⟩

/-! ## The tail -/

theorem isWord_of_find? {w n : String}
    (h : optionNames.find? (Text.equalsIgnoringAsciiCase · w) = some n) :
    n ∈ optionNames ∧ (Token.ident w).isWord n := by
  refine ⟨List.mem_of_find?_eq_some h, ?_⟩
  have hn : Text.equalsIgnoringAsciiCase n w = true := by simpa using List.find?_some h
  simp only [Token.isWord, Text.equalsIgnoringAsciiCase, beq_iff_eq] at hn ⊢
  exact hn.symm

/-- A one-word option name is the word of a name of the table other than `CHARACTER`. -/
theorem optionName_of_word {t : Token} {n : String} (hn : n ∈ optionNames)
    (hchar : n ≠ "CHARACTER") (ht : t.isWord n) : OptionName [t] := by
  simp only [optionNames, List.mem_cons, List.not_mem_nil, or_false] at hn
  rcases hn with rfl | rfl | rfl | rfl | rfl | rfl | rfl | rfl
  · exact .inl ⟨t, rfl, "ENGINE", by simp, ht⟩
  · exact .inl ⟨t, rfl, "TYPE", by simp, ht⟩
  · exact .inl ⟨t, rfl, "AUTO_INCREMENT", by simp, ht⟩
  · exact .inr (.inl (.inl ⟨t, rfl, .inl ht⟩))
  · exact absurd rfl hchar
  · exact .inr (.inl (.inl ⟨t, rfl, .inr ht⟩))
  · exact .inl ⟨t, rfl, "COMMENT", by simp, ht⟩
  · exact .inl ⟨t, rfl, "ROW_FORMAT", by simp, ht⟩

/-- The check that ends an option name: after `DEFAULT` only a character set or a collation
passes. -/
theorem run_defaultCheck_ok {d : Bool} {name v : Option String} {c c' : Cursor}
    (h : (if (d && !(name == some "CHARSET" || name == some "COLLATE")) = true then
        expected "CHARSET or COLLATE after DEFAULT" else pure name : Grammar (Option String)).run c =
      .ok (v, c')) :
    v = name ∧ c' = c ∧ (d = true → name = some "CHARSET" ∨ name = some "COLLATE") := by
  split at h
  · simp at h
  · next hcheck =>
      cases h
      refine ⟨rfl, rfl, fun hd => or_iff_not_imp_left.mpr ?_⟩
      simpa [hd] using hcheck

/-- An option name is a word of the table, or `CHARACTER SET`, after `DEFAULT` only when it
names a character set or a collation; without a name nothing is read. -/
theorem parses_optionName :
    Parses optionName fun v w => (v = none ∧ w = []) ∨ (v.isSome ∧ OptionName w) := by
  intro c v c' h hc
  unfold optionName at h
  obtain ⟨d, c₁, ws₁, hws₁, hd, hc₁, h⟩ := (parses_takeIf _).bind_ok h hc
  obtain ⟨word, c₂, ws₂, hws₂, hword, hc₂, h⟩ := (parses_takeMap _).bind_ok h hc₁
  dsimp only at h
  split at h
  · next hchar =>
    obtain rfl : word = some "CHARACTER" := by simpa using hchar
    obtain ⟨b, c₃, ws₃, hws₃, hb, -, h⟩ := (parses_takeWord _).bind_ok h hc₂
    rcases hb with ⟨-, rfl⟩ | ⟨u, hu, hset, rfl⟩
    · simp [run_bind] at h
    simp only [↓reduceIte, run_pure_bind] at h
    obtain ⟨rfl, rfl, -⟩ := run_defaultCheck_ok h
    rcases hword with ⟨h', -⟩ | ⟨t, n, hn, hw, ht⟩
    · cases h'
    cases t <;> simp only [reduceCtorEq] at ht
    obtain ⟨-, hcw⟩ := isWord_of_find? ht
    obtain rfl := Option.some.inj hn
    have hcs : CharsetName ((ws₂ ++ ws₃).map Spanned.token) :=
      .inr ⟨_, _, by simp [hw, hu], hcw, hset⟩
    refine ⟨ws₁ ++ ws₂ ++ ws₃, by rw [hws₁, hws₂, hws₃]; simp, .inr ⟨rfl, ?_⟩⟩
    cases d
    · simp only [Bool.false_eq_true, ↓reduceIte, List.map_eq_nil_iff] at hd
      subst hd
      exact .inr (.inl (by simpa using hcs))
    · simp only [↓reduceIte] at hd
      exact .inr (.inr ⟨(ws₂ ++ ws₃).map Spanned.token, by simp [hd], hcs⟩)
  · next hchar =>
    rw [run_pure_bind] at h
    obtain ⟨rfl, rfl, hdef⟩ := run_defaultCheck_ok h
    rcases hword with ⟨rfl, hw⟩ | ⟨t, n, rfl, hw, ht⟩
    · cases d
      · simp only [Bool.false_eq_true, ↓reduceIte, List.map_eq_nil_iff] at hd
        obtain rfl := List.map_eq_nil_iff.mp hw
        exact ⟨[], by simp [hws₁, hws₂, hd], .inl ⟨rfl, rfl⟩⟩
      · simp at hdef
    cases t <;> simp only [reduceCtorEq] at ht
    obtain ⟨hmem, hnw⟩ := isWord_of_find? ht
    have hne : n ≠ "CHARACTER" := fun h' => by simp [h'] at hchar
    refine ⟨ws₁ ++ ws₂, by rw [hws₁, hws₂, List.append_assoc], .inr ⟨rfl, ?_⟩⟩
    cases d
    · simp only [Bool.false_eq_true, ↓reduceIte, List.map_eq_nil_iff] at hd
      simpa [hd, hw] using optionName_of_word hmem hne hnw
    · simp only [↓reduceIte] at hd
      refine .inr (.inr ⟨ws₂.map Spanned.token, by simp [hd], ?_⟩)
      rw [hw]
      refine .inl ⟨_, rfl, ?_⟩
      rcases hdef rfl with h' | h' <;> obtain rfl := Option.some.inj h'
      · exact .inl hnw
      · exact .inr hnw

theorem parses_optionValue : Parses optionValue fun _ w => ∃ t, w = [t] := by
  intro c v c' h hc
  unfold optionValue at h
  have h := run_peek_bind_ok h
  split at h
  · simp at h
  · next t hnext =>
      rw [run_bind, run_takeAny_of_next hnext] at h
      cases h
      obtain ⟨u, hu, hut⟩ := Cursor.rest_of_next hnext
      exact ⟨[u], hu, t, by simp [hut]⟩

/-- Partitioning after `PARTITION`: `BY KEY`, the key columns in parentheses, at least one,
and an optional `PARTITIONS` count. -/
theorem parses_keyPartitioning : Parses keyPartitioning fun _ w => ∃ cols count,
    w = .keyword .by :: .keyword .key :: .openParen :: cols ++ .closeParen :: count ∧
      SepBy1 QualifiedName .comma cols ∧
      Opt (fun w => ∃ t e, w = t :: e ∧ t.isWord "PARTITIONS" ∧ Expression e) count := by
  intro c v c' h hc
  unfold keyPartitioning at h
  obtain ⟨_, c₁, ws₁, hws₁, hby, hc₁, h⟩ := (parses_expect _).bind_ok h hc
  obtain ⟨b, c₂, ws₂, hws₂, hb, hc₂, h⟩ := (parses_takeIf _).bind_ok h hc₁
  dsimp only at h
  rcases read_of_takeIf hb with ⟨rfl, rfl⟩ | ⟨rfl, hkey⟩
  · simp [run_bind] at h
  simp only [Bool.not_true, Bool.false_eq_true, ↓reduceIte] at h
  obtain ⟨_, c₃, ws₃, hws₃, hopen, hc₃, h⟩ := (parses_expect _).bind_ok h hc₂
  have h := run_peek_bind_ok h
  split at h
  · simp [run_bind] at h
  obtain ⟨cols, c₄, ws₄, hws₄, hcols, hc₄, h⟩ :=
    (parses_sepBy1 .comma parses_qualifiedName).bind_ok h hc₃
  obtain ⟨_, c₅, ws₅, hws₅, hclose, hc₅, h⟩ := (parses_expect _).bind_ok h hc₄
  obtain ⟨p, c₆, ws₆, hws₆, hp, hc₆, h⟩ := (parses_takeWord _).bind_ok h hc₅
  have hrest := rest_trans (rest_trans (rest_trans (rest_trans hws₁ hws₂) hws₃) hws₄) hws₅
  rcases hp with ⟨hp, rfl⟩ | ⟨t, hp, ht, rfl⟩
  · simp only [Bool.false_eq_true, ↓reduceIte, run_pure_bind, run_pure] at h
    cases h
    obtain rfl := List.map_eq_nil_iff.mp hp
    refine ⟨ws₁ ++ ws₂ ++ ws₃ ++ ws₄ ++ ws₅, by simpa using rest_trans hrest hws₆, _, [], ?_, hcols,
      .inl rfl⟩
    simp [hby, hkey, hopen, hclose]
  · simp only [↓reduceIte] at h
    obtain ⟨e, c₇, ws₇, hws₇, he, -, h⟩ := parses_someExpression.bind_ok h hc₆
    cases h
    refine ⟨ws₁ ++ ws₂ ++ ws₃ ++ ws₄ ++ ws₅ ++ ws₆ ++ ws₇,
      by simpa using rest_trans (rest_trans hrest hws₆) hws₇, _, _, ?_, hcols,
      .inr ⟨t, _, rfl, ht, he⟩⟩
    simp [hby, hkey, hopen, hclose, hp]

/-- A clause of the tail reads an option, which keeps the partitioning as it was, or the first
partitioning, after the word `PARTITION` that the rule saw; or nothing, at the end of the tail. -/
theorem parses_tailClause (stmt : Statement) :
    Parses (tailClause stmt) fun r w => (∃ b, r = .inl b ∧ w = []) ∨
      ∃ stmt', r = .inr stmt' ∧
        (stmt'.partitioning.isSome = stmt.partitioning.isSome ∧ TableOption w ∨
          stmt.partitioning.isSome = false ∧ stmt'.partitioning.isSome = true ∧
            Partitioning w) := by
  intro c r c' h hc
  unfold tailClause at h
  obtain ⟨name, c₁, ws₁, hws₁, hname, hc₁, h⟩ := parses_optionName.bind_ok h hc
  split at h
  · obtain ⟨_, c₂, ws₂, hws₂, heq, hc₂, h⟩ := (parses_expect _).bind_ok h hc₁
    obtain ⟨_, c₃, ws₃, hws₃, ⟨t, hval⟩, -, h⟩ := parses_optionValue.bind_ok h hc₂
    cases h
    rcases hname with ⟨h', -⟩ | ⟨-, hopt⟩
    · cases h'
    refine ⟨ws₁ ++ ws₂ ++ ws₃, by rw [hws₁, hws₂, hws₃]; simp,
      .inr ⟨_, rfl, .inl ⟨rfl, _, t, ?_, hopt⟩⟩⟩
    simp [heq, hval]
  · next hnone =>
    rcases hname with ⟨rfl, hw⟩ | ⟨hsome, -⟩
    swap
    · obtain ⟨n, rfl⟩ := Option.isSome_iff_exists.mp hsome
      exact absurd rfl (hnone n)
    obtain rfl := List.map_eq_nil_iff.mp hw
    rw [run_bind, parser_peekWord, run_peekWord_any] at h
    dsimp only at h
    split at h
    · next hword =>
      split at h
      · simp at h
      · next hfirst =>
        obtain ⟨t, hnext, ht⟩ := (Option.any_eq_true _ _).mp hword
        rw [run_bind, liftM_self, run_takeAny_of_next hnext] at h
        obtain ⟨p, c₂, ws₂, hws₂, ⟨cols, count, hw, hcols, hcount⟩, -, h⟩ :=
          parses_keyPartitioning.bind_ok h hc₁.advance
        cases h
        obtain ⟨u, hu, hut⟩ := Cursor.rest_of_next hnext
        refine ⟨u :: ws₂, by rw [hws₁, hu, hws₂]; simp,
          .inr ⟨_, rfl, .inr ⟨by simpa using hfirst, rfl, ?_⟩⟩⟩
        exact ⟨t, cols, count, by simp [hut, hw], ht, hcols, hcount⟩
    · cases h
      exact ⟨[], by simpa using hws₁, .inl ⟨_, rfl, rfl⟩⟩

/-- The clauses of the tail: options in any order, with at most one partitioning among them. -/
theorem parses_tail (stmt : Statement) :
    Parses (loop tailClause id stmt) fun _ w => ∃ (os₁ : List (List Token)) (p : List Token)
      (os₂ : List (List Token)), w = os₁.flatten ++ p ++ os₂.flatten ∧
        (∀ o ∈ os₁ ++ os₂, TableOption o) ∧ Opt Partitioning p ∧
        (stmt.partitioning.isSome → p = []) := by
  refine Parses.loop_atMostOnce (fun stmt => stmt.partitioning.isSome) (P := TableOption)
    parses_tailClause ?_ ?_ id stmt
  · rintro ⟨n, v, h, -⟩
    simp at h
  · rintro ⟨p, cols, count, h, -⟩
    cases h

/-! ## Queries -/

theorem alias_of_read {as : Bool} {ws₁ ws₂ : List Spanned} {t : Token} {n : String}
    (has : ws₁.map Spanned.token = if as then [.keyword .as] else [])
    (ht : ws₂.map Spanned.token = [t]) (hn : t.name? = some n) :
    Alias ((ws₁ ++ ws₂).map Spanned.token) := by
  refine ⟨ws₁.map Spanned.token, t, by simp [ht], ?_, by simp [hn]⟩
  cases as
  · exact .inl (by simpa using has)
  · exact .inr (by simpa using has)

theorem nil_of_no_alias {as named : Bool} {ws : List Spanned}
    (has : ws.map Spanned.token = if as then [.keyword .as] else []) (hno : ¬(as || named) = true) :
    ws = [] := by
  cases as
  · simpa using has
  · simp at hno

theorem parses_aliasAfter (what : String) : Parses (aliasAfter what) fun _ w => Opt Alias w := by
  intro c v c' h hc
  unfold aliasAfter at h
  obtain ⟨as, c₁, ws₁, hws₁, has, hc₁, h⟩ := (parses_takeIf _).bind_ok h hc
  obtain ⟨named, c₂, hr₂, hc₂, h⟩ := parses_peekName.bind_nil h hc₁
  split at h
  · obtain ⟨n, c₃, ws₃, hws₃, ⟨t, ht, hn⟩, -, h⟩ := (parses_expectName _).bind_ok h hc₂
    cases h
    exact ⟨ws₁ ++ ws₃, by rw [hws₁, hr₂, hws₃, List.append_assoc], .inr (alias_of_read has ht hn)⟩
  · next hno =>
      cases h
      obtain rfl := nil_of_no_alias has hno
      exact ⟨[], by rw [hws₁, hr₂], .inl rfl⟩

/-- A selected expression and its alias; the rule refuses an alias after `*`. -/
theorem parses_selectItem : Parses selectItem fun _ w => MySql.SelectItem w := by
  intro c v c' h hc
  unfold selectItem at h
  obtain ⟨e, c₁, ws₁, hws₁, he, hc₁, h⟩ := parses_expression.bind_ok h hc
  obtain ⟨as, c₂, ws₂, hws₂, has, hc₂, h⟩ := (parses_takeIf _).bind_ok h hc₁
  obtain ⟨named, c₃, hr₃, hc₃, h⟩ := parses_peekName.bind_nil h hc₂
  split at h
  · split at h
    · simp at h
    · next hall =>
        obtain ⟨n, c₄, ws₄, hws₄, ⟨t, ht, hn⟩, -, h⟩ := (parses_expectName _).bind_ok h hc₃
        cases h
        refine ⟨ws₁ ++ ws₂ ++ ws₄, by rw [hws₁, hws₂, hr₃, hws₄]; simp, ws₁.map Spanned.token, e,
          (ws₂ ++ ws₄).map Spanned.token, by simp, he, .inr ⟨?_, alias_of_read has ht hn⟩⟩
        rintro rfl
        exact hall rfl
  · next hno =>
      cases h
      obtain rfl := nil_of_no_alias has hno
      exact ⟨ws₁, by rw [hws₁, hws₂, hr₃]; rfl, _, e, [], by simp, he, .inl rfl⟩

theorem parses_tableRef : Parses tableRef fun _ w => MySql.TableRef w := by
  intro c v c' h hc
  unfold tableRef at h
  obtain ⟨n, c₁, ws₁, hws₁, hn, hc₁, h⟩ := parses_qualifiedName.bind_ok h hc
  obtain ⟨al, c₂, ws₂, hws₂, hal, -, h⟩ := (parses_aliasAfter _).bind_ok h hc₁
  cases h
  exact ⟨ws₁ ++ ws₂, rest_trans hws₁ hws₂, _, _, List.map_append .., hn, hal⟩

theorem parses_orderItem : Parses orderItem fun _ w => Ordered w := by
  intro c v c' h hc
  unfold orderItem at h
  obtain ⟨e, c₁, ws₁, hws₁, he, hc₁, h⟩ := parses_expression.bind_ok h hc
  obtain ⟨x, c₂, ws₂, hws₂, hx, -, h⟩ := (parses_direction fun t b ht => by
    split at ht
    · exact .inl rfl
    · exact .inr rfl
    · cases ht).bind_ok h hc₁
  cases h
  exact ⟨ws₁ ++ ws₂, rest_trans hws₁ hws₂, _, _, List.map_append .., ⟨_, he⟩, hx⟩

theorem parses_limitClause : Parses limitClause fun _ w => Opt Limit w := by
  intro c v c' h hc
  unfold limitClause at h
  obtain ⟨b, c₁, ws₁, hws₁, hb, hc₁, h⟩ := (parses_takeIf _).bind_ok h hc
  rcases read_of_takeIf hb with ⟨rfl, rfl⟩ | ⟨rfl, hlimit⟩
  · cases h
    exact ⟨[], hws₁, .inl rfl⟩
  simp only [Bool.not_true, Bool.false_eq_true, ↓reduceIte] at h
  obtain ⟨e, c₂, ws₂, hws₂, he, hc₂, h⟩ := parses_expression.bind_ok h hc₁
  have hlim : ∀ r : List Spanned, Opt (fun r => ∃ t e', r = t :: e' ∧
      (t = .comma ∨ t = .keyword .offset) ∧ Expression e') (r.map Spanned.token) →
      Opt Limit ((ws₁ ++ ws₂ ++ r).map Spanned.token) := fun r hr =>
    .inr ⟨(ws₂ ++ r).map Spanned.token, by simp [hlimit], _, _, List.map_append .., ⟨e, he⟩, hr⟩
  obtain ⟨comma, c₃, ws₃, hws₃, hcomma, hc₃, h⟩ := (parses_takeIf _).bind_ok h hc₂
  rcases read_of_takeIf hcomma with ⟨rfl, rfl⟩ | ⟨rfl, hcomma⟩
  · obtain ⟨off, c₄, ws₄, hws₄, hoff, hc₄, h⟩ := (parses_takeIf _).bind_ok h hc₃
    rcases read_of_takeIf hoff with ⟨rfl, rfl⟩ | ⟨rfl, hoff⟩
    · cases h
      exact ⟨ws₁ ++ ws₂, by simpa using rest_trans (rest_trans (rest_trans hws₁ hws₂) hws₃) hws₄,
        by simpa using hlim [] (.inl rfl)⟩
    · obtain ⟨e', c₅, ws₅, hws₅, he', -, h⟩ := parses_expression.bind_ok h hc₄
      cases h
      refine ⟨ws₁ ++ ws₂ ++ (ws₄ ++ ws₅), by
        simpa using rest_trans (rest_trans (rest_trans (rest_trans hws₁ hws₂) hws₃) hws₄) hws₅,
        hlim _ (.inr ⟨_, _, by simp [hoff], .inr rfl, e', he'⟩)⟩
  · obtain ⟨e', c₄, ws₄, hws₄, he', -, h⟩ := parses_expression.bind_ok h hc₃
    cases h
    exact ⟨ws₁ ++ ws₂ ++ (ws₃ ++ ws₄), by
      simpa using rest_trans (rest_trans (rest_trans hws₁ hws₂) hws₃) hws₄,
      hlim _ (.inr ⟨_, _, by simp [hcomma], .inl rfl, e', he'⟩)⟩

/-- A query reads its clauses in their order, each optional but the items. -/
theorem parses_select : Parses select fun _ w => Query w := by
  intro c v c' h hc
  unfold select at h
  obtain ⟨_, c₁, ws₁, hws₁, hsel, hc₁, h⟩ := (parses_expect _).bind_ok h hc
  obtain ⟨d, c₂, ws₂, hws₂, hd, hc₂, h⟩ := (parses_takeIf _).bind_ok h hc₁
  obtain ⟨_, c₃, ws₃, hws₃, hitems, hc₃, h⟩ :=
    (parses_sepBy1 .comma parses_selectItem).bind_ok h hc₂
  obtain ⟨_, c₄, ws₄, hws₄, htables, hc₄, h⟩ :=
    Parses.opt_bind (fun _ h hc => (parses_sepBy1 .comma parses_tableRef).bind_ok h hc) h hc₃
  obtain ⟨_, c₅, ws₅, hws₅, hfilter, hc₅, h⟩ :=
    Parses.opt_bind (fun _ h hc => parses_someExpression.bind_ok h hc) h hc₄
  obtain ⟨_, c₆, ws₆, hws₆, hgroups, hc₆, h⟩ := Parses.opt_bind (fun _ h hc =>
    Parses.expect_bind (parses_sepBy1 (P := Expression) .comma
      (parses_expression.mono fun e _ he => ⟨e, he⟩))
      h hc) h hc₅
  obtain ⟨_, c₇, ws₇, hws₇, hhaving, hc₇, h⟩ :=
    Parses.opt_bind (fun _ h hc => parses_someExpression.bind_ok h hc) h hc₆
  obtain ⟨_, c₈, ws₈, hws₈, horders, hc₈, h⟩ := Parses.opt_bind (fun _ h hc =>
    Parses.expect_bind (parses_sepBy1 .comma parses_orderItem) h hc) h hc₇
  obtain ⟨⟨_, _⟩, c₉, ws₉, hws₉, hlimit, -, h⟩ := parses_limitClause.bind_ok h hc₈
  cases h
  refine ⟨ws₁ ++ ws₂ ++ ws₃ ++ ws₄ ++ ws₅ ++ ws₆ ++ ws₇ ++ ws₈ ++ ws₉, by
    rw [hws₁, hws₂, hws₃, hws₄, hws₅, hws₆, hws₇, hws₈, hws₉]; simp, ws₂.map Spanned.token,
    ws₃.map Spanned.token, ws₄.map Spanned.token, ws₅.map Spanned.token, ws₆.map Spanned.token,
    ws₇.map Spanned.token, ws₈.map Spanned.token, ws₉.map Spanned.token, by simp [hsel], ?_,
    hitems, htables, hfilter, hgroups, hhaving, horders, hlimit⟩
  cases d
  · exact .inl (by simpa using hd)
  · exact .inr (by simpa using hd)

theorem parses_trailingQuery : Parses trailingQuery fun _ w =>
    Opt (fun w => ∃ a q, w = a ++ q ∧ Opt (· = [.keyword .as]) a ∧ Query q) w := by
  intro c v c' h hc
  unfold trailingQuery at h
  obtain ⟨as, c₁, ws₁, hws₁, has, hc₁, h⟩ := (parses_takeIf _).bind_ok h hc
  obtain ⟨_, c₂, hr₂, hc₂, h⟩ := parses_peek.bind_nil h hc₁
  split at h
  · obtain ⟨q, c₃, ws₃, hws₃, hq, -, h⟩ := parses_select.bind_ok h hc₂
    cases h
    refine ⟨ws₁ ++ ws₃, by rw [hws₁, hr₂, hws₃, List.append_assoc],
      .inr ⟨_, _, List.map_append .., ?_, hq⟩⟩
    cases as
    · exact .inl (by simpa using has)
    · exact .inr (by simpa using has)
  · next hno =>
      cases h
      obtain rfl := nil_of_no_alias has hno
      exact ⟨[], by rw [hws₁, hr₂], .inl rfl⟩

/-! ## Statements -/

theorem parses_rejectOnClause : Parses rejectOnClause fun _ w => w = [] := by
  intro c v c' h hc
  unfold rejectOnClause at h
  obtain ⟨_, c₁, hr₁, -, h⟩ := parses_peek.bind_nil h hc
  split at h
  · simp at h
  · cases h
    exact ⟨[], hr₁, rfl⟩

theorem parses_tableTail (stmt : Statement) : Parses (tableTail .mysql stmt) fun _ w =>
    ∃ tail query, w = tail ++ query ∧ Tail tail ∧
      Opt (fun w => ∃ a q, w = a ++ q ∧ Opt (· = [.keyword .as]) a ∧ Query q) query := by
  intro c v c' h hc
  unfold tableTail at h
  obtain ⟨_, c₁, ws₁, hws₁, ⟨os₁, p, os₂, hw, hall, hp, -⟩, hc₁, h⟩ :=
    (parses_tail stmt).bind_ok h hc
  obtain ⟨_, c₂, hr₂, hc₂, h⟩ := parses_rejectOnClause.bind_nil h hc₁
  obtain ⟨_, c₃, ws₃, hws₃, hq, -, h⟩ := parses_trailingQuery.bind_ok h hc₂
  cases h
  exact ⟨ws₁ ++ ws₃, by rw [hws₁, hr₂, hws₃, List.append_assoc], _, _, List.map_append ..,
    ⟨os₁, p, os₂, hw, hall, hp⟩, hq⟩

/-- A table definition without its end: `CREATE`, the optional words, the name, the elements
where a `(` follows, the tail and the query. -/
theorem parses_createTable : Parses (createTable .mysql true) fun _ w =>
    ∃ tmp ine name elems tail query,
      w = .keyword .create :: tmp ++ .keyword .table :: ine ++ name ++ elems ++ tail ++ query ∧
      Opt (· = [.keyword .temporary]) tmp ∧
      Opt (· = [.keyword .if, .keyword .not, .keyword .exists]) ine ∧
      QualifiedName name ∧ Opt (Parens (SepBy1 MySql.Element .comma)) elems ∧ Tail tail ∧
      Opt (fun w => ∃ a q, w = a ++ q ∧ Opt (· = [.keyword .as]) a ∧ Query q) query := by
  intro c v c' h hc
  unfold createTable at h
  extract_lets tail afterCreate at h
  simp only [↓reduceIte] at h
  obtain ⟨_, c₁, ws₁, hws₁, hcreate, hc₁, h⟩ := (parses_expect _).bind_ok h hc
  obtain ⟨tmp, c₂, ws₂, hws₂, htmp, hc₂, h⟩ := (parses_takeIf _).bind_ok h hc₁
  obtain ⟨_, c₃, ws₃, hws₃, htable, hc₃, h⟩ := (parses_expect _).bind_ok h hc₂
  obtain ⟨ine, c₄, ws₄, hws₄, hine, hc₄, h⟩ := (parses_takeIf _).bind_ok h hc₃
  extract_lets afterIf at h
  have hafterIf : ∀ b c₅, (afterIf b).run c₅ = .ok (v, c') → TestsLastAt c₅ →
      ∃ ws, c₅.rest = ws ++ c'.rest ∧ ∃ name elems tail query,
        ws.map Spanned.token = name ++ elems ++ tail ++ query ∧ QualifiedName name ∧
        Opt (Parens (SepBy1 MySql.Element .comma)) elems ∧ Tail tail ∧
        Opt (fun w => ∃ a q, w = a ++ q ∧ Opt (· = [.keyword .as]) a ∧ Query q) query := by
    intro b c₅ h hc₅
    obtain ⟨_, c₆, ws₆, hws₆, hname, hc₆, h⟩ := parses_qualifiedName.bind_ok h hc₅
    obtain ⟨_, c₇, hr₇, hc₇, h⟩ := parses_peek.bind_nil h hc₆
    split at h
    · obtain ⟨_, c₈, ws₈, hws₈, hels, hc₈, h⟩ := parses_tableElements.bind_ok h hc₇
      rw [run_pure_bind] at h
      obtain ⟨ws₉, hws₉, tl, q, hw, htail, hq⟩ := parses_tableTail _ c₈ v c' h hc₈
      exact ⟨ws₆ ++ ws₈ ++ ws₉, by rw [hws₆, hr₇, hws₈, hws₉]; simp, _, _, tl, q,
        by simp [hw], hname, .inr hels, htail, hq⟩
    · rw [run_pure_bind] at h
      obtain ⟨ws₉, hws₉, tl, q, hw, htail, hq⟩ := parses_tableTail _ c₇ v c' h hc₇
      exact ⟨ws₆ ++ ws₉, by rw [hws₆, hr₇, hws₉, List.append_assoc], _, [], tl, q,
        by simp [hw], hname, .inl rfl, htail, hq⟩
  have hfront : c.rest = ws₁ ++ ws₂ ++ ws₃ ++ ws₄ ++ c₄.rest := by
    rw [hws₁, hws₂, hws₃, hws₄]; simp
  have htmp' : Opt (· = [.keyword .temporary]) (ws₂.map Spanned.token) := by
    cases tmp
    · exact .inl (by simpa using htmp)
    · exact .inr (by simpa using htmp)
  rcases read_of_takeIf hine with ⟨rfl, rfl⟩ | ⟨rfl, hine⟩
  · simp only [Bool.false_eq_true, ↓reduceIte, run_pure_bind] at h
    obtain ⟨ws, hws, name, elems, tl, q, hw, hrest⟩ := hafterIf false c₄ h hc₄
    refine ⟨ws₁ ++ ws₂ ++ ws₃ ++ ws, by rw [hfront, hws]; simp, ws₂.map Spanned.token, [], name,
      elems, tl, q, ?_, htmp', .inl rfl, hrest⟩
    simp [hcreate, htable, hw]
  · simp only [↓reduceIte] at h
    obtain ⟨_, c₅, ws₅, hws₅, hnot, hc₅, h⟩ := (parses_expect _).bind_ok h hc₄
    obtain ⟨_, c₆, ws₆, hws₆, hexists, hc₆, h⟩ := (parses_expect _).bind_ok h hc₅
    rw [run_pure_bind] at h
    obtain ⟨ws, hws, name, elems, tl, q, hw, hrest⟩ := hafterIf true c₆ h hc₆
    refine ⟨ws₁ ++ ws₂ ++ ws₃ ++ ws₄ ++ ws₅ ++ ws₆ ++ ws, by rw [hfront, hws₅, hws₆, hws]; simp,
      ws₂.map Spanned.token, [.keyword .if, .keyword .not, .keyword .exists], name, elems, tl, q,
      ?_, htmp', .inr rfl, hrest⟩
    simp [hcreate, htable, hine, hnot, hexists, hw]

theorem parses_statement : Parses (statement .mysql) fun _ w => CreateTable w := by
  intro c v c' h hc
  unfold statement at h
  obtain ⟨_, c₁, ws₁, hws₁, ⟨tmp, ine, name, elems, tl, q, hw, htmp, hine, hname, helems, htail,
    hq⟩, hc₁, h⟩ := parses_createTable.bind_ok h hc
  obtain ⟨semi, c₂, ws₂, hws₂, hsemi, hc₂, h⟩ := (parses_takeIf _).bind_ok h hc₁
  obtain ⟨_, c₃, hr₃, -, h⟩ := parses_peek.bind_nil h hc₂
  split at h
  · simp at h
  cases h
  refine ⟨ws₁ ++ ws₂, by rw [hws₁, hws₂, hr₃, List.append_assoc], tmp, ine, name, elems, tl, q,
    ws₂.map Spanned.token, by simp [hw], htmp, hine, hname, helems, htail, hq, ?_⟩
  cases semi
  · exact .inl (by simpa using hsemi)
  · exact .inr (by simpa using hsemi)

end Grammar

end SqlDdl
