import SqlDdl.Proofs.StatementAccepted
import SqlDdl.Proofs.Offsets
import SqlDdl.Proofs.UnsupportedSites

/-!
# The MySQL parser and the grammar of table definitions

For every text in which no null test `IS [NOT] NULL` is directly followed by a binary operator
(`TestsLast`), the MySQL dialect parses the text exactly when it lexes and the grammar of table
definitions (`MySql.CreateTable`) derives its tokens (`parse_succeeds_iff_derives`). The two
halves are proved on token sequences: `parses_statement` reads a derivation off every run that
gives a statement, and `accepts_statement` runs the parser along every derivation. The latter
runs on tokens at offset `0`; the parser reads offsets only to report them
(`runAlike_statement`), so the text's own tokens parse alike.

Without the condition the agreement fails. The parser applies `IS [NOT] NULL` to what its level
has read and then goes on with the binary operators of every level, where the grammar gives
`IS NULL` the level of `=`. The grammar derives the column default `a = b IS NULL AND c` as
`((a = b) IS NULL) AND c`, and the parser stops before `AND` (`is_null_before_and_rejected`).
A null test at the end of an operand, as in `a + 1 IS NULL`, is within the condition.
-/

namespace SqlDdl

open Grammar MySql Precedence

/-- A text lexes to its tokens exactly when its stream ends at the end of the text. -/
theorem tokenize_eq_ok_iff {s : String} {toks : List Spanned} :
    tokenize s = .ok toks ↔
      (∃ n, (TokenStream.ofString s).stop = .finished n) ∧
        toks = (TokenStream.ofString s).tokens := by
  rcases hstop : (TokenStream.ofString s).stop with n | e <;> simp [tokenize, hstop, eq_comm]

/-- The start of a text that lexes is alike to the start of its tokens at offset `0`. -/
theorem Cursor.ofString_alike_spans {s : String} {n : Nat}
    (hstop : (TokenStream.ofString s).stop = .finished n) :
    (Cursor.ofString s).Alike
      (.ofTokens (spans ((TokenStream.ofString s).tokens.map Spanned.token)) (.finished 0)) :=
  ⟨by simp [Cursor.ofString, Cursor.ofStream, Cursor.ofTokens],
    by simp [Cursor.ofString, Cursor.ofStream, Cursor.ofTokens, hstop, StreamEnd.finishes]⟩

/-- A text that lexes, whose tokens the grammar derives with no null test followed by a binary
operator, parses. -/
theorem parse_ok_of_derives {s : String} {toks : List Spanned} (hlex : tokenize s = .ok toks)
    (h : CreateTable (toks.map Spanned.token)) (hfree : TestsLast (toks.map Spanned.token)) :
    ∃ st, parse .mysql s = .ok st := by
  obtain ⟨⟨n, hstop⟩, rfl⟩ := tokenize_eq_ok_iff.1 hlex
  obtain ⟨st, hst⟩ := accepts_statement h hfree
  have hspans := hst [] (.finished 0) ⟨⟨0, rfl⟩, rfl⟩
  rw [List.append_nil] at hspans
  obtain ⟨e, e', -, h₂⟩ | ⟨a, c, c', h₁, h₂, -⟩ :=
    runsAlike_iff.1 (runAlike_statement .mysql _ _ (Cursor.ofString_alike_spans hstop))
  · rw [hspans] at h₂
    cases h₂
  · rw [hspans] at h₂
    cases h₂
    exact ⟨st, by simp [parse, h₁, Except.map]⟩

/-- A text that parses, with no null test followed by a binary operator among its tokens,
lexes, and the grammar derives its tokens. -/
theorem derives_of_parse_ok {s : String} {st : Statement} (h : parse .mysql s = .ok st)
    (hfree : TestsLast ((TokenStream.ofString s).tokens.map Spanned.token)) :
    ∃ toks, tokenize s = .ok toks ∧ CreateTable (toks.map Spanned.token) := by
  obtain ⟨n, hstop⟩ := parse_ok_finished h
  refine ⟨_, tokenize_eq_ok_iff.2 ⟨⟨n, hstop⟩, rfl⟩, ?_⟩
  unfold parse at h
  rcases hrun : (statement .mysql).run (Cursor.ofString s) with e | ⟨st', c⟩ <;> rw [hrun] at h
  · cases h
  -- the statement reads every token, so the phrase the grammar derives is all of them
  obtain ⟨ws, hws, hw⟩ := parses_statement _ _ _ hrun hfree
  rw [(statement_ends hrun).1, List.append_nil] at hws
  change (TokenStream.ofString s).tokens = ws at hws
  rwa [hws]

/-- For every text in which no null test is directly followed by a binary operator, the MySQL
dialect gives a statement exactly when the text lexes and the grammar of table definitions
derives its tokens. -/
theorem parse_succeeds_iff_derives (s : String)
    (hfree : TestsLast ((TokenStream.ofString s).tokens.map Spanned.token)) :
    (∃ st, parse .mysql s = .ok st) ↔
      ∃ toks, tokenize s = .ok toks ∧ CreateTable (toks.map Spanned.token) := by
  constructor
  · rintro ⟨st, h⟩
    exact derives_of_parse_ok h hfree
  · rintro ⟨toks, hlex, h⟩
    obtain ⟨-, rfl⟩ := tokenize_eq_ok_iff.1 hlex
    exact parse_ok_of_derives hlex h hfree

/-- A table of a column whose default ends in a null test and a key, with an engine: no null
test in it is followed by an operator, so it parses as the grammar derives it. -/
theorem keyed_table_parses_iff_derives :
    TestsLast ((TokenStream.ofString
        "CREATE TABLE t (a INT DEFAULT b + 1 IS NOT NULL, KEY k (a)) ENGINE = InnoDB").tokens.map
          Spanned.token) ∧
      ((∃ st, parse .mysql
          "CREATE TABLE t (a INT DEFAULT b + 1 IS NOT NULL, KEY k (a)) ENGINE = InnoDB" = .ok st) ↔
        ∃ toks, tokenize
          "CREATE TABLE t (a INT DEFAULT b + 1 IS NOT NULL, KEY k (a)) ENGINE = InnoDB" = .ok toks ∧
          CreateTable (toks.map Spanned.token)) := by
  have hfree : TestsLast ((TokenStream.ofString
      "CREATE TABLE t (a INT DEFAULT b + 1 IS NOT NULL, KEY k (a)) ENGINE = InnoDB").tokens.map
        Spanned.token) := by
    decide +kernel
  exact ⟨hfree, parse_succeeds_iff_derives _ hfree⟩

/-! ## A null test before `AND` -/

/-- A name is a column at every level, one deep. -/
theorem Precedence.Derives.column {n p : Nat} {t : Token} {c : String} (ht : t.name? = some c)
    (hp : p ≤ atomPower) : Derives (n + 1) p [t] (.column none c) :=
  Derives.lift_le hp (.atom (.column ht))

/-- The grammar derives `a = b IS NULL AND c` as `((a = b) IS NULL) AND c`: `IS NULL` binds at
the level of `=`, and `AND`, looser, takes the null test as its left operand. -/
theorem exprOf_is_null_and :
    ExprOf [.ident "a", .equal, .ident "b", .keyword .is, .keyword .null, .keyword .and,
        .ident "c"]
      (.binary .and (.isNull (.binary .equal (.column none "a") (.column none "b")))
        (.column none "c")) := by
  have ha : Derives 2 4 [.ident "a"] (.column none "a") := Derives.column rfl (by decide)
  have hb : Derives 1 5 [.ident "b"] (.column none "b") := Derives.column rfl (by decide)
  have hc : Derives 1 3 [.ident "c"] (.column none "c") := Derives.column rfl (by decide)
  have hequal := Derives.binary (rfl : infixOp? .equal = some (.equal, 4)) ha hb
  have hnull : Derives 2 2 _ _ := Derives.lift_le (by decide : 2 ≤ isNullPower) hequal.isNull
  have hand := Derives.binary (rfl : infixOp? (.keyword .and) = some (.and, 2)) hnull hc
  exact ⟨2, by decide, Derives.lift_le (Nat.zero_le 2) hand⟩

/-- The grammar derives the table whose one column defaults to `a = b IS NULL AND c`. -/
theorem createTable_default_is_null_and :
    CreateTable [.keyword .create, .keyword .table, .ident "t", .openParen, .ident "a",
      .ident "INT", .keyword .default, .ident "a", .equal, .ident "b", .keyword .is,
      .keyword .null, .keyword .and, .ident "c", .closeParen] := by
  have hupper : Text.toUpperCase "INT" = "INT" := by decide
  have hint : MySql.DataType [.ident "INT"] := by
    refine ⟨_, "INT", [], rfl, rfl, ?_⟩
    rw [hupper]
    simp only [TypeRest]
    exact ⟨[], [], [], rfl, .inl rfl, .inl rfl, .inl rfl⟩
  have hdefault : OtherOption (.keyword .default :: [.ident "a", .equal, .ident "b",
      .keyword .is, .keyword .null, .keyword .and, .ident "c"]) :=
    .default ⟨_, exprOf_is_null_and⟩
  have hcol : ColumnDef [.ident "a", .ident "INT", .keyword .default, .ident "a", .equal,
      .ident "b", .keyword .is, .keyword .null, .keyword .and, .ident "c"] :=
    ⟨_, _, [_], [], [], rfl, rfl, hint, by simpa using hdefault, .inl rfl⟩
  have htail : Tail [] := ⟨[], [], [], rfl, by simp, .inl rfl⟩
  exact ⟨[], [], [.ident "t"], _, [], [], [], rfl, .inl rfl, .inl rfl,
    .one ⟨.ident "t", rfl, rfl⟩, .inr ⟨_, rfl, .one (.column hcol)⟩, htail, .inl rfl, .inl rfl⟩

/-- The text defining a column with default `a = b IS NULL AND c` lexes, and the grammar
derives its tokens; the parser reads the default as far as the null test and then expects the
column list to close where the `AND` stands, at byte 44. -/
theorem is_null_before_and_rejected :
    (∃ toks, tokenize "CREATE TABLE t (a INT DEFAULT a = b IS NULL AND c)" = .ok toks ∧
        CreateTable (toks.map Spanned.token)) ∧
      parse .mysql "CREATE TABLE t (a INT DEFAULT a = b IS NULL AND c)" =
        .error (.expected "')'" (some (.keyword .and)) 44) := by
  have hstop : (TokenStream.ofString "CREATE TABLE t (a INT DEFAULT a = b IS NULL AND c)").stop =
      .finished 50 := by
    decide +kernel
  have htoks : (TokenStream.ofString
      "CREATE TABLE t (a INT DEFAULT a = b IS NULL AND c)").tokens.map Spanned.token =
      [.keyword .create, .keyword .table, .ident "t", .openParen, .ident "a", .ident "INT",
        .keyword .default, .ident "a", .equal, .ident "b", .keyword .is, .keyword .null,
        .keyword .and, .ident "c", .closeParen] := by
    decide +kernel
  refine ⟨⟨_, tokenize_eq_ok_iff.2 ⟨⟨50, hstop⟩, rfl⟩, ?_⟩,
    Except.eq_error_of_map (fun _ => ()) (by decide +kernel)⟩
  rw [htoks]
  exact createTable_default_is_null_and

end SqlDdl
