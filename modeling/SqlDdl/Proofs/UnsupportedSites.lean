import SqlDdl.Proofs.Unsupported
import SqlDdl.Proofs.Appending
import SqlDdl.Proofs.ErrorPlaces

/-!
# The three places of an unsupported construct

A statement is refused as *unsupported*, rather than malformed, at three places only:

* an `ON` right after a complete head of a table definition, whatever text follows it;
* in MySQL, `PARTITION BY` and then a token other than `KEY`, after a complete head that has no
  partitioning yet;
* `CONSTRAINT`, its optional name, and then a token that starts no constraint the dialect knows.

The first two are statements about texts `H ++ " ON " ++ r`, where `H` is a complete head
(`IsHead`). The lexer reads such a text as the tokens of `H` and then those of the rest
(`Scan.ofString_append`), so the place at the start of `H` is the place at the start of the
whole text with more tokens after it. The head then runs alike on both (`runsAhead_tableHead`),
and the end of the definition finds the `ON`. For `PARTITION BY`, the rounds of the MySQL tail
run alike up to `PARTITION`, and the next round finds no `KEY`.

The converse (`statement_unsupported`) runs the other way. The head and the rounds of its tail
are followed back from the whole text to the text that ends where the unsupported construct
starts, so each report stands after a complete head. The main statement is
`unsupported_at_three_places`. A second `PARTITION BY` after a key partitioning is not among the
three: it is refused as malformed (`partition_by_after_key_partitioning_is_malformed`).
-/

namespace SqlDdl

namespace Scan

theorem isWordChar_blank_head (r : List Char) : ∀ x ∈ (' ' :: r).head?, isWordChar x = false := by
  intro x hx
  obtain rfl := Option.mem_some_iff.1 hx
  decide

theorem startsBlank_space (r : List Char) : StartsBlank (' ' :: r) := by
  intro x hx
  obtain rfl := Option.mem_some_iff.1 hx
  decide

/-- `ON` between two blanks, and then `r`. -/
theorem scanFrom_on (r : List Char) (n : Nat) :
    scanFrom (" ON ".toList ++ r) n =
      ⟨⟨.keyword .on, n + 1⟩ :: (scanFrom r (n + 4)).tokens, (scanFrom r (n + 4)).stop⟩ := by
  rw [show " ON ".toList ++ r = ' ' :: (['O', 'N'] ++ ' ' :: r) from rfl,
    scanFrom_whiteSpace _ _ (by decide),
    scanFrom_word (by decide) (List.all_eq_true.1 (by decide)) (isWordChar_blank_head r),
    scanFrom_whiteSpace _ _ (by decide)]
  rfl

/-- `PARTITION BY` between blanks, and then `r`. -/
theorem scanFrom_partitionBy (r : List Char) (n : Nat) :
    scanFrom (" PARTITION BY ".toList ++ r) n =
      ⟨⟨.ident "PARTITION", n + 1⟩ :: ⟨.keyword .by, n + 11⟩ :: (scanFrom r (n + 14)).tokens,
        (scanFrom r (n + 14)).stop⟩ := by
  rw [show " PARTITION BY ".toList ++ r =
      ' ' :: (['P', 'A', 'R', 'T', 'I', 'T', 'I', 'O', 'N'] ++ ' ' :: (['B', 'Y'] ++ ' ' :: r))
      from rfl,
    scanFrom_whiteSpace _ _ (by decide), scanFrom_word (by decide) (List.all_eq_true.1 (by decide))
      (isWordChar_blank_head _), scanFrom_whiteSpace _ _ (by decide),
    scanFrom_word (by decide) (List.all_eq_true.1 (by decide)) (isWordChar_blank_head r),
    scanFrom_whiteSpace _ _ (by decide)]
  rfl

/-- A text that lexes and ends with its last token, then text that starts with a blank: the
tokens of the text, then those of the rest from where the text ends. -/
theorem ofString_append {H T : String} {n : Nat}
    (hfin : (TokenStream.ofString H).stop = .finished n) (hend : EndsWithToken H.toList 0)
    (hT : StartsBlank T.toList) :
    TokenStream.ofString (H ++ T) =
      ⟨(TokenStream.ofString H).tokens ++ (scanFrom T.toList H.utf8ByteSize).tokens,
        (scanFrom T.toList H.utf8ByteSize).stop⟩ := by
  unfold TokenStream.ofString at hfin ⊢
  rw [String.toList_append, scanFrom_append hT hfin hend, Nat.zero_add, byteLength_toList]

end Scan

/-- A text that parses lexes to its end. -/
theorem parse_ok_finished {d : Dialect} {H : String} {st : Statement} (h : parse d H = .ok st) :
    ∃ n, (TokenStream.ofString H).stop = .finished n := by
  unfold parse at h
  rcases hrun : (Grammar.statement d).run (Cursor.ofString H) with e | ⟨st', c⟩ <;> rw [hrun] at h
  · cases h
  have hin : c.In (TokenStream.ofString H) := by
    have hsafe := Grammar.safe_ofString H (Grammar.sound_statement d)
    rwa [hrun] at hsafe
  obtain ⟨-, n, hstop⟩ := Grammar.statement_ends hrun
  exact ⟨n, hin.2 ▸ hstop⟩

namespace Grammar

/-- The head of a table definition of `d` reads all of `c`, and gives `st`. -/
def HeadReads (d : Dialect) (c : Cursor) (st : Statement) : Prop :=
  ∃ c', (tableHead d).run c = .ok (st, c') ∧ c'.rest = []

end Grammar

/-- The text `H` is a complete head of a table definition of `d` that gives `st`: it parses, the
head of a definition reads all of it, so it holds neither a query nor a closing `;`, and it ends
with the last character of its last token. -/
structure IsHead (d : Dialect) (H : String) (st : Statement) : Prop where
  parses : ∃ st', parse d H = .ok st'
  reads : Grammar.HeadReads d (Cursor.ofString H) st
  ends : Scan.EndsWithToken H.toList 0

/-- After a complete head, text that starts with a blank adds its own tokens: the start of the
head is the start of the whole text with those tokens after it. -/
theorem IsHead.ahead {d : Dialect} {H T : String} {st : Statement} (h : IsHead d H st)
    (hT : Scan.StartsBlank T.toList) :
    (Cursor.ofString H).Ahead (Scan.scanFrom T.toList H.utf8ByteSize).tokens
        (Cursor.ofString (H ++ T)) ∧
      (Cursor.ofString (H ++ T)).stop = (Scan.scanFrom T.toList H.utf8ByteSize).stop := by
  obtain ⟨st', hparse⟩ := h.parses
  obtain ⟨n, hfin⟩ := parse_ok_finished hparse
  have hlex := Scan.ofString_append hfin h.ends hT
  exact ⟨⟨⟨n, hfin⟩, by simp only [Cursor.ofString, Cursor.ofStream, hlex, Cursor.rest_ofTokens]⟩,
    by simp only [Cursor.ofString, Cursor.ofStream, hlex]; rfl⟩

/-- A text is a complete head once it parses, the head reads all of it and it ends with a token;
for a fixed text the first two are computed. -/
theorem isHead_of_reads {d : Dialect} {H : String} (hok : (parse d H).toBool = true)
    (hreads : ((Grammar.tableHead d).run (Cursor.ofString H)).map (·.2.rest) = .ok [])
    (hends : Scan.EndsWithToken H.toList 0) :
    ∃ st c', (Grammar.tableHead d).run (Cursor.ofString H) = .ok (st, c') ∧ IsHead d H st := by
  obtain ⟨st', hparse⟩ : ∃ st', parse d H = .ok st' := by
    cases hp : parse d H with
    | error e => rw [hp] at hok; cases hok
    | ok st' => exact ⟨st', rfl⟩
  cases hr : (Grammar.tableHead d).run (Cursor.ofString H) with
  | error e => rw [hr] at hreads; cases hreads
  | ok r =>
    obtain ⟨st, c'⟩ := r
    rw [hr] at hreads
    exact ⟨st, c', rfl, ⟨st', hparse⟩, ⟨c', hr, Except.ok.inj hreads⟩, hends⟩

/-- The text of a table with one column, a complete head with no partitioning. -/
theorem one_column_table_isHead :
    ∃ st, IsHead .mysql "CREATE TABLE t (a INT)" st ∧ st.partitioning = none := by
  have hends : Scan.EndsWithToken "CREATE TABLE t (a INT)".toList 0 :=
    ⟨"CREATE TABLE t (a INT".toList, [')'], .closeParen, by decide, .symbol (by decide),
      by decide +kernel⟩
  obtain ⟨st, c', hr, hhead⟩ :=
    isHead_of_reads (d := .mysql) (by decide +kernel) (by decide +kernel) hends
  have hpart : ((Grammar.tableHead .mysql).run (Cursor.ofString "CREATE TABLE t (a INT)")).map
      (·.1.partitioning.isNone) = .ok true := by decide +kernel
  rw [hr] at hpart
  exact ⟨st, hhead, Option.isNone_iff_eq_none.1 (Except.ok.inj hpart)⟩

/-! ## After a complete head -/

namespace Grammar

/-- A word spelled `PARTITION` continues no phrase of a head: it is neither an operator nor the
word `PARTITIONS`. -/
theorem stopsHead_of_partition {p : Token} (h : p.isWord "PARTITION" = true) :
    StopsHead p = true := by
  cases p with
  | ident s =>
    have hcont : Precedence.continues 0 (.ident s) = false := by
      simp [Precedence.continues, infixOp?, atLeast]
    simp only [Token.isWord, Text.equalsIgnoringAsciiCase, beq_iff_eq] at h
    simp only [StopsHead, hcont, Token.isWord, Text.equalsIgnoringAsciiCase, h]
    decide
  | _ => simp [Token.isWord] at h

theorem sound_tableHead {S : TokenStream} (d : Dialect) :
    Sound S (ParseError.SecondNullability S) (tableHead d) :=
  (sound_tableStart d).bind fun st => by
    cases d with
    | generic => exact sound_pure st
    | mysql => exact sound_loop sound_tailClause id st

/-- After a complete head, `ON` is reported as an unsupported construct where it stands: the head
reads up to it as up to the end of the text, and the end of the definition refuses it. -/
theorem statement_on_after_head {d : Dialect} {st : Statement} {c c₀ : Cursor} {oo : Nat}
    {post : List Spanned} (hhead : HeadReads d c st)
    (had : c.Ahead (⟨.keyword .on, oo⟩ :: post) c₀) :
    (statement d).run c₀ =
      .error (.unsupported "ON clause after table definition" (some (.keyword .on)) oo) := by
  obtain ⟨c', hrun, hrest⟩ := hhead
  obtain ⟨d', hrun', had'⟩ := ((runsAhead_tableHead (x := ⟨.keyword .on, oo⟩) rfl
    (by simp) (fun _ => by simp) d).2 c c₀ had st trivial).1 c' hrun trivial
  have hd' : d'.rest = ⟨.keyword .on, oo⟩ :: post := by
    rw [had'.2, hrest]
    rfl
  rw [statement_eq, createTable_true, run_bind, run_bind, hrun']
  dsimp only
  rw [tailEnd_on hd']

/-- After a complete MySQL head without a partitioning, `PARTITION BY` and a token other than
`KEY` is reported as an unsupported partitioning at that token: the head reads up to `PARTITION`
as up to the end of the text, round by round, and the next round finds no key. -/
theorem statement_partition_after_head {st : Statement} {c c₀ : Cursor} {op ob : Nat}
    {x : List Spanned} (hhead : HeadReads .mysql c st) (hp : st.partitioning = none)
    (had : c.Ahead (⟨.ident "PARTITION", op⟩ :: ⟨.keyword .by, ob⟩ :: x) c₀)
    (hx : x.head?.map (·.token) ≠ some (.keyword .key)) :
    (statement .mysql).run c₀ = .error ((Cursor.ofTokens x c₀.stop).unsupportedHere
      "partitioning other than PARTITION BY KEY") := by
  obtain ⟨c', hrun, hrest⟩ := hhead
  have hstops : StopsHead (.ident "PARTITION") = true := rfl
  obtain ⟨st₀, c₁, hstart, hloop⟩ := run_bind_eq_ok hrun
  obtain ⟨d₁, hstart', had₁⟩ := ((runsAhead_tableStart (x := ⟨.ident "PARTITION", op⟩) hstops
    .mysql).2 c c₀ had st₀ trivial).1 c₁ hstart trivial
  obtain ⟨s₁, c₂, hrounds, hlast⟩ := rounds_of_loop_ok progresses_tailClause hloop
  obtain ⟨rfl, rfl⟩ := tailClause_inl hlast
  obtain ⟨d', hrounds', had'⟩ := hrounds.ahead (fun s => runsAhead_tailClause hstops s)
    anywhere_append had₁ trivial
  have hd' : d'.rest = ⟨.ident "PARTITION", op⟩ :: ⟨.keyword .by, ob⟩ :: x := by
    rw [had'.2, hrest]
    rfl
  have hstop : d'.stop = c₀.stop := by
    have hin₁ : d₁.In ⟨c₀.rest, c₀.stop⟩ :=
      (sound_tableStart .mysql).in_of_ok ⟨List.suffix_refl _, rfl⟩ hstart'
    exact (hrounds'.in_of_sound (fun s => sound_tailClause (X := fun _ => True) s) hin₁).2
  rw [statement_eq, createTable_true, run_bind, run_bind, tableHead, run_bind, hstart']
  dsimp only
  rw [show (tailClauses .mysql st₀).run d₁ = (loop tailClause id st₀).run d₁ from rfl,
    hrounds'.run_loop, run_loop, tailClause_partitionByOther hp hd' hx, hstop]

end Grammar

/-- A complete head followed by ` ON ` and any text, even one that does not lex, is refused: `ON`
is reported as an unsupported construct, at the byte after the head. -/
theorem parse_on_after_head {d : Dialect} {H : String} {st : Statement} (h : IsHead d H st)
    (r : String) :
    parse d (H ++ " ON " ++ r) =
      .error (.unsupported "ON clause after table definition" (some (.keyword .on))
        (H.utf8ByteSize + 1)) := by
  have hT : Scan.StartsBlank (" ON " ++ r).toList := by
    rw [String.toList_append]
    exact Scan.startsBlank_space _
  obtain ⟨had, -⟩ := h.ahead hT
  rw [String.toList_append, Scan.scanFrom_on, ← String.append_assoc] at had
  unfold parse
  rw [Grammar.statement_on_after_head h.reads had]
  rfl

/-- A complete MySQL head with no partitioning, followed by ` PARTITION BY ` and a text whose
first token is not `KEY`, is refused: the partitioning is reported unsupported at that token, or
at the end of the text. -/
theorem parse_partition_after_head {H : String} {st : Statement} (h : IsHead .mysql H st)
    (hp : st.partitioning = none) (x : String)
    (hx : (Scan.scanFrom x.toList (H.utf8ByteSize + 14)).tokens.head?.map (·.token) ≠
      some (.keyword .key)) :
    parse .mysql (H ++ " PARTITION BY " ++ x) =
      .error ((Cursor.ofStream (Scan.scanFrom x.toList (H.utf8ByteSize + 14))).unsupportedHere
        "partitioning other than PARTITION BY KEY") := by
  have hT : Scan.StartsBlank (" PARTITION BY " ++ x).toList := by
    rw [String.toList_append]
    exact Scan.startsBlank_space _
  obtain ⟨had, hstop⟩ := h.ahead hT
  rw [String.toList_append, Scan.scanFrom_partitionBy, ← String.append_assoc] at had hstop
  unfold parse
  rw [Grammar.statement_partition_after_head h.reads hp had hx, hstop]
  rfl

/-! ## Every report is at one of the three places -/

namespace Grammar

/-- A head read up to an `ON` reads all of the text that ends before it. -/
theorem headReads_before_on {d : Dialect} {st : Statement} {c₀ c₂ : Cursor}
    {pre post : List Spanned} {oo : Nat} (hrun : (tableHead d).run c₀ = .ok (st, c₂))
    (hc₀ : c₀.rest = pre ++ ⟨.keyword .on, oo⟩ :: post)
    (hc₂ : c₂.rest = ⟨.keyword .on, oo⟩ :: post) :
    HeadReads d (Cursor.ofTokens pre (.finished oo)) st := by
  have had : (Cursor.ofTokens pre (.finished oo)).Ahead (⟨.keyword .on, oo⟩ :: post) c₀ :=
    ⟨⟨oo, rfl⟩, by rw [hc₀, Cursor.rest_ofTokens]⟩
  obtain ⟨c', hrun', had'⟩ := ((runsAhead_tableHead (x := ⟨.keyword .on, oo⟩) rfl (by simp)
    (fun _ => by simp) d).2 _ c₀ had st trivial).2 c₂ [] hrun hc₂ trivial
  exact ⟨c', hrun', had'.rest_eq hc₂⟩

/-- A MySQL head whose rounds of the tail reach `PARTITION BY` reads all of the text that ends
before `PARTITION`, up to the statement of those rounds. -/
theorem headReads_before_partition {st₀ s₁ : Statement} {c₀ c₁ d₁ : Cursor}
    {pre x : List Spanned} {p : Token} {op ob : Nat} (hword : p.isWord "PARTITION" = true)
    (hstart : (tableStart .mysql).run c₀ = .ok (st₀, c₁))
    (hrounds : Rounds tailClause st₀ c₁ s₁ d₁)
    (hc₀ : c₀.rest = pre ++ ⟨p, op⟩ :: ⟨.keyword .by, ob⟩ :: x)
    (hd₁ : d₁.rest = ⟨p, op⟩ :: ⟨.keyword .by, ob⟩ :: x) :
    HeadReads .mysql (Cursor.ofTokens pre (.finished op)) s₁ := by
  have hstops := stopsHead_of_partition hword
  have had : (Cursor.ofTokens pre (.finished op)).Ahead (⟨p, op⟩ :: ⟨.keyword .by, ob⟩ :: x) c₀ :=
    ⟨⟨op, rfl⟩, by rw [hc₀, Cursor.rest_ofTokens]⟩
  have hround : ∀ s, RunsAhead Anywhere (fun r => r.isRight = true)
      (⟨p, op⟩ :: ⟨.keyword .by, ob⟩ :: x) (tailClause s) := fun s =>
    runsAhead_tailClause hstops s
  have hd₁' : d₁.rest = [] ++ ⟨p, op⟩ :: ⟨.keyword .by, ob⟩ :: x := hd₁
  obtain ⟨m, hm⟩ := hrounds.suffix fun s => (hround s).1
  obtain ⟨c₁', hstart', had₁⟩ := ((runsAhead_tableStart (x := ⟨p, op⟩) hstops .mysql).2 _ c₀
    had st₀ trivial).2 c₁ m hstart (by rw [← hm, hd₁]) trivial
  obtain ⟨c', hrounds', had'⟩ := hrounds.behind hround anywhere_append had₁ hd₁' trivial
  have hc' : c'.rest = [] := had'.rest_eq hd₁'
  refine ⟨c', ?_, hc'⟩
  rw [tableHead, run_bind, hstart']
  show (loop tailClause id st₀).run c₁' = _
  rw [hrounds'.run_loop, loop_tailClause_stop fun t ht => by simp [Cursor.next?, hc'] at ht]

/-- The report of an `ON` after a complete head of a definition in `S`. -/
def OnAfterHead (d : Dialect) (S : TokenStream) (e : ParseError) : Prop :=
  ∃ pre oo post st, S.tokens = pre ++ ⟨.keyword .on, oo⟩ :: post ∧
    HeadReads d (Cursor.ofTokens pre (.finished oo)) st ∧
    e = .unsupported "ON clause after table definition" (some (.keyword .on)) oo

/-- The report of a MySQL `PARTITION BY` that `KEY` does not follow, after a complete head of a
definition in `S` that has no partitioning. -/
def PartitionAfterHead (d : Dialect) (S : TokenStream) (e : ParseError) : Prop :=
  d = .mysql ∧ ∃ pre p op ob x st, S.tokens = pre ++ ⟨p, op⟩ :: ⟨.keyword .by, ob⟩ :: x ∧
    p.isWord "PARTITION" = true ∧ x.head?.map (·.token) ≠ some (.keyword .key) ∧
    HeadReads .mysql (Cursor.ofTokens pre (.finished op)) st ∧ st.partitioning = none ∧
    e = (Cursor.ofTokens x S.stop).unsupportedHere "partitioning other than PARTITION BY KEY"

/-- The three places of `S` where a statement of `d` reports an unsupported construct. -/
def UnsupportedIn (d : Dialect) (S : TokenStream) (e : ParseError) : Prop :=
  OnAfterHead d S e ∨ PartitionAfterHead d S e ∨ UnknownConstraintIn d S e

/-- What the head of a definition reports unsupported is an unknown table constraint, or a MySQL
partitioning other than by key. -/
theorem tableHead_unsupported {d : Dialect} {S : TokenStream} {m : String} {f : Option Token}
    {o : Nat} (h : (tableHead d).run (Cursor.ofStream S) = .error (.unsupported m f o)) :
    PartitionAfterHead d S (.unsupported m f o) ∨ UnknownConstraintIn d S (.unsupported m f o) := by
  rw [tableHead, run_bind] at h
  rcases hstart : (tableStart d).run (Cursor.ofStream S) with e | ⟨st₀, c₁⟩ <;> rw [hstart] at h
  · cases h
    exact .inr ((confined_tableStart d).2 _ (Cursor.ofStream_in S) _ hstart)
  cases d with
  | generic => cases h
  | mysql =>
    obtain ⟨s₁, d₁, hrounds, hlast⟩ :=
      rounds_of_loop_error (show (loop tailClause id st₀).run c₁ = _ from h)
    obtain ⟨hp, x, ⟨p, op, ob, hd₁, hword, hx⟩, he⟩ := tailClause_unsupported hlast
    have hin : d₁.In S := hrounds.in_of_sound (fun s => sound_tailClause (X := fun _ => True) s)
      ((sound_tableStart .mysql).in_of_ok (Cursor.ofStream_in S) hstart)
    obtain ⟨pre, hpre⟩ := hin.1
    have hS : S.tokens = pre ++ ⟨p, op⟩ :: ⟨.keyword .by, ob⟩ :: x := by rw [← hpre, hd₁]
    exact .inl ⟨rfl, pre, p, op, ob, x, s₁, hS, hword, hx,
      headReads_before_partition hword hstart hrounds hS hd₁, hp, by rw [he, hin.2]⟩

/-- Every unsupported construct a statement reports is an `ON` after a complete head, a MySQL
partitioning other than by key after a complete head without one, or an unknown table
constraint. -/
theorem statement_unsupported {d : Dialect} {S : TokenStream} {m : String} {f : Option Token}
    {o : Nat} (h : (statement d).run (Cursor.ofStream S) = .error (.unsupported m f o)) :
    UnsupportedIn d S (.unsupported m f o) := by
  rw [statement_eq, createTable_true, run_bind, run_bind] at h
  rcases hhead : (tableHead d).run (Cursor.ofStream S) with e | ⟨st, c₂⟩ <;> rw [hhead] at h
  · cases h
    exact .inr (tableHead_unsupported hhead)
  dsimp only at h
  rcases htail : (tailEnd st).run c₂ with e | ⟨st', c₃⟩ <;> rw [htail] at h
  · cases h
    obtain ⟨oo, post, hc₂, he⟩ := tailEnd_unsupported htail
    obtain ⟨pre, hpre⟩ := ((sound_tableHead d).in_of_ok (Cursor.ofStream_in S) hhead).1
    have hS : S.tokens = pre ++ ⟨.keyword .on, oo⟩ :: post := by rw [← hpre, hc₂]
    exact .inl ⟨pre, oo, post, st, hS, headReads_before_on hhead hS hc₂, he⟩
  · exact absurd h (not_unsupported_of_confined fun _ => confined_statementEnd st')

end Grammar

/-- A text whose statement reports an unsupported construct has it at one of the three places. -/
theorem parse_unsupported {d : Dialect} {s : String} {m : String} {f : Option Token} {o : Nat}
    (h : parse d s = .error (.unsupported m f o)) :
    Grammar.UnsupportedIn d (TokenStream.ofString s) (.unsupported m f o) :=
  Grammar.statement_unsupported (Except.eq_error_of_map _ h)

/-! ## The three places -/

/-- Where a statement reports an unsupported construct: at an `ON` after a complete head; in
MySQL, at the token after `PARTITION BY` when it is not `KEY` and the head has no partitioning;
at the token after `CONSTRAINT` and its name when it starts no constraint the dialect knows; and
nowhere else. -/
theorem unsupported_at_three_places (d : Dialect) :
    (∀ H st r, IsHead d H st →
      parse d (H ++ " ON " ++ r) =
        .error (.unsupported "ON clause after table definition" (some (.keyword .on))
          (H.utf8ByteSize + 1))) ∧
    (∀ H st x, d = .mysql → IsHead d H st → st.partitioning = none →
      (Scan.scanFrom x.toList (H.utf8ByteSize + 14)).tokens.head?.map (·.token) ≠
        some (.keyword .key) →
      parse d (H ++ " PARTITION BY " ++ x) =
        .error ((Cursor.ofStream (Scan.scanFrom x.toList (H.utf8ByteSize + 14))).unsupportedHere
          "partitioning other than PARTITION BY KEY")) ∧
    (∀ c x, Grammar.AfterConstraintName c.rest x →
      Grammar.StartsConstraint d (x.head?.map (·.token)) = false →
      (Grammar.tableElement d).run c =
        .error ((Cursor.ofTokens x c.stop).unsupportedHere (Grammar.unknownConstraint d))) ∧
    (∀ s m f o, parse d s = .error (.unsupported m f o) →
      Grammar.UnsupportedIn d (TokenStream.ofString s) (.unsupported m f o)) := by
  refine ⟨fun _ _ r h => parse_on_after_head h r, ?_,
    fun _ _ h hx => Grammar.tableElement_unknownConstraint h hx, fun _ _ _ _ h => parse_unsupported h⟩
  rintro _ _ x rfl h hp hx
  exact parse_partition_after_head h hp x hx

/-- Each of the three places reached: after the head of a table, `ON` and `PARTITION BY HASH`;
`CONSTRAINT c CHECK`; and the report of that `ON` found at the first place. -/
theorem unsupported_places_reached :
    parse .mysql ("CREATE TABLE t (a INT)" ++ " ON " ++ "x") =
        .error (.unsupported "ON clause after table definition" (some (.keyword .on)) 23) ∧
      parse .mysql ("CREATE TABLE t (a INT)" ++ " PARTITION BY " ++ "HASH (a)") =
        .error (.unsupported "partitioning other than PARTITION BY KEY" (some (.ident "HASH"))
          36) ∧
      (Grammar.tableElement .mysql).run (Cursor.ofString "CONSTRAINT c CHECK (a)") =
        .error (.unsupported "table constraint other than KEY or PRIMARY KEY"
          (some (.ident "CHECK")) 13) ∧
      Grammar.UnsupportedIn .mysql
        (TokenStream.ofString ("CREATE TABLE t (a INT)" ++ " ON " ++ "x"))
        (.unsupported "ON clause after table definition" (some (.keyword .on)) 23) := by
  obtain ⟨st, hhead, hp⟩ := one_column_table_isHead
  have hsize : "CREATE TABLE t (a INT)".utf8ByteSize = 22 := by decide +kernel
  have hon := (unsupported_at_three_places .mysql).1 _ st "x" hhead
  have hpart := (unsupported_at_three_places .mysql).2.1 _ st "HASH (a)" rfl hhead hp
    (by decide +kernel)
  have htoks : (Cursor.ofString "CONSTRAINT c CHECK (a)").rest =
      [⟨.keyword .constraint, 0⟩, ⟨.ident "c", 11⟩, ⟨.ident "CHECK", 13⟩, ⟨.openParen, 19⟩,
        ⟨.ident "a", 20⟩, ⟨.closeParen, 21⟩] := by decide +kernel
  have hcons := (unsupported_at_three_places .mysql).2.2.1 _ _
    ⟨0, .inr ⟨⟨.ident "c", 11⟩, htoks, rfl⟩⟩ rfl
  rw [hsize] at hon hpart
  exact ⟨hon, hpart.trans (congrArg _ (by decide +kernel)),
    hcons.trans (congrArg _ (by decide +kernel)),
    (unsupported_at_three_places .mysql).2.2.2 _ _ _ _ hon⟩

/-- After a head with a key partitioning, a second `PARTITION BY` is not an unsupported
partitioning: whatever follows it, the clause is refused as malformed, at `PARTITION`. -/
theorem partition_by_after_key_partitioning_is_malformed :
    (∃ st, IsHead .mysql "CREATE TABLE t (a INT) PARTITION BY KEY (a)" st ∧
        st.partitioning.isSome) ∧
      parse .mysql ("CREATE TABLE t (a INT) PARTITION BY KEY (a)" ++ " PARTITION BY " ++ "HASH") =
        .error (.expected "at most one PARTITION BY clause" (some (.ident "PARTITION")) 44) := by
  have hends : Scan.EndsWithToken "CREATE TABLE t (a INT) PARTITION BY KEY (a)".toList 0 :=
    ⟨"CREATE TABLE t (a INT) PARTITION BY KEY (a".toList, [')'], .closeParen, by decide,
      .symbol (by decide), by decide +kernel⟩
  obtain ⟨st, c', hr, hhead⟩ :=
    isHead_of_reads (d := .mysql) (by decide +kernel) (by decide +kernel) hends
  have hpart : ((Grammar.tableHead .mysql).run
      (Cursor.ofString "CREATE TABLE t (a INT) PARTITION BY KEY (a)")).map
      (·.1.partitioning.isSome) = .ok true := by decide +kernel
  rw [hr] at hpart
  exact ⟨⟨st, hhead, Except.ok.inj hpart⟩, Except.eq_error_of_map (fun _ => ()) (by decide +kernel)⟩

end SqlDdl
