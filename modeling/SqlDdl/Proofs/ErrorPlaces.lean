import SqlDdl.Proofs.TableSteps

/-!
# Where a parse error points

A failed parse reports the token it found and the byte offset where it found it, and the two
should belong together (`ParseError.PlacedIn`): a lex error is the one tokenizing the text
reports, an error that found no token stands at the end of the text, and an error that found a
token stands where that token starts. Run from the start of a text, every sound rule places its
errors so (`error_placed`), which gives this for every rule with no column definition in it.

The rules that read a column definition admit one error more, the one for a second nullability
clause: it names `NULL` where a `NOT` stands (`ParseError.SecondNullability`), and no `NULL`
need stand there at all (`second_not_null_names_null`). With that one exception a parse places
its errors, and a parse that succeeds read a text that lexes (`parse_errors_placed`).
-/

namespace SqlDdl

/-- Where an error of a parse of `sql` belongs: a lex error is the one tokenizing `sql` reports;
an error that found no token stands at the end of `sql`, and one that found a token stands at
the byte where that token of `sql` starts. -/
def ParseError.PlacedIn (sql : String) : ParseError → Prop
  | .lex e => tokenize sql = .error e
  | .expected _ none n | .unsupported _ none n => n = sql.utf8ByteSize
  | .expected _ (some t) n | .unsupported _ (some t) n =>
      ⟨t, n⟩ ∈ (TokenStream.ofString sql).tokens

/-- An error that points into the token stream of `sql` is placed in `sql`. -/
theorem ParseError.placedIn_of_pointsInto {sql : String} :
    ∀ {e : ParseError}, e.PointsInto (TokenStream.ofString sql) → e.PlacedIn sql
  | .lex e, h => by
      have hstop : (TokenStream.ofString sql).stop = .failed e := h
      simp only [PlacedIn, tokenize, hstop]
  | .expected _ none _, h => Scan.ofString_finished h
  | .unsupported _ none _, h => Scan.ofString_finished h
  | .expected _ (some _) _, h => h
  | .unsupported _ (some _) _, h => h

/-- A run that fails with `e` once its value is forgotten failed with `e`. -/
theorem Except.eq_error_of_map {ε α β : Type} {x : Except ε α} (f : α → β) {e : ε}
    (h : x.map f = .error e) : x = .error e := by
  cases x with
  | error e' => cases h; rfl
  | ok a => cases h

namespace Grammar

variable {α : Type}

/-- Run on the whole of any text, the rule `g` fails only with errors placed in that text. -/
def PlacesErrors (g : Grammar α) : Prop :=
  ∀ sql e, g.run (Cursor.ofString sql) = .error e → e.PlacedIn sql

/-- Run on the whole of any text, the rule `g` fails only with errors placed in that text, or
with the error for a second nullability clause. -/
def PlacesErrorsButNullability (g : Grammar α) : Prop :=
  ∀ sql e, g.run (Cursor.ofString sql) = .error e →
    e.PlacedIn sql ∨ e.SecondNullability (TokenStream.ofString sql)

/-- A sound rule run from the start of a text ends in the stream of that text. -/
theorem safe_ofString {X : ParseError → Prop} {g : Grammar α} (sql : String)
    (h : Sound (TokenStream.ofString sql) X g) :
    Safe (TokenStream.ofString sql) X (g.run (Cursor.ofString sql)) :=
  h _ (Cursor.ofStream_in _)

/-- A sound rule run from the start of a text fails only with errors placed in that text, or
admitted. -/
theorem error_placed {X : ParseError → Prop} {g : Grammar α} {sql : String} {e : ParseError}
    (h : Sound (TokenStream.ofString sql) X g) (he : g.run (Cursor.ofString sql) = .error e) :
    e.PlacedIn sql ∨ X e := by
  have hsafe := safe_ofString sql h
  rw [he] at hsafe
  exact Or.imp_left ParseError.placedIn_of_pointsInto hsafe

theorem placesErrors_of_sound {g : Grammar α} (h : ∀ s, Sound s (fun _ => False) g) :
    PlacesErrors g := fun _ _ he =>
  (error_placed (h _) he).resolve_right id

theorem placesErrorsButNullability_of_sound {g : Grammar α}
    (h : ∀ s, Sound s (ParseError.SecondNullability s) g) : PlacesErrorsButNullability g :=
  fun _ _ he => error_placed (h _) he

end Grammar

open Grammar

/-- A statement that parses lexes, and a parse that fails places its error in the text, but for
the error of a second nullability clause. Every rule run on the whole of a text places its
errors the same way: the rules that read no column definition with no exception, and those
that read one with that exception only. -/
theorem parse_errors_placed (d : Dialect) (acceptCreate : Bool) :
    (∀ sql stmt, parse d sql = .ok stmt → ∃ toks, tokenize sql = .ok toks) ∧
    (∀ sql e, parse d sql = .error e →
      e.PlacedIn sql ∨ e.SecondNullability (TokenStream.ofString sql)) ∧
    PlacesErrors expression ∧ PlacesErrors dataType ∧ PlacesErrors name ∧
    PlacesErrors qualifiedName ∧ PlacesErrors stringLiteral ∧ PlacesErrors nullability ∧
    PlacesErrors indexType ∧ PlacesErrors indexColumns ∧
    (∀ name, PlacesErrors (primaryKeyConstraint name)) ∧ PlacesErrors select ∧
    PlacesErrors (tableConstraint d) ∧ PlacesErrors constraintName ∧
    PlacesErrors trailingQuery ∧ (∀ stmt, PlacesErrors (tableTail d stmt)) ∧
    PlacesErrorsButNullability columnDef ∧ PlacesErrorsButNullability (tableElements d) ∧
    PlacesErrorsButNullability (tableElement d) ∧
    PlacesErrorsButNullability (createTable d acceptCreate) := by
  refine ⟨?lexes, ?placed, ?_⟩
  case lexes =>
    intro sql stmt h
    unfold parse at h
    rcases hrun : (statement d).run (Cursor.ofString sql) with e | ⟨st, c⟩ <;> rw [hrun] at h
    · cases h
    have hin : c.In (TokenStream.ofString sql) := by
      have hsafe := safe_ofString sql (sound_statement d)
      rwa [hrun] at hsafe
    obtain ⟨-, n, hstop⟩ := statement_ends hrun
    have hfinished : (TokenStream.ofString sql).stop = .finished n := hin.2 ▸ hstop
    exact ⟨(TokenStream.ofString sql).tokens, by simp only [tokenize, hfinished]⟩
  case placed =>
    intro sql e h
    unfold parse at h
    exact error_placed (sound_statement d) (Except.eq_error_of_map _ h)
  exact ⟨placesErrors_of_sound fun _ => sound_expression,
    placesErrors_of_sound fun _ => sound_dataType,
    placesErrors_of_sound fun _ => sound_name,
    placesErrors_of_sound fun _ => sound_qualifiedName,
    placesErrors_of_sound fun _ => sound_stringLiteral,
    placesErrors_of_sound fun _ => sound_nullability,
    placesErrors_of_sound fun _ => sound_indexType,
    placesErrors_of_sound fun _ => sound_indexColumns,
    fun name => placesErrors_of_sound fun _ => sound_primaryKeyConstraint name,
    placesErrors_of_sound fun _ => sound_select,
    placesErrors_of_sound fun _ => sound_tableConstraint d,
    placesErrors_of_sound fun _ => sound_constraintName,
    placesErrors_of_sound fun _ => sound_trailingQuery,
    fun stmt => placesErrors_of_sound fun _ => sound_tableTail d stmt,
    placesErrorsButNullability_of_sound fun _ => sound_columnDef,
    placesErrorsButNullability_of_sound fun _ => sound_tableElements d,
    placesErrorsButNullability_of_sound fun _ => sound_tableElement d,
    placesErrorsButNullability_of_sound fun _ => sound_createTable d acceptCreate⟩

/-- A column given `NULL` and then `NOT NULL` is refused with an error that names `NULL` at
byte 27, where the `NOT` stands and no `NULL` does: the one error the rules admit. -/
theorem second_not_null_names_null :
    parse .generic "CREATE TABLE t (a INT NULL NOT NULL)" =
        .error (.expected "a single NULL or NOT NULL per column" (some (.keyword .null)) 27) ∧
      (ParseError.expected "a single NULL or NOT NULL per column" (some (.keyword .null))
        27).SecondNullability (TokenStream.ofString "CREATE TABLE t (a INT NULL NOT NULL)") ∧
      ¬ (ParseError.expected "a single NULL or NOT NULL per column" (some (.keyword .null))
        27).PlacedIn "CREATE TABLE t (a INT NULL NOT NULL)" := by
  refine ⟨Except.eq_error_of_map (fun _ => ()) (by decide +kernel), ⟨27, rfl, ?_⟩, ?_⟩
  · decide +kernel
  · show (⟨.keyword .null, 27⟩ : Spanned) ∉ (TokenStream.ofString _).tokens
    decide +kernel

end SqlDdl
