import SqlDdl.Proofs.CacheRecency
import SqlDdl.Proofs.Trimming

/-!
# The cache answers as parsing does

Of the store behind a cache, one thing is assumed here: a lookup answers only with a value that
was put under the same key (`LruStore.GetsWhatWasPut`). A cache puts only statements that their
texts parse to, under the trimmed text it parsed, so along a run everything put in its store is
such a statement (`Faithful`). Each answer of the cache is then what parsing the trimmed text
gives (`Faithful.parse_result`), and since trimming White_Space changes nothing that parsing sees
(`parse_trimWhiteSpace`), it is what parsing the text itself gives, up to the offsets in an error
(`parse_answers_as_uncached`).
-/

namespace SqlDdl

namespace CacheAnswer

/-- What an answer says the text holds: the statement of a hit or a miss, or the error of a
failure. -/
def result : CacheAnswer → Except ParseError Statement
  | .hit st _ | .miss st _ => .ok st
  | .failed e => .error e

end CacheAnswer

namespace StatementCache

variable {σ : Type} {lru : LruStore σ String Shared} {cfg : ParserConfig}
  {cache : StatementCache σ} {log : List (String × CacheAnswer)}

/-- The cache reads in the configured dialect, and its store was reached from a new one of the
configured capacity by putting only statements that their keys parse to. -/
structure Faithful (lru : LruStore σ String Shared) (cfg : ParserConfig)
    (cache : StatementCache σ) : Prop where
  dialect_eq : cache.dialect = cfg.dialect
  puts_parse : ∃ puts, lru.Reaches cfg.effectiveCapacity cache.store puts ∧
    ∀ e ∈ puts, SqlDdl.parse cfg.dialect e.1 = .ok e.2.statement

theorem faithful_new (cfg : ParserConfig) : Faithful lru cfg (new lru cfg) :=
  ⟨rfl, [], .new, fun _ he => absurd he List.not_mem_nil⟩

theorem Faithful.clear (h : Faithful lru cfg cache) : Faithful lru cfg (cache.clear lru) :=
  let ⟨puts, hr, hp⟩ := h.puts_parse
  ⟨h.dialect_eq, puts, hr.clear, hp⟩

/-- Parsing keeps a cache faithful: a hit and a failure put nothing, and a miss puts the
statement it parsed under the text it parsed. -/
theorem Faithful.parse (h : Faithful lru cfg cache) (sql : String) :
    Faithful lru cfg (cache.parse lru sql).2 := by
  obtain ⟨puts, hr, hp⟩ := h.puts_parse
  have hget := hr.get (Text.trimWhiteSpace sql)
  rcases hg : lru.get cache.store (Text.trimWhiteSpace sql) with ⟨_ | v, store⟩
  · rw [hg] at hget
    rcases hres : SqlDdl.parse cache.dialect (Text.trimWhiteSpace sql) with err | st
    · rw [parse_of_get_none_error hg hres]
      exact ⟨h.dialect_eq, puts, hget, hp⟩
    · rw [parse_of_get_none_ok hg hres]
      refine ⟨h.dialect_eq, _, hget.put _ _, fun e he => ?_⟩
      rcases List.mem_append.1 he with he | he
      · exact hp e he
      · rw [List.mem_singleton.1 he, ← h.dialect_eq]
        exact hres
  · rw [hg] at hget
    rw [parse_of_get_some hg]
    exact ⟨h.dialect_eq, puts, hget, hp⟩

/-- Over a store that answers only with what was put, a faithful cache answers each text as
parsing its trimmed text does. -/
theorem Faithful.parse_result (hgets : lru.GetsWhatWasPut) (h : Faithful lru cfg cache)
    (sql : String) :
    (cache.parse lru sql).1.result = SqlDdl.parse cfg.dialect (Text.trimWhiteSpace sql) := by
  obtain ⟨puts, hr, hp⟩ := h.puts_parse
  rcases hg : lru.get cache.store (Text.trimWhiteSpace sql) with ⟨_ | v, store⟩
  · rcases hres : SqlDdl.parse cache.dialect (Text.trimWhiteSpace sql) with err | st
    · rw [parse_of_get_none_error hg hres, ← h.dialect_eq, hres]
      rfl
    · rw [parse_of_get_none_ok hg hres, ← h.dialect_eq, hres]
      rfl
  · have hput : (Text.trimWhiteSpace sql, v) ∈ puts :=
      hgets _ _ _ cfg.effectiveCapacity_pos hr _ _ (by rw [hg])
    rw [parse_of_get_some hg, hp _ hput]
    rfl

/-- Every run keeps the cache faithful. -/
theorem Run.faithful (h : Run lru cfg cache log) : Faithful lru cfg cache := by
  induction h with
  | new => exact faithful_new cfg
  | parse sql _ ih => exact ih.parse sql
  | clear _ ih => exact ih.clear

/-- Along every run from the empty cache of a configuration, over a store that answers only with
what was put, each parse answers as an uncached parse of its text would: the same statement
where that parse gives one, an error exactly where it gives an error, and then the error of the
uncached parse of the trimmed text. -/
theorem parse_answers_as_uncached (hgets : lru.GetsWhatWasPut) (h : Run lru cfg cache log)
    (sql : String) :
    (∀ st, SqlDdl.parse cfg.dialect sql = .ok st → (cache.parse lru sql).1.result = .ok st) ∧
      ((∃ e, (cache.parse lru sql).1.result = .error e) ↔
        ∃ e, SqlDdl.parse cfg.dialect sql = .error e) ∧
      (∀ e, (cache.parse lru sql).1.result = .error e →
        SqlDdl.parse cfg.dialect (Text.trimWhiteSpace sql) = .error e) := by
  have htrim := parse_trimWhiteSpace cfg.dialect sql
  rw [h.faithful.parse_result hgets]
  generalize SqlDdl.parse cfg.dialect (Text.trimWhiteSpace sql) = r at htrim ⊢
  generalize SqlDdl.parse cfg.dialect sql = r' at htrim ⊢
  rcases r with e | st <;> rcases r' with e' | st'
  · refine ⟨fun _ h => ?_, ⟨fun _ => ⟨e', rfl⟩, fun _ => ⟨e, rfl⟩⟩, fun _ h => h⟩
    cases h
  · cases htrim
  · cases htrim
  · cases htrim
    refine ⟨fun _ h => h, ⟨?_, ?_⟩, fun _ h => ?_⟩
    · rintro ⟨_, h⟩
      cases h
    · rintro ⟨_, h⟩
      cases h
    · cases h

/-- Over a store kept as a list, after a table is parsed once, the same text with White_Space
around it is answered as parsing answers it. -/
theorem padded_text_answers_as_uncached :
    (ListLru.store : LruStore (ListLru String Shared) String Shared).GetsWhatWasPut ∧
      Run ListLru.store .testing
        ((new ListLru.store .testing).parse ListLru.store "CREATE TABLE t (a INT)").2
        [("CREATE TABLE t (a INT)",
          ((new ListLru.store .testing).parse ListLru.store "CREATE TABLE t (a INT)").1)] ∧
      (∀ st, SqlDdl.parse ParserConfig.testing.dialect " CREATE TABLE t (a INT)\n" = .ok st →
        (((new ListLru.store .testing).parse ListLru.store "CREATE TABLE t (a INT)").2.parse
          ListLru.store " CREATE TABLE t (a INT)\n").1.result = .ok st) ∧
      ((∃ e, (((new ListLru.store .testing).parse ListLru.store "CREATE TABLE t (a INT)").2.parse
          ListLru.store " CREATE TABLE t (a INT)\n").1.result = .error e) ↔
        ∃ e, SqlDdl.parse ParserConfig.testing.dialect " CREATE TABLE t (a INT)\n" = .error e) ∧
      (∀ e, (((new ListLru.store .testing).parse ListLru.store "CREATE TABLE t (a INT)").2.parse
          ListLru.store " CREATE TABLE t (a INT)\n").1.result = .error e →
        SqlDdl.parse ParserConfig.testing.dialect
          (Text.trimWhiteSpace " CREATE TABLE t (a INT)\n") = .error e) :=
  ⟨ListLru.lawful.getsWhatWasPut, .parse _ .new,
    parse_answers_as_uncached ListLru.lawful.getsWhatWasPut (.parse _ .new) _⟩

end StatementCache

end SqlDdl
