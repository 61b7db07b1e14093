import SqlDdl.Proofs.ExprSteps

/-!
# Columns, tables and statements stay in the stream

The rules for columns, constraints, indexes, table options and whole statements are sound, with
one admission. A column definition that gives its nullability twice is refused with an error
built by hand: it names the keyword `NULL`, at the offset taken before the second clause was
read. When that clause is `NOT NULL` the token at that offset is `NOT`, so the error names a
token that does not stand where it says (`ParseError.SecondNullability`). This is the one error
of the grammar whose token and offset do not belong together; every rule that reads a column
definition admits it, and no other.

The rules other than `columnOption` are sound as the walk of `Invariant` goes (`soundness`);
`columnOption` is proved by hand, and the rules that read a column definition take it.
-/

namespace SqlDdl

/-- The error for a column's second nullability clause, when that clause is `NOT NULL`: it names
the keyword `NULL`, at the offset where the keyword `NOT` stands. -/
def ParseError.SecondNullability (s : TokenStream) (e : ParseError) : Prop :=
  ∃ n, e = .expected "a single NULL or NOT NULL per column" (some (.keyword .null)) n ∧
    ⟨.keyword .not, n⟩ ∈ s.tokens

namespace Grammar

variable {s : TokenStream} {X : ParseError → Prop}

/-! ## Columns -/

theorem sound_nullability : Sound s X nullability := (soundness s X).holds_nullability

/-- A nullability clause starts with `NOT` or with `NULL`. -/
theorem nullability_first {c c' : Cursor} {n : Bool} (h : nullability.run c = .ok (some n, c')) :
    c.next? = some (.keyword .not) ∨ c.next? = some (.keyword .null) := by
  unfold nullability at h
  rw [run_bind, run_takeIf] at h
  by_cases hnot : c.next? = some (.keyword .not)
  · exact .inl hnot
  rw [if_neg hnot] at h
  simp only [Bool.false_eq_true, ↓reduceIte] at h
  rw [run_bind, run_takeIf] at h
  by_cases hnull : c.next? = some (.keyword .null)
  · exact .inr hnull
  rw [if_neg hnull] at h
  simp at h

/-- A column option is sound up to the one admitted error: the error for a second nullability
clause names `NULL` at the clause's first token, which is `NOT` or `NULL`. -/
theorem sound_columnOption (col : Column) :
    Sound s (ParseError.SecondNullability s) (columnOption col) := by
  intro c hc
  unfold columnOption
  simp only [liftM_self]
  rw [run_bind, run_offset]
  dsimp only
  rw [run_bind]
  have hnull : Safe s (ParseError.SecondNullability s) (nullability.run c) :=
    sound_nullability c hc
  rcases hr : nullability.run c with e | ⟨_ | n, c'⟩ <;> rw [hr] at hnull
  · exact hnull
  · exact Walk.holds_otherOption (I := (soundness s _).toWalk) (fun _ => sound_atom) col c' hnull
  · dsimp only
    split
    · -- the error is built from the offset taken before the clause was read
      rcases nullability_first hr with h | h
      · exact .inr ⟨_, rfl, hc.next?_mem h⟩
      · exact .inl (hc.next?_mem h)
    · exact hnull

theorem sound_columnDef : Sound s (ParseError.SecondNullability s) columnDef :=
  Walk.holds_columnDef (I := (soundness s _).toWalk) sound_columnOption

/-! ## Indexes, constraints and tables -/

theorem sound_indexType : Sound s X indexType := (soundness s X).holds_indexType

theorem sound_indexColumns : Sound s X indexColumns :=
  Walk.holds_indexColumns (I := (soundness s X).toWalk) fun _ => sound_atom

theorem sound_primaryKeyConstraint (name : Option String) :
    Sound s X (primaryKeyConstraint name) :=
  Walk.holds_primaryKeyConstraint (I := (soundness s X).toWalk) (fun _ => sound_atom) name

theorem sound_constraintName : Sound s X constraintName := (soundness s X).holds_constraintName

theorem sound_tableConstraint (d : Dialect) : Sound s X (tableConstraint d) :=
  Invariant.holds_tableConstraint (I := soundness s X) (fun _ => sound_atom) d

theorem sound_tableElement (d : Dialect) :
    Sound s (ParseError.SecondNullability s) (tableElement d) :=
  Walk.holds_tableElement (I := (soundness s _).toWalk) (fun _ => sound_atom) sound_columnOption
    (sound_tableConstraint d)

theorem sound_tableElements (d : Dialect) :
    Sound s (ParseError.SecondNullability s) (tableElements d) :=
  Walk.holds_tableElements (I := (soundness s _).toWalk) (sound_tableElement d)

theorem sound_trailingQuery : Sound s X trailingQuery :=
  Walk.holds_trailingQuery (I := (soundness s X).toWalk) fun _ => sound_atom

theorem sound_tableTail (d : Dialect) (stmt : Statement) : Sound s X (tableTail d stmt) :=
  Walk.holds_tableTail (I := (soundness s X).toWalk) (fun _ => sound_atom)
    (Invariant.holds_keyPartitioning (I := soundness s X) fun _ => sound_atom)
    Invariant.holds_rejectOnClause d stmt

/-! ## Statements -/

theorem sound_createTable (d : Dialect) (acceptCreate : Bool) :
    Sound s (ParseError.SecondNullability s) (createTable d acceptCreate) :=
  Walk.holds_createTable (I := (soundness s _).toWalk) (fun _ => sound_atom) (sound_tableElement d)
    (Invariant.holds_keyPartitioning (I := soundness s _) fun _ => sound_atom)
    Invariant.holds_rejectOnClause acceptCreate

theorem sound_statement (d : Dialect) :
    Sound s (ParseError.SecondNullability s) (statement d) :=
  Invariant.holds_statement (I := soundness s _) (fun _ => sound_atom) sound_columnOption d

/-- A statement that is read whole ends where the stream ends without a lex error. -/
theorem statement_ends {d : Dialect} {c c' : Cursor} {stmt : Statement}
    (h : (statement d).run c = .ok (stmt, c')) : c'.rest = [] ∧ ∃ n, c'.stop = .finished n := by
  unfold statement at h
  simp only [liftM_self] at h
  obtain ⟨_, _, -, h⟩ := run_bind_eq_ok h
  obtain ⟨_, c₂, -, h⟩ := run_bind_eq_ok h
  obtain ⟨t, c₃, hp, h⟩ := run_bind_eq_ok h
  rw [run_peek] at hp
  rcases hpeek : c₂.peek with e | _ | t <;> rw [hpeek] at hp <;> cases hp
  · simp only [Option.isSome_none, Bool.false_eq_true, ↓reduceIte, run_pure, Except.ok.injEq,
      Prod.mk.injEq] at h
    obtain ⟨-, rfl⟩ := h
    exact Cursor.rest_of_peek_none hpeek
  · simp at h

end Grammar

end SqlDdl

