import SqlDdl.Proofs.WellFormed

/-!
# The expressions of a statement

A statement holds expressions in five places: the default of a column, the indexed expressions of
a key, primary key or index, the number of partitions, and the parts of the query after `AS`.
`Statement.exprs` lists them all. The parser reads each of them with the expression rule and
stores it as read, so whatever the expression rule guarantees of what it gives holds of every
expression of every statement parsed (`forall_mem_exprs_of_parse`).

The walk follows the grammar rule by rule, as the walk for well-formedness does, with the
property of expressions left open.
-/

namespace SqlDdl

/-- The expressions a constraint is over. -/
def ConstraintKind.exprs : ConstraintKind → List Expr
  | .key idx => idx.columns
  | .primaryKey _ cols => cols

/-- The expressions of a table element: a column's default, or what a constraint or an index is
over. -/
def Element.exprs : Element → List Expr
  | .column c => c.defaultValue.toList
  | .constraint c => c.kind.exprs
  | .index idx => idx.columns

/-- Every expression of a statement: those of its elements, the number of partitions, and those
of its query. -/
def Statement.exprs (st : Statement) : List Expr :=
  st.elements.flatMap Element.exprs ++ st.partitioning.toList.flatMap (·.partitions.toList) ++
    st.query.toList.flatMap Select.exprs

section Exprs

variable {P : Expr → Prop}

theorem Select.forall_mem_exprs {q : Select} :
    (∀ e ∈ q.exprs, P e) ↔ (∀ i ∈ q.items, P i.expr) ∧ (∀ e ∈ q.filter, P e) ∧
      (∀ e ∈ q.groupBy, P e) ∧ (∀ e ∈ q.having, P e) ∧ (∀ o ∈ q.orderBy, P o.expr) ∧
      (∀ e ∈ q.offset, P e) ∧ ∀ e ∈ q.limit, P e := by
  simp only [Select.exprs, List.mem_append, List.mem_map, Option.mem_toList, or_imp, forall_and,
    forall_exists_index, and_imp, forall_apply_eq_imp_iff₂, and_assoc]
  rfl

theorem Statement.forall_mem_exprs {st : Statement} :
    (∀ e ∈ st.exprs, P e) ↔ (∀ el ∈ st.elements, ∀ e ∈ el.exprs, P e) ∧
      (∀ p ∈ st.partitioning, ∀ e ∈ p.partitions, P e) ∧ ∀ q ∈ st.query, ∀ e ∈ q.exprs, P e := by
  simp only [Statement.exprs, List.mem_append, List.mem_flatMap, Option.mem_toList, or_imp,
    forall_and, forall_exists_index, and_imp]
  exact ⟨fun h => ⟨fun el hel e he => h.1.1 e el hel he, fun p hp e he => h.1.2 e p hp he,
      fun q hq e he => h.2 e q hq he⟩,
    fun h => ⟨⟨fun e el hel he => h.1 el hel e he, fun e p hp he => h.2.1 p hp e he⟩,
      fun e q hq he => h.2.2 q hq e he⟩⟩

end Exprs

namespace Grammar

section Walk

variable {P : Expr → Prop} (hP : Gives P expression)
include hP

theorem gives_otherOption_exprs {col : Column} (hcol : ∀ e ∈ col.defaultValue, P e) :
    Gives (Sum.elim (fun col => ∀ e ∈ col.defaultValue, P e)
      (fun col => ∀ e ∈ col.defaultValue, P e)) (otherOption col) := by
  unfold otherOption
  refine gives_bind fun b => ?_
  split
  · exact hP.bind fun e he => gives_pure (by simpa using he)
  refine gives_bind fun b => ?_
  split
  · exact gives_bind fun _ => gives_pure hcol
  refine gives_bind fun b => ?_
  split
  · exact gives_bind fun _ => gives_pure hcol
  refine gives_bind fun b => ?_
  split
  · exact gives_pure hcol
  refine gives_bind fun b => ?_
  split
  · exact gives_bind fun _ => gives_pure hcol
  · exact gives_pure hcol

theorem gives_columnDef_exprs : Gives (fun col => ∀ e ∈ col.defaultValue, P e) columnDef := by
  refine gives_bind fun _ => gives_dataType.bind fun _ _ =>
    gives_loop (I := fun col => ∀ e ∈ col.defaultValue, P e) (fun col hcol => ?_) (fun _ h => h)
      (by simp)
  refine gives_bind fun _ => gives_bind fun r => ?_
  split
  · split
    · exact gives_fail _
    · exact gives_pure hcol
  · exact gives_otherOption_exprs hP hcol

theorem gives_indexColumns_exprs : Gives (fun cols => ∀ e ∈ cols, P e) indexColumns := by
  unfold indexColumns
  refine gives_bind fun _ => gives_bind fun _ => ?_
  extract_lets columns
  have hcolumns : ∀ u, Gives (fun cols => ∀ e ∈ cols, P e) (columns u) := fun _ =>
    (gives_sepBy1 (hP.bind fun e he => gives_bind fun _ => gives_pure he) _).bind
      fun _ hcols => gives_bind fun _ => gives_pure hcols.2
  split
  · exact gives_bind hcolumns
  · exact hcolumns ()

theorem gives_primaryKeyConstraint_exprs (name : Option String) :
    Gives (fun c => ∀ e ∈ c.kind.exprs, P e) (primaryKeyConstraint name) := by
  unfold primaryKeyConstraint
  refine gives_bind fun _ => gives_bind fun _ => gives_bind fun _ =>
    (gives_indexColumns_exprs hP).bind fun cols hcols => ?_
  extract_lets finish
  have hfinish : ∀ indexType, Gives (fun c => ∀ e ∈ c.kind.exprs, P e) (finish indexType) :=
    fun _ => gives_pure hcols
  split
  · exact gives_bind hfinish
  · exact gives_bind hfinish

theorem gives_indexDef_exprs : Gives (fun idx => ∀ e ∈ idx.columns, P e) indexDef := by
  unfold indexDef
  refine gives_bind fun _ => gives_bind fun _ => ?_
  extract_lets named afterName
  have hafterName : ∀ name, Gives (fun idx => ∀ e ∈ idx.columns, P e) (afterName name) := by
    intro name
    refine gives_bind fun _ => (gives_indexColumns_exprs hP).bind fun cols hcols => ?_
    extract_lets finish
    have hfinish : ∀ indexType, Gives (fun idx => ∀ e ∈ idx.columns, P e) (finish indexType) :=
      fun _ => gives_pure hcols
    split
    · exact gives_bind hfinish
    · exact gives_bind hfinish
  split
  · exact gives_bind hafterName
  · exact gives_bind hafterName

theorem gives_tableConstraint_exprs (d : Dialect) :
    Gives (fun c => ∀ e ∈ c.kind.exprs, P e) (tableConstraint d) := by
  cases d with
  | generic =>
      refine gives_bind fun name => gives_bind fun _ => ?_
      split
      · exact gives_primaryKeyConstraint_exprs hP name
      · exact gives_unsupported _
  | mysql =>
      refine gives_bind fun name => gives_bind fun b => ?_
      split
      · exact (gives_indexDef_exprs hP).bind fun _ hidx => gives_pure hidx
      refine gives_bind fun _ => ?_
      split
      · exact gives_primaryKeyConstraint_exprs hP name
      · exact gives_unsupported _

theorem gives_tableElement_exprs (d : Dialect) :
    Gives (fun el => ∀ e ∈ el.exprs, P e) (tableElement d) := by
  cases d with
  | generic =>
      refine gives_bind fun b => ?_
      split
      · exact (gives_columnDef_exprs hP).bind fun _ hcol =>
          gives_pure (by simpa [Element.exprs] using hcol)
      refine gives_bind fun t => ?_
      split
      iterate 2 exact (gives_tableConstraint_exprs hP _).bind fun _ hc => gives_pure hc
      · exact gives_expected _
  | mysql =>
      refine gives_bind fun b => ?_
      split
      · exact (gives_columnDef_exprs hP).bind fun _ hcol =>
          gives_pure (by simpa [Element.exprs] using hcol)
      refine gives_bind fun t => ?_
      split
      iterate 3 exact (gives_tableConstraint_exprs hP _).bind fun _ hc => gives_pure hc
      · exact gives_bind fun _ => (gives_indexDef_exprs hP).bind fun _ hidx => gives_pure hidx
      · exact gives_expected _

theorem gives_tableElements_exprs (d : Dialect) :
    Gives (fun els => ∀ el ∈ els, ∀ e ∈ el.exprs, P e) (tableElements d) :=
  gives_bind fun _ => (gives_sepBy1 (gives_tableElement_exprs hP d) _).bind fun _ hes =>
    gives_bind fun _ => gives_pure hes.2

theorem gives_limitClause_exprs :
    Gives (fun r => (∀ e ∈ r.1, P e) ∧ ∀ e ∈ r.2, P e) limitClause := by
  refine gives_bind fun b => ?_
  split
  · exact gives_pure ⟨by simp, by simp⟩
  refine hP.bind fun first hfirst => gives_bind fun b => ?_
  split
  · exact hP.bind fun e he => gives_pure ⟨by simpa, by simpa⟩
  refine gives_bind fun b => ?_
  split
  · exact hP.bind fun e he => gives_pure ⟨by simpa, by simpa⟩
  · exact gives_pure ⟨by simp, by simpa⟩

/-- The clauses of a query, each proved from the last back as for well-formedness. -/
theorem gives_select_exprs : Gives (fun q => ∀ e ∈ q.exprs, P e) select := by
  have hitem : Gives (fun i => P i.expr) selectItem := by
    refine hP.bind fun e he => gives_bind fun _ => gives_bind fun _ => ?_
    split
    · split
      · exact gives_expected _
      · exact gives_bind fun _ => gives_pure he
    · exact gives_pure he
  have horder : Gives (fun o : OrderItem => P o.expr) orderItem :=
    hP.bind fun _ he => gives_bind fun _ => gives_pure he
  have hoption : Gives (fun r : Option Expr => ∀ e ∈ r, P e) (some <$> expression) :=
    gives_map (hP.mono fun e he => by simpa)
  unfold select
  refine gives_bind fun _ => gives_bind fun _ =>
    (gives_sepBy1 hitem _).bind fun items hitems => gives_bind fun _ => ?_
  extract_lets afterFrom
  have hFrom : ∀ tables : List TableRef, Gives (fun q => ∀ e ∈ q.exprs, P e) (afterFrom tables) := by
    intro tables
    refine gives_bind fun _ => ?_
    extract_lets afterWhere
    have hWhere : ∀ filter : Option Expr, (∀ e ∈ filter, P e) →
        Gives (fun q => ∀ e ∈ q.exprs, P e) (afterWhere filter) := by
      intro filter hfilter
      refine gives_bind fun _ => ?_
      extract_lets afterGroup
      have hGroup : ∀ groupBy : List Expr, (∀ e ∈ groupBy, P e) →
          Gives (fun q => ∀ e ∈ q.exprs, P e) (afterGroup groupBy) := by
        intro groupBy hgroupBy
        refine gives_bind fun _ => ?_
        extract_lets afterHaving
        have hHaving : ∀ having : Option Expr, (∀ e ∈ having, P e) →
            Gives (fun q => ∀ e ∈ q.exprs, P e) (afterHaving having) := by
          intro having hhaving
          refine gives_bind fun _ => ?_
          extract_lets afterOrder
          have hOrder : ∀ orderBy : List OrderItem, (∀ o ∈ orderBy, P o.expr) →
              Gives (fun q => ∀ e ∈ q.exprs, P e) (afterOrder orderBy) := by
            intro orderBy horderBy
            refine (gives_limitClause_exprs hP).bind fun r hr => ?_
            obtain ⟨offset, limit⟩ := r
            exact gives_pure (Select.forall_mem_exprs.2
              ⟨hitems.2, hfilter, hgroupBy, hhaving, horderBy, hr.1, hr.2⟩)
          split
          · exact gives_bind fun _ =>
              (gives_sepBy1 horder _).bind fun orderBy h => hOrder orderBy h.2
          · exact (gives_pure (by simp)).bind hOrder
        split
        · exact hoption.bind hHaving
        · exact (gives_pure (by simp)).bind hHaving
      split
      · exact gives_bind fun _ => (gives_sepBy1 hP _).bind fun groupBy h => hGroup groupBy h.2
      · exact (gives_pure (by simp)).bind hGroup
    split
    · exact hoption.bind hWhere
    · exact (gives_pure (by simp)).bind hWhere
  split
  · exact (gives_sepBy1 gives_tableRef _).bind fun tables _ => hFrom tables
  · exact gives_bind hFrom

theorem gives_keyPartitioning_exprs :
    Gives (fun p => ∀ e ∈ p.partitions, P e) keyPartitioning := by
  unfold keyPartitioning
  refine gives_bind fun _ => gives_bind fun _ => ?_
  extract_lets columns afterKey
  have hcolumns : ∀ u, Gives (fun p => ∀ e ∈ p.partitions, P e) (columns u) := by
    intro u
    refine (gives_sepBy1 gives_qualifiedName _).bind fun cols _ =>
      gives_bind fun _ => gives_bind fun _ => ?_
    extract_lets finish
    have hfinish : ∀ partitions : Option Expr, (∀ e ∈ partitions, P e) →
        Gives (fun p => ∀ e ∈ p.partitions, P e) (finish partitions) :=
      fun _ hp => gives_pure hp
    split
    · exact (gives_map (hP.mono fun e he => by simpa)).bind hfinish
    · exact (gives_pure (by simp)).bind hfinish
  have hafterKey : ∀ u, Gives (fun p => ∀ e ∈ p.partitions, P e) (afterKey u) := by
    intro u
    refine gives_bind fun _ => gives_bind fun _ => ?_
    split
    · exact gives_bind hcolumns
    · exact hcolumns ()
  split
  · exact gives_bind hafterKey
  · exact hafterKey ()

/-- An option leaves the expressions of the statement as they were; the partitioning brings its
number of partitions. -/
theorem gives_tailClause_exprs {stmt : Statement} (hstmt : ∀ e ∈ stmt.exprs, P e) :
    Gives (Sum.elim (fun st => ∀ e ∈ st.exprs, P e) (fun st => ∀ e ∈ st.exprs, P e))
      (tailClause stmt) := by
  refine gives_optionName.bind fun r _ => ?_
  split
  · exact gives_bind fun _ => gives_bind fun _ => gives_pure hstmt
  refine gives_bind fun b => ?_
  split
  · split
    · exact gives_expected _
    · refine gives_bind fun _ => (gives_keyPartitioning_exprs hP).bind fun p hp => gives_pure ?_
      obtain ⟨hels, -, hquery⟩ := Statement.forall_mem_exprs.1 hstmt
      exact Statement.forall_mem_exprs.2 ⟨hels, by simpa using hp, hquery⟩
  · exact gives_pure hstmt

theorem gives_trailingQuery_exprs :
    Gives (fun q => ∀ x ∈ q, ∀ e ∈ x.exprs, P e) trailingQuery := by
  refine gives_bind fun _ => gives_bind fun _ => ?_
  split
  · exact (gives_select_exprs hP).bind fun q hq => gives_pure (by simpa)
  · exact gives_pure (by simp)

theorem gives_tableTail_exprs (d : Dialect) {stmt : Statement} (hstmt : ∀ e ∈ stmt.exprs, P e) :
    Gives (fun st => ∀ e ∈ st.exprs, P e) (tableTail d stmt) := by
  unfold tableTail
  extract_lets rest
  have hrest : ∀ stmt : Statement, (∀ e ∈ stmt.exprs, P e) →
      Gives (fun st => ∀ e ∈ st.exprs, P e) (rest stmt) := by
    intro stmt hstmt
    obtain ⟨hels, hpart, -⟩ := Statement.forall_mem_exprs.1 hstmt
    exact gives_bind fun _ => (gives_trailingQuery_exprs hP).bind fun _ hq =>
      gives_pure (Statement.forall_mem_exprs.2 ⟨hels, hpart, hq⟩)
  cases d with
  | generic => exact (gives_pure hstmt).bind hrest
  | mysql =>
      exact (gives_loop (I := fun st => ∀ e ∈ st.exprs, P e) (fun _ => gives_tailClause_exprs hP)
        (fun _ h => h) hstmt).bind hrest

theorem gives_statement_exprs (d : Dialect) :
    Gives (fun st => ∀ e ∈ st.exprs, P e) (statement d) := by
  have hcreate : Gives (fun st => ∀ e ∈ st.exprs, P e) (createTable d true) := by
    unfold createTable
    extract_lets tail afterCreate
    have hafterCreate : ∀ u, Gives (fun st => ∀ e ∈ st.exprs, P e) (afterCreate u) := by
      intro u
      refine gives_bind fun _ => gives_bind fun _ => gives_bind fun _ => ?_
      extract_lets afterIf
      have hafterIf : ∀ b, Gives (fun st => ∀ e ∈ st.exprs, P e) (afterIf b) := by
        intro b
        refine gives_bind fun name => ?_
        extract_lets stmt
        have hstmt : ∀ e ∈ stmt.exprs, P e := by simp [stmt, Statement.exprs]
        refine gives_bind fun _ => ?_
        split
        · refine (gives_tableElements_exprs hP d).bind fun els hels => ?_
          refine (gives_pure (P := fun st => ∀ e ∈ st.exprs, P e) ?_).bind
            fun _ h => gives_tableTail_exprs hP d h
          exact Statement.forall_mem_exprs.2 ⟨hels, by simp [stmt], by simp [stmt]⟩
        · exact (gives_pure hstmt).bind fun _ h => gives_tableTail_exprs hP d h
      split
      · exact gives_bind fun _ => gives_bind fun _ => gives_bind hafterIf
      · exact gives_bind hafterIf
    split
    · exact gives_bind hafterCreate
    · exact hafterCreate ()
  refine hcreate.bind fun _ hst => gives_bind fun _ => gives_bind fun _ => ?_
  split
  · exact gives_expected _
  · exact gives_pure hst

end Walk

end Grammar

/-- What the expression rule guarantees of every expression it gives holds of every expression
of every statement parsed. -/
theorem forall_mem_exprs_of_parse {P : Expr → Prop} (hP : Grammar.Gives P Grammar.expression)
    {d : Dialect} {sql : String} {st : Statement} (h : parse d sql = .ok st) :
    ∀ e ∈ st.exprs, P e := by
  unfold parse at h
  cases hr : (Grammar.statement d).run (Cursor.ofString sql) with
  | error e =>
      rw [hr] at h
      cases h
  | ok r =>
      rw [hr] at h
      cases h
      exact Grammar.gives_statement_exprs hP d _ _ _ hr

end SqlDdl
