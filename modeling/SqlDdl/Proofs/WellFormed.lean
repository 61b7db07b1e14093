import SqlDdl.Proofs.Progress

/-!
# Parsed statements are well formed

The tree types admit more than the parser ever builds. A statement the parser gives has a name
with at least one part, indexes, primary keys and partitionings over at least one column, table
options under distinct names drawn from a fixed list, decimal types that give a scale only with a
precision, integer literals within the range of 64-bit signed integers, and no alias on a `*`
(`Statement.WellFormed`). A temporary table is always a global temporary one, and the test for
null carries no literal at all, since `Expr.isNull` is the only test.

Each fact comes from one place in the grammar: a list read by `sepBy1`, the option names the
tail reads, the numerals of `Literal.ofNumeral`, the check after a selected `*`. `Gives P g` says
that every value `g` gives satisfies `P`; it is carried through sequences and repetitions
(`Gives.bind`, `gives_loop`), and the rules are walked once, from expressions up to the statement
(`parse_wellFormed`).
-/

namespace SqlDdl

namespace Expr

mutual

/-- Whether every integer literal of the expression lies within the range of 64-bit signed
integers. -/
def integersFit : Expr → Bool
  | .all => true
  | .column _ _ => true
  | .literal .null => true
  | .literal (.boolean _) => true
  | .literal (.integer n) => decide (n < Nat.pow 2 63)
  | .literal (.float _) => true
  | .literal (.string _) => true
  | .function _ args => argsIntegersFit args
  | .unary _ e => integersFit e
  | .binary _ l r => integersFit l && integersFit r
  | .isNull e => integersFit e

/-- Whether every expression of a list passes `integersFit`. -/
def argsIntegersFit : List Expr → Bool
  | [] => true
  | e :: es => integersFit e && argsIntegersFit es

end

theorem argsIntegersFit_iff (es : List Expr) :
    argsIntegersFit es = true ↔ ∀ e ∈ es, e.integersFit = true := by
  induction es with
  | nil => simp [argsIntegersFit]
  | cons e es ih => simp [argsIntegersFit, ih]

end Expr

namespace DataType

/-- A decimal type gives its scale only with its precision. -/
def WellFormed (t : DataType) : Prop := ∀ p s, t = .decimal p (some s) → p.isSome

theorem wellFormed_of_ne_decimal {t : DataType} (h : ∀ p s, t ≠ .decimal p s) : t.WellFormed :=
  fun p s ht => absurd ht (h p (some s))

theorem wellFormed_decimal (args : List Nat) :
    (DataType.decimal args[0]? args[1]?).WellFormed := by
  intro p s h
  simp only [decimal.injEq] at h
  obtain ⟨rfl, hs⟩ := h
  have hlen : 1 < args.length := (List.getElem?_eq_some_iff.1 hs).1
  simp [List.getElem?_eq_getElem (Nat.lt_trans Nat.zero_lt_one hlen)]

end DataType

/-- A column's type is well formed and the integers of its default fit. -/
def Column.WellFormed (c : Column) : Prop :=
  c.dataType.WellFormed ∧ ∀ e ∈ c.defaultValue, e.integersFit = true

/-- Indexed expressions: at least one, and their integers fit. -/
def IndexColumns (cols : List Expr) : Prop := cols ≠ [] ∧ ∀ e ∈ cols, e.integersFit = true

/-- What a constraint requires holds over at least one expression. -/
def ConstraintKind.WellFormed : ConstraintKind → Prop
  | .key idx => IndexColumns idx.columns
  | .primaryKey _ cols => IndexColumns cols

/-- A table element as the parser builds it. -/
def Element.WellFormed : Element → Prop
  | .column c => c.WellFormed
  | .constraint c => c.kind.WellFormed
  | .index idx => IndexColumns idx.columns

/-- Partitioning over at least one column, each a name with at least one part. -/
def KeyPartitioning.WellFormed (p : KeyPartitioning) : Prop :=
  p.columns ≠ [] ∧ (∀ n ∈ p.columns, n.parts ≠ []) ∧ ∀ e ∈ p.partitions, e.integersFit = true

/-- The names under which table options are stored. `CHARACTER SET` is stored as `CHARSET`. -/
def TableOptions.keys : List String :=
  ["ENGINE", "TYPE", "AUTO_INCREMENT", "CHARSET", "COLLATE", "COMMENT", "ROW_FORMAT"]

/-- Table options under distinct names, each one of `TableOptions.keys`. -/
def TableOptions.WellFormed (o : TableOptions) : Prop :=
  o.names.Nodup ∧ ∀ n ∈ o.names, n ∈ TableOptions.keys

namespace TableOptions

theorem wellFormed_empty : ({} : TableOptions).WellFormed := by
  simp [WellFormed, names]

/-- The option names are stored as they are written in the list of keys. -/
theorem toUpperCase_of_mem_keys {name : String} (h : name ∈ keys) :
    Text.toUpperCase name = name := by
  simp only [keys, List.mem_cons, List.not_mem_nil, or_false] at h
  rcases h with rfl | rfl | rfl | rfl | rfl | rfl | rfl <;> decide

/-- Setting an option under one of the keys keeps the names distinct: a name already there keeps
its place. -/
theorem WellFormed.insert {o : TableOptions} (ho : o.WellFormed) {name : String}
    (hname : name ∈ keys) (value : String) : (o.insert name value).WellFormed := by
  unfold WellFormed
  rw [names_insert, toUpperCase_of_mem_keys hname]
  split
  · exact ho
  · next hnew =>
      refine ⟨List.nodup_append.2 ⟨ho.1, by simp, ?_⟩, ?_⟩
      · intro a ha b hb
        rw [List.mem_singleton.1 hb]
        exact fun h => hnew (h ▸ ha)
      · intro n hn
        rcases List.mem_append.1 hn with hn | hn
        · exact ho.2 n hn
        · rw [List.mem_singleton.1 hn]
          exact hname

end TableOptions

/-- Every expression of a query: the selected ones, the filter, the groups, the filter on groups,
the orderings, the offset and the limit. -/
def Select.exprs (q : Select) : List Expr :=
  q.items.map (·.expr) ++ q.filter.toList ++ q.groupBy ++ q.having.toList ++
    q.orderBy.map (·.expr) ++ q.offset.toList ++ q.limit.toList

/-- A query as the parser builds it. -/
structure Select.WellFormed (q : Select) : Prop where
  noAliasOnAll : ∀ i ∈ q.items, i.expr = .all → i.aliasName = none
  tables : ∀ t ∈ q.tables, t.name.parts ≠ []
  integersFit : ∀ e ∈ q.exprs, e.integersFit = true

theorem Select.wellFormed_of {q : Select}
    (items : ∀ i ∈ q.items, (i.expr = .all → i.aliasName = none) ∧ i.expr.integersFit = true)
    (tables : ∀ t ∈ q.tables, t.name.parts ≠ [])
    (filter : ∀ e ∈ q.filter, e.integersFit = true)
    (groupBy : ∀ e ∈ q.groupBy, e.integersFit = true)
    (having : ∀ e ∈ q.having, e.integersFit = true)
    (orderBy : ∀ o ∈ q.orderBy, o.expr.integersFit = true)
    (offset : ∀ e ∈ q.offset, e.integersFit = true)
    (limit : ∀ e ∈ q.limit, e.integersFit = true) :
    q.WellFormed where
  noAliasOnAll i hi := (items i hi).1
  tables := tables
  integersFit e he := by
    simp only [Select.exprs, List.mem_append, List.mem_map, Option.mem_toList] at he
    rcases he with (((((⟨i, hi, rfl⟩ | he) | he) | he) | ⟨o, ho, rfl⟩) | he) | he
    · exact (items i hi).2
    · exact filter e he
    · exact groupBy e he
    · exact having e he
    · exact orderBy o ho
    · exact offset e he
    · exact limit e he

/-- A statement as the parser builds it. -/
structure Statement.WellFormed (st : Statement) : Prop where
  kind_iff : st.kind = .globalTemporary ↔ st.temporary = true
  name : st.name.parts ≠ []
  elements : ∀ e ∈ st.elements, e.WellFormed
  options : st.options.WellFormed
  partitioning : ∀ p ∈ st.partitioning, p.WellFormed
  query : ∀ q ∈ st.query, q.WellFormed

/-- A temporary table is always a global temporary one. -/
theorem Statement.kind_eq_globalTemporary_iff (st : Statement) :
    st.kind = .globalTemporary ↔ st.temporary = true := by
  unfold Statement.kind
  cases st.temporary <;> simp

namespace Grammar

variable {α β σ : Type} {P Q : α → Prop} {g : Grammar α}

/-! ## Values given -/

/-- Every value `g` gives satisfies `P`. -/
def Gives (P : α → Prop) (g : Grammar α) : Prop :=
  ∀ c a c', g.run c = .ok (a, c') → P a

theorem Gives.mono (h : Gives P g) (hPQ : ∀ a, P a → Q a) : Gives Q g :=
  fun c a c' hrun => hPQ a (h c a c' hrun)

theorem gives_pure {a : α} (h : P a) : Gives P (pure a) := by
  intro c b c' hrun
  cases hrun
  exact h

theorem Gives.bind {P : β → Prop} {f : α → Grammar β} (hg : Gives Q g)
    (hf : ∀ a, Q a → Gives P (f a)) : Gives P (g >>= f) := by
  intro c b c' hrun
  obtain ⟨a, c₁, ha, hb⟩ := run_bind_eq_ok hrun
  exact hf a (hg c a c₁ ha) c₁ b c' hb

theorem gives_bind {P : β → Prop} {f : α → Grammar β} (hf : ∀ a, Gives P (f a)) :
    Gives P (g >>= f) :=
  Gives.bind (Q := fun _ => True) (fun _ _ _ _ => trivial) fun a _ => hf a

theorem gives_fail (e : ParseError) : Gives P (fail e) := by
  intro c a c' h
  cases h

theorem gives_takeMap (f : Token → Option β) :
    Gives (fun r => ∀ b ∈ r, ∃ t, f t = some b) (takeMap f) := by
  intro c r c' h b hb
  rw [run_takeMap] at h
  split at h
  · next b' hb' =>
      cases h
      cases hb
      obtain ⟨t, -, ht⟩ := Option.bind_eq_some_iff.1 hb'
      exact ⟨t, ht⟩
  · cases h
    cases hb

theorem gives_expected (what : String) : Gives P (expected what) := by
  intro c a c' h
  simp at h

theorem gives_unsupported (construct : String) : Gives P (unsupported construct) := by
  intro c a c' h
  simp at h

/-- A repetition keeps an invariant `I` of its state when every round does, and its answer
satisfies `P` when every way it can end does: a round that finishes, or the fallback. -/
theorem gives_loop {P : β → Prop} {I : σ → Prop} {round : σ → Grammar (β ⊕ σ)} {done : σ → β}
    (hround : ∀ s, I s → Gives (Sum.elim P I) (round s)) (hdone : ∀ s, I s → P (done s))
    {s : σ} (hs : I s) : Gives P (loop round done s) := by
  intro c b c' h
  refine loop_induction (P := fun s _ b _ => I s → P b) ?_ ?_ ?_ h hs
  · intro s c b c' hr hs
    exact hround s hs c _ c' hr
  · intro s c s' c' hr _ hs
    exact hdone s' (hround s hs c _ c' hr)
  · intro s c s' c₁ b c' hr _ ih hs
    exact ih (hround s hs c _ c₁ hr)

/-- A repetition whose rounds progress never ends by its fallback, so only its rounds matter. -/
theorem gives_loop_of_progresses {P : β → Prop} {I : σ → Prop} {round : σ → Grammar (β ⊕ σ)}
    (hp : Progresses round) (hround : ∀ s, I s → Gives (Sum.elim P I) (round s))
    (done : σ → β) {s : σ} (hs : I s) : Gives P (loop round done s) := by
  intro c b c' h
  refine loop_induction (P := fun s _ b _ => I s → P b) ?_ ?_ ?_ h hs
  · intro s c b c' hr hs
    exact hround s hs c _ c' hr
  · intro s c s' c' hr hstay _
    exact absurd (hp s c _ c' hr rfl) hstay
  · intro s c s' c₁ b c' hr _ ih hs
    exact ih (hround s hs c _ c₁ hr)

/-- A list with separators holds at least one item, each given by the item's step. -/
theorem gives_sepBy1 (h : Gives Q g) (sep : Token) :
    Gives (fun l => l ≠ [] ∧ ∀ x ∈ l, Q x) (sepBy1 g sep) := by
  rw [sepBy1_eq]
  refine gives_loop_of_progresses (I := fun acc => ∀ x ∈ acc, Q x) (progresses_sepRound g sep)
    (fun acc hacc => h.bind fun a ha => gives_bind fun b => ?_) _ (by simp)
  have hcons : ∀ x ∈ a :: acc, Q x := List.forall_mem_cons.2 ⟨ha, hacc⟩
  split
  · exact gives_pure hcons
  · exact gives_pure ⟨by simp, fun x hx => hcons x (List.mem_reverse.1 hx)⟩

/-! ## Expressions -/

/-- A numeral is an integer only within the range of 64-bit signed integers. -/
theorem integersFit_ofNumeral {n : String} {l : Literal} (h : Literal.ofNumeral n = .ok l) :
    (Expr.literal l).integersFit = true := by
  unfold Literal.ofNumeral at h
  split at h
  · dsimp only at h
    split at h
    · cases h
      simpa [Expr.integersFit]
    · cases h
  · split at h
    · cases h
      rfl
    · cases h

section Operands

variable {sub : Nat → Grammar Expr} (hsub : ∀ p, Gives (fun e => e.integersFit = true) (sub p))
include hsub

theorem gives_callArguments :
    Gives (fun args => ∀ e ∈ args, e.integersFit = true) (callArguments sub) := by
  rw [callArguments_eq]
  refine gives_loop (I := fun args => ∀ e ∈ args, e.integersFit = true) (fun args hargs => ?_)
    (fun args hargs e he => hargs e (List.mem_reverse.1 he)) (by simp)
  refine gives_bind fun b => ?_
  split
  · exact gives_pure fun e he => hargs e (List.mem_reverse.1 he)
  · dsimp only
    split
    · exact gives_bind fun _ => (hsub 0).bind fun _ harg =>
        gives_pure (List.forall_mem_cons.2 ⟨harg, hargs⟩)
    · exact (hsub 0).bind fun _ harg => gives_pure (List.forall_mem_cons.2 ⟨harg, hargs⟩)

theorem gives_atom : Gives (fun e => e.integersFit = true) (atom sub) := by
  unfold atom
  refine gives_bind fun t => ?_
  rcases t with _ | token
  · exact gives_expected _
  dsimp only
  refine gives_bind fun _ => gives_bind fun _ => ?_
  split
  case h_2 =>
    split
    · exact gives_pure (integersFit_ofNumeral ‹_›)
    · exact gives_fail _
  case h_7 | h_8 =>
    refine gives_bind fun b => ?_
    split
    · exact (gives_callArguments hsub).bind fun args hargs =>
        gives_pure ((Expr.argsIntegersFit_iff args).2 hargs)
    · exact gives_bind fun b => by
        split
        · exact gives_bind fun _ => gives_pure rfl
        · exact gives_pure rfl
  case h_9 => exact (hsub 0).bind fun e he => gives_bind fun _ => gives_pure he
  case h_10 => exact gives_fail _
  all_goals exact gives_pure rfl

theorem gives_infixes (p : Nat) {lhs : Expr} (hlhs : lhs.integersFit = true) :
    Gives (fun e => e.integersFit = true) (infixes sub p lhs) := by
  rw [infixes_eq]
  refine gives_loop (I := fun e => e.integersFit = true) (fun lhs hlhs => ?_) (fun _ h => h) hlhs
  refine gives_bind fun r => ?_
  split
  · exact (hsub _).bind fun rhs hrhs => gives_pure (by simp [Expr.integersFit, hlhs, hrhs])
  · exact gives_pure hlhs

end Operands

theorem gives_nullTests (p : Nat) {e : Expr} (he : e.integersFit = true) :
    Gives (fun e => e.integersFit = true) (nullTests p e) := by
  rw [nullTests_eq]
  refine gives_loop (I := fun e => e.integersFit = true) (fun e he => ?_) (fun _ h => h) he
  refine gives_bind fun r => ?_
  split
  · exact gives_pure (by unfold applyNullTest; split <;> simpa [Expr.integersFit])
  · exact gives_pure he

theorem gives_operators {sub : Nat → Grammar Expr}
    (hsub : ∀ p, Gives (fun e => e.integersFit = true) (sub p)) (p : Nat) :
    Gives (fun e => e.integersFit = true) (operators sub p) := by
  have htail : ∀ first : Expr, first.integersFit = true →
      Gives (fun e => e.integersFit = true) (levelTail sub p first) :=
    fun first hfirst => (gives_nullTests p hfirst).bind fun lhs hlhs =>
      (gives_infixes hsub p hlhs).bind fun lhs hlhs => gives_nullTests p hlhs
  rw [operators_eq]
  refine gives_bind fun r => ?_
  split
  · exact (hsub _).bind fun x hx =>
      (gives_pure (P := fun e => e.integersFit = true) (by simpa [Expr.integersFit])).bind htail
  · exact (gives_atom hsub).bind htail

theorem gives_expressionAt (depth p : Nat) :
    Gives (fun e => e.integersFit = true) (expressionAt depth p) := by
  fun_induction expressionAt depth p with
  | case1 => exact gives_expected _
  | case2 depth p _ ih => exact gives_operators ih p

/-! ## Types and columns -/

theorem gives_map {f : α → β} {P : β → Prop} (h : Gives (fun a => P (f a)) g) :
    Gives P (f <$> g) :=
  h.bind fun _ ha => gives_pure ha

theorem gives_integerType (size : IntegerSize) : Gives DataType.WellFormed (integerType size) :=
  gives_bind fun _ => gives_bind fun _ => gives_bind fun _ =>
    gives_pure (DataType.wellFormed_of_ne_decimal (by simp))

/-- A decimal type takes its precision and scale from one list of arguments; no other type has
a scale. -/
theorem gives_dataType : Gives DataType.WellFormed dataType := by
  refine gives_bind fun name => ?_
  generalize Text.toUpperCase name = upper
  split
  iterate 6 exact gives_integerType _
  iterate 3 exact gives_bind fun args => gives_pure (DataType.wellFormed_decimal args)
  iterate 2 exact gives_bind fun _ => gives_pure (DataType.wellFormed_of_ne_decimal (by simp))
  · exact gives_bind fun _ => gives_bind fun _ =>
      gives_pure (DataType.wellFormed_of_ne_decimal (by simp))
  iterate 2 exact gives_pure (DataType.wellFormed_of_ne_decimal (by simp))
  iterate 2 exact gives_bind fun _ => gives_pure (DataType.wellFormed_of_ne_decimal (by simp))
  · exact gives_bind fun _ => gives_bind fun _ => gives_bind fun _ =>
      gives_pure (DataType.wellFormed_of_ne_decimal (by simp))
  iterate 8 exact gives_bind fun _ => gives_pure (DataType.wellFormed_of_ne_decimal (by simp))
  · exact gives_pure (DataType.wellFormed_of_ne_decimal (by simp))
  iterate 3 exact gives_bind fun _ => gives_pure (DataType.wellFormed_of_ne_decimal (by simp))
  · exact gives_bind fun _ => gives_pure (DataType.wellFormed_of_ne_decimal (by simp))

theorem gives_expression : Gives (fun e => e.integersFit = true) expression :=
  gives_expressionAt 0 0

/-- An option other than nullability sets the default only to an expression read. -/
theorem gives_otherOption {col : Column} (hcol : col.WellFormed) :
    Gives (Sum.elim Column.WellFormed Column.WellFormed) (otherOption col) := by
  unfold otherOption
  refine gives_bind fun b => ?_
  split
  · exact gives_expression.bind fun e he => gives_pure ⟨hcol.1, by simpa using he⟩
  refine gives_bind fun b => ?_
  split
  · exact gives_bind fun _ => gives_pure hcol
  refine gives_bind fun b => ?_
  split
  · exact gives_bind fun _ => gives_pure hcol
  refine gives_bind fun b => ?_
  split
  · exact gives_pure hcol
  refine gives_bind fun b => ?_
  split
  · exact gives_bind fun _ => gives_pure hcol
  · exact gives_pure hcol

theorem gives_columnOption {col : Column} (hcol : col.WellFormed) :
    Gives (Sum.elim Column.WellFormed Column.WellFormed) (columnOption col) := by
  refine gives_bind fun _ => gives_bind fun r => ?_
  split
  · split
    · exact gives_fail _
    · exact gives_pure hcol
  · exact gives_otherOption hcol

/-- A column's type is one `dataType` gives, and its options keep the column well formed. -/
theorem gives_columnDef : Gives Column.WellFormed columnDef :=
  gives_bind fun _ => gives_dataType.bind fun _ ht =>
    gives_loop (I := Column.WellFormed) (fun _ => gives_columnOption) (fun _ h => h) ⟨ht, by simp⟩

/-! ## Indexes and table elements -/

theorem gives_indexColumns : Gives IndexColumns indexColumns := by
  unfold indexColumns
  refine gives_bind fun _ => gives_bind fun _ => ?_
  extract_lets columns
  have hcolumns : ∀ u, Gives IndexColumns (columns u) := fun _ =>
    (gives_sepBy1 (gives_expression.bind fun e he => gives_bind fun _ => gives_pure he) _).bind
      fun _ hcols => gives_bind fun _ => gives_pure hcols
  split
  · exact gives_bind hcolumns
  · exact hcolumns ()

theorem gives_primaryKeyConstraint (name : Option String) :
    Gives (fun c => c.kind.WellFormed) (primaryKeyConstraint name) := by
  unfold primaryKeyConstraint
  refine gives_bind fun _ => gives_bind fun _ => gives_bind fun _ =>
    gives_indexColumns.bind fun cols hcols => ?_
  extract_lets finish
  have hfinish : ∀ indexType, Gives (fun c => c.kind.WellFormed) (finish indexType) :=
    fun _ => gives_pure hcols
  split
  · exact gives_bind hfinish
  · exact gives_bind hfinish

theorem gives_indexDef : Gives (fun idx => IndexColumns idx.columns) indexDef := by
  unfold indexDef
  refine gives_bind fun _ => gives_bind fun _ => ?_
  extract_lets named afterName
  have hafterName : ∀ name, Gives (fun idx => IndexColumns idx.columns) (afterName name) := by
    intro name
    refine gives_bind fun _ => gives_indexColumns.bind fun cols hcols => ?_
    extract_lets finish
    have hfinish : ∀ indexType, Gives (fun idx => IndexColumns idx.columns) (finish indexType) :=
      fun _ => gives_pure hcols
    split
    · exact gives_bind hfinish
    · exact gives_bind hfinish
  split
  · exact gives_bind hafterName
  · exact gives_bind hafterName

theorem gives_tableConstraint (d : Dialect) :
    Gives (fun c => c.kind.WellFormed) (tableConstraint d) := by
  cases d with
  | generic =>
      refine gives_bind fun name => gives_bind fun _ => ?_
      split
      · exact gives_primaryKeyConstraint name
      · exact gives_unsupported _
  | mysql =>
      refine gives_bind fun name => gives_bind fun b => ?_
      split
      · exact gives_indexDef.bind fun _ hidx => gives_pure hidx
      refine gives_bind fun _ => ?_
      split
      · exact gives_primaryKeyConstraint name
      · exact gives_unsupported _

theorem gives_tableElement (d : Dialect) : Gives Element.WellFormed (tableElement d) := by
  cases d with
  | generic =>
      refine gives_bind fun b => ?_
      split
      · exact gives_columnDef.bind fun _ hcol => gives_pure hcol
      refine gives_bind fun t => ?_
      split
      iterate 2 exact (gives_tableConstraint _).bind fun _ hc => gives_pure hc
      · exact gives_expected _
  | mysql =>
      refine gives_bind fun b => ?_
      split
      · exact gives_columnDef.bind fun _ hcol => gives_pure hcol
      refine gives_bind fun t => ?_
      split
      iterate 3 exact (gives_tableConstraint _).bind fun _ hc => gives_pure hc
      · exact gives_bind fun _ => gives_indexDef.bind fun _ hidx => gives_pure hidx
      · exact gives_expected _

theorem gives_tableElements (d : Dialect) :
    Gives (fun es => ∀ e ∈ es, e.WellFormed) (tableElements d) :=
  gives_bind fun _ => (gives_sepBy1 (gives_tableElement d) _).bind fun _ hes =>
    gives_bind fun _ => gives_pure hes.2

/-! ## Queries -/

theorem gives_qualifiedName : Gives (fun n : ObjectName => n.parts ≠ []) qualifiedName :=
  (gives_sepBy1 (Q := fun _ => True) (fun _ _ _ _ => trivial) _).bind fun _ h => gives_pure h.1

/-- An alias is refused after a selected `*`. -/
theorem gives_selectItem :
    Gives (fun i => (i.expr = .all → i.aliasName = none) ∧ i.expr.integersFit = true)
      selectItem := by
  refine gives_expression.bind fun e he => gives_bind fun _ => gives_bind fun _ => ?_
  split
  · split
    · exact gives_expected _
    · next hall => exact gives_bind fun _ => gives_pure ⟨fun h => absurd h hall, he⟩
  · exact gives_pure ⟨fun _ => rfl, he⟩

theorem gives_tableRef : Gives (fun t : TableRef => t.name.parts ≠ []) tableRef :=
  gives_qualifiedName.bind fun _ hn => gives_bind fun _ => gives_pure hn

theorem gives_orderItem : Gives (fun o : OrderItem => o.expr.integersFit = true) orderItem :=
  gives_expression.bind fun _ he => gives_bind fun _ => gives_pure he

theorem gives_limitClause :
    Gives (fun r => (∀ e ∈ r.1, e.integersFit = true) ∧ ∀ e ∈ r.2, e.integersFit = true)
      limitClause := by
  refine gives_bind fun b => ?_
  split
  · exact gives_pure ⟨by simp, by simp⟩
  refine gives_expression.bind fun first hfirst => gives_bind fun b => ?_
  split
  · exact gives_expression.bind fun e he => gives_pure ⟨by simpa, by simpa⟩
  refine gives_bind fun b => ?_
  split
  · exact gives_expression.bind fun e he => gives_pure ⟨by simpa, by simpa⟩
  · exact gives_pure ⟨by simp, by simpa⟩

/-- Each clause of a query gives its part, and the query is built from the parts; the rest of
the query after each optional clause is proved first, from the last clause back. -/
theorem gives_select : Gives Select.WellFormed select := by
  unfold select
  refine gives_bind fun _ => gives_bind fun _ =>
    (gives_sepBy1 gives_selectItem _).bind fun items hitems => gives_bind fun _ => ?_
  extract_lets afterFrom
  have hFrom : ∀ tables : List TableRef, (∀ t ∈ tables, t.name.parts ≠ []) →
      Gives Select.WellFormed (afterFrom tables) := by
    intro tables htables
    refine gives_bind fun _ => ?_
    extract_lets afterWhere
    have hWhere : ∀ filter : Option Expr, (∀ e ∈ filter, e.integersFit = true) →
        Gives Select.WellFormed (afterWhere filter) := by
      intro filter hfilter
      refine gives_bind fun _ => ?_
      extract_lets afterGroup
      have hGroup : ∀ groupBy : List Expr, (∀ e ∈ groupBy, e.integersFit = true) →
          Gives Select.WellFormed (afterGroup groupBy) := by
        intro groupBy hgroupBy
        refine gives_bind fun _ => ?_
        extract_lets afterHaving
        have hHaving : ∀ having : Option Expr, (∀ e ∈ having, e.integersFit = true) →
            Gives Select.WellFormed (afterHaving having) := by
          intro having hhaving
          refine gives_bind fun _ => ?_
          extract_lets afterOrder
          have hOrder : ∀ orderBy : List OrderItem, (∀ o ∈ orderBy, o.expr.integersFit = true) →
              Gives Select.WellFormed (afterOrder orderBy) := by
            intro orderBy horderBy
            refine gives_limitClause.bind fun r hr => ?_
            obtain ⟨offset, limit⟩ := r
            exact gives_pure (Select.wellFormed_of hitems.2 htables hfilter hgroupBy hhaving
              horderBy hr.1 hr.2)
          split
          · exact gives_bind fun _ =>
              (gives_sepBy1 gives_orderItem _).bind fun orderBy h => hOrder orderBy h.2
          · exact (gives_pure (by simp)).bind hOrder
        split
        · exact (gives_map (gives_expression.mono fun e he => by simpa)).bind hHaving
        · exact (gives_pure (by simp)).bind hHaving
      split
      · exact gives_bind fun _ =>
          (gives_sepBy1 gives_expression _).bind fun groupBy h => hGroup groupBy h.2
      · exact (gives_pure (by simp)).bind hGroup
    split
    · exact (gives_map (gives_expression.mono fun e he => by simpa)).bind hWhere
    · exact (gives_pure (by simp)).bind hWhere
  split
  · exact (gives_sepBy1 gives_tableRef _).bind fun tables h => hFrom tables h.2
  · exact (gives_pure (by simp)).bind hFrom

/-! ## The table tail and the statement -/

/-- The names the tail reads are the option keys: `CHARACTER` is read only with `SET`, and is
then the name `CHARSET`. -/
theorem gives_optionName : Gives (fun r => ∀ n ∈ r, n ∈ TableOptions.keys) optionName := by
  unfold optionName
  refine gives_bind fun _ => (gives_takeMap _).bind fun word hword => ?_
  have hcases : ∀ n ∈ word, n ∈ optionNames := by
    intro n hn
    obtain ⟨t, ht⟩ := hword n hn
    cases t with
    | ident w => exact List.mem_of_find?_eq_some ht
    | _ => cases ht
  extract_lets checked
  have hchecked : ∀ name : Option String, (∀ n ∈ name, n ∈ TableOptions.keys) →
      Gives (fun r => ∀ n ∈ r, n ∈ TableOptions.keys) (checked name) := by
    intro name hname
    dsimp only [checked]
    split
    · exact gives_expected _
    · exact gives_pure hname
  split
  · refine gives_bind fun b => ?_
    split
    · exact (gives_pure (by simp [TableOptions.keys])).bind hchecked
    · exact (gives_expected (P := fun _ => False) _).bind fun _ h => h.elim
  · next hchar =>
      refine (gives_pure ?_).bind hchecked
      intro n hn
      have hne : n ≠ "CHARACTER" := by
        rintro rfl
        simp_all
      have hmem := hcases n hn
      simp only [optionNames, List.mem_cons, List.not_mem_nil, or_false] at hmem
      rcases hmem with rfl | rfl | rfl | rfl | rfl | rfl | rfl | rfl
      iterate 4 decide
      · exact absurd rfl hne
      iterate 3 decide

theorem gives_keyPartitioning : Gives KeyPartitioning.WellFormed keyPartitioning := by
  unfold keyPartitioning
  refine gives_bind fun _ => gives_bind fun _ => ?_
  extract_lets columns afterKey
  have hcolumns : ∀ u, Gives KeyPartitioning.WellFormed (columns u) := by
    intro u
    refine (gives_sepBy1 gives_qualifiedName _).bind fun cols hcols =>
      gives_bind fun _ => gives_bind fun _ => ?_
    extract_lets finish
    have hfinish : ∀ partitions : Option Expr, (∀ e ∈ partitions, e.integersFit = true) →
        Gives KeyPartitioning.WellFormed (finish partitions) :=
      fun _ hp => gives_pure ⟨hcols.1, hcols.2, hp⟩
    split
    · exact (gives_map (gives_expression.mono fun e he => by simpa)).bind hfinish
    · exact (gives_pure (by simp)).bind hfinish
  have hafterKey : ∀ u, Gives KeyPartitioning.WellFormed (afterKey u) := by
    intro u
    refine gives_bind fun _ => gives_bind fun _ => ?_
    split
    · exact gives_bind hcolumns
    · exact hcolumns ()
  split
  · exact gives_bind hafterKey
  · exact hafterKey ()

/-- A clause of the tail sets an option under one of the keys, or the one partitioning. -/
theorem gives_tailClause {stmt : Statement} (hstmt : stmt.WellFormed) :
    Gives (Sum.elim Statement.WellFormed Statement.WellFormed) (tailClause stmt) := by
  refine gives_optionName.bind fun r hr => ?_
  split
  · next name =>
      exact gives_bind fun _ => gives_bind fun value =>
        gives_pure { hstmt with options := hstmt.options.insert (hr name rfl) value }
  refine gives_bind fun b => ?_
  split
  · split
    · exact gives_expected _
    · exact gives_bind fun _ => gives_keyPartitioning.bind fun p hp =>
        gives_pure { hstmt with partitioning := by simpa using hp }
  · exact gives_pure hstmt

theorem gives_trailingQuery : Gives (fun q => ∀ x ∈ q, x.WellFormed) trailingQuery := by
  refine gives_bind fun _ => gives_bind fun _ => ?_
  split
  · exact gives_select.bind fun q hq => gives_pure (by simpa)
  · exact gives_pure (by simp)

theorem gives_tableTail (d : Dialect) {stmt : Statement} (hstmt : stmt.WellFormed) :
    Gives Statement.WellFormed (tableTail d stmt) := by
  unfold tableTail
  extract_lets rest
  have hrest : ∀ stmt : Statement, stmt.WellFormed → Gives Statement.WellFormed (rest stmt) :=
    fun _ hstmt => gives_bind fun _ => gives_trailingQuery.bind fun _ hq =>
      gives_pure { hstmt with query := hq }
  cases d with
  | generic => exact (gives_pure hstmt).bind hrest
  | mysql =>
      exact (gives_loop (I := Statement.WellFormed) (fun _ => gives_tailClause) (fun _ h => h)
        hstmt).bind hrest

theorem gives_createTable (d : Dialect) (acceptCreate : Bool) :
    Gives Statement.WellFormed (createTable d acceptCreate) := by
  unfold createTable
  extract_lets tail afterCreate
  have hafterCreate : ∀ u, Gives Statement.WellFormed (afterCreate u) := by
    intro u
    refine gives_bind fun _ => gives_bind fun _ => gives_bind fun _ => ?_
    extract_lets afterIf
    have hafterIf : ∀ b, Gives Statement.WellFormed (afterIf b) := by
      intro b
      refine gives_qualifiedName.bind fun name hname => ?_
      extract_lets stmt
      have hstmt : stmt.WellFormed :=
        ⟨Statement.kind_eq_globalTemporary_iff _, hname, by simp [stmt],
          TableOptions.wellFormed_empty, by simp [stmt], by simp [stmt]⟩
      refine gives_bind fun _ => ?_
      split
      · exact (gives_tableElements d).bind fun _ hes =>
          (gives_pure { hstmt with elements := hes }).bind fun _ h => gives_tableTail d h
      · exact (gives_pure hstmt).bind fun _ h => gives_tableTail d h
    split
    · exact gives_bind fun _ => gives_bind fun _ => gives_bind hafterIf
    · exact gives_bind hafterIf
  split
  · exact gives_bind hafterCreate
  · exact hafterCreate ()

theorem gives_statement (d : Dialect) : Gives Statement.WellFormed (statement d) :=
  (gives_createTable d true).bind fun _ hst => gives_bind fun _ => gives_bind fun _ => by
    split
    · exact gives_expected _
    · exact gives_pure hst

end Grammar

/-- Every statement the parser gives is well formed: its name and the names of the tables it
reads and partitions by have parts, its indexes, keys and partitioning have columns, its options
are distinct keys, its decimal types give a scale only with a precision, its integers fit in 64
bits, and no `*` it selects has an alias. -/
theorem parse_wellFormed {d : Dialect} {sql : String} {st : Statement}
    (h : parse d sql = .ok st) : st.WellFormed := by
  unfold parse at h
  cases hr : (Grammar.statement d).run (Cursor.ofString sql) with
  | error e =>
      rw [hr] at h
      cases h
  | ok r =>
      rw [hr] at h
      cases h
      exact Grammar.gives_statement d _ _ _ hr

/-- A MySQL table with a decimal type, a key, options and a partitioning parses to a well formed
statement. -/
theorem decimal_table_wellFormed :
    ∃ st, parse .mysql
      "CREATE TABLE t (a DECIMAL(10, 2), KEY k (a)) ENGINE=InnoDB PARTITION BY KEY (a)" = .ok st ∧
      st.WellFormed := by
  have hok : (parse .mysql
      "CREATE TABLE t (a DECIMAL(10, 2), KEY k (a)) ENGINE=InnoDB PARTITION BY KEY (a)").toBool =
      true := by decide +kernel
  cases hp : parse .mysql
      "CREATE TABLE t (a DECIMAL(10, 2), KEY k (a)) ENGINE=InnoDB PARTITION BY KEY (a)" with
  | error e =>
      rw [hp] at hok
      cases hok
  | ok st => exact ⟨st, rfl, parse_wellFormed hp⟩


end SqlDdl
