import SqlDdl.Grammar.Table
/-!
# Properties that every rule keeps

Most facts about the parser's steps hold of every rule because they hold of the few steps the
rules are built from, and every way of putting steps together keeps them: a sequence, a choice
made on a value read, a repetition. A `Walk` bundles one such property with its proofs for those
steps, and the walk through the grammar is done here once, for every such property
(`holds_expression`, `holds_statement`). The step that reports an unsupported construct is left
out of a walk, so that properties of where such errors arise are walks too: the three rules that
report one (`tableConstraint`, `keyPartitioning`, `rejectOnClause`) are hypotheses of the rules
that read them. An `Invariant` is a walk that holds of that step as well, and so of every rule.

Two rules read the offset of the next token, only to name it in an error: `atom` and
`columnOption`. What an offset is for depends on the property, so the rules that read atoms take
the invariant for `atom` as a hypothesis, and the rules that read column definitions that for
`columnOption`. Soundness in a stream (`soundness`) and blindness to offsets (`offsetBlind`) are
the grammar's two invariants.
-/
namespace SqlDdl.Grammar

/-- A property of steps that the primitive steps of the grammar other than `unsupported` have and
that the combinators keep. It holds of every rule that reports no unsupported construct; for the
three that do, it is a hypothesis of the rules that read them. -/
structure Walk where
  /-- Whether a step has the property. -/
  holds : {α : Type} → Grammar α → Prop
  pure : ∀ {α : Type} (a : α), holds (pure a : Grammar α)
  bind : ∀ {α β : Type} {g : Grammar α} {f : α → Grammar β},
    holds g → (∀ a, holds (f a)) → holds (g >>= f)
  expected : ∀ {α : Type} (what : String), holds (expected what : Grammar α)
  peek : holds peek
  takeMap : ∀ {β : Type} (f : Token → Option β), holds (takeMap f)
  peekWord : ∀ w, holds (peekWord w)
  peekName : holds peekName
  loop : ∀ {σ β : Type} {round : σ → Grammar (β ⊕ σ)},
    (∀ s, holds (round s)) → ∀ (done : σ → β) (s : σ), holds (loop round done s)

/-- A property of steps that every primitive step has and the combinators keep: a `Walk` that
holds of every rule. -/
structure Invariant extends Walk where
  unsupported : ∀ {α : Type} (construct : String), holds (unsupported construct : Grammar α)

/-- What follows `PARTITION BY KEY`: the key columns in parentheses and the optional count. -/
def keyColumns : Grammar KeyPartitioning := do
  expect .openParen
  if (← peek) == some .closeParen then expected "at least one partitioning column"
  let columns ← sepBy1 qualifiedName .comma
  expect .closeParen
  let partitions ← if ← takeWord "PARTITIONS" then some <$> expression else pure none
  return ⟨columns, partitions⟩

/-- A partitioning is `BY`, then `KEY` or the report that it is missing, then the key columns. -/
theorem keyPartitioning_eq : keyPartitioning = (do
    expect (.keyword .by)
    if !(← takeIf (.keyword .key)) then unsupported "partitioning other than PARTITION BY KEY"
    keyColumns) := rfl

namespace Walk

variable (I : Walk)

/-! ## Steps made of the primitives -/

theorem holds_map {α β : Type} {g : Grammar α} (h : I.holds g) (f : α → β) :
    I.holds (f <$> g) :=
  I.bind h fun a => I.pure (f a)

theorem holds_takeAny : I.holds takeAny := I.takeMap some

theorem holds_takeIf (t : Token) : I.holds (takeIf t) :=
  I.bind (I.takeMap _) fun _ => I.pure _

theorem holds_expect (t : Token) : I.holds (expect t) := by
  refine I.bind (I.holds_takeIf t) fun b => ?_
  cases b
  · exact I.expected _
  · exact I.pure _

theorem holds_expectName (what : String) : I.holds (expectName what) := by
  refine I.bind (I.takeMap _) fun n => ?_
  cases n
  · exact I.expected _
  · exact I.pure _

theorem holds_takeWord (w : String) : I.holds (takeWord w) :=
  I.bind (I.takeMap _) fun _ => I.pure _

theorem holds_sepBy1 {α : Type} {item : Grammar α} (h : I.holds item) (sep : Token) :
    I.holds (sepBy1 item sep) := by
  refine I.loop (fun acc => I.bind h fun a => I.bind (I.holds_takeIf sep) fun b => ?_) _ _
  cases b <;> exact I.pure _

/-! ## Expressions, apart from atoms -/

theorem holds_nullTest (p : Nat) : I.holds (nullTest? p) := by
  unfold nullTest?
  refine I.bind I.peek fun t => ?_
  split
  · exact I.pure _
  split
  · exact I.pure _
  exact I.bind (I.holds_expect _) fun _ => I.bind (I.holds_takeIf _) fun _ =>
    I.bind (I.holds_expect _) fun _ => I.pure _

theorem holds_nullTests (p : Nat) (e : Expr) : I.holds (nullTests p e) := by
  unfold nullTests
  refine I.loop (fun e => I.bind (I.holds_nullTest p) fun r => ?_) _ _
  cases r <;> exact I.pure _

section Operands

variable {I} {sub : Nat → Grammar Expr} (hsub : ∀ p, I.holds (sub p))
include hsub

theorem holds_infixes (p : Nat) (lhs : Expr) : I.holds (infixes sub p lhs) := by
  unfold infixes
  refine I.loop (fun lhs => I.bind (I.takeMap _) fun r => ?_) _ _
  rcases r with _ | ⟨op, power⟩
  · exact I.pure _
  · exact I.bind (hsub _) fun _ => I.pure _

theorem holds_callArguments : I.holds (callArguments sub) := by
  refine I.loop (fun args => I.bind (I.holds_takeIf _) fun b => ?_) _ _
  split
  · exact I.pure _
  · dsimp only
    split
    · exact I.bind (I.holds_expect _) fun _ => I.bind (hsub 0) fun _ => I.pure _
    · exact I.bind (hsub 0) fun _ => I.pure _

/-- What follows a name in an atom: the arguments of a call, or a column name after `.`. -/
theorem holds_afterName (name : String) :
    I.holds (do
      if ← takeIf .openParen then return Expr.function name (← callArguments sub)
      else if ← takeIf .period then return .column (some name) (← expectName "column name")
      else return .column none name) := by
  refine I.bind (I.holds_takeIf _) fun b => ?_
  split
  · exact I.bind (holds_callArguments hsub) fun _ => I.pure _
  · refine I.bind (I.holds_takeIf _) fun b => ?_
    split
    · exact I.bind (I.holds_expectName _) fun _ => I.pure _
    · exact I.pure _

end Operands

/-! ## Names -/

theorem holds_name : I.holds name := I.holds_expectName _

theorem holds_qualifiedName : I.holds qualifiedName :=
  I.bind (I.holds_sepBy1 I.holds_name _) fun _ => I.pure _

theorem holds_stringLiteral : I.holds stringLiteral := by
  refine I.bind (I.takeMap _) fun r => ?_
  cases r
  · exact I.expected _
  · exact I.pure _

/-! ## Types -/

theorem holds_typeArgument : I.holds typeArgument := by
  refine I.bind (I.takeMap _) fun r => ?_
  cases r
  · exact I.expected _
  · exact I.pure _

theorem holds_typeArguments (max : Nat) : I.holds (typeArguments max) := by
  refine I.bind (I.holds_takeIf _) fun b => ?_
  split
  · exact I.pure _
  refine I.bind ?_ fun _ => I.bind (I.holds_expect _) fun _ => I.pure _
  refine I.loop (fun args => ?_) _ _
  unfold typeArgumentRound
  refine I.bind I.holds_typeArgument fun a => ?_
  dsimp only
  split
  · exact I.pure _
  · refine I.bind (I.holds_takeIf _) fun b => ?_
    split <;> exact I.pure _

theorem holds_customArgument : I.holds customArgument := by
  refine I.bind (I.takeMap _) fun r => ?_
  cases r
  · exact I.expected _
  · exact I.pure _

theorem holds_customArguments : I.holds customArguments := by
  refine I.bind (I.holds_takeIf _) fun b => ?_
  split
  · exact I.pure _
  exact I.bind (I.holds_sepBy1 I.holds_customArgument _) fun _ =>
    I.bind (I.holds_expect _) fun _ => I.pure _

theorem holds_integerType (size : IntegerSize) : I.holds (integerType size) :=
  I.bind (I.holds_typeArguments 1) fun _ => I.bind (I.holds_takeWord _) fun _ =>
    I.bind (I.holds_takeWord _) fun _ => I.pure _

/-- Most types read their numeric arguments and nothing else. -/
theorem holds_typeArguments_then {α : Type} (max : Nat) (f : List Nat → α) :
    I.holds (typeArguments max >>= fun args => Pure.pure (f args)) :=
  I.bind (I.holds_typeArguments max) fun args => I.pure (f args)

theorem holds_dataType : I.holds dataType := by
  refine I.bind (I.holds_expectName _) fun name => ?_
  generalize Text.toUpperCase name = upper
  split
  iterate 6 exact I.holds_integerType _
  iterate 5 exact I.holds_typeArguments_then _ _
  · exact I.bind (I.holds_takeWord _) fun _ => I.holds_typeArguments_then _ _
  iterate 2 exact I.pure _
  iterate 2 exact I.holds_typeArguments_then _ _
  · exact I.bind (I.holds_expect _) fun _ => I.bind I.holds_typeArgument fun _ =>
      I.bind (I.holds_expect _) fun _ => I.pure _
  iterate 8 exact I.holds_typeArguments_then _ _
  · exact I.pure _
  iterate 3 exact I.holds_typeArguments_then _ _
  · exact I.bind I.holds_customArguments fun _ => I.pure _

/-! ## Clauses without expressions -/

theorem holds_aliasAfter (what : String) : I.holds (aliasAfter what) := by
  refine I.bind (I.holds_takeIf _) fun _ => I.bind I.peekName fun _ => ?_
  split
  · exact I.bind (I.holds_expectName _) fun _ => I.pure _
  · exact I.pure _

theorem holds_tableRef : I.holds tableRef :=
  I.bind I.holds_qualifiedName fun _ => I.bind (I.holds_aliasAfter _) fun _ => I.pure _

theorem holds_nullability : I.holds nullability := by
  unfold nullability
  refine I.bind (I.holds_takeIf _) fun b => ?_
  split
  · exact I.bind (I.holds_expect _) fun _ => I.pure _
  · exact I.bind (I.holds_takeIf _) fun _ => I.pure _

theorem holds_indexType : I.holds indexType := by
  refine I.bind (I.holds_takeWord _) fun b => ?_
  split
  · exact I.bind (I.holds_expectName _) fun _ => I.pure _
  · exact I.pure _

theorem holds_constraintName : I.holds constraintName := by
  refine I.bind (I.holds_takeIf _) fun b => ?_
  split
  · exact I.takeMap _
  · exact I.pure _

theorem holds_optionName : I.holds optionName := by
  unfold optionName
  refine I.bind (I.holds_takeIf _) fun _ => I.bind (I.takeMap _) fun _ => ?_
  extract_lets checked
  have hchecked : ∀ name, I.holds (checked name) := by
    intro name
    dsimp only [checked]
    split
    · exact I.expected _
    · exact I.pure _
  split
  · refine I.bind (I.holds_takeWord _) fun b => ?_
    split
    · exact I.bind (I.pure _) hchecked
    · exact I.bind (I.expected _) hchecked
  · exact I.bind (I.pure _) hchecked

theorem holds_optionValue : I.holds optionValue := by
  refine I.bind I.peek fun t => ?_
  split
  · exact I.expected _
  · exact I.bind I.holds_takeAny fun _ => I.pure _

/-- A column definition: its name, its type and its options. -/
theorem holds_columnDef {I : Walk} (hopt : ∀ col, I.holds (columnOption col)) :
    I.holds columnDef :=
  I.bind I.holds_name fun _ => I.bind I.holds_dataType fun _ => I.loop hopt _ _

/-! ## Rules with expressions

Every rule that reads an expression reads atoms, and an atom reads the offset of its token, so
these take the invariant for atoms whose operands keep it. -/

section Expressions

variable {I} (hatom : ∀ sub : Nat → Grammar Expr, (∀ p, I.holds (sub p)) → I.holds (atom sub))
include hatom

theorem holds_operators {sub : Nat → Grammar Expr} (hsub : ∀ p, I.holds (sub p)) (p : Nat) :
    I.holds (operators sub p) := by
  unfold operators
  refine I.bind (I.takeMap _) fun r => ?_
  dsimp only
  have hrest : ∀ first, I.holds (do
      let lhs ← nullTests p first
      let lhs ← infixes sub p lhs
      nullTests p lhs) := fun first =>
    I.bind (I.holds_nullTests p first) fun lhs => I.bind (holds_infixes hsub p lhs) fun lhs =>
      I.holds_nullTests p lhs
  rcases r with _ | ⟨op, power⟩
  · exact I.bind (hatom sub hsub) hrest
  · exact I.bind (hsub power) fun _ => I.bind (I.pure _) hrest

/-- Expressions at every depth and power have the property; the induction follows the recursion
of `expressionAt`, whose operands are read one level deeper. -/
theorem holds_expressionAt (depth p : Nat) : I.holds (expressionAt depth p) := by
  fun_induction expressionAt depth p with
  | case1 => exact I.expected _
  | case2 depth p _ ih => exact holds_operators hatom ih p

theorem holds_expression : I.holds expression := holds_expressionAt hatom 0 0

theorem holds_selectItem : I.holds selectItem := by
  refine I.bind (holds_expression hatom) fun e => I.bind (I.holds_takeIf _) fun _ =>
    I.bind I.peekName fun _ => ?_
  split
  · split
    · exact I.expected _
    · exact I.bind (I.holds_expectName _) fun _ => I.pure _
  · exact I.pure _

theorem holds_orderItem : I.holds orderItem :=
  I.bind (holds_expression hatom) fun _ => I.bind (I.takeMap _) fun _ => I.pure _

theorem holds_limitClause : I.holds limitClause := by
  refine I.bind (I.holds_takeIf _) fun b => ?_
  split
  · exact I.pure _
  refine I.bind (holds_expression hatom) fun first => I.bind (I.holds_takeIf _) fun b => ?_
  split
  · exact I.bind (holds_expression hatom) fun _ => I.pure _
  refine I.bind (I.holds_takeIf _) fun b => ?_
  split
  · exact I.bind (holds_expression hatom) fun _ => I.pure _
  · exact I.pure _

/-- A query's clauses each keep the property, so the query does. Each optional clause joins the
rest of the query, whichever way it went; the rest is proved first, from the last clause back. -/
theorem holds_select : I.holds select := by
  unfold select
  refine I.bind (I.holds_expect _) fun _ => I.bind (I.holds_takeIf _) fun _ =>
    I.bind (I.holds_sepBy1 (holds_selectItem hatom) _) fun _ =>
      I.bind (I.holds_takeIf _) fun _ => ?_
  extract_lets afterFrom
  have hFrom : ∀ tables, I.holds (afterFrom tables) := by
    intro tables
    refine I.bind (I.holds_takeIf _) fun _ => ?_
    extract_lets afterWhere
    have hWhere : ∀ filter, I.holds (afterWhere filter) := by
      intro filter
      refine I.bind (I.holds_takeIf _) fun _ => ?_
      extract_lets afterGroup
      have hGroup : ∀ groupBy, I.holds (afterGroup groupBy) := by
        intro groupBy
        refine I.bind (I.holds_takeIf _) fun _ => ?_
        extract_lets afterHaving
        have hHaving : ∀ having, I.holds (afterHaving having) := by
          intro having
          refine I.bind (I.holds_takeIf _) fun _ => ?_
          extract_lets afterOrder
          have hOrder : ∀ orderBy, I.holds (afterOrder orderBy) := fun _ =>
            I.bind (holds_limitClause hatom) fun _ => I.pure _
          split
          · exact I.bind (I.holds_expect _) fun _ =>
              I.bind (I.holds_sepBy1 (holds_orderItem hatom) _) hOrder
          · exact I.bind (I.pure _) hOrder
        split
        · exact I.bind (I.holds_map (holds_expression hatom) _) hHaving
        · exact I.bind (I.pure _) hHaving
      split
      · exact I.bind (I.holds_expect _) fun _ =>
          I.bind (I.holds_sepBy1 (holds_expression hatom) _) hGroup
      · exact I.bind (I.pure _) hGroup
    split
    · exact I.bind (I.holds_map (holds_expression hatom) _) hWhere
    · exact I.bind (I.pure _) hWhere
  split
  · exact I.bind (I.holds_sepBy1 I.holds_tableRef _) hFrom
  · exact I.bind (I.pure _) hFrom

/-- The options of a column other than nullability. -/
theorem holds_otherOption (col : Column) : I.holds (otherOption col) := by
  unfold otherOption
  refine I.bind (I.holds_takeIf _) fun b => ?_
  split
  · exact I.bind (holds_expression hatom) fun _ => I.pure _
  refine I.bind (I.holds_takeIf _) fun b => ?_
  split
  · exact I.bind (I.holds_expect _) fun _ => I.pure _
  refine I.bind (I.holds_takeIf _) fun b => ?_
  split
  · exact I.bind (I.holds_takeIf _) fun _ => I.pure _
  refine I.bind (I.holds_takeWord _) fun b => ?_
  split
  · exact I.pure _
  refine I.bind (I.holds_takeWord _) fun b => ?_
  split
  · exact I.bind I.holds_stringLiteral fun _ => I.pure _
  · exact I.pure _

theorem holds_indexColumn : I.holds indexColumn :=
  I.bind (holds_expression hatom) fun _ => I.bind (I.takeMap _) fun _ => I.pure _

theorem holds_indexColumns : I.holds indexColumns := by
  unfold indexColumns
  refine I.bind (I.holds_expect _) fun _ => I.bind I.peek fun _ => ?_
  extract_lets columns
  have hcolumns : ∀ u, I.holds (columns u) := fun _ =>
    I.bind (I.holds_sepBy1 (holds_indexColumn hatom) _) fun _ =>
      I.bind (I.holds_expect _) fun _ => I.pure _
  split
  · exact I.bind (I.expected _) hcolumns
  · exact hcolumns ()

theorem holds_primaryKeyConstraint (name : Option String) :
    I.holds (primaryKeyConstraint name) := by
  unfold primaryKeyConstraint
  refine I.bind (I.holds_expect _) fun _ => I.bind (I.holds_expect _) fun _ =>
    I.bind I.holds_indexType fun _ => I.bind (holds_indexColumns hatom) fun _ => ?_
  extract_lets finish
  have hfinish : ∀ indexType, I.holds (finish indexType) := fun _ => I.pure _
  split
  · exact I.bind I.holds_indexType hfinish
  · exact I.bind (I.pure _) hfinish

theorem holds_indexDef : I.holds indexDef := by
  unfold indexDef
  refine I.bind I.peekName fun _ => I.bind (I.peekWord _) fun _ => ?_
  extract_lets named afterName
  have hafterName : ∀ name, I.holds (afterName name) := by
    intro name
    refine I.bind I.holds_indexType fun _ => I.bind (holds_indexColumns hatom) fun _ => ?_
    extract_lets finish
    have hfinish : ∀ indexType, I.holds (finish indexType) := fun _ => I.pure _
    split
    · exact I.bind I.holds_indexType hfinish
    · exact I.bind (I.pure _) hfinish
  split
  · exact I.bind (I.holds_map (I.holds_expectName _) _) hafterName
  · exact I.bind (I.pure _) hafterName

theorem holds_keyColumns : I.holds keyColumns := by
  unfold keyColumns
  refine I.bind (I.holds_expect _) fun _ => I.bind I.peek fun _ => ?_
  extract_lets columns
  have hcolumns : ∀ u, I.holds (columns u) := by
    intro u
    refine I.bind (I.holds_sepBy1 I.holds_qualifiedName _) fun _ =>
      I.bind (I.holds_expect _) fun _ => I.bind (I.holds_takeWord _) fun _ => ?_
    extract_lets finish
    have hfinish : ∀ partitions, I.holds (finish partitions) := fun _ => I.pure _
    split
    · exact I.bind (I.holds_map (holds_expression hatom) _) hfinish
    · exact I.bind (I.pure _) hfinish
  split
  · exact I.bind (I.expected _) hcolumns
  · exact hcolumns ()

omit hatom in
theorem holds_tailClause (hpart : I.holds keyPartitioning) (stmt : Statement) :
    I.holds (tailClause stmt) := by
  refine I.bind I.holds_optionName fun r => ?_
  split
  · exact I.bind (I.holds_expect _) fun _ => I.bind I.holds_optionValue fun _ => I.pure _
  refine I.bind (I.peekWord _) fun b => ?_
  split
  · split
    · exact I.expected _
    · exact I.bind I.holds_takeAny fun _ => I.bind hpart fun _ => I.pure _
  · exact I.pure _

theorem holds_trailingQuery : I.holds trailingQuery := by
  refine I.bind (I.holds_takeIf _) fun _ => I.bind I.peek fun _ => ?_
  split
  · exact I.bind (holds_select hatom) fun _ => I.pure _
  · exact I.pure _

theorem holds_tableTail (hpart : I.holds keyPartitioning) (hon : I.holds rejectOnClause)
    (d : Dialect) (stmt : Statement) : I.holds (tableTail d stmt) := by
  unfold tableTail
  extract_lets rest
  have hrest : ∀ stmt, I.holds (rest stmt) := fun _ =>
    I.bind hon fun _ => I.bind (holds_trailingQuery hatom) fun _ => I.pure _
  cases d with
  | generic => exact I.bind (I.pure _) hrest
  | mysql => exact I.bind (I.loop (holds_tailClause hpart) _ _) hrest

section Columns

variable (hopt : ∀ col, I.holds (columnOption col)) {d : Dialect}
include hopt

theorem holds_tableElement (hcons : I.holds (tableConstraint d)) : I.holds (tableElement d) := by
  cases d with
  | generic =>
      refine I.bind I.peekName fun b => ?_
      split
      · exact I.bind (holds_columnDef hopt) fun _ => I.pure _
      refine I.bind I.peek fun t => ?_
      split
      · exact I.bind hcons fun _ => I.pure _
      · exact I.bind hcons fun _ => I.pure _
      · exact I.expected _
  | mysql =>
      refine I.bind I.peekName fun b => ?_
      split
      · exact I.bind (holds_columnDef hopt) fun _ => I.pure _
      refine I.bind I.peek fun t => ?_
      split
      · exact I.bind hcons fun _ => I.pure _
      · exact I.bind hcons fun _ => I.pure _
      · exact I.bind hcons fun _ => I.pure _
      · exact I.bind I.holds_takeAny fun _ => I.bind (holds_indexDef hatom) fun _ => I.pure _
      · exact I.expected _

end Columns

section Elements

variable {d : Dialect} (helem : I.holds (tableElement d))
include helem

omit hatom in
theorem holds_tableElements : I.holds (tableElements d) :=
  I.bind (I.holds_expect _) fun _ =>
    I.bind (I.holds_sepBy1 helem _) fun _ =>
    I.bind (I.holds_expect _) fun _ => I.pure _

variable (hpart : I.holds keyPartitioning) (hon : I.holds rejectOnClause)
include hpart hon

theorem holds_createTable (acceptCreate : Bool) : I.holds (createTable d acceptCreate) := by
  unfold createTable
  extract_lets tail afterCreate
  have htail : ∀ stmt, I.holds (tail stmt) := fun _ => holds_tableTail hatom hpart hon d _
  have hafterCreate : ∀ u, I.holds (afterCreate u) := by
    intro u
    refine I.bind (I.holds_takeIf _) fun _ => I.bind (I.holds_expect _) fun _ =>
      I.bind (I.holds_takeIf _) fun _ => ?_
    extract_lets afterIf
    have hafterIf : ∀ b, I.holds (afterIf b) := by
      intro b
      refine I.bind I.holds_qualifiedName fun _ => ?_
      extract_lets stmt
      refine I.bind I.peek fun _ => ?_
      split
      · exact I.bind (holds_tableElements helem) fun _ => I.bind (I.pure _) htail
      · exact I.bind (I.pure _) htail
    split
    · exact I.bind (I.holds_expect _) fun _ => I.bind (I.holds_expect _) fun _ =>
        I.bind (I.pure _) hafterIf
    · exact I.bind (I.pure _) hafterIf
  split
  · exact I.bind (I.holds_expect _) hafterCreate
  · exact hafterCreate ()

/-- A whole statement keeps every walk that its atoms, its table elements and the rules of
unsupported constructs of its tail keep. -/
theorem holds_statement : I.holds (statement d) := by
  refine I.bind (holds_createTable hatom helem hpart hon true) fun _ =>
    I.bind (I.holds_takeIf _) fun _ => I.bind I.peek fun _ => ?_
  split
  · exact I.expected _
  · exact I.pure _

end Elements

end Expressions

end Walk

/-! ## The rules that report unsupported constructs -/

namespace Invariant

variable {I : Invariant}

theorem holds_rejectOnClause : I.holds rejectOnClause := by
  refine I.bind I.peek fun t => ?_
  split
  · exact I.unsupported _
  · exact I.pure _

section Expressions

variable (hatom : ∀ sub : Nat → Grammar Expr, (∀ p, I.holds (sub p)) → I.holds (atom sub))
include hatom

theorem holds_tableConstraint (d : Dialect) : I.holds (tableConstraint d) := by
  cases d with
  | generic =>
      refine I.bind I.holds_constraintName fun name => I.bind I.peek fun _ => ?_
      split
      · exact Walk.holds_primaryKeyConstraint hatom name
      · exact I.unsupported _
  | mysql =>
      refine I.bind I.holds_constraintName fun name => I.bind (I.holds_takeIf _) fun b => ?_
      split
      · exact I.bind (Walk.holds_indexDef hatom) fun _ => I.pure _
      refine I.bind I.peek fun _ => ?_
      split
      · exact Walk.holds_primaryKeyConstraint hatom name
      · exact I.unsupported _

theorem holds_keyPartitioning : I.holds keyPartitioning := by
  rw [keyPartitioning_eq]
  refine I.bind (I.holds_expect _) fun _ => I.bind (I.holds_takeIf _) fun _ => ?_
  split
  · exact I.bind (I.unsupported _) fun _ => Walk.holds_keyColumns hatom
  · exact Walk.holds_keyColumns hatom

/-- A whole statement keeps every invariant whose atoms and column options keep it. -/
theorem holds_statement (hopt : ∀ col, I.holds (columnOption col)) (d : Dialect) :
    I.holds (statement d) :=
  Walk.holds_statement hatom (Walk.holds_tableElement hatom hopt (holds_tableConstraint hatom d))
    (holds_keyPartitioning hatom) holds_rejectOnClause

end Expressions

end Invariant

end SqlDdl.Grammar
