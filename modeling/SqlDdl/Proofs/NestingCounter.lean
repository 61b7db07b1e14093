import Mathlib
import SqlDdl.Grammar.Table
/-!
# The nesting counter is balanced

A parser keeps one counter of how deep it is in nested expressions, and every rule runs on it.
Only the expression rule changes it: at `maxDepth` it refuses, and below it raises the counter,
reads one level, and lowers the counter again whether the level was read or not. So every rule
gives the counter back as it found it, whether it succeeds or fails, and the counter never goes
past the limit while the rule runs (`Balanced`): a new parser is at depth 0 after any rule, and a
parser used again after a failed rule has the whole limit to itself (`rules_keep_nesting`).

That is also why the grammar may pass the depth down as an argument instead of keeping a counter:
a rule run as a method with its counter at depth `d` gives what the rule of the grammar gives at
depth `d` (`Implements`). Every step that only reads tokens implements itself, and `bind` and
`loop` build implementations from implementations. The expression rule is the one place where the
two differ in form, and its two forms agree by induction on the fuel (`implements_expressionAt`);
every other rule follows by composition, down to the whole statement (`parse_eq_statement_run`).
-/

namespace SqlDdl

namespace Method

variable {α β σ : Type}

open Grammar (maxDepth)

/-! ## Balanced methods -/

/-- The method gives the counter back at the depth where it found it, whether it succeeds or
fails, and never raises it past the limit: the highest the counter has been is afterwards at most
what it was before or the limit. -/
def Balanced (m : Method α) : Prop :=
  ∀ c n, (m c n).2.depth = n.depth ∧ (m c n).2.peak ≤ max n.peak maxDepth

theorem balanced_lift (g : Grammar α) : Balanced (lift g) :=
  fun _ n => ⟨rfl, Nat.le_max_left n.peak maxDepth⟩

theorem balanced_pure (a : α) : Balanced (pure a : Method α) :=
  fun _ n => ⟨rfl, Nat.le_max_left n.peak maxDepth⟩

/-- A balanced method after a balanced one: the second starts where the first gave the counter
back. -/
theorem Balanced.bind {m : Method α} {f : α → Method β} (hm : Balanced m)
    (hf : ∀ a, Balanced (f a)) : Balanced (m >>= f) := by
  intro c n
  obtain ⟨hd₁, hp₁⟩ := hm c n
  show (Method.bind m f c n).2.depth = n.depth ∧ (Method.bind m f c n).2.peak ≤ _
  unfold Method.bind
  rcases hr : m c n with ⟨_ | ⟨a, c₁, h₁⟩, n₁⟩ <;> rw [hr] at hd₁ hp₁ <;> dsimp only at hd₁ hp₁ ⊢
  · exact ⟨hd₁, hp₁⟩
  · obtain ⟨hd₂, hp₂⟩ := hf a c₁ n₁
    rcases hr₂ : f a c₁ n₁ with ⟨_ | ⟨b, c₂, h₂⟩, n₂⟩ <;> rw [hr₂] at hd₂ hp₂ <;>
      dsimp only at hd₂ hp₂ ⊢ <;> exact ⟨hd₂.trans hd₁, by omega⟩

/-- A repetition of balanced rounds is balanced; the induction is on the tokens left, as the
repetition's own. -/
theorem Balanced.loop {round : σ → Method (β ⊕ σ)} (h : ∀ s, Balanced (round s)) (done : σ → β)
    (s : σ) : Balanced (loop round done s) := by
  intro c n
  induction hsize : c.size using Nat.strong_induction_on generalizing s c n with
  | _ k ih =>
      obtain ⟨hd₁, hp₁⟩ := h s c n
      unfold Method.loop
      rw [loopFrom]
      rcases hr : round s c n with ⟨_ | ⟨_ | s', c', h'⟩, n₁⟩ <;> rw [hr] at hd₁ hp₁ <;>
        dsimp only at hd₁ hp₁ ⊢
      · exact ⟨hd₁, hp₁⟩
      · exact ⟨hd₁, hp₁⟩
      · split
        · next hlt =>
          obtain ⟨hd₂, hp₂⟩ := ih c'.size (hsize ▸ hlt) s' c' n₁ rfl
          unfold Method.loop at hd₂ hp₂
          rcases hr₂ : loopFrom round done s' c' n₁ with ⟨_ | ⟨b, c'', h''⟩, n₂⟩ <;>
            rw [hr₂] at hd₂ hp₂ <;> dsimp only at hd₂ hp₂ ⊢ <;> exact ⟨hd₂.trans hd₁, by omega⟩
        · exact ⟨hd₁, hp₁⟩

/-- A level read one deeper from below the limit: the counter rises to at most the limit and
comes back down. -/
theorem Balanced.deeper {m : Method α} (hm : Balanced m) {c : Cursor} {n : Nesting}
    (hn : n.depth < maxDepth) :
    (deeper m c n).2.depth = n.depth ∧ (deeper m c n).2.peak ≤ max n.peak maxDepth := by
  obtain ⟨hd, hp⟩ := hm c n.enter
  simp only [Method.deeper, Nesting.leave, Nesting.enter] at hd hp ⊢
  exact ⟨by omega, by omega⟩

/-! ## Methods that implement the grammar's rules -/

/-- Run with its counter at depth `d`, the method gives exactly what the step `g` gives; and it is
balanced, so the next method runs at depth `d` too. -/
structure Implements (d : Nat) (m : Method α) (g : Grammar α) : Prop where
  balanced : Balanced m
  reads : ∀ c n, n.depth = d → (m c n).1 = g c

variable {d : Nat}

theorem implements_lift (g : Grammar α) : Implements d (lift g) g :=
  ⟨balanced_lift g, fun _ _ _ => rfl⟩

theorem implements_pure (a : α) : Implements d (pure a) (pure a) :=
  ⟨balanced_pure a, fun _ _ _ => rfl⟩

theorem Implements.bind {m : Method α} {g : Grammar α} {f : α → Method β} {k : α → Grammar β}
    (hm : Implements d m g) (hf : ∀ a, Implements d (f a) (k a)) :
    Implements d (m >>= f) (g >>= k) := by
  refine ⟨hm.balanced.bind fun a => (hf a).balanced, fun c n hn => ?_⟩
  have hd₁ := (hm.balanced c n).1
  have hr₁ := hm.reads c n hn
  show (Method.bind m f c n).1 = Grammar.bind g k c
  unfold Method.bind Grammar.bind
  rcases hmc : m c n with ⟨r₁, n₁⟩
  rw [hmc] at hd₁ hr₁
  dsimp only at hd₁ hr₁
  subst hr₁
  rcases g c with _ | ⟨a, c₁, h₁⟩
  · rfl
  · dsimp only
    have hr₂ := (hf a).reads c₁ n₁ (hd₁.trans hn)
    rcases hfc : f a c₁ n₁ with ⟨r₂, n₂⟩
    rw [hfc] at hr₂
    dsimp only at hr₂
    subst hr₂
    rcases k a c₁ with _ | ⟨b, c₂, h₂⟩ <;> rfl

theorem implements_ite {p : Prop} [Decidable p] {m m' : Method α} {g g' : Grammar α}
    (h : Implements d m g) (h' : Implements d m' g') :
    Implements d (if p then m else m') (if p then g else g') := by
  split
  · exact h
  · exact h'

theorem Implements.map {m : Method α} {g : Grammar α} (h : Implements d m g) (f : α → β) :
    Implements d (f <$> m) (f <$> g) :=
  h.bind fun a => implements_pure (f a)

/-- A repetition of rounds that implement the grammar's rounds implements the grammar's
repetition: both go on exactly when a round goes on and reads a token. -/
theorem Implements.loop {round : σ → Method (β ⊕ σ)} {ground : σ → Grammar (β ⊕ σ)}
    (h : ∀ s, Implements d (round s) (ground s)) (done : σ → β) (s : σ) :
    Implements d (loop round done s) (Grammar.loop ground done s) := by
  refine ⟨Balanced.loop (fun s => (h s).balanced) done s, fun c n hn => ?_⟩
  induction hsize : c.size using Nat.strong_induction_on generalizing s c n with
  | _ k ih =>
      have hd₁ := ((h s).balanced c n).1
      have hr₁ := (h s).reads c n hn
      unfold Method.loop Grammar.loop
      rw [loopFrom, Grammar.loopFrom]
      rcases hrc : round s c n with ⟨r₁, n₁⟩
      rw [hrc] at hd₁ hr₁
      dsimp only at hd₁ hr₁
      subst hr₁
      rcases ground s c with _ | ⟨_ | s', c', h'⟩
      · rfl
      · rfl
      · dsimp only
        split
        · next hlt =>
          have hr₂ := ih c'.size (hsize ▸ hlt) s' c' n₁ (hd₁.trans hn) rfl
          unfold Method.loop Grammar.loop at hr₂
          rcases hlc : loopFrom round done s' c' n₁ with ⟨r₂, n₂⟩
          rw [hlc] at hr₂
          dsimp only at hr₂
          subst hr₂
          rcases Grammar.loopFrom ground done s' c' with _ | ⟨b, c'', h''⟩ <;> rfl
        · rfl

theorem Implements.sepBy1 {item : Method α} {gitem : Grammar α} (h : Implements d item gitem)
    (sep : Token) : Implements d (Grammar.sepBy1 item sep) (Grammar.sepBy1 gitem sep) := by
  refine Implements.loop (fun acc => h.bind fun a => (implements_lift _).bind fun b => ?_) _ _
  exact implements_ite (implements_pure _) (implements_pure _)

/-! ## The expression rule -/

section Expressions

variable {sub : Nat → Method Expr} {gsub : Nat → Grammar Expr}

theorem implements_infixes (hsub : ∀ p, Implements d (sub p) (gsub p)) (minPower : Nat)
    (lhs : Expr) :
    Implements d (Grammar.infixes sub minPower lhs) (Grammar.infixes gsub minPower lhs) := by
  refine Implements.loop (fun lhs => (implements_lift _).bind fun r => ?_) _ _
  rcases r with _ | ⟨op, power⟩
  · exact implements_pure _
  · exact (hsub _).bind fun _ => implements_pure _

theorem implements_callArguments (hsub : ∀ p, Implements d (sub p) (gsub p)) :
    Implements d (Grammar.callArguments sub) (Grammar.callArguments gsub) := by
  refine Implements.loop (fun args => (implements_lift _).bind fun b => ?_) _ _
  split
  · exact implements_pure _
  · dsimp only
    split
    · exact (implements_lift _).bind fun _ => (hsub 0).bind fun _ => implements_pure _
    · exact (hsub 0).bind fun _ => implements_pure _

theorem implements_atom (hsub : ∀ p, Implements d (sub p) (gsub p)) :
    Implements d (Grammar.atom sub) (Grammar.atom gsub) := by
  unfold Grammar.atom
  refine (implements_lift _).bind fun t => ?_
  rcases t with _ | token
  · exact implements_lift _
  refine (implements_lift _).bind fun off => (implements_lift _).bind fun _ => ?_
  split
  case h_2 =>
    split
    · exact implements_pure _
    · exact implements_lift _
  case h_7 | h_8 =>
    exact (implements_lift _).bind fun _ => implements_ite
      ((implements_callArguments hsub).bind fun _ => implements_pure _)
      ((implements_lift _).bind fun _ => implements_ite
        ((implements_lift _).bind fun _ => implements_pure _) (implements_pure _))
  case h_9 => exact (hsub 0).bind fun _ => (implements_lift _).bind fun _ => implements_pure _
  case h_10 => exact implements_lift _
  all_goals exact implements_pure _

theorem implements_operators (hsub : ∀ p, Implements d (sub p) (gsub p)) (minPower : Nat) :
    Implements d (Grammar.operators sub minPower) (Grammar.operators gsub minPower) := by
  unfold Grammar.operators
  refine (implements_lift _).bind fun r => ?_
  extract_lets rest grest
  have hrest : ∀ first, Implements d (rest first) (grest first) := fun first =>
    (implements_lift _).bind fun lhs => (implements_infixes hsub minPower lhs).bind fun _ =>
      implements_lift _
  rcases r with _ | ⟨op, power⟩
  · exact (implements_atom hsub).bind hrest
  · exact (hsub power).bind fun _ => (implements_pure _).bind hrest

theorem bind_depth_apply (f : Nat → Method α) (c : Cursor) (n : Nesting) :
    (depth >>= f) c n = f n.depth c n := by
  show Method.bind depth f c n = _
  unfold Method.bind depth
  dsimp only
  rcases f n.depth c n with ⟨_ | ⟨b, c₂, h₂⟩, n₂⟩ <;> rfl

/-- With fuel for at least the levels left below the limit, the expression method implements
the grammar's expression rule at the depth of its counter. The induction is on the fuel: at the
limit both refuse alike, and below it the method reads one deeper a level whose operands
implement the grammar's one level deeper. -/
theorem implements_expressionAt (fuel : Nat) :
    ∀ d, maxDepth - d ≤ fuel → ∀ minPower,
      Implements d (expressionAt fuel minPower) (Grammar.expressionAt d minPower) := by
  induction fuel with
  | zero =>
    intro d hd minPower
    rw [Grammar.expressionAt, dif_pos (by omega)]
    exact implements_lift _
  | succ fuel ih =>
    intro d hd minPower
    have hlevel : Implements (d + 1) (Grammar.operators (expressionAt fuel) minPower)
        (Grammar.operators (Grammar.expressionAt (d + 1)) minPower) :=
      implements_operators (fun p => ih (d + 1) (by omega) p) minPower
    refine ⟨fun c n => ?_, fun c n hn => ?_⟩
    · rw [expressionAt, bind_depth_apply]
      split
      · exact ⟨rfl, Nat.le_max_left n.peak maxDepth⟩
      · exact hlevel.balanced.deeper (by omega)
    · rw [expressionAt, bind_depth_apply, Grammar.expressionAt]
      subst hn
      split
      · rfl
      · exact hlevel.reads c n.enter rfl

/-- The expression method, from a counter at depth `d`, reads what the grammar reads at depth
`d`. -/
theorem implements_expression (d : Nat) :
    Implements d expression (Grammar.expressionAt d 0) :=
  implements_expressionAt maxDepth d (Nat.sub_le maxDepth d) 0

end Expressions

/-! ## Rules that read no expression -/

theorem implements_integerType (size : IntegerSize) :
    Implements d (Grammar.integerType size) (Grammar.integerType size) :=
  (implements_lift _).bind fun _ => (implements_lift _).bind fun _ =>
    (implements_lift _).bind fun _ => implements_pure _

/-- Every branch of the type table is the integer rule, or steps that read tokens and then the
type. -/
theorem implements_dataType : Implements d Grammar.dataType Grammar.dataType := by
  unfold Grammar.dataType
  refine (implements_lift _).bind fun name => ?_
  split
  iterate 6 exact implements_integerType _
  all_goals
    repeat refine (implements_lift _).bind fun _ => ?_
    exact implements_pure _

theorem implements_indexType : Implements d Grammar.indexType Grammar.indexType :=
  (implements_lift _).bind fun _ =>
    implements_ite ((implements_lift _).bind fun _ => implements_pure _) (implements_pure _)

theorem implements_optionName : Implements d Grammar.optionName Grammar.optionName := by
  unfold Grammar.optionName
  refine (implements_lift _).bind fun _ => (implements_lift _).bind fun _ => ?_
  extract_lets checked gchecked
  have hchecked : ∀ name, Implements d (checked name) (gchecked name) := fun _ =>
    implements_ite (implements_lift _) (implements_pure _)
  split
  · exact (implements_lift _).bind fun _ =>
      implements_ite ((implements_pure _).bind hchecked) ((implements_lift _).bind hchecked)
  · exact (implements_pure _).bind hchecked

/-! ## The other rules, from a new parser -/

theorem implements_otherOption (col : Column) :
    Implements 0 (Grammar.otherOption col) (Grammar.otherOption col) := by
  unfold Grammar.otherOption
  refine (implements_lift _).bind fun b => ?_
  split
  · exact (implements_expression 0).bind fun _ => implements_pure _
  refine (implements_lift _).bind fun b => ?_
  split
  · exact (implements_lift _).bind fun _ => implements_pure _
  refine (implements_lift _).bind fun b => ?_
  split
  · exact (implements_lift _).bind fun _ => implements_pure _
  refine (implements_lift _).bind fun b => ?_
  split
  · exact implements_pure _
  refine (implements_lift _).bind fun b => ?_
  split
  · exact (implements_lift _).bind fun _ => implements_pure _
  · exact implements_pure _

theorem implements_columnOption (col : Column) :
    Implements 0 (Grammar.columnOption col) (Grammar.columnOption col) := by
  unfold Grammar.columnOption
  refine (implements_lift _).bind fun off => (implements_lift _).bind fun r => ?_
  split
  · exact implements_ite (implements_lift _) (implements_pure _)
  · exact implements_otherOption col

theorem implements_columnDef : Implements 0 columnDef Grammar.columnDef :=
  (implements_lift _).bind fun _ => implements_dataType.bind fun _ =>
    Implements.loop implements_columnOption _ _

theorem implements_indexColumn : Implements 0 Grammar.indexColumn Grammar.indexColumn :=
  (implements_expression 0).bind fun _ => (implements_lift _).bind fun _ => implements_pure _

theorem implements_indexColumns : Implements 0 indexColumns Grammar.indexColumns := by
  unfold indexColumns Grammar.indexColumns
  refine (implements_lift _).bind fun _ => (implements_lift _).bind fun _ => ?_
  extract_lets columns gcolumns
  have hcolumns : ∀ u, Implements 0 (columns u) (gcolumns u) := fun _ =>
    (implements_indexColumn.sepBy1 _).bind fun _ => (implements_lift _).bind fun _ =>
      implements_pure _
  split
  · exact (implements_lift _).bind hcolumns
  · exact hcolumns ()

theorem implements_primaryKeyConstraint (name : Option String) :
    Implements 0 (primaryKeyConstraint name) (Grammar.primaryKeyConstraint name) := by
  unfold primaryKeyConstraint Grammar.primaryKeyConstraint
  refine (implements_lift _).bind fun _ => (implements_lift _).bind fun _ =>
    implements_indexType.bind fun _ => implements_indexColumns.bind fun _ => ?_
  extract_lets finish gfinish
  have hfinish : ∀ indexType, Implements 0 (finish indexType) (gfinish indexType) := fun _ =>
    implements_pure _
  split
  · exact implements_indexType.bind hfinish
  · exact (implements_pure _).bind hfinish

theorem implements_selectItem : Implements 0 Grammar.selectItem Grammar.selectItem := by
  refine (implements_expression 0).bind fun e => (implements_lift _).bind fun _ =>
    (implements_lift _).bind fun _ => ?_
  split
  · split
    · exact implements_lift _
    · exact (implements_lift _).bind fun _ => implements_pure _
  · exact implements_pure _

theorem implements_orderItem : Implements 0 Grammar.orderItem Grammar.orderItem :=
  (implements_expression 0).bind fun _ => (implements_lift _).bind fun _ => implements_pure _

theorem implements_limitClause : Implements 0 Grammar.limitClause Grammar.limitClause := by
  refine (implements_lift _).bind fun b => ?_
  split
  · exact implements_pure _
  refine (implements_expression 0).bind fun first => (implements_lift _).bind fun b => ?_
  split
  · exact (implements_expression 0).bind fun _ => implements_pure _
  refine (implements_lift _).bind fun b => ?_
  split
  · exact (implements_expression 0).bind fun _ => implements_pure _
  · exact implements_pure _

/-- A query's clauses each read as the grammar's, so the query does. Each optional clause joins
the rest of the query, whichever way it went; the rest is proved first, from the last clause
back. -/
theorem implements_select : Implements 0 select Grammar.select := by
  unfold select Grammar.select
  refine (implements_lift _).bind fun _ => (implements_lift _).bind fun _ =>
    (implements_selectItem.sepBy1 _).bind fun _ => (implements_lift _).bind fun _ => ?_
  extract_lets afterFrom gafterFrom
  have hFrom : ∀ tables, Implements 0 (afterFrom tables) (gafterFrom tables) := by
    intro tables
    refine (implements_lift _).bind fun _ => ?_
    extract_lets afterWhere gafterWhere
    have hWhere : ∀ filter, Implements 0 (afterWhere filter) (gafterWhere filter) := by
      intro filter
      refine (implements_lift _).bind fun _ => ?_
      extract_lets afterGroup gafterGroup
      have hGroup : ∀ groupBy, Implements 0 (afterGroup groupBy) (gafterGroup groupBy) := by
        intro groupBy
        refine (implements_lift _).bind fun _ => ?_
        extract_lets afterHaving gafterHaving
        have hHaving : ∀ having, Implements 0 (afterHaving having) (gafterHaving having) := by
          intro having
          refine (implements_lift _).bind fun _ => ?_
          extract_lets afterOrder gafterOrder
          have hOrder : ∀ orderBy, Implements 0 (afterOrder orderBy) (gafterOrder orderBy) :=
            fun _ => implements_limitClause.bind fun r => by
              rcases r with ⟨offset, limit⟩
              exact implements_pure _
          split
          · exact (implements_lift _).bind fun _ => (implements_orderItem.sepBy1 _).bind hOrder
          · exact (implements_pure _).bind hOrder
        split
        · exact ((implements_expression 0).map some).bind hHaving
        · exact (implements_pure _).bind hHaving
      split
      · exact (implements_lift _).bind fun _ => ((implements_expression 0).sepBy1 _).bind hGroup
      · exact (implements_pure _).bind hGroup
    split
    · exact ((implements_expression 0).map some).bind hWhere
    · exact (implements_pure _).bind hWhere
  split
  · exact ((implements_lift _).sepBy1 _).bind hFrom
  · exact (implements_pure _).bind hFrom

theorem implements_indexDef : Implements 0 Grammar.indexDef Grammar.indexDef := by
  unfold Grammar.indexDef
  refine (implements_lift _).bind fun _ => (implements_lift _).bind fun _ => ?_
  extract_lets named afterName gafterName
  have hafterName : ∀ name, Implements 0 (afterName name) (gafterName name) := by
    intro name
    refine implements_indexType.bind fun _ => implements_indexColumns.bind fun _ => ?_
    extract_lets finish gfinish
    have hfinish : ∀ indexType, Implements 0 (finish indexType) (gfinish indexType) := fun _ =>
      implements_pure _
    split
    · exact implements_indexType.bind hfinish
    · exact (implements_pure _).bind hfinish
  split
  · exact ((implements_lift _).map _).bind hafterName
  · exact (implements_pure _).bind hafterName

theorem implements_tableConstraint (d : Dialect) :
    Implements 0 (tableConstraint d) (Grammar.tableConstraint d) := by
  cases d with
  | generic =>
      refine (implements_lift _).bind fun name => (implements_lift _).bind fun _ => ?_
      exact implements_ite (implements_primaryKeyConstraint name) (implements_lift _)
  | mysql =>
      refine (implements_lift _).bind fun name => (implements_lift _).bind fun b => ?_
      split
      · exact implements_indexDef.bind fun _ => implements_pure _
      refine (implements_lift _).bind fun _ => ?_
      exact implements_ite (implements_primaryKeyConstraint name) (implements_lift _)

theorem implements_tableElement (d : Dialect) :
    Implements 0 (tableElement d) (Grammar.tableElement d) := by
  have hcolumn := implements_columnDef.bind fun col => implements_pure (Element.column col)
  cases d with
  | generic =>
      refine (implements_lift _).bind fun b => ?_
      split
      · exact hcolumn
      refine (implements_lift _).bind fun t => ?_
      split
      · exact (implements_tableConstraint _).bind fun _ => implements_pure _
      · exact (implements_tableConstraint _).bind fun _ => implements_pure _
      · exact implements_lift _
  | mysql =>
      refine (implements_lift _).bind fun b => ?_
      split
      · exact hcolumn
      refine (implements_lift _).bind fun t => ?_
      split
      · exact (implements_tableConstraint _).bind fun _ => implements_pure _
      · exact (implements_tableConstraint _).bind fun _ => implements_pure _
      · exact (implements_tableConstraint _).bind fun _ => implements_pure _
      · exact (implements_lift _).bind fun _ => implements_indexDef.bind fun _ => implements_pure _
      · exact implements_lift _

theorem implements_tableElements (d : Dialect) :
    Implements 0 (tableElements d) (Grammar.tableElements d) :=
  (implements_lift _).bind fun _ => ((implements_tableElement d).sepBy1 _).bind fun _ =>
    (implements_lift _).bind fun _ => implements_pure _

theorem implements_keyPartitioning :
    Implements 0 Grammar.keyPartitioning Grammar.keyPartitioning := by
  unfold Grammar.keyPartitioning
  refine (implements_lift _).bind fun _ => (implements_lift _).bind fun _ => ?_
  extract_lets columns afterKey gcolumns gafterKey
  have hcolumns : ∀ u, Implements 0 (columns u) (gcolumns u) := by
    intro u
    refine ((implements_lift _).sepBy1 _).bind fun _ => (implements_lift _).bind fun _ =>
      (implements_lift _).bind fun _ => ?_
    extract_lets finish gfinish
    have hfinish : ∀ partitions, Implements 0 (finish partitions) (gfinish partitions) :=
      fun _ => implements_pure _
    split
    · exact ((implements_expression 0).map some).bind hfinish
    · exact (implements_pure _).bind hfinish
  have hafterKey : ∀ u, Implements 0 (afterKey u) (gafterKey u) := by
    intro u
    refine (implements_lift _).bind fun _ => (implements_lift _).bind fun _ => ?_
    split
    · exact (implements_lift _).bind hcolumns
    · exact hcolumns ()
  split
  · exact (implements_lift _).bind hafterKey
  · exact hafterKey ()

theorem implements_tailClause (stmt : Statement) :
    Implements 0 (Grammar.tailClause stmt) (Grammar.tailClause stmt) := by
  refine implements_optionName.bind fun r => ?_
  split
  · exact (implements_lift _).bind fun _ => (implements_lift _).bind fun _ => implements_pure _
  refine (implements_lift _).bind fun b => ?_
  split
  · split
    · exact implements_lift _
    · exact (implements_lift _).bind fun _ => implements_keyPartitioning.bind fun _ =>
        implements_pure _
  · exact implements_pure _

theorem implements_trailingQuery : Implements 0 trailingQuery Grammar.trailingQuery := by
  refine (implements_lift _).bind fun _ => (implements_lift _).bind fun _ => ?_
  exact implements_ite (implements_select.bind fun _ => implements_pure _) (implements_pure _)

theorem implements_tableTail (d : Dialect) (stmt : Statement) :
    Implements 0 (tableTail d stmt) (Grammar.tableTail d stmt) := by
  unfold tableTail Grammar.tableTail
  extract_lets rest grest
  have hrest : ∀ stmt, Implements 0 (rest stmt) (grest stmt) := fun _ =>
    (implements_lift _).bind fun _ => implements_trailingQuery.bind fun _ => implements_pure _
  cases d with
  | generic => exact (implements_pure _).bind hrest
  | mysql => exact (Implements.loop implements_tailClause _ _).bind hrest

theorem implements_createTable (d : Dialect) (acceptCreate : Bool) :
    Implements 0 (createTable d acceptCreate) (Grammar.createTable d acceptCreate) := by
  unfold createTable Grammar.createTable
  extract_lets tail afterCreate gtail gafterCreate
  have htail : ∀ stmt, Implements 0 (tail stmt) (gtail stmt) := fun _ => implements_tableTail d _
  have hafterCreate : ∀ u, Implements 0 (afterCreate u) (gafterCreate u) := by
    intro u
    refine (implements_lift _).bind fun _ => (implements_lift _).bind fun _ =>
      (implements_lift _).bind fun _ => ?_
    extract_lets afterIf gafterIf
    have hafterIf : ∀ b, Implements 0 (afterIf b) (gafterIf b) := by
      intro b
      refine (implements_lift _).bind fun _ => ?_
      extract_lets stmt
      refine (implements_lift _).bind fun _ => ?_
      split
      · exact (implements_tableElements d).bind fun _ => (implements_pure _).bind htail
      · exact (implements_pure _).bind htail
    split
    · exact (implements_lift _).bind fun _ => (implements_lift _).bind fun _ =>
        (implements_pure _).bind hafterIf
    · exact (implements_pure _).bind hafterIf
  split
  · exact (implements_lift _).bind hafterCreate
  · exact hafterCreate ()

theorem implements_statement (d : Dialect) :
    Implements 0 (statement d) (Grammar.statement d) := by
  refine (implements_createTable d true).bind fun _ => (implements_lift _).bind fun _ =>
    (implements_lift _).bind fun _ => ?_
  exact implements_ite (implements_lift _) (implements_pure _)

/-! ## What the counter guarantees -/

/-- Every rule of either dialect, run on a parser whose counter stands at any depth, gives the
counter back at that depth, whether it succeeds or fails, and never raises it past the limit on
the way: the expression rule at every power and fuel, and every rule that reads expressions, up to
the table definition and what follows it. The counter is what sets the limit: from depth `k` an
expression is read as the grammar reads it `k` levels down, so a parser that got its counter back
has the whole limit again. -/
theorem rules_keep_nesting (d : Dialect) :
    (∀ k, Implements k expression (Grammar.expressionAt k 0)) ∧
      (∀ fuel minPower, Balanced (expressionAt fuel minPower)) ∧
      Balanced columnDef ∧ Balanced indexColumns ∧
      (∀ name, Balanced (primaryKeyConstraint name)) ∧ Balanced select ∧
      Balanced (tableElements d) ∧ Balanced (tableElement d) ∧ Balanced (tableConstraint d) ∧
      (∀ acceptCreate, Balanced (createTable d acceptCreate)) ∧
      (∀ stmt, Balanced (tableTail d stmt)) ∧ Balanced trailingQuery := by
  refine ⟨implements_expression, fun fuel minPower => ?_,
    implements_columnDef.balanced, implements_indexColumns.balanced,
    fun name => (implements_primaryKeyConstraint name).balanced, implements_select.balanced,
    (implements_tableElements d).balanced, (implements_tableElement d).balanced,
    (implements_tableConstraint d).balanced,
    fun acceptCreate => (implements_createTable d acceptCreate).balanced,
    fun stmt => (implements_tableTail d stmt).balanced, implements_trailingQuery.balanced⟩
  -- a counter at the limit needs no fuel, so every fuel covers it
  exact (implements_expressionAt fuel maxDepth (by omega) minPower).balanced

/-- A whole statement read as a method of a new parser gives what `parse` gives. -/
theorem parse_eq_statement_run (d : Dialect) (sql : String) :
    parse d sql = (statement d (Cursor.ofString sql) Nesting.fresh).1.map (·.1) := by
  rw [(implements_statement d).reads _ _ rfl]
  unfold parse Grammar.run
  rcases (Grammar.statement d : Grammar Statement) (Cursor.ofString sql) with _ | ⟨st, r⟩ <;> rfl

end Method

end SqlDdl
