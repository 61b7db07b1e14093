import SqlDdl.Proofs.TableAccepted

/-!
# What the MySQL grammar derives, the statement reads

The second half of the converse of `StatementParsed`: the query after a table definition, the
tail of options and partitioning, and the whole statement. With the rules of `TableAccepted`
for the elements, every token sequence the grammar derives (`MySql.CreateTable`) in which no
null test is followed by a binary operator (`TestsLast`) is read whole by `statement .mysql`, to
the end of the input.

Past the elements, the phrases of a statement are each optional and come in a fixed order, so
what may follow one of them is the first word of a later one or the end. `Heads L` says that
the next token is one of the list `L`, or that there is none. The side conditions of the rules
(no name after an item that could take an alias, nothing that continues an expression, no
keyword of a skipped clause) are then finite checks on `L`, which `decide` makes.
-/

namespace SqlDdl

namespace Precedence

/-- An expression starts with no keyword but `NOT`, `TRUE`, `FALSE` and `NULL`. -/
theorem Derives.head_ne_keyword {k : Keyword} (hk : k ∉ [.not, .true, .false, .null])
    {n p : Nat} {w : List Token} {e : Expr} :
    Derives n p w e → ∃ t w', w = t :: w' ∧ t ≠ .keyword k
  | .lift h => h.head_ne_keyword hk
  | .binary _ h₁ _ => by
      obtain ⟨t, w', rfl, ht⟩ := h₁.head_ne_keyword hk
      exact ⟨t, _, rfl, ht⟩
  | .unary ht _ => ⟨_, _, rfl, by
      rintro rfl
      cases k <;> simp_all [Grammar.prefixOp?]⟩
  | .isNull h => by
      obtain ⟨t, w', rfl, ht⟩ := h.head_ne_keyword hk
      exact ⟨t, _, rfl, ht⟩
  | .isNotNull h => by
      obtain ⟨t, w', rfl, ht⟩ := h.head_ne_keyword hk
      exact ⟨t, _, rfl, ht⟩
  | .atom h => by
      cases h with
      | column ht | qualified ht _ | call ht _ =>
          exact ⟨_, _, rfl, by rintro rfl; cases ht⟩
      | _ => exact ⟨_, _, rfl, fun h => by cases h <;> simp_all⟩

end Precedence

namespace Grammar

open Precedence MySql

variable {α β γ : Type} {F G : Option Token → Prop}

/-! ## What may come next -/

/-- The next token is one of `L`, or there is none. -/
def Heads (L : List Token) (x : Option Token) : Prop := ∀ t, x = some t → t ∈ L

theorem heads_none (L : List Token) : Heads L none := fun _ h => by cases h

/-- A property of every token of `L` holds of the next token. -/
theorem Heads.of {L : List Token} {P : Token → Prop} (hL : ∀ t ∈ L, P t) {x : Option Token}
    (h : Heads L x) : ∀ t, x = some t → P t :=
  fun t ht => hL t (h t ht)

/-- After a phrase that ends an expression and is followed by tokens of `L`, the expression
ends too. -/
theorem Heads.closes {L : List Token} (hL : ∀ t ∈ L, continues 0 t = false) {x : Option Token}
    (h : Heads L x) : Closes 0 x := by
  cases x with
  | none => trivial
  | some t => exact hL t (h t rfl)

/-- What follows an item of a list with separator `sep`: the separator, or what follows the
list. -/
theorem heads_sep {L : List Token} {sep : Token} (hF : ∀ x, F x → Heads L x) :
    ∀ x, (x = some sep ∨ F x) → Heads (sep :: L) x := by
  rintro x (rfl | hx) t ht
  · cases ht
    exact List.mem_cons_self
  · exact List.mem_cons_of_mem _ (hF x hx t ht)

/-- What follows a phrase that is missing or starts with `t`, and then `rest`. -/
theorem before_opt {C : Option Token → Prop} {P : List Token → Prop} {t : Token}
    (hP : ∀ v, P v → ∃ v', v = t :: v') (ht : C (some t)) {w rest : List Token} (hw : Opt P w)
    (hrest : ∀ x, Before rest G x → C x) : ∀ x, Before (w ++ rest) G x → C x := by
  rcases hw with rfl | hw
  · simpa using hrest
  · obtain ⟨v', rfl⟩ := hP w hw
    rintro x rfl
    exact ht

/-- What follows an optional clause that starts with the keyword `k`. -/
theorem before_optAfter {C : Option Token → Prop} {P : List Token → Prop} {k : Token}
    (hk : C (some k)) {w rest : List Token} (hw : Opt (After k P) w)
    (hrest : ∀ x, Before rest G x → C x) : ∀ x, Before (w ++ rest) G x → C x :=
  before_opt (fun _ ⟨v', hv, _⟩ => ⟨v', hv⟩) hk hw hrest

theorem Heads.mono {L L' : List Token} (hLL' : ∀ t ∈ L, t ∈ L') {x : Option Token}
    (h : Heads L x) : Heads L' x :=
  fun t ht => hLL' t (h t ht)

theorem Accepts.pure_bind {f : α → Grammar β} {a : α} {ws : List Spanned} {b : β}
    (hf : Accepts (f a) ws b G) : Accepts (pure a >>= f) ws b G := by
  intro rs stop hfol
  rw [run_bind, run_pure]
  exact hf rs stop hfol

theorem Accepts.then_exists {g : Grammar α} {f : α → Grammar β} {w₁ w₂ : List Token} {v : α}
    (hg : Accepts g (spans w₁) v (Before w₂ G)) (hf : ∃ b, Accepts (f v) (spans w₂) b G) :
    ∃ b, Accepts (g >>= f) (spans (w₁ ++ w₂)) b G :=
  let ⟨b, hb⟩ := hf
  ⟨b, hg.then hb⟩

/-- An optional clause that starts with the keyword `k`: read when `k` comes, skipped when it
does not, and either way the rule goes on with `K`. -/
theorem accepts_optClause {k : Token} {P : List Token → Prop} {T : Grammar β} {d : γ}
    {K : γ → Grammar β} {w rest : List Token} (hw : Opt (After k P) w)
    (hT : ∀ w', w = k :: w' → P w' → (∀ a, ∃ b, Accepts (K a) (spans rest) b F) →
      ∃ b, Accepts T (spans (w' ++ rest)) b F)
    (hK : ∀ a, ∃ b, Accepts (K a) (spans rest) b F) (hnext : ∀ x, Before rest F x → x ≠ some k) :
    ∃ b, Accepts (takeIf k >>= fun b => if b = true then T else pure d >>= K)
      (spans (w ++ rest)) b F := by
  rcases hw with rfl | ⟨w', rfl, hw'⟩
  · obtain ⟨b, hb⟩ := hK d
    have hskip : Accepts (takeIf k) (spans []) false (Before rest F) := accepts_takeIf_false hnext
    exact ⟨b, hskip.then (accepts_ite_false rfl hb.pure_bind)⟩
  · obtain ⟨b, hb⟩ := hT w' rfl hw' hK
    have htake : Accepts (takeIf k) (spans [k]) true (Before (w' ++ rest) F) :=
      accepts_takeIf_spans k
    exact ⟨b, htake.then (accepts_ite_true rfl hb)⟩

theorem before_optAfter_heads {P : List Token → Prop} {k : Token} {L : List Token}
    {w rest : List Token} (hw : Opt (After k P) w) (hrest : ∀ x, Before rest G x → Heads L x) :
    ∀ x, Before (w ++ rest) G x → Heads (k :: L) x :=
  before_optAfter (fun _ h => by cases h; exact List.mem_cons_self) hw
    fun x hx => (hrest x hx).mono fun _ => List.mem_cons_of_mem _

/-! ## Queries -/

theorem ne_as_of_name {t : Token} {s : String} (h : t.name? = some s) : t ≠ .keyword .as := by
  rintro rfl
  cases h

/-- An alias, or none where neither `AS` nor a name follows. -/
theorem accepts_aliasAfter (what : String) {w : List Token} (h : Opt Alias w)
    (hF : ∀ t, F (some t) → t ≠ .keyword .as ∧ t.name? = none) :
    ∃ a, Accepts (aliasAfter what) (spans w) a F := by
  unfold aliasAfter
  rcases h with rfl | ⟨a, t, rfl, ha, ht⟩
  · refine ⟨none, fun rs stop hf => ?_⟩
    obtain ⟨x, -, hnext, hx⟩ := Cursor.peek_of_follows hf
    cases x with
    | none => simp [run_bind, run_takeIf, hnext]
    | some u =>
        obtain ⟨has, hname⟩ := hF u hx
        simp [run_bind, run_takeIf, hnext, has, hname]
  · obtain ⟨s, hs⟩ := Option.isSome_iff_exists.mp ht
    have hname : Accepts (expectName what) (spans [t]) s F := accepts_expectName _ hs
    refine ⟨some s, ?_⟩
    rcases ha with rfl | rfl
    · have hskip : Accepts (takeIf (.keyword .as)) (spans []) false (Before [t] F) :=
        accepts_takeIf_false fun x hx => by
          cases hx
          simpa using ne_as_of_name hs
      exact hskip.then (accepts_look_cons looks_peekName
        (accepts_ite_true (by simp [hs]) (hname.bind_pure some)))
    · have has : Accepts (takeIf (.keyword .as)) (spans [.keyword .as]) true (Before [t] F) :=
        accepts_takeIf_spans _
      exact has.then (accepts_look_cons looks_peekName
        (accepts_ite_true (by simp) (hname.bind_pure some)))

/-- An expression with an alias ends before the alias, which starts with `AS` or a name. -/
theorem before_alias {al : List Token} (hal : Opt Alias al) (hF : ∀ x, F x → Closes 0 x) :
    ∀ x, Before al F x → Closes 0 x := by
  rcases hal with rfl | ⟨a, t, rfl, ha, ht⟩
  · exact hF
  · obtain ⟨s, hs⟩ := Option.isSome_iff_exists.mp ht
    rcases ha with rfl | rfl
    · rintro x rfl
      cases t <;> first | rfl | cases hs
    · rintro x rfl
      rfl

/-- A selected item: its expression, then its alias if one follows; `*` takes none. -/
theorem accepts_selectItem {w : List Token} (h : MySql.SelectItem w) (hfree : TestsLast w)
    (hF : ∀ x, F x → Closes 0 x) (hF' : ∀ t, F (some t) → t ≠ .keyword .as ∧ t.name? = none) :
    ∃ i, Accepts selectItem (spans w) i F := by
  obtain ⟨ew, e, al, rfl, he, hal⟩ := h
  have hexpr : Accepts expression (spans ew) e (Before al F) :=
    accepts_expression (by simpa using he) (by simpa using hfree.left)
      (before_alias (hal.elim (fun h => .inl h) fun h => .inr h.2) hF)
  unfold selectItem
  rcases hal with rfl | ⟨hne, a, t, rfl, ha, ht⟩
  · refine ⟨⟨e, none⟩, hexpr.then fun rs stop hf => ?_⟩
    obtain ⟨x, -, hnext, hx⟩ := Cursor.peek_of_follows hf
    cases x with
    | none => simp [run_bind, run_takeIf, hnext]
    | some u =>
        obtain ⟨has, hname⟩ := hF' u hx
        simp [run_bind, run_takeIf, hnext, has, hname]
  · obtain ⟨s, hs⟩ := Option.isSome_iff_exists.mp ht
    have hname : Accepts (expectName "column alias") (spans [t]) s F := accepts_expectName _ hs
    refine ⟨⟨e, some s⟩, hexpr.then ?_⟩
    obtain ⟨b, hb, hcond⟩ : ∃ b, Accepts (takeIf (.keyword .as)) (spans a) b (Before [t] F) ∧
        (b || (some t >>= Token.name?).isSome) = true := by
      rcases ha with rfl | rfl
      · refine ⟨false, accepts_takeIf_false fun x hx => ?_, by simp [hs]⟩
        cases hx
        simpa using ne_as_of_name hs
      · exact ⟨true, accepts_takeIf_spans _, rfl⟩
    refine hb.then (accepts_look_cons looks_peekName (accepts_ite_true hcond ?_))
    split
    · exact absurd rfl hne
    · exact hname.bind_pure _

theorem Alias.head {al : List Token} (h : Alias al) :
    ∃ t w, al = t :: w ∧ (t = .keyword .as ∨ t.name?.isSome) := by
  obtain ⟨a, t, rfl, ha, ht⟩ := h
  rcases ha with rfl | rfl
  · exact ⟨t, [], rfl, .inr ht⟩
  · exact ⟨_, _, rfl, .inl rfl⟩

theorem accepts_tableRef {w : List Token} (h : MySql.TableRef w)
    (hF : ∀ t, F (some t) → t ≠ .period ∧ t ≠ .keyword .as ∧ t.name? = none) :
    ∃ r, Accepts tableRef (spans w) r F := by
  obtain ⟨n, al, rfl, hn, hal⟩ := h
  obtain ⟨a, ha⟩ := accepts_aliasAfter "table alias" hal fun t ht => (hF t ht).2
  have hperiod : ∀ x, Before al F x → x ≠ some .period := by
    refine before_of (fun t w' hal' => ?_) fun x hx hp => ?_
    · obtain ⟨u, v, hu, hut⟩ := Alias.head (hal.resolve_left (by simp [hal']))
      obtain ⟨rfl, rfl⟩ := List.cons.inj (hal'.symm.trans hu)
      rcases hut with rfl | hname
      · simp
      · intro h
        cases h
        simp [Token.name?] at hname
    · subst hp
      exact (hF _ hx).1 rfl
  obtain ⟨name, hname⟩ := accepts_qualifiedName hn hperiod
  unfold tableRef
  exact ⟨_, hname.then (ha.bind_pure _)⟩

theorem accepts_orderItem {w : List Token} (h : Ordered w) (hfree : TestsLast w)
    (hF : ∀ x, F x → Closes 0 x) (hF' : ∀ t, F (some t) → t ≠ .keyword .asc ∧ t ≠ .keyword .desc) :
    ∃ o, Accepts orderItem (spans w) o F := by
  obtain ⟨ew, d, rfl, ⟨e, he⟩, hd⟩ := h
  have hends : ∀ x, Before d F x → Closes 0 x := by
    rcases hd with rfl | hd
    · exact hF
    · simp only [List.mem_cons, List.not_mem_nil, or_false] at hd
      rcases hd with rfl | rfl <;> rintro x rfl <;> rfl
  have hexpr : Accepts expression (spans ew) e (Before d F) :=
    accepts_expression (by simpa using he) (by simpa using hfree.left) hends
  unfold orderItem
  rcases hd with rfl | hd
  · refine ⟨⟨e, .asc⟩, hexpr.then ((accepts_takeMap_none fun u hu => ?_).bind_pure _)⟩
    obtain ⟨hasc, hdesc⟩ := hF' u hu
    split <;> simp_all
  · simp only [List.mem_cons, List.not_mem_nil, or_false] at hd
    rcases hd with rfl | rfl
    · refine ⟨⟨e, .asc⟩, hexpr.then ((accepts_takeMap (t := ⟨.keyword .asc, 0⟩) ?_).bind_pure _)⟩
      rfl
    · refine ⟨⟨e, .desc⟩, hexpr.then ((accepts_takeMap (t := ⟨.keyword .desc, 0⟩) ?_).bind_pure _)⟩
      rfl

theorem accepts_limitClause {w : List Token} (h : Opt Limit w) (hfree : TestsLast w)
    (hF : ∀ x, F x → Closes 0 x)
    (hF' : ∀ t, F (some t) → t ≠ .keyword .limit ∧ t ≠ .comma ∧ t ≠ .keyword .offset) :
    ∃ l, Accepts limitClause (spans w) l F := by
  unfold limitClause
  rcases h with rfl | ⟨w', rfl, e, r, rfl, ⟨first, hfirst⟩, hr⟩
  · have hskip : Accepts (takeIf (.keyword .limit)) (spans []) false (Before [] F) :=
      accepts_takeIf_false fun x hx h => (hF' _ (h ▸ hx)).1 rfl
    exact ⟨(none, none), hskip.then (accepts_ite_true rfl (accepts_pure _))⟩
  have hfree' : TestsLast (e ++ r) := hfree.tail
  have hlimit : Accepts (takeIf (.keyword .limit)) (spans [.keyword .limit]) true
      (Before (e ++ r) F) := accepts_takeIf_spans _
  have hends : ∀ x, Before r F x → Closes 0 x := by
    rcases hr with rfl | ⟨t, e', rfl, ht, -⟩
    · exact hF
    · rintro x rfl
      rcases ht with rfl | rfl <;> rfl
  have hexpr : Accepts expression (spans e) first (Before r F) :=
    accepts_expression (by simpa using hfirst) (by simpa using hfree'.left) hends
  rw [← List.singleton_append]
  rcases hr with rfl | ⟨t, e', rfl, ht, ⟨second, hsecond⟩⟩
  · refine ⟨(none, some first), hlimit.then (accepts_ite_false rfl (hexpr.then ?_))⟩
    have hnoComma : Accepts (takeIf .comma) (spans []) false (Before [] F) :=
      accepts_takeIf_false fun x hx h => (hF' _ (h ▸ hx)).2.1 rfl
    have hnoOffset : Accepts (takeIf (.keyword .offset)) (spans []) false (Before [] F) :=
      accepts_takeIf_false fun x hx h => (hF' _ (h ▸ hx)).2.2 rfl
    exact hnoComma.then (accepts_ite_false rfl (hnoOffset.then (accepts_ite_false rfl (accepts_pure _))))
  · have hexpr' : Accepts expression (spans e') second F :=
      accepts_expression (by simpa using hsecond) (by simpa using hfree'.right.tail) hF
    rcases ht with rfl | rfl
    · have hcomma : Accepts (takeIf .comma) (spans [.comma]) true (Before e' F) :=
        accepts_takeIf_spans _
      exact ⟨(some first, some second), hlimit.then (accepts_ite_false rfl (hexpr.then
        (hcomma.then (accepts_ite_true rfl (hexpr'.bind_pure _)))))⟩
    · have hnoComma : Accepts (takeIf .comma) (spans []) false (Before (.keyword .offset :: e') F) :=
        accepts_takeIf_false fun x hx h => by cases hx; cases h
      have hoffset : Accepts (takeIf (.keyword .offset)) (spans [.keyword .offset]) true
          (Before e' F) := accepts_takeIf_spans _
      exact ⟨(some second, some first), hlimit.then (accepts_ite_false rfl (hexpr.then (hnoComma.then
        (accepts_ite_false rfl (hoffset.then (accepts_ite_true rfl (hexpr'.bind_pure _)))))))⟩


/-- A clause of one expression, then the rest of the rule. -/
theorem accepts_someExpression {K : Option Expr → Grammar β} {w rest : List Token}
    (hw : Expression w) (hfree : TestsLast w) (hF : ∀ x, Before rest F x → Closes 0 x)
    (hK : ∀ a, ∃ b, Accepts (K a) (spans rest) b F) :
    ∃ b, Accepts (some <$> expression >>= K) (spans (w ++ rest)) b F := by
  obtain ⟨e, he⟩ := hw
  have hexpr : Accepts expression (spans w) e (Before rest F) :=
    accepts_expression (by simpa using he) (by simpa using hfree) hF
  obtain ⟨b, hb⟩ := hK (some e)
  exact ⟨b, (hexpr.map some).then hb⟩

/-- `BY` and a list with commas between, then the rest of the rule. -/
theorem accepts_byList {X : Grammar α} {K : List α → Grammar β} {w rest : List Token}
    (hlist : ∃ vs, Accepts (sepBy1 X .comma) (spans w) vs (Before rest F))
    (hK : ∀ a, ∃ b, Accepts (K a) (spans rest) b F) :
    ∃ b, Accepts (expect (.keyword .by) >>= fun _ => sepBy1 X .comma >>= K)
      (spans (.keyword .by :: w ++ rest)) b F := by
  obtain ⟨vs, hvs⟩ := hlist
  obtain ⟨b, hb⟩ := hK vs
  have hby : Accepts (expect (.keyword .by)) (spans [.keyword .by]) () (Before (w ++ rest) F) :=
    accepts_expect_spans _
  rw [List.cons_append, ← List.singleton_append]
  exact ⟨b, hby.then (hvs.then hb)⟩

/-- A query reads its clauses in their order, each optional but the items, when what follows
it is `;` or the end. -/
theorem accepts_select {w : List Token} (h : Query w) (hfree : TestsLast w)
    (hF : ∀ x, F x → Heads [.semicolon] x) : ∃ q, Accepts select (spans w) q F := by
  obtain ⟨d, items, tables, filter, groups, having, orders, limit, rfl, hd, hitems, htables,
    hfilter, hgroups, hhaving, horders, hlimit⟩ := h
  simp only [List.cons_append, List.append_assoc] at hfree ⊢
  -- each clause is a piece of the query, so no null test in it is followed by an operator
  have hfClauses := hfree.tail.right
  have hfItems := hfClauses.left
  have hfTables := hfClauses.right.left
  have hfFilter := hfClauses.right.right.left
  have hfGroups := hfClauses.right.right.right.left
  have hfHaving := hfClauses.right.right.right.right.left
  have hfOrders := hfClauses.right.right.right.right.right.left
  have hfLimit := hfClauses.right.right.right.right.right.right
  have hOrders : ∀ x, Before limit F x → Heads [.keyword .limit, .semicolon] x := by
    simpa using before_optAfter_heads hlimit (G := F) fun x (hx : Before [] F x) => hF x hx
  have hHaving := before_optAfter_heads horders hOrders
  have hGroups := before_optAfter_heads hhaving hHaving
  have hFilter := before_optAfter_heads hgroups hGroups
  have hTables := before_optAfter_heads hfilter hFilter
  have hItems := before_optAfter_heads htables hTables
  have hselect : Accepts (expect (.keyword .select)) (spans [.keyword .select]) ()
      (Before (d ++ (items ++ (tables ++ (filter ++ (groups ++ (having ++ (orders ++ limit)))))))
        F) :=
    accepts_expect_spans _
  obtain ⟨distinct, hdistinct⟩ : ∃ b, Accepts (takeIf (.keyword .distinct)) (spans d) b
      (Before (items ++ (tables ++ (filter ++ (groups ++ (having ++ (orders ++ limit)))))) F) := by
    rcases hd with rfl | rfl
    · refine ⟨false, accepts_takeIf_false fun x hx h => ?_⟩
      obtain ⟨t, w', hw', ht⟩ := SepBy1.head (fun v ⟨ew, e, al, hv, ⟨n, _, he⟩, _⟩ => by
        obtain ⟨t, w', rfl, ht⟩ := he.head_ne_keyword (k := .distinct) (by decide)
        exact ⟨t, w' ++ al, by simp [hv], ht⟩) hitems
      rw [hw'] at hx
      cases hx
      exact ht (Option.some.inj h)
    · exact ⟨true, accepts_takeIf_spans _⟩
  obtain ⟨vs, hvs⟩ : ∃ vs, Accepts (sepBy1 selectItem .comma) (spans items) vs
      (Before (tables ++ (filter ++ (groups ++ (having ++ (orders ++ limit))))) F) :=
    accepts_sepBy1 (fun v hv => accepts_selectItem hv.1 hv.2
        (fun x hx => (heads_sep hItems x hx).closes (by decide))
        (fun t ht => (heads_sep hItems _ ht).of (P := fun t => t ≠ .keyword .as ∧ t.name? = none)
          (by decide) t rfl))
      (fun x hx h => absurd (hItems x hx _ h) (by decide)) (SepBy1.testsLast hitems hfItems)
  unfold select
  refine hselect.then_exists (hdistinct.then_exists (hvs.then_exists ?_))
  refine accepts_optClause htables (fun w' hw hw' hK => ?_) ?_
    (fun x hx h => absurd (hTables x hx _ h) (by decide))
  · have hfree : TestsLast w' := (hw ▸ hfTables).tail
    obtain ⟨ts, hts⟩ : ∃ ts, Accepts (sepBy1 tableRef .comma) (spans w') ts
        (Before (filter ++ (groups ++ (having ++ (orders ++ limit)))) F) :=
      accepts_sepBy1 (fun v hv => accepts_tableRef hv.1 fun t ht => (heads_sep hTables _ ht).of
          (P := fun t => t ≠ .period ∧ t ≠ .keyword .as ∧ t.name? = none) (by decide) t rfl)
        (fun x hx h => absurd (hTables x hx _ h) (by decide))
        (SepBy1.testsLast hw' hfree)
    obtain ⟨b, hb⟩ := hK ts
    exact ⟨b, hts.then hb⟩
  intro tables
  refine accepts_optClause hfilter (fun w' hw hw' hK => ?_) ?_
    (fun x hx h => absurd (hFilter x hx _ h) (by decide))
  · exact accepts_someExpression hw' (hw ▸ hfFilter).tail
      (fun x hx => (hFilter x hx).closes (by decide)) hK
  intro filter
  refine accepts_optClause hgroups (fun w' hw hw' hK => ?_) ?_
    (fun x hx h => absurd (hGroups x hx _ h) (by decide))
  · obtain ⟨w'', rfl, hw''⟩ := hw'
    have hfree : TestsLast w'' := (hw ▸ hfGroups).tail.tail
    refine accepts_byList ?_ hK
    exact accepts_sepBy1 (fun v ⟨⟨e, he⟩, hv⟩ => ⟨e, accepts_expression (by simpa using he)
        (by simpa using hv) (fun x hx => (heads_sep hGroups x hx).closes (by decide))⟩)
      (fun x hx h => absurd (hGroups x hx _ h) (by decide))
      (SepBy1.testsLast hw'' hfree)
  intro groupBy
  refine accepts_optClause hhaving (fun w' hw hw' hK => ?_) ?_
    (fun x hx h => absurd (hHaving x hx _ h) (by decide))
  · exact accepts_someExpression hw' (hw ▸ hfHaving).tail
      (fun x hx => (hHaving x hx).closes (by decide)) hK
  intro having
  refine accepts_optClause horders (fun w' hw hw' hK => ?_) ?_
    (fun x hx h => absurd (hOrders x hx _ h) (by decide))
  · obtain ⟨w'', rfl, hw''⟩ := hw'
    have hfree : TestsLast w'' := (hw ▸ hfOrders).tail.tail
    refine accepts_byList ?_ hK
    exact accepts_sepBy1 (fun v hv => accepts_orderItem hv.1 hv.2
        (fun x hx => (heads_sep hOrders x hx).closes (by decide))
        (fun t ht => (heads_sep hOrders _ ht).of
          (P := fun t => t ≠ .keyword .asc ∧ t ≠ .keyword .desc) (by decide) t rfl))
      (fun x hx h => absurd (hOrders x hx _ h) (by decide))
      (SepBy1.testsLast hw'' hfree)
  intro orderBy
  obtain ⟨⟨offset, limitValue⟩, hl⟩ := accepts_limitClause hlimit hfLimit
    (fun x hx => (hF x hx).closes (by decide))
    (fun t ht => (hF _ ht).of
      (P := fun t => t ≠ .keyword .limit ∧ t ≠ .comma ∧ t ≠ .keyword .offset) (by decide) t rfl)
  exact ⟨_, hl.bind_pure _⟩


/-! ## The tail -/

theorem find?_optionNames {w n : String} (hw : Text.equalsIgnoringAsciiCase w n = true)
    (hn : n ∈ optionNames) :
    optionNames.find? (fun x => Text.equalsIgnoringAsciiCase x w) = some n := by
  have hp : (fun x => Text.equalsIgnoringAsciiCase x w) = fun x => Text.equalsIgnoringAsciiCase x n := by
    funext x
    simp only [Text.equalsIgnoringAsciiCase, beq_iff_eq] at hw ⊢
    rw [hw]
  rw [hp]
  simp only [optionNames, List.mem_cons, List.not_mem_nil, or_false] at hn
  rcases hn with rfl | rfl | rfl | rfl | rfl | rfl | rfl | rfl <;> decide

theorem find?_optionNames_none {w : String}
    (hw : ∀ n ∈ optionNames, Text.equalsIgnoringAsciiCase w n = false) :
    optionNames.find? (fun x => Text.equalsIgnoringAsciiCase x w) = none := by
  rw [List.find?_eq_none]
  intro x hx
  have h := hw x hx
  simp only [Text.equalsIgnoringAsciiCase, beq_eq_false_iff_ne, ne_eq] at h
  simp only [Text.equalsIgnoringAsciiCase, beq_iff_eq]
  exact fun h' => h h'.symm

/-- The name of a table option is read whole; no lookahead past it is needed. -/
theorem accepts_optionName {n : List Token} (h : OptionName n) :
    ∃ s, Accepts optionName (spans n) (some s) F := by
  have hword : ∀ {t : Token} {m : String}, t.isWord m → ∃ w, t = .ident w ∧
      Text.equalsIgnoringAsciiCase w m = true := fun {t m} ht => by
    cases t <;> simp_all [Token.isWord]
  have hcharset : ∀ {c : List Token}, CharsetName c → ∀ b : Bool, ∃ s,
      Accepts optionName (spans ((if b then [.keyword .default] else []) ++ c)) (some s) F := by
    rintro c (⟨t, rfl, ht | ht⟩ | ⟨t, u, rfl, ht, hu⟩) b
    · obtain ⟨w, rfl, hw⟩ := hword ht
      refine ⟨"CHARSET", fun rs stop _ => ?_⟩
      cases b <;> simp [optionName, takeWordOf, run_bind, run_takeIf, run_takeMap,
        find?_optionNames hw (by decide : "CHARSET" ∈ optionNames)]
    · obtain ⟨w, rfl, hw⟩ := hword ht
      refine ⟨"COLLATE", fun rs stop _ => ?_⟩
      cases b <;> simp [optionName, takeWordOf, run_bind, run_takeIf, run_takeMap,
        find?_optionNames hw (by decide : "COLLATE" ∈ optionNames)]
    · obtain ⟨w, rfl, hw⟩ := hword ht
      refine ⟨"CHARSET", fun rs stop _ => ?_⟩
      cases b <;> simp [optionName, takeWordOf, run_bind, run_takeIf, run_takeMap, run_takeWord, hu,
        find?_optionNames hw (by decide : "CHARACTER" ∈ optionNames)]
  rcases h with ⟨t, rfl, m, hm, ht⟩ | hc | ⟨c, rfl, hc⟩
  · obtain ⟨w, rfl, hw⟩ := hword ht
    refine ⟨m, fun rs stop _ => ?_⟩
    simp only [List.mem_cons, List.not_mem_nil, or_false] at hm
    rcases hm with rfl | rfl | rfl | rfl | rfl <;>
      simp [optionName, takeWordOf, run_bind, run_takeIf, run_takeMap,
        find?_optionNames hw (by decide)]
  · simpa using hcharset hc false
  · simpa using hcharset hc true


theorem accepts_optionName_none
    (hF : ∀ t, F (some t) → t ≠ .keyword .default ∧ ∀ n ∈ optionNames, t.isWord n = false) :
    Accepts optionName [] none F := by
  intro rs stop hf
  obtain ⟨x, -, hnext, hx⟩ := Cursor.peek_of_follows hf
  cases x with
  | none => simp [optionName, takeWordOf, run_bind, run_takeIf, run_takeMap, hnext]
  | some t =>
      obtain ⟨hdef, hwords⟩ := hF t hx
      cases t with
      | ident w =>
          simp [optionName, takeWordOf, run_bind, run_takeIf, run_takeMap, hnext,
            find?_optionNames_none fun n hn => (by simpa [Token.isWord] using hwords n hn)]
      | _ => simp_all [optionName, takeWordOf, run_bind, run_takeIf, run_takeMap]

/-- The value of an option is the text of the one token after `=`. -/
theorem accepts_optionValue (t : Token) : Accepts optionValue (spans [t]) t.literal F := by
  have htake : Accepts takeAny [⟨t, 0⟩] (some t) F := accepts_takeMap rfl
  unfold optionValue
  exact accepts_look_cons looks_peek (htake.bind_pure fun _ => t.literal)

theorem OptionName.head {n : List Token} (h : OptionName n) :
    ∃ t w, n = t :: w ∧ (t = .keyword .default ∨ ∃ m ∈ optionNames, t.isWord m) := by
  rcases h with ⟨t, rfl, m, hm, ht⟩ | hc | ⟨c, rfl, -⟩
  · refine ⟨t, [], rfl, .inr ⟨m, ?_, ht⟩⟩
    simp only [List.mem_cons, List.not_mem_nil, or_false] at hm
    rcases hm with rfl | rfl | rfl | rfl | rfl <;> decide
  · rcases hc with ⟨t, rfl, ht | ht⟩ | ⟨t, u, rfl, ht, -⟩
    · exact ⟨t, [], rfl, .inr ⟨"CHARSET", by decide, ht⟩⟩
    · exact ⟨t, [], rfl, .inr ⟨"COLLATE", by decide, ht⟩⟩
    · exact ⟨t, [u], rfl, .inr ⟨"CHARACTER", by decide, ht⟩⟩
  · exact ⟨_, c, rfl, .inl rfl⟩

theorem TableOption.head {o : List Token} (h : TableOption o) :
    ∃ t w, o = t :: w ∧ (t = .keyword .default ∨ ∃ m ∈ optionNames, t.isWord m) := by
  obtain ⟨n, v, rfl, hn⟩ := h
  obtain ⟨t, w, rfl, ht⟩ := OptionName.head hn
  exact ⟨t, _, rfl, ht⟩

/-- A round of the tail reads a table option whole, and keeps the partitioning. -/
theorem accepts_tailOption (stmt : Statement) {o : List Token} (h : TableOption o) :
    ∃ stmt', stmt'.partitioning = stmt.partitioning ∧
      Accepts (tailClause stmt) (spans o) (.inr stmt') F := by
  obtain ⟨n, v, rfl, hn⟩ := h
  obtain ⟨s, hs⟩ := accepts_optionName (F := Before [.equal, v] F) hn
  have hequal : Accepts (expect .equal) (spans [.equal]) () (Before [v] F) :=
    accepts_expect_spans _
  refine ⟨{ stmt with options := stmt.options.insert s v.literal }, rfl, ?_⟩
  unfold tailClause
  exact hs.then (hequal.then ((accepts_optionValue v).bind_pure _))

/-- Partitioning after `PARTITION`: `BY KEY`, the columns in parentheses and the count if one
follows. -/
theorem accepts_keyPartitioning {cols count : List Token} (hcols : SepBy1 QualifiedName .comma cols)
    (hcount : Opt (fun w => ∃ t e, w = t :: e ∧ t.isWord "PARTITIONS" ∧ Expression e) count)
    (hfree : TestsLast count) (hF : ∀ x, F x → Closes 0 x)
    (hF' : ∀ t, F (some t) → t.isWord "PARTITIONS" = false) :
    ∃ kp, Accepts keyPartitioning
      (spans (.keyword .by :: .keyword .key :: .openParen :: cols ++ .closeParen :: count)) kp F := by
  obtain ⟨columns, hcolumns⟩ : ∃ cs, Accepts (sepBy1 qualifiedName .comma) (spans cols) cs
      (Before (.closeParen :: count) F) :=
    accepts_sepBy1 (fun v hv => accepts_qualifiedName hv fun x hx => by
        rcases hx with rfl | rfl <;> simp)
      (fun x hx => by cases hx; simp) hcols
  obtain ⟨kp, hkp⟩ : ∃ kp, Accepts (takeWord "PARTITIONS" >>= fun b =>
      if b = true then some <$> expression >>= fun p => pure (⟨columns, p⟩ : KeyPartitioning)
      else pure none >>= fun p => pure ⟨columns, p⟩) (spans count) kp F := by
    rcases hcount with rfl | ⟨t, e, rfl, ht, ⟨ex, hex⟩⟩
    · have hnone : Accepts (takeWord "PARTITIONS") (spans []) false (Before [] F) :=
        accepts_takeWord_false hF'
      exact ⟨_, hnone.then (accepts_ite_false rfl ((accepts_pure none).bind_pure _))⟩
    · have hparts : Accepts (takeWord "PARTITIONS") (spans [t]) true (Before e F) :=
        accepts_takeWord (t := ⟨t, 0⟩) ht
      have hexpr : Accepts expression (spans e) ex F :=
        accepts_expression (by simpa using hex) (by simpa using hfree.tail) hF
      exact ⟨_, hparts.then (accepts_ite_true rfl ((hexpr.map some).bind_pure _))⟩
  obtain ⟨t, w', rfl, ht⟩ := SepBy1.head (C := fun t => t ≠ .closeParen)
    (fun v hv => SepBy1.head (fun u ⟨t, hu, ht⟩ => ⟨t, [], hu, by
      rintro rfl
      cases ht⟩) hv) hcols
  have hby : Accepts (expect (.keyword .by)) (spans [.keyword .by]) ()
      (Before (.keyword .key :: .openParen :: t :: w' ++ .closeParen :: count) F) :=
    accepts_expect_spans _
  have hkey : Accepts (takeIf (.keyword .key)) (spans [.keyword .key]) true
      (Before (.openParen :: t :: w' ++ .closeParen :: count) F) :=
    accepts_takeIf_spans _
  have hopen : Accepts (expect .openParen) (spans [.openParen]) ()
      (Before (t :: w' ++ .closeParen :: count) F) := accepts_expect_spans _
  have hclose : Accepts (expect .closeParen) (spans [.closeParen]) () (Before count F) :=
    accepts_expect_spans _
  unfold keyPartitioning
  exact ⟨kp, hby.then (hkey.then (accepts_ite_false rfl (hopen.then (accepts_look_cons looks_peek
    (accepts_ite_false (by simpa using ht) (hcolumns.then (hclose.then hkp)))))))⟩


/-- A round of the tail reads the partitioning whole, where none came before. -/
theorem accepts_tailPartition {stmt : Statement} {p : List Token} (h : Partitioning p)
    (hnone : stmt.partitioning = none) (hfree : TestsLast p) (hF : ∀ x, F x → Closes 0 x)
    (hF' : ∀ t, F (some t) → t.isWord "PARTITIONS" = false) :
    ∃ stmt', Accepts (tailClause stmt) (spans p) (.inr stmt') F := by
  obtain ⟨t, cols, count, rfl, ht, hcols, hcount⟩ := h
  obtain ⟨kp, hkp⟩ := accepts_keyPartitioning hcols hcount hfree.right.tail hF hF'
  have hname : Accepts optionName (spans [])  none
      (Before (t :: .keyword .by :: .keyword .key :: .openParen :: cols ++ .closeParen :: count) F) :=
    accepts_optionName_none fun u hu => by
      cases hu
      refine ⟨Token.ne_of_isWord ht (by simp), fun n hn => ?_⟩
      rw [Token.isWord_eq_of_isWord ht]
      simp only [optionNames, List.mem_cons, List.not_mem_nil, or_false] at hn
      rcases hn with rfl | rfl | rfl | rfl | rfl | rfl | rfl | rfl <;> decide
  have htake : Accepts takeAny (spans [t]) (some t)
      (Before (.keyword .by :: .keyword .key :: .openParen :: cols ++ .closeParen :: count) F) :=
    accepts_takeMap (t := ⟨t, 0⟩) rfl
  unfold tailClause
  exact ⟨_, hname.then (accepts_look_cons (looks_peekWord _) (accepts_ite_true (by simpa using ht)
    (accepts_ite_false (by simp [hnone]) (htake.then (hkp.bind_pure _)))))⟩

theorem accepts_tailEnd {stmt : Statement}
    (hF : ∀ t, F (some t) → t ≠ .keyword .default ∧ (∀ n ∈ optionNames, t.isWord n = false) ∧
      t.isWord "PARTITION" = false) :
    Accepts (tailClause stmt) [] (.inl stmt) F := by
  have hnone : Accepts optionName [] none F :=
    accepts_optionName_none fun t ht => ⟨(hF t ht).1, (hF t ht).2.1⟩
  unfold tailClause
  exact hnone.bind (accepts_look_nil (looks_peekWord _) fun x hx => accepts_ite_false (by
      cases x with
      | none => rfl
      | some t => simpa using (hF t hx).2.2) (accepts_pure _))
    (follows_of_nil fun _ hx => hx)

/-- Table options, round by round, keep the partitioning as it was. -/
theorem accepts_tableOptions (rest : List Token) :
    ∀ {os : List (List Token)} (stmt : Statement), (∀ o ∈ os, TableOption o) →
      (∀ stmt' : Statement, stmt'.partitioning = stmt.partitioning →
        ∃ c, Accepts (loop tailClause id stmt') (spans rest) c F) →
      ∃ c, Accepts (loop tailClause id stmt) (spans (os.flatten ++ rest)) c F
  | [], stmt, _, hk => hk stmt rfl
  | o :: os, stmt, hall, hk => by
      obtain ⟨stmt', hpart, hround⟩ := accepts_tailOption (F := Before (os.flatten ++ rest) F)
        stmt (hall o List.mem_cons_self)
      obtain ⟨c, hc⟩ := accepts_tableOptions rest stmt'
        (fun o ho => hall o (List.mem_cons_of_mem _ ho)) fun s h => hk s (h.trans hpart)
      obtain ⟨t, w, rfl, -⟩ := TableOption.head (hall _ List.mem_cons_self)
      refine ⟨c, ?_⟩
      rw [List.flatten_cons, List.append_assoc]
      exact hround.loop_then (List.cons_ne_nil _ _) hc

/-- The tail: options and at most one partitioning, before the query, `;` or the end. -/
theorem accepts_tail {stmt : Statement} {w : List Token} (h : Tail w)
    (hstmt : stmt.partitioning = none) (hfree : TestsLast w)
    (hF : ∀ x, F x → Heads [.keyword .as, .keyword .select, .semicolon] x) :
    ∃ c, Accepts (loop tailClause id stmt) (spans w) c F := by
  obtain ⟨os₁, p, os₂, rfl, hall, hp⟩ := h
  have hall₁ : ∀ o ∈ os₁, TableOption o := fun o ho => hall o (by simp [ho])
  have hall₂ : ∀ o ∈ os₂, TableOption o := fun o ho => hall o (by simp [ho])
  have hend : ∀ s : Statement, ∃ c, Accepts (loop tailClause id s) (spans []) c F :=
    fun s => ⟨s, accepts_loop_finish (accepts_tailEnd fun t ht => (hF _ ht).of
      (P := fun t => t ≠ .keyword .default ∧ (∀ n ∈ optionNames, t.isWord n = false) ∧
        t.isWord "PARTITION" = false) (by decide) t rfl)⟩
  have hlast : ∀ s : Statement, ∃ c, Accepts (loop tailClause id s) (spans os₂.flatten) c F := by
    intro s
    simpa using accepts_tableOptions [] s hall₂ fun s' _ => hend s'
  rcases hp with rfl | hp
  · simpa using accepts_tableOptions os₂.flatten stmt hall₁ fun s _ => hlast s
  have hafter : ∀ x, Before os₂.flatten F x →
      Closes 0 x ∧ ∀ t, x = some t → t.isWord "PARTITIONS" = false := by
    have h := before_flatten_of (C := fun x => Closes 0 x ∧
        ∀ t, x = some t → t.isWord "PARTITIONS" = false)
      (fun o ho => TableOption.head ho) (fun t ht => ?_) hall₂ fun x (hx : Before [] F x) =>
        ⟨(hF x hx).closes (by decide), (hF x hx).of (by decide)⟩
    · simpa using h
    rcases ht with rfl | ⟨m, hm, ht⟩
    · exact ⟨rfl, fun u hu => by cases hu; rfl⟩
    · obtain ⟨w, rfl⟩ : ∃ w, t = .ident w := by cases t <;> simp_all [Token.isWord]
      refine ⟨rfl, fun u hu => ?_⟩
      cases hu
      rw [Token.isWord_eq_of_isWord ht]
      simp only [optionNames, List.mem_cons, List.not_mem_nil, or_false] at hm
      rcases hm with rfl | rfl | rfl | rfl | rfl | rfl | rfl | rfl <;> decide
  have hmid : ∀ s : Statement, s.partitioning = none →
      ∃ c, Accepts (loop tailClause id s) (spans (p ++ os₂.flatten)) c F := by
    intro s hs
    obtain ⟨s', hround⟩ := accepts_tailPartition hp hs hfree.left.right
      (fun x hx => (hafter x hx).1) fun t ht => (hafter _ ht).2 t rfl
    obtain ⟨c, hc⟩ := hlast s'
    obtain ⟨t, cols, count, rfl, -⟩ := hp
    exact ⟨c, hround.loop_then (List.cons_ne_nil _ _) hc⟩
  obtain ⟨c, hc⟩ := accepts_tableOptions (p ++ os₂.flatten) stmt hall₁
    fun s h => hmid s (h.trans hstmt)
  exact ⟨c, by simpa using hc⟩


/-! ## Statements -/

theorem accepts_rejectOnClause (hF : ∀ t, F (some t) → t ≠ .keyword .on) :
    Accepts rejectOnClause [] () F := by
  unfold rejectOnClause
  refine accepts_look_nil looks_peek fun x hx => accepts_ite_false ?_ (accepts_pure ())
  cases x with
  | none => rfl
  | some t => simpa using hF t hx

theorem Query.head {q : List Token} (h : Query q) : ∃ r, q = .keyword .select :: r := by
  obtain ⟨d, items, tables, filter, groups, having, orders, limit, rfl, -⟩ := h
  exact ⟨_, rfl⟩

theorem accepts_trailingQuery {w : List Token}
    (h : Opt (fun w => ∃ a q, w = a ++ q ∧ Opt (· = [.keyword .as]) a ∧ Query q) w)
    (hfree : TestsLast w) (hF : ∀ x, F x → Heads [.semicolon] x) :
    ∃ q, Accepts trailingQuery (spans w) q F := by
  unfold trailingQuery
  rcases h with rfl | ⟨a, q, rfl, ha, hq⟩
  · have hskip : Accepts (takeIf (.keyword .as)) (spans []) false (Before [] F) :=
      accepts_takeIf_false fun x hx h => absurd (hF x hx _ h) (by decide)
    refine ⟨none, hskip.then (accepts_look_nil looks_peek fun x hx =>
      accepts_ite_false ?_ (accepts_pure none))⟩
    cases x with
    | none => rfl
    | some t =>
        have ht := hF _ hx t rfl
        simp only [List.mem_cons, List.not_mem_nil, or_false] at ht
        simp [ht]
  · obtain ⟨s, hs⟩ := accepts_select hq hfree.right hF
    obtain ⟨r, rfl⟩ := Query.head hq
    rcases ha with rfl | rfl
    · have hskip : Accepts (takeIf (.keyword .as)) (spans []) false
          (Before (.keyword .select :: r) F) := accepts_takeIf_false fun x hx h => by
        subst hx
        cases h
      exact ⟨some s, hskip.then (accepts_look_cons looks_peek (accepts_ite_true rfl
        (hs.bind_pure some)))⟩
    · have has : Accepts (takeIf (.keyword .as)) (spans [.keyword .as]) true
          (Before (.keyword .select :: r) F) := accepts_takeIf_spans _
      exact ⟨some s, has.then (accepts_look_cons looks_peek (accepts_ite_true rfl
        (hs.bind_pure some)))⟩


theorem before_trailingQuery {query : List Token}
    (hquery : Opt (fun w => ∃ a q, w = a ++ q ∧ Opt (· = [.keyword .as]) a ∧ Query q) query)
    (hF : ∀ x, F x → Heads [.semicolon] x) :
    ∀ x, Before query F x → Heads [.keyword .as, .keyword .select, .semicolon] x := by
  rcases hquery with rfl | ⟨a, q, rfl, ha, hq⟩
  · exact fun x hx => (hF x hx).mono (by simp)
  · obtain ⟨r, rfl⟩ := Query.head hq
    rcases ha with rfl | rfl <;> rintro x rfl t ht <;> cases ht <;> simp

/-- The first token of a table option or of a partitioning: `DEFAULT` or a word. -/
def TailHead (x : Option Token) : Prop :=
  ∃ t, x = some t ∧ (t = .keyword .default ∨ ∃ s, t = .ident s)

/-- A tail starts with `DEFAULT` or with a word: a table option or `PARTITION`. -/
theorem Tail.before {tail rest : List Token} (h : Tail tail) :
    ∀ x, Before (tail ++ rest) G x → TailHead x ∨ Before rest G x := by
  obtain ⟨os₁, p, os₂, rfl, hall, hp⟩ := h
  have hword : ∀ t, (t = .keyword .default ∨ ∃ m ∈ optionNames, t.isWord m) →
      TailHead (some t) ∨ Before rest G (some t) := fun t ht => by
    refine .inl ⟨t, rfl, ht.imp_right fun ⟨m, _, hm⟩ => ?_⟩
    cases t <;> simp_all [Token.isWord]
  have h₂ := before_flatten_of (C := fun x => TailHead x ∨ Before rest G x)
    (fun o ho => TableOption.head ho) hword (fun o (ho : o ∈ os₂) => hall o (by simp [ho]))
    fun x hx => .inr hx
  have hp' : ∀ x, Before (p ++ (os₂.flatten ++ rest)) G x → TailHead x ∨ Before rest G x := by
    rcases hp with rfl | ⟨t, cols, count, rfl, ht, -⟩
    · simpa using h₂
    · rintro x rfl
      exact .inl ⟨t, rfl, .inr (by cases t <;> simp_all [Token.isWord])⟩
  have h₁ := before_flatten_of (C := fun x => TailHead x ∨ Before rest G x)
    (fun o ho => TableOption.head ho) hword (fun o (ho : o ∈ os₁) => hall o (by simp [ho])) hp'
  simpa using h₁

/-- What follows the elements: the tail, then the query if one follows. -/
theorem accepts_tableTail (stmt : Statement) {tail query : List Token} (htail : Tail tail)
    (hquery : Opt (fun w => ∃ a q, w = a ++ q ∧ Opt (· = [.keyword .as]) a ∧ Query q) query)
    (hstmt : stmt.partitioning = none) (hfree : TestsLast (tail ++ query))
    (hF : ∀ x, F x → Heads [.semicolon] x) :
    ∃ s, Accepts (tableTail .mysql stmt) (spans (tail ++ query)) s F := by
  have hafter := before_trailingQuery hquery hF
  obtain ⟨s, hs⟩ := accepts_tail htail hstmt hfree.left hafter
  obtain ⟨q, hq⟩ := accepts_trailingQuery hquery hfree.right hF
  have hreject : Accepts rejectOnClause (spans []) () (Before query F) :=
    accepts_rejectOnClause fun t ht => by
      have h := hafter _ ht t rfl
      simp only [List.mem_cons, List.not_mem_nil, or_false] at h
      rcases h with rfl | rfl | rfl <;> simp
  unfold tableTail
  exact ⟨_, hs.then (hreject.then (hq.bind_pure _))⟩


/-- A look at the next token, which is the first of `w` or what follows it. -/
theorem accepts_look {look : Grammar γ} {φ : Option Token → γ} {k : γ → Grammar β} {w : List Token}
    {b : β} (hl : Looks look φ) (h : ∀ x, Before w F x → Accepts (k (φ x)) (spans w) b F) :
    Accepts (look >>= k) (spans w) b F := by
  cases w with
  | nil => exact accepts_look_nil hl h
  | cons t w => exact accepts_look_cons hl (h (some t) rfl)

/-- A table definition without its end, before `;` or the end. -/
theorem accepts_createTable {tmp ine name elems tail query : List Token}
    (htmp : Opt (· = [.keyword .temporary]) tmp)
    (hine : Opt (· = [.keyword .if, .keyword .not, .keyword .exists]) ine)
    (hname : QualifiedName name) (helems : Opt (Parens (SepBy1 MySql.Element .comma)) elems)
    (htail : Tail tail)
    (hquery : Opt (fun w => ∃ a q, w = a ++ q ∧ Opt (· = [.keyword .as]) a ∧ Query q) query)
    (hfree : TestsLast (elems ++ tail ++ query)) (hF : ∀ x, F x → Heads [.semicolon] x) :
    ∃ s, Accepts (createTable .mysql true)
      (spans (.keyword .create :: tmp ++ .keyword .table :: ine ++ name ++ elems ++ tail ++ query))
      s F := by
  simp only [List.cons_append, List.append_assoc] at hfree ⊢
  have htailNext : ∀ x, Before (tail ++ query) F x → x ≠ some .period ∧ x ≠ some .openParen := by
    intro x hx
    rcases Tail.before htail x hx with ⟨t, rfl, rfl | ⟨s, rfl⟩⟩ | hx
    · simp
    · simp
    · have h := before_trailingQuery hquery hF x hx
      exact ⟨fun h' => absurd (h _ h') (by decide), fun h' => absurd (h _ h') (by decide)⟩
  have hcreate : Accepts (expect (.keyword .create)) (spans [.keyword .create]) ()
      (Before (tmp ++ .keyword .table :: (ine ++ (name ++ (elems ++ (tail ++ query))))) F) :=
    accepts_expect_spans _
  obtain ⟨temporary, htemporary⟩ : ∃ b, Accepts (takeIf (.keyword .temporary)) (spans tmp) b
      (Before (.keyword .table :: (ine ++ (name ++ (elems ++ (tail ++ query))))) F) := by
    rcases htmp with rfl | rfl
    · exact ⟨false, accepts_takeIf_false fun x hx h => by subst hx; cases h⟩
    · exact ⟨true, accepts_takeIf_spans _⟩
  have htable : Accepts (expect (.keyword .table)) (spans [.keyword .table]) ()
      (Before (ine ++ (name ++ (elems ++ (tail ++ query)))) F) :=
    accepts_expect_spans _
  unfold createTable
  extract_lets afterTail afterCreate
  simp only [↓reduceIte]
  refine hcreate.then_exists (htemporary.then_exists (htable.then_exists ?_))
  extract_lets afterIf
  have hafterIf : ∀ b, ∃ s, Accepts (afterIf b) (spans (name ++ (elems ++ (tail ++ query)))) s F := by
    intro ifNotExists
    have hperiod : ∀ x, Before (elems ++ (tail ++ query)) F x → x ≠ some .period := by
      rcases helems with rfl | ⟨w', rfl, -⟩
      · exact fun x hx => (htailNext x hx).1
      · rintro x rfl
        simp
    obtain ⟨n, hn⟩ := accepts_qualifiedName hname hperiod
    rcases helems with rfl | ⟨w', rfl, hw'⟩
    · obtain ⟨s, hs⟩ := accepts_tableTail { name := n, temporary, ifNotExists } htail hquery rfl
        (by simpa using hfree) hF
      refine ⟨s, hn.then (accepts_look looks_peek fun x hx => accepts_ite_false ?_ hs.pure_bind)⟩
      cases x with
      | none => rfl
      | some t => simpa using (htailNext _ hx).2
    · obtain ⟨els, hels⟩ := accepts_tableElements (F := Before (tail ++ query) F) ⟨w', rfl, hw'⟩
        hfree.left
      obtain ⟨s, hs⟩ := accepts_tableTail { name := n, temporary, ifNotExists, elements := els }
        htail hquery rfl hfree.right hF
      exact ⟨s, hn.then (accepts_look_cons looks_peek (accepts_ite_true rfl
        (hels.then hs.pure_bind)))⟩
  rcases hine with rfl | rfl
  · obtain ⟨s, hs⟩ := hafterIf false
    obtain ⟨t, w', hw, ht⟩ := SepBy1.head (C := fun t => t ≠ .keyword .if)
      (fun v ⟨t, hv, ht⟩ => ⟨t, [], hv, by rintro rfl; cases ht⟩) hname
    have hskip : Accepts (takeIf (.keyword .if)) (spans []) false
        (Before (name ++ (elems ++ (tail ++ query))) F) :=
      accepts_takeIf_false fun x hx h => by
        rw [hw] at hx
        cases hx
        exact ht (Option.some.inj h)
    exact ⟨s, hskip.then (accepts_ite_false rfl hs.pure_bind)⟩
  · obtain ⟨s, hs⟩ := hafterIf true
    have hif : Accepts (takeIf (.keyword .if)) (spans [.keyword .if]) true
        (Before (.keyword .not :: .keyword .exists :: (name ++ (elems ++ (tail ++ query)))) F) :=
      accepts_takeIf_spans _
    have hnot : Accepts (expect (.keyword .not)) (spans [.keyword .not]) ()
        (Before (.keyword .exists :: (name ++ (elems ++ (tail ++ query)))) F) :=
      accepts_expect_spans _
    have hexists : Accepts (expect (.keyword .exists)) (spans [.keyword .exists]) ()
        (Before (name ++ (elems ++ (tail ++ query))) F) :=
      accepts_expect_spans _
    exact ⟨s, hif.then (accepts_ite_true rfl (hnot.then (hexists.then hs.pure_bind)))⟩


/-- Every token sequence the grammar derives, with no null test followed by a binary operator,
is read whole, to the end. -/
theorem accepts_statement {w : List Token} (h : CreateTable w) (hfree : TestsLast w) :
    ∃ st, Accepts (statement .mysql) (spans w) st (· = none) := by
  obtain ⟨tmp, ine, name, elems, tail, query, semi, rfl, htmp, hine, hname, helems, htail, hquery,
    hsemi⟩ := h
  have hF : ∀ x, Before semi (· = none) x → Heads [.semicolon] x := by
    rcases hsemi with rfl | rfl
    · rintro x rfl
      exact heads_none _
    · rintro x rfl t ht
      cases ht
      exact List.mem_cons_self
  obtain ⟨s, hs⟩ := accepts_createTable htmp hine hname helems htail hquery
    (hfree.factor ⟨.keyword .create :: tmp ++ .keyword .table :: ine ++ name, semi, by simp⟩) hF
  obtain ⟨semicolon, hsemicolon⟩ : ∃ b, Accepts (takeIf .semicolon) (spans semi) b
      (· = none) := by
    rcases hsemi with rfl | rfl
    · exact ⟨false, accepts_takeIf_false fun x hx h => by subst hx; cases h⟩
    · exact ⟨true, accepts_takeIf_spans _⟩
  have hend : Accepts (peek >>= fun x => if x.isSome = true then expected "end of statement"
      else pure s) [] s (· = none) :=
    accepts_look_nil looks_peek fun x hx => by
      subst hx
      exact accepts_ite_false rfl (accepts_pure s)
  have hrest : Accepts (takeIf .semicolon >>= fun _ => peek >>= fun x =>
      if x.isSome = true then expected "end of statement" else pure s) (spans semi ++ []) s
      (· = none) :=
    hsemicolon.bind hend (follows_of_nil fun _ hx => hx)
  rw [List.append_nil] at hrest
  unfold statement
  exact ⟨s, hs.then hrest⟩

end Grammar

end SqlDdl
