import SqlDdl.Proofs.TableHead
import SqlDdl.Proofs.TableSteps

/-!
# Where an unsupported construct is reported

Three rules report a construct that the parser knows but does not support: a table constraint
after `CONSTRAINT [name]` that the dialect does not know (`tableConstraint`), a partitioning other
than `PARTITION BY KEY` (`keyPartitioning`), and an `ON` clause after a table definition
(`rejectOnClause`). Every other failure is a syntax error or a lex error.

`Confined s U g` says that `g`, run from a place in the stream `s`, ends at a place in `s` or
reports only the unsupported constructs that `U` admits. Every primitive step but `unsupported`
keeps it, whatever `U`, so it is a `Walk` (`confinement`) and the rules that read none of the
three keep it for every `U`. A table element is confined wherever `U` admits an unknown
constraint after `CONSTRAINT [name]` in `s` (`confined_tableElement`), and so is the start of a
table definition (`confined_tableStart`). The clauses of the tail are taken apart at their error
instead (`tailClause_unsupported`, `tailEnd_unsupported`), since what they report depends on the
head before them.
-/

namespace SqlDdl

/-- An error that reports no unsupported construct, or one that `U` admits. -/
def ParseError.Admitted (U : String → Option Token → Nat → Prop) : ParseError → Prop
  | .unsupported construct found offset => U construct found offset
  | _ => True

namespace Cursor

variable {c : Cursor} {U : String → Option Token → Nat → Prop}

theorem peek_error_admitted {e : ParseError} (h : c.peek = .error e) : e.Admitted U := by
  unfold peek at h
  split at h <;> cases h
  trivial

theorem expectedHere_admitted (what : String) : (c.expectedHere what).Admitted U := by
  unfold expectedHere
  split
  · trivial
  · next e he => exact peek_error_admitted he

end Cursor

namespace Grammar

variable {α β σ : Type} {s : TokenStream} {U : String → Option Token → Nat → Prop}

/-- Run from a place in `s`, `g` ends at a place in `s`, or fails with an error that `U`
admits. -/
def Confined (s : TokenStream) (U : String → Option Token → Nat → Prop) (g : Grammar α) : Prop :=
  Sound s (fun _ => True) g ∧ ∀ c, c.In s → ∀ e, g.run c = .error e → e.Admitted U

theorem Sound.in_of_ok {X : ParseError → Prop} {g : Grammar α} (h : Sound s X g) {c c' : Cursor}
    {a : α} (hc : c.In s) (hrun : g.run c = .ok (a, c')) : c'.In s := by
  have hsafe := h c hc
  rw [hrun] at hsafe
  exact hsafe

theorem Confined.in_of_ok {g : Grammar α} (h : Confined s U g) {c c' : Cursor} {a : α}
    (hc : c.In s) (hrun : g.run c = .ok (a, c')) : c'.In s :=
  h.1.in_of_ok hc hrun

/-- The error of a confined step from the start of a stream. -/
theorem Confined.admitted {g : Grammar α} {c : Cursor} {e : ParseError}
    (h : Confined ⟨c.rest, c.stop⟩ U g) (hrun : g.run c = .error e) : e.Admitted U :=
  h.2 c ⟨List.suffix_refl _, rfl⟩ e hrun

theorem confined_pure (a : α) : Confined s U (pure a) :=
  ⟨sound_pure a, fun _ _ _ h => by cases h⟩

theorem Confined.bind {g : Grammar α} {f : α → Grammar β} (hg : Confined s U g)
    (hf : ∀ a, Confined s U (f a)) : Confined s U (g >>= f) := by
  refine ⟨hg.1.bind fun a => (hf a).1, fun c hc e h => ?_⟩
  rw [run_bind] at h
  rcases hrun : g.run c with e' | ⟨a, c₁⟩ <;> rw [hrun] at h
  · cases h
    exact hg.2 c hc _ hrun
  · exact (hf a).2 c₁ (hg.in_of_ok hc hrun) e h

theorem confined_fail {e : ParseError} (he : e.Admitted U) : Confined s U (fail e : Grammar α) :=
  ⟨sound_fail (.inr trivial), fun _ _ _ h => by cases h; exact he⟩

theorem confined_expected (what : String) : Confined s U (expected what : Grammar α) :=
  ⟨sound_expected what, fun c _ _ h => by cases h; exact c.expectedHere_admitted what⟩

theorem confined_peek : Confined s U peek := by
  refine ⟨sound_peek, fun c _ e h => ?_⟩
  rw [run_peek] at h
  split at h
  · cases h
  · next e' he => cases h; exact Cursor.peek_error_admitted he

theorem confined_offset : Confined s U offset :=
  ⟨sound_offset, fun _ _ _ h => by cases h⟩

theorem confined_takeMap (f : Token → Option β) : Confined s U (takeMap f) := by
  refine ⟨sound_takeMap f, fun c _ e h => ?_⟩
  rw [run_takeMap] at h
  split at h <;> cases h

theorem confined_peekWord (w : String) : Confined s U (peekWord w) :=
  ⟨sound_peekWord w, fun _ _ _ h => by cases h⟩

theorem confined_peekName : Confined s U peekName :=
  ⟨sound_peekName, fun _ _ _ h => by cases h⟩

/-- A repetition reports what its rounds report; the induction is on the tokens left. -/
theorem Confined.loop {round : σ → Grammar (β ⊕ σ)} (h : ∀ st, Confined s U (round st))
    (done : σ → β) (st : σ) : Confined s U (loop round done st) := by
  refine ⟨sound_loop (fun st => (h st).1) done st, fun c hc e hrun => ?_⟩
  induction hn : c.size using Nat.strong_induction_on generalizing c st with
  | _ n ih =>
      rw [run_loop] at hrun
      rcases hr : (round st).run c with e' | ⟨b | st', c'⟩ <;> rw [hr] at hrun
      · cases hrun
        exact (h st).2 c hc _ hr
      · cases hrun
      · dsimp only at hrun
        split at hrun
        · next hlt => exact ih c'.size (hn ▸ hlt) st' c' ((h st).in_of_ok hc hr) hrun rfl
        · cases hrun

/-- Reporting only what `U` admits is a walk of the grammar. -/
def confinement (s : TokenStream) (U : String → Option Token → Nat → Prop) : Walk where
  holds := Confined s U
  pure := confined_pure
  bind hg hf := hg.bind hf
  expected := confined_expected
  peek := confined_peek
  takeMap := confined_takeMap
  peekWord := confined_peekWord
  peekName := confined_peekName
  loop h := Confined.loop h

theorem confined_atom {sub : Nat → Grammar Expr} (hsub : ∀ p, Confined s U (sub p)) :
    Confined s U (atom sub) := by
  unfold atom
  refine confined_peek.bind fun t => ?_
  rcases t with _ | token
  · exact confined_expected _
  refine confined_offset.bind fun n => (confined_takeMap some).bind fun _ => ?_
  split
  case h_2 =>
    split
    · exact confined_pure _
    · exact confined_fail trivial
  case h_7 | h_8 => exact Walk.holds_afterName (I := confinement s U) hsub _
  case h_9 =>
    exact (hsub 0).bind fun _ => ((confinement s U).holds_expect _).bind fun _ => confined_pure _
  case h_10 => exact confined_fail trivial
  all_goals exact confined_pure _

theorem confined_columnOption (col : Column) : Confined s U (columnOption col) := by
  unfold columnOption
  refine confined_offset.bind fun n => (confinement s U).holds_nullability.bind fun r => ?_
  split
  · split
    · exact confined_fail trivial
    · exact confined_pure _
  · exact Walk.holds_otherOption (I := confinement s U) (fun _ => confined_atom) col

theorem confined_columnDef : Confined s U columnDef :=
  Walk.holds_columnDef (I := confinement s U) confined_columnOption

theorem confined_primaryKeyConstraint (name : Option String) :
    Confined s U (primaryKeyConstraint name) :=
  Walk.holds_primaryKeyConstraint (I := confinement s U) (fun _ => confined_atom) name

theorem confined_indexDef : Confined s U indexDef :=
  Walk.holds_indexDef (I := confinement s U) fun _ => confined_atom

theorem not_unsupported_of_confined {g : Grammar α}
    (hg : ∀ s, Confined s (fun _ _ _ => False) g) {c : Cursor} {m : String} {f : Option Token}
    {o : Nat} : g.run c ≠ .error (.unsupported m f o) :=
  fun h => (hg _).admitted h

/-! ## Table constraints -/

/-- The constraints that `d` knows after `CONSTRAINT` and its name: `PRIMARY KEY`, and in MySQL
`KEY` as well. -/
def StartsConstraint : Dialect → Option Token → Bool
  | .generic, t => t == some (.keyword .primary)
  | .mysql, t => t == some (.keyword .primary) || t == some (.keyword .key)

/-- The construct reported for a table constraint that `d` does not know. -/
def unknownConstraint : Dialect → String
  | .generic => "table constraint other than PRIMARY KEY"
  | .mysql => "table constraint other than KEY or PRIMARY KEY"

/-- `rest` is `CONSTRAINT`, then its name if a name follows, then `x`. -/
def AfterConstraintName (rest x : List Spanned) : Prop :=
  ∃ o, rest = ⟨.keyword .constraint, o⟩ :: x ∧ (x.head?.map (·.token) >>= Token.name?) = none ∨
    ∃ t, rest = ⟨.keyword .constraint, o⟩ :: t :: x ∧ t.token.name?.isSome

theorem run_constraintName_after {c : Cursor} {x : List Spanned}
    (h : AfterConstraintName c.rest x) :
    ∃ n, constraintName.run c = .ok (n, .ofTokens x c.stop) := by
  obtain ⟨o, ⟨hrest, hx⟩ | ⟨t, hrest, ht⟩⟩ := h <;> rw [Precedence.Cursor.eq_ofTokens c, hrest] <;>
    unfold constraintName
  · refine ⟨none, ?_⟩
    rw [run_bind, run_takeIf]
    simp only [Cursor.next?_ofTokens, ↓reduceIte, Cursor.advance_ofTokens]
    rw [run_takeMap]
    simp [Cursor.next?, hx]
    rfl
  · obtain ⟨n, hn⟩ := Option.isSome_iff_exists.1 ht
    refine ⟨some n, ?_⟩
    rw [run_bind, run_takeIf]
    simp only [Cursor.next?_ofTokens, ↓reduceIte, Cursor.advance_ofTokens]
    rw [run_takeMap]
    simp [hn]
    rfl

/-- A choice on the next token that reports an unsupported construct unless the token is one `p`
accepts: where `p` refuses it, the report is made here. -/
theorem run_peek_ite_unsupported {c : Cursor} {p : Option Token → Bool} {g : Grammar α}
    {m : String} (hp : p c.next? = false) :
    (peek >>= fun t => if p t then g else unsupported m).run c = .error (c.unsupportedHere m) := by
  rw [run_bind, run_peek]
  rcases hpk : c.peek with e | t
  · simp [Cursor.unsupportedHere, hpk]
  · obtain rfl := Precedence.Cursor.peek_ok hpk
    simp [hp, Cursor.unsupportedHere, hpk]

/-- After `CONSTRAINT [name]`, a token that starts no constraint of `d` is reported as an unknown
table constraint. -/
theorem tableConstraint_unknown {d : Dialect} {c : Cursor} {x : List Spanned}
    (h : AfterConstraintName c.rest x) (hx : StartsConstraint d (x.head?.map (·.token)) = false) :
    (tableConstraint d).run c =
      .error ((Cursor.ofTokens x c.stop).unsupportedHere (unknownConstraint d)) := by
  obtain ⟨n, hname⟩ := run_constraintName_after h
  cases d with
  | generic =>
      unfold tableConstraint
      simp only [liftM_self]
      rw [run_bind, hname]
      exact run_peek_ite_unsupported (p := fun t => t == some (.keyword .primary)) hx
  | mysql =>
      simp only [StartsConstraint, Bool.or_eq_false_iff] at hx
      unfold tableConstraint
      simp only [liftM_self]
      rw [run_bind, hname]
      dsimp only
      rw [run_bind, run_takeIf, if_neg (by simpa [Cursor.next?] using hx.2)]
      exact run_peek_ite_unsupported (p := fun t => t == some (.keyword .primary)) hx.1


theorem run_constraintName (c : Cursor) :
    ∃ n x, constraintName.run c = .ok (n, .ofTokens x c.stop) ∧
      (AfterConstraintName c.rest x ∨ c.next? ≠ some (.keyword .constraint) ∧ x = c.rest) := by
  rcases hc : c.rest with _ | ⟨⟨t, o⟩, r⟩
  · refine ⟨none, [], ?_, .inr ⟨by simp [Cursor.next?, hc], rfl⟩⟩
    unfold constraintName
    rw [run_bind, run_takeIf, if_neg (by simp [Cursor.next?, hc])]
    rw [Precedence.Cursor.eq_ofTokens c, hc]
    rfl
  by_cases ht : t = .keyword .constraint
  · subst ht
    have hafter : ∃ x, AfterConstraintName (⟨.keyword .constraint, o⟩ :: r) x := by
      rcases r with _ | ⟨u, r'⟩
      · exact ⟨[], o, .inl ⟨rfl, rfl⟩⟩
      · cases hu : u.token.name? with
        | none => exact ⟨u :: r', o, .inl ⟨rfl, by simp [hu]⟩⟩
        | some n => exact ⟨r', o, .inr ⟨u, rfl, by simp [hu]⟩⟩
    obtain ⟨x, hx⟩ := hafter
    obtain ⟨n, hn⟩ := run_constraintName_after (c := c) (hc ▸ hx)
    exact ⟨n, x, hn, .inl hx⟩
  · refine ⟨none, (⟨t, o⟩ :: r), ?_, .inr ⟨by simp [Cursor.next?, hc, ht], rfl⟩⟩
    unfold constraintName
    rw [run_bind, run_takeIf, if_neg (by simp [Cursor.next?, hc, ht])]
    rw [Precedence.Cursor.eq_ofTokens c, hc]
    rfl

/-- The converse: such a choice reports an unsupported construct only where `p` refuses the next
token, when the step it takes otherwise reports none. -/
theorem peek_ite_unsupported_of_error {c : Cursor} {p : Option Token → Bool} {g : Grammar α}
    {m m' : String} {f : Option Token} {o : Nat} (hg : ∀ s, Confined s (fun _ _ _ => False) g)
    (h : (peek >>= fun t => if p t then g else unsupported m).run c =
      .error (.unsupported m' f o)) :
    p c.next? = false ∧ ParseError.unsupported m' f o = c.unsupportedHere m := by
  rw [run_bind, run_peek] at h
  rcases hpk : c.peek with e | t <;> rw [hpk] at h
  · cases h
    exact absurd (Cursor.peek_error_admitted (U := fun _ _ _ => False) hpk) id
  · obtain rfl := Precedence.Cursor.peek_ok hpk
    dsimp only at h
    split at h
    · exact absurd h (not_unsupported_of_confined hg)
    · next hp =>
        refine ⟨by simpa using hp, ?_⟩
        rw [run_unsupported] at h
        exact (Except.error.inj h).symm

/-- A table constraint is reported unknown only after `CONSTRAINT [name]`, or where no
`CONSTRAINT` stands, at a token that starts no constraint of `d`. -/
theorem tableConstraint_unsupported {d : Dialect} {c : Cursor} {m : String} {f : Option Token}
    {o : Nat} (h : (tableConstraint d).run c = .error (.unsupported m f o)) :
    ∃ x, (AfterConstraintName c.rest x ∨ c.next? ≠ some (.keyword .constraint) ∧ x = c.rest) ∧
      StartsConstraint d (x.head?.map (·.token)) = false ∧
      ParseError.unsupported m f o =
        (Cursor.ofTokens x c.stop).unsupportedHere (unknownConstraint d) := by
  obtain ⟨n, x, hname, hx⟩ := run_constraintName c
  refine ⟨x, hx, ?_⟩
  cases d with
  | generic =>
      unfold tableConstraint at h
      simp only [liftM_self] at h
      rw [run_bind, hname] at h
      exact peek_ite_unsupported_of_error (fun _ => confined_primaryKeyConstraint n) h
  | mysql =>
      unfold tableConstraint at h
      simp only [liftM_self] at h
      rw [run_bind, hname] at h
      dsimp only at h
      rw [run_bind, run_takeIf] at h
      by_cases hkey : (Cursor.ofTokens x c.stop).next? = some (.keyword .key)
      · rw [if_pos hkey] at h
        exact absurd h (not_unsupported_of_confined fun _ =>
          confined_indexDef.bind fun _ => confined_pure _)
      · rw [if_neg hkey] at h
        obtain ⟨hp, he⟩ := peek_ite_unsupported_of_error
          (fun _ => confined_primaryKeyConstraint n) h
        refine ⟨?_, he⟩
        simp only [StartsConstraint, Bool.or_eq_false_iff]
        exact ⟨hp, by simpa [Cursor.next?] using hkey⟩

/-- A table element `CONSTRAINT [name]` followed by a token that starts no constraint of `d` is
reported as an unknown table constraint at that token. -/
theorem tableElement_unknownConstraint {d : Dialect} {c : Cursor} {x : List Spanned}
    (h : AfterConstraintName c.rest x) (hx : StartsConstraint d (x.head?.map (·.token)) = false) :
    (tableElement d).run c =
      .error ((Cursor.ofTokens x c.stop).unsupportedHere (unknownConstraint d)) := by
  have hnext : c.next? = some (.keyword .constraint) := by
    obtain ⟨o, ⟨hrest, -⟩ | ⟨t, hrest, -⟩⟩ := h <;> simp [Cursor.next?, hrest]
  cases d <;> unfold tableElement <;> simp only [liftM_self] <;>
    rw [run_bind, run_peekName, hnext] <;> dsimp only [Option.bind, Token.name?] <;>
    rw [if_neg (by decide), run_bind, run_peek, Cursor.peek_of_next? hnext] <;> dsimp only <;>
    rw [run_bind, tableConstraint_unknown h hx]

/-- An element is reported as an unsupported construct only when it is `CONSTRAINT [name]`
followed by a token that starts no constraint of `d`. -/
theorem tableElement_unsupported {d : Dialect} {c : Cursor} {m : String} {f : Option Token}
    {o : Nat} (h : (tableElement d).run c = .error (.unsupported m f o)) :
    ∃ x, AfterConstraintName c.rest x ∧ StartsConstraint d (x.head?.map (·.token)) = false ∧
      ParseError.unsupported m f o =
        (Cursor.ofTokens x c.stop).unsupportedHere (unknownConstraint d) := by
  have hconstraint : ∀ t, c.next? = some t →
      (t = .keyword .constraint ∨ StartsConstraint d (some t) = true) →
      (tableConstraint d >>= fun k => pure (Element.constraint k)).run c =
        .error (.unsupported m f o) → ∃ x, AfterConstraintName c.rest x ∧
          StartsConstraint d (x.head?.map (·.token)) = false ∧
          ParseError.unsupported m f o =
            (Cursor.ofTokens x c.stop).unsupportedHere (unknownConstraint d) := by
    intro t hnext ht hrun
    rw [run_bind] at hrun
    rcases hk : (tableConstraint d).run c with e | ⟨k, c'⟩ <;> rw [hk] at hrun
    · cases hrun
      obtain ⟨x, hx | ⟨hne, rfl⟩, hstart, he⟩ := tableConstraint_unsupported hk
      · exact ⟨x, hx, hstart, he⟩
      · have hstarts : StartsConstraint d (some t) = true :=
          ht.resolve_left fun h => hne (h ▸ hnext)
        rw [show c.rest.head?.map (·.token) = some t from hnext] at hstart
        rw [hstart] at hstarts
        cases hstarts
    · cases hrun
  have hcolumn : ∀ c', (columnDef >>= fun col => pure (Element.column col)).run c' ≠
      .error (.unsupported m f o) :=
    fun _ => not_unsupported_of_confined fun _ => confined_columnDef.bind fun _ => confined_pure _
  have hpeek : ∀ {k : Option Token → Grammar Element},
      (peekName >>= fun b => if b = true then
          (columnDef >>= fun col => pure (Element.column col)) else peek >>= k).run c =
        .error (.unsupported m f o) → (k c.next?).run c = .error (.unsupported m f o) := by
    intro k hk
    rw [run_bind, run_peekName] at hk
    dsimp only at hk
    split at hk
    · exact absurd hk (hcolumn c)
    rw [run_bind, run_peek] at hk
    rcases hpk : c.peek with e | t <;> rw [hpk] at hk
    · cases hk
      exact absurd (Cursor.peek_error_admitted (U := fun _ _ _ => False) hpk) id
    · obtain rfl := Precedence.Cursor.peek_ok hpk
      exact hk
  cases d with
  | generic =>
      have h' := hpeek h
      split at h'
      · next hnext => exact hconstraint _ hnext (.inl rfl) h'
      · next hnext => exact hconstraint _ hnext (.inr rfl) h'
      · exact absurd h' (not_unsupported_of_confined fun _ => confined_expected _)
  | mysql =>
      have h' := hpeek h
      split at h'
      · next hnext => exact hconstraint _ hnext (.inl rfl) h'
      · next hnext => exact hconstraint _ hnext (.inr rfl) h'
      · next hnext => exact hconstraint _ hnext (.inr rfl) h'
      · exact absurd h' (not_unsupported_of_confined fun _ =>
          (confined_takeMap some).bind fun _ => confined_indexDef.bind fun _ => confined_pure _)
      · exact absurd h' (not_unsupported_of_confined fun _ => confined_expected _)
/-- In the stream `s`, `CONSTRAINT` and its name if one follows stand before `x`, which starts
no constraint of `d`, and `e` is what is reported there. -/
def UnknownConstraintIn (d : Dialect) (s : TokenStream) (e : ParseError) : Prop :=
  ∃ pre r x, s.tokens = pre ++ r ∧ AfterConstraintName r x ∧
    StartsConstraint d (x.head?.map (·.token)) = false ∧
    e = (Cursor.ofTokens x s.stop).unsupportedHere (unknownConstraint d)

/-- A table element reports only the unknown constraints of the stream it is read from. -/
theorem confined_tableElement (d : Dialect) :
    Confined s (fun m f o => UnknownConstraintIn d s (.unsupported m f o)) (tableElement d) := by
  refine ⟨(sound_tableElement d).mono fun _ _ => trivial, fun c hc e h => ?_⟩
  cases e with
  | unsupported m f o =>
      obtain ⟨x, hx, hstart, he⟩ := tableElement_unsupported h
      obtain ⟨pre, hpre⟩ := hc.1
      exact ⟨pre, c.rest, x, hpre.symm, hx, hstart, hc.2 ▸ he⟩
  | _ => trivial

theorem confined_tableStart (d : Dialect) :
    Confined s (fun m f o => UnknownConstraintIn d s (.unsupported m f o)) (tableStart d) :=
  Walk.holds_tableStart (confinement s _) (confined_tableElement d)

theorem sound_tableStart (d : Dialect) :
    Sound s (ParseError.SecondNullability s) (tableStart d) :=
  Walk.holds_tableStart (soundness s _).toWalk (sound_tableElement d)

/-! ## The tail -/

theorem sound_tailClause {X : ParseError → Prop} (stmt : Statement) : Sound s X (tailClause stmt) :=
  Walk.holds_tailClause (I := (soundness s X).toWalk)
    (Invariant.holds_keyPartitioning (I := soundness s X) fun _ => sound_atom) stmt

theorem confined_keyColumns {U : String → Option Token → Nat → Prop} :
    Confined s U keyColumns :=
  Walk.holds_keyColumns (I := confinement s U) fun _ => confined_atom

/-- A partitioning is reported unsupported only at a token after `BY` other than `KEY`. -/
theorem keyPartitioning_unsupported {c : Cursor} {m : String} {f : Option Token} {o : Nat}
    (h : keyPartitioning.run c = .error (.unsupported m f o)) :
    ∃ ob x, c.rest = ⟨.keyword .by, ob⟩ :: x ∧ x.head?.map (·.token) ≠ some (.keyword .key) ∧
      ParseError.unsupported m f o =
        (Cursor.ofTokens x c.stop).unsupportedHere "partitioning other than PARTITION BY KEY" := by
  rw [keyPartitioning_eq, run_bind] at h
  rcases hby : (expect (.keyword .by)).run c with e | ⟨u, c₁⟩ <;> rw [hby] at h
  · cases h
    exact absurd hby (not_unsupported_of_confined fun _ => (confinement _ _).holds_expect _)
  obtain ⟨hnext, rfl⟩ := run_expect_ok hby
  obtain ⟨⟨t, ob⟩, x, hrest⟩ : ∃ b x, c.rest = b :: x := by
    cases hc : c.rest with
    | nil => simp [Cursor.next?, hc] at hnext
    | cons b x => exact ⟨b, x, rfl⟩
  obtain rfl : t = .keyword .by := by simpa [Cursor.next?, hrest] using hnext
  have hadv : c.advance = .ofTokens x c.stop := by
    rw [Precedence.Cursor.eq_ofTokens c, hrest]
    rfl
  dsimp only at h
  rw [run_bind, run_takeIf, hadv] at h
  by_cases hkey : (Cursor.ofTokens x c.stop).next? = some (.keyword .key)
  · rw [if_pos hkey] at h
    exact absurd h (not_unsupported_of_confined fun _ => confined_keyColumns)
  · rw [if_neg hkey] at h
    dsimp only at h
    simp only [Bool.not_false, ↓reduceIte] at h
    rw [run_bind, run_unsupported] at h
    exact ⟨ob, x, hrest, hkey, (Except.error.inj h).symm⟩

theorem keyPartitioning_other {c : Cursor} {ob : Nat} {x : List Spanned}
    (hc : c.rest = ⟨.keyword .by, ob⟩ :: x) (hx : x.head?.map (·.token) ≠ some (.keyword .key)) :
    keyPartitioning.run c =
      .error ((Cursor.ofTokens x c.stop).unsupportedHere
        "partitioning other than PARTITION BY KEY") := by
  have hexpect : (expect (.keyword .by)).run c = .ok ((), .ofTokens x c.stop) := by
    unfold expect
    rw [run_bind, run_takeIf, if_pos (by simp [Cursor.next?, hc])]
    rw [Precedence.Cursor.eq_ofTokens c, hc]
    rfl
  rw [keyPartitioning_eq, run_bind, hexpect]
  dsimp only
  rw [run_bind, run_takeIf, if_neg (show (Cursor.ofTokens x c.stop).next? ≠ _ from hx)]
  simp only [Bool.not_false, ↓reduceIte]
  rw [run_bind, run_unsupported]

/-- `rest` is the word `PARTITION`, `BY`, and `x`, which does not start with `KEY`. -/
def PartitionByOther (rest x : List Spanned) : Prop :=
  ∃ p op ob, rest = ⟨p, op⟩ :: ⟨.keyword .by, ob⟩ :: x ∧ p.isWord "PARTITION" = true ∧
    x.head?.map (·.token) ≠ some (.keyword .key)

/-- A clause of the tail is reported unsupported only at `PARTITION BY` and a token other than
`KEY`, and only while no partitioning has been read. -/
theorem tailClause_unsupported {stmt : Statement} {c : Cursor} {m : String}
    {f : Option Token} {o : Nat} (h : (tailClause stmt).run c = .error (.unsupported m f o)) :
    stmt.partitioning = none ∧ ∃ x, PartitionByOther c.rest x ∧
      ParseError.unsupported m f o =
        (Cursor.ofTokens x c.stop).unsupportedHere "partitioning other than PARTITION BY KEY" := by
  unfold tailClause at h
  simp only [liftM_self, parser_peekWord] at h
  rw [run_bind] at h
  rcases hname : optionName.run c with e | ⟨r, c₁⟩ <;> rw [hname] at h
  · cases h
    exact absurd hname (not_unsupported_of_confined fun _ => (confinement _ _).holds_optionName)
  rcases r with _ | name
  · rw [optionName_none hname] at h
    dsimp only at h
    rw [run_bind, run_peekWord_any] at h
    dsimp only at h
    split at h
    · next hword =>
        split at h
        · exact absurd h (not_unsupported_of_confined fun _ => confined_expected _)
        · next hpart =>
            obtain ⟨p, hnext, hp⟩ := (Option.any_eq_true _ _).1 hword
            rw [run_bind, run_takeAny_of_next hnext] at h
            dsimp only at h
            rw [run_bind] at h
            rcases hkp : keyPartitioning.run c.advance with e | ⟨kp, c₂⟩ <;> rw [hkp] at h
            · cases h
              obtain ⟨ob, x, hrest, hkey, he⟩ := keyPartitioning_unsupported hkp
              obtain ⟨⟨p', op⟩, r, hc⟩ : ∃ b r, c.rest = b :: r := by
                cases hc : c.rest with
                | nil => simp [Cursor.next?, hc] at hnext
                | cons b r => exact ⟨b, r, rfl⟩
              obtain rfl : p' = p := by simpa [Cursor.next?, hc] using hnext
              have hr : r = ⟨.keyword .by, ob⟩ :: x := by
                simpa [Cursor.advance, hc] using hrest
              refine ⟨by simpa using hpart, x, ⟨p', op, ob, by rw [hc, hr], hp, hkey⟩, ?_⟩
              simpa [Cursor.advance] using he
            · cases h
    · cases h
  · dsimp only at h
    exact absurd h (not_unsupported_of_confined fun _ => ((confinement _ _).holds_expect _).bind
      fun _ => (confinement _ _).holds_optionValue.bind fun _ => confined_pure _)

theorem optionName_partition {c : Cursor} (hc : c.next? = some (.ident "PARTITION")) :
    optionName.run c = .ok (none, c) := by
  unfold optionName
  simp only [liftM_self, parser_takeWordOf]
  rw [run_bind, run_takeIf, if_neg (by simp [hc])]
  dsimp only
  rw [run_bind, takeWordOf, run_takeMap, hc]
  rfl

/-- With no partitioning read yet, `PARTITION BY` and a token other than `KEY` is reported as an
unsupported partitioning at that token. -/
theorem tailClause_partitionByOther {stmt : Statement} {c : Cursor} {op ob : Nat}
    {x : List Spanned} (hp : stmt.partitioning = none)
    (hc : c.rest = ⟨.ident "PARTITION", op⟩ :: ⟨.keyword .by, ob⟩ :: x)
    (hx : x.head?.map (·.token) ≠ some (.keyword .key)) :
    (tailClause stmt).run c =
      .error ((Cursor.ofTokens x c.stop).unsupportedHere
        "partitioning other than PARTITION BY KEY") := by
  have hnext : c.next? = some (.ident "PARTITION") := by simp [Cursor.next?, hc]
  unfold tailClause
  simp only [liftM_self, parser_peekWord]
  rw [run_bind, optionName_partition hnext]
  dsimp only
  rw [run_bind, run_peekWord_any, hnext]
  simp only [Option.any_some, show Token.isWord "PARTITION" (.ident "PARTITION") = true from rfl,
    hp, Option.isSome_none, Bool.false_eq_true, ↓reduceIte]
  rw [run_bind, run_takeAny_of_next hnext]
  dsimp only
  have hadvance : c.advance.rest = ⟨.keyword .by, ob⟩ :: x := by simp [Cursor.advance, hc]
  rw [run_bind, keyPartitioning_other hadvance hx]
  rfl
/-- The end of a table definition is reported unsupported only at an `ON`, where it stands. -/
theorem tailEnd_unsupported {stmt : Statement} {c : Cursor} {m : String} {f : Option Token}
    {o : Nat} (h : (tailEnd stmt).run c = .error (.unsupported m f o)) :
    ∃ oo post, c.rest = ⟨.keyword .on, oo⟩ :: post ∧
      ParseError.unsupported m f o =
        .unsupported "ON clause after table definition" (some (.keyword .on)) oo := by
  unfold tailEnd at h
  rw [run_bind] at h
  rcases hon : rejectOnClause.run c with e | ⟨u, c₁⟩ <;> rw [hon] at h
  · cases h
    unfold rejectOnClause at hon
    rw [run_bind, run_peek] at hon
    rcases hpk : c.peek with e | t <;> rw [hpk] at hon
    · cases hon
      exact absurd (Cursor.peek_error_admitted (U := fun _ _ _ => False) hpk) id
    obtain rfl := Precedence.Cursor.peek_ok hpk
    dsimp only at hon
    split at hon
    · next hnext =>
        obtain ⟨⟨t, oo⟩, post, hc⟩ : ∃ b r, c.rest = b :: r := by
          cases hc : c.rest with
          | nil => simp [Cursor.next?, hc] at hnext
          | cons b r => exact ⟨b, r, rfl⟩
        obtain rfl : t = .keyword .on := by simpa [Cursor.next?, hc] using hnext
        rw [run_unsupported] at hon
        refine ⟨oo, post, hc, (Except.error.inj hon).symm.trans ?_⟩
        simp [Cursor.unsupportedHere, Cursor.peek, Cursor.offset, hc]
    · cases hon
  · exact absurd h (not_unsupported_of_confined fun _ =>
      (Walk.holds_trailingQuery (I := confinement _ _) fun _ => confined_atom).bind
        fun _ => confined_pure _)

theorem tailEnd_on {stmt : Statement} {c : Cursor} {oo : Nat} {post : List Spanned}
    (hc : c.rest = ⟨.keyword .on, oo⟩ :: post) :
    (tailEnd stmt).run c =
      .error (.unsupported "ON clause after table definition" (some (.keyword .on)) oo) := by
  have hnext : c.next? = some (.keyword .on) := by simp [Cursor.next?, hc]
  unfold tailEnd rejectOnClause
  rw [run_bind, run_bind, run_peek, Cursor.peek_of_next? hnext]
  simp [Cursor.unsupportedHere, Cursor.peek, Cursor.offset, hc]

/-- What follows a table definition in a statement reports no unsupported construct. -/
theorem confined_statementEnd {U : String → Option Token → Nat → Prop} (stmt : Statement) :
    Confined s U (statementEnd stmt) := by
  refine ((confinement s U).holds_takeIf _).bind fun _ => confined_peek.bind fun _ => ?_
  split
  · exact confined_expected _
  · exact confined_pure _

end Grammar

end SqlDdl
