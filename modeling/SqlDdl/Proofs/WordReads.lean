import SqlDdl.Proofs.Requoting
import SqlDdl.Proofs.Phrases

/-!
# Quoting a name keeps the parse

The parser reads a bare identifier as a dialect word only where one of its word tests finds the
word: `UNSIGNED` after an integer type, `USING` before an index type, `ENGINE` as a table option
and so on. Everywhere else it reads a bare identifier as the name it carries, just as it reads
the same identifier quoted.

To say where the word tests found a word, the rules are run by a parser that notes it (`Traced`):
it gives what `Grammar` gives and, beside it, the offsets of the bare words its tests found. The
places of a text read as dialect words are those the parse of the text notes (`wordReads`).
Quoting any bare identifiers away from those places gives a text that parses alike: to the same
statement, or both to an error (`parse_toOption_eq_of_requotes`). A column named `engine`, an
index named `partition` or an option value `using` may be quoted; the `USING` before an index
type may not, since a quoted `USING` there is the index's name.

`Traces t g` says that the traced rule `t` gives what `g` gives, and that `g` runs alike from
places that requote one another anywhere `t` notes no word. Steps that test no word have it by
blindness to quoting, word tests by what they note, and `bind` and `loop` build it; every rule
follows by composition, down to the whole statement.
-/

namespace SqlDdl

/-- A parser that notes where it found a dialect word: from a cursor, what a step of `Grammar`
gives, and the offsets of the bare words its word tests found there, in the order found. -/
def Traced (α : Type) : Type := (c : Cursor) → Except ParseError (α × Rest c) × List Nat

namespace Traced

variable {α β σ : Type}

@[inline] protected def pure (a : α) : Traced α := fun c => (Grammar.pure a c, [])

/-- The first step, then the step chosen by its value; the words of both, in order. -/
@[inline] protected def bind (t : Traced α) (f : α → Traced β) : Traced β := fun c =>
  match t c with
  | (.error e, l₁) => (.error e, l₁)
  | (.ok (a, r₁), l₁) =>
    match f a r₁.1 with
    | (.error e, l₂) => (.error e, l₁ ++ l₂)
    | (.ok (b, r₂), l₂) => (.ok (b, ⟨r₂.1, Nat.le_trans r₂.2 r₁.2⟩), l₁ ++ l₂)

instance : Monad Traced where
  pure := Traced.pure
  bind := Traced.bind

/-- A step that tests no word: it notes nothing. -/
def lift (g : Grammar α) : Traced α := fun c => (g c, [])

instance : MonadLift Grammar Traced := ⟨lift⟩

/-- A word test that notes the offset of the next token where `found` says it found its word. -/
def noting (found : α → Bool) (g : Grammar α) : Traced α := fun c =>
  (g c, match g c with
    | .ok (a, _) => if found a then [c.offset] else []
    | .error _ => [])

/-- The rounds of `loop` from a given cursor. -/
def loopFrom (round : σ → Traced (β ⊕ σ)) (done : σ → β) (s : σ) (c : Cursor) :
    Except ParseError (β × Rest c) × List Nat :=
  match round s c with
  | (.error e, l) => (.error e, l)
  | (.ok (.inl b, r), l) => (.ok (b, r), l)
  | (.ok (.inr s', ⟨c', h⟩), l) =>
    if _hlt : c'.size < c.size then
      match loopFrom round done s' c' with
      | (.error e, l') => (.error e, l ++ l')
      | (.ok (b, ⟨c'', h'⟩), l') => (.ok (b, ⟨c'', Nat.le_trans h' h⟩), l ++ l')
    else (.ok (done s', ⟨c', h⟩), l)
termination_by c.size

/-- Runs `round` again and again, as `Grammar.loop` does, with the words of every round. -/
def loop (round : σ → Traced (β ⊕ σ)) (done : σ → β) (s : σ) : Traced β :=
  loopFrom round done s

end Traced

instance : Parser Traced where
  loop := Traced.loop
  takeWord w := Traced.noting id (Grammar.takeWord w)
  peekWord w := Traced.noting id (Grammar.peekWord w)
  takeWordOf ws := Traced.noting Option.isSome (Grammar.takeWordOf ws)

/-- Expressions test no dialect word. -/
instance : ExprParser Traced := ⟨Traced.lift Grammar.expression⟩

/-- The offsets of the bare identifiers that the parse of `sql` in dialect `d` reads as dialect
words. -/
def wordReads (d : Dialect) (sql : String) : List Nat :=
  ((Grammar.statement d : Traced Statement) (Cursor.ofString sql)).2

example :
    wordReads .mysql
        "CREATE TABLE t (engine INT, INDEX partition USING b (engine)) ENGINE = using" =
      [44, 62] := by
  decide +kernel

namespace Traced

variable {α β σ : Type}

open Grammar (RequotedRuns RunRequoted QuoteBlind requotedRuns_iff)

/-! ## What a traced step notes -/

theorem exists_rest_of_run {g : Grammar α} {c c₁ : Cursor} {a : α}
    (h : g.run c = .ok (a, c₁)) : ∃ r : Rest c, g c = .ok (a, r) ∧ r.1 = c₁ := by
  unfold Grammar.run at h
  rcases hg : g c with e | ⟨a', r⟩ <;> rw [hg] at h
  · cases h
  · simp only [Except.ok.injEq, Prod.mk.injEq] at h
    obtain ⟨rfl, rfl⟩ := h
    exact ⟨r, rfl, rfl⟩

/-- A step notes every word of the step before it. -/
theorem log_bind_left (t : Traced α) (f : α → Traced β) (c : Cursor) :
    ∀ o ∈ (t c).2, o ∈ ((t >>= f) c).2 := by
  intro o ho
  show o ∈ (Traced.bind t f c).2
  unfold Traced.bind
  rcases ht : t c with ⟨_ | ⟨a, c₁, h₁⟩, l₁⟩ <;> rw [ht] at ho
  · exact ho
  · dsimp only
    rcases f a c₁ with ⟨_ | ⟨b, c₂, h₂⟩, l₂⟩ <;> exact List.mem_append_left _ ho

theorem log_bind_right {t : Traced α} (f : α → Traced β) {c : Cursor} {a : α} {r : Rest c}
    (ht : (t c).1 = .ok (a, r)) : ∀ o ∈ (f a r.1).2, o ∈ ((t >>= f) c).2 := by
  intro o ho
  show o ∈ (Traced.bind t f c).2
  unfold Traced.bind
  rcases htc : t c with ⟨_ | ⟨a', c₁, h₁⟩, l₁⟩ <;> rw [htc] at ht
  · cases ht
  · simp only [Except.ok.injEq, Prod.mk.injEq] at ht
    obtain ⟨rfl, rfl⟩ := ht
    dsimp only at ho ⊢
    rcases hfa : f a' c₁ with ⟨_ | ⟨b, c₂, h₂⟩, l₂⟩ <;> rw [hfa] at ho <;>
      exact List.mem_append_right _ ho

/-- The words of the step chosen after `t` gave `a` at `c₁` are words of the bind. -/
theorem log_bind_of_run {t : Traced α} {g : Grammar α} (f : α → Traced β) {c c₁ : Cursor}
    {a : α} (ht : (t c).1 = g c) (h : g.run c = .ok (a, c₁)) :
    ∀ o ∈ (f a c₁).2, o ∈ ((t >>= f) c).2 := by
  obtain ⟨r, hr, rfl⟩ := exists_rest_of_run h
  exact log_bind_right f (ht.trans hr)

theorem mem_noting {found : α → Bool} {g : Grammar α} {c c₁ : Cursor} {a : α}
    (h : g.run c = .ok (a, c₁)) (hf : found a = true) : c.offset ∈ (noting found g c).2 := by
  obtain ⟨r, hg, -⟩ := exists_rest_of_run h
  simp [noting, hg, hf]

/-- A repetition notes the words of its first round. -/
theorem log_loop_round (round : σ → Traced (β ⊕ σ)) (done : σ → β) (s : σ) (c : Cursor) :
    ∀ o ∈ (round s c).2, o ∈ (loop round done s c).2 := by
  intro o ho
  unfold loop
  rw [loopFrom]
  rcases hr : round s c with ⟨_ | ⟨_ | s', c', h⟩, l⟩ <;> rw [hr] at ho <;> dsimp only
  · exact ho
  · exact ho
  · split
    · rcases loopFrom round done s' c' with ⟨_ | ⟨b, c'', h'⟩, l'⟩ <;>
        exact List.mem_append_left _ ho
    · exact ho

/-- A repetition that goes on notes the words of the rounds after its first. -/
theorem log_loop_next {round : σ → Traced (β ⊕ σ)} {done : σ → β} {s s' : σ} {c : Cursor}
    {r : Rest c} (hr : (round s c).1 = .ok (.inr s', r)) (hlt : r.1.size < c.size) :
    ∀ o ∈ (loop round done s' r.1).2, o ∈ (loop round done s c).2 := by
  intro o ho
  show o ∈ (loopFrom round done s c).2
  rw [loopFrom]
  rcases hrc : round s c with ⟨_ | ⟨_ | s₁, c₁, h₁⟩, l⟩ <;> rw [hrc] at hr
  · cases hr
  · cases hr
  · simp only [Except.ok.injEq, Prod.mk.injEq, Sum.inr.injEq] at hr
    obtain ⟨rfl, rfl⟩ := hr
    dsimp only at hlt ⊢
    rw [dif_pos hlt]
    unfold loop at ho
    rcases hl : loopFrom round done s₁ c₁ with ⟨_ | ⟨b, c'', h'⟩, l'⟩ <;> rw [hl] at ho <;>
      exact List.mem_append_right _ ho

/-! ## Traced steps that give what the grammar gives -/

/-- The traced step `t` gives what `g` gives, and `g` runs alike from places that requote one
another anywhere `t` notes no word. -/
structure Traces (t : Traced α) (g : Grammar α) : Prop where
  agrees : ∀ c, (t c).1 = g c
  blind : ∀ q c c', c.Requotes q c' → (∀ o ∈ (t c).2, ¬ q o) → RequotedRuns q (g.run c) (g.run c')

/-- A step blind to quoting, whatever may be quoted, notes nothing and needs nothing kept. -/
theorem traces_lift {g : Grammar α} (h : ∀ {q}, QuoteBlind q g) : Traces (lift g) g :=
  ⟨fun _ => rfl, fun _ c c' hc _ => h c c' hc⟩

theorem traces_pure (a : α) : Traces (pure a) (pure a) :=
  ⟨fun _ => rfl, fun _ _ _ hc _ => ⟨rfl, hc⟩⟩

theorem agrees_bind {t : Traced α} {g : Grammar α} {f : α → Traced β} {k : α → Grammar β}
    (ht : ∀ c, (t c).1 = g c) (hf : ∀ a c, (f a c).1 = k a c) (c : Cursor) :
    ((t >>= f) c).1 = (g >>= k) c := by
  show (Traced.bind t f c).1 = Grammar.bind g k c
  unfold Traced.bind Grammar.bind
  rw [← ht c]
  rcases t c with ⟨_ | ⟨a, c₁, h₁⟩, l₁⟩
  · rfl
  · dsimp only
    rw [← hf a c₁]
    rcases f a c₁ with ⟨_ | ⟨b, c₂, h₂⟩, l₂⟩ <;> rfl

theorem Traces.bind {t : Traced α} {g : Grammar α} {f : α → Traced β} {k : α → Grammar β}
    (ht : Traces t g) (hf : ∀ a, Traces (f a) (k a)) : Traces (t >>= f) (g >>= k) := by
  refine ⟨agrees_bind ht.agrees fun a => (hf a).agrees, fun q c c' hc hq => ?_⟩
  rw [Grammar.run_bind, Grammar.run_bind]
  obtain ⟨e, e', h, h'⟩ | ⟨a, c₁, c₁', h, h', hc₁⟩ := requotedRuns_iff.1
    (ht.blind q c c' hc fun o ho => hq o (log_bind_left t f c o ho)) <;> rw [h, h']
  · trivial
  · exact (hf a).blind q c₁ c₁' hc₁ fun o ho => hq o (log_bind_of_run f (ht.agrees c) h o ho)

theorem traces_ite {p : Prop} [Decidable p] {t t' : Traced α} {g g' : Grammar α}
    (h : Traces t g) (h' : Traces t' g') : Traces (if p then t else t') (if p then g else g') := by
  split
  · exact h
  · exact h'

theorem Traces.map {t : Traced α} {g : Grammar α} (h : Traces t g) (f : α → β) :
    Traces (f <$> t) (f <$> g) :=
  h.bind fun a => traces_pure (f a)

/-- A repetition of rounds that each give what the grammar's rounds give: the induction is on the
tokens left, as the repetition's own. -/
theorem Traces.loop {round : σ → Traced (β ⊕ σ)} {ground : σ → Grammar (β ⊕ σ)}
    (h : ∀ s, Traces (round s) (ground s)) (done : σ → β) (s : σ) :
    Traces (Traced.loop round done s) (Grammar.loop ground done s) := by
  have hagrees : ∀ c s, (Traced.loop round done s c).1 = Grammar.loop ground done s c := by
    intro c
    induction hsize : c.size using Nat.strong_induction_on generalizing c with
    | _ k ih =>
      intro s
      unfold Traced.loop Grammar.loop
      rw [loopFrom, Grammar.loopFrom, ← (h s).agrees c]
      rcases round s c with ⟨_ | ⟨_ | s', c', h'⟩, l⟩
      · rfl
      · rfl
      · dsimp only
        split
        · next hlt =>
          have ih' := ih c'.size (hsize ▸ hlt) c' rfl s'
          unfold Traced.loop Grammar.loop at ih'
          rw [← ih']
          rcases loopFrom round done s' c' with ⟨_ | ⟨b, c'', h''⟩, l'⟩ <;> rfl
        · rfl
  refine ⟨fun c => hagrees c s, fun q c c' hc hq => ?_⟩
  induction hsize : c.size using Nat.strong_induction_on generalizing s c c' with
  | _ k ih =>
    rw [Grammar.run_loop, Grammar.run_loop]
    obtain ⟨e, e', hr, hr'⟩ | ⟨b | s₁, c₁, c₁', hr, hr', hc₁⟩ := requotedRuns_iff.1
      ((h s).blind q c c' hc fun o ho => hq o (log_loop_round round done s c o ho)) <;>
      rw [hr, hr']
    · trivial
    · exact ⟨rfl, hc₁⟩
    · dsimp only
      rw [← hc.size, ← hc₁.size]
      split
      · next hlt =>
        obtain ⟨r, hrc, rfl⟩ := exists_rest_of_run hr
        exact ih _ (hsize ▸ hlt) s₁ r.1 c₁' hc₁
          (fun o ho => hq o (log_loop_next ((h s).agrees c ▸ hrc) hlt o ho)) rfl
      · exact ⟨rfl, hc₁⟩

theorem Traces.sepBy1 {item : Traced α} {gitem : Grammar α} (h : Traces item gitem)
    {sep : Token} (hsep : sep.name? = none) :
    Traces (Grammar.sepBy1 item sep) (Grammar.sepBy1 gitem sep) :=
  Traces.loop (fun _ => h.bind fun _ => (traces_lift (Grammar.quoteBlind_takeIf hsep)).bind
    fun _ => traces_ite (traces_pure _) (traces_pure _)) _ _

/-! ## Word tests -/

section Words

open Grammar (takeMap takeWord peekWord run_takeWord run_peekWord_any)

variable {q : Nat → Prop} {c c' : Cursor}

/-- Where a bare word is not at `c`, it is not at a place that requotes `c` either: a quoted
identifier is no bare word. -/
theorem not_word_of_requotes {p : Token → Bool} (hp : ∀ x, p (.quotedIdent x) = false)
    (hc : c.Requotes q c') (h : c.next?.any p = false) : c'.next?.any p = false := by
  obtain ⟨hn, hn'⟩ | ⟨t, t', hn, hn', rfl | ⟨x, rfl, rfl⟩⟩ := hc.next?
  · rw [hn']
    rfl
  · rw [hn', ← hn]
    exact h
  · rw [hn']
    exact hp x

/-- A token read with `f`, which reads no quoted identifier, runs alike from places that requote
one another and keep the next token wherever `f` reads it. -/
theorem requotedRuns_takeMap {f : Token → Option β} (hf : ∀ x, f (.quotedIdent x) = none)
    (hc : c.Requotes q c') (hkept : ∀ b c₁, (takeMap f).run c = .ok (some b, c₁) → ¬ q c.offset) :
    RequotedRuns q ((takeMap f).run c) ((takeMap f).run c') := by
  have hrun := Grammar.run_takeMap f c
  rw [Grammar.run_takeMap, Grammar.run_takeMap]
  rcases hfc : c.next? >>= f with _ | b <;> rw [hfc] at hrun
  · have hnone : c'.next?.any (fun t => (f t).isSome) = false :=
      not_word_of_requotes (fun x => by simp [hf x]) hc (by cases hn : c.next? <;> simp_all)
    have hfc' : c'.next? >>= f = none := by
      cases hn : c'.next? <;> simp_all
    rw [hfc']
    exact ⟨rfl, hc⟩
  · rw [hc.next?_eq (hkept b _ hrun), hfc]
    exact ⟨rfl, hc.advance⟩

theorem traces_takeWordOf (ws : List String) :
    Traces (Parser.takeWordOf ws : Traced (Option String)) (Parser.takeWordOf ws) :=
  ⟨fun _ => rfl, fun _ _ _ hc hq =>
    requotedRuns_takeMap (fun _ => rfl) hc fun _ _ h => hq _ (mem_noting h rfl)⟩

theorem traces_takeWord (w : String) :
    Traces (Parser.takeWord w : Traced Bool) (Parser.takeWord w) := by
  refine ⟨fun _ => rfl, fun q c c' hc hq => ?_⟩
  show RequotedRuns q ((takeWord w).run c) ((takeWord w).run c')
  rw [run_takeWord, run_takeWord]
  cases hw : c.next?.any (Token.isWord w)
  · rw [not_word_of_requotes (fun _ => rfl) hc hw]
    exact ⟨rfl, hc⟩
  · have hrun : (takeWord w).run c = .ok (true, c.advance) := by rw [run_takeWord, hw]; rfl
    rw [hc.next?_eq (hq _ (mem_noting hrun rfl)), hw]
    exact ⟨rfl, hc.advance⟩

theorem traces_peekWord (w : String) :
    Traces (Parser.peekWord w : Traced Bool) (Parser.peekWord w) := by
  refine ⟨fun _ => rfl, fun q c c' hc hq => ?_⟩
  show RequotedRuns q ((peekWord w).run c) ((peekWord w).run c')
  rw [run_peekWord_any, run_peekWord_any]
  cases hw : c.next?.any (Token.isWord w)
  · exact ⟨(not_word_of_requotes (fun _ => rfl) hc hw).symm, hc⟩
  · have hrun : (peekWord w).run c = .ok (true, c) := by rw [run_peekWord_any, hw]
    rw [hc.next?_eq (hq _ (mem_noting hrun rfl)), hw]
    exact ⟨rfl, hc⟩

end Words

/-! ## Steps that look before they choose -/

/-- A step chosen by the next token, the same for a name bare and quoted. -/
theorem traces_peek_bind {f : Option Token → Traced β} {k : Option Token → Grammar β}
    (h : ∀ x, Traces (f x) (k x)) (heq : ∀ w, k (some (.ident w)) = k (some (.quotedIdent w))) :
    Traces (lift Grammar.peek >>= f) (Grammar.peek >>= k) := by
  refine ⟨agrees_bind (fun _ => rfl) fun x => (h x).agrees, fun q c c' hc hq => ?_⟩
  rw [Grammar.run_bind, Grammar.run_bind, Grammar.run_peek, Grammar.run_peek]
  obtain ⟨x, x', hx, hx', hrel⟩ | ⟨e, e', he, he'⟩ := hc.peek
  · have hrun : Grammar.peek.run c = .ok (x, c) := by rw [Grammar.run_peek, hx]
    have hk : k x' = k x := by
      cases hrel with
      | none => rfl
      | some ht =>
        rcases ht with rfl | ⟨w, rfl, rfl⟩
        · rfl
        · exact (heq w).symm
    rw [hx, hx']
    dsimp only
    rw [hk]
    exact (h x).blind q c c' hc fun o ho => hq o (log_bind_of_run f rfl hrun o ho)
  · rw [he, he']
    trivial

/-- A token read and dropped after a look that showed it. -/
theorem traces_takeAny_bind {f : Traced β} {k : Grammar β} (h : Traces f k) :
    Traces (lift Grammar.takeAny >>= fun _ => f) (Grammar.takeAny >>= fun _ => k) := by
  refine ⟨agrees_bind (fun _ => rfl) fun _ => h.agrees, fun q c c' hc hq => ?_⟩
  have hrun := Grammar.run_takeMap some c
  rw [Grammar.run_bind, Grammar.run_bind]
  unfold Grammar.takeAny
  rw [Grammar.run_takeMap, Grammar.run_takeMap]
  obtain ⟨hn, hn'⟩ | ⟨t, t', hn, hn', -⟩ := hc.next?
  · rw [hn] at hrun
    rw [hn, hn']
    exact h.blind q c c' hc fun o ho => hq o (log_bind_of_run _ rfl hrun o ho)
  · rw [hn] at hrun
    rw [hn, hn']
    exact h.blind q _ _ hc.advance fun o ho => hq o (log_bind_of_run _ rfl hrun o ho)

theorem requotedRuns_of_toOption {q : Nat → Prop} {r r' r'' : Except ParseError (α × Cursor)}
    (h : RequotedRuns q r r') (h' : r'.toOption = r''.toOption) : RequotedRuns q r r'' := by
  rcases r' with e' | ⟨a', c'⟩ <;> rcases r'' with e'' | ⟨a'', c''⟩
  · rcases r with e | ⟨a, c⟩ <;> exact h
  · cases h'
  · cases h'
  · simp only [Except.toOption, Option.some.injEq, Prod.mk.injEq] at h'
    obtain ⟨rfl, rfl⟩ := h'
    exact h

/-- A step after the offset of the next token, which it puts in its errors only: given any
offset, it fails or succeeds alike. -/
theorem traces_offset_bind {f : Nat → Traced β} {k : Nat → Grammar β}
    (h : ∀ n, Traces (f n) (k n))
    (hk : ∀ n n' c, ((k n).run c).toOption = ((k n').run c).toOption) :
    Traces (lift Grammar.offset >>= f) (Grammar.offset >>= k) := by
  refine ⟨agrees_bind (fun _ => rfl) fun n => (h n).agrees, fun q c c' hc hq => ?_⟩
  rw [Grammar.run_bind, Grammar.run_bind, Grammar.run_offset, Grammar.run_offset]
  have hrun := Grammar.run_offset c
  exact requotedRuns_of_toOption ((h c.offset).blind q c c' hc fun o ho =>
    hq o (log_bind_of_run f rfl hrun o ho)) (hk _ _ c')

/-- Expressions test no dialect word. -/
theorem traces_expression :
    Traces (ExprParser.expression : Traced Expr) (ExprParser.expression : Grammar Expr) :=
  traces_lift Grammar.quoteBlind_expression

theorem traces_takeIf {t : Token} (ht : t.name? = none) :
    Traces (lift (Grammar.takeIf t)) (Grammar.takeIf t) :=
  traces_lift (Grammar.quoteBlind_takeIf ht)

theorem traces_expect {t : Token} (ht : t.name? = none) :
    Traces (lift (Grammar.expect t)) (Grammar.expect t) :=
  traces_lift (Grammar.quoteBlind_expect ht)

theorem traces_expected {α : Type} (what : String) :
    Traces (lift (Grammar.expected what : Grammar α)) (Grammar.expected what) :=
  traces_lift (Grammar.runRequoted_expected _ _)

theorem traces_unsupported {α : Type} (construct : String) :
    Traces (lift (Grammar.unsupported construct : Grammar α)) (Grammar.unsupported construct) :=
  traces_lift (Grammar.runRequoted_unsupported _ _)

/-! ## The rules -/

theorem traces_integerType (size : IntegerSize) :
    Traces (Grammar.integerType size) (Grammar.integerType size) :=
  (traces_lift (Grammar.quoteBlind_typeArguments 1)).bind fun _ => (traces_takeWord _).bind
    fun _ => (traces_takeWord _).bind fun _ => traces_pure _

/-- Every branch of the type table is the integer rule, or steps that read tokens, one of them
perhaps the word `PRECISION`, and then the type. -/
theorem traces_dataType : Traces Grammar.dataType Grammar.dataType := by
  unfold Grammar.dataType
  refine (traces_lift (Grammar.quoteBlind_expectName _)).bind fun name => ?_
  split
  iterate 6 exact traces_integerType _
  all_goals
    repeat
      first
      | refine (traces_lift (Grammar.quoteBlind_typeArguments _)).bind fun _ => ?_
      | refine (traces_lift Grammar.quoteBlind_typeArgument).bind fun _ => ?_
      | refine (traces_lift Grammar.quoteBlind_customArguments).bind fun _ => ?_
      | refine (traces_expect rfl).bind fun _ => ?_
      | refine (traces_takeWord _).bind fun _ => ?_
    exact traces_pure _

theorem traces_otherOption (col : Column) :
    Traces (Grammar.otherOption col) (Grammar.otherOption col) := by
  unfold Grammar.otherOption
  refine (traces_takeIf rfl).bind fun b => ?_
  split
  · exact traces_expression.bind fun _ => traces_pure _
  refine (traces_takeIf rfl).bind fun b => ?_
  split
  · exact (traces_expect rfl).bind fun _ => traces_pure _
  refine (traces_takeIf rfl).bind fun b => ?_
  split
  · exact (traces_takeIf rfl).bind fun _ => traces_pure _
  refine (traces_takeWord _).bind fun b => ?_
  split
  · exact traces_pure _
  refine (traces_takeWord _).bind fun b => ?_
  split
  · exact (traces_lift Grammar.quoteBlind_stringLiteral).bind fun _ => traces_pure _
  · exact traces_pure _

/-- The offset a column option reads goes into the error for a second nullability only. -/
theorem traces_columnOption (col : Column) :
    Traces (Grammar.columnOption col) (Grammar.columnOption col) := by
  unfold Grammar.columnOption
  refine traces_offset_bind (fun off => (traces_lift Grammar.quoteBlind_nullability).bind
    fun r => ?_) fun n n' c => ?_
  · split
    · exact traces_ite (traces_lift (Grammar.runRequoted_fail _ _)) (traces_pure _)
    · exact traces_otherOption col
  · rw [Grammar.run_bind, Grammar.run_bind]
    rcases Grammar.nullability.run c with _ | ⟨_ | _, c₁⟩
    · rfl
    · rfl
    · dsimp only
      split <;> rfl

theorem traces_columnDef : Traces Grammar.columnDef Grammar.columnDef :=
  (traces_lift Grammar.quoteBlind_name).bind fun _ => traces_dataType.bind fun _ =>
    Traces.loop traces_columnOption _ _

theorem traces_indexType : Traces Grammar.indexType Grammar.indexType :=
  (traces_takeWord _).bind fun _ => traces_ite
    ((traces_lift (Grammar.quoteBlind_expectName _)).bind fun _ => traces_pure _) (traces_pure _)

theorem traces_indexColumn : Traces Grammar.indexColumn Grammar.indexColumn :=
  traces_expression.bind fun _ =>
    (traces_lift (Grammar.quoteBlind_takeMap _ fun _ => rfl)).bind fun _ => traces_pure _

theorem traces_indexColumns : Traces Grammar.indexColumns Grammar.indexColumns := by
  unfold Grammar.indexColumns
  refine (traces_expect rfl).bind fun _ => traces_peek_bind (fun _ => ?_) fun _ => rfl
  extract_lets columns gcolumns
  have hcolumns : ∀ u, Traces (columns u) (gcolumns u) := fun _ =>
    (traces_indexColumn.sepBy1 rfl).bind fun _ => (traces_expect rfl).bind fun _ =>
      traces_pure _
  split
  · exact (traces_expected _).bind hcolumns
  · exact hcolumns ()

theorem traces_primaryKeyConstraint (name : Option String) :
    Traces (Grammar.primaryKeyConstraint name) (Grammar.primaryKeyConstraint name) := by
  unfold Grammar.primaryKeyConstraint
  refine (traces_expect rfl).bind fun _ => (traces_expect rfl).bind fun _ =>
    traces_indexType.bind fun _ => traces_indexColumns.bind fun _ => ?_
  extract_lets finish gfinish
  have hfinish : ∀ indexType, Traces (finish indexType) (gfinish indexType) := fun _ =>
    traces_pure _
  split
  · exact traces_indexType.bind hfinish
  · exact (traces_pure _).bind hfinish

theorem traces_selectItem : Traces Grammar.selectItem Grammar.selectItem := by
  refine traces_expression.bind fun e => (traces_takeIf rfl).bind fun _ =>
    (traces_lift Grammar.quoteBlind_peekName).bind fun _ => ?_
  split
  · split
    · exact traces_expected _
    · exact (traces_lift (Grammar.quoteBlind_expectName _)).bind fun _ => traces_pure _
  · exact traces_pure _

theorem traces_orderItem : Traces Grammar.orderItem Grammar.orderItem :=
  traces_expression.bind fun _ =>
    (traces_lift (Grammar.quoteBlind_takeMap _ fun _ => rfl)).bind fun _ => traces_pure _

theorem traces_limitClause : Traces Grammar.limitClause Grammar.limitClause := by
  refine (traces_takeIf rfl).bind fun b => ?_
  split
  · exact traces_pure _
  refine traces_expression.bind fun first => (traces_takeIf rfl).bind fun b => ?_
  split
  · exact traces_expression.bind fun _ => traces_pure _
  refine (traces_takeIf rfl).bind fun b => ?_
  split
  · exact traces_expression.bind fun _ => traces_pure _
  · exact traces_pure _

/-- A query tests no word, but its items and clauses are built as the table's rules are, and
follow the same way, from the last clause back. -/
theorem traces_select : Traces Grammar.select Grammar.select := by
  unfold Grammar.select
  refine (traces_expect rfl).bind fun _ => (traces_takeIf rfl).bind fun _ =>
    (traces_selectItem.sepBy1 rfl).bind fun _ => (traces_takeIf rfl).bind fun _ => ?_
  extract_lets afterFrom gafterFrom
  have hFrom : ∀ tables, Traces (afterFrom tables) (gafterFrom tables) := by
    intro tables
    refine (traces_takeIf rfl).bind fun _ => ?_
    extract_lets afterWhere gafterWhere
    have hWhere : ∀ filter, Traces (afterWhere filter) (gafterWhere filter) := by
      intro filter
      refine (traces_takeIf rfl).bind fun _ => ?_
      extract_lets afterGroup gafterGroup
      have hGroup : ∀ groupBy, Traces (afterGroup groupBy) (gafterGroup groupBy) := by
        intro groupBy
        refine (traces_takeIf rfl).bind fun _ => ?_
        extract_lets afterHaving gafterHaving
        have hHaving : ∀ having, Traces (afterHaving having) (gafterHaving having) := by
          intro having
          refine (traces_takeIf rfl).bind fun _ => ?_
          extract_lets afterOrder gafterOrder
          have hOrder : ∀ orderBy, Traces (afterOrder orderBy) (gafterOrder orderBy) :=
            fun _ => traces_limitClause.bind fun r => by
              rcases r with ⟨offset, limit⟩
              exact traces_pure _
          split
          · exact (traces_expect rfl).bind fun _ => (traces_orderItem.sepBy1 rfl).bind hOrder
          · exact (traces_pure _).bind hOrder
        split
        · exact (traces_expression.map some).bind hHaving
        · exact (traces_pure _).bind hHaving
      split
      · exact (traces_expect rfl).bind fun _ => (traces_expression.sepBy1 rfl).bind hGroup
      · exact (traces_pure _).bind hGroup
    split
    · exact (traces_expression.map some).bind hWhere
    · exact (traces_pure _).bind hWhere
  split
  · exact ((traces_lift Grammar.quoteBlind_tableRef).sepBy1 rfl).bind hFrom
  · exact (traces_pure _).bind hFrom

theorem traces_indexDef : Traces Grammar.indexDef Grammar.indexDef := by
  unfold Grammar.indexDef
  refine (traces_lift Grammar.quoteBlind_peekName).bind fun _ => (traces_peekWord _).bind
    fun _ => ?_
  extract_lets named afterName gafterName
  have hafterName : ∀ name, Traces (afterName name) (gafterName name) := by
    intro name
    refine traces_indexType.bind fun _ => traces_indexColumns.bind fun _ => ?_
    extract_lets finish gfinish
    have hfinish : ∀ indexType, Traces (finish indexType) (gfinish indexType) := fun _ =>
      traces_pure _
    split
    · exact traces_indexType.bind hfinish
    · exact (traces_pure _).bind hfinish
  split
  · exact ((traces_lift (Grammar.quoteBlind_expectName _)).map _).bind hafterName
  · exact (traces_pure _).bind hafterName

theorem traces_tableConstraint (d : Dialect) :
    Traces (Grammar.tableConstraint d) (Grammar.tableConstraint d) := by
  cases d with
  | generic =>
    refine (traces_lift Grammar.quoteBlind_constraintName).bind fun name =>
      traces_peek_bind (fun _ => ?_) fun _ => rfl
    exact traces_ite (traces_primaryKeyConstraint name) (traces_unsupported _)
  | mysql =>
    refine (traces_lift Grammar.quoteBlind_constraintName).bind fun name =>
      (traces_takeIf rfl).bind fun b => ?_
    split
    · exact traces_indexDef.bind fun _ => traces_pure _
    refine traces_peek_bind (fun _ => ?_) fun _ => rfl
    exact traces_ite (traces_primaryKeyConstraint name) (traces_unsupported _)

theorem traces_tableElement (d : Dialect) :
    Traces (Grammar.tableElement d) (Grammar.tableElement d) := by
  have hcolumn := traces_columnDef.bind fun col => traces_pure (Element.column col)
  cases d with
  | generic =>
    refine (traces_lift Grammar.quoteBlind_peekName).bind fun b => ?_
    split
    · exact hcolumn
    refine traces_peek_bind (fun t => ?_) fun _ => rfl
    split
    · exact (traces_tableConstraint _).bind fun _ => traces_pure _
    · exact (traces_tableConstraint _).bind fun _ => traces_pure _
    · exact traces_expected _
  | mysql =>
    refine (traces_lift Grammar.quoteBlind_peekName).bind fun b => ?_
    split
    · exact hcolumn
    refine traces_peek_bind (fun t => ?_) fun _ => rfl
    split
    · exact (traces_tableConstraint _).bind fun _ => traces_pure _
    · exact (traces_tableConstraint _).bind fun _ => traces_pure _
    · exact (traces_tableConstraint _).bind fun _ => traces_pure _
    · exact traces_takeAny_bind (traces_indexDef.bind fun _ => traces_pure _)
    · exact traces_expected _

theorem traces_tableElements (d : Dialect) :
    Traces (Grammar.tableElements d) (Grammar.tableElements d) :=
  (traces_expect rfl).bind fun _ => ((traces_tableElement d).sepBy1 rfl).bind fun _ =>
    (traces_expect rfl).bind fun _ => traces_pure _

theorem traces_optionName : Traces Grammar.optionName Grammar.optionName := by
  unfold Grammar.optionName
  refine (traces_takeIf rfl).bind fun _ => (traces_takeWordOf _).bind fun _ => ?_
  extract_lets checked gchecked
  have hchecked : ∀ name, Traces (checked name) (gchecked name) := fun _ =>
    traces_ite (traces_expected _) (traces_pure _)
  split
  · exact (traces_takeWord _).bind fun _ =>
      traces_ite ((traces_pure _).bind hchecked) ((traces_expected _).bind hchecked)
  · exact (traces_pure _).bind hchecked

theorem traces_keyPartitioning : Traces Grammar.keyPartitioning Grammar.keyPartitioning := by
  unfold Grammar.keyPartitioning
  refine (traces_expect rfl).bind fun _ => (traces_takeIf rfl).bind fun _ => ?_
  extract_lets columns afterKey gcolumns gafterKey
  have hcolumns : ∀ u, Traces (columns u) (gcolumns u) := by
    intro u
    refine ((traces_lift Grammar.quoteBlind_qualifiedName).sepBy1 rfl).bind fun _ =>
      (traces_expect rfl).bind fun _ => (traces_takeWord _).bind fun _ => ?_
    extract_lets finish gfinish
    have hfinish : ∀ partitions, Traces (finish partitions) (gfinish partitions) :=
      fun _ => traces_pure _
    split
    · exact (traces_expression.map some).bind hfinish
    · exact (traces_pure _).bind hfinish
  have hafterKey : ∀ u, Traces (afterKey u) (gafterKey u) := by
    intro u
    refine (traces_expect rfl).bind fun _ => traces_peek_bind (fun _ => ?_) fun _ => rfl
    split
    · exact (traces_expected _).bind hcolumns
    · exact hcolumns ()
  split
  · exact (traces_unsupported _).bind hafterKey
  · exact hafterKey ()

theorem traces_tailClause (stmt : Statement) :
    Traces (Grammar.tailClause stmt) (Grammar.tailClause stmt) := by
  refine traces_optionName.bind fun r => ?_
  split
  · exact (traces_expect rfl).bind fun _ => (traces_lift Grammar.quoteBlind_optionValue).bind
      fun _ => traces_pure _
  refine (traces_peekWord _).bind fun b => ?_
  split
  · split
    · exact traces_expected _
    · exact traces_takeAny_bind (traces_keyPartitioning.bind fun _ => traces_pure _)
  · exact traces_pure _

theorem traces_trailingQuery : Traces Grammar.trailingQuery Grammar.trailingQuery :=
  (traces_takeIf rfl).bind fun _ => traces_peek_bind
    (fun _ => traces_ite (traces_select.bind fun _ => traces_pure _) (traces_pure _)) fun _ => rfl

theorem traces_tableTail (d : Dialect) (stmt : Statement) :
    Traces (Grammar.tableTail d stmt) (Grammar.tableTail d stmt) := by
  unfold Grammar.tableTail
  extract_lets rest grest
  have hrest : ∀ stmt, Traces (rest stmt) (grest stmt) := fun _ =>
    (traces_lift Grammar.quoteBlind_rejectOnClause).bind fun _ =>
      traces_trailingQuery.bind fun _ => traces_pure _
  cases d with
  | generic => exact (traces_pure _).bind hrest
  | mysql => exact (Traces.loop traces_tailClause _ _).bind hrest

theorem traces_createTable (d : Dialect) (acceptCreate : Bool) :
    Traces (Grammar.createTable d acceptCreate) (Grammar.createTable d acceptCreate) := by
  unfold Grammar.createTable
  extract_lets tail afterCreate gtail gafterCreate
  have htail : ∀ stmt, Traces (tail stmt) (gtail stmt) := fun _ => traces_tableTail d _
  have hafterCreate : ∀ u, Traces (afterCreate u) (gafterCreate u) := by
    intro u
    refine (traces_takeIf rfl).bind fun _ => (traces_expect rfl).bind fun _ =>
      (traces_takeIf rfl).bind fun _ => ?_
    extract_lets afterIf gafterIf
    have hafterIf : ∀ b, Traces (afterIf b) (gafterIf b) := by
      intro b
      refine (traces_lift Grammar.quoteBlind_qualifiedName).bind fun _ => ?_
      extract_lets stmt
      refine traces_peek_bind (fun _ => ?_) fun _ => rfl
      split
      · exact (traces_tableElements d).bind fun _ => (traces_pure _).bind htail
      · exact (traces_pure _).bind htail
    split
    · exact (traces_expect rfl).bind fun _ => (traces_expect rfl).bind fun _ =>
        (traces_pure _).bind hafterIf
    · exact (traces_pure _).bind hafterIf
  split
  · exact (traces_expect rfl).bind hafterCreate
  · exact hafterCreate ()

theorem traces_statement (d : Dialect) :
    Traces (Grammar.statement d) (Grammar.statement d) :=
  (traces_createTable d true).bind fun _ => (traces_takeIf rfl).bind fun _ =>
    traces_peek_bind (fun _ => traces_ite (traces_expected _) (traces_pure _)) fun _ => rfl

end Traced

/-! ## Quoting names -/

/-- Quoting bare identifiers anywhere away from the places the parse of `sql` reads as dialect
words keeps what the text parses to: the same statement, or an error for both. -/
theorem parse_toOption_eq_of_requotes {d : Dialect} {sql sql' : String}
    (h : (Cursor.ofString sql).Requotes (· ∉ wordReads d sql) (Cursor.ofString sql')) :
    (parse d sql).toOption = (parse d sql').toOption := by
  have hs := (Traced.traces_statement d).blind _ _ _ h fun _ ho hno => hno ho
  obtain ⟨e, e', h₁, h₂⟩ | ⟨a, c, c', h₁, h₂, -⟩ := Grammar.requotedRuns_iff.1 hs <;>
    simp only [parse, h₁, h₂, Except.map, Except.toOption]

example :
    (parse .mysql "CREATE TABLE t (id INT, INDEX USING b (id))").toOption.isSome ∧
      (parse .mysql "CREATE TABLE t (id INT, INDEX `USING` b (id))").toOption.isNone := by
  decide +kernel

/-- A column named `engine`, an index named `partition` and an option value `using` may be
quoted with every other name of a statement that parses; the `USING` before the index type and
the option name `ENGINE` are read as words and stay bare. -/
theorem quoting_names_keeps_parse :
    (Cursor.ofString ("CREATE TABLE s.t (engine INT, id INT, " ++
        "INDEX partition USING b (id)) ENGINE = using SELECT engine AS k FROM u")).Requotes
      (· ∉ wordReads .mysql ("CREATE TABLE s.t (engine INT, id INT, " ++
        "INDEX partition USING b (id)) ENGINE = using SELECT engine AS k FROM u"))
      (Cursor.ofString ("CREATE TABLE `s`.`t` (`engine` INT, `id` INT, INDEX `partition` " ++
        "USING `b` (`id`)) ENGINE = `using` SELECT `engine` AS `k` FROM `u`")) ∧
    (parse .mysql ("CREATE TABLE s.t (engine INT, id INT, " ++
        "INDEX partition USING b (id)) ENGINE = using SELECT engine AS k FROM u")).toOption.isSome ∧
    (parse .mysql ("CREATE TABLE s.t (engine INT, id INT, " ++
        "INDEX partition USING b (id)) ENGINE = using SELECT engine AS k FROM u")).toOption =
      (parse .mysql ("CREATE TABLE `s`.`t` (`engine` INT, `id` INT, INDEX `partition` " ++
        "USING `b` (`id`)) ENGINE = `using` SELECT `engine` AS `k` FROM `u`")).toOption := by
  refine ⟨?h, by decide +kernel, parse_toOption_eq_of_requotes ?h⟩
  decide +kernel

/-- Quoting is a change of tokens, not of text: a bare word right before a quoted name runs into
it once quoted. `a` before the quoted `b` is a column with the alias `b`; quoted, the two are one
quoted identifier with a doubled backquote, a column of its own with no alias. -/
theorem quoting_before_backquote_joins_names :
    (parse .mysql "CREATE TABLE t (a INT) SELECT a`b`").toOption.map
        (fun st => st.query.map (·.items.map (·.aliasName))) = some (some [some "b"]) ∧
      (parse .mysql "CREATE TABLE t (a INT) SELECT `a``b`").toOption.map
        (fun st => st.query.map (·.items.map (·.aliasName))) = some (some [none]) := by
  constructor <;> decide +kernel

end SqlDdl
