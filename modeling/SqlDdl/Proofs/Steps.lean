import SqlDdl.Proofs.Lexing
import SqlDdl.Grammar.Cursor

/-!
# Steps read one stream

A parser reads the token stream of one text from the front. Every cursor it passes through is a
place in that stream: it holds the stream's last tokens and ends the way the stream ends
(`Cursor.In`). An error found there should point into the stream: a lex error is the one the
stream stops with, and any other error names the token it found, at the byte where that token
starts, or the end of the text, at the byte where the stream ends (`ParseError.PointsInto`).

`Sound s X g` says that the step `g`, run from a place in `s`, ends at a place in `s`, or fails
with an error that points into `s` or that `X` admits. The grammar's own combinators need no
admission (`X` empty): each is proved sound once here, together with an equation for its run,
so that a rule's proof follows the rule's text. A rule that builds an error by hand is where an
admission can enter.
-/

namespace SqlDdl

/-- The cursor is a place in the stream `s`: it holds the last tokens of `s` and ends as `s`
does. -/
def Cursor.In (c : Cursor) (s : TokenStream) : Prop :=
  c.rest <:+ s.tokens ∧ c.stop = s.stop

/-- Where an error found in `s` should point: a lex error is the one `s` stops with; an error
that names the end of the text stands at the offset where `s` ends, and one that names a token
at the offset where that token of `s` starts. -/
def ParseError.PointsInto (s : TokenStream) : ParseError → Prop
  | .lex e => s.stop = .failed e
  | .expected _ none n | .unsupported _ none n => s.stop = .finished n
  | .expected _ (some t) n | .unsupported _ (some t) n => ⟨t, n⟩ ∈ s.tokens

namespace Cursor

variable {c : Cursor} {s : TokenStream}

theorem ofStream_in (s : TokenStream) : (ofStream s).In s :=
  ⟨List.suffix_refl _, rfl⟩

theorem In.advance (h : c.In s) : c.advance.In s :=
  ⟨(List.tail_suffix c.rest).trans h.1, h.2⟩

/-- What `peek` sees at a place in `s`, named with the offset there, points into `s`. -/
theorem In.peek_pointsInto (h : c.In s) (what : String) :
    (match c.peek with
      | .ok found => ParseError.expected what found c.offset
      | .error e => e).PointsInto s ∧
    (match c.peek with
      | .ok found => ParseError.unsupported what found c.offset
      | .error e => e).PointsInto s := by
  obtain ⟨hrest, hstop⟩ := h
  unfold peek offset
  rcases hc : c.rest with _ | ⟨t, r⟩
  · rcases hs : c.stop with n | e <;> rw [hs] at hstop <;>
      simp [ParseError.PointsInto, hstop]
  · have ht : t ∈ s.tokens := hrest.subset (by simp [hc])
    simp [ParseError.PointsInto, ht]

theorem In.expectedHere (h : c.In s) (what : String) : (c.expectedHere what).PointsInto s :=
  (h.peek_pointsInto what).1

theorem In.unsupportedHere (h : c.In s) (construct : String) :
    (c.unsupportedHere construct).PointsInto s :=
  (h.peek_pointsInto construct).2

/-- A lex error that `peek` reports at a place in `s` is the one `s` stops with. -/
theorem In.peek_error (h : c.In s) {e : ParseError} (he : c.peek = .error e) :
    e.PointsInto s := by
  have := (h.peek_pointsInto "").1
  rwa [he] at this

/-- The next token at a place in `s` stands in `s` at the offset there. -/
theorem In.next?_mem (h : c.In s) {tok : Token} (hn : c.next? = some tok) :
    ⟨tok, c.offset⟩ ∈ s.tokens := by
  unfold next? at hn
  unfold offset
  rcases hc : c.rest with _ | ⟨t, r⟩
  · simp [hc] at hn
  · simp only [hc, List.head?_cons, Option.map_some, Option.some.injEq] at hn
    subst hn
    exact h.1.subset (by simp [hc])

/-- A token that `peek` sees is the next one. -/
theorem next?_of_peek {tok : Token} (hp : c.peek = .ok (some tok)) : c.next? = some tok := by
  unfold peek at hp
  unfold next?
  rcases hc : c.rest with _ | ⟨t, r⟩
  · rcases hs : c.stop with n | e <;> simp [hc, hs] at hp
  · simp only [hc, Except.ok.injEq, Option.some.injEq] at hp
    simp [hp]

/-- Where `peek` sees neither a token nor a lex error, the stream has ended without one. -/
theorem rest_of_peek_none (hp : c.peek = .ok none) : c.rest = [] ∧ ∃ n, c.stop = .finished n := by
  unfold peek at hp
  rcases hc : c.rest with _ | ⟨t, r⟩
  · rcases hs : c.stop with n | e
    · exact ⟨rfl, n, rfl⟩
    · simp [hc, hs] at hp
  · simp [hc] at hp

end Cursor

namespace Grammar

variable {α β σ : Type}

/-! ## Runs of the combinators -/

theorem run_bind (g : Grammar α) (f : α → Grammar β) (c : Cursor) :
    (g >>= f).run c =
      match g.run c with
      | .error e => .error e
      | .ok (a, c') => (f a).run c' := by
  show (Grammar.bind g f).run c = _
  unfold Grammar.bind run
  dsimp only
  rcases g c with e | ⟨a, c₁, h₁⟩
  · rfl
  · dsimp only
    rcases f a c₁ with e | ⟨b, c₂, h₂⟩ <;> rfl

/-- A sequence that succeeds ran both of its parts to success. -/
theorem run_bind_eq_ok {g : Grammar α} {f : α → Grammar β} {c c' : Cursor} {b : β}
    (h : (g >>= f).run c = .ok (b, c')) :
    ∃ a c₁, g.run c = .ok (a, c₁) ∧ (f a).run c₁ = .ok (b, c') := by
  rw [run_bind] at h
  rcases hg : g.run c with e | ⟨a, c₁⟩ <;> rw [hg] at h
  · cases h
  · exact ⟨a, c₁, rfl, h⟩

@[simp] theorem run_pure (a : α) (c : Cursor) : (pure a : Grammar α).run c = .ok (a, c) := rfl

@[simp] theorem run_fail (e : ParseError) (c : Cursor) :
    (fail e : Grammar α).run c = .error e := rfl

@[simp] theorem run_expected (what : String) (c : Cursor) :
    (expected what : Grammar α).run c = .error (c.expectedHere what) := rfl

@[simp] theorem run_unsupported (construct : String) (c : Cursor) :
    (unsupported construct : Grammar α).run c = .error (c.unsupportedHere construct) := rfl

theorem run_peek (c : Cursor) :
    peek.run c = match c.peek with
      | .ok t => .ok (t, c)
      | .error e => .error e := by
  unfold peek run
  dsimp only
  cases c.peek <;> rfl

@[simp] theorem run_offset (c : Cursor) : offset.run c = .ok (c.offset, c) := rfl

theorem run_takeMap (f : Token → Option β) (c : Cursor) :
    (takeMap f).run c = match c.next? >>= f with
      | some b => .ok (some b, c.advance)
      | none => .ok (none, c) := by
  unfold takeMap run
  dsimp only
  cases c.next? >>= f <;> rfl

theorem run_takeIf (t : Token) (c : Cursor) :
    (takeIf t).run c = if c.next? = some t then .ok (true, c.advance) else .ok (false, c) := by
  unfold takeIf
  rw [run_bind, run_takeMap]
  by_cases h : c.next? = some t
  · simp [h]
  · rcases hn : c.next? with _ | u
    · simp
    · have hu : u ≠ t := fun hu => h (hu ▸ hn)
      simp [hu]

/-- A successful `expect t` read a `t`. -/
theorem run_expect_ok {t : Token} {c c' : Cursor} {u : Unit} (h : (expect t).run c = .ok (u, c')) :
    c.next? = some t ∧ c' = c.advance := by
  unfold expect at h
  rw [run_bind, run_takeIf] at h
  by_cases hn : c.next? = some t
  · simp only [hn, ↓reduceIte, run_pure, Except.ok.injEq, Prod.mk.injEq] at h
    exact ⟨hn, h.2.symm⟩
  · simp [hn] at h

/-- A successful `expectName` read a name. -/
theorem run_expectName_ok {what name : String} {c c' : Cursor}
    (h : (expectName what).run c = .ok (name, c')) :
    ∃ t, c.next? = some t ∧ t.name? = some name ∧ c' = c.advance := by
  unfold expectName at h
  rw [run_bind, run_takeMap] at h
  rcases hx : c.next? >>= Token.name? with _ | n <;> rw [hx] at h
  · simp at h
  · simp only [run_pure, Except.ok.injEq, Prod.mk.injEq] at h
    obtain ⟨rfl, rfl⟩ := h
    obtain ⟨t, hn, ht⟩ := Option.bind_eq_some_iff.mp hx
    exact ⟨t, hn, ht, rfl⟩

@[simp] theorem run_peekWord (w : String) (c : Cursor) :
    (peekWord w).run c = .ok ((match c.next? with
      | some (.ident s) => Text.equalsIgnoringAsciiCase s w
      | _ => false), c) := rfl

@[simp] theorem run_peekName (c : Cursor) :
    peekName.run c = .ok ((c.next? >>= Token.name?).isSome, c) := rfl

/-- One round of `loop`: it finishes, fails, goes on from a cursor nearer the end, or stops
where it read nothing. -/
theorem run_loop (round : σ → Grammar (β ⊕ σ)) (done : σ → β) (s : σ) (c : Cursor) :
    (loop round done s).run c =
      match (round s).run c with
      | .error e => .error e
      | .ok (.inl b, c') => .ok (b, c')
      | .ok (.inr s', c') =>
        if c'.size < c.size then (loop round done s').run c' else .ok (done s', c') := by
  unfold loop run
  rw [loopFrom]
  rcases round s c with e | ⟨b | s', c', h⟩
  · rfl
  · rfl
  · dsimp only
    by_cases hlt : c'.size < c.size
    · rw [dif_pos hlt, if_pos hlt]
      rcases loopFrom round done s' c' with e | ⟨b, c'', h'⟩ <;> rfl
    · rw [dif_neg hlt, if_neg hlt]

/-- What holds of every successful run of a repetition: it holds where a round finishes, and
where a round goes on without reading, and it carries back over a round that goes on and reads.
The induction is on the tokens left, as the repetition's own. -/
theorem loop_induction {round : σ → Grammar (β ⊕ σ)} {done : σ → β}
    {P : σ → Cursor → β → Cursor → Prop}
    (hdone : ∀ s c b c', (round s).run c = .ok (.inl b, c') → P s c b c')
    (hstay : ∀ s c s' c', (round s).run c = .ok (.inr s', c') → ¬ c'.size < c.size →
      P s c (done s') c')
    (hmore : ∀ s c s' c₁ b c', (round s).run c = .ok (.inr s', c₁) → c₁.size < c.size →
      P s' c₁ b c' → P s c b c')
    {s : σ} {c : Cursor} {b : β} {c' : Cursor} (h : (loop round done s).run c = .ok (b, c')) :
    P s c b c' := by
  induction hn : c.size using Nat.strong_induction_on generalizing c s with
  | _ n ih =>
      rw [run_loop] at h
      rcases hr : (round s).run c with e | ⟨b' | s', c₁⟩ <;> rw [hr] at h
      · cases h
      · cases h
        exact hdone s c b c' hr
      · dsimp only at h
        split at h
        · next hlt => exact hmore s c s' c₁ b c' hr hlt (ih _ (hn ▸ hlt) h rfl)
        · next hlt =>
            cases h
            exact hstay s c s' _ hr hlt

/-! ## The invariant -/

/-- What a run from a place in `s` may end with: a place in `s`, or an error that points into
`s` or that `X` admits. -/
def Safe (s : TokenStream) (X : ParseError → Prop) : Except ParseError (α × Cursor) → Prop
  | .error e => e.PointsInto s ∨ X e
  | .ok (_, c) => c.In s

/-- Run from any place in `s`, the step `g` ends at a place in `s`, or fails with an error that
points into `s` or that `X` admits. -/
def Sound (s : TokenStream) (X : ParseError → Prop) (g : Grammar α) : Prop :=
  ∀ c, c.In s → Safe s X (g.run c)

variable {s : TokenStream} {X Y : ParseError → Prop}

theorem Sound.mono {g : Grammar α} (h : Sound s X g) (hXY : ∀ e, X e → Y e) : Sound s Y g := by
  intro c hc
  have := h c hc
  revert this
  unfold Safe
  split
  · exact Or.imp_right (hXY _)
  · exact id

theorem sound_pure (a : α) : Sound s X (pure a) := fun _ hc => hc

theorem Sound.bind {g : Grammar α} {f : α → Grammar β} (hg : Sound s X g)
    (hf : ∀ a, Sound s X (f a)) : Sound s X (g >>= f) := by
  intro c hc
  have h := hg c hc
  rw [run_bind]
  revert h
  unfold Safe
  split
  · exact id
  · next a c' hrun => exact hf a c'

theorem Sound.map {g : Grammar α} (hg : Sound s X g) (f : α → β) : Sound s X (f <$> g) :=
  hg.bind fun a => sound_pure (f a)

theorem sound_fail {e : ParseError} (he : e.PointsInto s ∨ X e) : Sound s X (fail e : Grammar α) :=
  fun _ _ => he

theorem sound_expected (what : String) : Sound s X (expected what : Grammar α) :=
  fun _ hc => .inl (hc.expectedHere what)

theorem sound_unsupported (construct : String) : Sound s X (unsupported construct : Grammar α) :=
  fun _ hc => .inl (hc.unsupportedHere construct)

theorem sound_peek : Sound s X peek := by
  intro c hc
  rw [run_peek]
  split
  · exact hc
  · next e he => exact .inl (hc.peek_error he)

theorem sound_offset : Sound s X offset := fun _ hc => hc

theorem sound_takeMap (f : Token → Option β) : Sound s X (takeMap f) := by
  intro c hc
  rw [run_takeMap]
  split
  · exact hc.advance
  · exact hc

theorem sound_takeAny : Sound s X takeAny := sound_takeMap some

theorem sound_takeIf (t : Token) : Sound s X (takeIf t) :=
  (sound_takeMap _).bind fun _ => sound_pure _

theorem sound_expect (t : Token) : Sound s X (expect t) := by
  refine (sound_takeIf t).bind fun b => ?_
  cases b
  · exact sound_expected _
  · exact sound_pure _

theorem sound_expectName (what : String) : Sound s X (expectName what) := by
  refine (sound_takeMap _).bind fun n => ?_
  cases n
  · exact sound_expected _
  · exact sound_pure _

theorem sound_peekWord (w : String) : Sound s X (peekWord w) := fun _ hc => hc

theorem sound_takeWord (w : String) : Sound s X (takeWord w) :=
  (sound_takeMap _).bind fun _ => sound_pure _

theorem sound_peekName : Sound s X peekName := fun _ hc => hc

/-- A repetition of sound rounds is sound; the induction is on the tokens left. -/
theorem sound_loop {round : σ → Grammar (β ⊕ σ)} (h : ∀ st, Sound s X (round st))
    (done : σ → β) (st : σ) : Sound s X (loop round done st) := by
  intro c hc
  induction hn : c.size using Nat.strong_induction_on generalizing c st with
  | _ n ih =>
      have hround := h st c hc
      rw [run_loop]
      rcases hr : (round st).run c with e | ⟨b | st', c'⟩ <;> rw [hr] at hround
      · exact hround
      · exact hround
      · dsimp only
        split
        · next hlt => exact ih c'.size (hn ▸ hlt) st' c' hround rfl
        · exact hround

theorem sound_sepBy1 {item : Grammar α} (h : Sound s X item) (sep : Token) :
    Sound s X (sepBy1 item sep) := by
  refine sound_loop (fun acc => h.bind fun a => (sound_takeIf sep).bind fun b => ?_) _ _
  cases b <;> exact sound_pure _

end Grammar

end SqlDdl
