import SqlDdl.Proofs.Progress
import SqlDdl.Proofs.Invariant

/-!
# Text after the end of a text

The parser reads with one token of lookahead, so how it reads a text depends on what follows
that text only where it looks past the text's last token. `Cursor.Ahead more c d` says that the
place `d` holds the tokens of `c` and then `more`, where the text of `c` ended; `RunsFrom` says
that a step runs alike from `c` and from `d`, in both directions: it gives the same value, and
stops at the same token with `more` after it on `d`'s side.

A step that stops before the last token of the text (`Inside`) has seen no token past it, so
every rule runs alike there (`insideRuns`, an `Invariant`). A step that stops at the end of the
text has looked at the first token of `more`: it runs alike only when that token goes on with
none of the phrases the step may end with, and those rules are taken one by one
(`runsAhead_peek_bind`, `runsAhead_takeMap_end`). A step that reads a token whenever it succeeds
never succeeds from the end of a text, so only starts inside the text need a proof
(`runsAhead_of_consumesFor`).
-/

namespace SqlDdl

namespace Cursor

/-- The place `d` holds the tokens ahead of `c` and then `more`, and the text of `c` ends
without a lex error: `d` is `c` with more text after it. -/
def Ahead (more : List Spanned) (c d : Cursor) : Prop :=
  (∃ n, c.stop = .finished n) ∧ d.rest = c.rest ++ more

variable {more rs : List Spanned} {c d : Cursor}

theorem Ahead.size (h : c.Ahead more d) : d.size = c.size + more.length := by
  rw [d.size_eq, c.size_eq, h.2, List.length_append]

theorem Ahead.rest_eq (h : c.Ahead more d) (hd : d.rest = rs ++ more) : c.rest = rs :=
  List.append_cancel_right (h.2.symm.trans hd)

theorem Ahead.next? (h : c.Ahead more d) (hc : c.rest ≠ []) : d.next? = c.next? := by
  obtain ⟨t, r, hr⟩ := List.exists_cons_of_ne_nil hc
  simp [Cursor.next?, h.2, hr]

theorem Ahead.peek (h : c.Ahead more d) (hc : c.rest ≠ []) : d.peek = c.peek := by
  obtain ⟨t, r, hr⟩ := List.exists_cons_of_ne_nil hc
  unfold Cursor.peek
  rw [h.2, hr]
  rfl

theorem Ahead.offset (h : c.Ahead more d) (hc : c.rest ≠ []) : d.offset = c.offset := by
  obtain ⟨t, r, hr⟩ := List.exists_cons_of_ne_nil hc
  unfold Cursor.offset
  rw [h.2, hr]
  rfl

theorem Ahead.advance (h : c.Ahead more d) (hc : c.rest ≠ []) :
    c.advance.Ahead more d.advance := by
  obtain ⟨t, r, hr⟩ := List.exists_cons_of_ne_nil hc
  exact ⟨h.1, by simp [Cursor.advance, h.2, hr]⟩

/-- At the end of the text of `c`, `c` shows the end and `d` the first token of `more`. -/
theorem Ahead.peek_end (h : c.Ahead more d) (hc : c.rest = []) : c.peek = .ok none := by
  obtain ⟨n, hn⟩ := h.1
  unfold Cursor.peek
  rw [hc, hn]

theorem Ahead.next?_end (h : c.Ahead more d) (hc : c.rest = []) :
    c.next? = none ∧ d.next? = more.head?.map (·.token) := by
  simp [Cursor.next?, h.2, hc]

theorem Ahead.peek_first {x : Spanned} (h : c.Ahead (x :: more) d) (hc : c.rest = []) :
    d.peek = .ok (some x.token) := by
  unfold Cursor.peek
  rw [h.2, hc]
  rfl

end Cursor

namespace Grammar

variable {α β σ : Type}

/-- Rests that lie before the end of a text: some of its tokens are left. -/
def Inside (rs : List Spanned) : Prop := rs ≠ []

theorem inside_append {m rs : List Spanned} (h : Inside rs) : Inside (m ++ rs) := by
  simp only [Inside, ne_eq, List.append_eq_nil_iff, not_and] at h ⊢
  exact fun _ => h

/-- Rests anywhere, up to the end of a text. -/
def Anywhere : List Spanned → Prop := fun _ => True

theorem anywhere_append (m rs : List Spanned) (_ : Anywhere rs) : Anywhere (m ++ rs) := trivial

/-- `g` runs alike from `c` and from `d`, which has `more` after the tokens of `c`, wherever it
stops with a value that `Q` admits at a rest that `P` admits: from each place it gives what it
gives from the other, and stops where the other stops, with `more` after it on `d`'s side. -/
def RunsFrom (P : List Spanned → Prop) (Q : α → Prop) (more : List Spanned) (g : Grammar α)
    (c d : Cursor) : Prop :=
  ∀ a, Q a →
    (∀ c', g.run c = .ok (a, c') → P c'.rest →
      ∃ d', g.run d = .ok (a, d') ∧ c'.Ahead more d') ∧
    (∀ d' rs, g.run d = .ok (a, d') → d'.rest = rs ++ more → P rs →
      ∃ c', g.run c = .ok (a, c') ∧ c'.Ahead more d')

/-- `g` never reads backwards, and runs alike from every place and from that place with `more`
after its text. -/
def RunsAhead (P : List Spanned → Prop) (Q : α → Prop) (more : List Spanned) (g : Grammar α) :
    Prop :=
  Monotone g ∧ ∀ c d, c.Ahead more d → RunsFrom P Q more g c d

variable {P : List Spanned → Prop} {more : List Spanned} {c d : Cursor}
  {g : Grammar α} {f : α → Grammar β}

/-! ## Sequences, choices and repetitions -/

theorem RunsFrom.bind {Q : β → Prop} (hP : ∀ m rs, P rs → P (m ++ rs))
    (hmono : ∀ a, Monotone (f a)) (hg : RunsFrom P (fun _ => True) more g c d)
    (hf : ∀ a c₁ d₁, g.run c = .ok (a, c₁) → g.run d = .ok (a, d₁) → c₁.Ahead more d₁ →
      RunsFrom P Q more (f a) c₁ d₁) :
    RunsFrom P Q more (g >>= f) c d := by
  intro b hb
  constructor
  · intro c' hrun hc'
    obtain ⟨a, c₁, h₁, h₂⟩ := run_bind_eq_ok hrun
    obtain ⟨m, hm⟩ := hmono a _ _ _ h₂
    obtain ⟨d₁, hd₁, had₁⟩ := (hg a trivial).1 c₁ h₁ (hm ▸ hP m _ hc')
    obtain ⟨d', hd', had'⟩ := (hf a c₁ d₁ h₁ hd₁ had₁ b hb).1 c' h₂ hc'
    exact ⟨d', by rw [run_bind, hd₁]; exact hd', had'⟩
  · intro d' rs hrun hrs hrs'
    obtain ⟨a, d₁, h₁, h₂⟩ := run_bind_eq_ok hrun
    obtain ⟨m, hm⟩ := hmono a _ _ _ h₂
    have hd₁ : d₁.rest = (m ++ rs) ++ more := by rw [← hm, hrs, List.append_assoc]
    obtain ⟨c₁, hc₁, had₁⟩ := (hg a trivial).2 d₁ (m ++ rs) h₁ hd₁ (hP m rs hrs')
    obtain ⟨c', hc', had'⟩ := (hf a c₁ d₁ hc₁ h₁ had₁ b hb).2 d' rs h₂ hrs hrs'
    exact ⟨c', by rw [run_bind, hc₁]; exact hc', had'⟩

theorem RunsAhead.bind {Q : β → Prop} (hP : ∀ m rs, P rs → P (m ++ rs))
    (hg : RunsAhead P (fun _ => True) more g) (hf : ∀ a, RunsAhead P Q more (f a)) :
    RunsAhead P Q more (g >>= f) :=
  ⟨hg.1.bind fun a => (hf a).1, fun c d had =>
    (hg.2 c d had).bind hP (fun a => (hf a).1) fun a c₁ d₁ _ _ had₁ =>
      (hf a).2 c₁ d₁ had₁⟩

theorem runsAhead_pure {Q : α → Prop} (a : α) : RunsAhead P Q more (pure a : Grammar α) := by
  refine ⟨monotone_pure a, fun c d had b _ => ⟨fun c' hc _ => ?_, fun d' rs hd _ _ => ?_⟩⟩
  · simp only [run_pure, Except.ok.injEq, Prod.mk.injEq] at hc
    obtain ⟨rfl, rfl⟩ := hc
    exact ⟨d, rfl, had⟩
  · simp only [run_pure, Except.ok.injEq, Prod.mk.injEq] at hd
    obtain ⟨rfl, rfl⟩ := hd
    exact ⟨c, rfl, had⟩

theorem runsAhead_of_fails {Q : α → Prop} (h : ∀ c, ∃ e, g.run c = .error e) :
    RunsAhead P Q more g := by
  have hnot : ∀ c a c', g.run c ≠ .ok (a, c') := fun c a c' hrun => by
    obtain ⟨e, he⟩ := h c
    rw [he] at hrun
    cases hrun
  exact ⟨fun c a c' hrun => absurd hrun (hnot c a c'),
    fun c d _ a _ => ⟨fun c' hrun _ => absurd hrun (hnot c a c'),
      fun d' _ hrun _ _ => absurd hrun (hnot d a d')⟩⟩

theorem runsAhead_expected {Q : α → Prop} (what : String) :
    RunsAhead P Q more (expected what : Grammar α) :=
  runsAhead_of_fails fun _ => ⟨_, rfl⟩

theorem runsAhead_unsupported {Q : α → Prop} (construct : String) :
    RunsAhead P Q more (unsupported construct : Grammar α) :=
  runsAhead_of_fails fun _ => ⟨_, rfl⟩

theorem runsAhead_fail {Q : α → Prop} (e : ParseError) :
    RunsAhead P Q more (fail e : Grammar α) :=
  runsAhead_of_fails fun _ => ⟨_, rfl⟩

/-- A step that reads a token whenever it succeeds with a value `Q` admits gives no such value
from the end of a text, and from the place after it only a place past the first token of
`more`: so only its starts inside the text need a proof. -/
theorem runsAhead_of_consumesFor {Q : α → Prop} (hmono : Monotone g) (hg : ConsumesFor Q g)
    (h : ∀ c d, c.rest ≠ [] → c.Ahead more d → RunsFrom P Q more g c d) :
    RunsAhead P Q more g := by
  refine ⟨hmono, fun c d had => ?_⟩
  by_cases hc : c.rest = []
  · intro a ha
    constructor
    · intro c' hrun _
      have hlt := hg c a c' hrun ha
      rw [c.size_eq, hc] at hlt
      exact absurd hlt (Nat.not_lt_zero _)
    · intro d' rs hrun hrs _
      have hlt := hg d a d' hrun ha
      rw [d'.size_eq, d.size_eq, hrs, had.2, hc] at hlt
      simp at hlt
  · exact h c d hc had

/-- Rounds that run alike make repetitions that run alike: both sides take the same rounds, and
the places where they go on are as far from the end. -/
theorem RunsAhead.loop {Q : β → Prop} (hP : ∀ m rs, P rs → P (m ++ rs))
    {round : σ → Grammar (β ⊕ σ)} (h : ∀ s, RunsAhead P (fun _ => True) more (round s))
    (done : σ → β) (s : σ) :
    RunsAhead P Q more (loop round done s) := by
  refine ⟨Monotone.loop (fun s => (h s).1) done s, fun c d had => ?_⟩
  induction hn : c.size using Nat.strong_induction_on generalizing c d s with
  | _ n ih =>
    intro b hb
    constructor
    · intro c' hrun hc'
      have hloop := hrun
      rw [run_loop] at hrun
      rcases hr : (round s).run c with e | ⟨b' | s', c₁⟩ <;> rw [hr] at hrun
      · cases hrun
      · cases hrun
        obtain ⟨d', hd', had'⟩ := ((h s).2 c d had _ trivial).1 c' hr hc'
        exact ⟨d', by rw [run_loop, hd'], had'⟩
      · dsimp only at hrun
        split at hrun
        · next hlt =>
          obtain ⟨m, hm⟩ := Monotone.loop (fun s => (h s).1) done s' _ _ _ hrun
          obtain ⟨d₁, hd₁, had₁⟩ :=
            ((h s).2 c d had _ trivial).1 c₁ hr (hm ▸ hP m _ hc')
          obtain ⟨d', hd', had'⟩ :=
            (ih c₁.size (hn ▸ hlt) s' c₁ d₁ had₁ rfl b hb).1 c' hrun hc'
          refine ⟨d', ?_, had'⟩
          rw [run_loop, hd₁]
          dsimp only
          rw [if_pos (by rw [had.size, had₁.size]; omega)]
          exact hd'
        · next hlt =>
          simp only [Except.ok.injEq, Prod.mk.injEq] at hrun
          obtain ⟨rfl, rfl⟩ := hrun
          obtain ⟨d₁, hd₁, had₁⟩ := ((h s).2 c d had _ trivial).1 _ hr hc'
          refine ⟨d₁, ?_, had₁⟩
          rw [run_loop, hd₁]
          dsimp only
          rw [if_neg (by rw [had.size, had₁.size]; omega)]
    · intro d' rs hrun hrs hrs'
      rw [run_loop] at hrun
      rcases hr : (round s).run d with e | ⟨b' | s', d₁⟩ <;> rw [hr] at hrun
      · cases hrun
      · cases hrun
        obtain ⟨c', hc', had'⟩ := ((h s).2 c d had _ trivial).2 d' rs hr hrs hrs'
        exact ⟨c', by rw [run_loop, hc'], had'⟩
      · dsimp only at hrun
        split at hrun
        · next hlt =>
          obtain ⟨m, hm⟩ := Monotone.loop (fun s => (h s).1) done s' _ _ _ hrun
          have hd₁ : d₁.rest = (m ++ rs) ++ more := by rw [← hm, hrs, List.append_assoc]
          obtain ⟨c₁, hc₁, had₁⟩ :=
            ((h s).2 c d had _ trivial).2 d₁ (m ++ rs) hr hd₁ (hP m rs hrs')
          have hlt' : c₁.size < c.size := by rw [had.size, had₁.size] at hlt; omega
          obtain ⟨c', hc', had'⟩ :=
            (ih c₁.size (hn ▸ hlt') s' c₁ d₁ had₁ rfl b hb).2 d' rs hrun hrs hrs'
          refine ⟨c', ?_, had'⟩
          rw [run_loop, hc₁]
          dsimp only
          rw [if_pos hlt']
          exact hc'
        · next hlt =>
          simp only [Except.ok.injEq, Prod.mk.injEq] at hrun
          obtain ⟨rfl, rfl⟩ := hrun
          obtain ⟨c₁, hc₁, had₁⟩ := ((h s).2 c d had _ trivial).2 _ rs hr hrs hrs'
          refine ⟨c₁, ?_, had₁⟩
          rw [run_loop, hc₁]
          dsimp only
          rw [if_neg (by rw [had.size, had₁.size] at hlt; omega)]

/-! ## Steps that look at one token -/

/-- Two outcomes of a step that correspond: both errors, or the same value at places with `more`
between them. -/
def Mirrors (more : List Spanned) :
    Except ParseError (α × Cursor) → Except ParseError (α × Cursor) → Prop
  | .error _, .error _ => True
  | .ok (a, c'), .ok (a', d') => a = a' ∧ c'.Ahead more d'
  | .error _, .ok _ => False
  | .ok _, .error _ => False

theorem RunsFrom.of_mirrors {Q : α → Prop} (h : Mirrors more (g.run c) (g.run d)) :
    RunsFrom P Q more g c d := by
  intro a _
  constructor
  · intro c' hc _
    rw [hc] at h
    revert h
    rcases g.run d with e | ⟨a', d'⟩
    · exact False.elim
    · rintro ⟨rfl, had⟩
      exact ⟨d', rfl, had⟩
  · intro d' rs hd _ _
    rw [hd] at h
    revert h
    rcases g.run c with e | ⟨a', c'⟩
    · exact False.elim
    · rintro ⟨rfl, had⟩
      exact ⟨c', rfl, had⟩

theorem RunsFrom.congr {Q : α → Prop} {g' : Grammar α} {c₁ d₁ : Cursor}
    (h : RunsFrom P Q more g c₁ d₁) (hc : g'.run c = g.run c₁) (hd : g'.run d = g.run d₁) :
    RunsFrom P Q more g' c d := by
  intro a ha
  rw [hc, hd]
  exact h a ha

variable {c d : Cursor}

theorem mirrors_takeMap (had : c.Ahead more d) (hc : c.rest ≠ []) (f : Token → Option β) :
    Mirrors more ((takeMap f).run c) ((takeMap f).run d) := by
  rw [run_takeMap, run_takeMap, had.next? hc]
  cases c.next? >>= f
  · exact ⟨rfl, had⟩
  · exact ⟨rfl, had.advance hc⟩

theorem mirrors_peek (had : c.Ahead more d) (hc : c.rest ≠ []) :
    Mirrors more (peek.run c) (peek.run d) := by
  rw [run_peek, run_peek, had.peek hc]
  cases c.peek
  · trivial
  · exact ⟨rfl, had⟩

theorem mirrors_peekWord (had : c.Ahead more d) (hc : c.rest ≠ []) (w : String) :
    Mirrors more ((peekWord w).run c) ((peekWord w).run d) := by
  rw [run_peekWord, run_peekWord, had.next? hc]
  exact ⟨rfl, had⟩

theorem mirrors_peekName (had : c.Ahead more d) (hc : c.rest ≠ []) :
    Mirrors more (peekName.run c) (peekName.run d) := by
  rw [run_peekName, run_peekName, had.next? hc]
  exact ⟨rfl, had⟩

theorem Mirrors.bind {f : α → Grammar β} (hg : Mirrors more (g.run c) (g.run d))
    (hf : ∀ a c₁ d₁, c₁.Ahead more d₁ → Mirrors more ((f a).run c₁) ((f a).run d₁)) :
    Mirrors more ((g >>= f).run c) ((g >>= f).run d) := by
  rw [run_bind, run_bind]
  revert hg
  rcases g.run c with e | ⟨a, c₁⟩ <;> rcases g.run d with e' | ⟨a', d₁⟩
  · exact fun _ => trivial
  · exact False.elim
  · exact False.elim
  · rintro ⟨rfl, had⟩
    exact hf a c₁ d₁ had

theorem mirrors_pure (had : c.Ahead more d) (a : α) :
    Mirrors more ((pure a : Grammar α).run c) ((pure a : Grammar α).run d) :=
  ⟨rfl, had⟩

theorem mirrors_of_fails (h : ∀ c, ∃ e, g.run c = .error e) :
    Mirrors more (g.run c) (g.run d) := by
  obtain ⟨e, he⟩ := h c
  obtain ⟨e', he'⟩ := h d
  rw [he, he']
  trivial

theorem mirrors_takeIf (had : c.Ahead more d) (hc : c.rest ≠ []) (t : Token) :
    Mirrors more ((takeIf t).run c) ((takeIf t).run d) := by
  rw [run_takeIf, run_takeIf, had.next? hc]
  split
  · exact ⟨rfl, had.advance hc⟩
  · exact ⟨rfl, had⟩

theorem mirrors_expect (had : c.Ahead more d) (hc : c.rest ≠ []) (t : Token) :
    Mirrors more ((expect t).run c) ((expect t).run d) := by
  refine (mirrors_takeIf had hc t).bind fun b c₁ d₁ had₁ => ?_
  cases b
  · exact mirrors_of_fails fun _ => ⟨_, rfl⟩
  · exact mirrors_pure had₁ ()

theorem mirrors_expectName (had : c.Ahead more d) (hc : c.rest ≠ []) (what : String) :
    Mirrors more ((expectName what).run c) ((expectName what).run d) := by
  refine (mirrors_takeMap had hc _).bind fun n c₁ d₁ had₁ => ?_
  cases n
  · exact mirrors_of_fails fun _ => ⟨_, rfl⟩
  · exact mirrors_pure had₁ _

theorem Cursor.peek_of_ne_nil (hc : c.rest ≠ []) : c.peek = .ok c.next? := by
  obtain ⟨t, r, hr⟩ := List.exists_cons_of_ne_nil hc
  unfold Cursor.peek Cursor.next?
  rw [hr]
  rfl

/-- Inside the text, a look at the next token sees the same token from both places. -/
theorem RunsFrom.peek_bind {Q : β → Prop} {k : Option Token → Grammar β} (had : c.Ahead more d)
    (hc : c.rest ≠ []) (h : RunsFrom P Q more (k c.next?) c d) :
    RunsFrom P Q more (peek >>= k) c d := by
  refine h.congr ?_ ?_
  · rw [run_bind, run_peek, Cursor.peek_of_ne_nil hc]
  · rw [run_bind, run_peek, had.peek hc, Cursor.peek_of_ne_nil hc]

/-- Inside the text, the offset of the next token and the token itself are read alike. -/
theorem RunsFrom.offset_takeAny {Q : β → Prop} {B : Nat → Grammar β} (had : c.Ahead more d)
    (hc : c.rest ≠ []) (hB : ∀ n, RunsAhead P Q more (B n)) :
    RunsFrom P Q more (offset >>= fun off => takeAny >>= fun _ => B off) c d := by
  obtain ⟨t, r, hr⟩ := List.exists_cons_of_ne_nil hc
  have hn : c.next? = some t.token := by simp [Cursor.next?, hr]
  refine ((hB c.offset).2 _ _ (had.advance hc)).congr ?_ ?_
  · simp only [run_bind, run_offset, run_takeAny_of_next hn]
  · simp only [run_bind, run_offset, run_takeAny_of_next ((had.next? hc).trans hn),
      had.offset hc]

/-- A step that never reads backwards runs alike inside the text once it runs alike from every
start inside the text: from the end it can stop inside neither text. -/
theorem runsAhead_inside {Q : α → Prop} (hmono : Monotone g)
    (h : ∀ c d, c.rest ≠ [] → c.Ahead more d → RunsFrom Inside Q more g c d) :
    RunsAhead Inside Q more g := by
  refine ⟨hmono, fun c d had => ?_⟩
  by_cases hc : c.rest = []
  · intro a _
    constructor
    · intro c' hrun hc'
      obtain ⟨m, hm⟩ := hmono _ _ _ hrun
      rw [hc, List.append_eq_nil_iff] at hm
      exact absurd hm.2 hc'
    · intro d' rs hrun hrs hrs'
      obtain ⟨m, hm⟩ := hmono _ _ _ hrun
      have hlen := congrArg List.length hm
      rw [hrs, had.2, hc] at hlen
      simp only [List.length_append, List.nil_append] at hlen
      exact absurd (List.length_eq_zero_iff.1 (by omega)) hrs'
  · exact h c d hc had

theorem runsAhead_takeMap {Q : Option β → Prop} (f : Token → Option β) :
    RunsAhead Inside Q more (takeMap f) :=
  runsAhead_inside (monotone_takeMap f) fun _ _ hc had =>
    .of_mirrors (mirrors_takeMap had hc f)

theorem runsAhead_peek {Q : Option Token → Prop} : RunsAhead Inside Q more peek :=
  runsAhead_inside (monotone_of_sound fun _ => sound_peek) fun _ _ hc had =>
    .of_mirrors (mirrors_peek had hc)

theorem runsAhead_peekWord {Q : Bool → Prop} (w : String) :
    RunsAhead Inside Q more (peekWord w) :=
  runsAhead_inside (monotone_of_sound fun _ => sound_peekWord w) fun _ _ hc had =>
    .of_mirrors (mirrors_peekWord had hc w)

theorem runsAhead_peekName {Q : Bool → Prop} : RunsAhead Inside Q more peekName :=
  runsAhead_inside (monotone_of_sound fun _ => sound_peekName) fun _ _ hc had =>
    .of_mirrors (mirrors_peekName had hc)

theorem runsAhead_offset_bind {Q : β → Prop} {k : Nat → Grammar β}
    (hk : ∀ n, RunsAhead Inside Q more (k n)) : RunsAhead Inside Q more (offset >>= k) := by
  have hmono : Monotone (offset >>= k) :=
    (monotone_of_sound fun _ => sound_offset).bind fun n => (hk n).1
  refine runsAhead_inside hmono fun c d hc had => ?_
  refine RunsFrom.congr ((hk c.offset).2 c d had) ?_ ?_
  · rw [run_bind, run_offset]
  · rw [run_bind, run_offset, had.offset hc]

/-- Never reading backwards is a property every rule keeps. -/
def monotonicity : Invariant where
  holds := Monotone
  pure := monotone_pure
  bind hg hf := hg.bind hf
  expected _ := monotone_of_sound fun _ => sound_expected _
  unsupported _ := monotone_of_sound fun _ => sound_unsupported _
  peek := monotone_of_sound fun _ => sound_peek
  takeMap := monotone_takeMap
  peekWord _ := monotone_of_sound fun _ => sound_peekWord _
  peekName := monotone_of_sound fun _ => sound_peekName
  loop h := Monotone.loop h

theorem monotone_atom {sub : Nat → Grammar Expr} (hsub : ∀ p, Monotone (sub p)) :
    Monotone (atom sub) := by
  unfold atom
  refine monotonicity.peek.bind fun t => ?_
  rcases t with _ | token
  · exact monotonicity.expected _
  have hfail : ∀ e, Monotone (fail e : Grammar Expr) := fun e _ _ _ h => by simp at h
  refine (monotone_of_sound fun _ => sound_offset).bind fun n =>
    (monotone_takeMap some).bind fun _ => ?_
  split
  case h_2 =>
    split
    · exact monotone_pure _
    · exact hfail _
  case h_7 | h_8 => exact Walk.holds_afterName (I := monotonicity.toWalk) hsub _
  case h_9 =>
    exact (hsub 0).bind fun _ => (monotonicity.holds_expect _).bind fun _ => monotone_pure _
  case h_10 => exact hfail _
  all_goals exact monotone_pure _

/-- Stopping inside the text, every step runs alike with more text after it. -/
def insideRuns (more : List Spanned) : Invariant where
  holds g := RunsAhead Inside (fun _ => True) more g
  pure := runsAhead_pure
  bind hg hf := RunsAhead.bind (fun _ _ => inside_append) hg hf
  expected _ := runsAhead_expected _
  unsupported _ := runsAhead_unsupported _
  peek := runsAhead_peek
  takeMap := runsAhead_takeMap
  peekWord := runsAhead_peekWord
  peekName := runsAhead_peekName
  loop h := RunsAhead.loop (fun _ _ => inside_append) h

theorem runsAhead_atom {sub : Nat → Grammar Expr}
    (hsub : ∀ p, RunsAhead Inside (fun _ => True) more (sub p)) :
    RunsAhead Inside (fun _ => True) more (atom sub) := by
  unfold atom
  refine runsAhead_peek.bind (fun _ _ => inside_append) fun t => ?_
  rcases t with _ | token
  · exact runsAhead_expected _
  dsimp only
  refine runsAhead_offset_bind fun n =>
    (runsAhead_takeMap some).bind (fun _ _ => inside_append) fun _ => ?_
  split
  case h_2 =>
    split
    · exact runsAhead_pure _
    · exact runsAhead_fail _
  case h_7 | h_8 => exact Walk.holds_afterName (I := (insideRuns more).toWalk) hsub _
  case h_9 =>
    exact (hsub 0).bind (fun _ _ => inside_append) fun _ =>
      ((insideRuns more).holds_expect _).bind (fun _ _ => inside_append) fun _ => runsAhead_pure _
  case h_10 => exact runsAhead_fail _
  all_goals exact runsAhead_pure _

theorem runsAhead_columnOption (col : Column) :
    RunsAhead Inside (fun _ => True) more (columnOption col) := by
  unfold columnOption
  refine runsAhead_offset_bind fun n =>
    (insideRuns more).holds_nullability.bind (fun _ _ => inside_append) fun r => ?_
  split
  · split
    · exact runsAhead_fail _
    · exact runsAhead_pure _
  · exact Walk.holds_otherOption (I := (insideRuns more).toWalk) (fun _ => runsAhead_atom) col

/-! ## Steps that stop at the end of the text

From the end of the text, the place with more text after it shows the first token `x` of `more`
where the other shows the end. A step runs alike there when what it does before `x` is what it
does at the end; a step that reads a token whenever it succeeds never succeeds from the end. -/

theorem runsAhead_of_mirrors {Q : α → Prop} (hmono : Monotone g)
    (h : ∀ c d, c.Ahead more d → Mirrors more (g.run c) (g.run d)) : RunsAhead P Q more g :=
  ⟨hmono, fun c d had => .of_mirrors (h c d had)⟩

theorem runsAhead_of_consumes_mirrors {Q : α → Prop} (hmono : Monotone g) (hg : ConsumesFor Q g)
    (h : ∀ c d, c.rest ≠ [] → c.Ahead more d → Mirrors more (g.run c) (g.run d)) :
    RunsAhead P Q more g :=
  runsAhead_of_consumesFor hmono hg fun c d hc had => .of_mirrors (h c d hc had)

theorem Consumes.consumesFor {Q : α → Prop} (h : Consumes g) : ConsumesFor Q g :=
  fun c a c' hrun _ => h c a c' hrun trivial

theorem runsAhead_expect {Q : Unit → Prop} (t : Token) : RunsAhead P Q more (expect t) :=
  runsAhead_of_consumes_mirrors (monotone_of_sound fun _ => sound_expect t)
    (consumes_expect t).consumesFor fun _ _ hc had => mirrors_expect had hc t

theorem runsAhead_expectName {Q : String → Prop} (what : String) :
    RunsAhead P Q more (expectName what) :=
  runsAhead_of_consumes_mirrors (monotone_of_sound fun _ => sound_expectName what)
    (consumes_expectName what).consumesFor fun _ _ hc had => mirrors_expectName had hc what

/-- A sequence that reads a token whenever it gives a value that `Q` admits, and whose first
step reads in step from both places inside the text. -/
theorem RunsAhead.bind_of_consumes {Q : β → Prop} (hP : ∀ m rs, P rs → P (m ++ rs))
    (hg : Monotone g)
    (hmirror : ∀ c d, c.rest ≠ [] → c.Ahead more d → Mirrors more (g.run c) (g.run d))
    (hf : ∀ a, RunsAhead P Q more (f a)) (hcons : ConsumesFor Q (g >>= f)) :
    RunsAhead P Q more (g >>= f) :=
  runsAhead_of_consumesFor (hg.bind fun a => (hf a).1) hcons fun c d hc had =>
    RunsFrom.bind hP (fun a => (hf a).1) (.of_mirrors (hmirror c d hc had))
      fun a c₁ d₁ _ _ had₁ => (hf a).2 c₁ d₁ had₁

/-- A sequence whose second part reads a token whenever the whole gives a value that `Q` admits:
its first part then stops inside the text, where every step runs alike. -/
theorem RunsAhead.bind_inside {Q : β → Prop} (hg : RunsAhead Inside (fun _ => True) more g)
    (hf : ∀ a, RunsAhead P Q more (f a)) (hc : ∀ a, ConsumesFor Q (f a)) :
    RunsAhead P Q more (g >>= f) := by
  refine ⟨hg.1.bind fun a => (hf a).1, fun c d had b hb => ⟨?_, ?_⟩⟩
  · intro c' hrun hc'
    obtain ⟨a, c₁, h₁, h₂⟩ := run_bind_eq_ok hrun
    have hin : Inside c₁.rest := fun hnil => by
      have hlt := hc a _ _ _ h₂ hb
      rw [c₁.size_eq, hnil] at hlt
      exact Nat.not_lt_zero _ hlt
    obtain ⟨d₁, hd₁, had₁⟩ := (hg.2 c d had a trivial).1 c₁ h₁ hin
    obtain ⟨d', hd', had'⟩ := ((hf a).2 c₁ d₁ had₁ b hb).1 c' h₂ hc'
    exact ⟨d', by rw [run_bind, hd₁]; exact hd', had'⟩
  · intro d' rs hrun hrs hrs'
    obtain ⟨a, d₁, h₁, h₂⟩ := run_bind_eq_ok hrun
    obtain ⟨m, hm⟩ := (hf a).1 _ _ _ h₂
    have hd₁ : d₁.rest = (m ++ rs) ++ more := by rw [← hm, hrs, List.append_assoc]
    have hin : Inside (m ++ rs) := fun hnil => by
      have hlt := hc a _ _ _ h₂ hb
      obtain ⟨rfl, rfl⟩ := List.append_eq_nil_iff.1 hnil
      rw [d'.size_eq, d₁.size_eq, hd₁, hrs] at hlt
      exact Nat.lt_irrefl _ hlt
    obtain ⟨c₁, hc₁, had₁⟩ := (hg.2 c d had a trivial).2 d₁ (m ++ rs) h₁ hd₁ hin
    obtain ⟨c', hc', had'⟩ := ((hf a).2 c₁ d₁ had₁ b hb).2 d' rs h₂ hrs hrs'
    exact ⟨c', by rw [run_bind, hc₁]; exact hc', had'⟩

/-! ## Rounds of a repetition

A repetition that goes on past the end of the text is followed round by round: the rounds that
go on run alike, and the one that differs is the first one past the end. -/

/-- The rounds of a repetition from the state `s` at `c` that go on, each reading a token, up to
the state `s'` at `c'`. -/
inductive Rounds (round : σ → Grammar (β ⊕ σ)) : σ → Cursor → σ → Cursor → Prop
  | refl (s : σ) (c : Cursor) : Rounds round s c s c
  | step {s s₁ s' : σ} {c c₁ c' : Cursor} : (round s).run c = .ok (.inr s₁, c₁) →
      c₁.size < c.size → Rounds round s₁ c₁ s' c' → Rounds round s c s' c'

section Rounds

variable {round : σ → Grammar (β ⊕ σ)} {s s' : σ} {c' d' : Cursor}

theorem Rounds.run_loop (h : Rounds round s c s' c') (done : σ → β) :
    (loop round done s).run c = (loop round done s').run c' := by
  induction h with
  | refl => rfl
  | step hr hlt _ ih =>
    rw [Grammar.run_loop, hr]
    dsimp only
    rw [if_pos hlt, ih]

theorem Rounds.suffix (hmono : ∀ s, Monotone (round s)) (h : Rounds round s c s' c') :
    c'.rest <:+ c.rest := by
  induction h with
  | refl => exact List.suffix_refl _
  | step hr _ _ ih => exact ih.trans (hmono _ _ _ _ hr)

/-- Rounds that keep to a stream lead to a place in it. -/
theorem Rounds.in_of_sound {S : TokenStream} {X : ParseError → Prop}
    (hsound : ∀ s, Sound S X (round s)) (h : Rounds round s c s' c') (hc : c.In S) : c'.In S := by
  induction h with
  | refl => exact hc
  | @step s₀ _ _ c₀ _ _ hr _ _ ih =>
    have hsafe := hsound s₀ c₀ hc
    rw [hr] at hsafe
    exact ih hsafe

/-- A repetition whose rounds read a token whenever they go on ends with a round that finishes,
after rounds that go on. -/
theorem rounds_of_loop_ok (hprog : Progresses round) {done : σ → β} {b : β}
    (h : (loop round done s).run c = .ok (b, c')) :
    ∃ s₁ c₁, Rounds round s c s₁ c₁ ∧ (round s₁).run c₁ = .ok (.inl b, c') := by
  refine loop_induction (P := fun s c b c' => ∃ s₁ c₁, Rounds round s c s₁ c₁ ∧
    (round s₁).run c₁ = .ok (.inl b, c')) ?_ ?_ ?_ h
  · exact fun s c b c' hr => ⟨s, c, .refl s c, hr⟩
  · exact fun s c s' c' hr hlt => absurd (hprog s c _ c' hr rfl) hlt
  · exact fun s c s' c₁ b c' hr hlt ⟨s₂, c₂, hrounds, hlast⟩ =>
      ⟨s₂, c₂, .step hr hlt hrounds, hlast⟩

/-- A repetition that fails fails in a round, after rounds that go on. -/
theorem rounds_of_loop_error {done : σ → β} {e : ParseError}
    (h : (loop round done s).run c = .error e) :
    ∃ s₁ c₁, Rounds round s c s₁ c₁ ∧ (round s₁).run c₁ = .error e := by
  induction hn : c.size using Nat.strong_induction_on generalizing s c with
  | _ n ih =>
    rw [Grammar.run_loop] at h
    rcases hr : (round s).run c with e' | ⟨b | s₁, c₁⟩ <;> rw [hr] at h
    · cases h
      exact ⟨s, c, .refl s c, hr⟩
    · cases h
    · dsimp only at h
      split at h
      · next hlt =>
        obtain ⟨s₂, c₂, hrounds, hlast⟩ := ih _ (hn ▸ hlt) h rfl
        exact ⟨s₂, c₂, .step hr hlt hrounds, hlast⟩
      · cases h

variable (hround : ∀ s, RunsAhead P (fun r => r.isRight = true) more (round s))
  (hP : ∀ m rs, P rs → P (m ++ rs))
include hround hP

/-- Rounds that go on from a place go on alike from the place with more text after it. -/
theorem Rounds.ahead (h : Rounds round s c s' c') (had : c.Ahead more d) (hc' : P c'.rest) :
    ∃ d', Rounds round s d s' d' ∧ c'.Ahead more d' := by
  induction h generalizing d with
  | refl => exact ⟨d, .refl _ _, had⟩
  | step hr hlt hrounds ih =>
    obtain ⟨m, hm⟩ := hrounds.suffix fun s => (hround s).1
    obtain ⟨d₁, hd₁, had₁⟩ := ((hround _).2 _ d had _ rfl).1 _ hr (hm ▸ hP m _ hc')
    obtain ⟨d', hrounds', had'⟩ := ih had₁ hc'
    exact ⟨d', .step hd₁ (by rw [had.size, had₁.size]; omega) hrounds', had'⟩

/-- Rounds that go on from the place with more text after a text, and stop before that text
ends where `P` admits, go on alike from the place at the text. -/
theorem Rounds.behind {rs : List Spanned} (h : Rounds round s d s' d') (had : c.Ahead more d)
    (hd' : d'.rest = rs ++ more) (hrs : P rs) :
    ∃ c', Rounds round s c s' c' ∧ c'.Ahead more d' := by
  induction h generalizing c with
  | refl => exact ⟨c, .refl _ _, had⟩
  | @step s₀ s₁ s' d₀ d₁ d' hr hlt hrounds ih =>
    obtain ⟨m, hm⟩ := hrounds.suffix fun s => (hround s).1
    have hd₁ : d₁.rest = (m ++ rs) ++ more := by rw [← hm, hd', List.append_assoc]
    obtain ⟨c₁, hc₁, had₁⟩ := ((hround _).2 c _ had _ rfl).2 _ _ hr hd₁ (hP m rs hrs)
    obtain ⟨c', hrounds', had'⟩ := ih had₁ hd'
    exact ⟨c', .step hc₁ (by rw [had.size, had₁.size] at hlt; omega) hrounds', had'⟩

end Rounds

section End

variable {x : Spanned} {more : List Spanned}

theorem runsAhead_takeMap_end {Q : Option β → Prop} {f : Token → Option β}
    (hx : f x.token = none) : RunsAhead P Q (x :: more) (takeMap f) := by
  refine runsAhead_of_mirrors (monotone_takeMap f) fun c d had => ?_
  by_cases hc : c.rest = []
  · obtain ⟨h₁, h₂⟩ := had.next?_end hc
    rw [run_takeMap, run_takeMap, h₁, h₂, List.head?_cons, Option.map_some,
      show (some x.token >>= f) = none from hx]
    exact ⟨rfl, had⟩
  · exact mirrors_takeMap had hc f

theorem runsAhead_takeIf_end {Q : Bool → Prop} {t : Token} (hx : x.token ≠ t) :
    RunsAhead P Q (x :: more) (takeIf t) := by
  refine runsAhead_of_mirrors (monotone_of_sound fun _ => sound_takeIf t) fun c d had => ?_
  by_cases hc : c.rest = []
  · obtain ⟨h₁, h₂⟩ := had.next?_end hc
    rw [run_takeIf, run_takeIf, h₁, h₂]
    simp only [reduceCtorEq, ↓reduceIte, List.head?_cons, Option.map_some, Option.some.injEq, hx]
    exact ⟨rfl, had⟩
  · exact mirrors_takeIf had hc t

theorem runsAhead_takeWord_end {Q : Bool → Prop} {w : String} (hx : x.token.isWord w = false) :
    RunsAhead P Q (x :: more) (takeWord w) := by
  refine runsAhead_of_mirrors (monotone_of_sound fun _ => sound_takeWord w) fun c d had => ?_
  by_cases hc : c.rest = []
  · obtain ⟨h₁, h₂⟩ := had.next?_end hc
    rw [run_takeWord, run_takeWord, h₁, h₂]
    simp only [Option.any_none, Bool.false_eq_true, ↓reduceIte, List.head?_cons, Option.map_some,
      Option.any_some, hx]
    exact ⟨rfl, had⟩
  · rw [run_takeWord, run_takeWord, had.next? hc]
    split
    · exact ⟨rfl, had.advance hc⟩
    · exact ⟨rfl, had⟩

theorem runsAhead_peekWord_end {Q : Bool → Prop} {w : String} (hx : x.token.isWord w = false) :
    RunsAhead P Q (x :: more) (peekWord w) := by
  refine runsAhead_of_mirrors (monotone_of_sound fun _ => sound_peekWord w) fun c d had => ?_
  by_cases hc : c.rest = []
  · obtain ⟨h₁, h₂⟩ := had.next?_end hc
    rw [run_peekWord_any, run_peekWord_any, h₁, h₂]
    simp only [Option.any_none, List.head?_cons, Option.map_some, Option.any_some, hx]
    exact ⟨rfl, had⟩
  · exact mirrors_peekWord had hc w

/-- A look at the next token, then a step chosen by it: at the end of the text it runs alike
when the step chosen at the end is the one chosen before `x`. -/
theorem runsAhead_peek_bind {Q : β → Prop} {k : Option Token → Grammar β}
    (hP : ∀ m rs, P rs → P (m ++ rs)) (hk : ∀ v, RunsAhead P Q (x :: more) (k v))
    (hx : k none = k (some x.token)) : RunsAhead P Q (x :: more) (peek >>= k) := by
  refine ⟨(monotone_of_sound fun _ => sound_peek).bind fun v => (hk v).1, fun c d had => ?_⟩
  by_cases hc : c.rest = []
  · refine RunsFrom.congr ((hk none).2 c d had) ?_ ?_
    · rw [run_bind, run_peek, had.peek_end hc]
    · rw [run_bind, run_peek, had.peek_first hc, hx]
  · exact RunsFrom.bind hP (fun v => (hk v).1) (.of_mirrors (mirrors_peek had hc))
      fun v c₁ d₁ _ _ had₁ => (hk v).2 c₁ d₁ had₁

end End

end Grammar

end SqlDdl
