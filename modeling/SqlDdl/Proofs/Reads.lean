import SqlDdl.Proofs.Steps

/-!
# Reading a run of tokens

With one token of lookahead, a parser decides where a construct ends by the token after it. So
the statement that a step reads some tokens names what may follow them (`Follows`): a step
`Reads` the tokens `ws` as the value `v` when, before any rest that may follow them, it gives
`v` and leaves exactly that rest; and when, before any rest at all, it either fails or reads at
least `ws`, never stopping inside them. The first half is completeness for a grammar; the second
is what makes what the parser reads the longest prefix it could read.

A step may also fail for lack of nesting depth: that failure is allowed under a proposition
`deep`, which the expression rules set to "the depth left is too small".

The lemmas follow the combinators, as those of `Sound` do: a rule's reading is assembled from
its parts. A part that reads nothing passes on what may follow it (`Reads.bind_nil`); a part
that reads a token is told that token (`Reads.bind_cons`).
-/

namespace SqlDdl

/-- What comes next before the rest `rs`: the next token, or the end of a text that lexed (as
`none`), admitted by `F`. Before a lex error nothing is admitted. -/
def Follows (F : Option Token → Prop) : List Spanned → StreamEnd → Prop
  | [], stop => (∃ n, stop = .finished n) ∧ F none
  | t :: _, _ => F (some t.token)

theorem Follows.mono {F G : Option Token → Prop} (hFG : ∀ x, F x → G x) :
    ∀ {rs : List Spanned} {stop : StreamEnd}, Follows F rs stop → Follows G rs stop
  | [], _, h => ⟨h.1, hFG _ h.2⟩
  | _ :: _, _, h => hFG _ h

namespace Cursor

@[simp] theorem rest_ofTokens (rs : List Spanned) (stop : StreamEnd) :
    (ofTokens rs stop).rest = rs := rfl

@[simp] theorem advance_ofTokens (t : Spanned) (rs : List Spanned) (stop : StreamEnd) :
    (ofTokens (t :: rs) stop).advance = ofTokens rs stop := rfl

@[simp] theorem next?_ofTokens (t : Spanned) (rs : List Spanned) (stop : StreamEnd) :
    (ofTokens (t :: rs) stop).next? = some t.token := rfl

theorem size_ofTokens (rs : List Spanned) (stop : StreamEnd) :
    (ofTokens rs stop).size = rs.length := rfl

/-- Before a rest that `F` admits, the next token is one `F` admits. -/
theorem peek_of_follows {F : Option Token → Prop} {rs : List Spanned} {stop : StreamEnd}
    (h : Follows F rs stop) :
    ∃ x, (ofTokens rs stop).peek = .ok x ∧ (ofTokens rs stop).next? = x ∧ F x := by
  cases rs with
  | nil =>
      obtain ⟨⟨n, rfl⟩, hF⟩ := h
      exact ⟨none, rfl, rfl, hF⟩
  | cons t rs => exact ⟨some t.token, rfl, rfl, h⟩

end Cursor

namespace Grammar

variable {α β σ : Type}

/-- A step never reads backwards: what it leaves is a part of what it was given. -/
def Monotone (g : Grammar α) : Prop :=
  ∀ c v c', g.run c = .ok (v, c') → c'.rest <:+ c.rest

theorem monotone_of_sound {g : Grammar α} (h : ∀ s, Sound s (fun _ => False) g) :
    Monotone g := by
  intro c v c' hrun
  have hsafe := h ⟨c.rest, c.stop⟩ c ⟨List.suffix_refl _, rfl⟩
  rw [hrun] at hsafe
  exact hsafe.1

/-- `g` reads the tokens `ws` as `v`, where what may follow them is `F`: before a rest that `F`
admits it gives `v` and leaves that rest, unless it fails and `deep` holds; before any rest it
fails or leaves a part of that rest. -/
structure Reads (g : Grammar α) (ws : List Spanned) (v : α) (F : Option Token → Prop)
    (deep : Prop) : Prop where
  exact : ∀ rs stop, Follows F rs stop →
    g.run (.ofTokens (ws ++ rs) stop) = .ok (v, .ofTokens rs stop) ∨
      deep ∧ ∃ e, g.run (.ofTokens (ws ++ rs) stop) = .error e
  atLeast : ∀ rs stop v' c', g.run (.ofTokens (ws ++ rs) stop) = .ok (v', c') → c'.rest <:+ rs

variable {g : Grammar α} {f : α → Grammar β} {ws : List Spanned} {v : α}
  {F G : Option Token → Prop} {deep : Prop}

theorem Reads.follows_mono (h : Reads g ws v F deep) (hGF : ∀ x, G x → F x) :
    Reads g ws v G deep :=
  ⟨fun rs stop hf => h.exact rs stop (hf.mono hGF), h.atLeast⟩

theorem Reads.deep_mono {deep' : Prop} (h : Reads g ws v F deep) (hd : deep → deep') :
    Reads g ws v F deep' :=
  ⟨fun rs stop hf => (h.exact rs stop hf).imp_right fun ⟨hdeep, he⟩ => ⟨hd hdeep, he⟩,
    h.atLeast⟩

/-- A monotone step that gives `v` and reads nothing before every rest that `F` admits reads
nothing as `v`. -/
theorem reads_nil {g : Grammar α} (hmono : Monotone g)
    (h : ∀ rs stop, Follows F rs stop →
      g.run (.ofTokens rs stop) = .ok (v, .ofTokens rs stop)) :
    Reads g [] v F deep :=
  ⟨fun rs stop hf => .inl (h rs stop hf), fun _ _ _ _ hrun => hmono _ _ _ hrun⟩

/-- A step that gives `v` and leaves the rest after `ws`, whatever that rest is, reads `ws`. -/
theorem reads_of_run
    (h : ∀ rs stop, g.run (.ofTokens (ws ++ rs) stop) = .ok (v, .ofTokens rs stop)) :
    Reads g ws v F deep :=
  ⟨fun rs stop _ => .inl (h rs stop), fun rs stop v' c' hrun => by
    rw [h] at hrun
    cases hrun
    exact List.suffix_refl _⟩

/-- A step that reads the token `t` and then runs as `g'` reads what `g'` reads after `t`. -/
theorem reads_cons {g g' : Grammar α} {t : Spanned}
    (h : ∀ rs stop, g.run (.ofTokens (t :: rs) stop) = g'.run (.ofTokens rs stop))
    (hg' : Reads g' ws v F deep) : Reads g (t :: ws) v F deep :=
  ⟨fun rs stop hf => by
    rw [List.cons_append, h]
    exact hg'.exact rs stop hf,
   fun rs stop v' c' hrun => by
    rw [List.cons_append, h] at hrun
    exact hg'.atLeast rs stop v' c' hrun⟩

/-- A step that fails everywhere reads anything, once the depth is too small. -/
theorem reads_of_fails (hdeep : deep) (h : ∀ c, ∃ e, g.run c = .error e) :
    Reads g ws v F deep :=
  ⟨fun rs stop _ => .inr ⟨hdeep, h _⟩, fun rs stop v' c' hrun => by
    obtain ⟨e, he⟩ := h (.ofTokens (ws ++ rs) stop)
    rw [he] at hrun
    cases hrun⟩

/-! ## The combinators -/

theorem follows_any {rs : List Spanned} {stop : StreamEnd} (ws : List Spanned)
    (h : Follows F rs stop) : Follows (fun _ => True) (ws ++ rs) stop := by
  cases ws with
  | nil => exact h.mono fun _ _ => trivial
  | cons t ws => trivial

theorem reads_pure (a : α) : Reads (pure a : Grammar α) [] a F deep :=
  reads_nil (fun _ _ _ h => by cases h; exact List.suffix_refl _) fun _ _ _ => rfl

theorem reads_takeMap {f : Token → Option β} {t : Spanned} {b : β} (hf : f t.token = some b) :
    Reads (takeMap f) [t] (some b) F deep :=
  reads_cons (fun rs stop => by simp [run_takeMap, hf]) (reads_pure _)

theorem monotone_takeMap (f : Token → Option β) : Monotone (takeMap f) :=
  monotone_of_sound fun _ => sound_takeMap f

/-- `takeMap f` reads nothing before a token that `f` maps to nothing. -/
theorem reads_takeMap_none {f : Token → Option β} (hF : ∀ u, F (some u) → f u = none) :
    Reads (takeMap f) [] none F deep := by
  refine reads_nil (monotone_takeMap f) fun rs stop hf => ?_
  obtain ⟨x, -, hnext, hx⟩ := Cursor.peek_of_follows hf
  rw [run_takeMap, hnext]
  cases x with
  | none => rfl
  | some u => simp [hF u hx]

theorem monotone_pure (a : α) : Monotone (pure a : Grammar α) :=
  monotone_of_sound fun _ => sound_pure a

theorem Monotone.bind {g : Grammar α} {f : α → Grammar β} (hg : Monotone g)
    (hf : ∀ a, Monotone (f a)) : Monotone (g >>= f) := by
  intro c b c' hrun
  obtain ⟨a, c₁, h₁, h₂⟩ := run_bind_eq_ok hrun
  exact (hf a _ _ _ h₂).trans (hg _ _ _ h₁)

theorem reads_takeIf {t : Spanned} {u : Token} (ht : t.token = u) :
    Reads (takeIf u) [t] true F deep :=
  reads_cons (fun rs stop => by simp [takeIf, run_bind, run_takeMap, ht]) (reads_pure _)

theorem reads_expect {t : Spanned} {u : Token} (ht : t.token = u) :
    Reads (expect u) [t] () F deep :=
  reads_cons (fun rs stop => by simp [expect, takeIf, run_bind, run_takeMap, ht]) (reads_pure _)

theorem reads_expectName {t : Spanned} {name : String} (what : String)
    (ht : t.token.name? = some name) : Reads (expectName what) [t] name F deep :=
  reads_cons (fun rs stop => by simp [expectName, run_bind, run_takeMap, ht]) (reads_pure _)

theorem Reads.bind_nil (hg : Reads g ws v F deep) {b : β} (hf : Reads (f v) [] b G deep)
    (hGF : ∀ x, G x → F x) (hmono : ∀ a, Monotone (f a)) : Reads (g >>= f) ws b G deep := by
  constructor
  · intro rs stop hfol
    rw [run_bind]
    rcases hg.exact rs stop (hfol.mono hGF) with hrun | ⟨hdeep, e, he⟩
    · rw [hrun]
      exact hf.exact rs stop hfol
    · rw [he]
      exact .inr ⟨hdeep, e, rfl⟩
  · intro rs stop b' c' hrun
    obtain ⟨a, c₁, h₁, h₂⟩ := run_bind_eq_ok hrun
    exact (hmono a _ _ _ h₂).trans (hg.atLeast rs stop a c₁ h₁)

theorem Reads.bind_cons {ws₁ ws₂ : List Spanned} {t : Spanned} (hg : Reads g ws₁ v F deep)
    {b : β} (hf : Reads (f v) (t :: ws₂) b G deep) (ht : F (some t.token)) :
    Reads (g >>= f) (ws₁ ++ t :: ws₂) b G deep := by
  have hg' : ∀ rs stop, g.run (.ofTokens (ws₁ ++ (t :: ws₂ ++ rs)) stop) =
      .ok (v, .ofTokens (t :: ws₂ ++ rs) stop) ∨
        deep ∧ ∃ e, g.run (.ofTokens (ws₁ ++ (t :: ws₂ ++ rs)) stop) = .error e :=
    fun rs stop => hg.exact _ stop ht
  constructor
  · intro rs stop hfol
    rw [List.append_assoc, run_bind]
    rcases hg' rs stop with hrun | ⟨hdeep, e, he⟩
    · rw [hrun]
      exact hf.exact rs stop hfol
    · rw [he]
      exact .inr ⟨hdeep, e, rfl⟩
  · intro rs stop b' c' hrun
    rw [List.append_assoc] at hrun
    obtain ⟨a, c₁, h₁, h₂⟩ := run_bind_eq_ok hrun
    rcases hg' rs stop with hrun₁ | ⟨-, e, he⟩
    · rw [hrun₁] at h₁
      cases h₁
      exact hf.atLeast rs stop b' c' h₂
    · rw [he] at h₁
      cases h₁

/-- A sequence reads what its parts read one after the other, when what the second reads and
what follows it may follow the first, and the first stops before it. -/
theorem Reads.bind {ws₁ ws₂ : List Spanned} (hg : Reads g ws₁ v F deep) {b : β}
    (hf : Reads (f v) ws₂ b G deep)
    (hGF : ∀ rs stop, Follows G rs stop → Follows F (ws₂ ++ rs) stop)
    (hstart : ws₂ = [] ∨ ∀ rs stop, Follows F (ws₂ ++ rs) stop)
    (hmono : ∀ a, Monotone (f a)) : Reads (g >>= f) (ws₁ ++ ws₂) b G deep := by
  cases ws₂ with
  | nil =>
      have hGF' : ∀ x, G x → F x := by
        intro x hx
        cases x with
        | none => exact (hGF [] (.finished 0) ⟨⟨0, rfl⟩, hx⟩).2
        | some u => exact hGF [⟨u, 0⟩] (.finished 0) hx
      simpa using hg.bind_nil hf hGF' hmono
  | cons t ws₂ =>
      exact hg.bind_cons hf (hstart.resolve_left (List.cons_ne_nil _ _) [] (.finished 0))

/-- Steps that run alike read alike. -/
theorem Reads.of_run_eq {g' : Grammar α} (h : ∀ c, g.run c = g'.run c)
    (hg' : Reads g' ws v F deep) : Reads g ws v F deep :=
  ⟨fun rs stop hf => by
      rw [h]
      exact hg'.exact rs stop hf,
    fun rs stop v' c' hrun => hg'.atLeast rs stop v' c' (by rwa [h] at hrun)⟩

theorem Reads.pure_bind {a : α} {b : β} (h : Reads (f a) ws b G deep) :
    Reads (pure a >>= f) ws b G deep :=
  h.of_run_eq fun c => by simp [run_bind]

/-- `takeIf u` reads nothing before a token other than `u`. -/
theorem reads_takeIf_false {u : Token} (hF : ∀ x, F x → x ≠ some u) :
    Reads (takeIf u) [] false F deep := by
  have hnone : Reads (takeMap fun v => if v = u then some () else none) [] none F deep :=
    reads_takeMap_none fun v hv => if_neg fun h => hF _ hv (congrArg some h)
  exact hnone.bind_nil (reads_pure _) (fun _ h => h) fun _ => monotone_pure _

/-! ## Repetitions -/

/-- Rounds that never read backwards make a repetition that never does. -/
theorem Monotone.loop {round : σ → Grammar (β ⊕ σ)} (h : ∀ s, Monotone (round s))
    (done : σ → β) (s : σ) : Monotone (loop round done s) :=
  fun _ _ _ hrun => loop_induction (P := fun _ c _ c' => c'.rest <:+ c.rest)
    (fun s _ _ _ hr => h s _ _ _ hr) (fun s _ _ _ hr _ => h s _ _ _ hr)
    (fun s _ _ _ _ _ hr _ hsuf => hsuf.trans (h s _ _ _ hr)) hrun

variable {round : σ → Grammar (β ⊕ σ)} {done : σ → β} {s s' : σ} {b : β}

/-- A round that finishes the repetition finishes it with its value. -/
theorem reads_loop_finish (h : Reads (round s) ws (.inl b) F deep)
    (hmono : ∀ s, Monotone (round s)) : Reads (loop round done s) ws b F deep := by
  constructor
  · intro rs stop hfol
    rw [run_loop]
    rcases h.exact rs stop hfol with hrun | ⟨hdeep, e, he⟩
    · rw [hrun]
      exact .inl rfl
    · rw [he]
      exact .inr ⟨hdeep, e, rfl⟩
  · intro rs stop b' c' hrun
    rw [run_loop] at hrun
    rcases hr : (round s).run (.ofTokens (ws ++ rs) stop) with e | ⟨b'' | s'', c₁⟩ <;>
      rw [hr] at hrun
    · cases hrun
    · cases hrun
      exact h.atLeast rs stop _ _ hr
    · have h₁ := h.atLeast rs stop _ _ hr
      dsimp only at hrun
      split at hrun
      · exact (Monotone.loop hmono done s'' _ _ _ hrun).trans h₁
      · cases hrun
        exact h₁

/-- A round that reads a token and goes on, and then the rest of the repetition. -/
theorem Reads.loop_step {t : Spanned} {ws₁ ws₂ : List Spanned}
    (h : Reads (round s) (t :: ws₁) (.inr s') F deep)
    (hl : Reads (loop round done s') ws₂ b G deep)
    (hF : ∀ rs stop, Follows G rs stop → Follows F (ws₂ ++ rs) stop)
    (hstart : ws₂ = [] ∨ ∀ rs stop, Follows F (ws₂ ++ rs) stop)
    (hmono : ∀ s, Monotone (round s)) :
    Reads (loop round done s) (t :: ws₁ ++ ws₂) b G deep := by
  have hshorter : ∀ rs stop, (Cursor.ofTokens (ws₂ ++ rs) stop).size <
      (Cursor.ofTokens (t :: ws₁ ++ (ws₂ ++ rs)) stop).size := by
    intro rs stop
    simp only [Cursor.size_ofTokens, List.length_append, List.length_cons]
    omega
  constructor
  · intro rs stop hfol
    rw [List.append_assoc, run_loop]
    rcases h.exact _ stop (hF rs stop hfol) with hrun | ⟨hdeep, e, he⟩
    · rw [hrun]
      dsimp only
      rw [if_pos (hshorter rs stop)]
      exact hl.exact rs stop hfol
    · rw [he]
      exact .inr ⟨hdeep, e, rfl⟩
  · intro rs stop b' c' hrun
    rw [List.append_assoc, run_loop] at hrun
    rcases hstart with rfl | hfol
    · rcases hr : (round s).run (.ofTokens (t :: ws₁ ++ ([] ++ rs)) stop) with
        e | ⟨b'' | s'', c₁⟩ <;> rw [hr] at hrun
      · cases hrun
      · cases hrun
        simpa using h.atLeast rs stop _ _ hr
      · have h₁ : c₁.rest <:+ rs := by simpa using h.atLeast rs stop _ _ hr
        dsimp only at hrun
        split at hrun
        · exact (Monotone.loop hmono done s'' _ _ _ hrun).trans h₁
        · cases hrun
          exact h₁
    · rcases h.exact _ stop (hfol rs stop) with hr | ⟨-, e, he⟩
      · rw [hr] at hrun
        dsimp only at hrun
        rw [if_pos (hshorter rs stop)] at hrun
        exact hl.atLeast rs stop b' c' hrun
      · rw [he] at hrun
        cases hrun

end Grammar

end SqlDdl
