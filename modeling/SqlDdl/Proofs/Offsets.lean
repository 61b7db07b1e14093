import SqlDdl.Proofs.Invariant
import SqlDdl.Proofs.Steps

/-!
# Offsets are only reported

The parser reads the byte offset of a token only to put it into an error. So two token streams
that hold the same tokens and end the same way, at the end of the text or at a lex error, parse
alike: to the same statement, or both to an error (`parse_toOption_eq`).

`Cursor.Alike` is that likeness of places, `RunsAlike` that of the outcomes of a step, and
`RunAlike g g'` says that `g` and `g'` run alike from alike places. Running alike with itself is
an `Invariant` of the grammar (`offsetBlind`); the two rules that read an offset, `atom` and
`columnOption`, keep it because the offset goes into an error and nowhere else.
-/

namespace SqlDdl

/-- Whether a stream ends at the end of its text, not at a lex error. -/
def StreamEnd.finishes : StreamEnd → Bool
  | .finished _ => true
  | .failed _ => false

namespace Cursor

/-- Two places that differ at most in offsets: the same tokens ahead, and the same kind of end. -/
def Alike (c c' : Cursor) : Prop :=
  c.rest.map (·.token) = c'.rest.map (·.token) ∧ c.stop.finishes = c'.stop.finishes

variable {c c' : Cursor}

theorem Alike.next? (h : c.Alike c') : c.next? = c'.next? := by
  simp only [Cursor.next?, ← List.head?_map, h.1]

theorem Alike.size (h : c.Alike c') : c.size = c'.size := by
  have hlen := congrArg List.length h.1
  simp only [List.length_map] at hlen
  rw [c.size_eq, c'.size_eq, hlen]

theorem Alike.advance (h : c.Alike c') : c.advance.Alike c'.advance :=
  ⟨by simp only [Cursor.advance, List.map_tail, h.1], h.2⟩

/-- Alike places show the same next token, or both stop at a lex error. -/
theorem Alike.peek (h : c.Alike c') : c.peek.toOption = c'.peek.toOption := by
  obtain ⟨hr, hs⟩ := h
  rcases c with ⟨_ | ⟨t, r⟩, stop, _, _⟩ <;> rcases c' with ⟨_ | ⟨t', r'⟩, stop', _, _⟩
  · cases stop <;> cases stop' <;> simp_all [StreamEnd.finishes, Cursor.peek, Except.toOption]
  · cases hr
  · cases hr
  · simp only [List.map_cons, List.cons.injEq] at hr
    simp [Cursor.peek, hr.1]

end Cursor

namespace Grammar

variable {α β σ : Type}

/-- Two outcomes of a step that differ at most in offsets: both errors, or the same value at
alike places. -/
def RunsAlike : Except ParseError (α × Cursor) → Except ParseError (α × Cursor) → Prop
  | .error _, .error _ => True
  | .ok (a, c), .ok (a', c') => a = a' ∧ c.Alike c'
  | .error _, .ok _ => False
  | .ok _, .error _ => False

theorem runsAlike_iff {r r' : Except ParseError (α × Cursor)} :
    RunsAlike r r' ↔ (∃ e e', r = .error e ∧ r' = .error e') ∨
      ∃ a c c', r = .ok (a, c) ∧ r' = .ok (a, c') ∧ c.Alike c' := by
  rcases r with e | ⟨a, c⟩ <;> rcases r' with e' | ⟨a', c'⟩
  case ok.ok =>
    constructor
    · rintro ⟨rfl, h⟩
      exact .inr ⟨a, c, c', rfl, rfl, h⟩
    · rintro (⟨_, _, h, _⟩ | ⟨_, _, _, h, h', hc⟩)
      · cases h
      · cases h
        cases h'
        exact ⟨rfl, hc⟩
  all_goals simp [RunsAlike]

/-- `g` and `g'` run alike from alike places. -/
def RunAlike (g g' : Grammar α) : Prop :=
  ∀ c c', c.Alike c' → RunsAlike (g.run c) (g'.run c')

theorem runAlike_pure (a : α) : RunAlike (pure a : Grammar α) (pure a) :=
  fun _ _ h => ⟨rfl, h⟩

theorem RunAlike.bind {g g' : Grammar α} {f f' : α → Grammar β} (hg : RunAlike g g')
    (hf : ∀ a, RunAlike (f a) (f' a)) : RunAlike (g >>= f) (g' >>= f') := by
  intro c c' hc
  rw [run_bind, run_bind]
  obtain ⟨e, e', h, h'⟩ | ⟨a, c₁, c₁', h, h', hc₁⟩ := runsAlike_iff.1 (hg c c' hc) <;>
    rw [h, h']
  · trivial
  · exact hf a c₁ c₁' hc₁

theorem runAlike_fail (e e' : ParseError) : RunAlike (fail e : Grammar α) (fail e') :=
  fun _ _ _ => trivial

theorem runAlike_expected (what what' : String) :
    RunAlike (expected what : Grammar α) (expected what') :=
  fun _ _ _ => trivial

theorem runAlike_unsupported (construct construct' : String) :
    RunAlike (unsupported construct : Grammar α) (unsupported construct') :=
  fun _ _ _ => trivial

theorem runAlike_peek : RunAlike peek peek := by
  intro c c' hc
  have h := hc.peek
  rw [run_peek, run_peek]
  revert h
  cases c.peek <;> cases c'.peek <;> intro h
  · trivial
  · cases h
  · cases h
  · cases h
    exact ⟨rfl, hc⟩

theorem runAlike_offset_bind {k k' : Nat → Grammar β} (h : ∀ n n', RunAlike (k n) (k' n')) :
    RunAlike (offset >>= k) (offset >>= k') := by
  intro c c' hc
  rw [run_bind, run_bind, run_offset, run_offset]
  exact h _ _ c c' hc

theorem runAlike_takeMap (f : Token → Option β) : RunAlike (takeMap f) (takeMap f) := by
  intro c c' hc
  rw [run_takeMap, run_takeMap, hc.next?]
  cases c'.next? >>= f
  · exact ⟨rfl, hc⟩
  · exact ⟨rfl, hc.advance⟩

theorem runAlike_peekWord (w : String) : RunAlike (peekWord w) (peekWord w) := by
  intro c c' hc
  rw [run_peekWord, run_peekWord, hc.next?]
  exact ⟨rfl, hc⟩

theorem runAlike_peekName : RunAlike peekName peekName := by
  intro c c' hc
  rw [run_peekName, run_peekName, hc.next?]
  exact ⟨rfl, hc⟩

/-- Alike rounds make alike repetitions: from alike places a round goes on from alike places, so
both repetitions take the same rounds. -/
theorem RunAlike.loop {round round' : σ → Grammar (β ⊕ σ)}
    (h : ∀ s, RunAlike (round s) (round' s)) (done : σ → β) (s : σ) :
    RunAlike (loop round done s) (loop round' done s) := by
  intro c c' hc
  induction hn : c.size using Nat.strong_induction_on generalizing c c' s with
  | _ n ih =>
    rw [run_loop, run_loop]
    obtain ⟨e, e', hr, hr'⟩ | ⟨b | s₁, c₁, c₁', hr, hr', hc₁⟩ := runsAlike_iff.1 (h s c c' hc) <;>
      rw [hr, hr']
    · trivial
    · exact ⟨rfl, hc₁⟩
    · dsimp only
      -- alike places are as far from the end, so both go on or both stop
      rw [← hc.size, ← hc₁.size]
      split
      · next hlt => exact ih _ (hn ▸ hlt) s₁ c₁ c₁' hc₁ rfl
      · exact ⟨rfl, hc₁⟩

/-- Running alike with itself: whatever offsets the place carries, a step gives the same value
at an alike place, or an error. -/
def offsetBlind : Invariant where
  holds g := RunAlike g g
  pure := runAlike_pure
  bind := RunAlike.bind
  expected _ := runAlike_expected _ _
  unsupported _ := runAlike_unsupported _ _
  peek := runAlike_peek
  takeMap := runAlike_takeMap
  peekWord := runAlike_peekWord
  peekName := runAlike_peekName
  loop h := RunAlike.loop h

/-- An atom reads the offset of its token only to report it in an error. -/
theorem runAlike_atom {sub : Nat → Grammar Expr} (hsub : ∀ p, RunAlike (sub p) (sub p)) :
    RunAlike (atom sub) (atom sub) := by
  unfold atom
  refine runAlike_peek.bind fun t => ?_
  rcases t with _ | token
  · exact runAlike_expected _ _
  dsimp only
  refine runAlike_offset_bind fun n n' => (runAlike_takeMap some).bind fun _ => ?_
  split
  case h_2 =>
    split
    · exact runAlike_pure _
    · exact runAlike_fail _ _
  case h_7 | h_8 => exact Walk.holds_afterName (I := offsetBlind.toWalk) hsub _
  case h_9 =>
    exact (hsub 0).bind fun _ => (offsetBlind.holds_expect _).bind fun _ => runAlike_pure _
  case h_10 => exact runAlike_fail _ _
  all_goals exact runAlike_pure _

/-- A column option reads the offset of its token only to report a second nullability there. -/
theorem runAlike_columnOption (col : Column) :
    RunAlike (columnOption col) (columnOption col) := by
  unfold columnOption
  refine runAlike_offset_bind fun n n' => offsetBlind.holds_nullability.bind fun r => ?_
  split
  · split
    · exact runAlike_fail _ _
    · exact runAlike_pure _
  · exact Walk.holds_otherOption (I := offsetBlind.toWalk) (fun _ => runAlike_atom) col

theorem runAlike_statement (d : Dialect) : RunAlike (statement d) (statement d) :=
  Invariant.holds_statement (I := offsetBlind) (fun _ => runAlike_atom) runAlike_columnOption d

end Grammar

/-- Texts whose tokens are alike parse alike: to the same statement, or both to an error. -/
theorem parse_toOption_eq {d : Dialect} {sql sql' : String}
    (h : (Cursor.ofString sql).Alike (Cursor.ofString sql')) :
    (parse d sql).toOption = (parse d sql').toOption := by
  obtain ⟨e, e', h₁, h₂⟩ | ⟨a, c, c', h₁, h₂, -⟩ :=
    Grammar.runsAlike_iff.1 (Grammar.runAlike_statement d _ _ h) <;>
    simp only [parse, h₁, h₂, Except.map, Except.toOption]

end SqlDdl

