import Mathlib.Data.List.TakeWhile
import SqlDdl.Token.Scan

/-!
# Gaps between tokens

Before each token, and after the last one, the scanner passes over a *gap*: White_Space
characters, line comments and block comments, as many as stand there. This file says what a gap
is without the scanner, as the relation `Skips`, and shows that `skipGap` finds exactly that gap:
it succeeds on a text precisely when the text starts with a gap, and it then stops where the gap
ends (`skipGap_sound`, `skipGap_complete`).

A gap is as long as it can be: it ends only before text that begins neither with White_Space,
nor with `--`, nor with `/*`. A line comment runs up to the next line feed or to the end of the
text, and a block comment to the first `*/` after its opening. Where that search starts is a
choice. The scanner starts it at the `*` of the opening `/*`, so that `/*/` is already a whole
comment and `/*/ x */` is the comment `/*/` followed by the token `x`. `Skips` is therefore
stated for any notion of block comment: `ScannedBlock` is the scanner's, `WrittenBlock` the one
whose close comes after the whole opening `/*`. The two differ only at an opening `/*/`
(`scannedBlock_iff`).
-/

namespace SqlDdl.Scan

@[simp] theorem byteLength_nil : byteLength [] = 0 := rfl

@[simp] theorem byteLength_cons (c : Char) (cs : List Char) :
    byteLength (c :: cs) = c.utf8Size + byteLength cs := rfl

@[simp] theorem byteLength_append (a b : List Char) :
    byteLength (a ++ b) = byteLength a + byteLength b := by
  induction a with
  | nil => simp
  | cons c a ih => simp [ih, Nat.add_assoc]

theorem byteLength_ofList (l : List Char) : (String.ofList l).utf8ByteSize = byteLength l := by
  induction l with
  | nil => rfl
  | cons c l ih =>
      rw [String.ofList_cons, String.utf8ByteSize_append, String.utf8ByteSize_singleton, ih]
      rfl

/-- The bytes of a text are the bytes of its characters. -/
theorem byteLength_toList (s : String) : byteLength s.toList = s.utf8ByteSize := by
  rw [← byteLength_ofList, String.ofList_toList]

/-! ## Block comments -/

/-- The first `*/` in `u` is the one at its end. -/
def ClosedByFirst (u : List Char) : Prop :=
  ∃ x, u = x ++ ['*', '/'] ∧ ¬ ['*', '/'] <:+: x

/-- A block comment as the scanner reads it: `/`, then text that starts with `*` and runs to the
first `*/` in it. -/
def ScannedBlock (c : List Char) : Prop :=
  ∃ u, c = '/' :: u ∧ u.head? = some '*' ∧ ClosedByFirst u

/-- A block comment as it is written: `/*`, text without `*/`, and `*/`. -/
def WrittenBlock (c : List Char) : Prop :=
  ∃ x, c = '/' :: '*' :: (x ++ ['*', '/']) ∧ ¬ ['*', '/'] <:+: x

/-- `*/` starts inside `c :: x` only at `c` or inside `x`. -/
theorem not_close_infix_cons {c : Char} {x : List Char} (hx : ¬ ['*', '/'] <:+: x)
    (hc : ¬ (c = '*' ∧ x.head? = some '/')) : ¬ ['*', '/'] <:+: c :: x := by
  rw [List.infix_cons_iff]
  rintro (⟨t, ht⟩ | h)
  · simp only [List.cons_append, List.cons.injEq] at ht
    obtain ⟨rfl, hx'⟩ := ht
    exact hc ⟨rfl, by rw [← hx']; rfl⟩
  · exact hx h

/-- The two readings of a block comment part only at an opening `/*/`, which the scanner takes
for a whole comment. -/
theorem scannedBlock_iff {c : List Char} :
    ScannedBlock c ↔ c = ['/', '*', '/'] ∨ (WrittenBlock c ∧ ¬ ['/', '*', '/'] <+: c) := by
  constructor
  · rintro ⟨u, rfl, hu, x, rfl, hx⟩
    cases x with
    | nil => exact Or.inl rfl
    | cons d x =>
        obtain rfl : d = '*' := by simpa using hu
        have hx' : ¬ ['*', '/'] <:+: x := fun h => hx (h.trans (List.suffix_cons '*' x).isInfix)
        refine Or.inr ⟨⟨x, rfl, hx'⟩, fun hp => hx ?_⟩
        -- an opening `/*/` puts a `*/` at the opening's star
        cases x with
        | nil => simp [List.cons_prefix_cons] at hp
        | cons e x =>
            obtain rfl : '/' = e := by simpa [List.cons_prefix_cons] using hp
            exact (List.prefix_append ['*', '/'] x).isInfix
  · rintro (rfl | ⟨⟨x, rfl, hx⟩, hp⟩)
    · exact ⟨['*', '/'], rfl, rfl, [], rfl, by simp⟩
    · refine ⟨'*' :: (x ++ ['*', '/']), rfl, rfl, '*' :: x, rfl, not_close_infix_cons hx ?_⟩
      rintro ⟨-, hx'⟩
      obtain ⟨y, rfl⟩ : ∃ y, x = '/' :: y := by
        cases x with
        | nil => simp at hx'
        | cons e y => exact ⟨y, by simpa using hx'⟩
      exact hp (by simp [List.cons_prefix_cons])

/-- What `afterClose` passes over is text up to and with its first `*/`. -/
theorem afterClose_some {cs t : List Char} {p p' : Nat} (h : afterClose cs p = some (t, p')) :
    ∃ u, cs = u ++ t ∧ ClosedByFirst u ∧ p' = p + byteLength u := by
  induction cs, p using afterClose.induct with
  | case1 rest pos =>
      rw [afterClose.eq_1] at h
      obtain ⟨rfl, rfl⟩ := Prod.mk.inj (Option.some.inj h)
      exact ⟨['*', '/'], rfl, ⟨[], rfl, by simp⟩, rfl⟩
  | case2 c rest pos hne ih =>
      rw [afterClose.eq_2 _ _ _ hne] at h
      obtain ⟨u, rfl, ⟨x, rfl, hx⟩, rfl⟩ := ih h
      refine ⟨c :: (x ++ ['*', '/']), rfl, ⟨c :: x, rfl, ?_⟩, by simp; omega⟩
      refine not_close_infix_cons hx ?_
      rintro ⟨hc, hx'⟩
      obtain ⟨y, rfl⟩ : ∃ y, x = '/' :: y := by
        cases x with
        | nil => simp at hx'
        | cons d y => simp only [List.head?_cons, Option.some.injEq] at hx'; exact ⟨y, by rw [hx']⟩
      exact hne _ hc rfl
  | case3 pos => simp [afterClose] at h

/-- From a text that runs to its first `*/`, `afterClose` passes over exactly that text. -/
theorem afterClose_append {x t : List Char} (hx : ¬ ['*', '/'] <:+: x) (p : Nat) :
    afterClose (x ++ ['*', '/'] ++ t) p = some (t, p + byteLength (x ++ ['*', '/'])) := by
  induction x generalizing p with
  | nil =>
      show afterClose ('*' :: '/' :: t) p = _
      rw [afterClose.eq_1]; rfl
  | cons c x ih =>
      have hx' : ¬ ['*', '/'] <:+: x := fun h => hx (h.trans (List.suffix_cons c x).isInfix)
      rw [List.cons_append, List.cons_append, afterClose.eq_2]
      · rw [ih hx']
        simp [Nat.add_assoc]
      · intro rest hc hrest
        apply hx
        cases x with
        | nil => simp at hrest
        | cons d y =>
            simp only [List.cons_append, List.cons.injEq] at hrest
            rw [hc, hrest.1]
            exact (List.prefix_append ['*', '/'] y).isInfix

/-! ## The gap relation -/

/-- Whether a gap can go on at the front of a text: White_Space, or the opening of a comment. -/
def StartsGap : List Char → Prop
  | c :: cs =>
    Text.isWhiteSpace c = true ∨ (c = '-' ∧ cs.head? = some '-') ∨ (c = '/' ∧ cs.head? = some '*')
  | [] => False

/-- `Skips block g r`: `g` is the whole gap at the front of `g ++ r`, with block comments as
`block` says; the text `r` after it is where the next token starts, or the end. -/
inductive Skips (block : List Char → Prop) : List Char → List Char → Prop
  /-- A gap ends only where it cannot go on. -/
  | stop {r : List Char} : ¬ StartsGap r → Skips block [] r
  | space {c : Char} {g r : List Char} : Text.isWhiteSpace c = true → Skips block g r →
      Skips block (c :: g) r
  /-- A line comment runs up to the next line feed, or to the end of the text. -/
  | line {body g r : List Char} : '\n' ∉ body → (∀ c ∈ (g ++ r).head?, c = '\n') →
      Skips block g r → Skips block ('-' :: '-' :: body ++ g) r
  | block {c g r : List Char} : block c → Skips block g r → Skips block (c ++ g) r

/-! ## What `skipGap` finds -/

theorem skipGap_sound {cs r : List Char} {pos p : Nat} (h : skipGap cs pos = .ok (r, p)) :
    ∃ g, cs = g ++ r ∧ Skips ScannedBlock g r ∧ p = pos + byteLength g := by
  fun_induction skipGap cs pos generalizing r p with
  | case1 more pos ih =>
      obtain ⟨g, hg, hs, rfl⟩ := ih h
      refine ⟨'-' :: '-' :: (more.takeWhile (· != '\n') ++ g), ?_, ?_, ?_⟩
      · simp only [List.cons_append, List.append_assoc, ← hg, List.takeWhile_append_dropWhile]
      · refine Skips.line (fun hn => ?_) (fun c hc => ?_) hs
        · simpa using List.mem_takeWhile_imp hn
        · have := List.head?_dropWhile_not (· != '\n') more
          rw [hg, hc] at this
          simpa using this
      · simp only [byteLength_cons, byteLength_append]
        have : '-'.utf8Size = 1 := rfl
        omega
  | case2 more pos rest next hclose _ ih =>
      obtain ⟨g, rfl, hs, rfl⟩ := ih h
      obtain ⟨u, hu, hfirst, rfl⟩ := afterClose_some hclose
      have hstar : u.head? = some '*' := by
        obtain ⟨x, rfl, -⟩ := hfirst
        cases x with
        | nil => rfl
        | cons d x =>
            simp only [List.cons_append, List.cons.injEq] at hu
            rw [← hu.1]; rfl
      refine ⟨('/' :: u) ++ g, ?_, Skips.block ⟨u, rfl, hstar, hfirst⟩ hs, ?_⟩
      · simp only [List.cons_append, List.append_assoc, ← hu]
      · simp only [byteLength_append, byteLength_cons]
        have : '/'.utf8Size = 1 := rfl
        omega
  | case3 => cases h
  | case4 c rest pos _ _ hws ih =>
      obtain ⟨g, rfl, hs, rfl⟩ := ih h
      exact ⟨c :: g, rfl, Skips.space hws hs, by simp; omega⟩
  | case5 c rest pos hdash hslash hws =>
      obtain ⟨rfl, rfl⟩ := Prod.mk.inj (Except.ok.inj h)
      refine ⟨[], rfl, Skips.stop ?_, rfl⟩
      rintro (hw | ⟨rfl, hd⟩ | ⟨rfl, hd⟩)
      · exact hws hw
      · obtain ⟨more, rfl⟩ := List.head?_eq_some_iff.1 hd
        exact hdash _ rfl rfl
      · obtain ⟨more, rfl⟩ := List.head?_eq_some_iff.1 hd
        exact hslash _ rfl rfl
  | case6 pos =>
      obtain ⟨rfl, rfl⟩ := Prod.mk.inj (Except.ok.inj h)
      exact ⟨[], rfl, Skips.stop id, rfl⟩

/-- Text at which no gap can go on is left as it is. -/
theorem skipGap_of_not_startsGap {r : List Char} (hr : ¬ StartsGap r) (pos : Nat) :
    skipGap r pos = .ok (r, pos) := by
  match r with
  | [] => rw [skipGap.eq_4]
  | c :: rest =>
      rw [skipGap.eq_3]
      · rw [if_neg fun h => hr (Or.inl h)]
      · rintro more rfl rfl
        exact hr (Or.inr (Or.inl ⟨rfl, rfl⟩))
      · rintro more rfl rfl
        exact hr (Or.inr (Or.inr ⟨rfl, rfl⟩))

/-- A line comment stops before the line feed that follows it. -/
theorem takeWhile_line {body rest : List Char} (hbody : '\n' ∉ body)
    (hrest : ∀ c ∈ rest.head?, c = '\n') :
    (body ++ rest).takeWhile (· != '\n') = body ∧
      (body ++ rest).dropWhile (· != '\n') = rest := by
  have hall : ∀ a ∈ body, (a != '\n') = true := fun a ha => by
    simpa using fun h : a = '\n' => hbody (h ▸ ha)
  rw [List.takeWhile_append_of_pos hall, List.dropWhile_append_of_pos hall]
  cases rest with
  | nil => simp
  | cons c rest =>
      obtain rfl := hrest c rfl
      simp

theorem skipGap_complete {g r : List Char} (hg : Skips ScannedBlock g r) (pos : Nat) :
    skipGap (g ++ r) pos = .ok (r, pos + byteLength g) := by
  induction hg generalizing pos with
  | stop hr => exact skipGap_of_not_startsGap hr pos
  | @space c g r hc _ ih =>
      have hdash : c ≠ '-' := by rintro rfl; exact absurd hc (by decide)
      have hslash : c ≠ '/' := by rintro rfl; exact absurd hc (by decide)
      rw [List.cons_append, skipGap.eq_3 _ _ _ (fun _ h _ => hdash h) (fun _ h _ => hslash h),
        if_pos hc, ih]
      simp [Nat.add_assoc]
  | @line body g r hbody hhead _ ih =>
      obtain ⟨htake, hdrop⟩ := takeWhile_line hbody hhead
      simp only [List.cons_append, List.append_assoc]
      rw [skipGap.eq_1, htake, hdrop, ih]
      congr 2
      simp only [byteLength_cons, byteLength_append]
      have : '-'.utf8Size = 1 := rfl
      omega
  | @block c g r hc _ ih =>
      obtain ⟨u, rfl, hu, x, rfl, hx⟩ := hc
      obtain ⟨more, hmore⟩ : ∃ more, x ++ ['*', '/'] ++ (g ++ r) = '*' :: more := by
        cases x with
        | nil => exact ⟨'/' :: (g ++ r), rfl⟩
        | cons d x =>
            simp only [List.cons_append, List.head?_cons, Option.some.injEq] at hu
            exact ⟨x ++ ['*', '/'] ++ (g ++ r), by simp [hu]⟩
      have hclose : afterClose (x ++ ['*', '/'] ++ (g ++ r)) (pos + 1) = _ :=
        afterClose_append hx (pos + 1)
      rw [hmore] at hclose
      rw [show ('/' :: (x ++ ['*', '/'])) ++ g ++ r = '/' :: '*' :: more by simp [← hmore],
        skipGap.eq_2]
      split
      · next rest next h =>
          rw [hclose] at h
          obtain ⟨rfl, rfl⟩ := Prod.mk.inj (Option.some.inj h)
          rw [ih]
          congr 2
          simp only [byteLength_cons, byteLength_append]
          have : '/'.utf8Size = 1 := rfl
          omega
      · next h => rw [hclose] at h; cases h

end SqlDdl.Scan
