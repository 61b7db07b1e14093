import SqlDdl.Proofs.Lexing
import SqlDdl.Proofs.RenderTokens

/-!
# Text after the last token

The scanner reads a text the same way when more text follows it, as long as nothing it read runs
on into what follows: the tokens are those of the text, each at its offset, and the scanner then
goes on with what follows from where the text ends (`scanFrom_append`). That holds when the text
ends with the last character of its last token and what follows starts with White_Space: no word,
number, quoted text or punctuation goes on over White_Space, and every gap and quote before the
end of the text closes before it.

Each step of the scanner is taken in turn: the runs of characters a number is made of, quoted text,
punctuation, gaps, and whole tokens.
-/

namespace SqlDdl.Scan

/-- Text that is empty or starts with White_Space. -/
def StartsBlank (T : List Char) : Prop := ∀ x ∈ T.head?, Text.isWhiteSpace x = true

variable {T : List Char}

theorem StartsBlank.head_not {p : Char → Bool} (hT : StartsBlank T)
    (hp : ∀ c, p c = true → Text.isWhiteSpace c = false) : ∀ x ∈ T.head?, p x = false := by
  intro x hx
  cases h : p x
  · rfl
  · have hw := hp x h
    rw [hT x hx] at hw
    cases hw

theorem StartsBlank.head_ne {c : Char} (hT : StartsBlank T) (hc : Text.isWhiteSpace c = false) :
    ∀ x ∈ T.head?, x ≠ c := by
  rintro x hx rfl
  rw [hT x hx] at hc
  cases hc

/-- A run that stops before `T` reads the same from `cs ++ T` as from `cs`. -/
theorem takeWhile_append_of_head {p : Char → Bool} (cs : List Char)
    (hT : ∀ x ∈ T.head?, p x = false) :
    (cs ++ T).takeWhile p = cs.takeWhile p ∧ (cs ++ T).dropWhile p = cs.dropWhile p ++ T := by
  induction cs with
  | nil =>
    cases T with
    | nil => exact ⟨rfl, rfl⟩
    | cons x T =>
      have hx : ¬ p x = true := by simp [hT x rfl]
      exact ⟨List.takeWhile_cons_of_neg hx, List.dropWhile_cons_of_neg hx⟩
  | cons c cs ih =>
    by_cases hc : p c = true
    · rw [List.cons_append, List.takeWhile_cons_of_pos hc, List.dropWhile_cons_of_pos hc,
        List.takeWhile_cons_of_pos hc, List.dropWhile_cons_of_pos hc, ih.1, ih.2]
      exact ⟨rfl, rfl⟩
    · rw [List.cons_append, List.takeWhile_cons_of_neg hc, List.dropWhile_cons_of_neg hc,
        List.takeWhile_cons_of_neg hc, List.dropWhile_cons_of_neg hc]
      exact ⟨rfl, rfl⟩

/-! ## Numbers -/

theorem isWhiteSpace_of_isDigit {c : Char} (h : c.isDigit = true) :
    Text.isWhiteSpace c = false :=
  isWhiteSpace_of_isWordChar (isWordChar_of_isDigit h)

section Numbers

variable (hT : StartsBlank T)
include hT

theorem digitRun_append_of_startsBlank (cs : List Char) :
    digitRun (cs ++ T) = ((digitRun cs).1, (digitRun cs).2 ++ T) := by
  obtain ⟨h₁, h₂⟩ := takeWhile_append_of_head cs (hT.head_not fun _ => isWhiteSpace_of_isDigit)
  simp only [digitRun, h₁, h₂]

theorem fractionPart_append_of_startsBlank (cs : List Char) :
    fractionPart (cs ++ T) = ((fractionPart cs).1, (fractionPart cs).2 ++ T) := by
  cases cs with
  | nil =>
    rw [List.nil_append, fractionPart_of_head (hT.head_ne (by decide))]
    rfl
  | cons c r =>
    by_cases hc : c = '.'
    · subst hc
      rw [List.cons_append, fractionPart_point, fractionPart_point,
        digitRun_append_of_startsBlank hT]
    · rw [List.cons_append, fractionPart_of_head (by simpa using hc),
        fractionPart_of_head (by simpa using hc)]
      rfl

theorem signPart_append_of_startsBlank (cs : List Char) :
    signPart (cs ++ T) = ((signPart cs).1, (signPart cs).2 ++ T) := by
  cases cs with
  | nil =>
    cases T with
    | nil => rfl
    | cons x T =>
      have hx : Text.isWhiteSpace x = true := hT x rfl
      rw [List.nil_append, signPart_cons, if_neg (by rintro (rfl | rfl) <;> cases hx)]
      rfl
  | cons g r =>
    rw [List.cons_append, signPart_cons, signPart_cons]
    split <;> rfl

theorem exponentPart_append_of_startsBlank (cs : List Char) :
    exponentPart (cs ++ T) = ((exponentPart cs).1, (exponentPart cs).2 ++ T) := by
  cases cs with
  | nil =>
    cases T with
    | nil => rfl
    | cons x T =>
      have hx : Text.isWhiteSpace x = true := hT x rfl
      have hm : ¬ (x = 'e' ∨ x = 'E') := by rintro (rfl | rfl) <;> cases hx
      simp only [List.nil_append, exponentPart, hm, ↓reduceIte]
  | cons m r =>
    by_cases hm : m = 'e' ∨ m = 'E'
    · rw [List.cons_append, exponentPart_mark _ hm, exponentPart_mark _ hm,
        signPart_append_of_startsBlank hT, digitRun_append_of_startsBlank hT]
    · simp only [List.cons_append, exponentPart, hm, ↓reduceIte]

theorem readNumber_append_of_startsBlank (cs : List Char) :
    readNumber (cs ++ T) = ((readNumber cs).1, (readNumber cs).2 ++ T) := by
  simp only [readNumber, digitRun_append_of_startsBlank hT, fractionPart_append_of_startsBlank hT,
    exponentPart_append_of_startsBlank hT]

/-- Punctuation looks one character ahead at most, for `<=`, `<>`, `>=` and `!=`; no White_Space
is `=` or `>`. -/
theorem readSymbol_append_of_startsBlank (c : Char) (rest : List Char) :
    readSymbol c (rest ++ T) = (readSymbol c rest).map fun x => (x.1, x.2.1 ++ T, x.2.2) := by
  cases rest with
  | cons d r =>
    rw [List.cons_append]
    unfold readSymbol
    split <;> simp_all
  | nil =>
    cases T with
    | nil => simp
    | cons x T =>
      have hx : Text.isWhiteSpace x = true := hT x rfl
      have hequal : x ≠ '=' := by rintro rfl; cases hx
      have hgreater : x ≠ '>' := by rintro rfl; cases hx
      rw [List.nil_append]
      unfold readSymbol
      split <;> simp_all

end Numbers

/-! ## Quoted text and comments that close -/

/-- Quoted text that closes in `cs` closes at the same quote in `cs ++ T`: the quote after it, if
any, is White_Space and no second quote. -/
theorem readQuoted_append (hT : StartsBlank T) {q : Char} (hq : Text.isWhiteSpace q = false)
    {cs X r : List Char} {n : Nat} (h : readQuoted q cs = some (X, r, n)) :
    readQuoted q (cs ++ T) = some (X, r ++ T, n) := by
  obtain ⟨rfl, hr, rfl⟩ := readQuoted_some h
  have hr' : (r ++ T).head? ≠ some q := by
    cases r with
    | nil =>
      intro hx
      exact hT.head_ne hq q hx rfl
    | cons y r => simpa using hr
  obtain ⟨n', h'⟩ := readQuoted_doubleQuote q hr' X
  rw [List.append_assoc, List.cons_append, h']
  obtain ⟨-, -, rfl⟩ := readQuoted_some h'
  rfl

/-- A block comment that closes in `cs` closes at the same `*/` in `cs ++ T`. -/
theorem afterClose_append_of_some {cs r : List Char} {p p' : Nat}
    (h : afterClose cs p = some (r, p')) : afterClose (cs ++ T) p = some (r ++ T, p') := by
  obtain ⟨u, rfl, ⟨x, rfl, hx⟩, rfl⟩ := afterClose_some h
  simpa only [List.append_assoc] using afterClose_append hx (t := r ++ T) p

/-! ## Gaps -/

theorem not_startsGap_append (hT : StartsBlank T) {c : Char} {rest : List Char}
    (h : ¬ StartsGap (c :: rest)) : ¬ StartsGap (c :: (rest ++ T)) := by
  rintro (hw | ⟨rfl, hd⟩ | ⟨rfl, hd⟩)
  · exact h (.inl hw)
  all_goals
    cases rest with
    | nil => exact hT.head_ne (by decide) _ hd rfl
    | cons d rest =>
      simp only [List.cons_append, List.head?_cons] at hd
      exact h (.inr (by simp [hd]))

/-- A run that stops inside `cs` reads the same from `cs ++ T`. -/
theorem takeWhile_append_of_stop {p : Char → Bool} {cs : List Char} (h : cs.dropWhile p ≠ []) :
    (cs ++ T).takeWhile p = cs.takeWhile p ∧ (cs ++ T).dropWhile p = cs.dropWhile p ++ T := by
  have hlen : (cs.takeWhile p).length ≠ cs.length := by
    have hsum := congrArg List.length (List.takeWhile_append_dropWhile (p := p) (l := cs))
    have hpos : 0 < (cs.dropWhile p).length := List.length_pos_iff.2 h
    rw [List.length_append] at hsum
    omega
  rw [List.takeWhile_append, if_neg hlen, List.dropWhile_append, if_neg (by simpa using h)]
  exact ⟨rfl, rfl⟩

theorem skipGap_block {more rest : List Char} {pos next : Nat}
    (h : afterClose ('*' :: more) (pos + 1) = some (rest, next)) :
    skipGap ('/' :: '*' :: more) pos = skipGap rest next := by
  rw [skipGap.eq_2]
  split
  · next h' =>
    rw [h] at h'
    obtain ⟨rfl, rfl⟩ := Prod.mk.inj (Option.some.inj h')
    rfl
  · next h' => rw [h] at h'; cases h'

/-- A gap that ends before a token of `X` ends at the same place in `X ++ T`. -/
theorem skipGap_append (hT : StartsBlank T) {X rest : List Char} {c : Char} {p p' : Nat}
    (h : skipGap X p = .ok (c :: rest, p')) : skipGap (X ++ T) p = .ok (c :: rest ++ T, p') := by
  fun_induction skipGap X p with
  | case1 more pos ih =>
    have hstop : more.dropWhile (· != '\n') ≠ [] := by
      intro hnil
      rw [hnil, skipGap.eq_4] at h
      cases h
    obtain ⟨h₁, h₂⟩ := takeWhile_append_of_stop (T := T) hstop
    rw [List.cons_append, List.cons_append, skipGap.eq_1, h₁, h₂]
    exact ih h
  | case2 more pos rest' next hclose _ ih =>
    have hclose' := afterClose_append_of_some (T := T) hclose
    rw [List.cons_append] at hclose'
    rw [List.cons_append, List.cons_append, skipGap_block hclose']
    exact ih h
  | case3 more pos hnone => cases h
  | case4 c' rest' pos _ _ hws ih =>
    rw [List.cons_append, skipGap_whiteSpace _ _ hws]
    exact ih h
  | case5 c' rest' pos hdash hslash hws =>
    cases h
    have hgap : ¬ StartsGap (c :: rest) := by
      rintro (hw | ⟨rfl, hd⟩ | ⟨rfl, hd⟩)
      · exact hws hw
      · obtain ⟨more, rfl⟩ := List.head?_eq_some_iff.1 hd
        exact hdash _ rfl rfl
      · obtain ⟨more, rfl⟩ := List.head?_eq_some_iff.1 hd
        exact hslash _ rfl rfl
    rw [List.cons_append, skipGap_of_not_startsGap (not_startsGap_append hT hgap)]
  | case6 pos => cases h

/-! ## Tokens -/

/-- A token read from `rest` is read the same from `rest ++ T`, with `T` after what is left. -/
theorem readToken_append (hT : StartsBlank T) {c : Char} {rest r : List Char} {t : Token}
    {p p' : Nat} (h : readToken c rest p = .ok (t, r, p')) :
    readToken c (rest ++ T) p = .ok (t, r ++ T, p') := by
  unfold readToken at h ⊢
  split
  · next hq =>
      have hw : Text.isWhiteSpace c = false := by rcases hq with rfl | rfl | rfl <;> rfl
      rw [if_pos hq] at h
      split at h
      · next X r' n hr =>
          rw [readQuoted_append hT hw hr]
          cases h
          rfl
      · cases h
  · next hq =>
      rw [if_neg hq] at h
      split
      · next hd =>
          rw [if_pos hd] at h
          cases h
          rw [readNumber_append_of_startsBlank hT]
      · next hd =>
          rw [if_neg hd] at h
          split
          · next hw =>
              rw [if_pos hw] at h
              cases h
              obtain ⟨h₁, h₂⟩ := takeWhile_append_of_head rest
                (hT.head_not fun _ => isWhiteSpace_of_isWordChar)
              simp only [h₁, h₂]
          · next hw =>
              rw [if_neg hw] at h
              rw [readSymbol_append_of_startsBlank hT]
              split at h
              · next t' r' n hs =>
                  cases h
                  simp [hs]
              · cases h

/-! ## The whole text -/

theorem eq_nil_of_byteLength_eq_zero {E : List Char} (h : byteLength E = 0) : E = [] := by
  cases E with
  | nil => rfl
  | cons c E =>
    have := Char.utf8Size_pos c
    simp only [byteLength_cons] at h
    omega

/-- Of two ways to cut a text, the one with the shorter front in bytes cuts first. -/
theorem prefix_of_byteLength_le {A B C D : List Char} (h : A ++ B = C ++ D)
    (hle : byteLength A ≤ byteLength C) : ∃ E, C = A ++ E ∧ B = E ++ D := by
  rcases List.append_eq_append_iff.1 h with ⟨E, rfl, rfl⟩ | ⟨E, rfl, rfl⟩
  · exact ⟨E, rfl, rfl⟩
  · simp only [byteLength_append] at hle
    rw [eq_nil_of_byteLength_eq_zero (by omega : byteLength E = 0)]
    exact ⟨[], by simp, by simp⟩

/-- The scanner places every token at or after where it starts. -/
theorem le_offset_of_mem_scanFrom {cs : List Char} {q : Nat} {s : Spanned}
    (h : s ∈ (scanFrom cs q).tokens) : q ≤ s.offset := by
  fun_induction scanFrom cs q with
  | case1 => simp at h
  | case2 => simp at h
  | case3 => simp at h
  | case4 cs pos c rest p hgap t r p' htok _ _ more ih =>
    obtain ⟨g, -, -, rfl⟩ := skipGap_sound hgap
    obtain ⟨w, -, -, rfl⟩ := readToken_sound htok
    simp only [more, List.mem_cons] at h
    rcases h with rfl | h
    · exact Nat.le_add_right _ _
    · have := ih h
      omega

/-- The text `X`, read from position `p`, ends with the last character of its last token: the
lexeme of that token runs to the end of `X`. -/
def EndsWithToken (X : List Char) (p : Nat) : Prop :=
  ∃ pre w t, X = pre ++ w ∧ Lexeme w t ∧
    (scanFrom X p).tokens.getLast? = some ⟨t, p + byteLength pre⟩

/-- A text that lexes and ends with its last token is read the same with text after it that
starts with White_Space: its tokens, then those of the text after it, from where it ends. -/
theorem scanFrom_append (hT : StartsBlank T) {X : List Char} {p n : Nat}
    (hfin : (scanFrom X p).stop = .finished n) (hend : EndsWithToken X p) :
    scanFrom (X ++ T) p =
      ⟨(scanFrom X p).tokens ++ (scanFrom T (p + byteLength X)).tokens,
        (scanFrom T (p + byteLength X)).stop⟩ := by
  unfold EndsWithToken at hend
  fun_induction scanFrom X p with
  | case1 => cases hfin
  | case2 cs pos p' hgap =>
    obtain ⟨pre, w, t, -, -, hlast⟩ := hend
    simp at hlast
  | case3 => cases hfin
  | case4 cs pos c rest p₁ hgap t₁ r p₂ htok _ _ more ih =>
    obtain ⟨g, rfl, -, rfl⟩ := skipGap_sound hgap
    obtain ⟨w₁, hw₁, hl, rfl⟩ := readToken_sound htok
    obtain ⟨pre, w, t, hcs, hw, hlast⟩ := hend
    rw [scanFrom_of_token (skipGap_append hT hgap) (readToken_append hT htok)]
    rw [hw₁] at hcs
    by_cases hmore : more.tokens = []
    · simp only [hmore, List.getLast?_singleton, Option.some.injEq, Spanned.mk.injEq] at hlast
      obtain ⟨rfl, hoff⟩ := hlast
      obtain ⟨E, hpre, hrest⟩ := prefix_of_byteLength_le hcs (by omega)
      rw [eq_nil_of_byteLength_eq_zero (by simp [hpre] at hoff; omega : byteLength E = 0)] at hrest
      have hle := hl.2 w t₁ hw ⟨[], by rw [List.append_nil, hrest, List.nil_append]⟩
      obtain rfl : r = [] := by
        have := congrArg List.length hrest
        simp only [List.nil_append, List.length_append] at this
        exact List.eq_nil_of_length_eq_zero (by omega)
      have hpos : pos + byteLength (g ++ c :: rest) = pos + byteLength g + byteLength w₁ := by
        rw [hw₁, List.append_nil, byteLength_append, Nat.add_assoc]
      simp only [hmore, hpos, List.nil_append, List.cons_append]
    · have hlast' : more.tokens.getLast? = some ⟨t, pos + byteLength pre⟩ := by
        obtain ⟨x, xs, hx⟩ := List.exists_cons_of_ne_nil hmore
        rw [hx] at hlast ⊢
        simpa only [List.getLast?_cons_cons] using hlast
      have hle := le_offset_of_mem_scanFrom (List.mem_of_getLast? hlast')
      rw [← List.append_assoc] at hcs
      obtain ⟨E, rfl, hr⟩ := prefix_of_byteLength_le hcs (by simp at hle ⊢; omega)
      have hrun := ih hfin ⟨E, w, t, hr, hw, by rw [hlast']; simp [Nat.add_assoc]⟩
      have hpos : pos + byteLength (g ++ c :: rest) =
          pos + byteLength g + byteLength w₁ + byteLength r := by
        rw [hw₁, byteLength_append, byteLength_append]
        omega
      rw [hrun, hpos]
      rfl

end SqlDdl.Scan
