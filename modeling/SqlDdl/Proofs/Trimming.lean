import SqlDdl.Proofs.Offsets
import SqlDdl.Proofs.Blanks
import SqlDdl.Proofs.Gaps
import SqlDdl.Proofs.Lexemes
import SqlDdl.Proofs.RenderTokens
import SqlDdl.Proofs.Appending

/-!
# White space at the ends of a text

A text and the text with White_Space trimmed from both ends parse alike: to the same statement,
or both to an error (`parse_trimWhiteSpace`). Only the offsets differ, and the parser reads
offsets only to report them (`parse_toOption_eq`).

White space before the text is a gap the scanner steps over (`scanFrom_append_blank_left`). White
space after it is `Blank` text that no token reads into: no lexeme goes on with White_Space, a
line comment that runs to the end of the text runs on into it, and no comment or quote closes in
it. So the scanner reads the same tokens from `X ++ T` as from `X` and ends the same way
(`shape_scanFrom_append`); the step lemmas say how a gap (`GapAfter`) and a token (`ReadAfter`)
are read with `T` after them.
-/

namespace SqlDdl

/-- What the parser sees of a token stream: its tokens without their offsets, and whether it
ends at the end of its text. -/
def TokenStream.shape (s : TokenStream) : List Token × Bool :=
  (s.tokens.map (·.token), s.stop.finishes)

theorem TokenStream.shape_cons (t : Spanned) (s : TokenStream) :
    (⟨t :: s.tokens, s.stop⟩ : TokenStream).shape = (t.token :: s.shape.1, s.shape.2) := rfl

/-- Streams of the same shape start at alike places. -/
theorem Cursor.alike_ofStream {s s' : TokenStream} (h : s.shape = s'.shape) :
    (Cursor.ofStream s).Alike (Cursor.ofStream s') :=
  Prod.mk.inj h

namespace Scan

/-- Text made of White_Space only. -/
def Blank (T : List Char) : Prop := ∀ c ∈ T, Text.isWhiteSpace c = true

variable {T : List Char}

theorem Blank.ne {c : Char} (hT : Blank T) (hc : Text.isWhiteSpace c = false) : c ∉ T :=
  fun h => by rw [hT c h] at hc; cases hc

theorem Blank.startsBlank (hT : Blank T) : StartsBlank T :=
  fun x hx => hT x (List.mem_of_mem_head? hx)

theorem Blank.dropWhile (hT : Blank T) (p : Char → Bool) : Blank (T.dropWhile p) :=
  fun c hc => hT c ((List.dropWhile_sublist p).subset hc)

/-! ## Gaps -/

/-- Blank text is all gap. -/
theorem skipGap_blank (hT : Blank T) (pos : Nat) : skipGap T pos = .ok ([], pos + byteLength T) := by
  induction T generalizing pos with
  | nil => rw [skipGap.eq_4]; rfl
  | cons c T ih =>
    rw [skipGap_whiteSpace T pos (hT c List.mem_cons_self),
      ih (fun x hx => hT x (List.mem_cons_of_mem c hx))]
    simp [Nat.add_assoc]

/-- No block comment closes in blank text. -/
theorem afterClose_blank (hT : Blank T) (pos : Nat) : afterClose T pos = none := by
  induction T generalizing pos with
  | nil => rfl
  | cons c T ih =>
    have hc : c ≠ '*' := by
      rintro rfl
      exact hT.ne (by decide) List.mem_cons_self
    rw [afterClose.eq_2 _ _ _ (fun _ h _ => hc h)]
    exact ih (fun x hx => hT x (List.mem_cons_of_mem c hx)) _

/-- A block comment closes in `cs ++ T` where it closes in `cs`, and nowhere if not there. -/
theorem afterClose_append_blank (hT : Blank T) (cs : List Char) (p q : Nat) :
    (afterClose (cs ++ T) q).map Prod.fst = (afterClose cs p).map (·.1 ++ T) := by
  induction cs, p using afterClose.induct generalizing q with
  | case1 rest pos =>
    rw [List.cons_append, List.cons_append, afterClose.eq_1, afterClose.eq_1]
    rfl
  | case2 c rest pos hne ih =>
    have hne' : ∀ more, c = '*' → rest ++ T = '/' :: more → False := by
      intro more hc h
      cases rest with
      | nil =>
        rw [List.nil_append] at h
        exact hT.startsBlank.head_ne (by decide) '/' (by simp [h]) rfl
      | cons d rest =>
        simp only [List.cons_append, List.cons.injEq] at h
        exact hne _ hc (by rw [h.1])
    rw [List.cons_append, afterClose.eq_2 _ _ _ hne', afterClose.eq_2 _ _ _ hne]
    exact ih _
  | case3 pos =>
    rw [List.nil_append, afterClose_blank hT]
    rfl

theorem skipGap_unclosed {more : List Char} {pos : Nat}
    (h : afterClose ('*' :: more) (pos + 1) = none) :
    skipGap ('/' :: '*' :: more) pos = .error (.unterminatedComment pos) := by
  rw [skipGap.eq_2]
  split
  · next h' => rw [h] at h'; cases h'
  · rfl

/-- How the gap at the front of `X ++ T` ends, next to the gap at the front of `X`: with an error
for an error; at the end where the gap of `X` runs to its end, since it then runs through `T`;
and otherwise at the same place, with `T` after it. -/
def GapAfter (T : List Char) :
    Except LexError (List Char × Nat) → Except LexError (List Char × Nat) → Prop
  | .error _, .error _ => True
  | .ok ([], _), .ok (r', _) => r' = []
  | .ok (c :: r, _), .ok (r', _) => r' = c :: r ++ T
  | .error _, .ok _ => False
  | .ok _, .error _ => False

theorem skipGap_append_blank (hT : Blank T) (X : List Char) (p q : Nat) :
    GapAfter T (skipGap X p) (skipGap (X ++ T) q) := by
  fun_induction skipGap X p generalizing q with
  | case1 more pos ih =>
    rw [List.cons_append, List.cons_append, skipGap.eq_1, List.dropWhile_append]
    split
    · next hnil =>
      rw [List.isEmpty_iff.1 hnil, skipGap.eq_4, skipGap_blank (hT.dropWhile _)]
      rfl
    · exact ih _
  | case2 more pos rest next hclose _ ih =>
    have hclose' := afterClose_append_blank hT ('*' :: more) (pos + 1) (q + 1)
    rw [hclose] at hclose'
    obtain ⟨⟨rest', next'⟩, h', hrest⟩ := Option.map_eq_some_iff.1 hclose'
    dsimp only at hrest
    subst hrest
    rw [List.cons_append] at h'
    rw [List.cons_append, List.cons_append, skipGap_block h']
    exact ih _
  | case3 more pos hnone =>
    have hnone' := afterClose_append_blank hT ('*' :: more) (pos + 1) (q + 1)
    rw [hnone, Option.map_none, Option.map_eq_none_iff] at hnone'
    rw [List.cons_append] at hnone'
    rw [List.cons_append, List.cons_append, skipGap_unclosed hnone']
    trivial
  | case4 c rest pos _ _ hws ih =>
    rw [List.cons_append, skipGap_whiteSpace _ _ hws]
    exact ih _
  | case5 c rest pos hdash hslash hws =>
    have hgap : ¬ StartsGap (c :: rest) := by
      rintro (hw | ⟨rfl, hd⟩ | ⟨rfl, hd⟩)
      · exact hws hw
      · obtain ⟨more, rfl⟩ := List.head?_eq_some_iff.1 hd
        exact hdash _ rfl rfl
      · obtain ⟨more, rfl⟩ := List.head?_eq_some_iff.1 hd
        exact hslash _ rfl rfl
    rw [List.cons_append, skipGap_of_not_startsGap (not_startsGap_append hT.startsBlank hgap)]
    rfl
  | case6 pos =>
    rw [List.nil_append, skipGap_blank hT]
    rfl

/-! ## Tokens -/

theorem readQuoted_of_not_mem {q : Char} (h : q ∉ T) : readQuoted q T = none := by
  induction T with
  | nil => rfl
  | cons c T ih =>
    have hc : c ≠ q := fun hc => h (hc ▸ List.mem_cons_self)
    rw [readQuoted.eq_def]
    simp only [if_neg hc, ih (fun hm => h (List.mem_cons_of_mem c hm)), Option.map_none]

/-- Quoted text closes in `cs ++ T` where it closes in `cs`, and nowhere if not there, when its
quote is no White_Space. -/
theorem readQuoted_append_blank (hT : Blank T) {q : Char} (hq : Text.isWhiteSpace q = false)
    (cs : List Char) :
    readQuoted q (cs ++ T) = (readQuoted q cs).map fun x => (x.1, x.2.1 ++ T, x.2.2) := by
  fun_induction readQuoted q cs with
  | case1 => rw [List.nil_append, readQuoted_of_not_mem (hT.ne hq), Option.map_none]
  | case2 rest ih =>
    rw [List.cons_append, List.cons_append, readQuoted.eq_def]
    simp only [↓reduceIte, ih]
    cases readQuoted q rest <;> rfl
  | case3 c rest hc =>
    rw [List.cons_append, List.cons_append, readQuoted.eq_def]
    simp only [↓reduceIte, if_neg hc]
    rfl
  | case4 =>
    cases T with
    | nil =>
      rw [List.append_nil, readQuoted.eq_def]
      simp only [↓reduceIte]
      rfl
    | cons x T =>
      have hx : x ≠ q := fun h => hT.ne hq (h ▸ List.mem_cons_self)
      rw [List.singleton_append, readQuoted.eq_def]
      simp only [↓reduceIte, if_neg hx]
      rfl
  | case5 c rest hc ih =>
    rw [List.cons_append, readQuoted.eq_def]
    simp only [if_neg hc, ih]
    cases readQuoted q rest <;> rfl

/-- How the token at the front of `X ++ T` is read, next to the token at the front of `X`: the
same token with `T` after what is left, or an error for an error. -/
def ReadAfter (T : List Char) :
    Except LexError (Token × List Char × Nat) → Except LexError (Token × List Char × Nat) → Prop
  | .error _, .error _ => True
  | .ok (t, r, _), .ok (t', r', _) => t' = t ∧ r' = r ++ T
  | .error _, .ok _ => False
  | .ok _, .error _ => False

theorem readToken_append_blank (hT : Blank T) (c : Char) (rest : List Char) (p q : Nat) :
    ReadAfter T (readToken c rest p) (readToken c (rest ++ T) q) := by
  unfold readToken
  by_cases hq : c = '\'' ∨ c = '"' ∨ c = '`'
  · have hw : Text.isWhiteSpace c = false := by rcases hq with rfl | rfl | rfl <;> rfl
    rw [if_pos hq, if_pos hq, readQuoted_append_blank hT hw]
    rcases readQuoted c rest with _ | ⟨t, r, n⟩
    · trivial
    · exact ⟨rfl, rfl⟩
  rw [if_neg hq, if_neg hq]
  by_cases hd : c.isDigit = true
  · rw [if_pos hd, if_pos hd, readNumber_append_of_startsBlank hT.startsBlank]
    exact ⟨rfl, rfl⟩
  rw [if_neg hd, if_neg hd]
  by_cases hw : isWordStart c = true
  · obtain ⟨h₁, h₂⟩ :=
      takeWhile_append_of_head rest (hT.startsBlank.head_not fun _ => isWhiteSpace_of_isWordChar)
    rw [if_pos hw, if_pos hw]
    simp only [h₁, h₂]
    exact ⟨rfl, rfl⟩
  rw [if_neg hw, if_neg hw, readSymbol_append_of_startsBlank hT.startsBlank]
  rcases readSymbol c rest with _ | ⟨t, r, n⟩
  · trivial
  · exact ⟨rfl, rfl⟩

/-! ## Streams -/

/-- The scanner reads the same tokens from `X ++ T` as from `X`, wherever either starts, and
ends the same way. -/
theorem shape_scanFrom_append (hT : Blank T) (X : List Char) (p q : Nat) :
    (scanFrom (X ++ T) q).shape = (scanFrom X p).shape := by
  -- on the length of `X`, as the scanner's own recursion
  induction hn : X.length using Nat.strong_induction_on generalizing X p q with
  | _ n ih =>
    rw [scanFrom_eq_afterGap, scanFrom_eq_afterGap]
    have hgap := skipGap_append_blank hT X p q
    rcases hX : skipGap X p with e | ⟨_ | ⟨c, rest⟩, p₁⟩ <;>
      rcases hXT : skipGap (X ++ T) q with e' | ⟨r', q₁⟩ <;> rw [hX, hXT] at hgap
    case error.error => rfl
    case ok.nil.ok =>
      have hr' : r' = [] := hgap
      subst hr'
      rfl
    case ok.cons.ok =>
      have hr' : r' = c :: (rest ++ T) := hgap
      subst hr'
      have hread := readToken_append_blank hT c rest p₁ q₁
      rcases hr : readToken c rest p₁ with e | ⟨t, r, p₂⟩ <;>
        rcases hr' : readToken c (rest ++ T) q₁ with e' | ⟨t', r'', q₂⟩ <;>
        rw [hr, hr'] at hread
      case error.error =>
        simp only [afterGap, hr, hr']
        rfl
      case ok.ok =>
        obtain ⟨rfl, rfl⟩ := hread
        have hlt : r.length < n := by
          have h₁ := skipGap_length hX
          have h₂ := readToken_length hr
          simp only [List.length_cons] at h₁
          omega
        simp only [afterGap, hr, hr']
        rw [TokenStream.shape_cons, TokenStream.shape_cons, ih r.length hlt r p₂ q₂ rfl]
      all_goals cases hread
    all_goals cases hgap

/-- White space before a text is stepped over. -/
theorem scanFrom_append_blank_left {L : List Char} (hL : Blank L) (X : List Char) (pos : Nat) :
    scanFrom (L ++ X) pos = scanFrom X (pos + byteLength L) := by
  induction L generalizing pos with
  | nil => rfl
  | cons c L ih =>
    rw [List.cons_append, scanFrom_whiteSpace _ _ (hL c List.mem_cons_self),
      ih (fun x hx => hL x (List.mem_cons_of_mem c hx))]
    simp [Nat.add_assoc]

end Scan

/-- A text is its trimmed text with White_Space before and after it. -/
theorem toList_trimWhiteSpace (s : String) :
    ∃ L T, Scan.Blank L ∧ Scan.Blank T ∧ s.toList = L ++ (Text.trimWhiteSpace s).toList ++ T := by
  refine ⟨s.toList.takeWhile Text.isWhiteSpace,
    ((s.toList.dropWhile Text.isWhiteSpace).reverse.takeWhile Text.isWhiteSpace).reverse,
    fun _ hc => List.mem_takeWhile_imp hc,
    fun _ hc => List.mem_takeWhile_imp (List.mem_reverse.1 hc), ?_⟩
  rw [Text.trimWhiteSpace, String.toList_ofList, List.append_assoc, ← List.reverse_append,
    List.takeWhile_append_dropWhile, List.reverse_reverse, List.takeWhile_append_dropWhile]

theorem shape_ofString_trimWhiteSpace (s : String) :
    (TokenStream.ofString (Text.trimWhiteSpace s)).shape = (TokenStream.ofString s).shape := by
  obtain ⟨L, T, hL, hT, hs⟩ := toList_trimWhiteSpace s
  rw [TokenStream.ofString, TokenStream.ofString, hs, List.append_assoc,
    Scan.scanFrom_append_blank_left hL, Scan.shape_scanFrom_append hT]

/-- Parsing ignores White_Space at both ends of a text: the trimmed text holds the same statement,
and holds none exactly when the text holds none. -/
theorem parse_trimWhiteSpace (d : Dialect) (s : String) :
    (parse d (Text.trimWhiteSpace s)).toOption = (parse d s).toOption :=
  parse_toOption_eq (Cursor.alike_ofStream (shape_ofString_trimWhiteSpace s))

end SqlDdl
