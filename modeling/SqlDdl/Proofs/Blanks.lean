import SqlDdl.Proofs.Lexing
import Mathlib.Tactic.IntervalCases

/-!
# White space between tokens

White space only separates tokens: no word runs on into it (`isWordChar_of_isWhiteSpace`), and
the scanner steps over it and goes on as from the text after it (`scanFrom_whiteSpace`).

The scanner goes on from wherever its gap ends, so two texts whose gaps end alike scan alike
(`scanFrom_eq_of_skipGap`): `afterGap` is what it makes of the text after a gap.
-/

namespace SqlDdl.Scan

/-- No White_Space character goes on with a word: none is a letter, a digit, `_` or `$`. The
White_Space table is short, so each of its code points is checked against the others. -/
theorem isWordChar_of_isWhiteSpace {c : Char} (h : Text.isWhiteSpace c = true) :
    isWordChar c = false := by
  simp only [Text.isWhiteSpace, Text.CodeRange.anyContains_iff, Text.whiteSpaceRanges,
    List.mem_cons, List.mem_nil_iff, or_false] at h
  obtain ⟨r, hr, hlo, hhi⟩ := h
  have hc : Char.ofNat c.toNat = c := Char.ofNat_toNat c
  generalize c.toNat = n at hlo hhi hc
  subst hc
  rcases hr with rfl | rfl | rfl | rfl | rfl | rfl | rfl | rfl | rfl | rfl <;>
    · simp only at hlo hhi
      interval_cases n <;> decide +kernel

theorem isWhiteSpace_of_isWordChar {c : Char} (h : isWordChar c = true) :
    Text.isWhiteSpace c = false := by
  cases hw : Text.isWhiteSpace c
  · rfl
  · rw [isWordChar_of_isWhiteSpace hw] at h
    cases h

/-- What the scanner makes of the text after a gap: the error in the gap, the end, or a token and
the tokens after it. -/
def afterGap : Except LexError (List Char × Nat) → TokenStream
  | .error e => ⟨[], .failed e⟩
  | .ok ([], p) => ⟨[], .finished p⟩
  | .ok (c :: rest, p) =>
    match readToken c rest p with
    | .error e => ⟨[], .failed e⟩
    | .ok (t, r, p') => ⟨⟨t, p⟩ :: (scanFrom r p').tokens, (scanFrom r p').stop⟩

theorem scanFrom_eq_afterGap (cs : List Char) (pos : Nat) :
    scanFrom cs pos = afterGap (skipGap cs pos) := by
  rw [scanFrom]
  split
  · next h => rw [h]; rfl
  · next h => rw [h]; rfl
  · next c rest p h =>
      -- the scanner's own branches carry proofs about `h`, so only the right side is rewritten
      conv => rhs; rw [h]
      simp only [afterGap]
      split
      · next h' => conv => rhs; rw [h']
      · next h' => conv => rhs; rw [h']

theorem scanFrom_eq_of_skipGap {cs cs' : List Char} {pos pos' : Nat}
    (h : skipGap cs pos = skipGap cs' pos') : scanFrom cs pos = scanFrom cs' pos' := by
  rw [scanFrom_eq_afterGap, scanFrom_eq_afterGap, h]

theorem skipGap_whiteSpace {c : Char} (r : List Char) (pos : Nat) (hc : Text.isWhiteSpace c = true) :
    skipGap (c :: r) pos = skipGap r (pos + c.utf8Size) := by
  have hminus : c ≠ '-' := by rintro rfl; cases hc
  have hslash : c ≠ '/' := by rintro rfl; cases hc
  rw [skipGap.eq_3 _ _ _ (fun _ h _ => hminus h) (fun _ h _ => hslash h), if_pos hc]

theorem scanFrom_whiteSpace {c : Char} (r : List Char) (pos : Nat)
    (hc : Text.isWhiteSpace c = true) : scanFrom (c :: r) pos = scanFrom r (pos + c.utf8Size) :=
  scanFrom_eq_of_skipGap (skipGap_whiteSpace r pos hc)

end SqlDdl.Scan
