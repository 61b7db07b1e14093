import SqlDdl.Proofs.Lexemes

/-!
# The lexical grammar

A text lexes to the spanned tokens `(t₁, o₁) … (tₙ, oₙ)` when it splits as `g₀ w₁ g₁ … wₙ gₙ`,
where each gap `gᵢ` is white space and comments taken as far as they go, and each `wᵢ` is the
longest lexeme at its place, spells `tᵢ` and starts at byte `oᵢ`. `Lexes` says this with the
block comments a gap may hold as a parameter, so that the comments as the scanner reads them
(`ScannedBlock`) and as they are written (`WrittenBlock`) can be set side by side.

`ofString_iff_lexes` characterizes the scanner: the stream of a text holds `toks` and ends
without an error exactly when the text lexes to `toks`, with the scanner's block comments; the
stream then ends at the text's byte length. The two readings of a block comment part only where
the star of the opening `/*` is read again as the star of a close: as written, `/*/ x */` is one
comment, but the scanner closes it at the third character (`slash_star_slash_closes`).
-/

namespace SqlDdl.Scan

/-- `Lexes block pos text toks`: the text, which starts at byte `pos`, is gaps (with the block
comments `block`) and longest lexemes, and the lexemes spell `toks`, each at the byte it starts
at. -/
inductive Lexes (block : List Char → Prop) : Nat → List Char → List Spanned → Prop
  | done {pos : Nat} {g : List Char} : Skips block g [] → Lexes block pos g []
  | token {pos : Nat} {g w r : List Char} {t : Token} {toks : List Spanned} :
      Skips block g (w ++ r) → Longest w t r →
      Lexes block (pos + byteLength g + byteLength w) r toks →
      Lexes block pos (g ++ w ++ r) (⟨t, pos + byteLength g⟩ :: toks)

theorem not_gap_of_isQuote {q : Char} (hq : IsQuote q) :
    Text.isWhiteSpace q = false ∧ q ≠ '-' ∧ q ≠ '/' := by
  rcases hq with rfl | rfl | rfl <;> decide

/-- A gap starts with white space, `-` or `/`, never with a quote. -/
theorem Skips.not_isQuote {g r y : List Char} {q : Char} (h : Skips ScannedBlock g r)
    (hg : g = q :: y) (hq : IsQuote q) : False := by
  obtain ⟨hspace, hminus, hslash⟩ := not_gap_of_isQuote hq
  cases h with
  | stop => cases hg
  | space hc =>
      obtain ⟨rfl, -⟩ := List.cons.inj hg
      simp [hspace] at hc
  | line => exact hminus (List.cons.inj hg).1.symm
  | block hb =>
      obtain ⟨u, rfl, -⟩ := hb
      exact hslash (List.cons.inj hg).1.symm

/-- In a text that lexes, every quote that starts a lexeme is closed further on. -/
theorem Lexes.mem_of_isQuote {pos : Nat} {q : Char} {y : List Char} {toks : List Spanned}
    (h : Lexes ScannedBlock pos (q :: y) toks) (hq : IsQuote q) : q ∈ y := by
  generalize hcs : q :: y = cs at h
  cases h with
  | done hs => exact (hs.not_isQuote hcs.symm hq).elim
  | @token _ g w r _ _ hs hl =>
      cases g with
      | cons c g => exact (hs.not_isQuote rfl ((List.cons.inj hcs).1 ▸ hq)).elim
      | nil =>
          obtain ⟨c, w', rfl⟩ := List.exists_cons_of_ne_nil (lexeme_ne_nil hl.1)
          simp only [List.nil_append, List.cons_append, List.cons.injEq] at hcs
          obtain ⟨rfl, rfl⟩ := hcs
          obtain ⟨b, rfl, -⟩ := hl.1.of_isQuote hq
          simp

/-! ## The scanner, one step at a time -/

theorem scanFrom_of_end {cs : List Char} {pos p : Nat} (h : skipGap cs pos = .ok ([], p)) :
    scanFrom cs pos = ⟨[], .finished p⟩ := by
  rw [scanFrom]
  split <;> simp_all

theorem scanFrom_of_token {cs rest r : List Char} {c : Char} {t : Token} {pos p p' : Nat}
    (h : skipGap cs pos = .ok (c :: rest, p)) (h' : readToken c rest p = .ok (t, r, p')) :
    scanFrom cs pos = ⟨⟨t, p⟩ :: (scanFrom r p').tokens, (scanFrom r p').stop⟩ := by
  rw [scanFrom]
  split
  · simp_all
  · simp_all
  · next heq =>
      rw [h] at heq
      simp only [Except.ok.injEq, Prod.mk.injEq, List.cons.injEq] at heq
      obtain ⟨⟨rfl, rfl⟩, rfl⟩ := heq
      split <;> simp_all

/-! ## The characterization -/

/-- A stream that ends without an error is a lexing of the text. -/
theorem lexes_scanFrom (cs : List Char) (pos : Nat) {n : Nat}
    (h : (scanFrom cs pos).stop = .finished n) :
    Lexes ScannedBlock pos cs (scanFrom cs pos).tokens := by
  fun_induction scanFrom cs pos with
  | case1 => simp at h
  | case2 cs pos p hg =>
      obtain ⟨g, rfl, hs, rfl⟩ := skipGap_sound hg
      rw [List.append_nil]
      exact .done hs
  | case3 => simp at h
  | case4 cs pos c rest p hg t r p' ht _ _ more ih =>
      simp only [more] at h ⊢
      obtain ⟨g, rfl, hs, rfl⟩ := skipGap_sound hg
      obtain ⟨w, hw, hl, rfl⟩ := readToken_sound ht
      rw [hw] at hs ⊢
      rw [← List.append_assoc]
      exact .token hs hl (ih h)

/-- A lexing is what the scanner finds, and the stream ends after the last byte. -/
theorem scanFrom_of_lexes {pos : Nat} {cs : List Char} {toks : List Spanned}
    (h : Lexes ScannedBlock pos cs toks) :
    scanFrom cs pos = ⟨toks, .finished (pos + byteLength cs)⟩ := by
  induction h with
  | @done pos g hs =>
      have hg := skipGap_complete hs pos
      rw [List.append_nil] at hg
      exact scanFrom_of_end hg
  | @token pos g w r t toks hs hl hr ih =>
      obtain ⟨c, w', rfl⟩ := List.exists_cons_of_ne_nil (lexeme_ne_nil hl.1)
      have hg := skipGap_complete hs pos
      rw [List.cons_append] at hg
      -- the lexing of what follows rules out a quote the scanner would look for in vain
      have ht := readToken_complete (pos + byteLength g) hl rfl
        fun q y hq hry => (hry ▸ hr).mem_of_isQuote hq
      rw [List.append_assoc, List.cons_append, scanFrom_of_token hg ht, ih]
      simp only [byteLength_append, byteLength_cons, TokenStream.mk.injEq, StreamEnd.finished.injEq,
        true_and]
      omega

/-- The scanner agrees with the lexical grammar: a text's stream holds `toks` and ends without
an error exactly when the text is gaps and longest lexemes that spell `toks`, each at its byte
offset, where a block comment closes at the first `*/` after its `/`. -/
theorem ofString_iff_lexes (s : String) (toks : List Spanned) :
    ((TokenStream.ofString s).tokens = toks ∧ ∃ n, (TokenStream.ofString s).stop = .finished n) ↔
      Lexes ScannedBlock 0 s.toList toks := by
  constructor
  · rintro ⟨rfl, n, hn⟩
    exact lexes_scanFrom s.toList 0 hn
  · intro h
    have hs := scanFrom_of_lexes h
    exact ⟨by rw [TokenStream.ofString, hs], _, by rw [TokenStream.ofString, hs]⟩

/-- A stream that ends without an error ends at the text's byte length. -/
theorem ofString_finished {s : String} {n : Nat}
    (h : (TokenStream.ofString s).stop = .finished n) : n = s.utf8ByteSize := by
  have hs := scanFrom_of_lexes (lexes_scanFrom s.toList 0 h)
  rw [TokenStream.ofString, hs, Nat.zero_add, byteLength_toList] at h
  exact (StreamEnd.finished.inj h).symm

/-- As written, `/*/ x */` is one block comment and lexes to no tokens; the scanner takes `/*/`
for a whole comment, since the star of its opening also serves as the star of a close, and reads
`x`, `*` and `/` after it. -/
theorem slash_star_slash_closes :
    Lexes WrittenBlock 0 "/*/ x */".toList [] ∧
      TokenStream.ofString "/*/ x */" =
        ⟨[⟨.ident "x", 4⟩, ⟨.asterisk, 6⟩, ⟨.slash, 7⟩], .finished 8⟩ := by
  refine ⟨?_, by decide +kernel⟩
  have hb : WrittenBlock "/*/ x */".toList := ⟨['/', ' ', 'x', ' '], by decide +kernel, by decide⟩
  have hstop : Skips WrittenBlock [] [] := .stop (by simp [StartsGap])
  have hs := Skips.block hb hstop
  rw [List.append_nil] at hs
  exact .done hs

end SqlDdl.Scan
