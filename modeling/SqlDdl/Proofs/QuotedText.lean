import SqlDdl.Proofs.RenderTokens

/-!
# Quoted text reads back

Strings and quoted identifiers are written between quotes, with every quote of the same kind
inside written twice (`Literal.doubleQuote`). The scanner undoes exactly that: quoted text, its
quotes doubled, is read as one token at its opening quote, and the scanner goes on right after
the closing quote (`scanFrom_quoted`). A string literal's text is therefore one token, the string
itself (`tokenize_quote`).

What follows the closing quote may be anything but the same quote again. That quote would be
read as the second half of a doubled quote, part of the text: `'a'` followed by `'b'` is the one
string `a'b` (`quote_then_quote_is_one_string`). Doubled quotes are how a quote is written
inside, so no reader of this notation can stop at the first `'` of `''`.
-/

namespace SqlDdl.Scan

/-- Quoted text whose quotes are doubled is read whole, up to and with its closing quote, when
what follows does not begin with the quote. -/
theorem readQuoted_doubled (q : Char) (X : List Char) {r : List Char} (hr : r.head? ≠ some q) :
    readQuoted q (Literal.doubleQuote q X ++ q :: r) =
      some (X, r, byteLength (Literal.doubleQuote q X) + q.utf8Size) := by
  obtain ⟨n, hn⟩ := readQuoted_doubleQuote q hr X
  obtain ⟨-, -, rfl⟩ := readQuoted_some hn
  exact hn

/-- No quote opens a gap. -/
theorem not_startsGap_of_isQuote {q : Char} (hq : IsQuote q) (rest : List Char) :
    ¬ StartsGap (q :: rest) := by
  rcases hq with rfl | rfl | rfl <;> exact not_startsGap rest (by decide) (by decide) (by decide)

/-- At a quote the token is the quoted text up to its close, and the text after the close is
what is left. -/
theorem readToken_quoted {q : Char} (hq : IsQuote q) (X : List Char) {r : List Char}
    (hr : r.head? ≠ some q) (pos : Nat) :
    readToken q (Literal.doubleQuote q X ++ q :: r) pos =
      .ok (quotedToken q X, r, pos + byteLength (q :: (Literal.doubleQuote q X ++ [q]))) := by
  have hq' : q = '\'' ∨ q = '"' ∨ q = '`' := hq
  rw [readToken, if_pos hq', readQuoted_doubled q X hr]
  simp only [quotedToken, byteLength_cons, byteLength_append, byteLength_nil, Except.ok.injEq,
    Prod.mk.injEq, true_and]
  omega

/-- Quoted text, its quotes doubled, is read as one token at its opening quote: a string in
single quotes, a quoted identifier in the others. The scanner then goes on right after the
closing quote, as on the text that follows alone. -/
theorem scanFrom_quoted {q : Char} (hq : IsQuote q) (X : List Char) {r : List Char}
    (hr : r.head? ≠ some q) (pos : Nat) :
    scanFrom (q :: (Literal.doubleQuote q X ++ q :: r)) pos =
      ⟨⟨quotedToken q X, pos⟩ ::
          (scanFrom r (pos + byteLength (q :: (Literal.doubleQuote q X ++ [q])))).tokens,
        (scanFrom r (pos + byteLength (q :: (Literal.doubleQuote q X ++ [q])))).stop⟩ :=
  scanFrom_of_token (skipGap_of_not_startsGap (not_startsGap_of_isQuote hq _) pos)
    (readToken_quoted hq X hr pos)

end SqlDdl.Scan

namespace SqlDdl

open Scan

/-- The token of quoted text names the text as it was before its quotes were doubled. -/
@[simp] theorem quotedToken_toList (q : Char) (s : String) :
    quotedToken q s.toList = if q = '\'' then .string s else .quotedIdent s := by
  simp [quotedToken]

/-- Quoted text at the front of a text, its quotes doubled, is read as one token at offset 0,
and the scanner goes on right after the closing quote with what follows, unless that begins with
the same quote. -/
theorem ofString_quoted {q : Char} (hq : IsQuote q) (c t : String)
    (ht : t.toList.head? ≠ some q) :
    TokenStream.ofString (String.ofList (q :: Literal.doubleQuote q c.toList ++ [q]) ++ t) =
      ⟨⟨if q = '\'' then .string c else .quotedIdent c, 0⟩ ::
          (scanFrom t.toList
            (String.ofList (q :: Literal.doubleQuote q c.toList ++ [q])).utf8ByteSize).tokens,
        (scanFrom t.toList
          (String.ofList (q :: Literal.doubleQuote q c.toList ++ [q])).utf8ByteSize).stop⟩ := by
  have htext : (String.ofList (q :: Literal.doubleQuote q c.toList ++ [q]) ++ t).toList =
      q :: (Literal.doubleQuote q c.toList ++ q :: t.toList) := by
    simp
  rw [TokenStream.ofString, htext, scanFrom_quoted hq c.toList ht 0, byteLength_ofList,
    Nat.zero_add, quotedToken_toList, List.cons_append]

/-- The text of a string literal is one token, that string, at offset 0. -/
theorem tokenize_quote (s : String) : tokenize (Literal.string s).render = .ok [⟨.string s, 0⟩] := by
  have hend : scanFrom [] (Literal.quote s).utf8ByteSize =
      ⟨[], .finished (Literal.quote s).utf8ByteSize⟩ :=
    scanFrom_of_end (by rw [skipGap.eq_4])
  have hstream := ofString_quoted (q := '\'') (.inl rfl) s "" (by simp)
  rw [String.append_empty] at hstream
  simp only [String.toList_empty, if_true] at hstream
  simp only [Literal.render, tokenize]
  rw [Literal.quote, hstream, ← Literal.quote, hend]

/-- Quoted text reads back: text between quotes `q`, each `q` inside doubled, followed by any
text that does not begin with `q`, is read as the one token of the text, a string for single
quotes and a quoted identifier for the others, at the opening quote, and the scanner goes on
right after the closing quote. In particular the text of every string literal is one token,
that string. -/
theorem quoted_text_reads_back :
    (∀ (q : Char), IsQuote q → ∀ c t : String, t.toList.head? ≠ some q →
      TokenStream.ofString (String.ofList (q :: Literal.doubleQuote q c.toList ++ [q]) ++ t) =
        ⟨⟨if q = '\'' then .string c else .quotedIdent c, 0⟩ ::
            (scanFrom t.toList
              (String.ofList (q :: Literal.doubleQuote q c.toList ++ [q])).utf8ByteSize).tokens,
          (scanFrom t.toList
            (String.ofList (q :: Literal.doubleQuote q c.toList ++ [q])).utf8ByteSize).stop⟩) ∧
    ∀ s : String, tokenize (Literal.string s).render = .ok [⟨.string s, 0⟩] :=
  ⟨fun _ hq c t ht => ofString_quoted hq c t ht, tokenize_quote⟩

/-- A name in backquotes with a backquote inside, followed by more text, is read as that name. -/
theorem backquoted_name_reads_back :
    IsQuote '`' ∧ (" x" : String).toList.head? ≠ some '`' ∧
      (TokenStream.ofString
        (String.ofList ('`' :: Literal.doubleQuote '`' "my`col".toList ++ ['`']) ++ " x")).tokens.head? =
        some ⟨.quotedIdent "my`col", 0⟩ := by
  have h := quoted_text_reads_back.1 '`' (.inr (.inr rfl)) "my`col" " x" (by decide)
  refine ⟨.inr (.inr rfl), by decide, ?_⟩
  rw [h]
  rfl

/-- A quote right after the closing quote is read as a doubled quote: the string literal `'a'`
followed by `'b'` is the one string `a'b`, not `a` and then `b`. -/
theorem quote_then_quote_is_one_string :
    TokenStream.ofString (Literal.quote "a" ++ "'b'") = ⟨[⟨.string "a'b", 0⟩], .finished 6⟩ := by
  decide +kernel

end SqlDdl
