import SqlDdl.Proofs.Blanks

/-!
# The tokens of a rendered expression

An expression renders fully parenthesized (`Expr.render`): operators and their operands in
parentheses, names bare, strings in single quotes with each quote inside written twice. This
module says which tokens that text is made of (`Expr.tokens`) and proves that the scanner reads
them back (`scans_render`, `ofString_render`) when nothing in the expression is written so that
it reads otherwise (`Expr.renderable`).

Two things are written so: a name that is no bare word, or that is a keyword, is written bare all
the same; and a negation right before a negation is written `--`, which opens a comment. A float
is left out as well, since an infinite one is written as the word `inf`.

The text is read one token at a time (`Scans`). Each token ends where its text does, since inside
a rendering a token is followed by a blank or by punctuation, and a whole rendering is followed by
the end, a blank, `)` or `,` (`Stops`).
-/

namespace SqlDdl

/-- The token a binary operator is written as. -/
def BinaryOp.token : BinaryOp → Token
  | .and => .keyword .and
  | .or => .keyword .or
  | .equal => .equal
  | .notEqual => .notEqual
  | .greaterThan => .greaterThan
  | .greaterThanOrEqual => .greaterThanOrEqual
  | .lessThan => .lessThan
  | .lessThanOrEqual => .lessThanOrEqual
  | .add => .plus
  | .subtract => .minus
  | .multiply => .asterisk
  | .divide => .slash
  | .remainder => .percent

/-- The token a literal is written as. A float is written with the shortest digits of its value,
and reads back as a number only when it is finite. -/
def Literal.token : Literal → Token
  | .null => .keyword .null
  | .boolean true => .keyword .true
  | .boolean false => .keyword .false
  | .integer n => .number (Nat.repr n)
  | .float x => .number x.toText
  | .string s => .string s

namespace Expr

/-- Whether a name is a bare word that is no keyword, so that its text reads back as it. -/
def bareName (s : String) : Bool :=
  match s.toList with
  | c :: cs => Scan.isWordStart c && cs.all Scan.isWordChar && Token.ofWord s == .ident s
  | [] => false

mutual

/-- Whether the text of `e` reads back as `e`: it holds no float, its integers are below 2^63,
its names are bare words, and no negation stands right before a negation. -/
def renderable : Expr → Bool
  | .all => true
  | .column none c => bareName c
  | .column (some t) c => bareName t && bareName c
  | .literal (.float _) => false
  | .literal (.integer n) => decide (n < Nat.pow 2 63)
  | .literal _ => true
  | .function f args => bareName f && renderableArgs args
  | .unary .negate (.unary .negate _) => false
  | .unary _ e => renderable e
  | .binary _ l r => renderable l && renderable r
  | .isNull e => renderable e

/-- Whether every expression of a list is `renderable`. -/
def renderableArgs : List Expr → Bool
  | [] => true
  | e :: es => renderable e && renderableArgs es

end

mutual

/-- The tokens of the text of `e`. -/
def tokens : Expr → List Token
  | .all => [.asterisk]
  | .column none c => [.ident c]
  | .column (some t) c => [.ident t, .period, .ident c]
  | .literal l => [l.token]
  | .function f args => .ident f :: .openParen :: argTokens false args
  | .unary .not e => .openParen :: .keyword .not :: (tokens e ++ [.closeParen])
  | .unary .negate e => .minus :: tokens e
  | .unary .identity e => .plus :: tokens e
  | .binary op l r => .openParen :: (tokens l ++ op.token :: (tokens r ++ [.closeParen]))
  | .isNull e => .openParen :: (tokens e ++ [.keyword .is, .keyword .null, .closeParen])

/-- The tokens of the arguments of a call after its `(`, with a comma before each but the first
(`later = false` before the first), up to and with the `)`. -/
def argTokens (later : Bool) : List Expr → List Token
  | [] => [.closeParen]
  | e :: es => (if later then [.comma] else []) ++ (tokens e ++ argTokens true es)

end

/-- The text of the arguments of a call after its `(`, as `argTokens` lists their tokens. -/
def argsText (later : Bool) : List Expr → List Char
  | [] => [')']
  | e :: es => (if later then [',', ' '] else []) ++ (e.render.toList ++ argsText true es)

/-! ## The text, piece by piece -/

theorem argsText_intercalate (e : Expr) (es : List Expr) :
    (", ".intercalate ((e :: es).map render)).toList ++ [')'] =
      e.render.toList ++ argsText true es := by
  induction es generalizing e with
  | nil => simp [argsText]
  | cons e' es ih =>
      rw [List.map_cons, List.map_cons, String.intercalate_cons_cons, String.toList_append,
        String.toList_append, ← List.map_cons, List.append_assoc, List.append_assoc, ih]
      simp [argsText]

theorem render_function (f : String) (args : List Expr) :
    (function f args).render.toList = f.toList ++ '(' :: argsText false args := by
  cases args with
  | nil => simp [render, argsText]
  | cons e es =>
      have hclose : ")".toList = [')'] := by simp
      simp only [render, String.toList_append]
      rw [List.append_assoc, List.append_assoc, hclose, argsText_intercalate]
      simp [argsText]

theorem render_column (t : Option String) (c : String) :
    (column t c).render.toList =
      (match t with | none => [] | some t => t.toList ++ ['.']) ++ c.toList := by
  cases t <;> simp [render]

theorem render_not (e : Expr) :
    (unary .not e).render.toList =
      '(' :: 'N' :: 'O' :: 'T' :: ' ' :: (e.render.toList ++ [')']) := by
  simp [render]

theorem render_negate (e : Expr) : (unary .negate e).render.toList = '-' :: e.render.toList := by
  simp [render]

theorem render_identity (e : Expr) :
    (unary .identity e).render.toList = '+' :: e.render.toList := by
  simp [render]

theorem render_binary (op : BinaryOp) (l r : Expr) :
    (binary op l r).render.toList =
      '(' :: (l.render.toList ++
        ' ' :: (op.symbol.toList ++ ' ' :: (r.render.toList ++ [')']))) := by
  simp [render]

theorem render_isNull (e : Expr) :
    (isNull e).render.toList =
      '(' :: (e.render.toList ++ [' ', 'I', 'S', ' ', 'N', 'U', 'L', 'L', ')']) := by
  simp [render]

/-- A negation is renderable when its operand is and is no negation itself. -/
theorem renderable_negate {e : Expr} :
    (unary .negate e).renderable = true ↔ e.renderable = true ∧ ∀ e', e ≠ unary .negate e' := by
  rcases e with _ | _ | _ | _ | ⟨_ | _ | _, _⟩ | _ | _ <;> simp [renderable]

end Expr

namespace Scan

/-! ## Reading token after token -/

/-- From every position, the scanner reads the tokens `toks` off the front of `x ++ r` and goes on
with `r`. -/
def Scans (x : List Char) (toks : List Token) (r : List Char) : Prop :=
  ∀ pos, ∃ ws p, ws.map Spanned.token = toks ∧
    scanFrom (x ++ r) pos = ⟨ws ++ (scanFrom r p).tokens, (scanFrom r p).stop⟩

/-- What may follow a rendering: the end, a blank, `)` or `,`. -/
def Stops (r : List Char) : Prop := ∀ x ∈ r.head?, x = ' ' ∨ x = ')' ∨ x = ','

theorem Scans.append {x y r : List Char} {t₁ t₂ : List Token} (h₁ : Scans x t₁ (y ++ r))
    (h₂ : Scans y t₂ r) : Scans (x ++ y) (t₁ ++ t₂) r := by
  intro pos
  obtain ⟨ws₁, p₁, hw₁, hs₁⟩ := h₁ pos
  obtain ⟨ws₂, p₂, hw₂, hs₂⟩ := h₂ p₁
  refine ⟨ws₁ ++ ws₂, p₂, by rw [List.map_append, hw₁, hw₂], ?_⟩
  rw [List.append_assoc, hs₁, hs₂]
  simp

theorem Scans.cons {c : Char} {y r : List Char} {t : Token} {ts : List Token}
    (h₁ : Scans [c] [t] (y ++ r)) (h₂ : Scans y ts r) : Scans (c :: y) (t :: ts) r :=
  h₁.append h₂

theorem Scans.blank {y r : List Char} {ts : List Token} (h : Scans y ts r) :
    Scans (' ' :: y) ts r := by
  intro pos
  obtain ⟨ws, p, hw, hs⟩ := h (pos + 1)
  exact ⟨ws, p, hw, (scanFrom_whiteSpace _ pos (by decide)).trans hs⟩

theorem not_startsGap {c : Char} (rest : List Char) (hw : Text.isWhiteSpace c = false)
    (hm : c ≠ '-') (hs : c ≠ '/') : ¬ StartsGap (c :: rest) := by
  rintro (h | ⟨h, -⟩ | ⟨h, -⟩)
  · rw [hw] at h
    cases h
  · exact hm h
  · exact hs h

/-- One token: where no gap opens, the token that `readToken` reads, up to `r`. -/
theorem scans_token {c : Char} {x r : List Char} {t : Token} (hgap : ¬ StartsGap (c :: (x ++ r)))
    (h : ∀ pos, ∃ p, readToken c (x ++ r) pos = .ok (t, r, p)) : Scans (c :: x) [t] r := by
  intro pos
  obtain ⟨p, hp⟩ := h pos
  exact ⟨[⟨t, pos⟩], p, rfl, scanFrom_of_token (skipGap_of_not_startsGap hgap pos) hp⟩

theorem scans_symbol {c : Char} {x r : List Char} {t : Token} {n : Nat}
    (hc : isWordStart c = false ∧ c.isDigit = false ∧ ¬ IsQuote c)
    (hgap : ¬ StartsGap (c :: (x ++ r))) (hs : readSymbol c (x ++ r) = some (t, r, n)) :
    Scans (c :: x) [t] r := by
  obtain ⟨hw, hd, hq⟩ := hc
  refine scans_token hgap fun pos => ⟨pos + n, ?_⟩
  rw [readToken, if_neg (show ¬(c = '\'' ∨ c = '"' ∨ c = '`') from hq), if_neg (by simp [hd]),
    if_neg (by simp [hw]), hs]

/-- A run of one class of characters, followed by text that does not go on with it. -/
theorem takeWhile_append_stop {p : Char → Bool} {r : List Char} :
    ∀ {a : List Char}, (∀ x ∈ a, p x = true) → (∀ x ∈ r.head?, p x = false) →
      (a ++ r).takeWhile p = a ∧ (a ++ r).dropWhile p = r
  | [], _, hr => by
      cases r with
      | nil => exact ⟨rfl, rfl⟩
      | cons x b =>
          have hx : ¬ p x = true := by simp [hr x rfl]
          exact ⟨List.takeWhile_cons_of_neg hx, List.dropWhile_cons_of_neg hx⟩
  | y :: a, ha, hr => by
      obtain ⟨h₁, h₂⟩ := takeWhile_append_stop (fun x hx => ha x (List.mem_cons_of_mem y hx)) hr
      rw [List.cons_append, List.takeWhile_cons_of_pos (ha y List.mem_cons_self),
        List.dropWhile_cons_of_pos (ha y List.mem_cons_self), h₁, h₂]
      exact ⟨rfl, rfl⟩

theorem isWordChar_of_isWordStart {c : Char} (h : isWordStart c = true) : isWordChar c = true := by
  simp only [isWordStart, Bool.or_eq_true, beq_iff_eq] at h
  simp only [isWordChar, Bool.or_eq_true, beq_iff_eq]
  tauto

theorem isWordChar_of_isDigit {c : Char} (h : c.isDigit = true) : isWordChar c = true := by
  have hlt : c.toNat < 0x80 := by have := toNat_of_isDigit h; omega
  simp [isWordChar, Text.isNumeric, hlt, h]

theorem not_startsGap_of_isWordChar {c : Char} (rest : List Char) (h : isWordChar c = true) :
    ¬ StartsGap (c :: rest) :=
  not_startsGap rest (isWhiteSpace_of_isWordChar h) (by rintro rfl; cases h)
    (by rintro rfl; cases h)

/-- A word is read up to the first character that does not go on with it. -/
theorem readToken_word {c : Char} {w r : List Char} (hc : isWordStart c = true)
    (hw : ∀ x ∈ w, isWordChar x = true) (hr : ∀ x ∈ r.head?, isWordChar x = false) (pos : Nat) :
    readToken c (w ++ r) pos =
      .ok (Token.ofWord (String.ofList (c :: w)), r, pos + byteLength (c :: w)) := by
  have hq : ¬ (c = '\'' ∨ c = '"' ∨ c = '`') := fun hq => by
    rw [isWordStart_of_isQuote hq] at hc
    cases hc
  have hd : ¬ c.isDigit = true := fun hd => by
    rw [isWordStart_of_isDigit hd] at hc
    cases hc
  obtain ⟨htake, hdrop⟩ := takeWhile_append_stop hw hr
  rw [readToken, if_neg hq, if_neg hd, if_pos hc, htake, hdrop]

/-- A word at `pos`, before text that does not go on with it, is one token there. -/
theorem scanFrom_word {c : Char} {w r : List Char} (hc : isWordStart c = true)
    (hw : ∀ x ∈ w, isWordChar x = true) (hr : ∀ x ∈ r.head?, isWordChar x = false) (pos : Nat) :
    scanFrom (c :: w ++ r) pos =
      ⟨⟨Token.ofWord (String.ofList (c :: w)), pos⟩ ::
        (scanFrom r (pos + byteLength (c :: w))).tokens,
        (scanFrom r (pos + byteLength (c :: w))).stop⟩ :=
  scanFrom_of_token (skipGap_of_not_startsGap
    (not_startsGap_of_isWordChar _ (isWordChar_of_isWordStart hc)) pos) (readToken_word hc hw hr pos)

theorem scans_word {c : Char} {w r : List Char} {t : Token} (hc : isWordStart c = true)
    (hw : ∀ x ∈ w, isWordChar x = true) (hr : ∀ x ∈ r.head?, isWordChar x = false)
    (ht : Token.ofWord (String.ofList (c :: w)) = t) : Scans (c :: w) [t] r :=
  fun pos => ⟨[⟨t, pos⟩], _, rfl, ht ▸ scanFrom_word hc hw hr pos⟩

/-- A word of fixed letters, checked in one decision: it starts a word, goes on as one, and is read
as `t`. -/
theorem scans_fixedWord {c : Char} {w r : List Char} {t : Token}
    (h : (isWordStart c && w.all isWordChar && Token.ofWord (String.ofList (c :: w)) == t) = true)
    (hr : ∀ x ∈ r.head?, isWordChar x = false) : Scans (c :: w) [t] r := by
  simp only [Bool.and_eq_true, beq_iff_eq, List.all_eq_true] at h
  exact scans_word h.1.1 h.1.2 hr h.2

/-- Digits, up to text that goes on with no digit, point or exponent. -/
theorem scans_digits {d : Char} {ds r : List Char} (hd : d.isDigit = true)
    (hds : ∀ x ∈ ds, x.isDigit = true) (hr : Stops r) :
    Scans (d :: ds) [.number (String.ofList (d :: ds))] r := by
  refine scans_token (not_startsGap_of_isWordChar _ (isWordChar_of_isDigit hd))
    fun pos => ⟨pos + 1 + ds.length, ?_⟩
  have hstop : ∀ x ∈ r.head?, x.isDigit = false := by
    intro x hx
    rcases hr x hx with rfl | rfl | rfl <;> rfl
  obtain ⟨htake, hdrop⟩ := takeWhile_append_stop hds hstop
  have hfrac : fractionPart r = ([], r) :=
    fractionPart_of_head fun x hx => by rcases hr x hx with rfl | rfl | rfl <;> decide
  have hexp : exponentPart r = ([], r) := by
    match r, hr with
    | [], _ => rfl
    | x :: b, hr => rcases hr x rfl with rfl | rfl | rfl <;> rfl
  have hnum : readNumber (ds ++ r) = (ds, r) := by
    rw [readNumber_eq, digitRun, htake, hdrop, hfrac, hexp]
    simp
  rw [readToken, if_neg (show ¬(d = '\'' ∨ d = '"' ∨ d = '`') from not_isQuote_of_isDigit hd),
    if_pos hd, hnum]

/-- Quoted text with its quotes doubled is read up to its close. -/
theorem readQuoted_doubleQuote (q : Char) {r : List Char} (hr : r.head? ≠ some q) :
    ∀ X : List Char, ∃ n, readQuoted q (Literal.doubleQuote q X ++ q :: r) = some (X, r, n)
  | [] => by
      cases r with
      | nil => exact ⟨q.utf8Size, by simp [readQuoted]⟩
      | cons y b =>
          have hy : y ≠ q := fun h => hr (by rw [h]; rfl)
          exact ⟨q.utf8Size, by simp [readQuoted, hy]⟩
  | x :: X => by
      obtain ⟨n, hn⟩ := readQuoted_doubleQuote q hr X
      by_cases hx : x = q
      · subst hx
        exact ⟨n + 2 * x.utf8Size, by simp [doubleQuote_cons, readQuoted, hn]⟩
      · refine ⟨n + x.utf8Size, ?_⟩
        rw [doubleQuote_cons, if_neg hx, List.cons_append, readQuoted.eq_def]
        simp only [if_neg hx, hn]
        rfl

/-- A string literal, up to text that does not go on with a quote. -/
theorem scans_string (s : String) {r : List Char} (hr : Stops r) :
    Scans (Literal.quote s).toList [.string s] r := by
  have hq : r.head? ≠ some '\'' := fun h => by rcases hr _ h with h | h | h <;> cases h
  rw [Literal.quote, String.toList_ofList, List.cons_append]
  refine scans_token (not_startsGap _ (by decide) (by decide) (by decide)) fun pos => ?_
  obtain ⟨n, hn⟩ := readQuoted_doubleQuote '\'' hq s.toList
  refine ⟨pos + '\''.utf8Size + n, ?_⟩
  rw [readToken, if_pos (Or.inl rfl), List.append_assoc, List.singleton_append, hn]
  simp

theorem Stops.not_wordChar {r : List Char} (hr : Stops r) :
    ∀ x ∈ r.head?, isWordChar x = false := by
  intro x hx
  rcases hr x hx with rfl | rfl | rfl <;> rfl

theorem stops_blank (r : List Char) : Stops (' ' :: r) := fun _ h => .inl (Option.some.inj h).symm

theorem stops_closeParen (r : List Char) : Stops (')' :: r) :=
  fun _ h => .inr (.inl (Option.some.inj h).symm)

theorem stops_comma (r : List Char) : Stops (',' :: r) :=
  fun _ h => .inr (.inr (Option.some.inj h).symm)

theorem stops_nil : Stops [] := fun _ h => by cases h

/-! ## The pieces of a rendering -/

theorem scans_openParen (r : List Char) : Scans ['('] [.openParen] r :=
  scans_symbol (x := []) (by decide) (not_startsGap _ (by decide) (by decide) (by decide)) rfl

theorem scans_closeParen (r : List Char) : Scans [')'] [.closeParen] r :=
  scans_symbol (x := []) (by decide) (not_startsGap _ (by decide) (by decide) (by decide)) rfl

theorem scans_name {s : String} (hs : Expr.bareName s = true) {r : List Char}
    (hr : ∀ x ∈ r.head?, isWordChar x = false) : Scans s.toList [.ident s] r := by
  unfold Expr.bareName at hs
  split at hs
  · next c cs hsc =>
      simp only [Bool.and_eq_true, List.all_eq_true, beq_iff_eq] at hs
      obtain ⟨⟨hc, hcs⟩, hid⟩ := hs
      rw [hsc]
      refine scans_word hc hcs hr ?_
      rw [← hsc, String.ofList_toList, hid]
  · cases hs

theorem scans_literal {l : Literal} (hl : (Expr.literal l).renderable = true) {r : List Char}
    (hr : Stops r) : Scans l.render.toList [l.token] r := by
  match l, hl with
  | .null, _ => exact scans_fixedWord (by decide) hr.not_wordChar
  | .boolean true, _ => exact scans_fixedWord (by decide) hr.not_wordChar
  | .boolean false, _ => exact scans_fixedWord (by decide) hr.not_wordChar
  | .integer n, _ =>
      have hdigits : ∀ x ∈ Nat.toDigits 10 n, x.isDigit = true :=
        fun _ hx => Nat.isDigit_of_mem_toDigits (by decide) (by decide) hx
      obtain ⟨d, ds, hd⟩ :=
        List.exists_cons_of_length_pos (Nat.length_toDigits_pos (b := 10) (n := n))
      have hrepr : (Literal.integer n).render.toList = d :: ds := by
        simp [Literal.render, Nat.repr, hd]
      rw [hrepr]
      have hd' : d.isDigit = true := hdigits d (by rw [hd]; exact List.mem_cons_self)
      have hds : ∀ x ∈ ds, x.isDigit = true :=
        fun x hx => hdigits x (by rw [hd]; exact List.mem_cons_of_mem d hx)
      have htok : (Literal.integer n).token = .number (String.ofList (d :: ds)) := by
        simp [Literal.token, Nat.repr, hd]
      rw [htok]
      exact scans_digits hd' hds hr
  | .string s, _ => exact scans_string s hr

/-- Punctuation of one character that opens no gap and does not go on into what follows. -/
theorem scans_punct {c : Char} {t : Token} {r : List Char}
    (hc : isWordStart c = false ∧ c.isDigit = false ∧ ¬ IsQuote c)
    (hw : Text.isWhiteSpace c = false ∧ c ≠ '-' ∧ c ≠ '/') (hs : readSymbol c r = some (t, r, 1)) :
    Scans [c] [t] r :=
  scans_symbol (x := []) hc (not_startsGap _ hw.1 hw.2.1 hw.2.2) hs

theorem scans_minus {r : List Char} (hr : r.head? ≠ some '-') : Scans ['-'] [.minus] r := by
  refine scans_symbol (x := []) (by decide) ?_ rfl
  rintro (h | ⟨-, h⟩ | ⟨h, -⟩)
  · cases h
  · exact hr h
  · cases h

theorem notWordChar_cons {c : Char} (h : isWordChar c = false) (r : List Char) :
    ∀ x ∈ (c :: r).head?, isWordChar x = false := by
  intro x hx
  cases hx
  exact h

theorem scans_binaryOp (op : BinaryOp) (r : List Char) :
    Scans op.symbol.toList [op.token] (' ' :: r) := by
  have hw := notWordChar_cons (c := ' ') (by decide) r
  cases op <;> simp only [BinaryOp.symbol, BinaryOp.token]
  case and => exact scans_fixedWord (by decide) hw
  case or => exact scans_fixedWord (by decide) hw
  case notEqual =>
    exact scans_symbol (x := ['=']) (by decide)
      (not_startsGap _ (by decide) (by decide) (by decide)) rfl
  case greaterThanOrEqual =>
    exact scans_symbol (x := ['=']) (by decide)
      (not_startsGap _ (by decide) (by decide) (by decide)) rfl
  case lessThanOrEqual =>
    exact scans_symbol (x := ['=']) (by decide)
      (not_startsGap _ (by decide) (by decide) (by decide)) rfl
  case subtract => exact scans_minus (by simp)
  case divide =>
    refine scans_symbol (x := []) (by decide) ?_ rfl
    rintro (h | ⟨h, -⟩ | ⟨-, h⟩) <;> cases h
  all_goals exact scans_punct (by decide) (by decide) rfl

end Scan

namespace Expr

open Scan

theorem bareName_cons {s : String} (h : bareName s = true) :
    ∃ c cs, s.toList = c :: cs ∧ isWordStart c = true := by
  unfold bareName at h
  split at h
  · next c cs hsc =>
      simp only [Bool.and_eq_true] at h
      exact ⟨c, cs, hsc, h.1.1⟩
  · cases h

/-- The text of a renderable expression that is no negation does not start with `-`: a name
starts with a word character, a number with a digit, and every other text with a fixed
character. -/
theorem render_head {e : Expr} (he : e.renderable = true) (hne : ∀ e', e ≠ unary .negate e') :
    ∀ c ∈ e.render.toList.head?, c ≠ '-' := by
  have hname : ∀ {s : String} (x : List Char), bareName s = true →
      ∀ c ∈ (s.toList ++ x).head?, c ≠ '-' := by
    intro s x hs c hc
    obtain ⟨c', cs, hsc, hw⟩ := bareName_cons hs
    rw [hsc, List.cons_append, List.head?_cons, Option.mem_def, Option.some.injEq] at hc
    subst hc
    rintro rfl
    cases hw
  cases e with
  | all => simp [render]
  | column t c =>
      cases t with
      | none => simpa [render] using hname [] he
      | some t =>
          simp only [renderable, Bool.and_eq_true] at he
          simpa [render] using hname ('.' :: c.toList) he.1
  | literal l =>
      cases l with
      | null => simp [render, Literal.render]
      | boolean b => cases b <;> simp [render, Literal.render]
      | integer n =>
          intro c hc
          have hmem : c ∈ Nat.toDigits 10 n := by
            simp only [render, Literal.render, Nat.repr, String.toList_ofList] at hc
            exact List.mem_of_mem_head? hc
          have hd := Nat.isDigit_of_mem_toDigits (b := 10) (by decide) (by decide) hmem
          rintro rfl
          cases hd
      | float x => simp [renderable] at he
      | string s => simp [render, Literal.render, Literal.quote]
  | function f args =>
      simp only [renderable, Bool.and_eq_true] at he
      rw [render_function]
      exact hname _ he.1
  | unary op e' =>
      cases op with
      | not => simp [render_not]
      | negate => exact absurd rfl (hne e')
      | identity => simp [render_identity]
  | binary op l r => simp [render_binary]
  | isNull e' => simp [render_isNull]

mutual

/-- The text of a renderable expression scans into its tokens, before any text that may follow
a rendering. -/
theorem scans_render : ∀ e : Expr, e.renderable = true → ∀ r, Stops r →
    Scans e.render.toList e.tokens r
  | .all, _, r, _ => by
      rw [show (all : Expr).render.toList = ['*'] by simp [render], tokens]
      exact scans_punct (by decide) (by decide) rfl
  | .column none c, he, r, hr => by
      rw [show (column none c).render.toList = c.toList by simp [render], tokens]
      exact scans_name he hr.not_wordChar
  | .column (some t) c, he, r, hr => by
      simp only [renderable, Bool.and_eq_true] at he
      rw [show (column (some t) c).render.toList = t.toList ++ '.' :: c.toList by simp [render],
        tokens]
      have hcol : Scans ('.' :: c.toList) [.period, .ident c] r :=
        Scans.cons (scans_punct (c := '.') (by decide) (by decide) rfl)
          (scans_name he.2 hr.not_wordChar)
      exact (scans_name he.1 (notWordChar_cons (c := '.') (by decide) _)).append hcol
  | .literal l, he, r, hr => by
      rw [show (literal l).render.toList = l.render.toList by simp [render], tokens]
      exact scans_literal he hr
  | .function f args, he, r, hr => by
      simp only [renderable, Bool.and_eq_true] at he
      rw [render_function, tokens]
      have hargs : Scans ('(' :: argsText false args) (.openParen :: argTokens false args) r :=
        Scans.cons (scans_openParen _) (scans_args false args he.2 r hr)
      exact (scans_name he.1 (notWordChar_cons (c := '(') (by decide) _)).append hargs
  | .unary .not e, he, r, hr => by
      rw [render_not, tokens]
      have hoperand : Scans (' ' :: (e.render.toList ++ [')'])) (e.tokens ++ [.closeParen]) r :=
        Scans.blank ((scans_render e he _ (stops_closeParen r)).append (scans_closeParen r))
      have hnot : Scans ['N', 'O', 'T'] [.keyword .not]
          (' ' :: (e.render.toList ++ [')']) ++ r) :=
        scans_fixedWord (by decide) (notWordChar_cons (c := ' ') (by decide) _)
      exact Scans.cons (scans_openParen _) (hnot.append hoperand)
  | .unary .negate e, he, r, hr => by
      obtain ⟨he', hne⟩ := renderable_negate.1 he
      rw [render_negate, tokens]
      have hhead : (e.render.toList ++ r).head? ≠ some '-' := by
        intro h
        cases hc : e.render.toList with
        | nil =>
            rw [hc, List.nil_append] at h
            rcases hr '-' h with h' | h' | h' <;> cases h'
        | cons c cs =>
            rw [hc, List.cons_append, List.head?_cons, Option.some.injEq] at h
            exact render_head he' hne c (by rw [hc]; rfl) h
      exact Scans.cons (scans_minus hhead) (scans_render e he' r hr)
  | .unary .identity e, he, r, hr => by
      rw [render_identity, tokens]
      exact Scans.cons (scans_punct (c := '+') (by decide) (by decide) rfl) (scans_render e he r hr)
  | .binary op l r', he, r, hr => by
      simp only [renderable, Bool.and_eq_true] at he
      rw [render_binary, tokens]
      have hright : Scans (' ' :: (r'.render.toList ++ [')'])) (r'.tokens ++ [.closeParen]) r :=
        Scans.blank ((scans_render r' he.2 _ (stops_closeParen r)).append (scans_closeParen r))
      have hop : Scans (' ' :: (op.symbol.toList ++ ' ' :: (r'.render.toList ++ [')'])))
          (op.token :: (r'.tokens ++ [.closeParen])) r :=
        Scans.blank ((scans_binaryOp op _).append hright)
      exact Scans.cons (scans_openParen _) ((scans_render l he.1 _ (stops_blank _)).append hop)
  | .isNull e, he, r, hr => by
      rw [render_isNull, tokens]
      have hnull : Scans [' ', 'N', 'U', 'L', 'L', ')'] [.keyword .null, .closeParen] r :=
        Scans.blank ((scans_fixedWord (c := 'N') (w := ['U', 'L', 'L']) (t := .keyword .null)
          (by decide) (notWordChar_cons (c := ')') (by decide) _)).append (scans_closeParen r))
      have his : Scans [' ', 'I', 'S', ' ', 'N', 'U', 'L', 'L', ')']
          [.keyword .is, .keyword .null, .closeParen] r :=
        Scans.blank ((scans_fixedWord (c := 'I') (w := ['S']) (t := .keyword .is) (by decide)
          (notWordChar_cons (c := ' ') (by decide) _)).append hnull)
      exact Scans.cons (scans_openParen _) ((scans_render e he _ (stops_blank _)).append his)

/-- The arguments of a call scan into their tokens up to and with the `)`. -/
theorem scans_args : ∀ (later : Bool) (es : List Expr), renderableArgs es = true → ∀ r, Stops r →
    Scans (argsText later es) (argTokens later es) r
  | _, [], _, r, _ => by
      rw [argsText, argTokens]
      exact scans_closeParen r
  | later, e :: es, h, r, hr => by
      simp only [renderableArgs, Bool.and_eq_true] at h
      have hnext : Stops (argsText true es ++ r) := by
        cases es with
        | nil => exact stops_closeParen r
        | cons _ _ => exact stops_comma _
      have hmain : Scans (e.render.toList ++ argsText true es) (e.tokens ++ argTokens true es) r :=
        (scans_render e h.1 _ hnext).append (scans_args true es h.2 r hr)
      cases later
      · simpa [argsText, argTokens] using hmain
      · simp only [argsText, argTokens, if_true, List.cons_append, List.nil_append]
        exact Scans.cons (scans_punct (c := ',') (by decide) (by decide) rfl) (Scans.blank hmain)

end

/-- The text of a renderable expression scans into its tokens, up to its end. -/
theorem ofString_render {e : Expr} (he : e.renderable = true) :
    ∃ ws n, ws.map Spanned.token = e.tokens ∧
      TokenStream.ofString e.render = ⟨ws, .finished n⟩ := by
  obtain ⟨ws, p, hw, hs⟩ := scans_render e he [] stops_nil 0
  refine ⟨ws, p, hw, ?_⟩
  have hend : scanFrom [] p = ⟨[], .finished p⟩ := scanFrom_of_end (by rw [skipGap.eq_4])
  rw [List.append_nil, hend] at hs
  simpa [TokenStream.ofString] using hs

end Expr

end SqlDdl
