import SqlDdl.Proofs.Gaps
import SqlDdl.Ast.Expr

/-!
# Lexemes and the longest match

A token is read from the text that spells it, its *lexeme*. There are four kinds: a word, which
starts with an alphabetic character or `_` and goes on over alphanumeric characters, `_` and `$`;
a number, ASCII digits with an optional fraction and exponent; text in single quotes, double
quotes or backticks, in which the quote written twice stands for itself; and punctuation. The
relation `Lexeme w t` says that `w` spells `t`, with no reference to the scanner.

The scanner reads the *longest* lexeme at the front of what is left (`Longest`). The kinds never
compete, since each is told apart by its first character; within a kind the longest lexeme is
the one the scanner's greedy loops read, and this takes an argument for numbers, whose parts are
all optional after the first digits, and for quoted text, where `'a'` is a lexeme at the front of
`'a'''` and yet the scanner rightly reads on to the last quote.

Main statements: `readToken_sound`, that a token read is the longest lexeme at the front, and
`readToken_complete`, that the longest lexeme at the front is read, unless it is quoted text whose
close the scanner looks for past it in vain; in that case what follows can be read by no one
(`unclosed_after_longest`).
-/

namespace SqlDdl.Scan

/-! ## The lexemes -/

/-- Every character is an ASCII digit. -/
def AllDigits (cs : List Char) : Prop := ∀ c ∈ cs, c.isDigit = true

/-- The fraction of a number, if it has one: a point, then digits. -/
def FractionShape (f : List Char) : Prop :=
  f = [] ∨ ∃ fd, f = '.' :: fd ∧ AllDigits fd

/-- The exponent of a number, if it has one: `e` or `E`, an optional sign, then digits. -/
def ExponentShape (e : List Char) : Prop :=
  e = [] ∨ ∃ m s ed, e = m :: (s ++ ed) ∧ (m = 'e' ∨ m = 'E') ∧
    (s = [] ∨ s = ['+'] ∨ s = ['-']) ∧ AllDigits ed

/-- The text of a number: ASCII digits, then a fraction and an exponent. Only the leading digits
must be there; the digits after the point and after the mark may be none. -/
def IsNumeral (w : List Char) : Prop :=
  ∃ d f e, w = d ++ f ++ e ∧ d ≠ [] ∧ AllDigits d ∧ FractionShape f ∧ ExponentShape e

/-- The punctuation, each with its spelling; `<>` and `!=` both spell `notEqual`. -/
def symbols : List (List Char × Token) :=
  [(['.'], .period), (['='], .equal), ([','], .comma), ([';'], .semicolon), (['('], .openParen),
   ([')'], .closeParen), (['+'], .plus), (['-'], .minus), (['*'], .asterisk), (['/'], .slash),
   (['%'], .percent), (['<', '='], .lessThanOrEqual), (['<', '>'], .notEqual),
   (['<'], .lessThan), (['>', '='], .greaterThanOrEqual), (['>'], .greaterThan),
   (['!', '='], .notEqual)]

/-- Whether a character opens quoted text. -/
def IsQuote (q : Char) : Prop := q = '\'' ∨ q = '"' ∨ q = '`'

instance : DecidablePred IsQuote :=
  fun q => inferInstanceAs (Decidable (q = '\'' ∨ q = '"' ∨ q = '`'))

/-- The token of text in the quotes `q`: a string in single quotes, a quoted identifier in the
others. -/
def quotedToken (q : Char) (body : List Char) : Token :=
  if q = '\'' then .string (String.ofList body) else .quotedIdent (String.ofList body)

/-- `Lexeme w t`: the text `w` spells the token `t`. -/
inductive Lexeme : List Char → Token → Prop
  | word {c : Char} {cs : List Char} : isWordStart c = true → (∀ x ∈ cs, isWordChar x = true) →
      Lexeme (c :: cs) (Token.ofWord (String.ofList (c :: cs)))
  | number {w : List Char} : IsNumeral w → Lexeme w (.number (String.ofList w))
  | quoted {q : Char} {body : List Char} : IsQuote q →
      Lexeme (q :: (Literal.doubleQuote q body ++ [q])) (quotedToken q body)
  | symbol {w : List Char} {t : Token} : (w, t) ∈ symbols → Lexeme w t

/-- `w` spells `t` and is the longest lexeme at the front of `w ++ r`. -/
def Longest (w : List Char) (t : Token) (r : List Char) : Prop :=
  Lexeme w t ∧ ∀ w' t', Lexeme w' t' → w' <+: w ++ r → w'.length ≤ w.length

/-! ## First characters

Each kind of lexeme has first characters of its own. Digits, quotes and the first characters of
punctuation are a handful of ASCII characters, so the facts below are checked one character at a
time against the Unicode tables. -/

theorem toNat_of_isDigit {c : Char} (h : c.isDigit = true) : 48 ≤ c.toNat ∧ c.toNat ≤ 57 := by
  simp only [Char.isDigit, Bool.and_eq_true, decide_eq_true_eq] at h
  exact ⟨h.1, h.2⟩

theorem utf8Size_of_isDigit {c : Char} (h : c.isDigit = true) : c.utf8Size = 1 := by
  have := toNat_of_isDigit h
  rw [Char.utf8Size, if_pos]
  simp only [UInt32.le_iff_toNat_le]
  exact Nat.le_trans this.2 (by decide)

theorem isWordStart_of_isDigit {c : Char} (h : c.isDigit = true) : isWordStart c = false := by
  obtain ⟨lo, hi⟩ := toNat_of_isDigit h
  have table : ∀ k < 10, isWordStart (Char.ofNat (48 + k)) = false := by decide
  have := table (c.toNat - 48) (by omega)
  rwa [Nat.add_sub_cancel' lo, Char.ofNat_toNat] at this

theorem not_isQuote_of_isDigit {c : Char} (h : c.isDigit = true) : ¬ IsQuote c := by
  rintro (rfl | rfl | rfl) <;> exact absurd h (by decide)

theorem isWordStart_of_isQuote {q : Char} (h : IsQuote q) : isWordStart q = false := by
  rcases h with rfl | rfl | rfl <;> decide

theorem isDigit_of_isQuote {q : Char} (h : IsQuote q) : q.isDigit = false := by
  rcases h with rfl | rfl | rfl <;> decide

theorem symbols_head {w : List Char} {t : Token} (h : (w, t) ∈ symbols) :
    ∃ c cs, w = c :: cs ∧ isWordStart c = false ∧ c.isDigit = false ∧ ¬ IsQuote c := by
  simp only [symbols, List.mem_cons, Prod.mk.injEq, List.not_mem_nil, or_false] at h
  rcases h with ⟨rfl, -⟩ | ⟨rfl, -⟩ | ⟨rfl, -⟩ | ⟨rfl, -⟩ | ⟨rfl, -⟩ | ⟨rfl, -⟩ | ⟨rfl, -⟩ | ⟨rfl, -⟩ | ⟨rfl, -⟩ | ⟨rfl, -⟩ | ⟨rfl, -⟩ | ⟨rfl, -⟩ | ⟨rfl, -⟩ | ⟨rfl, -⟩ | ⟨rfl, -⟩ | ⟨rfl, -⟩ | ⟨rfl, -⟩
  all_goals exact ⟨_, _, rfl, by decide, by decide, by decide⟩

/-- No two pieces of punctuation are spelled alike. -/
theorem symbols_functional {w : List Char} {t t' : Token} (h : (w, t) ∈ symbols)
    (h' : (w, t') ∈ symbols) : t = t' := by
  have table : ∀ e ∈ symbols, ∀ e' ∈ symbols, e.1 = e'.1 → e.2 = e'.2 := by decide +kernel
  exact table _ h _ h' rfl

theorem lexeme_ne_nil {w : List Char} {t : Token} (h : Lexeme w t) : w ≠ [] := by
  cases h with
  | word => simp
  | number hn =>
      obtain ⟨d, f, e, rfl, hd, -⟩ := hn
      simp [hd]
  | quoted => simp
  | symbol hs =>
      obtain ⟨c, cs, rfl, -⟩ := symbols_head hs
      simp

theorem head_isDigit_of_isNumeral {c : Char} {cs : List Char} (h : IsNumeral (c :: cs)) :
    c.isDigit = true := by
  obtain ⟨d, f, e, hw, hd, hdig, -⟩ := h
  obtain ⟨x, d, rfl⟩ := List.exists_cons_of_ne_nil hd
  simp only [List.cons_append, List.cons.injEq] at hw
  exact hw.1 ▸ hdig x (by simp)

/-! ## Which kind a lexeme is -/

theorem Lexeme.of_isWordStart {c : Char} {cs : List Char} {t : Token} (h : Lexeme (c :: cs) t)
    (hc : isWordStart c = true) :
    (∀ x ∈ cs, isWordChar x = true) ∧ t = Token.ofWord (String.ofList (c :: cs)) := by
  cases h with
  | word _ hcs => exact ⟨hcs, rfl⟩
  | number hn => simp [isWordStart_of_isDigit (head_isDigit_of_isNumeral hn)] at hc
  | quoted hq => simp [isWordStart_of_isQuote hq] at hc
  | symbol hs =>
      obtain ⟨d, ds, he, hd, -⟩ := symbols_head hs
      obtain ⟨rfl, rfl⟩ := List.cons.inj he
      simp [hd] at hc

theorem Lexeme.of_isDigit {c : Char} {cs : List Char} {t : Token} (h : Lexeme (c :: cs) t)
    (hc : c.isDigit = true) : IsNumeral (c :: cs) ∧ t = .number (String.ofList (c :: cs)) := by
  cases h with
  | word hw => simp [isWordStart_of_isDigit hc] at hw
  | number hn => exact ⟨hn, rfl⟩
  | quoted hq => simp [isDigit_of_isQuote hq] at hc
  | symbol hs =>
      obtain ⟨d, ds, he, -, hd, -⟩ := symbols_head hs
      obtain ⟨rfl, rfl⟩ := List.cons.inj he
      simp [hd] at hc

theorem Lexeme.of_isQuote {q : Char} {cs : List Char} {t : Token} (h : Lexeme (q :: cs) t)
    (hq : IsQuote q) :
    ∃ body, cs = Literal.doubleQuote q body ++ [q] ∧ t = quotedToken q body := by
  cases h with
  | word hw => simp [isWordStart_of_isQuote hq] at hw
  | number hn => exact absurd (head_isDigit_of_isNumeral hn) (by simp [isDigit_of_isQuote hq])
  | quoted _ => exact ⟨_, rfl, rfl⟩
  | symbol hs =>
      obtain ⟨d, ds, he, -, -, hd⟩ := symbols_head hs
      obtain ⟨rfl, rfl⟩ := List.cons.inj he
      exact absurd hq hd

theorem Lexeme.of_symbolStart {c : Char} {cs : List Char} {t : Token} (h : Lexeme (c :: cs) t)
    (hw : isWordStart c = false) (hd : c.isDigit = false) (hq : ¬ IsQuote c) :
    (c :: cs, t) ∈ symbols := by
  cases h with
  | word hw' => simp [hw] at hw'
  | number hn => exact absurd (head_isDigit_of_isNumeral hn) (by simp [hd])
  | quoted hq' => exact absurd hq' hq
  | symbol hs => exact hs

/-! ## Runs of one class

A run that `takeWhile` takes is as long as the class allows, so a run at the front lies within
it, and a run followed by a character outside the class is exactly it. -/

theorem prefix_takeWhile {p : Char → Bool} :
    ∀ {a cs : List Char}, (∀ x ∈ a, p x = true) → a <+: cs → a <+: cs.takeWhile p
  | [], _, _, _ => List.nil_prefix
  | _ :: _, [], _, h => absurd (List.prefix_nil.1 h) (by simp)
  | x :: a, c :: cs, ha, h => by
      obtain ⟨rfl, h'⟩ := List.cons_prefix_cons.1 h
      rw [List.takeWhile_cons_of_pos (ha x List.mem_cons_self)]
      exact List.cons_prefix_cons.2
        ⟨rfl, prefix_takeWhile (fun y hy => ha y (List.mem_cons_of_mem x hy)) h'⟩

theorem takeWhile_of_prefix {p : Char → Bool} {x : Char} {b : List Char} (hx : p x = false) :
    ∀ {a cs : List Char}, (∀ y ∈ a, p y = true) → a ++ x :: b <+: cs →
      cs.takeWhile p = a ∧ x :: b <+: cs.dropWhile p
  | _, [], _, h => absurd (List.prefix_nil.1 h) (by simp)
  | [], c :: cs, _, h => by
      obtain ⟨rfl, -⟩ := List.cons_prefix_cons.1 h
      have hx' : ¬ p x = true := by simp [hx]
      rw [List.takeWhile_cons_of_neg hx', List.dropWhile_cons_of_neg hx']
      exact ⟨rfl, h⟩
  | y :: a, c :: cs, ha, h => by
      obtain ⟨rfl, h'⟩ := List.cons_prefix_cons.1 h
      obtain ⟨h1, h2⟩ := takeWhile_of_prefix hx (fun z hz => ha z (List.mem_cons_of_mem y hz)) h'
      rw [List.takeWhile_cons_of_pos (ha y List.mem_cons_self),
        List.dropWhile_cons_of_pos (ha y List.mem_cons_self), h1]
      exact ⟨rfl, h2⟩

theorem length_le_digitRun {a cs : List Char} (ha : AllDigits a) (h : a <+: cs) :
    a.length ≤ (digitRun cs).1.length :=
  (prefix_takeWhile ha h).length_le

theorem allDigits_digitRun (cs : List Char) : AllDigits (digitRun cs).1 :=
  fun _ hx => List.mem_takeWhile_imp hx

/-! ## Numbers

`readNumber` takes the digits, the fraction and the exponent each as far as they go. A numeral
that fits in front of the text agrees with what it reads up to the first run the numeral ends
early, and that run is its last, so it is no longer. -/

theorem readNumber_eq (cs : List Char) :
    readNumber cs = ((digitRun cs).1 ++ (fractionPart (digitRun cs).2).1 ++
      (exponentPart (fractionPart (digitRun cs).2).2).1,
      (exponentPart (fractionPart (digitRun cs).2).2).2) := rfl

theorem digitRun_cons {c : Char} (cs : List Char) (hc : c.isDigit = true) :
    digitRun (c :: cs) = (c :: (digitRun cs).1, (digitRun cs).2) := by
  simp [digitRun, List.takeWhile_cons_of_pos hc, List.dropWhile_cons_of_pos hc]

theorem readNumber_cons {c : Char} (cs : List Char) (hc : c.isDigit = true) :
    readNumber (c :: cs) = (c :: (readNumber cs).1, (readNumber cs).2) := by
  simp [readNumber_eq, digitRun_cons cs hc]

theorem fractionPart_point (r : List Char) :
    fractionPart ('.' :: r) = ('.' :: (digitRun r).1, (digitRun r).2) := rfl

theorem fractionPart_of_head {r : List Char} (h : ∀ x ∈ r.head?, x ≠ '.') :
    fractionPart r = ([], r) := by
  unfold fractionPart
  split
  · simp at h
  · rfl

theorem exponentPart_mark {m : Char} (r : List Char) (hm : m = 'e' ∨ m = 'E') :
    exponentPart (m :: r) =
      (m :: (signPart r).1 ++ (digitRun (signPart r).2).1, (digitRun (signPart r).2).2) := by
  simp [exponentPart, hm]

theorem signPart_cons (g : Char) (r : List Char) :
    signPart (g :: r) = if g = '+' ∨ g = '-' then ([g], r) else ([], g :: r) := rfl

theorem fractionShape_fractionPart (r : List Char) : FractionShape (fractionPart r).1 := by
  unfold fractionPart
  split
  · exact Or.inr ⟨_, rfl, allDigits_digitRun _⟩
  · exact Or.inl rfl

theorem signPart_shape (r : List Char) :
    (signPart r).1 = [] ∨ (signPart r).1 = ['+'] ∨ (signPart r).1 = ['-'] := by
  unfold signPart
  split
  · split
    · next h => rcases h with rfl | rfl <;> simp
    · exact Or.inl rfl
  · exact Or.inl rfl

theorem exponentShape_exponentPart (r : List Char) : ExponentShape (exponentPart r).1 := by
  unfold exponentPart
  split
  · split
    · next hm =>
        exact Or.inr ⟨_, _, _, by rw [List.cons_append], hm, signPart_shape _,
          allDigits_digitRun _⟩
    · exact Or.inl rfl
  · exact Or.inl rfl

theorem isNumeral_readNumber {c : Char} (cs : List Char) (hc : c.isDigit = true) :
    IsNumeral (readNumber (c :: cs)).1 := by
  rw [readNumber_eq]
  refine ⟨_, _, _, rfl, ?_, allDigits_digitRun _, fractionShape_fractionPart _,
    exponentShape_exponentPart _⟩
  simp [digitRun_cons cs hc]

/-- The sign and digits of an exponent that fit in front of the text are no longer than what
`signPart` and the digits after it take. -/
theorem signed_length_le {s ed : List Char} (hs : s = [] ∨ s = ['+'] ∨ s = ['-'])
    (hed : AllDigits ed) : ∀ {r : List Char}, s ++ ed <+: r →
      (s ++ ed).length ≤ (signPart r).1.length + (digitRun (signPart r).2).1.length
  | [], h => by simp [List.prefix_nil.1 h]
  | g :: r, h => by
      rw [signPart_cons]
      split
      · next hg =>
          rcases hs with rfl | rfl | rfl
          · have := length_le_digitRun hed h
            have hg' : (digitRun (g :: r)).1 = [] := by
              rcases hg with rfl | rfl <;> rfl
            simp only [hg', List.length_nil] at this
            simp only [List.nil_append, List.length_singleton]
            omega
          all_goals
            obtain ⟨-, h'⟩ := List.cons_prefix_cons.1 h
            have := length_le_digitRun hed h'
            simp only [List.singleton_append, List.length_cons]
            omega
      · next hg =>
          rcases hs with rfl | rfl | rfl
          · simpa using length_le_digitRun hed h
          all_goals
            obtain ⟨rfl, -⟩ := List.cons_prefix_cons.1 h
            simp at hg

/-- An exponent that fits in front of the text is no longer than the one `exponentPart` reads. -/
theorem exponent_length_le {e r : List Char} (he : ExponentShape e) (h : e <+: r) :
    e.length ≤ (exponentPart r).1.length := by
  rcases he with rfl | ⟨m, s, ed, rfl, hm, hs, hed⟩
  · exact Nat.zero_le _
  obtain ⟨r', rfl⟩ : ∃ r', r = m :: r' := by
    obtain ⟨u, hu⟩ := h
    exact ⟨_, hu.symm⟩
  rw [exponentPart_mark r' hm]
  have := signed_length_le hs hed (List.cons_prefix_cons.1 h).2
  simp only [List.length_cons, List.length_append] at this ⊢
  omega

theorem head_not_digit {f e : List Char} {x : Char} {t : List Char} (hf : FractionShape f)
    (he : ExponentShape e) (h : f ++ e = x :: t) : x.isDigit = false := by
  rcases hf with rfl | ⟨fd, rfl, -⟩
  · rcases he with rfl | ⟨m, s, ed, rfl, hm, -⟩
    · simp at h
    · obtain ⟨rfl, -⟩ := List.cons.inj h
      rcases hm with rfl | rfl <;> rfl
  · obtain ⟨rfl, -⟩ := List.cons.inj h
    rfl

/-- A fraction and exponent that fit in front of the text are no longer than the ones
`fractionPart` and `exponentPart` read. -/
theorem fraction_length_le {f e r : List Char} (hf : FractionShape f) (he : ExponentShape e)
    (h : f ++ e <+: r) :
    (f ++ e).length ≤ (fractionPart r).1.length + (exponentPart (fractionPart r).2).1.length := by
  rcases hf with rfl | ⟨fd, rfl, hfd⟩
  · rcases he with rfl | ⟨m, s, ed, rfl, hm, hs, hed⟩
    · simp
    · have hr : ∀ x ∈ r.head?, x ≠ '.' := by
        obtain ⟨u, rfl⟩ := h
        rcases hm with rfl | rfl <;> simp
      rw [fractionPart_of_head hr]
      simpa using exponent_length_le (Or.inr ⟨m, s, ed, rfl, hm, hs, hed⟩) h
  · obtain ⟨r', rfl⟩ : ∃ r', r = '.' :: r' := by
      obtain ⟨u, hu⟩ := h
      exact ⟨_, hu.symm⟩
    rw [fractionPart_point]
    have h' : fd ++ e <+: r' := by simpa using (List.cons_prefix_cons.1 h).2
    cases e with
    | nil =>
        have := length_le_digitRun hfd (by simpa using h')
        simp only [List.append_nil, List.length_cons] at this ⊢
        omega
    | cons x t =>
        have hx := head_not_digit (Or.inl rfl) he rfl
        obtain ⟨hd, he'⟩ := takeWhile_of_prefix hx hfd h'
        have := exponent_length_le he he'
        simp only [digitRun, hd, List.length_cons, List.length_append] at this ⊢
        omega

/-- A numeral that fits in front of the text is no longer than the number `readNumber` reads. -/
theorem numeral_length_le {w cs : List Char} (hw : IsNumeral w) (h : w <+: cs) :
    w.length ≤ (readNumber cs).1.length := by
  obtain ⟨d, f, e, rfl, -, hd, hf, he⟩ := hw
  rw [readNumber_eq]
  rw [List.append_assoc] at h
  cases hfe : f ++ e with
  | nil =>
      rw [hfe, List.append_nil] at h
      have := length_le_digitRun hd h
      simp only [List.length_append, List.append_assoc, hfe, List.length_nil] at this ⊢
      omega
  | cons x t =>
      rw [hfe] at h
      obtain ⟨hD, hrest⟩ := takeWhile_of_prefix (head_not_digit hf he hfe) hd h
      rw [← hfe] at hrest
      have := fraction_length_le hf he hrest
      simp only [digitRun, hD, List.length_append] at this ⊢
      omega

theorem utf8Size_of_numeral {w : List Char} (hw : IsNumeral w) : ∀ c ∈ w, c.utf8Size = 1 := by
  obtain ⟨d, f, e, rfl, -, hd, hf, he⟩ := hw
  intro c hc
  simp only [List.mem_append] at hc
  rcases hc with (hc | hc) | hc
  · exact utf8Size_of_isDigit (hd c hc)
  · rcases hf with rfl | ⟨fd, rfl, hfd⟩
    · simp at hc
    · rcases List.mem_cons.1 hc with rfl | hc
      · rfl
      · exact utf8Size_of_isDigit (hfd c hc)
  · rcases he with rfl | ⟨m, s, ed, rfl, hm, hs, hed⟩
    · simp at hc
    · simp only [List.mem_cons, List.mem_append] at hc
      rcases hc with rfl | hc | hc
      · rcases hm with rfl | rfl <;> rfl
      · rcases hs with rfl | rfl | rfl <;>
          simp only [List.not_mem_nil, List.mem_singleton] at hc <;> (subst hc; rfl)
      · exact utf8Size_of_isDigit (hed c hc)

theorem byteLength_of_ascii {w : List Char} (h : ∀ c ∈ w, c.utf8Size = 1) :
    byteLength w = w.length := by
  induction w with
  | nil => rfl
  | cons c w ih =>
      simp only [byteLength_cons, List.length_cons, h c List.mem_cons_self,
        ih fun x hx => h x (List.mem_cons_of_mem c hx)]
      omega

/-- After a digit, `readNumber` reads the longest lexeme, all of it ASCII. -/
theorem number_longest {c : Char} (rest : List Char) (hc : c.isDigit = true) :
    Longest (c :: (readNumber rest).1) (.number (String.ofList (c :: (readNumber rest).1)))
      (readNumber rest).2 ∧
    byteLength (c :: (readNumber rest).1) = 1 + (readNumber rest).1.length := by
  have hn : IsNumeral (c :: (readNumber rest).1) := by
    simpa [readNumber_cons rest hc] using isNumeral_readNumber rest hc
  refine ⟨⟨.number hn, fun w' t' hl hp => ?_⟩, ?_⟩
  · rw [List.cons_append, readNumber_append] at hp
    obtain ⟨d, cs, rfl⟩ := List.exists_cons_of_ne_nil (lexeme_ne_nil hl)
    obtain ⟨rfl, -⟩ := List.cons_prefix_cons.1 hp
    simpa [readNumber_cons rest hc] using numeral_length_le (hl.of_isDigit hc).1 hp
  · rw [byteLength_of_ascii (utf8Size_of_numeral hn), List.length_cons]
    omega

/-! ## Words -/

/-- After a word's first character, the word runs on as far as word characters go. -/
theorem word_longest {c : Char} (rest : List Char) (hc : isWordStart c = true) :
    Longest (c :: rest.takeWhile isWordChar)
      (Token.ofWord (String.ofList (c :: rest.takeWhile isWordChar)))
      (rest.dropWhile isWordChar) := by
  refine ⟨.word hc fun x hx => List.mem_takeWhile_imp hx, fun w' t' hl hp => ?_⟩
  obtain ⟨d, cs, rfl⟩ := List.exists_cons_of_ne_nil (lexeme_ne_nil hl)
  rw [List.cons_append, List.takeWhile_append_dropWhile] at hp
  obtain ⟨rfl, hp'⟩ := List.cons_prefix_cons.1 hp
  simpa using (prefix_takeWhile (hl.of_isWordStart hc).1 hp').length_le

/-! ## Doubled quotes -/

@[simp] theorem doubleQuote_nil (q : Char) : Literal.doubleQuote q [] = [] := rfl

theorem doubleQuote_cons (q c : Char) (cs : List Char) :
    Literal.doubleQuote q (c :: cs) =
      if c = q then q :: q :: Literal.doubleQuote q cs else c :: Literal.doubleQuote q cs := rfl

@[simp] theorem doubleQuote_append (q : Char) (a b : List Char) :
    Literal.doubleQuote q (a ++ b) = Literal.doubleQuote q a ++ Literal.doubleQuote q b := by
  induction a with
  | nil => rfl
  | cons c a ih => by_cases hc : c = q <;> simp [doubleQuote_cons, hc, ih]

theorem doubleQuote_of_not_mem {q : Char} {cs : List Char} (h : q ∉ cs) :
    Literal.doubleQuote q cs = cs := by
  induction cs with
  | nil => rfl
  | cons c cs ih =>
      have hc : c ≠ q := fun hc => h (hc ▸ List.mem_cons_self)
      rw [doubleQuote_cons, if_neg hc, ih fun hm => h (List.mem_cons_of_mem c hm)]

/-- A prefix of doubled text that ends on a whole character is the doubling of a prefix. -/
theorem doubleQuote_eq_append {q : Char} :
    ∀ {a z t : List Char}, Literal.doubleQuote q a ++ t = Literal.doubleQuote q z →
      ∃ z', z = a ++ z' ∧ t = Literal.doubleQuote q z'
  | [], z, t, h => ⟨z, rfl, h⟩
  | c :: a, [], t, h => by
      rw [doubleQuote_cons] at h
      split at h <;> simp at h
  | c :: a, d :: z, t, h => by
      rw [doubleQuote_cons, doubleQuote_cons] at h
      by_cases hc : c = q <;> by_cases hd : d = q
      · rw [if_pos hc, if_pos hd] at h
        simp only [List.cons_append] at h
        obtain ⟨z', rfl, rfl⟩ := doubleQuote_eq_append (List.cons.inj (List.cons.inj h).2).2
        exact ⟨z', by rw [hc, hd]; rfl, rfl⟩
      · rw [if_pos hc, if_neg hd] at h
        simp only [List.cons_append] at h
        exact absurd (List.cons.inj h).1.symm hd
      · rw [if_neg hc, if_pos hd] at h
        simp only [List.cons_append] at h
        exact absurd (List.cons.inj h).1 hc
      · rw [if_neg hc, if_neg hd] at h
        simp only [List.cons_append] at h
        obtain ⟨rfl, htail⟩ := List.cons.inj h
        obtain ⟨z', rfl, rfl⟩ := doubleQuote_eq_append htail
        exact ⟨z', rfl, rfl⟩

theorem doubleQuote_inj {q : Char} {a b : List Char}
    (h : Literal.doubleQuote q a = Literal.doubleQuote q b) : a = b := by
  have h' : Literal.doubleQuote q a ++ [] = Literal.doubleQuote q b := by
    rw [List.append_nil]; exact h
  obtain ⟨z', rfl, hz⟩ := doubleQuote_eq_append h'
  cases z' with
  | nil => simp
  | cons c z' =>
      rw [doubleQuote_cons] at hz
      split at hz <;> exact absurd hz (by simp)

/-! ## One token per text -/

/-- A text spells one token at most. -/
theorem Lexeme.functional {w : List Char} {t t' : Token} (h : Lexeme w t) (h' : Lexeme w t') :
    t = t' := by
  obtain ⟨c, cs, rfl⟩ := List.exists_cons_of_ne_nil (lexeme_ne_nil h)
  by_cases hq : IsQuote c
  · obtain ⟨b, hb, rfl⟩ := h.of_isQuote hq
    obtain ⟨b', hb', rfl⟩ := h'.of_isQuote hq
    rw [hb', List.append_cancel_right_eq] at hb
    rw [doubleQuote_inj hb]
  · cases hd : c.isDigit
    · cases hw : isWordStart c
      · exact symbols_functional (h.of_symbolStart hw hd hq) (h'.of_symbolStart hw hd hq)
      · rw [(h.of_isWordStart hw).2, (h'.of_isWordStart hw).2]
    · rw [(h.of_isDigit hd).2, (h'.of_isDigit hd).2]

/-- The longest lexeme at the front of a text is one: its extent and its token are fixed. -/
theorem Longest.unique {w w' r r' : List Char} {t t' : Token} (h : Longest w t r)
    (h' : Longest w' t' r') (he : w ++ r = w' ++ r') : w = w' ∧ t = t' ∧ r = r' := by
  have h1 : w'.length ≤ w.length := h.2 w' t' h'.1 (he ▸ List.prefix_append w' r')
  have h2 : w.length ≤ w'.length := h'.2 w t h.1 (he ▸ List.prefix_append w r)
  have hw : w = w' := by
    have hp : w <+: w' := List.prefix_of_prefix_length_le (List.prefix_append w r)
      (he ▸ List.prefix_append w' r') h2
    exact hp.eq_of_length (by omega)
  subst hw
  exact ⟨rfl, h.1.functional h'.1, List.append_cancel_left he⟩

/-! ## Quoted text -/

/-- What `readQuoted` reads: doubled text, up to and with a quote that is not doubled. -/
theorem readQuoted_some {q : Char} :
    ∀ {s X r : List Char} {n : Nat}, readQuoted q s = some (X, r, n) →
      s = Literal.doubleQuote q X ++ q :: r ∧ r.head? ≠ some q ∧
        n = byteLength (Literal.doubleQuote q X) + q.utf8Size
  | [], _, _, _, h => by simp [readQuoted] at h
  | c :: rest, X, r, n, h => by
      unfold readQuoted at h
      split at h
      · next hc =>
          subst hc
          split at h
          · next c' rest' =>
              split at h
              · next hc' =>
                  subst hc'
                  obtain ⟨⟨X', r', n'⟩, h', he⟩ := Option.map_eq_some_iff.1 h
                  simp only [Prod.mk.injEq] at he
                  obtain ⟨rfl, rfl, rfl⟩ := he
                  obtain ⟨hs, hr, hn⟩ := readQuoted_some h'
                  refine ⟨by simp [doubleQuote_cons, hs], hr, ?_⟩
                  simp [doubleQuote_cons, hn]
                  omega
              · next hc' =>
                  simp only [Option.some.injEq, Prod.mk.injEq] at h
                  obtain ⟨rfl, rfl, rfl⟩ := h
                  exact ⟨rfl, by simpa using hc', by simp⟩
          · simp only [Option.some.injEq, Prod.mk.injEq] at h
            obtain ⟨rfl, rfl, rfl⟩ := h
            exact ⟨rfl, by simp, by simp⟩
      · next hc =>
          obtain ⟨⟨X', r', n'⟩, h', he⟩ := Option.map_eq_some_iff.1 h
          simp only [Prod.mk.injEq] at he
          obtain ⟨rfl, rfl, rfl⟩ := he
          obtain ⟨hs, hr, hn⟩ := readQuoted_some h'
          refine ⟨by simp [doubleQuote_cons, hc, hs], hr, ?_⟩
          simp [doubleQuote_cons, hc, hn]
          omega

/-- Where `readQuoted` finds no close, the text is doubled text to its end. -/
theorem readQuoted_none {q : Char} :
    ∀ {s : List Char}, readQuoted q s = none → ∃ z, s = Literal.doubleQuote q z
  | [], _ => ⟨[], rfl⟩
  | c :: rest, h => by
      unfold readQuoted at h
      split at h
      · next hc =>
          subst hc
          split at h
          · next c' rest' =>
              split at h
              · next hc' =>
                  subst hc'
                  obtain ⟨z, rfl⟩ := readQuoted_none (Option.map_eq_none_iff.1 h)
                  exact ⟨c' :: z, by simp [doubleQuote_cons]⟩
              · cases h
          · cases h
      · next hc =>
          obtain ⟨z, rfl⟩ := readQuoted_none (Option.map_eq_none_iff.1 h)
          exact ⟨c :: z, by simp [doubleQuote_cons, hc]⟩

/-- Quoted text that fits in front of a close the scanner found is no longer than the text it
read: a quote inside is doubled, so the close cannot come earlier, and after the close there is
no second quote to read on with. -/
theorem quoted_prefix_length {q : Char} {r : List Char} (hr : r.head? ≠ some q) :
    ∀ {X b : List Char}, Literal.doubleQuote q b ++ [q] <+: Literal.doubleQuote q X ++ q :: r →
      (Literal.doubleQuote q b).length ≤ (Literal.doubleQuote q X).length
  | _, [], _ => by simp
  | [], c :: b, h => by
      exfalso
      rw [doubleQuote_nil, List.nil_append, doubleQuote_cons] at h
      split at h
      · next hc =>
          simp only [List.cons_append, List.cons_prefix_cons, true_and] at h
          obtain ⟨t, ht⟩ := h
          apply hr
          rw [← ht]
          rfl
      · next hc =>
          simp only [List.cons_append, List.cons_prefix_cons] at h
          exact hc h.1
  | d :: X, c :: b, h => by
      rw [doubleQuote_cons, doubleQuote_cons] at h ⊢
      by_cases hc : c = q <;> by_cases hd : d = q
      · rw [if_pos hc, if_pos hd] at h ⊢
        simp only [List.cons_append, List.cons_prefix_cons, true_and] at h
        have := quoted_prefix_length hr h
        simp only [List.length_cons]
        omega
      · rw [if_pos hc, if_neg hd] at h
        simp only [List.cons_append, List.cons_prefix_cons] at h
        exact absurd h.1 (Ne.symm hd)
      · rw [if_neg hc, if_pos hd] at h
        simp only [List.cons_append, List.cons_prefix_cons] at h
        exact absurd h.1 hc
      · rw [if_neg hc, if_neg hd] at h ⊢
        simp only [List.cons_append, List.cons_prefix_cons] at h
        have := quoted_prefix_length hr h.2
        simp only [List.length_cons]
        omega

/-- The quoted text `readQuoted` reads is the longest lexeme at the front. -/
theorem quoted_longest {q : Char} {rest X r : List Char} {n : Nat} (hq : IsQuote q)
    (h : readQuoted q rest = some (X, r, n)) :
    q :: rest = (q :: (Literal.doubleQuote q X ++ [q])) ++ r ∧
      Longest (q :: (Literal.doubleQuote q X ++ [q])) (quotedToken q X) r ∧
      q.utf8Size + n = byteLength (q :: (Literal.doubleQuote q X ++ [q])) := by
  obtain ⟨hs, hr, hn⟩ := readQuoted_some h
  refine ⟨by simp [hs], ⟨.quoted hq, fun w' t' hw' hpre => ?_⟩, by simp [hn]⟩
  obtain ⟨c, cs, rfl⟩ := List.exists_cons_of_ne_nil (lexeme_ne_nil hw')
  obtain ⟨rfl, hpre'⟩ := List.cons_prefix_cons.1 hpre
  obtain ⟨b, rfl, -⟩ := hw'.of_isQuote hq
  have := quoted_prefix_length hr (by simpa [hs] using hpre')
  simp only [List.length_cons, List.length_append]
  omega

/-- When the scanner finds no close for quoted text, the longest lexeme at the front is a
shorter piece of quoted text, and what follows it is a lone quote with no close after it. -/
theorem unclosed_after_longest {q : Char} {rest w r : List Char} {t : Token} (hq : IsQuote q)
    (h : readQuoted q rest = none) (hl : Longest w t r) (hw : q :: rest = w ++ r) :
    ∃ y, r = q :: y ∧ q ∉ y := by
  obtain ⟨c, cs, rfl⟩ := List.exists_cons_of_ne_nil (lexeme_ne_nil hl.1)
  rw [List.cons_append] at hw
  obtain ⟨rfl, hrest⟩ := List.cons.inj hw
  obtain ⟨b, rfl, -⟩ := hl.1.of_isQuote hq
  obtain ⟨z, hz⟩ := readQuoted_none h
  rw [hz, List.append_assoc, List.singleton_append] at hrest
  obtain ⟨z', -, hz'⟩ := doubleQuote_eq_append hrest.symm
  obtain ⟨y, rfl, rfl⟩ : ∃ y, z' = q :: y ∧ r = q :: Literal.doubleQuote q y := by
    cases z' with
    | nil => simp at hz'
    | cons d y =>
        rw [doubleQuote_cons] at hz'
        split at hz'
        · next hd => exact ⟨y, by rw [hd], (List.cons.inj hz').2⟩
        · next hd => exact absurd (List.cons.inj hz').1 (Ne.symm hd)
  have hy : q ∉ y := by
    intro hm
    -- a quote further on would close a longer lexeme
    obtain ⟨y₁, y₂, rfl⟩ := List.append_of_mem hm
    have hlong := hl.2 (q :: (Literal.doubleQuote q (b ++ q :: y₁) ++ [q]))
      (quotedToken q (b ++ q :: y₁)) (.quoted hq) (by
        simp [doubleQuote_cons, List.cons_prefix_cons, List.append_assoc])
    simp [doubleQuote_cons] at hlong
  exact ⟨y, by rw [doubleQuote_of_not_mem hy], hy⟩

/-! ## Punctuation -/

/-- What `readSymbol` reads is punctuation from the table: its first `n` characters. -/
theorem readSymbol_sound {c : Char} {rest r : List Char} {t : Token} {n : Nat}
    (h : readSymbol c rest = some (t, r, n)) :
    ∃ w, c :: rest = w ++ r ∧ (w, t) ∈ symbols ∧ n = w.length := by
  refine ⟨(c :: rest).take n, ?_⟩
  unfold readSymbol at h
  split at h <;> simp only [Option.some.injEq, Prod.mk.injEq, reduceCtorEq] at h <;>
    obtain ⟨rfl, rfl, rfl⟩ := h <;> exact ⟨rfl, by simp [symbols], rfl⟩

/-- Punctuation at the front is no longer than what `readSymbol` reads (nothing, when it reads
none): of two spellings that share a first character, the longer is tried first. -/
theorem readSymbol_complete {w : List Char} {t : Token} {c : Char} {rest : List Char}
    (hs : (w, t) ∈ symbols) (hp : w <+: c :: rest) :
    w.length ≤ ((readSymbol c rest).map fun x => x.2.2).getD 0 := by
  obtain ⟨u, hu⟩ := hp
  simp only [symbols, List.mem_cons, Prod.mk.injEq, List.not_mem_nil, or_false] at hs
  rcases hs with ⟨rfl, -⟩ | ⟨rfl, -⟩ | ⟨rfl, -⟩ | ⟨rfl, -⟩ | ⟨rfl, -⟩ | ⟨rfl, -⟩ | ⟨rfl, -⟩ | ⟨rfl, -⟩ | ⟨rfl, -⟩ | ⟨rfl, -⟩ | ⟨rfl, -⟩ | ⟨rfl, -⟩ | ⟨rfl, -⟩ | ⟨rfl, -⟩ | ⟨rfl, -⟩ | ⟨rfl, -⟩ | ⟨rfl, -⟩
  all_goals
    simp only [List.cons_append, List.nil_append, List.cons.injEq] at hu
    obtain ⟨rfl, rfl⟩ := hu
    unfold readSymbol
    split <;> simp_all

theorem byteLength_of_symbol {w : List Char} {t : Token} (hs : (w, t) ∈ symbols) :
    byteLength w = w.length := by
  have table : ∀ e ∈ symbols, byteLength e.1 = e.1.length := by decide +kernel
  exact table _ hs

/-- After a character that starts no word, number or quoted text, `readSymbol` reads the longest
lexeme. -/
theorem symbol_longest {c : Char} {rest r : List Char} {t : Token} {n : Nat}
    (hw : isWordStart c = false) (hd : c.isDigit = false) (hq : ¬ IsQuote c)
    (h : readSymbol c rest = some (t, r, n)) :
    ∃ w, c :: rest = w ++ r ∧ Longest w t r ∧ n = byteLength w := by
  obtain ⟨w, hcw, hs, rfl⟩ := readSymbol_sound h
  refine ⟨w, hcw, ⟨.symbol hs, fun w' t' hl hp => ?_⟩, (byteLength_of_symbol hs).symm⟩
  rw [← hcw] at hp
  obtain ⟨d, cs, rfl⟩ := List.exists_cons_of_ne_nil (lexeme_ne_nil hl)
  obtain ⟨rfl, -⟩ := List.cons_prefix_cons.1 hp
  simpa [h] using readSymbol_complete (hl.of_symbolStart hw hd hq) hp

/-! ## Reading one token -/

/-- A token `readToken` reads is the longest lexeme at the front, and the position moves past
its bytes. -/
theorem readToken_sound {c : Char} {rest r : List Char} {pos p : Nat} {t : Token}
    (h : readToken c rest pos = .ok (t, r, p)) :
    ∃ w, c :: rest = w ++ r ∧ Longest w t r ∧ p = pos + byteLength w := by
  unfold readToken at h
  split at h
  · next hq =>
      split at h
      · next X r' n hr =>
          simp only [Except.ok.injEq, Prod.mk.injEq] at h
          obtain ⟨rfl, rfl, rfl⟩ := h
          obtain ⟨hw, hl, hn⟩ := quoted_longest hq hr
          exact ⟨_, hw, hl, by omega⟩
      · cases h
  · next hq =>
      split at h
      · next hc =>
          simp only [Except.ok.injEq, Prod.mk.injEq] at h
          obtain ⟨rfl, rfl, rfl⟩ := h
          obtain ⟨hl, hb⟩ := number_longest rest hc
          refine ⟨_, by rw [List.cons_append, readNumber_append], hl, ?_⟩
          rw [hb]
          omega
      · next hc =>
          split at h
          · next hw =>
              simp only [Except.ok.injEq, Prod.mk.injEq] at h
              obtain ⟨rfl, rfl, rfl⟩ := h
              exact ⟨_, by rw [List.cons_append, List.takeWhile_append_dropWhile],
                word_longest rest hw, rfl⟩
          · next hw =>
              split at h
              · next t' r' n hs =>
                  simp only [Except.ok.injEq, Prod.mk.injEq] at h
                  obtain ⟨rfl, rfl, rfl⟩ := h
                  obtain ⟨w, hcw, hl, rfl⟩ :=
                    symbol_longest (by simpa using hw) (by simpa using hc) hq hs
                  exact ⟨w, hcw, hl, rfl⟩
              · cases h

/-- `readToken` fails only at quoted text with no close, or where no lexeme starts. -/
theorem readToken_error {c : Char} {rest : List Char} {pos : Nat} {e : LexError}
    (h : readToken c rest pos = .error e) :
    (IsQuote c ∧ readQuoted c rest = none) ∨ ∀ w t, Lexeme w t → ¬ w <+: c :: rest := by
  unfold readToken at h
  split at h
  · next hq =>
      split at h
      · cases h
      · next hr => exact Or.inl ⟨hq, hr⟩
  · next hq =>
      split at h
      · cases h
      · next hc =>
          split at h
          · cases h
          · next hw =>
              split at h
              · cases h
              · next hs =>
                  refine Or.inr fun w t hl hp => ?_
                  obtain ⟨d, cs, rfl⟩ := List.exists_cons_of_ne_nil (lexeme_ne_nil hl)
                  obtain ⟨rfl, -⟩ := List.cons_prefix_cons.1 hp
                  have := readSymbol_complete (hl.of_symbolStart (by simpa using hw)
                    (by simpa using hc) hq) hp
                  simp [hs] at this

/-- Where the longest lexeme is followed by anything but a lone unclosed quote, `readToken`
reads exactly it. -/
theorem readToken_complete {c : Char} {rest w r : List Char} {t : Token} (pos : Nat)
    (hl : Longest w t r) (hw : c :: rest = w ++ r)
    (hr : ∀ q y, IsQuote q → r = q :: y → q ∈ y) :
    readToken c rest pos = .ok (t, r, pos + byteLength w) := by
  cases h : readToken c rest pos with
  | ok res =>
      obtain ⟨t', r', p'⟩ := res
      obtain ⟨w', hw', hl', rfl⟩ := readToken_sound h
      obtain ⟨rfl, rfl, rfl⟩ := hl'.unique hl (hw'.symm.trans hw)
      rfl
  | error e =>
      rcases readToken_error h with ⟨hq, hnone⟩ | hnone
      · obtain ⟨y, rfl, hy⟩ := unclosed_after_longest hq hnone hl hw
        exact absurd (hr _ _ hq rfl) hy
      · exact absurd (hw ▸ List.prefix_append w r) (hnone w t hl.1)

end SqlDdl.Scan
