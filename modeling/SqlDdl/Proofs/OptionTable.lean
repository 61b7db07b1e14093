import SqlDdl.Ast.Options
import Mathlib

/-!
# The option table is an ordered map

A table of options is built by setting values one after another (`TableOptions.ofInserts`). This
module describes the table after any such history without the table's code. Its names are the
upper cases of the names set, each once, in the order they first came (`names_ofInserts`); each
name holds the value of the latest setting under a name with that upper case
(`latestValue_entry`); and a lookup gives the value of the latest setting under a name whose
upper case equals the name looked up, up to ASCII case (`get?_ofInserts`).

Names are stored in their full upper case but looked up with ASCII case folding only. The two
agree on the stored names because a full upper case never holds a small ASCII letter
(`toUpperCase_not_isLower`): two stored names that are equal up to ASCII case are equal, so a
lookup cannot find an older name in place of a newer one. They disagree on the name looked up:
`é` is stored as `É`, which `é` does not find, so a value set under `é` is not read back under
`é` (`get?_after_insert_misses`). It is read back under every name whose upper case equals it up
to ASCII case, every ASCII name among them (`get?_insert_self`).
-/

namespace SqlDdl

namespace Text

theorem isLower_eq (c : Char) : c.isLower = (decide (97 ≤ c.toNat) && decide (c.toNat ≤ 122)) := by
  simp only [Char.isLower, UInt32.le_iff_toNat_le, Char.toNat_val]
  rfl

/-- No character at a code point outside `a` to `z` is a small ASCII letter, a code point that
is no character included. -/
theorem isLower_ofNat {n : Nat} (h : n < 0x61 ∨ 0x7A < n) : (Char.ofNat n).isLower = false := by
  rw [isLower_eq, Char.toNat_ofNat]
  split
  · simp only [Bool.and_eq_false_iff, decide_eq_false_iff_not, Nat.not_le]
    omega
  · rfl

theorem isLower_of_not_between {c : Char} (h : ¬ (decide ('a' ≤ c) && decide (c ≤ 'z')) = true) :
    c.isLower = false := by
  have ha : 'a'.toNat = 97 := rfl
  have hz : 'z'.toNat = 122 := rfl
  rw [isLower_eq]
  simp only [Char.le_def, UInt32.le_iff_toNat_le, Char.toNat_val, Bool.and_eq_true,
    decide_eq_true_eq, not_and, Nat.not_le, ha, hz] at h
  simp only [Bool.and_eq_false_iff, decide_eq_false_iff_not, Nat.not_le]
  omega

/-- The characters the special casings expand to hold no small ASCII letter. -/
theorem upperExpansions_no_lower :
    upperExpansions.all (fun e => e.2.all fun n => n < 0x61 || 0x7A < n) = true := by
  decide

/-- No run of the one-to-one mappings takes a code point from `0x80` on to a small ASCII
letter. -/
theorem upperRuns_no_lower :
    upperRuns.all (fun r => r.hi < 0x80 || decide ((0x7A : Int) < (max r.lo 0x80 : Nat) + r.shift) ||
      decide ((r.hi : Int) + r.shift < 0x61)) = true := by
  decide

/-- The full upper case of a character holds no small ASCII letter. -/
theorem upperCase_not_isLower (c : Char) : ∀ x ∈ upperCase c, x.isLower = false := by
  unfold upperCase
  split
  · simp
  rename_i hlow
  have hc := isLower_of_not_between hlow
  split
  · simpa using hc
  split
  · rename_i he
    have hall := List.all_eq_true.1 upperExpansions_no_lower _ (List.mem_of_find?_eq_some he)
    intro x hx
    obtain ⟨n, hn, rfl⟩ := List.mem_map.1 hx
    have hbound := List.all_eq_true.1 hall n hn
    simp only [Bool.or_eq_true, decide_eq_true_eq] at hbound
    exact isLower_ofNat hbound
  split
  · rename_i hhigh _ _ r hr
    have hcov := List.find?_some hr
    have hall := List.all_eq_true.1 upperRuns_no_lower r (List.mem_of_find?_eq_some hr)
    simp only [CaseRun.covers, Bool.and_eq_true, decide_eq_true_eq, beq_iff_eq] at hcov
    simp only [Bool.or_eq_true, decide_eq_true_eq] at hall
    simp only [List.mem_singleton, forall_eq]
    apply isLower_ofNat
    omega
  · simpa using hc

theorem toUpperCase_not_isLower (s : String) : ∀ x ∈ (toUpperCase s).toList, x.isLower = false := by
  intro x hx
  simp only [toUpperCase, String.toList_ofList, List.mem_flatMap] at hx
  obtain ⟨c, -, hc⟩ := hx
  exact upperCase_not_isLower c x hc

/-- Folding ASCII capitals loses nothing on text without small ASCII letters. -/
theorem map_toUpper_asciiLower {s : String} (h : ∀ x ∈ s.toList, x.isLower = false) :
    (asciiLower s).map Char.toUpper = s.toList := by
  rw [asciiLower, List.map_map]
  conv => rhs; rw [← List.map_id s.toList]
  apply List.map_congr_left
  intro x hx
  simp only [Function.comp_apply, Char.toUpper_toLower_eq_toUpper, id]
  exact Char.toUpper_eq_of_not_isLower (by simp [h x hx])

/-- Two full upper cases that are equal up to ASCII case are equal. -/
theorem toUpperCase_eq_of_equalsIgnoringAsciiCase {a b : String}
    (h : equalsIgnoringAsciiCase (toUpperCase a) (toUpperCase b) = true) :
    toUpperCase a = toUpperCase b := by
  have hfold : asciiLower (toUpperCase a) = asciiLower (toUpperCase b) := by
    simpa [equalsIgnoringAsciiCase] using h
  apply String.toList_inj.1
  rw [← map_toUpper_asciiLower (toUpperCase_not_isLower a),
    ← map_toUpper_asciiLower (toUpperCase_not_isLower b), hfold]

theorem equalsIgnoringAsciiCase_trans {a b n : String} (ha : equalsIgnoringAsciiCase a n = true)
    (hb : equalsIgnoringAsciiCase b n = true) : equalsIgnoringAsciiCase a b = true := by
  simp only [equalsIgnoringAsciiCase, beq_iff_eq] at ha hb ⊢
  rw [ha, hb]

end Text

namespace TableOptions

/-- The table after setting values one after another, from the empty table. -/
def ofInserts (h : List (String × String)) : TableOptions :=
  h.foldl (fun o p => o.insert p.1 p.2) {}

@[simp] theorem ofInserts_nil : ofInserts [] = {} := rfl

theorem ofInserts_append_single (h : List (String × String)) (m v : String) :
    ofInserts (h ++ [(m, v)]) = (ofInserts h).insert m v := by
  simp [ofInserts, List.foldl_append]

/-! ## Setting the first entry under a name -/

section SetFirst

variable {key value : String} {l l' : List (String × String)}

theorem mem_setFirst (h : setFirst key value l = some l') {x : String × String} (hx : x ∈ l') :
    x ∈ l ∨ x = (key, value) := by
  fun_induction setFirst key value l generalizing l' with
  | case1 => cases h
  | case2 e es hk =>
    cases h
    rcases List.mem_cons.1 hx with rfl | hx
    · exact .inr (by simpa using hk)
    · exact .inl (List.mem_cons_of_mem _ hx)
  | case3 e es _ ih =>
    obtain ⟨es', hes, rfl⟩ := Option.map_eq_some_iff.1 h
    rcases List.mem_cons.1 hx with rfl | hx
    · exact .inl List.mem_cons_self
    · exact (ih hes hx).imp_left (List.mem_cons_of_mem _)

theorem mem_setFirst_of_nodup (hnd : (l.map (·.1)).Nodup) (h : setFirst key value l = some l')
    {x : String × String} (hx : x ∈ l') : x = (key, value) ∨ (x.1 ≠ key ∧ x ∈ l) := by
  fun_induction setFirst key value l generalizing l' with
  | case1 => cases h
  | case2 e es hk =>
    cases h
    simp only [beq_iff_eq] at hk
    rcases List.mem_cons.1 hx with rfl | hx
    · exact .inl (by rw [hk])
    · refine .inr ⟨fun hxk => (List.nodup_cons.1 hnd).1 ?_, List.mem_cons_of_mem _ hx⟩
      show e.1 ∈ es.map (·.1)
      rw [hk, ← hxk]
      exact List.mem_map_of_mem hx
  | case3 e es hk ih =>
    obtain ⟨es', hes, rfl⟩ := Option.map_eq_some_iff.1 h
    rcases List.mem_cons.1 hx with rfl | hx
    · exact .inr ⟨fun hxk => hk (by simp [hxk]), List.mem_cons_self⟩
    · exact (ih (List.nodup_cons.1 hnd).2 hes hx).imp_right
        fun h => ⟨h.1, List.mem_cons_of_mem _ h.2⟩

theorem find?_setFirst_self (h : setFirst key value l = some l') :
    (l'.find? (·.1 == key)).map (·.2) = some value := by
  fun_induction setFirst key value l generalizing l' with
  | case1 => cases h
  | case2 e es hk =>
    cases h
    simp [hk]
  | case3 e es hk ih =>
    obtain ⟨es', hes, rfl⟩ := Option.map_eq_some_iff.1 h
    simp only [Bool.not_eq_true] at hk
    rw [List.find?_cons_of_neg (by simp [hk])]
    exact ih hes

theorem find?_setFirst_of_not {p : String → Bool} (hp : p key = false)
    (h : setFirst key value l = some l') :
    (l'.find? (p ·.1)).map (·.2) = (l.find? (p ·.1)).map (·.2) := by
  fun_induction setFirst key value l generalizing l' with
  | case1 => cases h
  | case2 e es hk =>
    cases h
    simp only [beq_iff_eq] at hk
    rw [List.find?_cons_of_neg (by simp [hk, hp]), List.find?_cons_of_neg (by simp [hk, hp])]
  | case3 e es _ ih =>
    obtain ⟨es', hes, rfl⟩ := Option.map_eq_some_iff.1 h
    cases hpe : p e.1
    · simp only [List.find?_cons, hpe]
      exact ih hes
    · simp only [List.find?_cons, hpe]

end SetFirst

/-- The value of the latest setting in `h` whose name satisfies `p`. -/
def latestValue (h : List (String × String)) (p : String → Bool) : Option String :=
  (h.reverse.find? (p ·.1)).map (·.2)

theorem latestValue_append_single (h : List (String × String)) (m v : String) (p : String → Bool) :
    latestValue (h ++ [(m, v)]) p = if p m then some v else latestValue h p := by
  unfold latestValue
  by_cases hp : p m <;> simp [hp]

/-- Every name in the table is the full upper case of some text. -/
def UpperNames (o : TableOptions) : Prop := ∀ e ∈ o.entries, ∃ m, e.1 = Text.toUpperCase m

theorem UpperNames.insert {o : TableOptions} (ho : o.UpperNames) (m v : String) :
    (o.insert m v).UpperNames := by
  intro e he
  cases h : setFirst (Text.toUpperCase m) v o.entries with
  | some l =>
    rw [entries_insert_of_setFirst h] at he
    rcases mem_setFirst h he with he | rfl
    · exact ho e he
    · exact ⟨m, rfl⟩
  | none =>
    rw [entries_insert_of_not_mem v (setFirst_eq_none_iff.1 h)] at he
    rcases List.mem_append.1 he with he | he
    · exact ho e he
    · rw [List.mem_singleton.1 he]
      exact ⟨m, rfl⟩

theorem upperNames_ofInserts (h : List (String × String)) : (ofInserts h).UpperNames := by
  induction h using List.reverseRec with
  | nil => intro e he; simp at he
  | append_singleton h p ih =>
    rw [ofInserts_append_single]
    exact ih.insert p.1 p.2

/-- In a table of upper-cased names, a name equal to another up to ASCII case is that name. -/
theorem UpperNames.eq_of_equalsIgnoringAsciiCase {o : TableOptions} (ho : o.UpperNames)
    {e : String × String} (he : e ∈ o.entries) {m n : String}
    (hm : Text.equalsIgnoringAsciiCase (Text.toUpperCase m) n = true)
    (hen : Text.equalsIgnoringAsciiCase e.1 n = true) : e.1 = Text.toUpperCase m := by
  obtain ⟨m', hm'⟩ := ho e he
  rw [hm'] at hen ⊢
  exact Text.toUpperCase_eq_of_equalsIgnoringAsciiCase (Text.equalsIgnoringAsciiCase_trans hen hm)

/-- A name equal up to ASCII case to the upper case of `m` finds, in a table of upper-cased
names, exactly what that upper case itself finds. -/
theorem UpperNames.get?_eq {o : TableOptions} (ho : o.UpperNames) {m n : String}
    (hm : Text.equalsIgnoringAsciiCase (Text.toUpperCase m) n = true) :
    o.get? n = (o.entries.find? (·.1 == Text.toUpperCase m)).map (·.2) := by
  have hfind : o.entries.find? (fun e => Text.equalsIgnoringAsciiCase e.1 n) =
      o.entries.find? (·.1 == Text.toUpperCase m) := by
    apply List.find?_congr
    intro e he
    by_cases hk : e.1 = Text.toUpperCase m
    · simp [hk, hm]
    · have hne : Text.equalsIgnoringAsciiCase e.1 n = false := by
        cases hen : Text.equalsIgnoringAsciiCase e.1 n
        · rfl
        · exact absurd (ho.eq_of_equalsIgnoringAsciiCase he hm hen) hk
      simp [hk, hne]
  unfold get?
  rw [hfind]

theorem find?_insert_self (o : TableOptions) (m v : String) :
    ((o.insert m v).entries.find? (·.1 == Text.toUpperCase m)).map (·.2) = some v := by
  cases h : setFirst (Text.toUpperCase m) v o.entries with
  | some l =>
    rw [entries_insert_of_setFirst h]
    exact find?_setFirst_self h
  | none =>
    have hnone : o.entries.find? (·.1 == Text.toUpperCase m) = none :=
      List.find?_eq_none.2 fun e he hk =>
        setFirst_eq_none_iff.1 h (List.mem_map.2 ⟨e, he, by simpa using hk⟩)
    rw [entries_insert_of_not_mem v (setFirst_eq_none_iff.1 h)]
    simp [List.find?_append, hnone]

/-- Setting a value under a name whose upper case differs from `n` even up to ASCII case
leaves what `n` finds as it was. -/
theorem get?_insert_of_not {o : TableOptions} {m n : String} (v : String)
    (hm : ¬ Text.equalsIgnoringAsciiCase (Text.toUpperCase m) n = true) :
    (o.insert m v).get? n = o.get? n := by
  have hp : Text.equalsIgnoringAsciiCase (Text.toUpperCase m) n = false := by simpa using hm
  unfold get?
  cases h : setFirst (Text.toUpperCase m) v o.entries with
  | some l =>
    rw [entries_insert_of_setFirst h]
    exact find?_setFirst_of_not (p := (Text.equalsIgnoringAsciiCase · n)) hp h
  | none =>
    have hlast : [(Text.toUpperCase m, v)].find? (fun e => Text.equalsIgnoringAsciiCase e.1 n) =
        none := by
      simp [hm]
    rw [entries_insert_of_not_mem v (setFirst_eq_none_iff.1 h), List.find?_append, hlast,
      Option.or_none]

/-- Looking a name up after setting a value gives that value when the upper case of the name set
equals the name looked up up to ASCII case, and otherwise what the table gave before. -/
theorem get?_insert {o : TableOptions} (ho : o.UpperNames) (m v n : String) :
    (o.insert m v).get? n =
      if Text.equalsIgnoringAsciiCase (Text.toUpperCase m) n then some v else o.get? n := by
  by_cases hm : Text.equalsIgnoringAsciiCase (Text.toUpperCase m) n = true
  · rw [(ho.insert m v).get?_eq hm, find?_insert_self, if_pos hm]
  · rw [get?_insert_of_not v hm, if_neg hm]

/-! ## A history of settings -/

/-- The names of the table are the upper cases of the names set, each once, in the order they
first came. -/
theorem names_ofInserts (h : List (String × String)) :
    (ofInserts h).names = (h.map fun p => Text.toUpperCase p.1).eraseDups := by
  induction h using List.reverseRec with
  | nil => rfl
  | append_singleton h p ih =>
    rw [ofInserts_append_single, names_insert, ih, List.map_append, List.eraseDups_append]
    by_cases hmem : Text.toUpperCase p.1 ∈ h.map fun p => Text.toUpperCase p.1
    · rw [if_pos (List.mem_eraseDups.2 hmem)]
      simp [List.removeAll, hmem]
    · rw [if_neg (mt List.mem_eraseDups.1 hmem)]
      simp [List.removeAll, hmem, List.eraseDups_cons]

theorem nodup_names_ofInserts (h : List (String × String)) : (ofInserts h).names.Nodup := by
  induction h using List.reverseRec with
  | nil => exact List.nodup_nil
  | append_singleton h p ih =>
    rw [ofInserts_append_single, names_insert]
    split
    · exact ih
    · next hnew =>
        exact List.nodup_append.2 ⟨ih, by simp, fun a ha b hb hab => by
          rw [List.mem_singleton.1 hb] at hab
          exact hnew (hab ▸ ha)⟩

/-- Each name holds the value of the latest setting under a name with that upper case. -/
theorem latestValue_entry (h : List (String × String)) :
    ∀ e ∈ (ofInserts h).entries, latestValue h (Text.toUpperCase · == e.1) = some e.2 := by
  induction h using List.reverseRec with
  | nil => intro e he; simp at he
  | append_singleton h p ih =>
    intro e he
    rw [latestValue_append_single]
    rw [ofInserts_append_single] at he
    cases hs : setFirst (Text.toUpperCase p.1) p.2 (ofInserts h).entries with
    | some l =>
      rw [entries_insert_of_setFirst hs] at he
      rcases mem_setFirst_of_nodup (nodup_names_ofInserts h) hs he with rfl | ⟨hne, he⟩
      · simp
      · have hk : (Text.toUpperCase p.1 == e.1) = false := by
          simpa using fun h => hne h.symm
        simpa [hk] using ih e he
    | none =>
      have hnew := setFirst_eq_none_iff.1 hs
      rw [entries_insert_of_not_mem p.2 hnew] at he
      rcases List.mem_append.1 he with he | he
      · have hk : (Text.toUpperCase p.1 == e.1) = false := by
          simp only [beq_eq_false_iff_ne]
          intro hk
          exact hnew (hk ▸ List.mem_map_of_mem he)
        simpa [hk] using ih e he
      · rw [List.mem_singleton.1 he]
        simp

/-- A lookup gives the value of the latest setting under a name whose upper case equals the name
looked up, up to ASCII case. -/
theorem get?_ofInserts (h : List (String × String)) (n : String) :
    (ofInserts h).get? n =
      latestValue h (fun m => Text.equalsIgnoringAsciiCase (Text.toUpperCase m) n) := by
  induction h using List.reverseRec with
  | nil => simp [get?, latestValue]
  | append_singleton h p ih =>
    rw [ofInserts_append_single, get?_insert (upperNames_ofInserts h), ih,
      latestValue_append_single]

/-- A value set is read back under the name it was set under whenever the name's upper case
equals it up to ASCII case. -/
theorem get?_insert_self {o : TableOptions} (ho : o.UpperNames) {n : String}
    (hn : Text.equalsIgnoringAsciiCase (Text.toUpperCase n) n = true) (v : String) :
    (o.insert n v).get? n = some v := by
  rw [get?_insert ho, if_pos hn]

/-- The option table is an insertion-ordered map keyed by full upper case. After any history of
settings its names are the upper cases of the names set, each once, in the order they first
came; each holds the value of the latest setting under a name with that upper case; its size
counts them, and it is empty exactly when the size is zero; and a lookup gives the value of the
latest setting under a name whose upper case equals the name looked up, up to ASCII case. A
value set is read back under its own name whenever that name's upper case equals it up to ASCII
case. -/
theorem options_form_an_ordered_map (h : List (String × String)) :
    (ofInserts h).names = (h.map fun p => Text.toUpperCase p.1).eraseDups ∧
    (ofInserts h).names.Nodup ∧
    (∀ e ∈ (ofInserts h).entries, latestValue h (Text.toUpperCase · == e.1) = some e.2) ∧
    (ofInserts h).size = (h.map fun p => Text.toUpperCase p.1).eraseDups.length ∧
    ((ofInserts h).isEmpty = true ↔ (ofInserts h).size = 0) ∧
    (∀ n, (ofInserts h).get? n =
      latestValue h (fun m => Text.equalsIgnoringAsciiCase (Text.toUpperCase m) n)) ∧
    ∀ n v, Text.equalsIgnoringAsciiCase (Text.toUpperCase n) n = true →
      ((ofInserts h).insert n v).get? n = some v := by
  refine ⟨names_ofInserts h, nodup_names_ofInserts h, latestValue_entry h, ?_, ?_,
    get?_ofInserts h, fun n v hn => get?_insert_self (upperNames_ofInserts h) hn v⟩
  · rw [size_eq_length_names, names_ofInserts]
  · rw [isEmpty_iff, size_eq_length_names, List.length_eq_zero_iff]

/-- A value set under `engine` is read back under `engine`, after any earlier settings. -/
theorem engine_reads_back :
    Text.equalsIgnoringAsciiCase (Text.toUpperCase "engine") "engine" = true ∧
      ((ofInserts [("Engine", "MyISAM"), ("CHARSET", "utf8")]).insert "engine" "InnoDB").get?
        "engine" = some "InnoDB" := by
  have hn : Text.equalsIgnoringAsciiCase (Text.toUpperCase "engine") "engine" = true := by decide
  exact ⟨hn, (options_form_an_ordered_map _).2.2.2.2.2.2 "engine" "InnoDB" hn⟩

/-- A value set under `é` is stored under `É`, which `é` does not find: the table does not read
its own write back. -/
theorem get?_after_insert_misses : (({} : TableOptions).insert "é" "v").get? "é" = none := by
  decide

end TableOptions

end SqlDdl
