import SqlDdl.Ast.Name

/-!
# Object names and their text

A name is read from text by splitting it at every `.`, and written back by joining its parts
with `.`. Reading and then writing gives back every text (`ObjectName.render_ofString`, beside
the definitions). Writing and then reading gives back every name that has a part and no `.` in
any part. Both conditions are needed: the name without parts and the name of one empty part are
both written as the empty text, and a part holding a `.` is read back as two parts.

The base of a name read from text is what follows the last `.` of the text, or the whole text
when it has no `.`; `IsAfterLastDot` says this without splitting.
-/

namespace SqlDdl

namespace ObjectName

/-- `b` is the text after the last `.` of `s`, or all of `s` when `s` holds no `.`. -/
def IsAfterLastDot (s b : String) : Prop :=
  '.' ∉ b.toList ∧ (b = s ∨ ∃ pre : String, s = pre ++ "." ++ b)

/-- A list that holds `a` splits at the last `a` in it. -/
theorem exists_eq_append_cons_of_mem_last {α : Type} [DecidableEq α] {a : α} :
    ∀ {l : List α}, a ∈ l → ∃ pre post, l = pre ++ a :: post ∧ a ∉ post
  | c :: t, h => by
    by_cases ht : a ∈ t
    · obtain ⟨pre, post, rfl, hpost⟩ := exists_eq_append_cons_of_mem_last ht
      exact ⟨c :: pre, post, rfl, hpost⟩
    · have hc : a = c := by simpa [ht] using h
      exact ⟨[], t, by simp [hc], ht⟩

/-- A text with no `.` is read as the one part it is. -/
theorem parts_ofString_of_dot_not_mem {s : String} (h : '.' ∉ s.toList) :
    (ofString s).parts = [s] := by
  simp [ofString, List.splitOn_eq_singleton h]

/-- The base of a text read as a name is what follows its last `.`. -/
theorem base_ofString_append_dot (pre post : List Char) (hpost : '.' ∉ post) :
    (ofString (String.ofList (pre ++ '.' :: post))).base = String.ofList post := by
  simp [ofString, base, List.splitOn_append_cons_self, List.splitOn_eq_singleton hpost,
    List.getLast?_append]

/-- The base of a name read from text is the text after its last `.`, and no other text is. -/
theorem isAfterLastDot_iff_base_eq (s b : String) :
    IsAfterLastDot s b ↔ (ofString s).base = b := by
  constructor
  · rintro ⟨hb, rfl | ⟨pre, rfl⟩⟩
    · simp [base, parts_ofString_of_dot_not_mem hb]
    · have hs : pre ++ "." ++ b = String.ofList (pre.toList ++ '.' :: b.toList) := by
        rw [← String.toList_inj]
        simp
      rw [hs, base_ofString_append_dot _ _ hb, String.ofList_toList]
  · rintro rfl
    by_cases hs : '.' ∈ s.toList
    · obtain ⟨pre, post, hsplit, hpost⟩ := exists_eq_append_cons_of_mem_last hs
      have hs' : s = String.ofList (pre ++ '.' :: post) := by
        rw [← hsplit, String.ofList_toList]
      rw [hs', base_ofString_append_dot pre post hpost]
      refine ⟨by simpa using hpost, .inr ⟨String.ofList pre, ?_⟩⟩
      rw [← String.toList_inj]
      simp
    · simp [IsAfterLastDot, base, parts_ofString_of_dot_not_mem hs, hs]

/-- A name with a part and no `.` in any part is read back from the text it is written as. -/
theorem ofString_render {n : ObjectName} (hne : n.parts ≠ [])
    (hdot : ∀ p ∈ n.parts, '.' ∉ p.toList) : ofString n.render = n := by
  obtain ⟨parts⟩ := n
  have hsplit : (['.'].intercalate (parts.map String.toList)).splitOn '.' =
      parts.map String.toList :=
    List.splitOn_intercalate '.' (by simpa using hdot) (by simpa using hne)
  simp [ofString, render, hsplit, List.map_map, Function.comp_def]

/-- The base of a name with a part is its last part. -/
theorem getLast?_parts_eq_base {n : ObjectName} (hne : n.parts ≠ []) :
    n.parts.getLast? = some n.base := by
  simp [base, List.getLast?_eq_some_getLast hne]

/-- Text and names correspond. A name read from any text is written back as that text, and
its base is the text after the last `.`. A name with a part and no `.` in any part is read back
from its text, and its base is its last part. -/
theorem name_text_round_trip :
    (∀ s : String, (ofString s).render = s ∧
      ∀ b : String, IsAfterLastDot s b ↔ (ofString s).base = b) ∧
    ∀ n : ObjectName, n.parts ≠ [] → (∀ p ∈ n.parts, '.' ∉ p.toList) →
      ofString n.render = n ∧ n.parts.getLast? = some n.base :=
  ⟨fun s => ⟨render_ofString s, isAfterLastDot_iff_base_eq s⟩,
    fun _ hne hdot => ⟨ofString_render hne hdot, getLast?_parts_eq_base hne⟩⟩

/-- Without a part, a name is written as the name of one empty part is, and read back as
that name. -/
example : ofString (⟨[]⟩ : ObjectName).render = ⟨[""]⟩ := by decide

/-- `shop.orders` is read back from its text, with base `orders`. -/
theorem shop_orders_round_trip :
    ["shop", "orders"] ≠ [] ∧ (∀ p ∈ ["shop", "orders"], '.' ∉ p.toList) ∧
      ofString (⟨["shop", "orders"]⟩ : ObjectName).render = ⟨["shop", "orders"]⟩ ∧
      ["shop", "orders"].getLast? = some (⟨["shop", "orders"]⟩ : ObjectName).base := by
  have hne : ["shop", "orders"] ≠ [] := by simp
  have hdot : ∀ p ∈ ["shop", "orders"], '.' ∉ p.toList := by decide
  exact ⟨hne, hdot, name_text_round_trip.2 ⟨["shop", "orders"]⟩ hne hdot⟩

end ObjectName

end SqlDdl
