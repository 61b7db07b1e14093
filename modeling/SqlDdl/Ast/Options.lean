import SqlDdl.Text.UpperCase
import SqlDdl.Text.AsciiCase
/-!
# Table options

The options after a table definition, such as `ENGINE=InnoDB`, as a table from names to values
that keeps the order in which names first came. A name is stored in its full upper case, and
setting a name that is already there replaces the value of its first entry. A name is looked up with
ASCII case folding, so `engine` finds `ENGINE`, but `é` does not find `É`.
-/

namespace SqlDdl

/-- Named option values, in the order the names first came; no name occurs twice. -/
structure TableOptions where
  entries : List (String × String) := []
  deriving DecidableEq, Repr

namespace TableOptions

/-- The entries with the value of the first entry under `key` set to `value`; none when no entry
is under `key`. -/
def setFirst (key value : String) : List (String × String) → Option (List (String × String))
  | [] => none
  | e :: es =>
    if e.1 == key then some ((e.1, value) :: es) else (setFirst key value es).map (e :: ·)

/-- Sets the value of a name, stored in its full upper case: in the first entry under that name
when there is one, else in a new entry at the end. -/
def insert (o : TableOptions) (name value : String) : TableOptions :=
  let key := Text.toUpperCase name
  match setFirst key value o.entries with
  | some entries => ⟨entries⟩
  | none => ⟨o.entries ++ [(key, value)]⟩

/-- The value of the first name that equals `name` up to ASCII case. -/
def get? (o : TableOptions) (name : String) : Option String :=
  (o.entries.find? (Text.equalsIgnoringAsciiCase ·.1 name)).map (·.2)

/-- The number of names. -/
def size (o : TableOptions) : Nat := o.entries.length

/-- Whether the table holds no name. -/
def isEmpty (o : TableOptions) : Bool := o.entries.isEmpty

/-- The names in the table, in the order they first came. -/
def names (o : TableOptions) : List String := o.entries.map (·.1)

theorem setFirst_eq_none_iff {key value : String} {l : List (String × String)} :
    setFirst key value l = none ↔ key ∉ l.map (·.1) := by
  fun_induction setFirst key value l with
  | case1 => simp
  | case2 e es hk =>
    simp only [beq_iff_eq] at hk
    simp [hk]
  | case3 e es hk ih =>
    have hne : key ≠ e.1 := fun h => hk (by simp [h])
    simp [ih, hne]

theorem names_setFirst {key value : String} {l l' : List (String × String)}
    (h : setFirst key value l = some l') : l'.map (·.1) = l.map (·.1) := by
  fun_induction setFirst key value l generalizing l' with
  | case1 => cases h
  | case2 e es _ =>
    cases h
    rfl
  | case3 e es _ ih =>
    obtain ⟨es', hes, rfl⟩ := Option.map_eq_some_iff.1 h
    simp [ih hes]

theorem entries_insert_of_setFirst {o : TableOptions} {name value : String}
    {l : List (String × String)} (h : setFirst (Text.toUpperCase name) value o.entries = some l) :
    (o.insert name value).entries = l := by
  simp only [insert, h]

theorem entries_insert_of_not_mem {o : TableOptions} {name : String} (value : String)
    (h : Text.toUpperCase name ∉ o.names) :
    (o.insert name value).entries = o.entries ++ [(Text.toUpperCase name, value)] := by
  simp only [insert, setFirst_eq_none_iff.2 h]

/-- Setting a value keeps the names when its upper-cased name is there, and adds that name at
the end otherwise. -/
theorem names_insert (o : TableOptions) (name value : String) :
    (o.insert name value).names =
      if Text.toUpperCase name ∈ o.names then o.names
      else o.names ++ [Text.toUpperCase name] := by
  split
  · next hmem =>
    cases h : setFirst (Text.toUpperCase name) value o.entries with
    | none => exact absurd hmem (setFirst_eq_none_iff.1 h)
    | some l =>
      unfold names
      rw [entries_insert_of_setFirst h]
      exact names_setFirst h
  · next hmem =>
    unfold names
    rw [entries_insert_of_not_mem value hmem, List.map_append]
    rfl

/-- The table holds as many values as names. -/
theorem size_eq_length_names (o : TableOptions) : o.size = o.names.length := by
  simp [size, names]

/-- A table is empty exactly when it has no names. -/
theorem isEmpty_iff (o : TableOptions) : o.isEmpty = true ↔ o.names = [] := by
  simp [isEmpty, names]

end TableOptions

end SqlDdl
