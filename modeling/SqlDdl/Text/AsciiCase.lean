/-!
# Comparing text without regard to ASCII case

Dialect words such as `USING` or `ENGINE`, and the names looked up in an option table, are
matched with ASCII case folding only: `a` to `z` meet `A` to `Z`, and every other character must
be the same. So `engine` is `ENGINE`, while `é` is not `É`.
-/

namespace SqlDdl.Text

/-- The characters of a text with the ASCII capitals `A` to `Z` turned into small letters. -/
def asciiLower (s : String) : List Char :=
  s.toList.map Char.toLower

/-- Whether two texts are equal once ASCII capitals are folded into small letters. -/
def equalsIgnoringAsciiCase (a b : String) : Bool :=
  asciiLower a == asciiLower b

end SqlDdl.Text
