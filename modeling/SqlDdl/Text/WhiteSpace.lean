import SqlDdl.Text.CodeRange
/-!
# White space

The characters with the Unicode property White_Space: the ASCII tab, line feed, vertical tab,
form feed, carriage return and space, next line, no-break space, ogham space mark, the spaces
U+2000 to U+200A, line and paragraph separators, narrow no-break space, medium mathematical space
and ideographic space. Blanks between tokens and the ends trimmed from a cached text are these
characters.
-/

namespace SqlDdl.Text

/-- The code point ranges of White_Space. -/
def whiteSpaceRanges : List CodeRange :=
  [⟨0x9, 0xD⟩, ⟨0x20, 0x20⟩, ⟨0x85, 0x85⟩, ⟨0xA0, 0xA0⟩, ⟨0x1680, 0x1680⟩, ⟨0x2000, 0x200A⟩,
   ⟨0x2028, 0x2029⟩, ⟨0x202F, 0x202F⟩, ⟨0x205F, 0x205F⟩, ⟨0x3000, 0x3000⟩]

/-- Whether a character has the Unicode property White_Space. -/
def isWhiteSpace (c : Char) : Bool :=
  CodeRange.anyContains whiteSpaceRanges c.toNat

/-- The text with White_Space removed from both ends. -/
def trimWhiteSpace (s : String) : String :=
  String.ofList ((s.toList.dropWhile isWhiteSpace).reverse.dropWhile isWhiteSpace).reverse

end SqlDdl.Text
