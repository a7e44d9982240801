import ImportAssist.Text.CharRanges

/-!
# White space

The characters that count as white space in a line of text, and cutting them off its ends.
-/

namespace ImportAssist

/-- The white-space characters. -/
def blankRanges : CharRanges :=
  [(9, 13), (28, 32), (133, 133), (160, 160), (5760, 5760), (8192, 8202), (8232, 8233), (8239,
   8239), (8287, 8287), (12288, 12288)]

def isBlank (c : Char) : Bool := blankRanges.contains c

/-- A text without the white space at its ends. -/
def strip (text : String) : String :=
  String.ofList (((text.toList.dropWhile isBlank).reverse.dropWhile isBlank).reverse)

end ImportAssist
