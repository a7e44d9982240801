/-!
# Lines

A line ends at a line feed, a carriage return or both, at the vertical and form feeds, at the three
upper separators, at the next-line character and at the line and paragraph separators.
-/

namespace ImportAssist

def isLineBreak (c : Char) : Bool :=
  let n := c.toNat
  (10 ≤ n && n ≤ 13) || (28 ≤ n && n ≤ 30) || n = 0x85 || n = 0x2028 || n = 0x2029

/-- The lines of a text with their breaks; `line` is the start of the first one in reverse. -/
def linesFrom (line : List Char) : List Char → List (List Char)
  | [] => if line.isEmpty then [] else [line.reverse]
  | '\r' :: '\n' :: rest => ('\n' :: '\r' :: line).reverse :: linesFrom [] rest
  | c :: rest => if isLineBreak c then (c :: line).reverse :: linesFrom [] rest else linesFrom (c :: line) rest

/-- The lines of a text, each with its break. -/
def linesWithBreaks (text : String) : List String := (linesFrom [] text.toList).map String.ofList

/-- The lines of a text without their breaks. -/
def lines (text : String) : List String :=
  (linesFrom [] text.toList).map fun line =>
    String.ofList ((line.reverse.dropWhile isLineBreak).reverse)

end ImportAssist
