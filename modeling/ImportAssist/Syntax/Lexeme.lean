import ImportAssist.Text.Utf8

/-!
# Lexemes

The words and literals of the scripting language, each as a function from the glyphs ahead to the
number of glyphs it takes. A length of zero, or `none`, means that nothing of that class stands
there.
-/

namespace ImportAssist.Lexeme

/-! ## Character classes -/

/-- White space between tokens: the ASCII controls from tab to carriage return, and the spaces,
separators and marks without width of Unicode. -/
def isBlank (c : Char) : Bool :=
  let n := c.toNat
  (9 ≤ n && n ≤ 13) || n = 0x20 || n = 0xA0 || n = 0x1680 || (0x2000 ≤ n && n ≤ 0x200B) ||
    n = 0x2028 || n = 0x2029 || n = 0x202F || n = 0x205F || n = 0x2060 || n = 0x3000 || n = 0xFEFF

/-- Where a line comment ends. -/
def isLineEnd (c : Char) : Bool :=
  c = '\n' || c = '\r' || c = '\u2028' || c = '\u2029'

def isPunctuation (c : Char) : Bool :=
  ":;`\"'@#.,|^&<=>+-*/\\%?!~()[]\x7b\x7d".toList.contains c

/-- A glyph that may stand in a word; digits may not start one. -/
def isWordGlyph (g : Glyph) : Bool :=
  g.valid && g.char.toNat > 0x1F && !isBlank g.char && !isPunctuation g.char

def isHexDigit (c : Char) : Bool :=
  c.isDigit || ('a' ≤ c && c ≤ 'f') || ('A' ≤ c && c ≤ 'F')

/-! ## Runs -/

/-- How many glyphs at the front satisfy a test. -/
def runLength (test : Char → Bool) : List Glyph → Nat
  | [] => 0
  | g :: rest => if g.valid && test g.char then runLength test rest + 1 else 0

/-- Length of `text` if the glyphs start with it. -/
def literal : List Char → List Glyph → Bool
  | [], _ => true
  | _ :: _, [] => false
  | c :: cs, g :: rest => g.valid && g.char == c && literal cs rest

/-- Whether the next glyph is one of the given characters. -/
def nextIn (chars : List Char) : List Glyph → Bool
  | [] => false
  | g :: _ => g.valid && chars.contains g.char

/-! ## Words -/

/-- Length of an escape that stands for a character of a word: `u`, then four hexadecimal digits
or any number of them in braces, after the backslash. -/
def wordEscape : List Glyph → Option Nat
  | b :: u :: rest =>
    if b.char == '\\' && u.char == 'u' then
      match rest with
      | g :: more =>
        if g.char == '\x7b' then
          let n := runLength isHexDigit more
          if 0 < n && nextIn ['\x7d'] (more.drop n) then some (n + 4) else none
        else if 4 ≤ runLength isHexDigit (rest.take 4) then some 6 else none
      | [] => none
    else none
  | _ => none

/-- Glyphs of a word, of which the first `skip` belong to an escape. -/
def wordFrom : Nat → List Glyph → Nat
  | _, [] => 0
  | skip + 1, _ :: rest => wordFrom skip rest + 1
  | 0, g :: rest =>
    if isWordGlyph g then wordFrom 0 rest + 1
    else
      match wordEscape (g :: rest) with
      | some n => wordFrom (n - 1) rest + 1
      | none => 0

/-- Length of the word ahead. -/
def word (gs : List Glyph) : Nat :=
  match gs with
  | g :: _ => if g.char.isDigit then 0 else wordFrom 0 gs
  | [] => 0

/-- A name with dashes, as markup allows in tags and attributes. -/
def dashedName (gs : List Glyph) : Nat :=
  let ordinary (c : Char) : Bool := c.isAlphanum || c == '_' || c == '$'
  match gs with
  | g :: _ =>
    if g.char.isDigit then 0
    else
      let n := runLength ordinary gs
      if 0 < n && nextIn ['-'] (gs.drop n) then
        n + runLength (fun c => ordinary c || c == '-') (gs.drop n)
      else 0
  | [] => 0

/-! ## Comments -/

/-- Glyphs up to the end of the line. -/
def restOfLine : List Glyph → Nat
  | [] => 0
  | g :: rest => if isLineEnd g.char then 0 else restOfLine rest + 1

/-- Glyphs up to and including the end mark of a block comment. -/
def toBlockEnd : List Glyph → Option Nat
  | [] => none
  | g :: rest =>
    if g.char == '*' && nextIn ['/'] rest then some 2 else (toBlockEnd rest).map (· + 1)

def comment : List Glyph → Option Nat
  | a :: b :: rest =>
    if a.char == '/' && b.char == '/' then some (restOfLine rest + 2)
    else if a.char == '/' && b.char == '*' then (toBlockEnd rest).map (· + 2)
    else none
  | _ => none

/-- The interpreter line a script may start with. -/
def hashBang (gs : List Glyph) : Option Nat :=
  if literal "#!".toList gs then
    some (gs.takeWhile fun g => g.char != '\n' && g.char != '\r').length
  else none

/-- The old comment marks of pages: they hide the rest of the line. -/
def markupComment (gs : List Glyph) : Option Nat :=
  if literal "<!--".toList gs || literal "-->".toList gs then some (restOfLine gs) else none

/-! ## Strings -/

/-- Length of what a backslash in a string stands before. -/
def escapeTail : List Glyph → Option Nat
  | [] => none
  | g :: rest =>
    if g.char == 'x' then
      if 2 ≤ runLength isHexDigit (rest.take 2) then some 3 else none
    else if g.char == 'u' then
      if nextIn ['\x7b'] rest then
        let n := runLength isHexDigit (rest.drop 1)
        if 0 < n && nextIn ['\x7d'] (rest.drop (n + 1)) then some (n + 3) else none
      else if 4 ≤ runLength isHexDigit (rest.take 4) then some 5 else none
    else if g.char == '\r' && nextIn ['\n'] rest then some 2
    else some 1

/-- Glyphs up to and including the closing quote; `skip` of them belong to an escape. -/
def toQuote (quote : Char) : Nat → List Glyph → Option Nat
  | _, [] => none
  | skip + 1, _ :: rest => (toQuote quote skip rest).map (· + 1)
  | 0, g :: rest =>
    if g.char == quote then some 1
    else if g.char == '\n' || g.char == '\r' then none
    else if g.char == '\\' then
      match escapeTail rest with
      | some n => (toQuote quote n rest).map (· + 1)
      | none => none
    else (toQuote quote 0 rest).map (· + 1)

def string : List Glyph → Option Nat
  | g :: rest => if g.char == '\x27' || g.char == '"' then (toQuote g.char 0 rest).map (· + 1) else none
  | [] => none

/-- An attribute's string: no escapes, and it may run over several lines. -/
def markupString : List Glyph → Option Nat
  | g :: rest =>
    if g.char == '\x27' || g.char == '"' then
      let n := runLength (· != g.char) rest
      if nextIn [g.char] (rest.drop n) then some (n + 2) else none
    else none
  | [] => none

/-- The literal part of a template up to a substitution or the closing backtick. -/
def templateFrom : Nat → List Glyph → Option Nat
  | _, [] => none
  | skip + 1, _ :: rest => (templateFrom skip rest).map (· + 1)
  | 0, g :: rest =>
    if g.char == '\x60' then some 0
    else if g.char == '$' && nextIn ['\x7b'] rest then some 0
    else if g.char == '\\' then
      match escapeTail rest with
      | some n => (templateFrom n rest).map (· + 1)
      | none => none
    else (templateFrom 0 rest).map (· + 1)

def templateText (gs : List Glyph) : Option Nat :=
  match templateFrom 0 gs with
  | some (n + 1) => some (n + 1)
  | _ => none

/-! ## Numbers and regular expressions -/

/-- Digits with single underscores between them. -/
def digitsFrom (test : Char → Bool) : Bool → List Glyph → Nat
  | _, [] => 0
  | start, g :: rest =>
    if g.valid && test g.char then digitsFrom test false rest + 1
    else if g.char == '_' && !start && (match rest with | h :: _ => test h.char | [] => false) then
      digitsFrom test false rest + 1
    else 0

def digits (test : Char → Bool) (gs : List Glyph) : Nat := digitsFrom test true gs

/-- A sign and digits after an exponent mark. -/
def exponent : List Glyph → Nat
  | g :: rest =>
    if g.char == 'e' || g.char == 'E' then
      let signed := if nextIn ['+', '-'] rest then 1 else 0
      let n := digits Char.isDigit (rest.drop signed)
      if 0 < n then n + signed + 1 else 0
    else 0
  | [] => 0

/-- A prefixed integer such as `0xFF`, with the digits of its base. -/
def radix : List Glyph → Option Nat
  | z :: x :: rest =>
    if z.char == '0' then
      let test : Option (Char → Bool) :=
        if x.char == 'x' || x.char == 'X' then some isHexDigit
        else if x.char == 'o' || x.char == 'O' then some fun c => '0' ≤ c && c ≤ '7'
        else if x.char == 'b' || x.char == 'B' then some fun c => c == '0' || c == '1'
        else none
      match test with
      | some t =>
        let n := digits t rest
        if 0 < n then some (n + 2) else none
      | none => none
    else none
  | _ => none

/-- One if the suffix of a big integer follows. -/
def bigSuffix (gs : List Glyph) : Nat := if nextIn ['n'] gs then 1 else 0

def decimal (gs : List Glyph) : Option Nat :=
  let whole := digits Char.isDigit gs
  let rest := gs.drop whole
  if nextIn ['.'] rest then
    let fraction := digits Char.isDigit (rest.drop 1)
    if 0 < whole + fraction then
      some (whole + 1 + fraction + exponent (rest.drop (fraction + 1)))
    else none
  else if 0 < whole then
    let e := exponent rest
    if 0 < e then some (whole + e) else some (whole + bigSuffix rest)
  else none

def number (gs : List Glyph) : Option Nat :=
  match radix gs with
  | some n => some (n + bigSuffix (gs.drop n))
  | none => decimal gs

/-- Glyphs of a regular expression's body up to its closing slash. -/
def regexFrom (inClass : Bool) (skip : Nat) : List Glyph → Option Nat
  | [] => none
  | g :: rest =>
    if isLineEnd g.char then none
    else if 0 < skip then (regexFrom inClass (skip - 1) rest).map (· + 1)
    else if g.char == '\\' then (regexFrom inClass 1 rest).map (· + 1)
    else if g.char == '[' then (regexFrom true 0 rest).map (· + 1)
    else if g.char == ']' then (regexFrom false 0 rest).map (· + 1)
    else if g.char == '/' && !inClass then some 0
    else (regexFrom inClass 0 rest).map (· + 1)

def regex : List Glyph → Option Nat
  | g :: rest =>
    if g.char == '/' then
      match regexFrom false 0 rest with
      | some (n + 1) =>
        some (n + 3 + runLength (fun c => 'a' ≤ c && c ≤ 'z') (rest.drop (n + 2)))
      | _ => none
    else none
  | [] => none

/-! ## Markup text -/

/-- Text between tags. -/
def markupText (gs : List Glyph) : Option Nat :=
  let n := (gs.takeWhile fun g => !(['<', '>', '\x7b', '\x7d', '&'].contains g.char)).length
  if 0 < n then some n else none

/-- A character reference such as `&amp;` or `&#10;`. -/
def characterReference : List Glyph → Option Nat
  | g :: rest =>
    if g.char == '&' then
      let body : Nat :=
        if nextIn ['#'] rest then
          let numeral := rest.drop 1
          if nextIn ['x', 'X'] numeral then
            let n := runLength isHexDigit (numeral.drop 1)
            if 0 < n && n ≤ 6 then n + 2 else 0
          else
            let n := runLength Char.isDigit numeral
            if 0 < n && n ≤ 5 then n + 1 else 0
        else
          let n := runLength Char.isAlpha rest
          if n ≤ 30 then n else 0
      if 0 < body && nextIn [';'] (rest.drop body) then some (body + 2) else none
    else none
  | [] => none

/-- A name that belongs to a class alone. -/
def privateName : List Glyph → Option Nat
  | g :: rest => if g.char == '#' && 0 < word rest then some (word rest + 1) else none
  | [] => none

/-! ## Classes -/

/-- The classes of literals that a grammar names. -/
inductive Class where
  | string | markupString | templateText | number | regex | markupText | characterReference
  | privateName | dashedName | markupComment
  deriving DecidableEq, Repr

/-- Length of the literal of a class. -/
def Class.scan : Class → List Glyph → Option Nat
  | .string, gs => Lexeme.string gs
  | .markupString, gs => Lexeme.markupString gs
  | .templateText, gs => Lexeme.templateText gs
  | .number, gs => Lexeme.number gs
  | .regex, gs => Lexeme.regex gs
  | .markupText, gs => Lexeme.markupText gs
  | .characterReference, gs => Lexeme.characterReference gs
  | .privateName, gs => Lexeme.privateName gs
  | .dashedName, gs => if Lexeme.dashedName gs = 0 then none else some (Lexeme.dashedName gs)
  | .markupComment, gs => Lexeme.markupComment gs

/-! ## Bracketed groups

Deciding whether a bracket opens parameters or an expression needs a look past its partner.
`group` finds the partner without parsing what lies between: it only keeps strings, templates and
comments apart from brackets. -/

/-- What a group is inside of: a bracket and the character that closes it, or a template. -/
inductive Frame where
  | bracket (close : Char)
  | template
  deriving DecidableEq, Repr

/-- What the next glyph is part of. -/
inductive Mode where
  | code
  /-- Part of an escape or of a mark already recognised. -/
  | skip
  | quoted (quote : Char) (escaped : Bool)
  | line
  | block
  deriving DecidableEq, Repr

def closer (c : Char) : Option Char :=
  if c == '(' then some ')'
  else if c == '[' then some ']'
  else if c == '\x7b' then some '\x7d'
  else none

def groupFrom : List Frame → Mode → List Glyph → Option Nat
  | _, _, [] => none
  | frames, mode, g :: rest =>
    let step (frames : List Frame) (mode : Mode) : Option Nat :=
      (groupFrom frames mode rest).map (· + 1)
    match mode with
    | .skip => step frames .code
    | .line => if isLineEnd g.char then step frames .code else step frames .line
    | .block => if g.char == '*' && nextIn ['/'] rest then step frames .skip else step frames .block
    | .quoted q true => step frames (.quoted q false)
    | .quoted q false =>
      if g.char == q then step frames .code
      else if g.char == '\\' then step frames (.quoted q true)
      else if isLineEnd g.char then none
      else step frames (.quoted q false)
    | .code =>
      match frames with
      | .template :: outer =>
        if g.char == '\x60' then step outer .code
        else if g.char == '\\' then step frames .skip
        else if g.char == '$' && nextIn ['\x7b'] rest then
          step (.bracket '\x7d' :: frames) .skip
        else step frames .code
      | _ =>
        if g.char == '/' && nextIn ['/'] rest then step frames .line
        else if g.char == '/' && nextIn ['*'] rest then
          -- the star that opens the comment must not also close it
          if literal "/*/".toList (g :: rest) then none else step frames .block
        else if g.char == '\x27' || g.char == '"' then step frames (.quoted g.char false)
        else if g.char == '\x60' then step (.template :: frames) .code
        else
          match closer g.char with
          | some close => step (.bracket close :: frames) .code
          | none =>
            if g.char == ')' || g.char == ']' || g.char == '\x7d' then
              match frames with
              | .bracket close :: outer =>
                if g.char == close then if outer.isEmpty then some 1 else step outer .code else none
              | _ => none
            else step frames .code

/-- Length of a group from its opening bracket to its partner. -/
def group : List Glyph → Option Nat
  | g :: rest =>
    match closer g.char with
    | some close => (groupFrom [.bracket close] .code rest).map (· + 1)
    | none => none
  | [] => none

end ImportAssist.Lexeme
