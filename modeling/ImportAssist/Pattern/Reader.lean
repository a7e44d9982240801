import ImportAssist.Pattern.Match

/-!
# Reading patterns

`Pattern.read` reads the text of a pattern; it gives nothing for a text that is no pattern.
-/

namespace ImportAssist.Pattern

structure Flags where
  ignoreCase : Bool
  multiline : Bool
  dotAll : Bool
  verbose : Bool
  ascii : Bool
  deriving DecidableEq, Repr

namespace Flags

def none : Flags := ⟨false, false, false, false, false⟩

def union (a b : Flags) : Flags :=
  ⟨a.ignoreCase || b.ignoreCase, a.multiline || b.multiline, a.dotAll || b.dotAll,
    a.verbose || b.verbose, a.ascii || b.ascii⟩

def minus (a b : Flags) : Flags :=
  ⟨a.ignoreCase && !b.ignoreCase, a.multiline && !b.multiline, a.dotAll && !b.dotAll,
    a.verbose && !b.verbose, a.ascii && !b.ascii⟩

def case (f : Flags) : Case :=
  if f.ignoreCase then if f.ascii then .asciiFolded else .folded else .minded

end Flags

/-- A pattern that is being read. -/
structure Source where
  rest : List Char
  /-- The flags set for the whole pattern. -/
  flags : Flags
  /-- How many groups have been opened. -/
  groups : Nat
  names : List (String × Nat)
  /-- The groups that are closed, each with its least and its greatest width. -/
  closed : List (Nat × Nat × Option Nat)
  /-- Groups that a condition refers to. -/
  asked : List Nat
  /-- Inside a look behind: how many groups were open in front of it. -/
  behindLimit : Option Nat

abbrev Reading := StateT Source Option

def peek : Reading (Option Char) := return (← get).rest.head?

def advance (n : Nat) : Reading Unit := modify fun s => { s with rest := s.rest.drop n }

/-- The next character; there has to be one. -/
def take : Reading Char := do
  match (← get).rest with
  | c :: _ => advance 1; pure c
  | [] => failure

/-- Whether a character comes next; if so, it is taken. -/
def accept (c : Char) : Reading Bool := do
  if (← peek) == some c then advance 1; pure true else pure false

def expect (c : Char) : Reading Unit := do if !(← accept c) then failure

/-- The longest run of at most `limit` characters that pass a test. -/
def takeWhile (limit : Nat) (test : Char → Bool) : Reading (List Char) := do
  let run := ((← get).rest.take limit).takeWhile test
  advance run.length
  pure run

def isOctal (c : Char) : Bool := '0' ≤ c && c ≤ '7'

def hexValue? (c : Char) : Option Nat :=
  if c.isDigit then some (c.toNat - 48)
  else if 'a' ≤ c && c ≤ 'f' then some (c.toNat - 87)
  else if 'A' ≤ c && c ≤ 'F' then some (c.toNat - 55)
  else none

/-- The number that digits write in a base. -/
def number (base : Nat) (digits : List Char) : Nat :=
  digits.foldl (fun n c => base * n + (hexValue? c).getD 0) 0

def isAsciiLetter (c : Char) : Bool := c.isAlpha

/-- The character of a code point, if it has one. -/
def charOf? (n : Nat) : Option Char :=
  if n.isValidChar then some (Char.ofNat n) else none

/-- A whole number as it may be written inside angle brackets: white space around it, a plus sign in
front and underscores between digits do no harm. -/
def wholeNumber? (text : List Char) : Option Nat :=
  let inner := (strip (String.ofList text)).toList
  let digits := if inner.head? == some '+' then inner.drop 1 else inner
  let groups := digits.splitOn '_'
  if groups.any List.isEmpty then none else decimalNumber? groups.flatten

/-- Whether a text can be the name of a group. -/
def isGroupName : List Char → Bool
  | [] => false
  | c :: rest => isWordChar c && !isDigit c && rest.all isWordChar

/-- The text up to a closing mark; it must not be empty. -/
def takeUntil (mark : Char) : Reading (List Char) := do
  let text := (← get).rest.takeWhile (· != mark)
  if text.isEmpty then failure
  advance text.length
  expect mark
  pure text

/-! ## Escapes -/

/-- The characters with an escape of their own. -/
def controlEscape? : Char → Option Char
  | 'a' => some '\x07'
  | 'f' => some '\x0c'
  | 'n' => some '\n'
  | 'r' => some '\r'
  | 't' => some '\t'
  | 'v' => some '\x0b'
  | '\\' => some '\\'
  | _ => none

def classEscape? (ascii : Bool) : Char → Option SetItem
  | 'd' => some (.charClass false ascii .decimal)
  | 'D' => some (.charClass true ascii .decimal)
  | 's' => some (.charClass false ascii .blank)
  | 'S' => some (.charClass true ascii .blank)
  | 'w' => some (.charClass false ascii .word)
  | 'W' => some (.charClass true ascii .word)
  | _ => none

/-- The character of exactly `width` hexadecimal digits. -/
def hexEscape (width : Nat) : Reading Char := do
  let digits ← takeWhile width fun c => (hexValue? c).isSome
  if digits.length ≠ width then failure
  match charOf? (number 16 digits) with
  | some c => pure c
  | none => failure

/-- An escape that stands for one character and has the same meaning everywhere. -/
def charEscape (c : Char) : Reading Char :=
  match c with
  | 'x' => hexEscape 2
  | 'u' => hexEscape 4
  | 'U' => hexEscape 8
  | _ => if isAsciiLetter c || c.isDigit then failure else pure c

/-- An octal escape of at most three digits that start with `first`. -/
def octalEscape (first : Char) : Reading Char := do
  let n := number 8 (first :: (← takeWhile 2 isOctal))
  if n > 255 then failure else pure (Char.ofNat n)

/-- Refuses to refer to a group that is open or belongs to the same look behind. -/
def checkGroup (index : Nat) : Reading Unit := do
  let s ← get
  if !(s.closed.any (·.1 == index)) then failure
  match s.behindLimit with
  | some limit => if limit < index then failure
  | none => pure ()

def backReference (flags : Flags) (index : Nat) : Reading Expr := do
  checkGroup index
  pure (.backReference flags.case index)

/-- An item of a pattern, and what a repetition may do with it. -/
inductive Item where
  | plain (expr : Expr)
  /-- Cannot be repeated. -/
  | place (expr : Expr)
  /-- Cannot be repeated again. -/
  | repeated (expr : Expr)

def Item.expr : Item → Expr
  | .plain e | .place e | .repeated e => e

/-- What an escape outside a set stands for. -/
def escape (flags : Flags) : Reading Item := do
  let c ← take
  match classEscape? flags.ascii c, controlEscape? c with
  | some item, _ => pure (.plain (.set .minded false [item]))
  | none, some d => pure (.plain (.char flags.case d))
  | none, none =>
    match c with
    | 'A' => pure (.place (.anchor .textStart))
    | 'Z' => pure (.place (.anchor .textEnd))
    | 'b' => pure (.place (.anchor (.wordBoundary false flags.ascii)))
    | 'B' => pure (.place (.anchor (.wordBoundary true flags.ascii)))
    | '0' => return .plain (.char flags.case (← octalEscape c))
    | _ =>
      if c.isDigit then
        let second ← takeWhile 1 Char.isDigit
        match second, ← peek with
        | [d], some e =>
          if isOctal c && isOctal d && isOctal e then
            advance 1
            let n := number 8 [c, d, e]
            if n > 255 then failure else pure (.plain (.char flags.case (Char.ofNat n)))
          else return .plain (← backReference flags (number 10 [c, d]))
        | _, _ => return .plain (← backReference flags (number 10 (c :: second)))
      else return .plain (.char flags.case (← charEscape c))

/-! ## Sets -/

/-- One end of a range, or a class. -/
def setAtom (flags : Flags) : Reading SetItem := do
  let c ← take
  if c = '\\' then
    let d ← take
    match classEscape? flags.ascii d, controlEscape? d with
    | some item, _ => pure item
    | none, some e => pure (.char e)
    | none, none =>
      if d = 'b' then pure (.char '\x08')
      else if isOctal d then return .char (← octalEscape d)
      else return .char (← charEscape d)
  else pure (.char c)

/-- The items of a set up to its bracket, of which `done` have been read. -/
def setItems (flags : Flags) : Nat → List SetItem → Reading (List SetItem)
  | 0, _ => failure
  | fuel + 1, done => do
    let closes ← if done.isEmpty then pure false else accept ']'
    if closes then pure done
    else
      let first ← setAtom flags
      if ← accept '-' then
        if ← accept ']' then pure (done ++ [first, .char '-'])
        else
          match first, ← setAtom flags with
          | .char low, .char high =>
            if high < low then failure else setItems flags fuel (done ++ [.range low high])
          | _, _ => failure
      else setItems flags fuel (done ++ [first])

/-! ## Repetition -/

/-- The bounds of a repetition in braces; none if the brace is an ordinary character. -/
def braceBounds : Reading (Option (Nat × Option Nat)) := do
  let s ← get
  if (← peek) == some '\x7d' then return none
  let low ← takeWhile s.rest.length Char.isDigit
  let comma ← accept ','
  let high ← if comma then takeWhile s.rest.length Char.isDigit else pure low
  if ← accept '\x7d' then
    let least := number 10 low
    let most := if high.isEmpty then none else some (number 10 high)
    if most.any (· < least) then failure
    return some (least, most)
  else
    set s
    return none

/-- The bounds that a mark of repetition sets; none if the mark is an ordinary character. -/
def bounds (mark : Char) : Reading (Option (Nat × Option Nat)) :=
  match mark with
  | '?' => return some (0, some 1)
  | '*' => return some (0, none)
  | '+' => return some (1, none)
  | _ => braceBounds

/-- An item repeated, with the mark behind the bounds that says how eagerly. -/
def repetition (low : Nat) (high : Option Nat) : Item → Reading Item
  | .place _ | .repeated _ => failure
  | .plain e => do
    if ← accept '?' then pure (.repeated (.loop .lazy none low high e))
    else if ← accept '+' then pure (.repeated (.atomic (.loop .greedy none low high e)))
    else pure (.repeated (.loop .greedy none low high e))

/-! ## Flags -/

def flag? : Char → Option Flags
  | 'i' => some { Flags.none with ignoreCase := true }
  | 'm' => some { Flags.none with multiline := true }
  | 's' => some { Flags.none with dotAll := true }
  | 'x' => some { Flags.none with verbose := true }
  | 'a' => some { Flags.none with ascii := true }
  | 'u' => some Flags.none
  | _ => none

/-- The flags that a run of letters sets. -/
def flagsOf (letters : List Char) : Option Flags :=
  letters.foldl (fun f? c => f?.bind fun f => (flag? c).map f.union) (some Flags.none)

/-- Flags inside a parenthesis, of which the first letter or the minus is `first`: those to set,
those to clear, and whether a body follows. -/
def flagChange (first : Char) : Reading (Flags × Flags × Bool) := do
  let n := (← get).rest.length
  let on ← if first = '-' then pure [] else (first :: ·) <$> takeWhile n Char.isAlpha
  if on.contains 'a' && on.contains 'u' then failure
  let some add := flagsOf on | failure
  let alone ← if first = '-' then pure false else accept ')'
  if alone then return (add, Flags.none, false)
  let minus ← if first = '-' then pure true else accept '-'
  let off ← if minus then takeWhile n Char.isAlpha else pure []
  if minus && off.isEmpty then failure
  if off.any fun c => c = 'a' || c = 'u' || on.contains c then failure
  let some drop := flagsOf off | failure
  expect ':'
  return (add, drop, true)

/-! ## The whole -/

/-- Behind the opening of a group, what kind it is. -/
inductive Opening where
  | capture (name : Option String)
  | plain (flags : Flags)
  | atomic
  | look (behind negated : Bool)
  | condition (index : Nat)
  /-- The item is complete. -/
  | done (item : Option Item)
  /-- Flags for the whole pattern. -/
  | flags (flags : Flags)

def groupIndex (name : List Char) : Reading Nat := do
  match (← get).names.find? (·.1 == String.ofList name) with
  | some (_, n) => pure n
  | none => failure

def opening (flags : Flags) : Reading Opening := do
  if !(← accept '?') then return .capture none
  match ← take with
  | 'P' =>
    if ← accept '<' then
      let name ← takeUntil '>'
      if isGroupName name then return .capture (some (String.ofList name)) else failure
    else if ← accept '=' then
      let name ← takeUntil ')'
      return .done (some (.plain (← backReference flags (← groupIndex name))))
    else failure
  | ':' => return .plain flags
  | '#' =>
    let comment := (← get).rest.takeWhile (· != ')')
    advance comment.length
    expect ')'
    return .done none
  | '=' => return .look false false
  | '!' => return .look false true
  | '<' =>
    match ← take with
    | '=' => return .look true false
    | '!' => return .look true true
    | _ => failure
  | '(' =>
    let name ← takeUntil ')'
    let index ←
      if isGroupName name then groupIndex name
      else
        match wholeNumber? name with
        | some (n + 1) => pure (n + 1)
        | _ => failure
    modify fun s => { s with asked := index :: s.asked }
    if (← get).behindLimit.isSome then checkGroup index
    return .condition index
  | '>' => return .atomic
  | c =>
    let (add, drop, body) ← flagChange c
    if body then return .plain ((flags.union add).minus drop) else return .flags add

def openGroup (name : Option String) : Reading Nat := do
  let s ← get
  let index := s.groups + 1
  match name with
  | none => set { s with groups := index }
  | some text =>
    if s.names.any (·.1 == text) then failure
    set { s with groups := index, names := s.names ++ [(text, index)] }
  pure index

def closeGroup (index : Nat) (body : Expr) : Reading Unit :=
  modify fun s => { s with closed := (index, body.width s.closed) :: s.closed }

/-- The characters that have a meaning of their own. -/
def isSpecial (c : Char) : Bool := ".\\[\x7b()*+?^$|".toList.contains c

/-- In a verbose pattern, white space and comments have no meaning. -/
def skipVerbose (flags : Flags) (c : Char) : Reading Bool := do
  if !flags.verbose then return false
  if " \t\n\r\x0b\x0c".toList.contains c then return true
  if c = '#' then
    let comment := (← get).rest.takeWhile (· != '\n')
    advance (comment.length + 1)
    return true
  return false

/-- The sequence of items, the first of which is the last read. -/
def sequence (items : List Item) : Expr :=
  items.foldl (fun rest item => .seq item.expr rest) .empty

mutual

/-- Alternatives up to a closing parenthesis or the end. -/
def alternatives : Nat → Flags → Bool → Reading Expr
  | 0, _, _ => failure
  | fuel + 1, flags, outermost => do
    let first ← branch fuel flags outermost []
    if ← accept '|' then
      let whole := (← get).flags
      let rest ← alternatives fuel (if outermost then flags.union whole else flags) false
      pure (.alt first rest)
    else pure first

/-- The items of one alternative behind `done`, which stand in reverse. Flags for the whole pattern
may be set only where `leading` holds and nothing stands in front of them. -/
def branch : Nat → Flags → Bool → List Item → Reading Expr
  | 0, _, _, _ => failure
  | fuel + 1, flags, leading, done => do
    match ← peek with
    | none | some '|' | some ')' => pure (sequence done)
    | some c =>
      advance 1
      if ← skipVerbose flags c then branch fuel flags leading done
      else if !isSpecial c then
        branch fuel flags leading (.plain (.char flags.case c) :: done)
      else
        match c with
        | '\\' => branch fuel flags leading ((← escape flags) :: done)
        | '.' => branch fuel flags leading (.plain (.any flags.dotAll) :: done)
        | '^' =>
          let a := if flags.multiline then Anchor.lineStart else .textStart
          branch fuel flags leading (.place (.anchor a) :: done)
        | '$' =>
          let a := if flags.multiline then Anchor.lineEnd else .finalEnd
          branch fuel flags leading (.place (.anchor a) :: done)
        | '[' =>
          let negated ← accept '^'
          let items ← setItems flags fuel []
          branch fuel flags leading (.plain (.set flags.case negated items) :: done)
        | '(' =>
          match ← opening flags with
          | .done none => branch fuel flags leading done
          | .done (some item) => branch fuel flags leading (item :: done)
          | .flags add =>
            if !leading || !done.isEmpty then failure
            modify fun s => { s with flags := s.flags.union add }
            branch fuel (flags.union add) leading done
          | .capture name =>
            let index ← openGroup name
            let body ← alternatives fuel flags false
            expect ')'
            closeGroup index body
            branch fuel flags leading (.plain (.group index body) :: done)
          | .plain inner =>
            let body ← alternatives fuel inner false
            expect ')'
            branch fuel flags leading (.plain body :: done)
          | .atomic =>
            let body ← alternatives fuel flags false
            expect ')'
            branch fuel flags leading (.plain (.atomic body) :: done)
          | .look false negated =>
            let body ← alternatives fuel flags false
            expect ')'
            branch fuel flags leading (.plain (.ahead negated body) :: done)
          | .look true negated =>
            let outer := (← get).behindLimit
            modify fun s => { s with behindLimit := some (outer.getD s.groups) }
            let body ← alternatives fuel flags false
            modify fun s => { s with behindLimit := outer }
            expect ')'
            let (low, high) := body.width (← get).closed
            if high ≠ some low then failure
            branch fuel flags leading (.plain (.behind negated low body) :: done)
          | .condition index =>
            let yes ← branch fuel flags false []
            let no ← if ← accept '|' then branch fuel flags false [] else pure .empty
            expect ')'
            branch fuel flags leading (.plain (.ifGroup index yes no) :: done)
        | _ =>
          match ← bounds c with
          | none => branch fuel flags leading (.plain (.char flags.case c) :: done)
          | some (low, high) =>
            match done with
            | [] => failure
            | item :: earlier =>
              let item ← repetition low high item
              branch fuel flags leading (item :: earlier)

end

/-- The pattern that a text describes. -/
def read (text : String) : Option Compiled :=
  let chars := text.toList
  let source : Source := ⟨chars, Flags.none, 0, [], [], [], none⟩
  match (alternatives (2 * chars.length + 2) Flags.none true).run source with
  | some (expr, s) =>
    if s.rest.isEmpty && s.asked.all (· ≤ s.groups) then some ⟨expr, s.groups, s.names⟩ else none
  | none => none

end ImportAssist.Pattern
