import ImportAssist.Data.Json

/-!
# Reading JSON

`Json.read` reads a whole text. At a fault of the text it says what was expected and at which character;
`ReadError.message` adds the line and the column, both counted from one. `NaN`, `Infinity` and
`-Infinity` are numbers.

Some texts are not read although they have no fault. There is a limit to the digits of a whole number and one to the
depth in which lists and objects stand in each other (`Limit`). And a string may have surrogates that are no pair. It is
no text then, and such values are left out here: reading stops at them (`Stop.surrogate`).
-/

namespace ImportAssist.Json

/-- What can be wrong with a text. -/
inductive Fault where
  | value | propertyName | colon | comma | extraData | unterminatedString | controlCharacter
  | escape | unicodeEscape | byteOrderMark
  deriving DecidableEq, Repr

def Fault.text : Fault → String
  | .value => "Expecting value"
  | .propertyName => "Expecting property name enclosed in double quotes"
  | .colon => "Expecting ':' delimiter"
  | .comma => "Expecting ',' delimiter"
  | .extraData => "Extra data"
  | .unterminatedString => "Unterminated string starting at"
  | .controlCharacter => "Invalid control character at"
  | .escape => "Invalid \\escape"
  | .unicodeEscape => "Invalid \\uXXXX escape"
  | .byteOrderMark => "Unexpected UTF-8 BOM (decode using utf-8-sig)"

/-- A fault and the index of the character it was found at. -/
structure ReadError where
  fault : Fault
  index : Nat
  deriving DecidableEq, Repr

/-- What keeps a text from being read although it may be JSON. -/
inductive Limit where
  /-- A whole number has too many digits. -/
  | digits
  /-- Lists and objects stand in each other too deep. -/
  | depth
  deriving DecidableEq, Repr

/-- What ends the reading of a text before there is a value. -/
inductive Stop where
  | fault (error : ReadError)
  | limit (limit : Limit)
  /-- A string with a surrogate that is no half of a pair. -/
  | surrogate
  deriving DecidableEq, Repr

/-- The message for a fault in `text`. -/
def ReadError.message (e : ReadError) (text : String) : String :=
  let before := text.toList.take e.index
  let line := before.count '\n' + 1
  let column := (before.reverse.takeWhile (· != '\n')).length + 1
  s!"{e.fault.text}: line {line} column {column} (char {e.index})"

/-- The text ahead and the index it starts at. -/
structure Position where
  index : Nat
  rest : List Char

/-- A fault at a character. -/
def failAt {α : Type} (index : Nat) (fault : Fault) : Except Stop α := .error (.fault ⟨fault, index⟩)

def Position.fail {α : Type} (p : Position) (fault : Fault) : Except Stop α := failAt p.index fault

def Position.drop (p : Position) (n : Nat) : Position := ⟨p.index + n, p.rest.drop n⟩

def isSpace (c : Char) : Bool := c = ' ' || c = '\t' || c = '\n' || c = '\r'

def Position.skipSpace (p : Position) : Position :=
  p.drop (p.rest.takeWhile isSpace).length

/-! ## Strings -/

def hexValue? (c : Char) : Option Nat :=
  if c.isDigit then some (c.toNat - 48)
  else if 'a' ≤ c && c ≤ 'f' then some (c.toNat - 87)
  else if 'A' ≤ c && c ≤ 'F' then some (c.toNat - 55)
  else none

/-- The value of four hexadecimal digits at the front. -/
def unit? : List Char → Option Nat
  | a :: b :: c :: d :: _ => do
    let a ← hexValue? a
    let b ← hexValue? b
    let c ← hexValue? c
    let d ← hexValue? d
    pure (((a * 16 + b) * 16 + c) * 16 + d)
  | _ => none

def simpleEscape? (c : Char) : Option Char :=
  if c = '"' || c = '\\' || c = '/' then some c
  else if c = 'b' then some (Char.ofNat 8)
  else if c = 'f' then some (Char.ofNat 12)
  else if c = 'n' then some '\n'
  else if c = 'r' then some '\r'
  else if c = 't' then some '\t'
  else none

/-- What follows `\u`: the character, and how many characters of the text name it. A high surrogate
joins with a low one behind it; alone neither is a character. -/
def unicodeEscape? (rest : List Char) : Option (Option Char × Nat) :=
  match unit? rest with
  | none => none
  | some high =>
    if rest.length ≤ 4 then none
    else if 0xD800 ≤ high && high ≤ 0xDBFF then
      match rest.drop 4 with
      | '\\' :: 'u' :: more =>
        match unit? more with
        | some low =>
          if 0xDC00 ≤ low && low ≤ 0xDFFF then
            some (some (Char.ofNat (0x10000 + (high - 0xD800) * 0x400 + (low - 0xDC00))), 10)
          else some (none, 4)
        | none => some (none, 4)
      | _ => some (none, 4)
    else if 0xDC00 ≤ high && high ≤ 0xDFFF then some (none, 4)
    else some (some (Char.ofNat high), 4)

/-- Reads on inside a string that started at `start`; `skip` characters belong to an escape. -/
def stringFrom (start : Nat) :
    Nat → List Char → Nat → List Char → Except Stop (String × Position)
  | _, _, _, [] => failAt start .unterminatedString
  | skip + 1, done, index, _ :: rest => stringFrom start skip done (index + 1) rest
  | 0, done, index, c :: rest =>
    if c = '"' then .ok (String.ofList done.reverse, ⟨index + 1, rest⟩)
    else if c.toNat < 32 then failAt index .controlCharacter
    else if c = '\\' then
      match rest with
      | [] => failAt start .unterminatedString
      | 'u' :: more =>
        match unicodeEscape? more with
        | some (some value, n) => stringFrom start (n + 1) (value :: done) (index + 1) rest
        | some (none, _) => .error .surrogate
        | none => failAt (index + 1) .unicodeEscape
      | e :: _ =>
        match simpleEscape? e with
        | some value => stringFrom start 1 (value :: done) (index + 1) rest
        | none => failAt index .escape
    else stringFrom start 0 (c :: done) (index + 1) rest

/-! ## Numbers -/

/-- The value of a digit string. -/
def natOfDigits (digits : List Char) : Nat :=
  digits.foldl (fun n c => n * 10 + (c.toNat - 48)) 0

/-- The most digits of a whole number that is read. -/
def maxDigits : Nat := 4300

/-- A whole number, unless it has too many digits. -/
def wholeNumber (negative : Bool) (digits : List Char) : Except Stop Json :=
  if maxDigits < digits.length then .error (.limit .digits)
  else
    let n : Int := natOfDigits digits
    .ok (.int (if negative then -n else n))

/-- The nearest double to `digits * 10 ^ exponent`; far beyond the range of doubles it is zero or
infinite whatever the digits. -/
def nearestFloat (negative : Bool) (digits : List Char) (exponent : Int) : Float :=
  let m := natOfDigits digits
  let size : Int := exponent + digits.length
  let x :=
    if m = 0 || size < -400 then 0.0
    else if 400 < size then 1.0 / 0.0
    else if 0 ≤ exponent then Float.ofScientific m false exponent.toNat
    else Float.ofScientific m true (-exponent).toNat
  if negative then -x else x

/-- The number at the front: the value and its length. -/
def number? (text : List Char) : Option (Except Stop Json × Nat) :=
  let negative := text.head? == some '-'
  let signed := if negative then 1 else 0
  let body := text.drop signed
  let run := body.takeWhile Char.isDigit
  let whole := if run.head? == some '0' then ['0'] else run
  if whole.isEmpty then none
  else
    let after := body.drop whole.length
    let fraction := match after with
      | '.' :: more => more.takeWhile Char.isDigit
      | _ => []
    let afterFraction := if fraction.isEmpty then after else after.drop (fraction.length + 1)
    let exponent : Option (Bool × List Char × Nat) := match afterFraction with
      | e :: more =>
        if e = 'e' || e = 'E' then
          let down := more.head? == some '-'
          let sign := if down || more.head? == some '+' then 1 else 0
          let digits := (more.drop sign).takeWhile Char.isDigit
          if digits.isEmpty then none else some (down, digits, digits.length + sign + 1)
        else none
      | [] => none
    let size := signed + whole.length + (if fraction.isEmpty then 0 else fraction.length + 1)
    match exponent with
    | some (down, digits, n) =>
      let e : Int := natOfDigits digits
      let e := (if down then -e else e) - fraction.length
      some (.ok (.float (nearestFloat negative (whole ++ fraction) e)), size + n)
    | none =>
      if fraction.isEmpty then some (wholeNumber negative whole, size)
      else some (.ok (.float (nearestFloat negative (whole ++ fraction) (-(fraction.length : Int)))), size)

/-- The words that stand for values. -/
def words : List (String × Json) :=
  [("null", .null), ("true", .bool true), ("false", .bool false), ("NaN", .float (0.0 / 0.0)),
    ("Infinity", .float (1.0 / 0.0)), ("-Infinity", .float (-1.0 / 0.0))]

/-! ## Values -/

/-- The items of an array after its first. -/
def items (value : Position → Except Stop (Json × Position)) :
    Nat → List Json → Position → Except Stop (Json × Position)
  | 0, _, p => p.fail .value
  | fuel + 1, done, p => do
    let (v, p) ← value p
    let p := p.skipSpace
    match p.rest with
    | ']' :: _ => pure (.arr (v :: done).reverse, p.drop 1)
    | ',' :: _ => items value fuel (v :: done) (p.drop 1).skipSpace
    | _ => p.fail .comma

/-- The members of an object that is not empty. -/
def members (value : Position → Except Stop (Json × Position)) :
    Nat → List (String × Json) → Position → Except Stop (Json × Position)
  | 0, _, p => p.fail .value
  | fuel + 1, done, p =>
    match p.rest with
    | '"' :: rest => do
      let (key, p) ← stringFrom p.index 0 [] (p.index + 1) rest
      let p := p.skipSpace
      match p.rest with
      | ':' :: _ => do
        let (v, p) ← value (p.drop 1).skipSpace
        let done := setMember key v done
        let p := p.skipSpace
        match p.rest with
        | '\x7d' :: _ => pure (.obj done, p.drop 1)
        | ',' :: _ => members value fuel done (p.drop 1).skipSpace
        | _ => p.fail .comma
      | _ => p.fail .colon
    | _ => p.fail .propertyName

/-- The string, number or word at a position. -/
def simpleValue (p : Position) : Except Stop (Json × Position) :=
  match p.rest with
  | '"' :: rest => do
    let (s, p) ← stringFrom p.index 0 [] (p.index + 1) rest
    pure (.str s, p)
  | _ =>
    match number? p.rest with
    | some (v, n) => v.map fun v => (v, p.drop n)
    | none =>
      match words.find? fun w => w.1.toList.isPrefixOf p.rest with
      | some (text, v) => pure (v, p.drop text.length)
      | none => p.fail .value

/-- The value at a position, in which lists and objects stand in each other no deeper than `depth`. -/
def value : (depth : Nat) → Position → Except Stop (Json × Position)
  | 0, p =>
    match p.rest with
    | '[' :: _ | '\x7b' :: _ => .error (.limit .depth)
    | _ => simpleValue p
  | depth + 1, p =>
    match p.rest with
    | '[' :: _ =>
      let p := (p.drop 1).skipSpace
      match p.rest with
      | ']' :: _ => pure (.arr [], p.drop 1)
      | rest => items (value depth) (rest.length + 1) [] p
    | '\x7b' :: _ =>
      let p := (p.drop 1).skipSpace
      match p.rest with
      | '\x7d' :: _ => pure (.obj [], p.drop 1)
      | rest => members (value depth) (rest.length + 1) [] p
    | _ => simpleValue p

/-- The value of a text. -/
def read (depth : Nat) (text : String) : Except Stop Json :=
  let chars := text.toList
  if chars.head? == some '\uFEFF' then failAt 0 .byteOrderMark
  else do
    let (v, p) ← value depth (Position.skipSpace ⟨0, chars⟩)
    let p := p.skipSpace
    if p.rest.isEmpty then pure v else p.fail .extraData

end ImportAssist.Json
