import ImportAssist.Data.Shortest
import ImportAssist.Text.Quoted

/-!
# JSON values

Objects keep their members in order. A member given twice keeps the place of the first and the
value of the last. Whole numbers are unbounded and differ from floating-point numbers.

* `compact` and `indented` write a value in ASCII.
* `display` is the text of a value inside a sentence.
-/

namespace ImportAssist

inductive Json where
  | null
  | bool (value : Bool)
  | int (value : Int)
  | float (value : Float)
  | str (value : String)
  | arr (items : List Json)
  | obj (members : List (String × Json))
  deriving Repr, Inhabited

namespace Json

/-- Sets a member, in its old place if it has one. -/
def setMember (key : String) (value : Json) : List (String × Json) → List (String × Json)
  | [] => [(key, value)]
  | (k, v) :: rest => if k = key then (k, value) :: rest else (k, v) :: setMember key value rest

def member? (value : Json) (key : String) : Option Json :=
  match value with
  | .obj members => (members.find? (·.1 == key)).map (·.2)
  | _ => none

/-- Whether a value counts as true: zero, null and everything empty do not. -/
def isTruthy : Json → Bool
  | .null => false
  | .bool b => b
  | .int n => n ≠ 0
  | .float x => !(x == 0.0)
  | .str s => s ≠ ""
  | .arr items => !items.isEmpty
  | .obj members => !members.isEmpty

/-! ## Equality -/

/-- The number that a value counts as; truth values count as one and zero. -/
def numeric? : Json → Option (Int ⊕ Float)
  | .bool b => some (.inl (if b then 1 else 0))
  | .int n => some (.inl n)
  | .float x => some (.inr x)
  | _ => none

/-- Whether two numbers are the same, of whichever kind. -/
def sameNumber : Int ⊕ Float → Int ⊕ Float → Bool
  | .inl m, .inl n => m == n
  | .inr x, .inr y => x == y
  | .inl n, .inr x | .inr x, .inl n => Float.ofInt n == x

mutual

/-- Numbers are equal by value, lists by their items, objects by what they have under each key. -/
def equal : Json → Json → Bool
  | .null, .null => true
  | .str s, .str t => s == t
  | .arr xs, .arr ys => equalItems xs ys
  | .obj ms, .obj ns => ms.length == ns.length && equalMembers ms ns
  | a, b =>
    match a.numeric?, b.numeric? with
    | some x, some y => sameNumber x y
    | _, _ => false

def equalItems : List Json → List Json → Bool
  | [], [] => true
  | x :: xs, y :: ys => equal x y && equalItems xs ys
  | _, _ => false

/-- Whether all of some members are among others. -/
def equalMembers : List (String × Json) → List (String × Json) → Bool
  | [], _ => true
  | (k, v) :: ms, ns =>
    (match ns.find? (·.1 == k) with
      | some (_, w) => equal v w
      | none => false)
      && equalMembers ms ns

end

instance : BEq Json := ⟨equal⟩

/-! ## Writing -/

/-- A character of a string in ASCII; beyond the basic plane, as a surrogate pair. -/
def escapeChar (c : Char) : List Char :=
  let n := c.toNat
  if c = '"' then ['\\', '"']
  else if c = '\\' then ['\\', '\\']
  else if c = '\n' then ['\\', 'n']
  else if c = '\r' then ['\\', 'r']
  else if c = '\t' then ['\\', 't']
  else if n = 8 then ['\\', 'b']
  else if n = 12 then ['\\', 'f']
  else if 32 ≤ n && n < 127 then [c]
  else if n < 0x10000 then '\\' :: 'u' :: hexDigits 4 n
  else
    let high := 0xD800 + (n - 0x10000) / 0x400
    let low := 0xDC00 + (n - 0x10000) % 0x400
    '\\' :: 'u' :: hexDigits 4 high ++ '\\' :: 'u' :: hexDigits 4 low

def quoted (s : String) : String :=
  String.ofList ('"' :: s.toList.flatMap escapeChar ++ ['"'])

/-- A value that has no parts. -/
def scalar : Json → String
  | .null => "null"
  | .bool true => "true"
  | .bool false => "false"
  | .int n => toString n
  | .float x => Shortest.render "NaN" "Infinity" x
  | .str s => quoted s
  | .arr _ => "[]"
  | .obj _ => "\x7b\x7d"

mutual

def compact : Json → String
  | .arr items => "[" ++ ",".intercalate (compactItems items) ++ "]"
  | .obj members => "\x7b" ++ ",".intercalate (compactMembers members) ++ "\x7d"
  | value => value.scalar

def compactItems : List Json → List String
  | [] => []
  | v :: vs => v.compact :: compactItems vs

def compactMembers : List (String × Json) → List String
  | [] => []
  | (k, v) :: ms => (quoted k ++ ":" ++ v.compact) :: compactMembers ms

end

/-- A line break and the indentation of a depth. -/
def newline (depth : Nat) : String := "\n" ++ String.ofList (List.replicate (2 * depth) ' ')

mutual

/-- Written over several lines, two spaces a level. -/
def indentedAt (depth : Nat) : Json → String
  | .arr [] => "[]"
  | .obj [] => "\x7b\x7d"
  | .arr items =>
    "[" ++ newline (depth + 1)
      ++ ("," ++ newline (depth + 1)).intercalate (indentedItems (depth + 1) items)
      ++ newline depth ++ "]"
  | .obj members =>
    "\x7b" ++ newline (depth + 1)
      ++ ("," ++ newline (depth + 1)).intercalate (indentedMembers (depth + 1) members)
      ++ newline depth ++ "\x7d"
  | value => value.scalar

def indentedItems (depth : Nat) : List Json → List String
  | [] => []
  | v :: vs => indentedAt depth v :: indentedItems depth vs

def indentedMembers (depth : Nat) : List (String × Json) → List String
  | [] => []
  | (k, v) :: ms => (quoted k ++ ": " ++ indentedAt depth v) :: indentedMembers depth ms

end

def indented (value : Json) : String := indentedAt 0 value

/-! ## Display -/

mutual

/-- A value inside another. -/
def displayInner : Json → String
  | .null => "None"
  | .bool true => "True"
  | .bool false => "False"
  | .int n => toString n
  | .float x => Shortest.render "nan" "inf" x
  | .str s => Quoted.render s
  | .arr items => "[" ++ ", ".intercalate (displayItems items) ++ "]"
  | .obj members => "\x7b" ++ ", ".intercalate (displayMembers members) ++ "\x7d"

def displayItems : List Json → List String
  | [] => []
  | v :: vs => v.displayInner :: displayItems vs

def displayMembers : List (String × Json) → List String
  | [] => []
  | (k, v) :: ms => (Quoted.render k ++ ": " ++ v.displayInner) :: displayMembers ms

end

/-- The text of a value; a string stands for itself. -/
def display : Json → String
  | .str s => s
  | value => value.displayInner

end Json

end ImportAssist
