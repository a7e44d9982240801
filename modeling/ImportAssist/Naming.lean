import ImportAssist.Failure
import ImportAssist.Pattern.Template

/-!
# Names for imported modules

`splitWords` cuts a name into words at separators and changes of case. `variableName` turns the name
of a file or a package into an identifier: a predefined rule decides if one matches, otherwise the
words are put together by a convention.
-/

namespace ImportAssist

/-! ## Words -/

/-- How many characters at the front are capitals. -/
def capitals (chars : List Char) : Nat := (chars.takeWhile Char.isUpper).length

/-- How many characters at the front are small letters, followed by digits. Zero without letters. -/
def smallWord (chars : List Char) : Nat :=
  let letters := chars.takeWhile Char.isLower
  if letters.isEmpty then 0
  else letters.length + ((chars.drop letters.length).takeWhile Char.isDigit).length

/-- The length of the word at the front; zero if none starts there. Several capitals are a word, up
to the last one if that starts a word of small letters. -/
def wordLength (chars : List Char) : Nat :=
  let n := capitals chars
  let small := smallWord (chars.drop n)
  if n = 0 then
    if small ≠ 0 then small else (chars.takeWhile Char.isDigit).length
  else if small = 0 then n
  else if n = 1 then small + 1
  else if n = 2 then 2
  else n - 1

/-- The words of a text, of which the first `skip` characters belong to a word already given. -/
def wordsFrom : Nat → List Char → List (List Char)
  | _, [] => []
  | skip + 1, _ :: rest => wordsFrom skip rest
  | 0, c :: rest =>
    match wordLength (c :: rest) with
    | 0 => wordsFrom 0 rest
    | n + 1 => (c :: rest).take (n + 1) :: wordsFrom n rest

def splitWords (name : String) : List String := (wordsFrom 0 name.toList).map String.ofList

/-! ## Conventions -/

/-- Words are made of ASCII letters and digits, so this lowers all of them. -/
def lowerWord (word : String) : String := String.ofList (word.toList.map Char.toLower)

def upperFirst (word : String) : String :=
  match word.toList with
  | [] => ""
  | c :: rest => String.ofList (c.toUpper :: rest)

/-- What an identifier can hold without escapes. -/
def isIdentifierChar (c : Char) : Bool := c.isAlphanum || c = '_' || c = '$'

/-- The identifier that a convention makes of a name. -/
def NamingConvention.apply (convention : NamingConvention) (name : String) : String :=
  let words := splitWords name
  match convention with
  | .camelCase =>
    match words.map lowerWord with
    | [] => ""
    | first :: rest => String.join (first :: rest.map upperFirst)
  | .pascalCase => String.join (words.map upperFirst)
  | .snakeCase => "_".intercalate (words.map lowerWord)
  | .lowercase => String.join (words.map lowerWord)
  | .none => String.ofList (name.toList.filter isIdentifierChar)

/-! ## Predefined names -/

/-- A dollar sign in front of digits refers to a group. -/
def dollarReferences (replacement : List Char) : List Char :=
  go replacement.length replacement
where
  go : Nat → List Char → List Char
    | 0, chars => chars
    | _, [] => []
    | fuel + 1, c :: rest =>
      let digits := rest.takeWhile isDecimal
      if c = '$' && !digits.isEmpty then
        "\\g<".toList ++ digits ++ '>' :: go fuel (rest.drop digits.length)
      else c :: go fuel rest

/-- The name that the first matching rule gives, if one matches. -/
def predefinedName? (name : String) : List (String × String) → Except Failure (Option String)
  | [] => .ok none
  | (pattern, replacement) :: rest =>
    match Pattern.read pattern with
    | none => .error .badPattern
    | some compiled =>
      match compiled.search name with
      | none => predefinedName? name rest
      | some found =>
        let template := String.ofList (dollarReferences replacement.toList)
        match compiled.replace found template name with
        | .ok text => .ok (some text)
        | .error .malformed => .error .badPattern
        | .error (.unknownName group) => .error (.unknownGroup group)

/-- The identifier for a name. -/
def variableName (name : String) (options : Options) : Except Failure String := do
  match ← predefinedName? name options.predefinedNames with
  | some text => pure text
  | none => pure (options.convention.apply (String.ofList (name.toList.dropWhile isDecimal)))

end ImportAssist
