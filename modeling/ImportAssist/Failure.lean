import ImportAssist.Data.Json.Reader
import ImportAssist.Disk
import ImportAssist.Settings.Validation

/-!
# Failures

What can end an operation before it has an answer.
-/

namespace ImportAssist

inductive Failure where
  /-- Settings with values of the wrong kind. -/
  | invalidSettings (problems : List Problem)
  /-- A settings file that was asked for and cannot be used. -/
  | unreadableSettings (path reason : String)
  /-- A file that is no document of a known language. -/
  | unsupportedFile (path : String)
  | disk (error : DiskError)
  /-- A path with a NUL character, which no file can have. -/
  | nullCharacter (path : String)
  /-- Bytes that are not UTF-8. -/
  | notUtf8
  /-- A JSON file that is too much for its reader. -/
  | beyondLimit (limit : Json.Limit)
  /-- A JSON file with a string that is no text. -/
  | loneSurrogate
  /-- A text that is no pattern, or a template that does not fit its pattern. -/
  | badPattern
  /-- A template that names a group its pattern does not have. -/
  | unknownGroup (name : String)
  /-- A line of ignore rules that is no pattern. -/
  | badIgnoreRule (line : String)
  /-- The chosen file has left the index. -/
  | notIndexed (path : String)
  /-- An answer that was not among the offered ones. -/
  | notOffered (label : String)
  /-- A character that is a digit but has no place value. -/
  | notANumber (text : String)
  /-- A history that is no list. -/
  | notAList
  /-- A value that cannot be looked up. -/
  | notAKey
  /-- Histories that are not given by language. -/
  | notATable
  deriving DecidableEq, Repr

def Failure.message : Failure → String
  | .invalidSettings problems =>
    "Invalid configuration: " ++ "; ".intercalate (problems.map Problem.message)
  | .unreadableSettings path reason => "Could not read configuration " ++ path ++ ": " ++ reason
  | .unsupportedFile path => "Unsupported file type: " ++ path
  | .disk e => e.message
  | .nullCharacter path => Quoted.render path ++ " has a NUL character."
  | .notUtf8 => "The bytes are not UTF-8."
  | .beyondLimit .digits => s!"Exceeds the limit ({Json.maxDigits} digits) for integer string conversion"
  | .beyondLimit .depth => "maximum recursion depth exceeded"
  | .loneSurrogate => "surrogates not allowed"
  | .badPattern => "The pattern is malformed."
  | .unknownGroup name => "unknown group name " ++ Quoted.render name
  | .badIgnoreRule line => "Invalid git pattern: " ++ Quoted.render line
  | .notIndexed path => path ++ " is not in the file index"
  | .notOffered label => label ++ " was not offered."
  | .notANumber text => text ++ " is not a number."
  | .notAList => "The history is not a list."
  | .notAKey => "The value cannot be looked up."
  | .notATable => "The histories are not given by language."

/-- The text of a file, byte for byte. -/
def Disk.readText (disk : Disk) (path : String) : Except Failure String :=
  if path.toList.contains '\x00' then .error (.nullCharacter path)
  else
    match disk.read path with
    | .error e => .error (.disk e)
    | .ok bytes =>
      match Utf8.decode? bytes with
      | some text => .ok text
      | none => .error .notUtf8

/-- Every line break as a line feed. -/
def unixBreaks : List Char → List Char
  | '\r' :: '\n' :: rest => '\n' :: unixBreaks rest
  | '\r' :: rest => '\n' :: unixBreaks rest
  | c :: rest => c :: unixBreaks rest
  | [] => []

/-- The text of a file with every line break as a line feed. -/
def Disk.readLines (disk : Disk) (path : String) : Except Failure String := do
  return String.ofList (unixBreaks (← disk.readText path).toList)

/-- What a JSON file holds, or why it holds nothing: it cannot be opened, or its text has a fault. Whatever else keeps
the file from being read is a failure. -/
def Disk.readJson (disk : Disk) (path : String) : Except Failure (Except String Json) :=
  match disk.readLines path with
  | .error (.disk e) => .ok (.error e.message)
  | .error failure => .error failure
  | .ok text =>
    match Json.read (disk.nesting path) text with
    | .ok data => .ok (.ok data)
    | .error (.fault e) => .ok (.error (e.message text))
    | .error (.limit limit) => .error (.beyondLimit limit)
    | .error .surrogate => .error .loneSurrogate

end ImportAssist
