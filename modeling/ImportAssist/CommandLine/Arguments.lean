import ImportAssist.Text.Digit

/-!
# Arguments

The options of the program stand in front of a command, and the arguments of the command behind it.
An option may be shortened as long as it stays clear which one is meant, and its value may stand
behind an equals sign.
-/

namespace ImportAssist.CommandLine

inductive Command where
  | candidates (file : String)
  | add (file target : String) (dryRun : Bool)
  | fix (file : String) (dryRun : Bool)
  deriving DecidableEq, Repr

structure Arguments where
  root : Option String
  config : Option String
  lint : Bool
  command : Command
  deriving DecidableEq, Repr

/-- Why there is nothing to run. -/
inductive Refusal where
  /-- Help was asked for. -/
  | help
  /-- The arguments make no sense. -/
  | usage
  deriving DecidableEq, Repr

/-- The exit code of a program that has nothing to run. -/
def Refusal.exitCode : Refusal → Nat
  | .help => 0
  | .usage => 2

/-! ## Options -/

/-- An option: its spellings and whether a value follows. -/
structure Switch where
  long : String
  short : Option Char
  takesValue : Bool
  deriving DecidableEq, Repr

/-- What one argument is. -/
inductive Token where
  | plain (text : String)
  /-- Options with a value for the last one if it stands in the same argument, and whether letters
  follow that are no options. -/
  | options (found : List Switch) (value : Option String) (stray : Bool)
  | unknown
  /-- An option with something attached that cannot be its value. -/
  | malformed
  /-- The beginning of several options. -/
  | ambiguous
  deriving DecidableEq, Repr

/-- Whether an argument looks like a number below zero; such an argument is no option. -/
def isNegativeNumber : List Char → Bool
  | '-' :: rest =>
    let whole := rest.takeWhile isDecimal
    match rest.drop whole.length with
    | [] => !whole.isEmpty
    | '.' :: digits => !digits.isEmpty && digits.all isDecimal
    | _ => false
  | _ => false

/-- A run of one-letter options behind a dash; `found` stand in front. -/
def shortRun (known : List Switch) (found : List Switch) : List Char → Token
  | [] => .options found none false
  | c :: rest =>
    match known.find? (·.short == some c) with
    | none => if c = '=' || c = '-' then .malformed else .options found none true
    | some o =>
      if o.takesValue then .options (found ++ [o]) (some (String.ofList rest)) false
      else shortRun known (found ++ [o]) rest

/-- What an argument is, by the options that are known. -/
def classify (known : List Switch) (argument : String) : Token :=
  let chars := argument.toList
  let name := chars.takeWhile (· != '=')
  let value := if name.length < chars.length then some (String.ofList (chars.drop (name.length + 1))) else none
  let other : Token :=
    if isNegativeNumber chars || chars.contains ' ' then .plain argument else .unknown
  match chars with
  | '-' :: '-' :: _ =>
    match known.find? (·.long.toList == name) with
    | some o => .options [o] value false
    | none =>
      match known.filter fun o => name.isPrefixOf o.long.toList with
      | [o] => .options [o] value false
      | [] => other
      | _ => .ambiguous
  | ['-'] => .plain argument
  | '-' :: c :: rest => if known.any (·.short == some c) then shortRun known [] (c :: rest) else other
  | _ => .plain argument

/-! ## Scanning -/

/-- Options and plain arguments in the order in which they were given. -/
structure Scanned where
  options : List (Switch × Option String)
  plain : List String
  /-- Whether there was something that is no option. -/
  stray : Bool

/-- Puts options into what has been scanned. Help ends everything at once, and an option takes a
value if and only if it needs one. -/
def Scanned.put (s : Scanned) (help : Switch) : List Switch → Option String → Except Refusal Scanned
  | [], _ => .ok s
  | [o], value =>
    if o.takesValue then .ok { s with options := s.options ++ [(o, value)] }
    else if value.isSome then .error .usage
    else if o = help then .error .help
    else .ok { s with options := s.options ++ [(o, none)] }
  | o :: rest, value =>
    if o = help then .error .help
    else put { s with options := s.options ++ [(o, none)] } help rest value

/-- Scans arguments. With `stopAtPlain` the first plain argument and all behind it are left over.
Behind a double dash every argument is plain. Of the options `waiting`, the last needs a value. -/
def scan (known : List Switch) (help : Switch) (stopAtPlain : Bool) :
    List String → Option (List Switch) → Scanned → Except Refusal (Scanned × List String)
  | [], none, s => .ok (s, [])
  | [], some _, _ => .error .usage
  | argument :: rest, some waiting, s =>
    match classify known argument with
    | .plain text => do scan known help stopAtPlain rest none (← s.put help waiting (some text))
    | _ => .error .usage
  | argument :: rest, none, s =>
    if argument = "--" then
      if stopAtPlain then .ok (s, argument :: rest) else .ok ({ s with plain := s.plain ++ rest }, [])
    else
      match classify known argument with
      | .plain text =>
        if stopAtPlain then .ok (s, text :: rest)
        else scan known help stopAtPlain rest none { s with plain := s.plain ++ [text] }
      | .unknown => scan known help stopAtPlain rest none { s with stray := true }
      | .malformed | .ambiguous => .error .usage
      | .options found value stray =>
        if value.isNone && found.getLast?.any (·.takesValue) then
          scan known help stopAtPlain rest (some found) s
        else do
          let s ← s.put help found value
          scan known help stopAtPlain rest none { s with stray := s.stray || stray }

/-- Scans arguments after making sure that each of them is clear. -/
def scanClear (known : List Switch) (help : Switch) (stopAtPlain : Bool) (arguments : List String) :
    Except Refusal (Scanned × List String) :=
  if (arguments.takeWhile (· != "--")).any (classify known · == .ambiguous) then .error .usage
  else scan known help stopAtPlain arguments none ⟨[], [], false⟩

/-! ## The program -/

def helpOption : Switch := ⟨"--help", some 'h', false⟩
def rootOption : Switch := ⟨"--root", none, true⟩
def configOption : Switch := ⟨"--config", none, true⟩
def lintOption : Switch := ⟨"--eslint", none, false⟩
def verboseOption : Switch := ⟨"--verbose", some 'v', false⟩
def dryRunOption : Switch := ⟨"--dry-run", none, false⟩

/-- The last value of an option. -/
def Scanned.value? (s : Scanned) (o : Switch) : Option String :=
  (s.options.reverse.find? (·.1 == o)).bind (·.2)

def Scanned.has (s : Scanned) (o : Switch) : Bool := s.options.any (·.1 == o)

/-- The command with its arguments. -/
def parseCommand (name : String) (rest : List String) : Except Refusal Command := do
  let known := if name = "candidates" then [helpOption] else [helpOption, dryRunOption]
  if !(["candidates", "add", "fix"].contains name) then throw .usage
  let (s, _) ← scanClear known helpOption false rest
  if s.stray then throw .usage
  let dryRun := s.has dryRunOption
  match name, s.plain with
  | "candidates", [file] => return .candidates file
  | "add", [file, target] => return .add file target dryRun
  | "fix", [file] => return .fix file dryRun
  | _, _ => throw .usage

/-- What the arguments ask for. -/
def parseArguments (arguments : List String) : Except Refusal Arguments := do
  let known := [helpOption, rootOption, configOption, lintOption, verboseOption]
  let (s, rest) ← scanClear known helpOption true arguments
  match rest with
  | [] => throw .usage
  | name :: rest =>
    let command ← parseCommand name rest
    if s.stray then throw .usage
    return ⟨s.value? rootOption, s.value? configOption, s.has lintOption, command⟩

end ImportAssist.CommandLine
