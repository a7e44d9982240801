import ImportAssist.Settings.Options

/-!
# Validation of settings

`Options.read` and `Config.read` read settings from a JSON value. Every option has a key and a
second spelling of it; the key wins. What is missing keeps its default, what is unknown is passed
over, and every value of the wrong kind is reported, in the order of the options.
-/

namespace ImportAssist

/-- What a value should have been. -/
inductive Mismatch where
  | boolean | integer | text | table
  /-- One of some words. -/
  | choice (words : List String)
  /-- A table with the fields of the section that has this name. -/
  | fields (name : String)
  | negative (value : Int)
  deriving DecidableEq, Repr

/-- Words in single quotes with "or" in front of the last. -/
def quotedChoice (words : List String) : String :=
  let quoted := words.map fun w => "'" ++ w ++ "'"
  match quoted.reverse with
  | last :: before :: rest => ", ".intercalate (before :: rest).reverse ++ " or " ++ last
  | _ => ", ".intercalate quoted

def Mismatch.message : Mismatch → String
  | .boolean => "Input should be a valid boolean"
  | .integer => "Input should be a valid integer"
  | .text => "Input should be a valid string"
  | .table => "Input should be a valid dictionary"
  | .choice words => "Input should be " ++ quotedChoice words
  | .fields name => "Input should be a valid dictionary or instance of " ++ name
  | .negative value => s!"Value error, must be a non-negative integer, got {value}"

/-- A mismatch and the keys that lead to it. -/
structure Problem where
  location : List String
  mismatch : Mismatch
  deriving DecidableEq, Repr

def Problem.message (p : Problem) : String :=
  let place := ".".intercalate p.location
  (if place = "" then "config" else place) ++ ": " ++ p.mismatch.message

/-! ## Values -/

/-- A value that has been read with the problems found on the way. -/
structure Checked (α : Type) where
  value : α
  problems : List Problem

/-- Reads a value at a location; with a problem it gives a default instead. -/
abbrev Reads (α : Type) := List String → Json → Checked α

def Checked.ok {α : Type} (value : α) : Checked α := ⟨value, []⟩

/-- A default in place of a value of the wrong kind. -/
def Checked.bad {α : Type} (fallback : α) (location : List String) (mismatch : Mismatch) : Checked α :=
  ⟨fallback, [⟨location, mismatch⟩]⟩

def readBool (fallback : Bool) : Reads Bool
  | _, .bool b => .ok b
  | location, _ => .bad fallback location .boolean

/-- One of some words, each with what it means. -/
def readChoice {α : Type} (fallback : α) (choices : List (String × α)) : Reads α
  | location, .str text =>
    match choices.find? (·.1 == text) with
    | some (_, value) => .ok value
    | none => .bad fallback location (.choice (choices.map (·.1)))
  | location, _ => .bad fallback location (.choice (choices.map (·.1)))

/-- A table of texts. -/
def readTable : Reads (List (String × String))
  | location, .obj members =>
    let entries := members.map fun (key, value) =>
      match value with
      | .str text => Checked.ok (key, text)
      | _ => Checked.bad (key, "") (location ++ [key]) .text
    ⟨entries.map (·.value), entries.flatMap (·.problems)⟩
  | location, _ => .bad [] location .table

/-- A whole number that is not negative. -/
def readLimit (fallback : Nat) : Reads Nat
  | _, .int (.ofNat n) => .ok n
  | location, .int n => .bad fallback location (.negative n)
  | location, _ => .bad fallback location .integer

/-! ## Sections -/

/-- The member under the first of some keys that is there, with that key. -/
def firstMember (members : List (String × Json)) (keys : List String) : Option (String × Json) :=
  keys.findSome? fun key => members.find? (·.1 == key)

/-- Reads one field of a section; a missing one keeps its default. -/
def readField {α : Type} (location : List String) (members : List (String × Json))
    (keys : List String) (fallback : α) (read : Reads α) : Checked α :=
  match firstMember members keys with
  | some (key, value) => read (location ++ [key]) value
  | none => .ok fallback

def formChoices : List (String × StatementForm) :=
  [.declaration, .require].map fun f => (StatementForm.name f, f)

def quoteChoices : List (String × QuoteMark) :=
  [.single, .double].map fun q => (QuoteMark.name q, q)

def conventionChoices : List (String × NamingConvention) :=
  [.camelCase, .pascalCase, .snakeCase, .lowercase, .none].map fun c => (NamingConvention.name c, c)

/-- The options of a section. -/
def readOptions : Reads Options
  | location, .obj members =>
    let base : Options := {}
    let flag (keys : List String) (fallback : Bool) : Checked Bool :=
      readField location members keys fallback (readBool fallback)
    let form := readField location members ["syntax"] base.form (readChoice base.form formChoices)
    let grouping := flag ["grouping"] base.grouping
    let fileExtension := flag ["fileExtension", "file_extension"] base.fileExtension
    let indexFile := flag ["indexFile", "index_file"] base.indexFile
    let quoteMark := readField location members ["quoteCharacter", "quote_character"] base.quoteMark
      (readChoice base.quoteMark quoteChoices)
    let semicolons := flag ["semiColons", "semi_colons"] base.semicolons
    let predefinedNames := readField location members
      ["predefinedVariableNames", "predefined_variable_names"] base.predefinedNames readTable
    let convention := readField location members
      ["variableNamingConvention", "variable_naming_convention"] base.convention
      (readChoice base.convention conventionChoices)
    let filteredFiles := readField location members ["filteredFileList", "filtered_file_list"]
      base.filteredFiles readTable
    let allowTypeScript := flag ["allowTypeScriptFiles", "allow_typescript_files"] base.allowTypeScript
    { value :=
        { form := form.value
          grouping := grouping.value
          fileExtension := fileExtension.value
          indexFile := indexFile.value
          quoteMark := quoteMark.value
          semicolons := semicolons.value
          predefinedNames := predefinedNames.value
          convention := convention.value
          filteredFiles := filteredFiles.value
          allowTypeScript := allowTypeScript.value }
      problems :=
        form.problems ++ grouping.problems ++ fileExtension.problems ++ indexFile.problems
          ++ quoteMark.problems ++ semicolons.problems ++ predefinedNames.problems
          ++ convention.problems ++ filteredFiles.problems ++ allowTypeScript.problems }
  | location, _ => .bad {} location (.fields "LanguageOptions")

/-- The settings of a workspace. -/
def readConfig : Reads Config
  | location, .obj members =>
    let base : Config := {}
    let javascript := readField location members ["javascript"] base.javascript readOptions
    let typescript := readField location members ["typescript"] base.typescript readOptions
    let historyLimit := readField location members ["historyLimit", "history_limit"] base.historyLimit
      (readLimit base.historyLimit)
    { value := ⟨javascript.value, typescript.value, historyLimit.value⟩
      problems := javascript.problems ++ typescript.problems ++ historyLimit.problems }
  | location, _ => .bad {} location (.fields "RootConfig")

def Checked.toExcept {α : Type} (c : Checked α) : Except (List Problem) α :=
  if c.problems.isEmpty then .ok c.value else .error c.problems

/-- The options that a value gives, or all that is wrong with it. -/
def Options.read (data : Json) : Except (List Problem) Options := (readOptions [] data).toExcept

/-- The settings that a value gives, or all that is wrong with it. -/
def Config.read (data : Json) : Except (List Problem) Config := (readConfig [] data).toExcept

end ImportAssist
