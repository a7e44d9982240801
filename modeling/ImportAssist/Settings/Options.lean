import ImportAssist.Data.Json

/-!
# Options

How imports are written for one language, and the settings of a whole workspace.
-/

namespace ImportAssist

/-- The form of a new import. -/
inductive StatementForm where
  /-- `import x from '...'` -/
  | declaration
  /-- `const x = require('...')` -/
  | require
  deriving DecidableEq, Repr

inductive QuoteMark where
  | single | double
  deriving DecidableEq, Repr

def QuoteMark.char : QuoteMark → Char
  | .single => '\x27'
  | .double => '"'

/-- How the words of a name make an identifier. -/
inductive NamingConvention where
  | camelCase | pascalCase | snakeCase | lowercase
  /-- The name as it is, without what no identifier can hold. -/
  | none
  deriving DecidableEq, Repr

structure Options where
  form : StatementForm := .declaration
  /-- Whether a new binding joins an import of the same path. -/
  grouping : Bool := true
  /-- Whether import paths keep the extension of a file. -/
  fileExtension : Bool := false
  /-- Whether an index file is imported through its directory. -/
  indexFile : Bool := false
  quoteMark : QuoteMark := .single
  semicolons : Bool := false
  /-- Patterns of names and what replaces their match; the first that matches decides. -/
  predefinedNames : List (String × String) := []
  convention : NamingConvention := .camelCase
  /-- Patterns of document paths, each with the pattern of the files offered to such documents; the
  first that matches decides. -/
  filteredFiles : List (String × String) := []
  allowTypeScript : Bool := false
  deriving DecidableEq, Repr

structure Config where
  javascript : Options := {}
  typescript : Options := {}
  /-- How many recently used candidates are kept for a language. -/
  historyLimit : Nat := 30
  deriving DecidableEq, Repr

/-! ## Writing -/

def StatementForm.name : StatementForm → String
  | .declaration => "import"
  | .require => "require"

def QuoteMark.name : QuoteMark → String
  | .single => "single"
  | .double => "double"

def NamingConvention.name : NamingConvention → String
  | .camelCase => "camelCase"
  | .pascalCase => "PascalCase"
  | .snakeCase => "snake_case"
  | .lowercase => "lowercase"
  | .none => "none"

/-- A table of texts as an object. -/
def tableJson (table : List (String × String)) : Json :=
  .obj (table.map fun (key, value) => (key, .str value))

/-- The options under their keys. -/
def Options.toJson (o : Options) : Json :=
  .obj [
    ("syntax", .str o.form.name),
    ("grouping", .bool o.grouping),
    ("fileExtension", .bool o.fileExtension),
    ("indexFile", .bool o.indexFile),
    ("quoteCharacter", .str o.quoteMark.name),
    ("semiColons", .bool o.semicolons),
    ("predefinedVariableNames", tableJson o.predefinedNames),
    ("variableNamingConvention", .str o.convention.name),
    ("filteredFileList", tableJson o.filteredFiles),
    ("allowTypeScriptFiles", .bool o.allowTypeScript)]

end ImportAssist
