import ImportAssist.Settings.Options
import ImportAssist.Text.Edit
import ImportAssist.Text.Point

/-!
# New imports

What a new import binds, how it is written, and what comes of adding it.
-/

namespace ImportAssist

/-! ## Bindings -/

inductive Binding where
  /-- `name` -/
  | default (identifier : String)
  /-- `{ name }` -/
  | named (identifier : String)
  /-- `* as name` -/
  | wildcard (identifier : String)
  deriving DecidableEq, Repr

namespace Binding

def identifier : Binding → String
  | .default x | .named x | .wildcard x => x

def render : Binding → String
  | .default x => x
  | .named x => "\x7b " ++ x ++ " \x7d"
  | .wildcard x => "* as " ++ x

end Binding

/-! ## Statements -/

def quoted (options : Options) (path : String) : String :=
  let mark := String.singleton options.quoteMark.char
  mark ++ path ++ mark

/-- The expression that loads a module. -/
def requireExpression (options : Options) (path : String) : String :=
  "require(" ++ quoted options path ++ ")"

/-- A statement that imports a module; an empty binding binds nothing. -/
def importStatement (binding path : String) (form : StatementForm) (options : Options)
    (lineBreak : String) : String :=
  let close := (if options.semicolons then ";" else "") ++ lineBreak
  match form with
  | .declaration =>
    if binding = "" then "import " ++ quoted options path ++ close
    else "import " ++ binding ++ " from " ++ quoted options path ++ close
  | .require =>
    if binding = "" then requireExpression options path ++ close
    else "const " ++ binding ++ " = " ++ requireExpression options path ++ close

/-! ## Outcomes -/

/-- What a document already imports. -/
inductive Duplicate where
  | module (name : String)
  /-- A whole index file, and the module with it. -/
  | throughIndex (name index : String)
  /-- A whole module under a name. -/
  | whole (path name : String)
  deriving DecidableEq, Repr

def Duplicate.message : Duplicate → String
  | .module name => "The module \"" ++ name ++ "\" has been already imported."
  | .throughIndex name index =>
    "The module \"" ++ name ++ "\" has been already imported from \"" ++ index ++ "\"."
  | .whole path name =>
    "The module \"" ++ path ++ "\" has been already imported as \"" ++ name ++ "\"."

inductive Outcome where
  | inserted (edits : List Edit)
  | merged (edit : Edit)
  /-- The import is there; `focus` is where. -/
  | alreadyImported (duplicate : Duplicate) (focus : Point)
  | cancelled
  deriving DecidableEq, Repr

namespace Outcome

def edits : Outcome → List Edit
  | .inserted edits => edits
  | .merged edit => [edit]
  | _ => []

def message? : Outcome → Option String
  | .alreadyImported duplicate _ => some duplicate.message
  | _ => none

def focus? : Outcome → Option Point
  | .alreadyImported _ focus => some focus
  | _ => none

end Outcome

end ImportAssist
