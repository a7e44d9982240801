import ImportAssist.Document
import ImportAssist.Repair
import ImportAssist.Synthesis.Add
import ImportAssist.Workspace.Index

/-!
# Languages

Each language offers candidates for its documents and adds and repairs imports in them, with its own
options and its own index of the workspace.
-/

namespace ImportAssist

inductive Language where
  | typescript | javascript
  deriving DecidableEq, Repr

/-- What a language can be asked to do besides adding imports. -/
inductive Capability where
  /-- Take a created file into its index. -/
  | addItem
  /-- Drop a deleted file from its index. -/
  | cutItem
  | fixImport
  /-- Forget its index. -/
  | reset
  deriving DecidableEq, Repr

namespace Capability

def all : List Capability := [.addItem, .cutItem, .fixImport, .reset]

def name : Capability → String
  | .addItem => "add_item"
  | .cutItem => "cut_item"
  | .fixImport => "fix_import"
  | .reset => "reset"

end Capability

namespace Language

def name : Language → String
  | .typescript => "TypeScript"
  | .javascript => "JavaScript"

/-- The options that hold for a language. -/
def options (config : Config) : Language → Options
  | .typescript => config.typescript
  | .javascript => config.javascript

/-- Whether TypeScript files can be imported. -/
def allowsTypeScript (config : Config) : Language → Bool
  | .typescript => true
  | .javascript => config.javascript.allowTypeScript

/-- Whether a language identifier belongs to the language; case does not matter. -/
def accepts (language : Language) (identifier : String) : Bool :=
  let folded := (dropFinalBreak identifier).toList.map Pattern.foldCase
  let base := (toLower language.name).toList
  folded == base || folded == base ++ "react".toList

/-- The language of a file by its extension. -/
def identifierOf (path : String) : Except Failure String :=
  match toLower (Path.suffix path) with
  | ".js" | ".mjs" | ".cjs" => .ok "javascript"
  | ".jsx" => .ok "javascriptreact"
  | ".ts" | ".mts" | ".cts" => .ok "typescript"
  | ".tsx" => .ok "typescriptreact"
  | _ => .error (.unsupportedFile path)

end Language

/-- A language at work in a workspace. -/
structure Plugin where
  language : Language
  options : Options
  allowsTypeScript : Bool
  capabilities : List Capability
  index : WorkspaceIndex

namespace Plugin

/-- The files that are imported as modules. -/
def family (p : Plugin) : Family := if p.allowsTypeScript then .both else .javascript

def create (cwd root : String) (config : Config) (language : Language) : Plugin :=
  let options := language.options config
  let allowed := language.allowsTypeScript config
  ⟨language, options, allowed, Capability.all,
    .create cwd root options (if allowed then .both else .javascript)⟩

def accepts (p : Plugin) (d : Document) : Bool := p.language.accepts d.language

def can (p : Plugin) (capability : Capability) : Bool := p.capabilities.contains capability

/-! ## Candidates -/

/-- The pattern of the files offered to a document, by the first rule that applies to it. -/
def filterFor (path : String) : List (String × String) → Except Failure (Option Pattern.Compiled)
  | [] => .ok none
  | (documents, files) :: rest =>
    match Pattern.read documents with
    | none => .error .badPattern
    | some pattern =>
      if pattern.occursIn path then
        match Pattern.read files with
        | none => .error .badPattern
        | some filter => .ok (some filter)
      else filterFor path rest

def isTypeScript (extension : String) : Bool := ["ts", "tsx"].contains (dropFinalBreak extension)

/-- The files to offer: not the document itself, nothing of an excluded kind, and only what the
filter lets through. -/
def filterFiles (p : Plugin) (d : Document) (files : List FileCandidate) :
    Except Failure (List FileCandidate) := do
  let path := Path.normalize d.path
  let filter? ← filterFor (Path.toSlashes path) p.options.filteredFiles
  return files.filter fun c =>
    c.path != path
      && (p.allowsTypeScript || !isTypeScript (Path.extension c.path))
      && filter?.all fun filter => filter.occursIn (Path.toSlashes c.path)

/-- The candidates for a document in order; none if it is not a document of the language. -/
def items (disk : Disk) (p : Plugin) (d : Document) :
    Except Failure (Option (List Candidate)) × Plugin :=
  if !p.accepts d then (.ok none, p)
  else
    match p.index.build disk with
    | .error failure => (.error failure, p)
    | .ok (files, index) =>
      let p := { p with index := index }
      match p.filterFiles d files with
      | .error failure => (.error failure, p)
      | .ok kept =>
        match p.index.packagesFor disk d.directory with
        | .error failure => (.error failure, p)
        | .ok (packages, index) =>
          (.ok (some (sortCandidates (Path.normalize d.path) kept packages)), { p with index := index })

/-! ## Imports -/

/-- Packages of a TypeScript document are imported as a whole. -/
def synthesizer (disk : Disk) (p : Plugin) : Synthesizer :=
  ⟨disk, p.options, p.language = .typescript⟩

def repairer (disk : Disk) (p : Plugin) : Repairer := ⟨disk, p.family, p.index.root⟩

end Plugin

end ImportAssist
