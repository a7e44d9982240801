import ImportAssist.Dialogue
import ImportAssist.Document
import ImportAssist.Inventory.Imports
import ImportAssist.Modules.Location
import ImportAssist.Syntax.Parse

/-!
# Repairing imports

A relative import is broken if its path leads nowhere. `Repairer.fix` looks for files that are named
like the last segment of a broken path: with one such file the path is corrected, of several the
user picks one, and with none the import stays as it is.

Imports with one match come first, in document order, then those with several. The pass stops when
it is cancelled or a choice is dismissed, and keeps what it has done.
-/

namespace ImportAssist

/-! ## Relative imports -/

/-- The literal of a relative import. -/
structure RelativeImport where
  path : String
  start : Nat
  stop : Nat
  quote : Char
  deriving DecidableEq, Repr

namespace RelativeImport

/-- What stands behind the last slash, slashes at the end apart. -/
def lastSegment (i : RelativeImport) : String :=
  Path.fileName (String.ofList ((i.path.toList.reverse.dropWhile (· == '/')).reverse))

/-- A relative path without what has a meaning to loaders. -/
def isFixable (path : String) : Bool :=
  path.toList.head? == some '.' && !path.toList.any fun c => c = '?' || c = '!' || c = '"'

/-- The import of a literal, if its path is one to repair. -/
def ofLiteral? (source : Bytes) (literal : Node) : Option RelativeImport :=
  ((literal.stringValue? source).filter isFixable).map fun path =>
    let single := (literal.text source).toList.head? == some '\x27'
    ⟨path, literal.start, literal.stop, if single then '\x27' else '"'⟩

end RelativeImport

/-- The path literals of a tree: of import and export statements, and of every `require`. -/
def pathLiterals (source : Bytes) (root : Node) : List Node :=
  let statements := root.children.filter fun s => s.hasKind .importStatement || s.hasKind .exportStatement
  statements.filterMap (·.child? .source) ++ (requireCalls source root).map (·.1)

/-- The relative imports of a document, in order; none if it does not parse. -/
def relativeImports (d : Document) : List RelativeImport :=
  match parse d.source d.language with
  | none => []
  | some tree =>
    let literals := (pathLiterals d.source tree).mergeSort fun a b => a.start ≤ b.start
    literals.filterMap (RelativeImport.ofLiteral? d.source)

/-! ## Files that may be meant -/

/-- Whether a file is named like a segment: by its name, without its extension, or as the index file
of a directory with that name. -/
def isNamedLike (family : Family) (segment : String) (c : FileCandidate) : Bool :=
  let inFamily := family.contains (Path.extension c.path)
  Path.fileName c.path == segment
    || (inFamily && Path.stem c.path == segment)
    || (inFamily && c.isIndex && Path.directoryName c.path == segment)

def filesNamedLike (family : Family) (segment : String) (files : List FileCandidate) : List String :=
  (files.filter (isNamedLike family segment)).map (·.path)

/-! ## Reports -/

inductive RepairStatus where
  | nothingBroken | allFixed | partiallyFixed | cancelled
  deriving DecidableEq, Repr

structure RepairReport where
  status : RepairStatus
  /-- In the order in which they were made. -/
  edits : List Edit
  unresolved : List RelativeImport
  deriving DecidableEq, Repr

def RepairReport.message? (r : RepairReport) : Option String :=
  match r.status with
  | .nothingBroken => some "No broken import/require statements have been found."
  | .allFixed => some "All broken import/require statements have been fixed."
  | .partiallyFixed =>
    match r.unresolved.length with
    | 1 => some "There was 1 broken import/require statement that had not been fixed."
    | n => some s!"There were {n} broken import/require statements that had not been fixed."
  | .cancelled => none

/-! ## The pass -/

structure Repairer where
  disk : Disk
  family : Family
  /-- The absolute root of the workspace. -/
  root : String

namespace Repairer

/-- The imports of a document that lead nowhere. -/
def brokenImports (r : Repairer) (d : Document) : List RelativeImport :=
  (relativeImports d).filter fun i => !isResolvable r.disk d.extension d.directory i.path

/-- How a file is shown to the user: from the root of the workspace. -/
def label (r : Repairer) (path : String) : String :=
  Path.toSlashes (String.ofList (path.toList.drop r.root.toList.length))

/-- The edit that makes an import lead to a file. -/
def redirect (r : Repairer) (d : Document) (i : RelativeImport) (path : String) : Dialogue Edit :=
  .files fun files =>
    match files.find? (·.path == Path.normalize path) with
    | none => .failed (.notIndexed path)
    | some c =>
      Dialogue.ofExcept do
        let (_, importPath) ← c.nameAndPath r.disk.cwd d.directory
        let mark := String.singleton i.quote
        return ⟨i.start, i.stop, mark ++ importPath ++ mark⟩

/-- What has been found for each last segment. -/
abbrev Searches := List (String × List String)

/-- The files that an import may mean; a segment is looked for only once. -/
def search (r : Repairer) (d : Document) (i : RelativeImport) (searches : Searches) :
    Dialogue (List String × Searches) :=
  match searches.find? (·.1 == i.lastSegment) with
  | some (_, found) => .done (found, searches)
  | none =>
    .files fun files =>
      let others := files.filter (·.path != Path.normalize d.path)
      let found := filesNamedLike r.family i.lastSegment others
      .done (found, (i.lastSegment, found) :: searches)

/-- How far a pass has come. -/
structure Progress where
  edits : List Edit
  unresolved : List RelativeImport
  ambiguous : List RelativeImport
  searches : Searches

def Progress.report (p : Progress) (status : RepairStatus) : RepairReport :=
  ⟨status, p.edits, p.unresolved⟩

/-- Sorts the imports by how many files they may mean, and corrects those with one. The result is on
the right unless the pass was cancelled. -/
def sortOut (r : Repairer) (d : Document) : List RelativeImport → Progress →
    Dialogue (RepairReport ⊕ Progress)
  | [], p => .done (.inr p)
  | i :: rest, p =>
    .isCancelled fun
      | true => .done (.inl (p.report .cancelled))
      | false => do
        let (found, searches) ← r.search d i p.searches
        let p := { p with searches := searches }
        match found with
        | [] => sortOut r d rest { p with unresolved := p.unresolved ++ [i] }
        | [path] =>
          let edit ← r.redirect d i path
          sortOut r d rest { p with edits := p.edits ++ [edit] }
        | _ => sortOut r d rest { p with ambiguous := p.ambiguous ++ [i] }

/-- Each label once, with the last path that has it. -/
def labelled (r : Repairer) (paths : List String) : List (String × String) :=
  paths.foldl
    (fun labels path =>
      let text := r.label path
      if labels.any (·.1 == text) then
        labels.map fun l => if l.1 == text then (text, path) else l
      else labels ++ [(text, path)])
    []

/-- Asks for each ambiguous import which file is meant. -/
def askEach (r : Repairer) (d : Document) : List RelativeImport → Progress → Dialogue RepairReport
  | [], p => .done (p.report (if p.unresolved.isEmpty then .allFixed else .partiallyFixed))
  | i :: rest, p =>
    .isCancelled fun
      | true => .done (p.report .cancelled)
      | false => do
        let (found, searches) ← r.search d i p.searches
        let p := { p with searches := searches }
        let labels := r.labelled found
        .select (labels.map (·.1)) i.path fun
          | none => .done (p.report .cancelled)
          | some chosen =>
            if chosen = "" then .done (p.report .cancelled)
            else
              .isCancelled fun
                | true => .done (p.report .cancelled)
                | false =>
                  match labels.find? (·.1 == chosen) with
                  | none => .failed (.notOffered chosen)
                  | some (_, path) => do
                    let edit ← r.redirect d i path
                    askEach r d rest { p with edits := p.edits ++ [edit] }

/-- Repairs the broken imports of a document. -/
def fix (r : Repairer) (d : Document) : Dialogue RepairReport :=
  match r.brokenImports d with
  | [] => .done ⟨.nothingBroken, [], []⟩
  | broken => do
    match ← r.sortOut d broken ⟨[], [], [], []⟩ with
    | .inl report => pure report
    | .inr p => r.askEach d p.ambiguous p

end Repairer

end ImportAssist
