import ImportAssist.Naming
import ImportAssist.Path

/-!
# Candidates

A candidate is a file of the workspace or an installed package that can be imported. It is known by
its identity, the path of the file or the name of the package; label and description show it.
-/

namespace ImportAssist

/-- The extensions of the files that a language imports as modules. -/
inductive Family where
  | javascript
  /-- TypeScript files as well. -/
  | both
  deriving DecidableEq, Repr

/-- A text without one line feed at its end. -/
def dropFinalBreak (text : String) : String :=
  let chars := text.toList
  if chars.getLast? == some '\n' then String.ofList chars.dropLast else text

def Family.extensions : Family → List String
  | .javascript => ["js", "jsx"]
  | .both => ["js", "jsx", "ts", "tsx"]

def Family.contains (family : Family) (extension : String) : Bool :=
  family.extensions.contains (dropFinalBreak extension)

/-- Whether a file name is that of an index file. -/
def Family.isIndexName (family : Family) (fileName : String) : Bool :=
  match (fileName.toList.splitOn '.').map String.ofList with
  | [stem, extension] => stem = "index" && family.contains extension
  | _ => false

/-! ## Files -/

structure FileCandidate where
  /-- The normal path of the file. -/
  path : String
  /-- The way to the file from the root of the workspace. -/
  fromRoot : String
  options : Options
  family : Family

namespace FileCandidate

def create (cwd root : String) (options : Options) (family : Family) (path : String) :
    FileCandidate :=
  let path := Path.normalize path
  ⟨path, Path.toSlashes (Path.relative cwd path root), options, family⟩

def isIndex (c : FileCandidate) : Bool := c.family.isIndexName (Path.fileName c.path)

/-- Whether the file is a module of the family. -/
def inFamily (c : FileCandidate) : Bool := c.family.contains (Path.extension c.path)

/-- Whether the file is imported through its directory. -/
def throughDirectory (c : FileCandidate) : Bool := c.options.indexFile && c.isIndex

/-- Whether import paths leave out the extension. -/
def withoutExtension (c : FileCandidate) : Bool := !c.options.fileExtension && c.inFamily

def label (c : FileCandidate) : String :=
  if c.throughDirectory then Path.directoryName c.path
  else if c.withoutExtension then Path.stem c.path
  else Path.fileName c.path

/-- The directory of the file from the root; for an index file that stands for its directory, the
file itself. -/
def description (c : FileCandidate) : String :=
  if c.throughDirectory then c.fromRoot
  else
    let parent := Path.stripLastSegment c.fromRoot
    if parent = "." then "" else parent

/-- The name of the binding and the import path for a document in `fromDirectory`. -/
def nameAndPath (cwd : String) (c : FileCandidate) (fromDirectory : String) :
    Except Failure (String × String) := do
  let name ← variableName (Path.stem c.path) c.options
  let path := Path.importPath cwd c.path fromDirectory
  if c.throughDirectory then
    return (← variableName (Path.directoryName c.path) c.options, Path.stripLastSegment path)
  else if c.withoutExtension then
    return (name, Path.stripExtension path (Path.extension c.path))
  else return (name, path)

/-- Index files come first in their directory, the others by name. -/
def sortName (c : FileCandidate) : String :=
  if c.isIndex then "" else toLower (Path.fileName c.path)

end FileCandidate

/-! ## Packages -/

structure PackageCandidate where
  name : String
  /-- The installed version; empty if it is not known. -/
  version : String
  deriving DecidableEq, Repr

namespace PackageCandidate

def id (p : PackageCandidate) : String := "pkg://" ++ p.name

def description (p : PackageCandidate) : String :=
  if p.version = "" then "" else "v" ++ p.version

end PackageCandidate

inductive Candidate where
  | file (file : FileCandidate)
  | package (package : PackageCandidate)

namespace Candidate

def id : Candidate → String
  | file c => c.path
  | package p => p.id

def label : Candidate → String
  | file c => c.label
  | package p => p.name

def description : Candidate → String
  | file c => c.description
  | package p => p.description

/-- Candidates of one kind are the same if their identities are. -/
def same : Candidate → Candidate → Bool
  | file a, file b => a.path == b.path
  | package a, package b => a.id == b.id
  | _, _ => false

end Candidate

/-! ## Order -/

/-- How near a file is to a document. -/
structure Proximity where
  /-- How many directories the file shares with the document. -/
  shared : Nat
  /-- How many directories it lies below them. -/
  below : Nat
  /-- Its directory in lower case. -/
  directory : String
  deriving DecidableEq, Repr

namespace Proximity

def directoryParts (path : String) : List String :=
  (Path.pieces (Path.toSlashes (Path.directory path))).filter (· ≠ "")

def of (file document : String) : Proximity :=
  let parts := directoryParts file
  let shared := Path.sharedLength (directoryParts document) parts
  ⟨shared, parts.length - shared, toLower ("/".intercalate parts)⟩

/-- Nearer, or as near with a name that does not come later. -/
def le (a b : Proximity × String) : Bool :=
  let (p, name) := a
  let (q, name') := b
  if p.shared ≠ q.shared then q.shared < p.shared
  else if p.below ≠ q.below then p.below < q.below
  else if p.directory ≠ q.directory then p.directory < q.directory
  else name ≤ name'

end Proximity

/-- Files by their proximity to a document, then packages by name. -/
def sortCandidates (document : String) (files : List FileCandidate)
    (packages : List PackageCandidate) : List Candidate :=
  let keyed := files.map fun c => ((Proximity.of c.path document, c.sortName), c)
  let sorted := keyed.mergeSort fun a b => Proximity.le a.1 b.1
  sorted.map (.file ·.2) ++ (packages.mergeSort fun a b => a.name ≤ b.name).map .package

end ImportAssist
