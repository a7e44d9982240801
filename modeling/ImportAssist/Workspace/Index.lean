import ImportAssist.Workspace.Ignore
import ImportAssist.Workspace.Manifest

/-!
# The index of a workspace

For one language, the index keeps the files of a workspace and the packages of its manifests. Files
are listed when they are first asked for; after that the index follows the events it is told of, and
looks at the disk again only when it has been invalidated.
-/

namespace ImportAssist

structure WorkspaceIndex where
  /-- The absolute root of the workspace. -/
  root : String
  options : Options
  family : Family
  /-- The files in the order in which they were listed and added; none until they are listed. -/
  files? : Option (List FileCandidate)
  /-- The packages of each manifest that has been read. -/
  packages : List (String × List PackageCandidate)

namespace WorkspaceIndex

def create (cwd root : String) (options : Options) (family : Family) : WorkspaceIndex :=
  ⟨Path.absolute cwd root, options, family, none, []⟩

def isBuilt (index : WorkspaceIndex) : Bool := index.files?.isSome

/-- The candidate for a file of the workspace. -/
def candidate (index : WorkspaceIndex) (cwd path : String) : FileCandidate :=
  FileCandidate.create cwd index.root index.options index.family path

/-- The files, listed now if they have not been. -/
def build (disk : Disk) (index : WorkspaceIndex) :
    Except Failure (List FileCandidate × WorkspaceIndex) :=
  match index.files? with
  | some files => .ok (files, index)
  | none => do
    let files := (← listFiles disk index.root true).map (index.candidate disk.cwd)
    return (files, { index with files? := some files })

/-- Takes in a file that has been created. -/
def add (disk : Disk) (path : String) (index : WorkspaceIndex) : Except Failure WorkspaceIndex :=
  match index.files? with
  | none => .ok index
  | some files =>
    let path := Path.absolute disk.cwd path
    if !Path.isWithin index.root path then .ok index
    else do
      let rules ← loadIgnoreRules disk index.root
      if shouldIgnore rules index.root path then return index
      let added := index.candidate disk.cwd path
      if files.any (·.path == added.path) then return index
      return { index with files? := some (files ++ [added]) }

/-- Drops a file that has been deleted. -/
def remove (cwd path : String) (index : WorkspaceIndex) : WorkspaceIndex :=
  let path := Path.normalize (Path.absolute cwd path)
  { index with files? := index.files?.map (·.filter (·.path != path)) }

/-- Forgets all; the next request lists again. -/
def invalidate (index : WorkspaceIndex) : WorkspaceIndex := { index with files? := none, packages := [] }

/-- The packages for documents in a directory, read now if their manifest has not been. -/
def packagesFor (disk : Disk) (directory : String) (index : WorkspaceIndex) :
    Except Failure (List PackageCandidate × WorkspaceIndex) :=
  match Manifest.find? disk directory index.root with
  | none => .ok ([], index)
  | some manifest =>
    match index.packages.find? (·.1 == manifest) with
    | some (_, found) => .ok (found, index)
    | none => do
      let found ← Manifest.packages disk index.root manifest
      return (found, { index with packages := (manifest, found) :: index.packages })

end WorkspaceIndex

end ImportAssist
