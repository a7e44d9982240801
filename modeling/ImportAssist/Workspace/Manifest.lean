import ImportAssist.Candidate

/-!
# Manifests

A manifest declares the packages a directory depends on. For a document the nearest one counts, on
the way up to the root of the workspace.
-/

namespace ImportAssist.Manifest

def fileName : String := "package.json"

/-- The nearest manifest at or above a directory, not above `root`. `fuel` bounds the way up. -/
def findFrom (disk : Disk) (root : String) : Nat → String → Option String
  | 0, _ => none
  | fuel + 1, directory =>
    let manifest := Path.join directory fileName
    if disk.isFile manifest then some manifest
    else if directory = root || Path.directory directory = directory then none
    else findFrom disk root fuel (Path.directory directory)

/-- The manifest for documents in a directory. -/
def find? (disk : Disk) (directory root : String) : Option String :=
  let start := Path.absolute disk.cwd directory
  findFrom disk (Path.absolute disk.cwd root) ((Path.pieces start).length + 1) start

/-- The object in a JSON file; none if the file cannot be read or holds something else. -/
def readObject? (disk : Disk) (path : String) : Except Failure (Option Json) :=
  match disk.readJson path with
  | .error failure => .error failure
  | .ok (.ok (.obj members)) => .ok (some (.obj members))
  | .ok _ => .ok none

/-- The version that an installed package declares. -/
def declaredVersion (manifest? : Option Json) : Option String :=
  ((manifest?.bind (·.member? "version")).filter Json.isTruthy).map Json.display

/-- The manifest of a package that is installed below a directory. -/
def installedPath (base package : String) : String :=
  Path.join ((Path.pieces package).foldl Path.join (Path.join base "node_modules")) fileName

/-- The version of a package installed next to its manifest or in the workspace; empty if it is not
known. -/
def installedVersion (disk : Disk) (root directory package : String) : Except Failure String := do
  match declaredVersion (← readObject? disk (installedPath directory package)) with
  | some version => return version
  | none =>
    return (declaredVersion (← readObject? disk (installedPath root package))).getD ""

/-- The names that a section of a manifest declares. -/
def sectionNames (manifest : Json) (name : String) : List String :=
  match manifest.member? name with
  | some (.obj members) => members.map (·.1)
  | _ => []

/-- Each of some sorted names once. -/
def dropRepeats : List String → List String
  | a :: b :: rest => if a = b then dropRepeats (b :: rest) else a :: dropRepeats (b :: rest)
  | rest => rest

/-- The packages that a manifest declares, by name. -/
def packages (disk : Disk) (root manifest : String) : Except Failure (List PackageCandidate) := do
  match ← readObject? disk manifest with
  | none => return []
  | some data =>
    let names := sectionNames data "dependencies" ++ sectionNames data "devDependencies"
    (dropRepeats names.mergeSort).mapM fun name => do
      return ⟨name, ← installedVersion disk root (Path.directory manifest) name⟩

end ImportAssist.Manifest
