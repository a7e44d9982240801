import ImportAssist.Inventory.Exports
import ImportAssist.Modules.Location
import ImportAssist.Syntax.Parse

/-!
# What a module exports

`exportedNames` lists the names that a file exports, with those of the modules it re-exports as a
whole put in their place. A file that is reached again while it is being listed adds nothing, so
cycles do no harm. `exportedThroughIndex` lists the names of a file that an index file passes on.

A file that cannot be read or parsed exports nothing.
-/

namespace ImportAssist

/-- What one statement adds to the names of a module. -/
inductive Contribution where
  | names (names : List String)
  /-- All names of another file. -/
  | star (file : String)
  deriving DecidableEq, Repr

/-- The source and the tree of a file. -/
def readModule (disk : Disk) (file : String) : Option (Bytes × Node) :=
  match disk.read file with
  | .error _ => none
  | .ok source => (parse source (Path.extension (Path.normalize file))).map (source, ·)

/-- Whether a path is relative to the importing file. -/
def isRelative (path : String) : Bool := path.toList.head? == some '.'

/-- The file that a relative path means inside another file. -/
def relativeModule? (disk : Disk) (file : String) (path? : Option String) : Option String :=
  (path?.filter isRelative).map
    (modulePath disk (Path.extension (Path.normalize file)) (Path.directory (Path.normalize file)))

/-- What an export statement adds. -/
def exportContribution (disk : Disk) (file : String) (source : Bytes) (statement : Node) :
    Except DecodeError Contribution := do
  match (statement.child? .declaration).filter fun _ => !ExportStatement.isDefault statement with
  | some declaration => return .names (← ExportStatement.declaredNames source declaration)
  | none =>
    match (← ExportStatement.wildcardName? source statement).filter (· ≠ "") with
    | some name => return .names [name]
    | none =>
      let path? ← checkedString source (statement.child? .source)
      if ExportStatement.isStar statement then
        match relativeModule? disk file path? with
        | some target => return .star target
        | none => return .names []
      else return .names ((← ExportStatement.specifiers source statement).map (·.1))

/-- What an assignment to `module.exports` or one of its members adds. -/
def assignmentContribution (source : Bytes) (statement : Node) : Except DecodeError Contribution :=
  match ExportAssignment.ofModule? source statement with
  | some assignment =>
    match (assignment.child? .right).filter (·.hasKind .object) with
    | some object => do return .names (← ExportAssignment.entryNames source object)
    | none => .ok (.names [])
  | none => .ok (.names (ExportAssignment.memberName? source statement).toList)

/-- What one statement at the top level adds. -/
def contribution (disk : Disk) (file : String) (source : Bytes) (statement : Node) :
    Except DecodeError Contribution :=
  if statement.hasKind .exportStatement then exportContribution disk file source statement
  else if statement.hasKind .expressionStatement then assignmentContribution source statement
  else .ok (.names [])

/-- What the statements of a file add, in order; none if the file cannot be read or parsed. -/
def contributions (disk : Disk) (file : String) : Except DecodeError (Option (List Contribution)) :=
  match readModule disk file with
  | none => .ok none
  | some (source, tree) => do
    return some (← tree.namedChildren.mapM (contribution disk file source))

/-! ## Following re-exports -/

/-- Files that have been listed, and files that are being listed. -/
structure Listing where
  done : List (String × List String)
  visiting : List String

namespace Listing

def fresh : Listing := ⟨[], []⟩

def names? (l : Listing) (file : String) : Option (List String) :=
  (l.done.find? (·.1 == file)).map (·.2)

def enter (l : Listing) (file : String) : Listing := { l with visiting := file :: l.visiting }

/-- Records the names of a file that has been listed. -/
def leave (l : Listing) (file : String) (names : List String) : Listing :=
  ⟨(file, names) :: l.done, l.visiting.filter (· ≠ file)⟩

end Listing

/-- Each element once, where it stands first. -/
def unique (names : List String) : List String :=
  names.foldl (fun seen name => if seen.contains name then seen else seen ++ [name]) []

/-- The names that contributions add, where `follow` lists another file. -/
def collect (follow : String → Listing → Except DecodeError (List String × Listing)) :
    List Contribution → Listing → Except DecodeError (List String × Listing)
  | [], l => .ok ([], l)
  | .names names :: rest, l => do
    let (more, l) ← collect follow rest l
    return (names ++ more, l)
  | .star file :: rest, l => do
    let (names, l) ← follow file l
    let (more, l) ← collect follow rest l
    return (names ++ more, l)

/-- A name that can be imported by itself. -/
def isImportable (name : String) : Bool := name ≠ "" && name ≠ "default"

/-- Lists the names of a file. `fuel` bounds how many files are visited inside each other. -/
def listNames (disk : Disk) : Nat → String → Listing → Except DecodeError (List String × Listing)
  | 0, _, l => .ok ([], l)
  | fuel + 1, file, l =>
    match l.names? file with
    | some names => .ok (names, l)
    | none =>
      if l.visiting.contains file then .ok ([], l)
      else do
        match ← contributions disk file with
        | none => return ([], (l.enter file).leave file [])
        | some parts =>
          let (names, l) ← collect (listNames disk fuel) parts (l.enter file)
          let result := unique (names.filter isImportable)
          return (result, l.leave file result)

/-- More files than can be visited inside each other: every one of them but the last is on the
disk. -/
def listingDepth (disk : Disk) : Nat := disk.entries.length + 2

/-- The names that a file exports, without its default export. -/
def exportedNames (disk : Disk) (file : String) : Except DecodeError (List String) := do
  return (← listNames disk (listingDepth disk) (Path.normalize file) .fresh).1

/-! ## Through an index file -/

/-- The names that an import statement binds, without one for the whole module. -/
def importedNames (source : Bytes) (statement : Node) : List String :=
  let clause := ImportClause.ofStatement statement
  (clause.default?.map fun n => n.text source).toList
    ++ clause.specifiers.map (ImportClause.specifierName source)

/-- The names bound in an index file, each with the file it comes from; the last binding of a name
stands first. -/
def importOrigins (disk : Disk) (index : String) (source : Bytes) (tree : Node) :
    Except DecodeError (List (String × String)) := do
  let bindings ← (tree.childrenOfKind .importStatement).mapM fun statement => do
    match relativeModule? disk index (← checkedString source (statement.child? .source)) with
    | some origin => return (importedNames source statement).map (·, origin)
    | none => return []
  return bindings.flatten.reverse

/-- The names of `file` that one export statement of an index file passes on. -/
def passedOn (disk : Disk) (file index : String) (source : Bytes)
    (origins : List (String × String)) (statement : Node) (l : Listing) :
    Except DecodeError (List String × Listing) := do
  let path? ← checkedString source (statement.child? .source)
  let origin? := (relativeModule? disk index path?).map Path.normalize
  if ExportStatement.isStar statement then
    match origin? with
    | none => return ([], l)
    | some origin =>
      let (names, after) ← listNames disk (listingDepth disk) origin ⟨l.done, []⟩
      return (if origin = file then names else [], after)
  else
    let pairs ← ExportStatement.specifiers source statement
    let names := pairs.filterMap fun (exported, inner) =>
      let from? :=
        if path?.isSome then origin?
        else (origins.find? (·.1 == inner)).map fun o => Path.normalize o.2
      if from? = some file && exported ≠ "default" then some exported else none
    return (names, l)

/-- The names of a file that can be imported through an index file. -/
def exportedThroughIndex (disk : Disk) (file index : String) : Except DecodeError (List String) := do
  let file := Path.normalize file
  let index := Path.normalize index
  if Path.stem file = "index" then exportedNames disk index
  else
    match readModule disk index with
    | none => return []
    | some (source, tree) =>
      let origins ← importOrigins disk index source tree
      let (names, _) ← (tree.childrenOfKind .exportStatement).foldlM
        (fun (names, l) statement => do
          let (more, l) ← passedOn disk file index source origins statement l
          return (names ++ more, l))
        ([], Listing.fresh)
      return unique names

end ImportAssist
