import ImportAssist.Dialogue
import ImportAssist.Document
import ImportAssist.Modules.Surface
import ImportAssist.Synthesis.Merge

/-!
# Adding an import

`Synthesizer.add` imports a candidate into a document. A module gets a binding: what it exports
decides which, and where there is a choice the user is asked. A stylesheet is imported without a
binding, and any other file is loaded at the caret.

Nothing is edited here. A dialogue that ends early has no edits.
-/

namespace ImportAssist

structure Synthesizer where
  disk : Disk
  options : Options
  /-- Whether packages are imported under a name for the whole module. -/
  wildcardPackages : Bool

/-- The imports in the tree of a source; none if there is no tree. -/
def importsIn (source : Bytes) : Option Node → List Import
  | some tree => imports source tree
  | none => []

/-- The imports of a document; none if it does not parse. -/
def Document.imports (d : Document) : List Import :=
  importsIn d.source (parse d.source d.language)

/-- The offset in front of the first import. -/
def insertionOffset (found : List Import) : Nat :=
  match found.head? with
  | some first => first.statement.start
  | none => 0

/-- The first import of a path. -/
def findDuplicate (found : List Import) (path : String) : Option Import :=
  found.find? (·.path == path)

/-- The span to delete when the binding of an import is replaced. Of several declarators only one
goes, with a gap to its neighbour; anything else goes with its line. -/
def removalRange (d : Document) (conflict : Import) : Int × Int :=
  let declarators := conflict.statement.childrenOfKind .variableDeclarator
  let position := declarators.findIdx (·.start == conflict.node.start)
  if conflict.form = .requireDeclaration && 1 < declarators.length then
    match declarators[position + 1]? with
    | some next => (conflict.node.start, next.start)
    | none =>
      match declarators[position - 1]? with
      | some previous => (previous.stop, conflict.node.stop)
      | none => (conflict.node.start, conflict.node.stop)
  else d.lineRange conflict.statement.start conflict.statement.stop

/-- The extensions of stylesheets. -/
def isStylesheet (extension : String) : Bool :=
  ["css", "less", "sass", "scss", "styl"].contains (dropFinalBreak extension)

namespace Synthesizer

def startOf (d : Document) (i : Import) : Point := Point.ofOffset d.source i.statement.start

/-! ## Which binding -/

/-- The index file next to a candidate. -/
def indexPath (c : FileCandidate) : String :=
  Path.join (Path.directory c.path) ("index." ++ Path.extension c.path)

/-- The import path of an index file. -/
def indexImportPath (s : Synthesizer) (index directory : String) : String :=
  let index := Path.normalize index
  let path := Path.importPath s.disk.cwd index directory
  if s.options.indexFile then Path.stripLastSegment path
  else if !s.options.fileExtension then Path.stripExtension path (Path.extension index)
  else path

/-- What to import: a binding from a path, or an outcome that needs no binding. -/
inductive Decision where
  | bind (binding : Binding) (path : String)
  | stop (outcome : Outcome)
  deriving DecidableEq, Repr

def everything : String := "*"

/-- Asks which of several exports to import, or all of them under `name`. -/
def chooseExport (name path : String) (exported : List String) : Dialogue Decision :=
  .select (everything :: exported) "" fun
    | none => .done (.stop .cancelled)
    | some chosen =>
      if chosen = "" then .done (.stop .cancelled)
      else if chosen = everything then .done (.bind (.wildcard name) path)
      else .done (.bind (.named chosen) path)

/-- One export is taken, of several the user chooses. -/
def takeExport (name path : String) : List String → Dialogue Decision
  | [only] => .done (.bind (.named only) path)
  | exported => chooseExport name path exported

/-- The binding by the exports of the file itself. -/
def decideByFile (s : Synthesizer) (c : FileCandidate) (name path : String) : Dialogue Decision :=
  match readModule s.disk c.path with
  | none => .done (.bind (.default name) path)
  | some (source, tree) =>
    if hasDefaultExport source tree then .done (.bind (.default name) path)
    else do
      match ← Dialogue.ofExcept ((exportedNames s.disk c.path).mapError fun _ => .notUtf8) with
      | [] => .done (.bind (.wildcard name) path)
      | exported => takeExport name path exported

/-- The import of a whole index file that already brings a candidate in. -/
def wholeIndex? (found : List Import) (path : String) : Option Import :=
  (findDuplicate found path).filter fun i =>
    i.isDeclaration && (ImportClause.ofStatement i.node).wildcard?.isSome

/-- The binding for a module: by the names that its index file passes on, otherwise by its own. -/
def decide (s : Synthesizer) (d : Document) (found : List Import) (c : FileCandidate)
    (name path : String) : Dialogue Decision := do
  let index := indexPath c
  if s.disk.isFile index then
    let exported ← Dialogue.ofExcept
      ((exportedThroughIndex s.disk c.path index).mapError fun _ => .notUtf8)
    if exported.isEmpty then decideByFile s c name path
    else
      let through := s.indexImportPath index d.directory
      match wholeIndex? found through with
      | some i => .done (.stop (.alreadyImported (.throughIndex name through) (startOf d i)))
      | none => takeExport name through exported
  else decideByFile s c name path

/-! ## Edits -/

/-- Puts a new import in front of the others. An identifier that is bound already is replaced if the
user says so. -/
def insert (s : Synthesizer) (d : Document) (found : List Import) (binding : Binding)
    (path : String) : Dialogue Outcome :=
  let statement := importStatement binding.render path s.options.form s.options d.lineBreak
  let new := Edit.insert (insertionOffset found) statement
  match binder? d.source found binding.identifier with
  | none => .done (.inserted [new])
  | some conflict =>
    .confirmReplace binding.identifier fun
      | none => .done .cancelled
      | some false => .done (.inserted [new])
      | some true =>
        let (start, stop) := removalRange d conflict
        .done (.inserted [.delete start stop, new])

/-- What to import in the form of statement that is asked for; a require statement takes the whole
module. -/
def decideForm (s : Synthesizer) (d : Document) (found : List Import) (c : FileCandidate)
    (name path : String) : Dialogue Decision :=
  if s.options.form = .declaration then s.decide d found c name path
  else .done (.bind (.default name) path)

/-- Carries a decision out: a new statement, or a change to one that imports the path already. -/
def carryOut (s : Synthesizer) (d : Document) (found : List Import) : Decision → Dialogue Outcome
  | .stop outcome => .done outcome
  | .bind binding path =>
    match findDuplicate found path with
    | none => s.insert d found binding path
    | some i =>
      if s.options.grouping && i.isDeclaration then .done (merge d.source i.node binding path)
      else .done (.alreadyImported (.module binding.identifier) (startOf d i))

/-- Imports a module with a binding. -/
def addModule (s : Synthesizer) (d : Document) (found : List Import) (c : FileCandidate) :
    Dialogue Outcome := do
  let (name, path) ← Dialogue.ofExcept (c.nameAndPath s.disk.cwd d.directory)
  let decision ← s.decideForm d found c name path
  s.carryOut d found decision

/-- Imports a file that is no module. -/
def addAsset (s : Synthesizer) (d : Document) (found : List Import) (c : FileCandidate) :
    Dialogue Outcome := do
  let (_, path) ← Dialogue.ofExcept (c.nameAndPath s.disk.cwd d.directory)
  if isStylesheet (Path.extension c.path) then
    match findDuplicate found path with
    | some i => pure (.alreadyImported (.module c.label) (startOf d i))
    | none =>
      let statement := importStatement "" path s.options.form s.options d.lineBreak
      pure (.inserted [.insert (insertionOffset found) statement])
  else pure (.inserted [.insert d.cursor (requireExpression s.options path)])

/-- Imports a package. -/
def addPackage (s : Synthesizer) (d : Document) (found : List Import) (p : PackageCandidate) :
    Dialogue Outcome := do
  match findDuplicate found p.name with
  | some i => pure (.alreadyImported (.module p.name) (startOf d i))
  | none =>
    let name ← Dialogue.ofExcept (variableName p.name s.options)
    let binding : Binding :=
      if s.wildcardPackages && s.options.form = .declaration then .wildcard name else .default name
    let statement := importStatement binding.render p.name s.options.form s.options d.lineBreak
    pure (.inserted [.insert (insertionOffset found) statement])

/-- Imports a candidate into a document that has the imports `found`. -/
def addAmong (s : Synthesizer) (d : Document) (found : List Import) : Candidate → Dialogue Outcome
  | .package p => s.addPackage d found p
  | .file c => if c.inFamily then s.addModule d found c else s.addAsset d found c

/-- Imports a candidate into a document. -/
def add (s : Synthesizer) (d : Document) (c : Candidate) : Dialogue Outcome :=
  s.addAmong d d.imports c

end Synthesizer

end ImportAssist
