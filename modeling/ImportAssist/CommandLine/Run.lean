import ImportAssist.CommandLine.Arguments
import ImportAssist.CommandLine.Console
import ImportAssist.Text.Diff

/-!
# Running the program

`runWith` plays one run of the program with a terminal, with one who answers its questions and with a
linter, and `run` one that has nothing but a terminal. The disk is a value: what the run writes is in
the session that it leaves behind.
-/

namespace ImportAssist.CommandLine

open Session (Acting)

variable {m : Type → Type} [Monad m]

/-! ## Histories -/

def recentPath (root : String) : String :=
  Path.join (Path.join root Config.directoryName) "recent.json"

/-- Takes over the stored histories; a file that cannot be read is passed over. -/
def loadRecent : Acting m Unit := do
  let s ← get
  let path := recentPath s.root
  if s.disk.has path then
    match s.disk.readJson path with
    | .error failure => throw failure
    | .ok (.error _) => pure ()
    | .ok (.ok data) =>
      let (result, recency) := s.recency.load data
      set { s with recency := recency }
      match result with
      | .error .notATable | .ok () => pure ()
      | .error failure => throw failure

/-- Whether a directory can be made: nothing on the way to it is a file. -/
def canMake (disk : Disk) (segments : List String) : Bool :=
  (Disk.ancestry segments).all fun above =>
    match disk.at? above with
    | some (.file _) => false
    | _ => true

/-- Stores the histories if there is a place for them. -/
def saveRecent (s : Session) : Session :=
  let directory := (Path.Parts.read (Path.join s.root Config.directoryName)).segments
  if canMake s.disk directory then
    let made := s.disk.makeDirectory directory
    match made.write (recentPath s.root) (Utf8.encode s.recency.toJson.indented) with
    | .ok disk => { s with disk := disk }
    | .error _ => { s with disk := made }
  else s

/-! ## Documents -/

def openDocument (disk : Disk) (path : String) : Except Failure Document := do
  Document.load disk path (← Language.identifierOf path) 0

def liftExcept {α : Type} : Except Failure α → Acting m α
  | .ok a => pure a
  | .error failure => throw failure

/-- Writes the edited document, or shows what would change. -/
def write (t : Terminal m) (d : Document) (dryRun : Bool) (edits : List Edit) : Acting m Unit := do
  let updated ← liftExcept (d.apply edits)
  if dryRun then
    liftM (t.print (Diff.unified d.path (linesWithBreaks d.text) (linesWithBreaks updated.text)))
  else
    let s ← get
    match s.disk.write d.path updated.source with
    | .ok disk => set { s with disk := disk }
    | .error e => throw (.disk e)

/-- One who tidies a file up. -/
abbrev Linter (m : Type → Type) := String → Acting m Unit

/-- What comes of a linter that is not installed. -/
def missingLinter : Linter m := fun _ => throw (.disk ⟨.missing, "npx"⟩)

/-- The terminal and the disk as the place where edits of a document go. Where nothing is written
there is nothing to tidy up. -/
def desk (t : Terminal m) (linter : Option (Linter m)) (d : Document) (dryRun : Bool) : Session.Desk m where
  notify notice := liftM (t.printNotice (noticeText notice))
  applier := some (write t d dryRun)
  linter := if dryRun then none else linter

/-! ## Commands -/

/-- The candidates of a document. -/
def candidatesOf (d : Document) : Acting m (List Candidate) := do
  let (result, s) := (← get).candidates d
  set s
  match ← liftExcept result with
  | some (_, items) => return items
  | none => throw (.unsupportedFile d.path)

def runCandidates (t : Terminal m) (file : String) : Acting m Nat := do
  let d ← liftExcept (openDocument (← get).disk file)
  let items ← candidatesOf d
  liftM (t.print (String.join (items.map fun c => c.label ++ "\t" ++ c.description ++ "\n")))
  return 0

/-- The candidate that the user means: a file by its path or a package by its name. -/
def findCandidate (cwd target : String) (items : List Candidate) : Option Candidate :=
  let path := Path.normalize (Path.join cwd target)
  items.find? fun
    | .file c => c.path == path
    | .package p => p.name == target

variable (t : Terminal m) (selector : Selector m) (linter : Option (Linter m))

def runAdd (file target : String) (dryRun : Bool) : Acting m Nat := do
  let disk := (← get).disk
  let d ← liftExcept (openDocument disk file)
  match findCandidate disk.cwd target (← candidatesOf d) with
  | none =>
    (desk t linter d dryRun).tell [.error ("\"" ++ target ++ "\" is not an importable file or package.")]
    return 1
  | some c =>
    let _ ← Session.addImport selector.front (desk t linter d dryRun) d c
    modify saveRecent
    return 0

def runFix (file : String) (dryRun : Bool) : Acting m Nat := do
  let d ← liftExcept (openDocument (← get).disk file)
  match ← Session.fixImports selector.front (desk t linter d dryRun) d with
  | none => return 1
  | some _ => return 0

def runCommand : Command → Acting m Nat
  | .candidates file => runCandidates t file
  | .add file target dryRun => runAdd t selector linter file target dryRun
  | .fix file dryRun => runFix t selector linter file dryRun

/-- Whether a failure is reported to the user. -/
def isReported : Failure → Bool
  | .invalidSettings _ | .unreadableSettings _ _ | .unsupportedFile _ | .disk _ => true
  | _ => false

/-- Reports a failure, if it is one to report. -/
def report (failure : Failure) : m (Except Failure Nat) := do
  if isReported failure then
    t.printNotice (noticeText (.error failure.message))
    return .ok 1
  else return .error failure

/-- Runs what the arguments ask for; the linter only if they ask for it. The result is the exit code
and the disk afterwards. -/
def runWith (linter : Linter m) (disk : Disk) (arguments : Arguments) : m (Except Failure Nat × Disk) := do
  let root := Path.absolute disk.cwd ((arguments.root.filter (· ≠ "")).getD disk.cwd)
  match Config.load disk root arguments.config with
  | .error failure => return (← report t failure, disk)
  | .ok config =>
    let start := Session.create disk root config
    let action : Acting m Nat := do
      loadRecent
      runCommand t selector (if arguments.lint then some linter else none) arguments.command
    let (result, s) ← (ExceptT.run action).run start
    match result with
    | .ok code => return (.ok code, s.disk)
    | .error failure => return (← report t failure, s.disk)

/-- Runs what the arguments ask for on a terminal that no linter comes with. -/
def run (disk : Disk) (arguments : Arguments) : m (Except Failure Nat × Disk) :=
  runWith t t.selector missingLinter disk arguments

end ImportAssist.CommandLine
