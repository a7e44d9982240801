import ImportAssist.Recency
import ImportAssist.Session.Language
import ImportAssist.Settings.Load

/-!
# Sessions

A session serves one workspace: it lists candidates, adds and repairs imports, and follows events of
the disk and of the settings. What the user is asked goes through a `Front`, and what comes of it,
notices and edits, through a `Desk`; a session only says when.
-/

namespace ImportAssist

/-- What the user is told. -/
inductive Notice where
  | info (text : String)
  | warning (text : String)
  | error (text : String)
  /-- Show a place in the document. -/
  | reveal (point : Point)
  deriving DecidableEq, Repr

/-- What is told of an added import. -/
def Outcome.notices : Outcome → List Notice
  | .alreadyImported duplicate focus => [.info duplicate.message, .reveal focus]
  | _ => []

/-- What is told of a repair. -/
def RepairReport.notices (r : RepairReport) : List Notice :=
  match r.message? with
  | none => []
  | some text => if r.status = .partiallyFixed then [.warning text] else [.info text]

structure Session where
  disk : Disk
  /-- The absolute root of the workspace. -/
  root : String
  recency : Recency Json
  plugins : List Plugin

namespace Session

def createPlugins (cwd root : String) (config : Config) : List Plugin :=
  [.typescript, .javascript].map (Plugin.create cwd root config)

def create (disk : Disk) (root : String) (config : Config) : Session :=
  let root := Path.absolute disk.cwd root
  ⟨disk, root, .empty config.historyLimit, createPlugins disk.cwd root config⟩

/-- The plugin for a document, of those that have a capability. -/
def pluginFor (s : Session) (d : Document) (capability? : Option Capability) : Option Plugin :=
  s.plugins.find? fun p => capability?.all p.can && p.accepts d

/-- Puts a plugin in the place of the one for its language. -/
def setPlugin (s : Session) (plugin : Plugin) : Session :=
  { s with plugins := s.plugins.map fun p => if p.language = plugin.language then plugin else p }

/-! ## Events -/

/-- What one plugin does about an event. A file that was created or deleted is taken in or dropped;
anything else, and whatever it cannot follow, makes it forget its index. -/
def followEvent (disk : Disk) (kind : String) (file : String) (p : Plugin) : Except Failure Plugin :=
  if kind = "create" && file ≠ "" && p.can .addItem then do
    return { p with index := ← p.index.add disk file }
  else if kind = "delete" && file ≠ "" && p.can .cutItem then
    .ok { p with index := p.index.remove disk.cwd file }
  else if p.can .reset then .ok { p with index := p.index.invalidate }
  else .ok p

/-- Tells the plugins of an event one after the other, up to the first that fails. -/
def followAll (disk : Disk) (kind file : String) : List Plugin → Except Failure Unit × List Plugin
  | [] => (.ok (), [])
  | p :: rest =>
    match followEvent disk kind file p with
    | .error failure => (.error failure, p :: rest)
    | .ok p =>
      let (result, rest) := followAll disk kind file rest
      (result, p :: rest)

/-- An event on the disk; `file` is empty if it concerns no single file. -/
def onFileEvent (kind file : String) (s : Session) : Except Failure Unit × Session :=
  let (result, plugins) := followAll s.disk kind file s.plugins
  (result, { s with plugins := plugins })

/-- New settings. -/
def reload (config : Config) (s : Session) : Session :=
  { s with
    recency := { s.recency with limit := config.historyLimit }
    plugins := createPlugins s.disk.cwd s.root config }

/-! ## Candidates -/

/-- The candidates of a document, the recently used ones first; none if no language takes it. -/
def candidates (d : Document) (s : Session) :
    Except Failure (Option (Language × List Candidate)) × Session :=
  match s.pluginFor d none with
  | none => (.ok none, s)
  | some plugin =>
    let (items, plugin) := plugin.items s.disk d
    let s := s.setPlugin plugin
    match items with
    | .error failure => (.error failure, s)
    | .ok none => (.ok none, s)
    | .ok (some items) =>
      let ranked := s.recency.rankStored plugin.language.name (fun c => .str c.id) items
      (ranked.map fun items => some (plugin.language, items), s)

/-! ## Imports -/

/-- What is done in a session; its state survives a failure. -/
abbrev Acting (m : Type → Type) := ExceptT Failure (StateT Session m)

/-- The user's side of a session. -/
structure Front (m : Type → Type) where
  select : List String → String → Acting m (Option String)
  confirmReplace : String → Acting m (Option Bool)
  isCancelled : Acting m Bool

variable {m : Type → Type} [Monad m]

/-- The files of a language's index, listed now if they have not been. -/
def indexedFiles (language : Language) : Acting m (List FileCandidate) := do
  let s ← get
  match s.plugins.find? (·.language == language) with
  | none => return []
  | some plugin =>
    match plugin.index.build s.disk with
    | .error failure => throw failure
    | .ok (files, index) =>
      set (s.setPlugin { plugin with index := index })
      return files

/-- A host for the dialogues of a language. -/
def Front.host (front : Front m) (language : Language) : Dialogue.Host (Acting m) :=
  ⟨front.select, front.confirmReplace, indexedFiles language, front.isCancelled⟩

/-- One who carries out what a session comes to: tells the user, applies edits, and tidies the file up
behind them. There may be nobody for the last two. -/
structure Desk (m : Type → Type) where
  notify : Notice → Acting m Unit
  applier : Option (List Edit → Acting m Unit)
  linter : Option (String → Acting m Unit)

namespace Desk

def tell (desk : Desk m) (notices : List Notice) : Acting m Unit := notices.forM desk.notify

/-- Tidies a file up; a failure to do so is passed over. -/
def tidy (desk : Desk m) (path : String) : Acting m Unit :=
  match desk.linter with
  | none => pure ()
  | some lint => tryCatch (lint path) fun _ => pure ()

/-- Hands the edits of a document over, if there are any. -/
def commit (desk : Desk m) (d : Document) (edits : List Edit) : Acting m Unit := do
  if edits.isEmpty then return
  match desk.applier with
  | none => return
  | some apply =>
    apply edits
    desk.tidy d.path

end Desk

/-- What comes of importing a candidate into a document, which is noted as used; none if no language
takes the document. -/
def planImport (front : Front m) (d : Document) (c : Candidate) : Acting m (Option Outcome) := do
  let s ← get
  match s.pluginFor d none with
  | none => return none
  | some plugin =>
    let language := plugin.language
    set { s with recency := s.recency.mark language.name (.str c.id) }
    return some (← ((plugin.synthesizer s.disk).add d c).run (front.host language))

/-- Imports a candidate into a document; none if no language takes the document. -/
def addImport (front : Front m) (desk : Desk m) (d : Document) (c : Candidate) :
    Acting m (Option Outcome) := do
  match ← planImport front d c with
  | none => return none
  | some outcome =>
    desk.tell outcome.notices
    desk.commit d outcome.edits
    return some outcome

/-- Plans the repair of the imports of a document with one plugin; none if it does not take the
document. -/
def planRepair (front : Front m) (plugin : Plugin) (d : Document) :
    Acting m (Option RepairReport) := do
  if plugin.accepts d then
    let s ← get
    return some (← ((plugin.repairer s.disk).fix d).run (front.host plugin.language))
  else return none

/-- What is told if no language can repair a document. -/
def unsupported : Notice := .error "The current language was not supported."

/-- Repairs the imports of a document; none if no language can. -/
def fixImports (front : Front m) (desk : Desk m) (d : Document) :
    Acting m (Option RepairReport) := do
  match (← get).pluginFor d (some .fixImport) with
  | none =>
    desk.tell [unsupported]
    return none
  | some plugin =>
    match ← planRepair front plugin d with
    | none => return none
    | some report =>
      desk.commit d report.edits
      desk.tell report.notices
      return some report

end Session

end ImportAssist
