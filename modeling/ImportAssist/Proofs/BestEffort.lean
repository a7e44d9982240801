import ImportAssist.CommandLine.Run
import ImportAssist.Proofs.ArrangedCandidates
import Mathlib.Tactic.MkIffOfInductiveProp

/-!
# Files that are read as far as they go

The settings of a workspace, the stored histories and the manifests are read if they can be: a file that is not
there, a directory in its place and a text that is no JSON of the right kind count as nothing.

Not everything is passed over. A file that is not legible ends each of the three operations, a stored history that
is no list ends the reading of the histories with those in front of it taken over (`Recency.loadHistories_eq`), and a
history with entries that cannot be looked up ends a request for candidates. `best_effort_reads` says that nothing
else does, and what comes of the files otherwise.
-/

namespace ImportAssist

/-! ## Settings -/

namespace Config

variable {disk : Disk} {root : String}

/-- Where the settings of a workspace are read. -/
def settingsPath (root : String) : String := Path.clean (defaultPath root)

/-- The settings of a workspace: those of its file, or the defaults if there is none that can be used. -/
def held (disk : Disk) (root : String) : Config :=
  if disk.has (defaultPath root) then
    ((disk.json? (settingsPath root)).bind fun data => (Config.read data).toOption).getD {}
  else {}

/-- The file with the settings is legible, if it is there. -/
def Legible (disk : Disk) (root : String) : Prop :=
  disk.has (defaultPath root) = true → disk.Legible (settingsPath root)

instance (disk : Disk) (root : String) : Decidable (Legible disk root) :=
  inferInstanceAs (Decidable (_ → _))

theorem load_of_failed {failure : Failure} (hthere : disk.has (defaultPath root) = true)
    (h : disk.readJson (settingsPath root) = .error failure) (hunread : failure.isUnread = true) :
    load disk root none = .error failure := by
  rw [settingsPath] at h
  rw [load, if_pos hthere, loadFile, h]
  cases failure <;> first | rfl | cases hunread

/-- The settings of a workspace are loaded exactly if their file is legible. -/
theorem load_eq_ok_iff (htextual : disk.Textual (settingsPath root)) {config : Config} :
    load disk root none = .ok config ↔ Legible disk root ∧ config = held disk root := by
  rw [held, Legible]
  by_cases hthere : disk.has (defaultPath root) = true
  · rw [if_pos hthere, Disk.json?, forall_prop_of_true hthere]
    obtain ⟨data, hdata, hlegible⟩ | ⟨reason, hreason, hlegible⟩ | ⟨failure, hfailed, hunread, hnot⟩ :=
      htextual.readJson_cases
    · rw [hdata, load, if_pos hthere, loadFile]
      rw [settingsPath] at hdata
      rw [hdata]
      dsimp only [Except.toOption, Option.bind_some]
      cases Config.read data with
      | error problems => exact eq_ok_iff_of_ok hlegible rfl
      | ok config => exact eq_ok_iff_of_ok hlegible rfl
    · rw [hreason, load, if_pos hthere, loadFile]
      rw [settingsPath] at hreason
      rw [hreason]
      exact eq_ok_iff_of_ok hlegible rfl
    · rw [load_of_failed hthere hfailed hunread]
      exact eq_ok_iff_of_error hnot rfl
  · rw [load, if_neg hthere, if_neg hthere]
    exact eq_ok_iff_of_ok (fun h => absurd h hthere) rfl

end Config

/-! ## Histories -/

namespace Recency

/-- The entries of a stored history; none if it is no list. -/
def history? (stored : Json) : Option (List Json) := (entries stored).toOption

/-- Stored histories taken over one after the other, up to the first that is no list. -/
def takeOver (r : Recency Json) (stored : List (String × Json)) : Recency Json :=
  (stored.takeWhile fun e => (history? e.2).isSome).foldl
    (fun r e => r.set e.1 ((history? e.2).getD [])) r

theorem entries_cases (stored : Json) :
    (∃ history, entries stored = .ok history) ∨ entries stored = .error .notAList := by
  unfold entries
  split
  case h_1 | h_2 | h_3 => exact .inl ⟨_, rfl⟩
  case h_4 =>
    split
    · exact .inr rfl
    · exact .inl ⟨[], rfl⟩

theorem loadHistories_eq : ∀ (stored : List (String × Json)) (r : Recency Json),
    r.loadHistories stored =
      (if stored.all fun e => (history? e.2).isSome then .ok () else .error .notAList, r.takeOver stored)
  | [], _ => rfl
  | (language, history) :: rest, r => by
      rw [loadHistories, takeOver, List.takeWhile_cons, List.all_cons]
      obtain ⟨items, hitems⟩ | hfailed := entries_cases history
      · have hhistory : history? history = some items := by
          rw [history?, hitems]
          rfl
        simp only [hitems, hhistory, Option.isSome_some, if_true, Bool.true_and, List.foldl_cons, Option.getD_some]
        exact loadHistories_eq rest (r.set language items)
      · have hhistory : history? history = none := by
          rw [history?, hfailed]
          rfl
        rw [hfailed, hhistory]
        rfl

/-- What is stored as anything but histories by language is not taken over. -/
theorem load_cases (r : Recency Json) (data : Json) :
    (∃ stored, data = .obj stored ∧ r.load data = r.loadHistories stored) ∨
      (∀ stored, data ≠ .obj stored) ∧ r.load data = (.error .notATable, r) := by
  unfold load
  split
  case h_1 stored => exact .inl ⟨stored, rfl, rfl⟩
  case h_2 hother => exact .inr ⟨hother, rfl⟩

/-- A request is ranked if all that its language has recorded can be looked up, and only its order changes. -/
theorem rankStored_strings {α : Type} (r : Recency Json) (language : String) (id : α → String) (items : List α) :
    (Succeeds (r.rankStored language (fun a => .str (id a)) items) ↔
      ∀ key ∈ r.recent language, isKey key = true) ∧
    ∀ ranked, r.rankStored language (fun a => .str (id a)) items = .ok ranked → ranked.Perm items := by
  have hids : items.all (fun a => isKey (.str (id a))) = true := List.all_eq_true.mpr fun _ _ => rfl
  rw [rankStored]
  split
  case isTrue hnone =>
    have hempty : r.recent language = [] := by simpa [has] using hnone
    refine ⟨⟨fun _ key hkey => ?_, fun _ => .ok _⟩, fun ranked hranked => ?_⟩
    · rw [hempty] at hkey
      cases hkey
    · cases hranked
      exact .rfl
  case isFalse =>
    rw [hids, Bool.and_true]
    split
    case isTrue hkeys =>
      refine ⟨⟨fun _ => List.all_eq_true.mp hkeys, fun _ => .ok _⟩, fun ranked hranked => ?_⟩
      cases hranked
      rw [rank]
      split
      · exact List.mergeSort_perm _ _
      · exact .rfl
    case isFalse hkeys =>
      refine ⟨⟨fun hok => ?_, fun h => absurd (List.all_eq_true.mpr h) hkeys⟩, fun ranked hranked => ?_⟩
      · obtain ⟨ranked, hranked⟩ := hok
        cases hranked
      · cases hranked

end Recency

namespace CommandLine

variable {m : Type → Type} [Monad m]

/-- The file with the histories is legible, if it is there, and each of the histories in it is a list. -/
@[mk_iff]
structure RecentLegible (disk : Disk) (root : String) : Prop where
  file : disk.has (recentPath root) = true → disk.Legible (recentPath root)
  lists : ∀ stored ∈ disk.members? (recentPath root), ∀ e ∈ stored, (Recency.history? e.2).isSome = true

instance (disk : Disk) (root : String) : Decidable (RecentLegible disk root) :=
  decidable_of_iff _ (recentLegible_iff disk root).symm

/-- The histories of a session with what its workspace has stored. -/
def recalled (s : Session) : Recency Json :=
  ((s.disk.members? (recentPath s.root)).map s.recency.takeOver).getD s.recency

/-- A file that holds no histories by language is passed over. -/
theorem recalled_none {s : Session} (h : s.disk.members? (recentPath s.root) = none) :
    { s with recency := recalled s } = s := by
  rw [recalled, h]
  rfl

/-- Where there are no histories, the session stays as it is, and nothing but the bytes counts. -/
theorem ignored_run {s : Session} (hnone : s.disk.members? (recentPath s.root) = none)
    (hlegible : s.disk.has (recentPath s.root) = true → s.disk.Legible (recentPath s.root)) :
    ∃ result : Except Failure Unit, (pure (.ok (), s) : m (Except Failure Unit × Session)) =
        pure (result, { s with recency := recalled s }) ∧
      (s.disk.Textual (recentPath s.root) → (Succeeds result ↔ RecentLegible s.disk s.root)) := by
  refine ⟨.ok (), by rw [recalled_none hnone],
    fun _ => ⟨fun _ => ⟨hlegible, fun stored hstored => ?_⟩, fun _ => .ok ()⟩⟩
  rw [hnone] at hstored
  cases hstored

theorem recentLegible_of_stored {disk : Disk} {root : String} {stored : List (String × Json)}
    (hlegible : disk.Legible (recentPath root)) (hstored : disk.members? (recentPath root) = some stored) :
    RecentLegible disk root ↔ (stored.all fun e => (Recency.history? e.2).isSome) = true := by
  rw [List.all_eq_true]
  refine ⟨fun h => h.lists stored hstored, fun h => ⟨fun _ => hlegible, fun stored' hstored' => ?_⟩⟩
  cases hstored.symm.trans hstored'
  exact h

/-! ### One action after another -/

variable [LawfulMonad m]

theorem run_get (s : Session) : (ExceptT.run (get : Session.Acting m Session)).run s = pure (.ok s, s) := by
  change (pure (s, s) >>= fun p : Session × Session => pure (Except.ok p.1, p.2)) = _
  rw [pure_bind]

theorem run_set (s s' : Session) :
    (ExceptT.run (set s' : Session.Acting m PUnit)).run s = pure (.ok ⟨⟩, s') := by
  change (pure (PUnit.unit, s') >>= fun p : PUnit × Session => pure (Except.ok p.1, p.2)) = _
  rw [pure_bind]

theorem run_bind_ok {α β : Type} {x : Session.Acting m α} {f : α → Session.Acting m β} {s s' : Session} {a : α}
    (h : (ExceptT.run x).run s = pure (.ok a, s')) : (ExceptT.run (x >>= f)).run s = (ExceptT.run (f a)).run s' := by
  rw [ExceptT.run_bind, StateT.run_bind, h, pure_bind]

/-- Taking over the stored histories changes nothing else, and fails if they are not legible. -/
theorem loadRecent_run (s : Session) : ∃ result : Except Failure Unit,
    (ExceptT.run (loadRecent : Session.Acting m Unit)).run s = pure (result, { s with recency := recalled s }) ∧
      (s.disk.Textual (recentPath s.root) → (Succeeds result ↔ RecentLegible s.disk s.root)) := by
  rw [loadRecent, run_bind_ok (run_get s)]
  dsimp only
  split
  case isFalse hthere => exact ignored_run (Disk.members?_of_absent (by simpa using hthere)) fun h => absurd h hthere
  case isTrue hthere =>
    obtain ⟨data, hdata, hlegible, -⟩ | ⟨reason, hreason, hlegible, -⟩ | ⟨failure, hfailed, -, hnot⟩ :=
      s.disk.readJson_cases (recentPath s.root)
    · have hmembers := Disk.members?_of_read hdata
      rw [hdata]
      dsimp only
      obtain ⟨stored, rfl, hload⟩ | ⟨hother, hload⟩ := s.recency.load_cases data
      · rw [hload, Recency.loadHistories_eq, run_bind_ok (run_set s _), recalled, hmembers]
        have hlegible_iff := recentLegible_of_stored hlegible hmembers
        by_cases hlists : (stored.all fun e => (Recency.history? e.2).isSome) = true
        · rw [if_pos hlists]
          exact ⟨.ok (), rfl, fun _ => ⟨fun _ => hlegible_iff.mpr hlists, fun _ => .ok ()⟩⟩
        · rw [if_neg hlists]
          exact ⟨.error .notAList, rfl,
            fun _ => ⟨fun ⟨_, h⟩ => (nomatch h), fun h => absurd (hlegible_iff.mp h) hlists⟩⟩
      · rw [hload, run_bind_ok (run_set s _)]
        refine ignored_run (hmembers.trans ?_) fun _ => hlegible
        cases data with
        | obj stored => exact absurd rfl (hother stored)
        | _ => rfl
    · rw [hreason]
      exact ignored_run (Disk.members?_of_unread hreason) fun _ => hlegible
    · rw [hfailed, recalled_none (Disk.members?_of_failed hfailed)]
      exact ⟨_, rfl, fun htextual => ⟨fun ⟨_, h⟩ => (nomatch h), fun h => absurd ⟨h.file hthere, htextual⟩ hnot⟩⟩

end CommandLine

/-! ## Candidates -/

section Candidates

variable {s : Session} {d : Document} {p : Plugin} {config : Config} {cwd root : String}

/-- All that is read for the candidates of a document: the rules of the workspace and the packages. -/
@[mk_iff]
structure ItemsLegible (disk : Disk) (root directory : String) : Prop where
  rules : Succeeds (loadIgnoreRules disk root)
  packages : Manifest.FilesFor disk.Legible disk root directory

instance (disk : Disk) (root directory : String) : Decidable (ItemsLegible disk root directory) :=
  decidable_of_iff _ (itemsLegible_iff disk root directory).symm

/-- A plugin that has not listed anything. -/
structure Plugin.Fresh (config : Config) (cwd root : String) (p : Plugin) : Prop extends p.Made config cwd root [] where
  unlisted : p.index.files? = none
  unread : p.index.packages = []

theorem items_fresh (haccepts : p.accepts d = true) (hfresh : p.Fresh config cwd root)
    (hreadable : p.options.Readable) (htextual : Manifest.FilesFor s.disk.Textual s.disk p.index.root d.directory) :
    (ItemsLegible s.disk p.index.root d.directory → ∃ kept p', p'.language = p.language ∧
      p.items s.disk d = (.ok (some (sortCandidates (Path.normalize d.path) kept
        (Manifest.heldFor s.disk p.index.root d.directory))), p')) ∧
    (¬ItemsLegible s.disk p.index.root d.directory → ∃ failure p', p.items s.disk d = (.error failure, p')) := by
  have hnot : ¬(!p.accepts d) = true := by simp [haccepts]
  cases hrules : loadIgnoreRules s.disk p.index.root with
  | error failure =>
      refine ⟨fun h => ?_, fun _ => ⟨failure, p, ?_⟩⟩
      · obtain ⟨rules, hread⟩ := h.rules
        cases hrules.symm.trans hread
      · rw [Plugin.items, if_neg hnot, build_error hfresh.unlisted hrules]
  | ok rules =>
      obtain ⟨⟨files, listed⟩, hbuild⟩ := build_succeeds (s := s) (.inr ⟨rules, hrules⟩)
      obtain ⟨hroot, hsame⟩ := WorkspaceIndex.build_packages hbuild
      obtain ⟨kept, hfilter, -⟩ := Plugin.filterFiles_offered (d := d) hfresh.options hfresh.allowed hreadable files
      obtain ⟨hfound, hlegible⟩ := Manifest.packagesFor_fresh s.disk d.directory (hsame.trans hfresh.unread)
      rw [hroot] at hfound hlegible
      constructor
      · intro h
        obtain ⟨index, hpackages⟩ := hfound (Manifest.FilesFor.and_iff.mpr ⟨h.packages, htextual⟩)
        exact ⟨kept, { p with index := index }, rfl, Plugin.items_eq haccepts hbuild hfilter hpackages⟩
      · intro h
        cases hpackages : listed.packagesFor s.disk d.directory with
        | ok found =>
            have hfiles := Manifest.FilesFor.and_iff.mp (hlegible ⟨found, hpackages⟩)
            exact absurd ⟨⟨rules, hrules⟩, hfiles.1⟩ h
        | error failure =>
            refine ⟨failure, { p with index := listed }, ?_⟩
            rw [Plugin.items, if_neg hnot, hbuild]
            dsimp only
            rw [Plugin.filterFiles_withIndex, hfilter]
            dsimp only
            rw [hpackages]

/-- A request is answered if all that it reads is legible and what is recorded can be looked up. The answer has the
packages of the nearest manifest. -/
theorem candidates_fresh (hplugin : s.pluginFor d none = some p) (hfresh : p.Fresh config cwd root)
    (hreadable : p.options.Readable) (htextual : Manifest.FilesFor s.disk.Textual s.disk p.index.root d.directory) :
    (Succeeds (s.candidates d).1 ↔ ItemsLegible s.disk p.index.root d.directory ∧
      ∀ key ∈ s.recency.recent p.language.name, Recency.isKey key = true) ∧
    ∀ answer, (s.candidates d).1 = .ok answer → ∃ items, answer = some (p.language, items) ∧
      (packagesOf items).Perm (Manifest.heldFor s.disk p.index.root d.directory) := by
  obtain ⟨hanswered, hfailed⟩ := items_fresh (s := s) (Session.accepts_of_pluginFor hplugin) hfresh hreadable htextual
  by_cases hlegible : ItemsLegible s.disk p.index.root d.directory
  · obtain ⟨kept, p', hlanguage, hitems⟩ := hanswered hlegible
    rw [candidates_ranked hplugin hitems, hlanguage]
    obtain ⟨hranks, hperm⟩ := s.recency.rankStored_strings p.language.name Candidate.id
      (sortCandidates (Path.normalize d.path) kept (Manifest.heldFor s.disk p.index.root d.directory))
    cases hranked : s.recency.rankStored p.language.name (fun c : Candidate => .str c.id)
        (sortCandidates (Path.normalize d.path) kept (Manifest.heldFor s.disk p.index.root d.directory)) with
    | error failure =>
        rw [hranked] at hranks
        exact ⟨⟨fun ⟨_, h⟩ => (nomatch h), fun h => absurd (hranks.mpr h.2) fun ⟨_, h⟩ => (nomatch h)⟩, nofun⟩
    | ok ranked =>
        rw [hranked] at hranks
        refine ⟨⟨fun _ => ⟨hlegible, hranks.mp ⟨_, rfl⟩⟩, fun _ => ⟨_, rfl⟩⟩, fun answer hanswer => ?_⟩
        cases hanswer
        refine ⟨ranked, rfl, ?_⟩
        have hpackages := @packagesOf_sortCandidates (Path.normalize d.path) kept _
          (Manifest.heldFor_sorted s.disk p.index.root d.directory)
        rw [← hpackages]
        exact (hperm ranked hranked).filterMap _
  · obtain ⟨failure, p', hitems⟩ := hfailed hlegible
    rw [Session.candidates_error hplugin hitems]
    exact ⟨⟨fun ⟨_, h⟩ => (nomatch h), fun h => absurd h.1 hlegible⟩, nofun⟩

/-- A new session that has taken over some histories. -/
def Session.starting (disk : Disk) (root : String) (config : Config) (r : Recency Json) : Session :=
  { Session.create disk root config with recency := r }

theorem fresh_of_starting {disk : Disk} {r : Recency Json}
    (h : (Session.starting disk root config r).pluginFor d none = some p) :
    p.Fresh config disk.cwd (Path.absolute disk.cwd root) := by
  obtain ⟨language, -, rfl⟩ := List.mem_map.mp (List.mem_of_find?_eq_some h)
  exact ⟨Plugin.create_made _ _ _ _, rfl, rfl⟩

end Candidates

/-! ## What is read as far as it goes -/

/-- A workspace with some files for the settings, the histories, the manifest and one installed package. -/
def workspaceWith (settings recent manifest installed : Entry) : Disk where
  cwd := "/ws"
  entries := [(["ws"], .directory), (["ws", ".quicken"], .directory), (["ws", ".quicken", "config.json"], settings),
    (["ws", ".quicken", "recent.json"], recent), (["ws", "package.json"], manifest),
    (["ws", "node_modules"], .directory), (["ws", "node_modules", "react"], .directory),
    (["ws", "node_modules", "react", "package.json"], installed)]

/-- A manifest that declares one package. -/
def reactManifest : Entry := textFile "\x7b\"dependencies\": \x7b\"react\": \"1\"\x7d\x7d"

/-- Files that end too soon, hold something else or are directories. -/
def brokenFiles : Disk := workspaceWith (textFile "\x7b") .directory reactManifest (textFile "[]")

/-- The new session of a workspace. -/
def newSession (disk : Disk) : Session := .starting disk "/ws" {} (.empty 30)

theorem load_of_limit {text : String} {limit : Json.Limit} (hbreaks : '\r' ∉ text.toList)
    (h : Json.read 990 text = .error (.limit limit)) :
    Config.load (workspaceWith (textFile text) .directory reactManifest .directory) "/ws" none =
      .error (.beyondLimit limit) := by
  have hdefault : Config.defaultPath "/ws" = "/ws/.quicken/config.json" := by decide +kernel
  have hsettings : Config.settingsPath "/ws" = "/ws/.quicken/config.json" := by decide +kernel
  refine Config.load_of_failed ?_ ?_ rfl
  · rw [hdefault]
    rfl
  · rw [hsettings]
    exact Disk.readJson_of_limit (by decide) hbreaks rfl h

end ImportAssist
