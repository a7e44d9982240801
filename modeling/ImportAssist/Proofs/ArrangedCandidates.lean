import ImportAssist.Proofs.FirstReadings
import ImportAssist.Proofs.JsonLimits
import ImportAssist.Proofs.LegibleFiles
import ImportAssist.Proofs.Ranks
import ImportAssist.Proofs.SortedCandidates

/-!
# Candidates as they are arranged

A request for the candidates of a document goes through three stages. The files of the index are filtered
(`Plugin.filterFiles_offered`), files and packages are sorted, and what is recorded in the history of the language moves
to the front. `Arranged` says what comes of them together: nothing is lost or added, the recorded candidates are in the
order of the history, and behind them the files and the packages are each in their own order. The stages keep each
other's work since sorting and ranking are stable and the identities of all candidates differ
(`arranged_of_ranked`).

`candidates_arranged` is the theorem for a session. The index may have to be listed, which takes rules of the
workspace that can be read, and the nearest manifest may have to be read, which takes files that are legible. Without
these there is no answer (`unread_files_fail`).
-/

namespace ImportAssist

open ImportAssist.Path

/-! ## Files that pass the filter -/

/-- Whether a pattern occurs in a path. -/
def matchesPath (pattern path : String) : Bool := (Pattern.read pattern).any (·.occursIn (toSlashes path))

/-- The first rule that applies to a document. -/
def Options.ruleFor (options : Options) (d : Document) : Option (String × String) :=
  options.filteredFiles.find? fun rule => matchesPath rule.1 (normalize d.path)

/-- All patterns of the rules can be read. -/
def Options.Readable (options : Options) : Prop :=
  ∀ rule ∈ options.filteredFiles, (Pattern.read rule.1).isSome ∧ (Pattern.read rule.2).isSome

/-- A file is offered to a document: it is not the document itself, its kind is not excluded, and the rule for the
document lets it through. -/
structure OfferedTo (config : Config) (language : Language) (d : Document) (c : FileCandidate) : Prop where
  other : c.path ≠ normalize d.path
  kind : language = .javascript → config.javascript.allowTypeScript = false →
    Plugin.isTypeScript (extension c.path) = false
  ruled : ∀ rule, (language.options config).ruleFor d = some rule → matchesPath rule.2 c.path = true

namespace Plugin

theorem filterFor_readable {path : String} : ∀ {rules : List (String × String)},
    (∀ rule ∈ rules, (Pattern.read rule.1).isSome ∧ (Pattern.read rule.2).isSome) →
      filterFor (toSlashes path) rules =
        .ok ((rules.find? fun rule => matchesPath rule.1 path).bind fun rule => Pattern.read rule.2)
  | [], _ => rfl
  | (documents, files) :: rest, h => by
      obtain ⟨⟨hdocuments, hfiles⟩, hrest⟩ := List.forall_mem_cons.mp h
      obtain ⟨pattern, hpattern⟩ := Option.isSome_iff_exists.mp hdocuments
      obtain ⟨filter, hfilter⟩ := Option.isSome_iff_exists.mp hfiles
      rw [filterFor, hpattern, List.find?_cons]
      have hmatches : matchesPath documents path = pattern.occursIn (toSlashes path) := by
        rw [matchesPath, hpattern]
        rfl
      dsimp only
      rw [hmatches]
      split
      case isTrue hoccurs => rw [hoccurs, hfilter]; exact congrArg _ hfilter.symm
      case isFalse hoccurs =>
        rw [Bool.not_eq_true] at hoccurs
        rw [hoccurs]
        exact filterFor_readable hrest

theorem allowsTypeScript_iff (config : Config) (language : Language) (isTypeScript : Bool) :
    (language.allowsTypeScript config = true ∨ isTypeScript = false) ↔
      (language = .javascript → config.javascript.allowTypeScript = false → isTypeScript = false) := by
  cases language with
  | typescript => simp [Language.allowsTypeScript]
  | javascript =>
      rw [Language.allowsTypeScript]
      cases config.javascript.allowTypeScript <;> simp

theorem filter_iff {options : Options} {d : Document} (hreadable : options.Readable) (path : String) :
    (((options.ruleFor d).bind fun rule => Pattern.read rule.2).all fun filter =>
        filter.occursIn (toSlashes path)) = true ↔
      ∀ rule, options.ruleFor d = some rule → matchesPath rule.2 path = true := by
  cases hrule : options.ruleFor d with
  | none => simp
  | some rule =>
      obtain ⟨filter, hfilter⟩ :=
        Option.isSome_iff_exists.mp (hreadable rule (List.mem_of_find?_eq_some hrule)).2
      simp [matchesPath, hfilter]

/-- Of the files of an index those are kept that are offered to the document. -/
theorem filterFiles_offered {p : Plugin} {config : Config} {d : Document}
    (hoptions : p.options = p.language.options config)
    (hallowed : p.allowsTypeScript = p.language.allowsTypeScript config) (hreadable : p.options.Readable)
    (files : List FileCandidate) : ∃ kept, p.filterFiles d files = .ok kept ∧ kept.Sublist files ∧
      ∀ c, c ∈ kept ↔ c ∈ files ∧ OfferedTo config p.language d c := by
  rw [filterFiles, filterFor_readable hreadable]
  refine ⟨_, rfl, List.filter_sublist, fun c => ?_⟩
  rw [List.mem_filter, Bool.and_eq_true, Bool.and_eq_true, bne_iff_ne, Bool.or_eq_true, Bool.not_eq_true',
    hallowed, allowsTypeScript_iff]
  refine and_congr_right fun _ => ?_
  have hruled := filter_iff (d := d) hreadable c.path
  rw [hoptions] at hruled
  constructor
  · rintro ⟨⟨hother, hkind⟩, hfilter⟩
    exact ⟨hother, hkind, hruled.mp (hoptions ▸ hfilter)⟩
  · intro h
    exact ⟨⟨h.other, h.kind⟩, hoptions ▸ hruled.mpr h.ruled⟩

end Plugin

/-! ## Filtered, sorted and ranked -/

/-- What is offered for a document, in its parts: candidates that are recorded in a history, other files, and other
packages. `offered` are the files to offer, of those in `indexed`, and `found` the packages. -/
structure Arranged (history : List String) (document : String) (indexed : List FileCandidate)
    (offered : FileCandidate → Prop) (found : List PackageCandidate) (recorded : List Candidate)
    (files : List FileCandidate) (packages : List PackageCandidate) : Prop where
  distinct : ((recorded ++ together files packages).map (·.id)).Nodup
  complete : ∀ c, c ∈ recorded ++ together files packages ↔
    (∃ f, offered f ∧ c = .file f) ∨ ∃ p ∈ found, c = .package p
  recent : recorded.map (·.id) = history.filter fun i => i ∈ (recorded ++ together files packages).map (·.id)
  unrecorded : ∀ c ∈ together files packages, c.id ∉ history
  nearest : files.Pairwise (ComesBefore document indexed)
  indexFirst : ∀ a ∈ files, ∀ b ∈ files, a.isIndex = true → b.isIndex = false →
    Path.directory a.path = Path.directory b.path → Path.fileName b.path ≠ "" → [a, b].Sublist files
  byName : packages.Pairwise fun a b => a.name < b.name

theorem PackageCandidate.id_ne_path {path : String} (h : isAbsolute path = true) (p : PackageCandidate) :
    p.id ≠ path := by
  rintro rfl
  obtain ⟨rest, hrest⟩ := isAbsolute_iff.mp h
  rw [PackageCandidate.id, String.toList_append] at hrest
  exact absurd (List.cons.inj hrest).1 (by decide)

theorem PackageCandidate.id_inj {p q : PackageCandidate} (h : p.id = q.id) : p.name = q.name := by
  have hchars := congrArg String.toList h
  rw [PackageCandidate.id, PackageCandidate.id, String.toList_append, String.toList_append] at hchars
  exact String.toList_inj.mp (List.append_cancel_left hchars)

section Lists

variable {document : String} {indexed kept : List FileCandidate} {found : List PackageCandidate}

/-- No two candidates have the same identity. -/
theorem nodup_ids (hkept : kept.Sublist indexed) (hpaths : (indexed.map (·.path)).Nodup)
    (habsolute : ∀ c ∈ indexed, isAbsolute c.path = true)
    (hfound : found.Pairwise fun a b => a.name < b.name) :
    ((together (sortFiles document kept) found).map (·.id)).Nodup := by
  rw [together, List.map_append, List.map_map, List.map_map, List.nodup_append']
  refine ⟨?_, ?_, ?_⟩
  · have hperm := (sortFiles_perm document kept).map (·.path)
    exact hperm.nodup_iff.mpr (hpaths.sublist (hkept.map _))
  · refine List.pairwise_map.mpr (hfound.imp fun {p q} hlt hsame => ?_)
    exact absurd (PackageCandidate.id_inj hsame) (ne_of_lt hlt)
  · refine List.disjoint_left.mpr fun id hfile hpackage => ?_
    obtain ⟨c, hc, rfl⟩ := List.mem_map.mp hfile
    obtain ⟨p, -, hsame⟩ := List.mem_map.mp hpackage
    have hindexed := hkept.subset ((sortFiles_perm document kept).subset hc)
    exact p.id_ne_path (habsolute c hindexed) hsame

/-- Sorted candidates that are ranked by a history are arranged. -/
theorem arranged_of_ranked {offered : FileCandidate → Prop} {r : Recency Json} {language : String}
    {history : List String} (hrecent : r.recent language = history.map .str) (hhistory : history.Nodup)
    (hkept : kept.Sublist indexed) (hoffered : ∀ c, c ∈ kept ↔ offered c)
    (hpaths : (indexed.map (·.path)).Nodup) (habsolute : ∀ c ∈ indexed, isAbsolute c.path = true)
    (hfound : found.Pairwise fun a b => a.name < b.name) :
    ∃ recorded files packages, r.rankStored language (fun c : Candidate => .str c.id)
        (sortCandidates document kept found) =
          .ok (recorded ++ together files packages) ∧
      Arranged history document indexed offered found recorded files packages := by
  have hids := @nodup_ids document _ _ _ hkept hpaths habsolute hfound
  obtain ⟨recorded, hranked, hperm, hrecorded⟩ := Recency.rank_arranged hrecent hhistory hids
  -- What is not recorded consists of files and packages, as all candidates do.
  have hsplit : (together (sortFiles document kept) found).filter (fun c => c.id ∉ history) =
      together ((sortFiles document kept).filter fun c => c.path ∉ history)
        (found.filter fun p => p.id ∉ history) := by
    rw [together, List.filter_append, List.filter_map, List.filter_map]
    rfl
  have hfiles : ((sortFiles document kept).filter fun c => c.path ∉ history).Pairwise
      (ComesBefore document indexed) := by
    have hordered := @sortFiles_ordered document kept (.of_map _ (hpaths.sublist (hkept.map _)))
    exact (hordered.imp fun h => h.of_sublist hkept).filter _
  have hpackages : (found.filter fun p => p.id ∉ history).Pairwise fun a b => a.name < b.name := hfound.filter _
  rw [hsplit] at hranked hperm
  refine ⟨recorded, _, _, ?_, ?_, ?_, ?_, ?_, hfiles, ?_, hpackages⟩
  · rw [sortCandidates_eq (hfound.imp fun h => le_of_lt h)]
    exact hranked
  · exact (hperm.map _).nodup_iff.mpr hids
  · intro c
    rw [hperm.mem_iff, together, List.mem_append, List.mem_map, List.mem_map]
    refine or_congr ?_ (by simp only [eq_comm])
    simp only [(sortFiles_perm document kept).mem_iff, hoffered, eq_comm]
  · rw [hrecorded]
    exact List.filter_congr fun i _ => decide_eq_decide.mpr (hperm.map Candidate.id).mem_iff.symm
  · intro c hc
    rw [← hsplit] at hc
    simpa using (List.mem_filter.mp hc).2
  · intro a ha b hb hindex hother hdirectory hname
    exact indexFirst_of_ordered hfiles ha hb hindex hother hdirectory hname

end Lists

/-! ## The answer of a session -/

section Answers

variable {s : Session} {d : Document} {p p' : Plugin} {index : WorkspaceIndex}

/-- The candidates of a plugin are ranked by the history of its language. -/
theorem candidates_ranked {items : List Candidate} (hplugin : s.pluginFor d none = some p)
    (h : p.items s.disk d = (.ok (some items), p')) :
    (s.candidates d).1 = (s.recency.rankStored p'.language.name (fun c : Candidate => .str c.id) items).map
      fun items => some (p'.language, items) := by
  rw [Session.candidates, hplugin]
  dsimp only
  rw [h]
  rfl

theorem build_error {failure : Failure} (hfiles : index.files? = none)
    (hrules : loadIgnoreRules s.disk index.root = .error failure) : index.build s.disk = .error failure := by
  rw [WorkspaceIndex.build, hfiles]
  dsimp only
  rw [listFiles, if_pos rfl, hrules]
  rfl

/-- An index can be listed if it has been, or if the rules of the workspace can be read. -/
theorem build_succeeds (h : index.isBuilt = true ∨ Succeeds (loadIgnoreRules s.disk index.root)) :
    Succeeds (index.build s.disk) := by
  rw [WorkspaceIndex.build]
  cases hfiles : index.files? with
  | some files => exact .ok _
  | none =>
      have hrules := h.resolve_left (by simp [WorkspaceIndex.isBuilt, hfiles])
      have hlisted : Succeeds (listFiles s.disk index.root true) := by
        rw [listFiles, if_pos rfl]
        refine hrules.bind fun rules => ?_
        split
        · exact .ok _
        · split
          · exact .ok _
          · exact .ok _
      obtain ⟨paths, hpaths⟩ := hlisted
      dsimp only
      rw [hpaths]
      exact ⟨_, rfl⟩

/-- The packages that an index has for a directory after some calls: none if there is no manifest. Of one that has been
read it has what it has kept of it. So they are the packages on the disk of the first reading, which is that of now if
there has been none. -/
structure FoundIn (index : WorkspaceIndex) (steps : List IndexStep) (disk : Disk) (directory : String)
    (found : List PackageCandidate) : Prop where
  unmanaged : Manifest.find? disk directory index.root = none → found = []
  kept : ∀ manifest, Manifest.find? disk directory index.root = some manifest →
    ∀ before, index.kept? manifest = some before → found = before
  nearest : ∀ manifest, Manifest.find? disk directory index.root = some manifest →
    Manifest.packages ((WorkspaceIndex.firstRead index.root manifest steps).getD disk) index.root manifest = .ok found ∧
    ∀ name, (∃ p ∈ found, p.name = name) ↔
      Manifest.Declares ((WorkspaceIndex.firstRead index.root manifest steps).getD disk) manifest name

/-- The manifest that is read for a directory, if one has to be. -/
def WorkspaceIndex.unread? (index : WorkspaceIndex) (disk : Disk) (directory : String) : Option String :=
  (Manifest.find? disk directory index.root).filter fun manifest => (index.kept? manifest).isNone

theorem WorkspaceIndex.unread?_eq_some_iff {disk : Disk} {directory manifest : String} :
    index.unread? disk directory = some manifest ↔
      Manifest.find? disk directory index.root = some manifest ∧ index.kept? manifest = none := by
  rw [unread?, Option.filter_eq_some_iff, Option.isNone_iff_eq_none]

/-- Packages are looked for without success exactly if the manifest that has to be read cannot be. -/
theorem packagesFor_unread {disk : Disk} {directory manifest : String} {failure : Failure}
    (hunread : index.unread? disk directory = some manifest)
    (h : Manifest.packages disk index.root manifest = .error failure) :
    index.packagesFor disk directory = .error failure := by
  obtain ⟨hfind, hkept⟩ := WorkspaceIndex.unread?_eq_some_iff.mp hunread
  rw [WorkspaceIndex.packagesFor_read hfind hkept, h]
  rfl

theorem packagesFor_found {disk : Disk} {directory cwd root : String} {options : Options} {family : Family}
    {steps : List IndexStep} (h : index.Runs cwd root options family steps)
    (hreadable : ∀ manifest ∈ index.unread? disk directory, Manifest.Files disk.Readable disk index.root manifest) :
    ∃ found index', index.packagesFor disk directory = .ok (found, index') ∧
      FoundIn index steps disk directory found ∧ found.Pairwise fun a b => a.name < b.name := by
  cases hfind : Manifest.find? disk directory index.root with
  | none =>
      refine ⟨[], index, WorkspaceIndex.packagesFor_none hfind, ⟨fun _ => rfl, fun manifest hmanifest => ?_,
        fun manifest hmanifest => ?_⟩, .nil⟩
      · rw [hfind] at hmanifest
        cases hmanifest
      · rw [hfind] at hmanifest
        cases hmanifest
  | some manifest =>
      have hthen := (h.kept manifest).2
      have hread : ∀ {found index'}, index.packagesFor disk directory = .ok (found, index') →
          (∀ before, index.kept? manifest = some before → found = before) →
          Manifest.packages ((WorkspaceIndex.firstRead index.root manifest steps).getD disk) index.root manifest =
            .ok found → ∃ found index', index.packagesFor disk directory = .ok (found, index') ∧
            FoundIn index steps disk directory found ∧ found.Pairwise fun a b => a.name < b.name := by
        intro found index' hpackages hkept hread
        refine ⟨found, index', hpackages, ⟨fun hnone => ?_, fun other hother => ?_, fun other hother => ?_⟩,
          Manifest.packages_strict hread⟩
        · rw [hfind] at hnone
          cases hnone
        · rw [hfind] at hother
          cases hother
          exact hkept
        · rw [hfind] at hother
          cases hother
          exact ⟨hread, Manifest.packages_declared hread⟩
      cases hkept : index.kept? manifest with
      | some before =>
          rw [hkept, Option.map_some, eq_comm, Option.map_eq_some_iff] at hthen
          obtain ⟨first, hfirst, hpackages⟩ := hthen
          refine hread (WorkspaceIndex.packagesFor_kept hfind hkept) (fun before' hbefore => ?_) ?_
          · exact Option.some.inj (hkept.symm.trans hbefore)
          · rw [hfirst]
            exact hpackages
      | none =>
          rw [hkept, Option.map_none, eq_comm, Option.map_eq_none_iff] at hthen
          have hnow := Manifest.packages_eq_ok_iff.mpr
            ⟨hreadable manifest (WorkspaceIndex.unread?_eq_some_iff.mpr ⟨hfind, hkept⟩), rfl⟩
          have hpackages := WorkspaceIndex.packagesFor_read hfind hkept
          rw [hnow] at hpackages
          refine hread hpackages (fun before hbefore => ?_) ?_
          · rw [hkept] at hbefore
            cases hbefore
          · rw [hthen]
            exact hnow

end Answers

/-- Where an index finds packages, it does so once it is listed. -/
theorem packagesFor_listed {disk : Disk} {index listed index' : WorkspaceIndex} {files : List FileCandidate}
    {directory : String} {found : List PackageCandidate} (hbuild : index.build disk = .ok (files, listed))
    (h : index.packagesFor disk directory = .ok (found, index')) :
    ∃ index'', listed.packagesFor disk directory = .ok (found, index'') := by
  obtain ⟨hroot, hsame⟩ := WorkspaceIndex.build_packages hbuild
  have hkept : ∀ manifest, listed.kept? manifest = index.kept? manifest :=
    WorkspaceIndex.kept?_of_packages hsame
  cases hfind : Manifest.find? disk directory index.root with
  | none =>
      rw [WorkspaceIndex.packagesFor_none hfind] at h
      cases h
      exact ⟨_, WorkspaceIndex.packagesFor_none (hroot ▸ hfind)⟩
  | some manifest =>
      cases hbefore : index.kept? manifest with
      | some before =>
          rw [WorkspaceIndex.packagesFor_kept hfind hbefore] at h
          cases h
          exact ⟨_, WorkspaceIndex.packagesFor_kept (hroot ▸ hfind) ((hkept manifest).trans hbefore)⟩
      | none =>
          rw [WorkspaceIndex.packagesFor_read hfind hbefore] at h
          obtain ⟨now, hnow, hsame⟩ := map_eq_ok h
          cases hsame
          rw [WorkspaceIndex.packagesFor_read (hroot ▸ hfind) ((hkept manifest).trans hbefore), hroot, hnow]
          exact ⟨_, rfl⟩

/-- A plugin with the settings of its language, and an index of the workspace after some calls. -/
structure Plugin.Made (config : Config) (cwd root : String) (steps : List IndexStep) (p : Plugin) : Prop where
  options : p.options = p.language.options config
  allowed : p.allowsTypeScript = p.language.allowsTypeScript config
  index : p.index.Runs cwd root p.options p.family steps

theorem candidates_unlisted {s : Session} {d : Document} {p : Plugin} {failure : Failure}
    (hplugin : s.pluginFor d none = some p) (hbuilt : p.index.isBuilt = false)
    (hrules : loadIgnoreRules s.disk p.index.root = .error failure) : (s.candidates d).1 = .error failure := by
  have hfiles : p.index.files? = none := by simpa [WorkspaceIndex.isBuilt] using hbuilt
  have hitems : p.items s.disk d = (.error failure, p) := by
    rw [Plugin.items, if_neg (by simp [Session.accepts_of_pluginFor hplugin]), build_error hfiles hrules]
  rw [Session.candidates_error hplugin hitems]

/-- An index that is listed has the same root and packages as before. -/
theorem unread?_of_build {disk : Disk} {index listed : WorkspaceIndex} {files : List FileCandidate}
    (h : index.build disk = .ok (files, listed)) (directory : String) :
    listed.unread? disk directory = index.unread? disk directory := by
  obtain ⟨hroot, hpackages⟩ := WorkspaceIndex.build_packages h
  simp only [WorkspaceIndex.unread?, WorkspaceIndex.kept?, hroot, hpackages]

theorem candidates_unread {s : Session} {d : Document} {p : Plugin} {config : Config} {cwd root manifest : String}
    {steps : List IndexStep} {failure : Failure} (hplugin : s.pluginFor d none = some p)
    (hmade : p.Made config cwd root steps) (hreadable : p.options.Readable)
    (hready : p.index.isBuilt = true ∨ Succeeds (loadIgnoreRules s.disk p.index.root))
    (hunread : p.index.unread? s.disk d.directory = some manifest)
    (h : Manifest.packages s.disk p.index.root manifest = .error failure) : (s.candidates d).1 = .error failure := by
  obtain ⟨⟨indexed, listed⟩, hbuild⟩ := build_succeeds hready
  obtain ⟨kept, hfilter, -⟩ :=
    Plugin.filterFiles_offered (d := d) hmade.options hmade.allowed hreadable indexed
  rw [← unread?_of_build hbuild] at hunread
  rw [← (WorkspaceIndex.build_packages hbuild).1] at h
  have hitems : p.items s.disk d = (.error failure, { p with index := listed }) := by
    rw [Plugin.items, if_neg (by simp [Session.accepts_of_pluginFor hplugin]), hbuild]
    dsimp only
    rw [Plugin.filterFiles_withIndex, hfilter]
    dsimp only
    rw [packagesFor_unread hunread h]
  rw [Session.candidates_error hplugin hitems]

/-- The plugins of a new session are as they are made. -/
theorem Plugin.create_made (cwd root : String) (config : Config) (language : Language) :
    (Plugin.create cwd root config language).Made config cwd root [] := by
  rw [Plugin.create]
  exact ⟨rfl, rfl, .create⟩

/-- A workspace with one module, and with another entry beside it or without. -/
def loneModule (other? : Option (String × Entry)) : Disk where
  cwd := "/ws"
  entries := (["ws"], .directory) :: (["ws", "b.js"], .file []) ::
    other?.toList.map fun other => (["ws", other.1], other.2)

theorem loneModule_sound {other? : Option (String × Entry)}
    (hother : ∀ other ∈ other?, IsSegment other.1 ∧ other.1 ≠ "b.js") : (loneModule other?).Sound := by
  have hroot : IsSegment "ws" := ⟨by decide +kernel, by decide +kernel, by decide +kernel, by decide +kernel⟩
  have hmodule : IsSegment "b.js" := ⟨by decide +kernel, by decide +kernel, by decide +kernel, by decide +kernel⟩
  refine ⟨fun entry hentry => ?_, ?_⟩
  · simp only [loneModule, List.mem_cons, List.mem_map, Option.mem_toList] at hentry
    obtain rfl | rfl | ⟨other, hmem, rfl⟩ := hentry
    · simpa using hroot
    · simpa using ⟨hroot, hmodule⟩
    · simpa using ⟨hroot, (hother other hmem).1⟩
  · cases other? with
    | none => decide
    | some other => simpa [loneModule, eq_comm] using (hother other rfl).2

def openedDocument : Document := ⟨"/ws/app.js", "", "javascript", 0⟩

/-- The session of the workspace, in which the module has been imported before, and another one that is gone. -/
def loneSession (other? : Option (String × Entry)) : Session :=
  { Session.create (loneModule other?) "/ws" {} with
    recency := [HistoryEvent.used "JavaScript" "/ws/b.js", .used "JavaScript" "/ws/gone.js"].foldl Recency.after
      (.empty 30) }

/-- The plugin for a document of the second language is made as the others are. -/
theorem pluginFor_javascript {s : Session} {d : Document} {config : Config} {cwd root : String}
    (hplugins : s.plugins = Session.createPlugins cwd root config) (hlanguage : d.language = "javascript") :
    s.pluginFor d none = some (.create cwd root config .javascript) := by
  have haccepts : ∀ language, (Plugin.create cwd root config language).accepts d = language.accepts "javascript" := by
    intro language
    rw [Plugin.accepts, hlanguage]
    rfl
  have htypescript : Language.typescript.accepts "javascript" = false := by decide +kernel
  have hjavascript : Language.javascript.accepts "javascript" = true := by decide +kernel
  rw [Session.pluginFor, hplugins, Session.createPlugins]
  simp [haccepts, htypescript, hjavascript]

theorem loneSession_plugin (other? : Option (String × Entry)) : (loneSession other?).pluginFor openedDocument none =
    some (.create "/ws" (absolute "/ws" "/ws") {} .javascript) :=
  pluginFor_javascript rfl rfl

/-- An entry with a text. -/
def textFile (text : String) : Entry := .file (Utf8.encode text)

theorem loneModule_find (text : String) :
    Manifest.find? (loneModule (some ("package.json", textFile text))) "/ws" "/ws" = some "/ws/package.json" := by
  have hstart : absolute "/ws" "/ws" = "/ws" := by decide +kernel
  have hjoin : join "/ws" Manifest.fileName = "/ws/package.json" := by decide +kernel
  have hfile : (loneModule (some ("package.json", textFile text))).isFile "/ws/package.json" = true := rfl
  unfold Manifest.find?
  dsimp only
  rw [show (loneModule (some ("package.json", textFile text))).cwd = "/ws" from rfl, hstart, Manifest.findFrom, hjoin,
    if_pos hfile]

/-- An operation that fails, whatever it gives otherwise. -/
theorem error_of_map {α : Type} {x : Except Failure α} {failure : Failure}
    (h : x.map (fun _ => ()) = .error failure) : x = .error failure := by
  cases x with
  | error failure' =>
      cases h
      rfl
  | ok a => cases h

theorem loneModule_rules (text : String) :
    Succeeds (loadIgnoreRules (loneModule (some ("package.json", textFile text))) "/ws") := by
  have hshared : join (clean "/ws") ".gitignore" = "/ws/.gitignore" := by decide +kernel
  have hown : join (clean "/ws") ".quickenignore" = "/ws/.quickenignore" := by decide +kernel
  obtain ⟨rules, hrules⟩ : Succeeds (defaultIgnoreLines.mapM IgnoreRule.read) := by decide +kernel
  have hnone : ∀ path, (loneModule (some ("package.json", textFile text))).has path = false →
      ignoreLines? (loneModule (some ("package.json", textFile text))) path = .ok none := by
    intro path hpath
    rw [ignoreLines?, if_neg (by simp [hpath])]
  rw [loadIgnoreRules, hshared, hown, hnone _ rfl, hnone _ rfl]
  refine ⟨rules.filterMap id, ?_⟩
  simp only [bind, Except.bind, Option.getD_none, List.nil_append, hrules]
  rfl

theorem breakless_replicate {c : Char} (h : c ≠ '\r') (n : Nat) :
    '\r' ∉ (String.ofList (List.replicate n c)).toList := by
  rw [String.toList_ofList]
  exact fun hmem => h (List.eq_of_mem_replicate hmem).symm

theorem create_unread? {disk : Disk} {cwd root directory manifest : String} {config : Config} {language : Language}
    (h : Manifest.find? disk directory (absolute cwd root) = some manifest) :
    (Plugin.create cwd root config language).index.unread? disk directory = some manifest := by
  have hroot : (Plugin.create cwd root config language).index.root = absolute cwd root := by
    rw [Plugin.create, WorkspaceIndex.create]
  rw [WorkspaceIndex.unread?_eq_some_iff, hroot]
  exact ⟨h, rfl⟩

/-- With a manifest that is beyond a limit there is no answer. -/
theorem limited_manifest_fails {text : String} {limit : Json.Limit} (hbreaks : '\r' ∉ text.toList)
    (h : Json.read 990 text = .error (.limit limit)) :
    ((loneSession (some ("package.json", textFile text))).candidates openedDocument).1 =
      .error (.beyondLimit limit) := by
  have hroot : (Plugin.create "/ws" (absolute "/ws" "/ws") {} .javascript).index.root = "/ws" := by decide +kernel
  have hdirectory : openedDocument.directory = "/ws" := by decide +kernel
  have hcreated : absolute "/ws" (absolute "/ws" "/ws") = "/ws" := by decide +kernel
  have hunread : (Plugin.create "/ws" (absolute "/ws" "/ws") {} .javascript).index.unread?
      (loneModule (some ("package.json", textFile text))) openedDocument.directory = some "/ws/package.json" := by
    refine create_unread? ?_
    rw [hdirectory, hcreated]
    exact loneModule_find text
  have hpackages : Manifest.packages (loneModule (some ("package.json", textFile text))) "/ws" "/ws/package.json" =
      .error (.beyondLimit limit) := by
    rw [Manifest.packages, Manifest.readObject?, Disk.readJson_of_limit (by decide) hbreaks rfl h]
    rfl
  have hrules := loneModule_rules text
  rw [← hroot] at hpackages hrules
  exact candidates_unread (loneSession_plugin _) (Plugin.create_made _ _ _ _)
    (fun rule hrule => absurd hrule List.not_mem_nil) (.inr hrules) hunread hpackages

end ImportAssist
