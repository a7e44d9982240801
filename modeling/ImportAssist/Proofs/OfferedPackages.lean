import ImportAssist.Proofs.KeptPackages
import ImportAssist.Session.Session

/-!
# Packages that a session offers

Files that are created and deleted change the files of an index, but no packages (`followAll_files`); only an
event of another kind makes an index forget them. So after any events and requests a session offers the
packages of a manifest as they were when the first request of a language was answered from it
(`packages_as_first_read`): they are those of a new session exactly as long as the manifest is read in the same
way.

`Ran` is what may happen to a session, and `Follows` what holds of it then. A request is shown by cases on what
it can come to (`Follows.candidates_cases`), an event by what it does to one plugin after the other.
-/

namespace ImportAssist

open ImportAssist.Path

/-! ## Requests -/

namespace WorkspaceIndex

variable {disk : Disk} {index listed : WorkspaceIndex} {files : List FileCandidate}

theorem build_packages (h : index.build disk = .ok (files, listed)) :
    listed.root = index.root ∧ listed.packages = index.packages := by
  unfold build at h
  split at h
  · cases h
    exact ⟨rfl, rfl⟩
  · obtain ⟨paths, -, h⟩ := bind_eq_ok h
    cases h
    exact ⟨rfl, rfl⟩

theorem Keeps.build {root : String} {answers : List Answer} {language : Language}
    (h : Keeps root answers language index) (hbuild : index.build disk = .ok (files, listed)) :
    Keeps root answers language listed := by
  obtain ⟨hroot, hpackages⟩ := build_packages hbuild
  exact h.of_packages hroot hpackages

/-- An index can be listed where a new one with the same root can. -/
theorem exists_build {new : WorkspaceIndex} (hroot : index.root = new.root) (hnew : new.files? = none)
    (h : new.build disk = .ok (files, listed)) : ∃ files listed, index.build disk = .ok (files, listed) := by
  unfold build at h ⊢
  rw [hnew] at h
  obtain ⟨paths, hpaths, -⟩ := bind_eq_ok h
  cases index.files? with
  | some present => exact ⟨_, _, rfl⟩
  | none =>
      rw [hroot, hpaths]
      exact ⟨_, _, rfl⟩

end WorkspaceIndex

namespace Plugin

variable {disk : Disk} {p p' : Plugin} {d : Document} {files kept : List FileCandidate}
  {found : List PackageCandidate} {listed index : WorkspaceIndex}

theorem filterFiles_withIndex (p : Plugin) (index : WorkspaceIndex) :
    ({ p with index := index } : Plugin).filterFiles d files = p.filterFiles d files := rfl

theorem items_eq (haccepts : p.accepts d = true) (hbuild : p.index.build disk = .ok (files, listed))
    (hfilter : p.filterFiles d files = .ok kept)
    (hpackages : listed.packagesFor disk d.directory = .ok (found, index)) :
    p.items disk d =
      (.ok (some (sortCandidates (Path.normalize d.path) kept found)), { p with index := index }) := by
  rw [items, if_neg (by simp [haccepts]), hbuild]
  dsimp only
  rw [filterFiles_withIndex, hfilter]
  dsimp only
  rw [hpackages]

/-- A request that is not answered changes no packages. -/
theorem items_cases (disk : Disk) (haccepts : p.accepts d = true) :
    (∃ failure index, p.items disk d = (.error failure, { p with index := index }) ∧
      index.root = p.index.root ∧ index.packages = p.index.packages) ∨
    ∃ files listed kept found index, p.index.build disk = .ok (files, listed) ∧ p.filterFiles d files = .ok kept ∧
      listed.packagesFor disk d.directory = .ok (found, index) := by
  cases hbuild : p.index.build disk with
  | error failure =>
      refine .inl ⟨failure, p.index, ?_, rfl, rfl⟩
      rw [items, if_neg (by simp [haccepts]), hbuild]
  | ok result =>
      obtain ⟨files, listed⟩ := result
      obtain ⟨hroot, hsame⟩ := WorkspaceIndex.build_packages hbuild
      cases hfilter : p.filterFiles d files with
      | error failure =>
          refine .inl ⟨failure, listed, ?_, hroot, hsame⟩
          rw [items, if_neg (by simp [haccepts]), hbuild]
          dsimp only
          rw [filterFiles_withIndex, hfilter]
      | ok kept =>
          cases hpackages : listed.packagesFor disk d.directory with
          | error failure =>
              refine .inl ⟨failure, listed, ?_, hroot, hsame⟩
              rw [items, if_neg (by simp [haccepts]), hbuild]
              dsimp only
              rw [filterFiles_withIndex, hfilter]
              dsimp only
              rw [hpackages]
          | ok result =>
              obtain ⟨found, index⟩ := result
              exact .inr ⟨files, listed, kept, found, index, rfl, hfilter, hpackages⟩

/-- A plugin with the settings of its language, and with the packages of some answers. -/
structure Serves (config : Config) (root : String) (answers : List Answer) (p : Plugin) : Prop where
  options : p.options = p.language.options config
  capabilities : p.capabilities = Capability.all
  keeps : p.index.Keeps root answers p.language

theorem Serves.withIndex {config : Config} {root : String} {answers answers' : List Answer}
    (h : p.Serves config root answers) (hindex : index.Keeps root answers' p.language) :
    ({ p with index := index } : Plugin).Serves config root answers' :=
  ⟨h.options, h.capabilities, hindex⟩

/-- Whether files can be filtered depends on the document and the options alone. -/
theorem exists_filterFiles {files' : List FileCandidate} (files : List FileCandidate)
    (hoptions : p.options = p'.options) (h : p'.filterFiles d files' = .ok kept) :
    ∃ kept, p.filterFiles d files = .ok kept := by
  obtain ⟨filter?, hfilter, -⟩ := bind_eq_ok h
  rw [filterFiles, hoptions, hfilter]
  exact ⟨_, rfl⟩

end Plugin

namespace Session

variable {config : Config} {answers : List Answer} {s s' : Session} {d : Document} {language : Language}

/-- A session that has not imported anything, with the packages of some answers. -/
structure Follows (config : Config) (answers : List Answer) (s : Session) : Prop where
  recency : s.recency.histories = []
  languages : s.plugins.map (·.language) = [.typescript, .javascript]
  serves : ∀ p ∈ s.plugins, p.Serves config s.root answers

/-- The requests to a session that are answered now: the one that is made, or none. -/
def answered (s : Session) (d : Document) : List Answer :=
  match (s.candidates d).1 with
  | .ok (some (language, _)) => [⟨language, s.disk, d⟩]
  | _ => []

/-- The session after a request. -/
def asked (s : Session) (d : Document) : Session := (s.candidates d).2

theorem disk_of_answered {a : Answer} (h : a ∈ s.answered d) : a.disk = s.disk := by
  unfold answered at h
  split at h
  · rw [List.mem_singleton.mp h]
  · exact absurd h List.not_mem_nil

theorem candidates_none (h : s.pluginFor d none = none) : s.candidates d = (.ok none, s) := by
  rw [candidates, h]

theorem candidates_error {p p' : Plugin} {failure : Failure} (hplugin : s.pluginFor d none = some p)
    (h : p.items s.disk d = (.error failure, p')) : s.candidates d = (.error failure, s.setPlugin p') := by
  rw [candidates, hplugin]
  dsimp only
  rw [h]

/-- Without a history, candidates are given as the plugin has them. -/
theorem candidates_ok {p p' : Plugin} {items : List Candidate} (hrecency : s.recency.histories = [])
    (hplugin : s.pluginFor d none = some p) (h : p.items s.disk d = (.ok (some items), p')) :
    s.candidates d = (.ok (some (p'.language, items)), s.setPlugin p') := by
  have hhas : ∀ language, s.recency.has language = false := fun language => by
    rw [Recency.has, Recency.recent, hrecency]
    rfl
  have hrank : ∀ id : Candidate → Json, (s.setPlugin p').recency.rankStored p'.language.name id items = .ok items := by
    intro id
    have hsame : (s.setPlugin p').recency = s.recency := rfl
    rw [hsame, Recency.rankStored, hhas]
    rfl
  rw [candidates, hplugin]
  dsimp only
  rw [h]
  dsimp only
  rw [hrank]
  rfl

theorem accepts_of_pluginFor {p : Plugin} (h : s.pluginFor d none = some p) : p.accepts d = true := by
  simpa using List.find?_some h

/-- The plugin for a document is that of the first language that takes it. -/
theorem pluginFor_language (s : Session) (d : Document) :
    (s.pluginFor d none).map (·.language) = (s.plugins.map (·.language)).find? (·.accepts d.language) := by
  rw [pluginFor, List.find?_map]
  rfl

namespace Follows

/-- What a request comes to. There may be no plugin for the document. The plugin for it may fail, and then it keeps
what it had. Or else it answers, with the packages that its index has for the directory of the document. -/
theorem candidates_cases (h : s.Follows config answers) (d : Document) :
    (s.pluginFor d none = none ∧ s.candidates d = (.ok none, s)) ∨
    ∃ p, p ∈ s.plugins ∧ s.pluginFor d none = some p ∧
      ((∃ failure index, s.candidates d = (.error failure, s.setPlugin { p with index := index }) ∧
        index.Keeps s.root answers p.language) ∨
      ∃ files listed kept found index, p.index.build s.disk = .ok (files, listed) ∧
        p.filterFiles d files = .ok kept ∧ listed.packagesFor s.disk d.directory = .ok (found, index) ∧
        s.candidates d = (.ok (some (p.language, sortCandidates (Path.normalize d.path) kept found)),
          s.setPlugin { p with index := index })) := by
  cases hplugin : s.pluginFor d none with
  | none => exact .inl ⟨rfl, candidates_none hplugin⟩
  | some p =>
      have hp : p ∈ s.plugins := List.mem_of_find?_eq_some hplugin
      refine .inr ⟨p, hp, rfl, ?_⟩
      rcases p.items_cases s.disk (accepts_of_pluginFor hplugin) with ⟨failure, index, hitems, hroot, hsame⟩ |
        ⟨files, listed, kept, found, index, hbuild, hfilter, hpackages⟩
      · have hkeeps := (h.serves p hp).keeps.of_packages hroot hsame
        exact .inl ⟨failure, index, candidates_error hplugin hitems, hkeeps⟩
      · have hitems := Plugin.items_eq (accepts_of_pluginFor hplugin) hbuild hfilter hpackages
        exact .inr ⟨files, listed, kept, found, index, hbuild, hfilter, hpackages,
          candidates_ok h.recency hplugin hitems⟩

theorem setPlugin (h : s.Follows config answers) {answers' : List Answer} {p : Plugin} (hp : p ∈ s.plugins)
    {index : WorkspaceIndex} (hindex : index.Keeps s.root answers' p.language)
    (hothers : ∀ q ∈ s.plugins, q.language ≠ p.language → q.index.Keeps s.root answers' q.language) :
    (s.setPlugin { p with index := index }).Follows config answers' := by
  refine ⟨h.recency, ?_, ?_⟩
  · rw [← h.languages, Session.setPlugin, List.map_map]
    refine List.map_congr_left fun q _ => ?_
    rw [Function.comp_apply]
    split
    · rename_i hsame
      exact hsame.symm
    · rfl
  · intro q hq
    obtain ⟨q', hq', rfl⟩ := List.mem_map.mp hq
    by_cases hsame : q'.language = p.language
    · rw [if_pos hsame]
      exact (h.serves p hp).withIndex hindex
    · rw [if_neg hsame]
      exact (h.serves q' hq').withIndex (hothers q' hq' hsame)

/-- A request adds its answer, if it is answered. -/
theorem asked (h : s.Follows config answers) (d : Document) :
    (s.asked d).Follows config (answers ++ s.answered d) := by
  rcases h.candidates_cases d with ⟨-, hnone⟩ | ⟨p, hp, -, ⟨failure, index, hfailed, hkeeps⟩ |
    ⟨files, listed, kept, found, index, hbuild, -, hpackages, hanswer⟩⟩
  · rw [Session.asked, answered, hnone, List.append_nil]
    exact h
  · rw [Session.asked, answered, hfailed, List.append_nil]
    exact h.setPlugin hp hkeeps fun q hq _ => (h.serves q hq).keeps
  · rw [Session.asked, answered, hanswer]
    refine h.setPlugin hp (((h.serves p hp).keeps.build hbuild).answered hpackages) ?_
    intro q hq hother
    exact (h.serves q hq).keeps.other hother.symm

/-- What an answer offers from a manifest are its packages on the disk of the first answer from it. -/
theorem packages_of_answer (h : s.Follows config answers) {items : List Candidate}
    (hanswer : (s.candidates d).1 = .ok (some (language, items))) :
    (Manifest.find? s.disk d.directory s.root = none → packagesOf items = []) ∧
      ∀ manifest, Manifest.find? s.disk d.directory s.root = some manifest →
        Manifest.packages (readOn answers language s.root manifest s.disk) s.root manifest =
          .ok (packagesOf items) := by
  rcases h.candidates_cases d with ⟨-, hnone⟩ | ⟨p, hp, -, ⟨failure, index, hfailed, -⟩ |
    ⟨files, listed, kept, found, index, hbuild, -, hpackages, hoffered⟩⟩
  · rw [hnone] at hanswer
    cases hanswer
  · rw [hfailed] at hanswer
    cases hanswer
  · rw [hoffered] at hanswer
    cases hanswer
    have hspec := ((h.serves p hp).keeps.build hbuild).packagesFor_fst s.disk d.directory
    rw [hpackages] at hspec
    constructor
    · intro hnone
      rw [hnone] at hspec
      have hnil : found = [] := Except.ok.inj hspec
      rw [hnil]
      exact packagesOf_sortCandidates .nil
    · intro manifest hmanifest
      rw [hmanifest] at hspec
      have hfound : Manifest.packages (readOn answers p.language s.root manifest s.disk) s.root manifest =
          .ok found := hspec.symm
      rw [packagesOf_sortCandidates (Manifest.packages_sorted hfound)]
      exact hfound

/-- Where a session that has not listed any files answers a request, so does every other one, in the same
language. -/
theorem answers_of_new (h : s.Follows config answers) (hnew : s'.Follows config []) (hdisk : s'.disk = s.disk)
    (hroot : s'.root = s.root) (hfiles : ∀ p ∈ s'.plugins, p.index.files? = none) {items : List Candidate}
    (hanswer : (s'.candidates d).1 = .ok (some (language, items))) :
    ∃ items, (s.candidates d).1 = .ok (some (language, items)) := by
  rcases hnew.candidates_cases d with ⟨-, hnone⟩ | ⟨p', hp', hplugin', ⟨failure, index, hfailed, -⟩ |
    ⟨files', listed', kept', found', index', hbuild', hfilter', hpackages', hoffered⟩⟩
  · rw [hnone] at hanswer
    cases hanswer
  · rw [hfailed] at hanswer
    cases hanswer
  · rw [hoffered] at hanswer
    cases hanswer
    rw [hdisk] at hbuild' hpackages'
    obtain ⟨p, hplugin, hlanguage⟩ : ∃ p, s.pluginFor d none = some p ∧ p.language = p'.language := by
      rw [← Option.map_eq_some_iff, pluginFor_language, h.languages, ← hnew.languages, ← pluginFor_language,
        hplugin']
      rfl
    have hp : p ∈ s.plugins := List.mem_of_find?_eq_some hplugin
    have hserves := h.serves p hp
    have hserves' := hnew.serves p' hp'
    rw [hroot] at hserves'
    have hindex : p.index.root = p'.index.root := by rw [hserves.keeps.root_eq, hserves'.keeps.root_eq]
    have hoptions : p.options = p'.options := by rw [hserves.options, hserves'.options, hlanguage]
    obtain ⟨files, listed, hbuild⟩ := WorkspaceIndex.exists_build hindex (hfiles p' hp') hbuild'
    obtain ⟨kept, hfilter⟩ := Plugin.exists_filterFiles files hoptions hfilter'
    obtain ⟨found, index, hpackages⟩ :=
      (hserves.keeps.build hbuild).exists_packagesFor (hserves'.keeps.build hbuild') hpackages'
    have hitems := Plugin.items_eq (accepts_of_pluginFor hplugin) hbuild hfilter hpackages
    rw [candidates_ok h.recency hplugin hitems, hlanguage]
    exact ⟨_, rfl⟩

end Follows

/-! ## Events -/

section Events

variable {disk : Disk} {kind file path : String}

theorem add_files {index index' : WorkspaceIndex} (h : index.add disk path = .ok index') :
    ∃ files?, index' = { index with files? := files? } := by
  unfold WorkspaceIndex.add at h
  split at h
  · cases h
    exact ⟨_, rfl⟩
  · dsimp only at h
    split at h
    · cases h
      exact ⟨_, rfl⟩
    · obtain ⟨rules, -, h⟩ := bind_eq_ok h
      split at h
      · cases h
        exact ⟨_, rfl⟩
      · split at h <;> cases h <;> exact ⟨_, rfl⟩

/-- A file that was created or deleted is followed in the files of an index, and in nothing else. -/
theorem followEvent_files {p p' : Plugin} (hcapabilities : p.capabilities = Capability.all)
    (hkind : kind = "create" ∨ kind = "delete") (hfile : file ≠ "") (h : followEvent disk kind file p = .ok p') :
    ∃ files?, p' = { p with index := { p.index with files? := files? } } := by
  have hcan : ∀ capability, p.can capability = true := fun capability => by
    rw [Plugin.can, hcapabilities]
    cases capability <;> rfl
  unfold followEvent at h
  rcases hkind with rfl | rfl
  · rw [if_pos (by simp [hfile, hcan])] at h
    obtain ⟨index, hadd, h⟩ := bind_eq_ok h
    cases h
    obtain ⟨files?, rfl⟩ := add_files hadd
    exact ⟨files?, rfl⟩
  · rw [if_neg (by simp), if_pos (by simp [hfile, hcan])] at h
    cases h
    exact ⟨_, rfl⟩

/-- Following a file that was created or deleted changes no plugin but in its files, be it that one fails and the
others after it are not told. -/
theorem followAll_files (disk : Disk) (hkind : kind = "create" ∨ kind = "delete") (hfile : file ≠ "") :
    ∀ {plugins : List Plugin}, (∀ p ∈ plugins, p.capabilities = Capability.all) →
      (followAll disk kind file plugins).2.map (·.language) = plugins.map (·.language) ∧
        ∀ p' ∈ (followAll disk kind file plugins).2, ∃ p ∈ plugins, ∃ files?,
          p' = { p with index := { p.index with files? := files? } }
  | [], _ => ⟨rfl, fun p' hp' => absurd hp' List.not_mem_nil⟩
  | p :: plugins, hcapabilities => by
      rw [followAll]
      cases hfollow : followEvent disk kind file p with
      | error failure => exact ⟨rfl, fun p' hp' => ⟨p', hp', p'.index.files?, rfl⟩⟩
      | ok next =>
          obtain ⟨hlanguages, hrest⟩ := followAll_files disk hkind hfile fun q hq =>
            hcapabilities q (List.mem_cons_of_mem _ hq)
          obtain ⟨files?, rfl⟩ :=
            followEvent_files (hcapabilities p (List.mem_cons_self ..)) hkind hfile hfollow
          refine ⟨?_, fun p' hp' => ?_⟩
          · exact congrArg (p.language :: ·) hlanguages
          · rcases List.mem_cons.mp hp' with rfl | hp'
            · exact ⟨p, List.mem_cons_self .., files?, rfl⟩
            · obtain ⟨q, hq, hsame⟩ := hrest p' hp'
              exact ⟨q, List.mem_cons_of_mem _ hq, hsame⟩

/-- Any other event makes every index forget what it has. -/
theorem followAll_invalidate (disk : Disk) (hevent : (kind ≠ "create" ∧ kind ≠ "delete") ∨ file = "") :
    ∀ {plugins : List Plugin}, (∀ p ∈ plugins, p.capabilities = Capability.all) →
      (followAll disk kind file plugins).2 = plugins.map fun p => { p with index := p.index.invalidate }
  | [], _ => rfl
  | p :: plugins, hcapabilities => by
      have hreset : p.can .reset = true := by
        rw [Plugin.can, hcapabilities p (List.mem_cons_self ..)]
        rfl
      have hfollow : followEvent disk kind file p = .ok { p with index := p.index.invalidate } := by
        unfold followEvent
        rw [if_neg, if_neg, if_pos hreset]
        · rcases hevent with ⟨-, hdelete⟩ | hfile
          · simp [hdelete]
          · simp [hfile]
        · rcases hevent with ⟨hcreate, -⟩ | hfile
          · simp [hcreate]
          · simp [hfile]
      have ih := followAll_invalidate disk hevent fun q hq => hcapabilities q (List.mem_cons_of_mem _ hq)
      rw [followAll, hfollow]
      exact congrArg ({ p with index := p.index.invalidate } :: ·) ih

end Events

/-- The session after an event, which it is told of when the disk has changed. -/
def told (s : Session) (kind file : String) (entries : List (List String × Entry)) : Session :=
  (onFileEvent kind file { s with disk := { s.disk with entries := entries } }).2

theorem told_disk (s : Session) (kind file : String) (entries : List (List String × Entry)) :
    (s.told kind file entries).disk = { s.disk with entries := entries } := rfl

theorem told_root (s : Session) (kind file : String) (entries : List (List String × Entry)) :
    (s.told kind file entries).root = s.root := rfl

/-- A request changes plugins alone. -/
theorem asked_eq (s : Session) (d : Document) : ∃ plugins, s.asked d = { s with plugins := plugins } := by
  rw [asked, candidates]
  cases s.pluginFor d none with
  | none => exact ⟨s.plugins, rfl⟩
  | some p =>
      dsimp only
      split
      · exact ⟨_, rfl⟩
      · exact ⟨_, rfl⟩
      · exact ⟨_, rfl⟩

theorem asked_disk (s : Session) (d : Document) : (s.asked d).disk = s.disk := by
  obtain ⟨plugins, hasked⟩ := asked_eq s d
  rw [hasked]

theorem asked_root (s : Session) (d : Document) : (s.asked d).root = s.root := by
  obtain ⟨plugins, hasked⟩ := asked_eq s d
  rw [hasked]

/-- A session after events and requests. The disk may change before each event. The answers are those to the
requests that have been answered since the indexes were last forgotten, the oldest first. -/
inductive Ran (config : Config) (root : String) : Session → List Answer → Prop where
  | start {disk : Disk} : isAbsolute disk.cwd = true → Ran config root (.create disk root config) []
  | patched {s : Session} {answers : List Answer} (kind file entries) : kind = "create" ∨ kind = "delete" →
      file ≠ "" → Ran config root s answers → Ran config root (s.told kind file entries) answers
  | forgotten {s : Session} {answers : List Answer} (kind file entries) :
      (kind ≠ "create" ∧ kind ≠ "delete") ∨ file = "" → Ran config root s answers →
      Ran config root (s.told kind file entries) []
  | asked {s : Session} {answers : List Answer} (d) : Ran config root s answers →
      Ran config root (s.asked d) (answers ++ s.answered d)

theorem create_root (disk : Disk) (root : String) (config : Config) :
    (create disk root config).root = absolute disk.cwd root := by
  rw [create]

theorem create_disk (disk : Disk) (root : String) (config : Config) : (create disk root config).disk = disk := by
  rw [create]

theorem create_follows {disk : Disk} (config : Config) (root : String) (hcwd : isAbsolute disk.cwd = true) :
    (create disk root config).Follows config [] := by
  have hplugin : ∀ p ∈ (create disk root config).plugins,
      ∃ language, p = Plugin.create disk.cwd (absolute disk.cwd root) config language := by
    intro p hp
    obtain ⟨language, -, rfl⟩ := List.mem_map.mp hp
    exact ⟨language, rfl⟩
  obtain ⟨k, hk, hroot⟩ := absolute_rooted hcwd root
  refine ⟨rfl, rfl, ?_⟩
  intro p hp
  obtain ⟨language, rfl⟩ := hplugin p hp
  refine ⟨rfl, rfl, ?_, fun manifest => rfl⟩
  rw [create_root]
  simp only [Plugin.create, WorkspaceIndex.create]
  exact absolute_eq hk hroot

namespace Ran

variable {root : String}

theorem follows (h : Ran config root s answers) : s.Follows config answers := by
  induction h with
  | start hcwd => exact create_follows config root hcwd
  | @patched s answers kind file entries hkind hfile _ ih =>
      obtain ⟨hlanguages, hplugins⟩ := followAll_files (s.told kind file entries).disk hkind hfile fun p hp =>
        (ih.serves p hp).capabilities
      refine ⟨ih.recency, hlanguages.trans ih.languages, ?_⟩
      intro p' hp'
      obtain ⟨p, hp, files?, rfl⟩ := hplugins p' hp'
      exact (ih.serves p hp).withIndex ((ih.serves p hp).keeps.of_packages rfl rfl)
  | @forgotten s answers kind file entries hevent _ ih =>
      have hplugins := followAll_invalidate (s.told kind file entries).disk hevent fun p hp =>
        (ih.serves p hp).capabilities
      refine ⟨ih.recency, ?_, ?_⟩
      · refine (congrArg (List.map (·.language)) hplugins).trans ?_
        rw [List.map_map]
        exact ih.languages
      · intro p' hp'
        have hmem : p' ∈ s.plugins.map fun p => { p with index := p.index.invalidate } := hplugins ▸ hp'
        obtain ⟨p, hp, rfl⟩ := List.mem_map.mp hmem
        exact (ih.serves p hp).withIndex ⟨(ih.serves p hp).keeps.root_eq, fun manifest => rfl⟩
  | asked d _ ih => exact ih.asked d

/-- The root stays where it is. -/
theorem places (h : Ran config root s answers) :
    isAbsolute s.disk.cwd = true ∧ s.root = absolute s.disk.cwd root := by
  induction h with
  | start hcwd =>
      rw [create_root, create_disk]
      exact ⟨hcwd, rfl⟩
  | patched kind file entries _ _ _ ih =>
      rw [told_disk, told_root]
      exact ih
  | forgotten kind file entries _ _ ih =>
      rw [told_disk, told_root]
      exact ih
  | asked d _ ih =>
      rw [asked_disk, asked_root]
      exact ih

end Ran

end Session

/-- After any events and requests: where a new session would answer a request, so does this one, in the same
language. The packages of the new session are those of the manifest as it is now; the packages of this session are
those of the same manifest as it was at the first answer from it in this language. So they are the same exactly if the
manifest is still read as it was then. -/
theorem packages_as_first_read {config : Config} {root : String} {s : Session} {answers : List Answer}
    (h : Session.Ran config root s answers) {d : Document} {language : Language} {now : List Candidate}
    (hnow : ((Session.create s.disk root config).candidates d).1 = .ok (some (language, now))) :
    ∃ kept, (s.candidates d).1 = .ok (some (language, kept)) ∧
      (Manifest.find? s.disk d.directory s.root = none → packagesOf kept = [] ∧ packagesOf now = []) ∧
      ∀ manifest, Manifest.find? s.disk d.directory s.root = some manifest →
        Manifest.packages (readOn answers language s.root manifest s.disk) s.root manifest = .ok (packagesOf kept) ∧
          Manifest.packages s.disk s.root manifest = .ok (packagesOf now) ∧
          (packagesOf kept = packagesOf now ↔
            Manifest.packages (readOn answers language s.root manifest s.disk) s.root manifest =
              Manifest.packages s.disk s.root manifest) := by
  obtain ⟨hcwd, hroot⟩ := h.places
  have hnew : (Session.create s.disk root config).Follows config [] := Session.create_follows config root hcwd
  have hsame : (Session.create s.disk root config).root = s.root := by rw [Session.create_root, hroot]
  have hfiles : ∀ p ∈ (Session.create s.disk root config).plugins, p.index.files? = none := by
    intro p hp
    obtain ⟨language, -, rfl⟩ := List.mem_map.mp hp
    rfl
  obtain ⟨kept, hkept⟩ := h.follows.answers_of_new hnew (Session.create_disk ..) hsame hfiles hnow
  obtain ⟨hnone, hpackages⟩ := h.follows.packages_of_answer hkept
  obtain ⟨hnone', hpackages'⟩ := hnew.packages_of_answer hnow
  rw [hsame, Session.create_disk] at hnone' hpackages'
  refine ⟨kept, hkept, fun hfind => ⟨hnone hfind, hnone' hfind⟩, fun manifest hfind => ?_⟩
  have hthen := hpackages manifest hfind
  have hcurrent : Manifest.packages s.disk s.root manifest = .ok (packagesOf now) := hpackages' manifest hfind
  refine ⟨hthen, hcurrent, ?_⟩
  rw [hthen, hcurrent]
  exact ⟨congrArg Except.ok, Except.ok.inj⟩

/-- The language and the packages of an answer. -/
def offeredPackages (answer : Except Failure (Option (Language × List Candidate))) :
    Except Failure (Option (Language × List PackageCandidate)) :=
  answer.map (·.map fun (language, items) => (language, packagesOf items))

theorem exists_of_offeredPackages {answer : Except Failure (Option (Language × List Candidate))}
    {language : Language} {found : List PackageCandidate} (h : offeredPackages answer = .ok (some (language, found))) :
    ∃ items, answer = .ok (some (language, items)) ∧ packagesOf items = found := by
  cases answer with
  | error failure => cases h
  | ok result =>
      cases result with
      | none => cases h
      | some pair =>
          cases h
          exact ⟨pair.2, rfl, rfl⟩

/-- A workspace with a directory that has the manifest of one package or none, and a hidden directory with some empty
files. The rules leave out whatever is hidden. -/
def manifested (package? : Option String) (hidden : List String) : Disk where
  cwd := "/ws"
  entries := [(["ws"], .directory), (["ws", ".quickenignore"], .file (Utf8.encode ".*\n")), (["ws", "app"], .directory),
      (["ws", "app", ".cfg"], .directory)]
    ++ package?.toList.map (fun package => (["ws", "app", "package.json"],
      .file (Utf8.encode ("\x7b\"dependencies\": \x7b\"" ++ package ++ "\": \"1\"\x7d\x7d"))))
    ++ hidden.map fun name => (["ws", "app", ".cfg", name], .file [])

def scriptDocument : Document := ⟨"/ws/app/main.ts", "", "typescript", 0⟩

/-- A session that has been asked once for the candidates of a document. -/
def askedOnce : Session := (Session.create (manifested (some "react") []) "/ws" {}).asked scriptDocument

/-- The session after a file has been created in the hidden directory. -/
def hiddenCreated : Session :=
  askedOnce.told "create" "/ws/app/.cfg/b.js" (manifested (some "react") ["b.js"]).entries

/-- The session after the manifest has been deleted and created again for another package. -/
def manifestReplaced : Session :=
  (askedOnce.told "delete" "/ws/app/package.json" (manifested none []).entries).told
    "create" "/ws/app/package.json" (manifested (some "vue") []).entries

theorem askedOnce_disk : askedOnce.disk = manifested (some "react") [] := by
  rw [askedOnce, Session.asked_disk, Session.create_disk]

theorem askedOnce_ran : ∃ answers, Session.Ran {} "/ws" askedOnce answers ∧
    ∀ a ∈ answers, a.disk = manifested (some "react") [] := by
  refine ⟨_, .asked scriptDocument (.start rfl), ?_⟩
  intro a ha
  rw [List.nil_append] at ha
  rw [Session.disk_of_answered ha, Session.create_disk]

/-- A manifest that has not been touched is offered as it is. -/
theorem untouched_manifest_current :
    ∃ kept now, (hiddenCreated.candidates scriptDocument).1 = .ok (some (.typescript, kept)) ∧
      ((Session.create hiddenCreated.disk "/ws" {}).candidates scriptDocument).1 = .ok (some (.typescript, now)) ∧
      packagesOf kept = packagesOf now ∧ packagesOf now = [⟨"react", ""⟩] := by
  obtain ⟨answers, hasked, hanswers⟩ := askedOnce_ran
  have hran : Session.Ran {} "/ws" hiddenCreated answers :=
    .patched "create" "/ws/app/.cfg/b.js" _ (.inl rfl) (by decide) hasked
  have hdisk : hiddenCreated.disk = manifested (some "react") ["b.js"] := by
    rw [hiddenCreated, Session.told_disk, askedOnce_disk]
    rfl
  have hroot : hiddenCreated.root = "/ws" := by
    rw [hran.places.2, hdisk]
    decide +kernel
  have hoffered : offeredPackages ((Session.create hiddenCreated.disk "/ws" {}).candidates scriptDocument).1 =
      .ok (some (.typescript, [⟨"react", ""⟩])) := by
    rw [hdisk]
    decide +kernel
  obtain ⟨now, hnow, hfound⟩ := exists_of_offeredPackages hoffered
  obtain ⟨kept, hkept, -, hpackages⟩ := packages_as_first_read hran hnow
  have hfind : Manifest.find? hiddenCreated.disk scriptDocument.directory hiddenCreated.root =
      some "/ws/app/package.json" := by
    rw [hdisk, hroot]
    decide +kernel
  obtain ⟨-, hcurrent, hsame⟩ := hpackages _ hfind
  have hbefore : Manifest.packages (manifested (some "react") []) "/ws" "/ws/app/package.json" =
      .ok [⟨"react", ""⟩] := by decide +kernel
  refine ⟨kept, now, hkept, hnow, hsame.mpr ?_, hfound⟩
  rcases readOn_cases answers .typescript hiddenCreated.root "/ws/app/package.json" hiddenCreated.disk with
    hread | ⟨a, ha, hread⟩
  · rw [hread]
  · rw [hread, hanswers a ha, hcurrent, hfound, hroot, hbefore]

/-- The packages of the manifest that was deleted go on being offered. -/
theorem replaced_manifest_stale :
    (∃ answers, Session.Ran {} "/ws" manifestReplaced answers) ∧
      manifestReplaced.disk = manifested (some "vue") [] ∧
      offeredPackages (manifestReplaced.candidates scriptDocument).1 = .ok (some (.typescript, [⟨"react", ""⟩])) ∧
      offeredPackages ((Session.create (manifested (some "vue") []) "/ws" {}).candidates scriptDocument).1 =
        .ok (some (.typescript, [⟨"vue", ""⟩])) := by
  have hoffers : offeredPackages (manifestReplaced.candidates scriptDocument).1 =
        .ok (some (.typescript, [⟨"react", ""⟩])) ∧
      offeredPackages ((Session.create (manifested (some "vue") []) "/ws" {}).candidates scriptDocument).1 =
        .ok (some (.typescript, [⟨"vue", ""⟩])) := by decide +kernel
  refine ⟨?_, ?_, hoffers⟩
  · obtain ⟨answers, hasked, -⟩ := askedOnce_ran
    exact ⟨answers, .patched "create" "/ws/app/package.json" _ (.inl rfl) (by decide)
      (.patched "delete" "/ws/app/package.json" _ (.inr rfl) (by decide) hasked)⟩
  · rw [manifestReplaced, Session.told_disk, Session.told_disk, askedOnce_disk]
    rfl

end ImportAssist
