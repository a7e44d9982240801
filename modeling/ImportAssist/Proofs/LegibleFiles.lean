import ImportAssist.Proofs.Decoding
import ImportAssist.Proofs.Encoding
import ImportAssist.Proofs.KeptPackages
import Mathlib.Tactic.MkIffOfInductiveProp

/-!
# Legible files

A JSON file is legible if it has a path that a file can have, its bytes are UTF-8, and nothing in it is beyond the
limits of the reader (`Disk.Legible`). What cannot be opened counts as legible, and as holding nothing; so does a text
that is no JSON of the right kind (`Disk.json?`, `Disk.members?`). The strings of a file may be no texts; what comes
of such a file is left out here, so that it is also a condition that there are none (`Disk.Textual`). Reading a file
can come to three things (`Disk.readJson_cases`), and all that is built on it gives its value exactly under a
condition on what is read. Such steps go together (`bind_eq_ok_iff`, `mapM_eq_ok_iff`): `Manifest.packages_eq_ok_iff`
says so for the packages of a manifest, with the versions that are installed.
-/

namespace ImportAssist

/-! ## Steps that may fail -/

section

variable {ε α β : Type}

instance {α : Type} (x : Except ε α) : Decidable (Succeeds x) :=
  match x with
  | .ok a => .isTrue (.ok a)
  | .error _ => .isFalse fun ⟨_, h⟩ => (nomatch h)

theorem eq_ok_iff_of_ok {x : Except ε α} {condition : Prop} {a value : α} (h : condition) (hx : x = .ok value) :
    x = .ok a ↔ condition ∧ a = value := by
  rw [hx]
  exact ⟨fun hsame => ⟨h, (Except.ok.inj hsame).symm⟩, fun hsame => congrArg _ hsame.2.symm⟩

theorem eq_ok_iff_of_error {x : Except ε α} {condition : Prop} {failure : ε} {a value : α} (h : ¬condition)
    (hx : x = .error failure) : x = .ok a ↔ condition ∧ a = value := by
  rw [hx]
  exact ⟨fun hsame => (nomatch hsame), fun hsame => absurd hsame.1 h⟩

/-- A step after one that gives its value under a condition. -/
theorem bind_eq_ok_iff {x : Except ε α} {f : α → Except ε β} {first next : Prop} {a : α} {b value : β}
    (hx : ∀ a', x = .ok a' ↔ first ∧ a' = a) (hf : f a = .ok b ↔ next ∧ b = value) :
    (x >>= f) = .ok b ↔ (first ∧ next) ∧ b = value := by
  constructor
  · intro h
    obtain ⟨a', ha', h⟩ := bind_eq_ok h
    obtain ⟨hfirst, rfl⟩ := (hx a').mp ha'
    obtain ⟨hnext, hb⟩ := hf.mp h
    exact ⟨⟨hfirst, hnext⟩, hb⟩
  · rintro ⟨⟨hfirst, hnext⟩, hb⟩
    rw [(hx a).mpr ⟨hfirst, rfl⟩]
    exact hf.mpr ⟨hnext, hb⟩

/-- Steps that give their values under conditions of their own give them together under all of these. -/
theorem mapM_eq_ok_iff {f : α → Except ε β} {condition : α → Prop} {value : α → β}
    (hf : ∀ a b, f a = .ok b ↔ condition a ∧ b = value a) : ∀ {l : List α} {bs : List β},
      l.mapM f = .ok bs ↔ (∀ a ∈ l, condition a) ∧ bs = l.map value
  | [], bs => by
      rw [List.mapM_nil]
      exact eq_ok_iff_of_ok (fun a ha => absurd ha List.not_mem_nil) rfl
  | a :: l, bs => by
      have hrest : ∀ bs, (do return value a :: (← l.mapM f)) = .ok bs ↔
          ((∀ a ∈ l, condition a) ∧ True) ∧ bs = value a :: l.map value := fun bs =>
        bind_eq_ok_iff (fun bs => mapM_eq_ok_iff hf) (eq_ok_iff_of_ok trivial rfl)
      rw [List.mapM_cons, List.forall_mem_cons, List.map_cons, ← and_true (∀ a ∈ l, condition a)]
      exact bind_eq_ok_iff (hf a) (hrest bs)

end

/-! ## JSON files -/

/-- The members of an object. -/
def Json.members? : Json → Option (List (String × Json))
  | .obj members => some members
  | _ => none

/-- What ends the reading of a text without a value. -/
def Json.stop? (depth : Nat) (text : String) : Option Json.Stop :=
  match Json.read depth text with
  | .ok _ => none
  | .error stop => some stop

/-- What ends the reading of a JSON file without a value, if it can be opened and its bytes are UTF-8. -/
def Disk.stop? (disk : Disk) (path : String) : Option Json.Stop :=
  (disk.readLines path).toOption.bind (Json.stop? (disk.nesting path))

/-- A path that may be that of a file, whose bytes are UTF-8 if it can be opened. -/
structure Disk.Decodes (disk : Disk) (path : String) : Prop where
  noNull : '\x00' ∉ path.toList
  utf8 : ∀ bytes, disk.read path = .ok bytes → (Utf8.decode? bytes).isSome

/-- A file that can be decoded, with a text that is within the limits of the reader. -/
structure Disk.Legible (disk : Disk) (path : String) : Prop extends disk.Decodes path where
  withinLimits : ∀ limit, disk.stop? path ≠ some (.limit limit)

/-- The strings in a file are texts, as far as it is read. -/
def Disk.Textual (disk : Disk) (path : String) : Prop := disk.stop? path ≠ some .surrogate

/-- What is read for certain. -/
def Disk.Readable (disk : Disk) (path : String) : Prop := disk.Legible path ∧ disk.Textual path

/-- What a file that cannot be read fails with. -/
def Failure.isUnread : Failure → Bool
  | .nullCharacter _ | .notUtf8 | .beyondLimit _ | .loneSurrogate => true
  | _ => false

theorem unixBreaks_of_none : ∀ {text : List Char}, '\r' ∉ text → unixBreaks text = text
  | [], _ => rfl
  | c :: rest, h => by
      obtain ⟨hc, hrest⟩ := not_or.mp (mt List.mem_cons.mpr h)
      rw [unixBreaks.eq_3 _ _ (fun _ hcr _ => hc hcr.symm) fun hcr => hc hcr.symm, unixBreaks_of_none hrest]

namespace Disk

variable {disk : Disk} {path : String}

instance (disk : Disk) (path : String) : Decidable (disk.Legible path) :=
  decidable_of_iff ('\x00' ∉ path.toList ∧
      (∀ bytes ∈ (disk.read path).toOption, (Utf8.decode? bytes).isSome = true) ∧
      ∀ limit ∈ [Json.Limit.digits, .depth], disk.stop? path ≠ some (.limit limit)) <| by
    have hread : ∀ bytes, bytes ∈ (disk.read path).toOption ↔ disk.read path = .ok bytes := by
      intro bytes
      cases disk.read path <;> simp [Except.toOption]
    have hlimits : ∀ limit, limit ∈ [Json.Limit.digits, .depth] := fun limit => by cases limit <;> decide
    simp only [hread]
    exact ⟨fun h => ⟨⟨h.1, h.2.1⟩, fun limit => h.2.2 limit (hlimits limit)⟩,
      fun h => ⟨h.noNull, h.utf8, fun limit _ => h.withinLimits limit⟩⟩

instance (disk : Disk) (path : String) : Decidable (disk.Textual path) :=
  inferInstanceAs (Decidable (_ ≠ _))

instance (disk : Disk) (path : String) : Decidable (disk.Readable path) :=
  inferInstanceAs (Decidable (_ ∧ _))

/-- What a JSON file holds; nothing if it cannot be read, or is no JSON. -/
def json? (disk : Disk) (path : String) : Option Json := (disk.readJson path).toOption.bind Except.toOption

/-- The members of the object in a JSON file. -/
def members? (disk : Disk) (path : String) : Option (List (String × Json)) := (disk.json? path).bind Json.members?

/-- What reading the text of a file comes to. One that can be decoded is read, unless the disk has none. -/
theorem readLines_cases (disk : Disk) (path : String) :
    (∃ text, disk.readLines path = .ok text ∧ disk.Decodes path) ∨
    (∃ e, disk.readLines path = .error (.disk e) ∧ disk.Decodes path) ∨
    (disk.readLines path = .error .notUtf8 ∨ disk.readLines path = .error (.nullCharacter path)) ∧
      ¬disk.Decodes path := by
  rw [Disk.readLines, Disk.readText]
  by_cases hnull : path.toList.contains '\x00' = true
  · rw [if_pos hnull]
    exact .inr (.inr ⟨.inr rfl, fun h => h.noNull (by simpa using hnull)⟩)
  · rw [if_neg hnull]
    have hnoNull : '\x00' ∉ path.toList := by simpa using hnull
    cases hread : disk.read path with
    | error e => exact .inr (.inl ⟨e, rfl, hnoNull, fun bytes hbytes => nomatch hread.symm.trans hbytes⟩)
    | ok bytes =>
        dsimp only
        cases hdecode : Utf8.decode? bytes with
        | none =>
            refine .inr (.inr ⟨.inl rfl, fun h => ?_⟩)
            have hutf8 := h.utf8 bytes hread
            rw [hdecode] at hutf8
            cases hutf8
        | some text =>
            refine .inl ⟨_, rfl, hnoNull, fun bytes' hbytes => ?_⟩
            cases hread.symm.trans hbytes
            rw [hdecode]
            rfl

theorem stop?_of_read {text : String} (h : disk.readLines path = .ok text) :
    disk.stop? path = Json.stop? (disk.nesting path) text := by
  rw [stop?, h]
  rfl

theorem readable_of_stop? (hdecodes : disk.Decodes path)
    (h : ∀ stop, disk.stop? path = some stop → ∃ e, stop = .fault e) :
    disk.Readable path := by
  refine ⟨⟨hdecodes, fun limit hlimit => ?_⟩, fun hsurrogate => ?_⟩
  · obtain ⟨e, he⟩ := h _ hlimit
    cases he
  · obtain ⟨e, he⟩ := h _ hsurrogate
    cases he

/-- What reading a JSON file comes to. It gives a value, or there is none, or it fails; and it does not fail exactly if
the file is legible and its strings are texts. -/
theorem readJson_cases (disk : Disk) (path : String) :
    (∃ data, disk.readJson path = .ok (.ok data) ∧ disk.Readable path) ∨
    (∃ reason, disk.readJson path = .ok (.error reason) ∧ disk.Readable path) ∨
    ∃ failure, disk.readJson path = .error failure ∧ failure.isUnread = true ∧ ¬disk.Readable path := by
  obtain ⟨text, htext, hdecodes⟩ | ⟨e, he, hdecodes⟩ | ⟨hfailed, hnot⟩ := disk.readLines_cases path
  · have hstop := stop?_of_read htext
    rw [readJson, htext]
    dsimp only
    rw [Json.stop?] at hstop
    cases hread : Json.read (disk.nesting path) text with
    | ok data =>
        rw [hread] at hstop
        exact .inl ⟨data, rfl, readable_of_stop? hdecodes fun stop h => nomatch hstop.symm.trans h⟩
    | error stop =>
        rw [hread] at hstop
        cases stop with
        | fault e =>
            refine .inr (.inl ⟨_, rfl, readable_of_stop? hdecodes fun stop h => ⟨e, ?_⟩⟩)
            exact (Option.some.inj (hstop.symm.trans h)).symm
        | limit limit => exact .inr (.inr ⟨_, rfl, rfl, fun h => h.1.withinLimits limit hstop⟩)
        | surrogate => exact .inr (.inr ⟨_, rfl, rfl, fun h => h.2 hstop⟩)
  · have hstop : disk.stop? path = none := by
      rw [stop?, he]
      rfl
    rw [readJson, he]
    exact .inr (.inl ⟨_, rfl, readable_of_stop? hdecodes fun stop h => nomatch hstop.symm.trans h⟩)
  · rw [readJson]
    obtain he | he := hfailed
    · rw [he]
      exact .inr (.inr ⟨_, rfl, rfl, fun h => hnot h.1.toDecodes⟩)
    · rw [he]
      exact .inr (.inr ⟨_, rfl, rfl, fun h => hnot h.1.toDecodes⟩)

theorem Textual.readJson_cases (h : disk.Textual path) :
    (∃ data, disk.readJson path = .ok (.ok data) ∧ disk.Legible path) ∨
    (∃ reason, disk.readJson path = .ok (.error reason) ∧ disk.Legible path) ∨
    ∃ failure, disk.readJson path = .error failure ∧ failure.isUnread = true ∧ ¬disk.Legible path := by
  obtain ⟨data, hdata, hreadable⟩ | ⟨reason, hreason, hreadable⟩ | ⟨failure, hfailed, hunread, hnot⟩ :=
    Disk.readJson_cases disk path
  · exact .inl ⟨data, hdata, hreadable.1⟩
  · exact .inr (.inl ⟨reason, hreason, hreadable.1⟩)
  · exact .inr (.inr ⟨failure, hfailed, hunread, fun hlegible => hnot ⟨hlegible, h⟩⟩)

/-- The text of a file without carriage returns is what its bytes encode. -/
theorem readLines_of_text {text : String} (hnull : '\x00' ∉ path.toList) (hbreaks : '\r' ∉ text.toList)
    (h : disk.read path = .ok (Utf8.encode text)) : disk.readLines path = .ok text := by
  have htext : disk.readText path = .ok text := by
    rw [readText, if_neg (by simpa using hnull), h]
    dsimp only
    rw [Utf8.decode?_encode]
  rw [readLines, htext]
  exact congrArg Except.ok ((congrArg String.ofList (unixBreaks_of_none hbreaks)).trans String.ofList_toList)

/-- A text beyond a limit is not read from a file. -/
theorem readJson_of_limit {text : String} {limit : Json.Limit} (hnull : '\x00' ∉ path.toList)
    (hbreaks : '\r' ∉ text.toList) (h : disk.read path = .ok (Utf8.encode text))
    (hread : Json.read (disk.nesting path) text = .error (.limit limit)) :
    disk.readJson path = .error (.beyondLimit limit) := by
  rw [readJson, readLines_of_text hnull hbreaks h]
  dsimp only
  rw [hread]

theorem members?_of_failed {failure : Failure} (h : disk.readJson path = .error failure) :
    disk.members? path = none := by
  rw [members?, json?, h]
  rfl

theorem members?_of_unread {reason : String} (h : disk.readJson path = .ok (.error reason)) :
    disk.members? path = none := by
  rw [members?, json?, h]
  rfl

theorem members?_of_read {data : Json} (h : disk.readJson path = .ok (.ok data)) :
    disk.members? path = data.members? := by
  rw [members?, json?, h]
  rfl

/-- Where nothing is, no object is read. -/
theorem members?_of_absent (h : disk.has path = false) : disk.members? path = none := by
  have hread : ∀ bytes, disk.read path ≠ .ok bytes := by
    intro bytes hbytes
    rw [Disk.has, Disk.entry?] at h
    rw [Disk.read] at hbytes
    cases hfind : disk.find path with
    | ok entry =>
        rw [hfind] at h
        cases h
    | error fault =>
        rw [hfind] at hbytes
        cases hbytes
  have hlines : ∀ text, disk.readLines path ≠ .ok text := by
    intro text htext
    obtain ⟨raw, hraw, -⟩ := bind_eq_ok htext
    rw [Disk.readText] at hraw
    split at hraw
    · cases hraw
    · cases hbytes : disk.read path with
      | ok bytes => exact hread bytes hbytes
      | error e =>
          rw [hbytes] at hraw
          cases hraw
  cases hjson : disk.readJson path with
  | error failure => exact members?_of_failed hjson
  | ok result =>
      cases result with
      | error reason => exact members?_of_unread hjson
      | ok data =>
          rw [readJson] at hjson
          cases htext : disk.readLines path with
          | ok text => exact absurd htext (hlines text)
          | error failure =>
              rw [htext] at hjson
              cases failure <;> cases hjson

end Disk

/-! ## Packages -/

namespace Manifest

variable {disk : Disk} {root : String}

/-- The object in the file of a manifest. -/
def object? (disk : Disk) (path : String) : Option Json := (disk.members? path).map .obj

/-- The object of a manifest is read exactly if its file is. -/
theorem readObject?_eq_ok_iff {path : String} {data? : Option Json} :
    readObject? disk path = .ok data? ↔ disk.Readable path ∧ data? = object? disk path := by
  rw [readObject?]
  obtain ⟨data, hdata, hreadable⟩ | ⟨reason, hreason, hreadable⟩ | ⟨failure, hfailed, -, hnot⟩ :=
    disk.readJson_cases path
  · rw [object?, Disk.members?_of_read hdata, hdata]
    cases data <;> exact eq_ok_iff_of_ok hreadable rfl
  · rw [object?, Disk.members?_of_unread hreason, hreason]
    exact eq_ok_iff_of_ok hreadable rfl
  · rw [hfailed]
    exact eq_ok_iff_of_error hnot rfl

/-- The version of a package by what is installed next to its manifest, or else in the workspace. -/
def heldVersion (disk : Disk) (root directory package : String) : String :=
  ((declaredVersion (object? disk (installedPath directory package))).or
    (declaredVersion (object? disk (installedPath root package)))).getD ""

/-- A condition holds of the files that are read for the version of a package. -/
@[mk_iff]
structure VersionFiles (holds : String → Prop) (disk : Disk) (root directory package : String) : Prop where
  beside : holds (installedPath directory package)
  inRoot : declaredVersion (object? disk (installedPath directory package)) = none → holds (installedPath root package)

instance (holds : String → Prop) [DecidablePred holds] (disk : Disk) (root directory package : String) :
    Decidable (VersionFiles holds disk root directory package) :=
  decidable_of_iff _ (versionFiles_iff holds disk root directory package).symm

theorem installedVersion_eq_ok_iff {directory package version : String} :
    installedVersion disk root directory package = .ok version ↔
      VersionFiles disk.Readable disk root directory package ∧ version = heldVersion disk root directory package := by
  have hbeside := @readObject?_eq_ok_iff disk (installedPath directory package)
  have hinRoot := @readObject?_eq_ok_iff disk (installedPath root package)
  rw [installedVersion, versionFiles_iff, heldVersion]
  refine bind_eq_ok_iff (fun _ => hbeside) ?_
  cases declaredVersion (object? disk (installedPath directory package)) with
  | some version' => exact eq_ok_iff_of_ok nofun rfl
  | none =>
      rw [Option.none_or, forall_prop_of_true rfl, ← and_true (disk.Readable (installedPath root package))]
      exact bind_eq_ok_iff (fun _ => hinRoot) (eq_ok_iff_of_ok trivial rfl)

/-- The names of the packages that a manifest declares, in order. -/
def names (disk : Disk) (manifest : String) : List String :=
  dropRepeats (((object? disk manifest).map declared).getD []).mergeSort

/-- The packages that a manifest declares with the versions that are installed; none of one that is no object. -/
def held (disk : Disk) (root manifest : String) : List PackageCandidate :=
  (names disk manifest).map fun name => ⟨name, heldVersion disk root (Path.directory manifest) name⟩

/-- A condition holds of all files that are read for the packages of a manifest. -/
@[mk_iff]
structure Files (holds : String → Prop) (disk : Disk) (root manifest : String) : Prop where
  own : holds manifest
  versions : ∀ name ∈ names disk manifest, VersionFiles holds disk root (Path.directory manifest) name

instance (holds : String → Prop) [DecidablePred holds] (disk : Disk) (root manifest : String) :
    Decidable (Files holds disk root manifest) :=
  decidable_of_iff _ (files_iff holds disk root manifest).symm

theorem Files.and_iff {manifest : String} {holds holds' : String → Prop} :
    Files (fun path => holds path ∧ holds' path) disk root manifest ↔
      Files holds disk root manifest ∧ Files holds' disk root manifest := by
  constructor
  · intro h
    refine ⟨⟨h.own.1, fun name hname => ?_⟩, ⟨h.own.2, fun name hname => ?_⟩⟩
    · exact ⟨(h.versions name hname).beside.1, fun hnone => ((h.versions name hname).inRoot hnone).1⟩
    · exact ⟨(h.versions name hname).beside.2, fun hnone => ((h.versions name hname).inRoot hnone).2⟩
  · rintro ⟨h, h'⟩
    exact ⟨⟨h.own, h'.own⟩, fun name hname => ⟨⟨(h.versions name hname).beside, (h'.versions name hname).beside⟩,
      fun hnone => ⟨(h.versions name hname).inRoot hnone, (h'.versions name hname).inRoot hnone⟩⟩⟩

theorem packages_eq_ok_iff {manifest : String} {found : List PackageCandidate} :
    packages disk root manifest = .ok found ↔
      Files disk.Readable disk root manifest ∧ found = held disk root manifest := by
  have hpackage : ∀ (name : String) (p : PackageCandidate),
      (do return (⟨name, ← installedVersion disk root (Path.directory manifest) name⟩ : PackageCandidate)) = .ok p ↔
        VersionFiles disk.Readable disk root (Path.directory manifest) name ∧
          p = ⟨name, heldVersion disk root (Path.directory manifest) name⟩ := by
    intro name p
    rw [← and_true (VersionFiles _ _ _ _ _)]
    exact bind_eq_ok_iff (fun _ => installedVersion_eq_ok_iff) (eq_ok_iff_of_ok trivial rfl)
  rw [packages, files_iff]
  refine bind_eq_ok_iff (fun _ => readObject?_eq_ok_iff) ?_
  rw [held, names]
  cases object? disk manifest with
  | none =>
      rw [Option.map_none, Option.getD_none, List.mergeSort_nil]
      exact eq_ok_iff_of_ok (fun name hname => absurd hname List.not_mem_nil) rfl
  | some data => exact mapM_eq_ok_iff hpackage

/-- A condition holds of all files that are read for the packages of a directory. -/
def FilesFor (holds : String → Prop) (disk : Disk) (root directory : String) : Prop :=
  ∀ manifest ∈ find? disk directory root, Files holds disk root manifest

instance (holds : String → Prop) [DecidablePred holds] (disk : Disk) (root directory : String) :
    Decidable (FilesFor holds disk root directory) :=
  inferInstanceAs (Decidable (∀ manifest ∈ find? disk directory root, Files holds disk root manifest))

theorem FilesFor.and_iff {directory : String} {holds holds' : String → Prop} :
    FilesFor (fun path => holds path ∧ holds' path) disk root directory ↔
      FilesFor holds disk root directory ∧ FilesFor holds' disk root directory := by
  simp only [FilesFor, Files.and_iff, forall_and]

/-- The packages for documents in a directory: those of the nearest manifest. -/
def heldFor (disk : Disk) (root directory : String) : List PackageCandidate :=
  ((find? disk directory root).map (held disk root)).getD []

theorem heldFor_sorted (disk : Disk) (root directory : String) :
    (heldFor disk root directory).Pairwise fun a b => a.name ≤ b.name := by
  rw [heldFor]
  cases find? disk directory root with
  | none => exact .nil
  | some manifest =>
      rw [Option.map_some, Option.getD_some, held, List.pairwise_map]
      exact (mergeSort_sorted _).sublist (dropRepeats_sublist _)

/-- An index without packages finds those of the nearest manifest. -/
theorem packagesFor_fresh {index : WorkspaceIndex} (disk : Disk) (directory : String)
    (hpackages : index.packages = []) :
    (FilesFor disk.Readable disk index.root directory →
      ∃ index', index.packagesFor disk directory = .ok (heldFor disk index.root directory, index')) ∧
    (Succeeds (index.packagesFor disk directory) → FilesFor disk.Readable disk index.root directory) := by
  rw [FilesFor, heldFor]
  cases hfind : find? disk directory index.root with
  | none => exact ⟨fun _ => ⟨index, WorkspaceIndex.packagesFor_none hfind⟩, fun _ => nofun⟩
  | some manifest =>
      have hkept : index.kept? manifest = none := by
        rw [WorkspaceIndex.kept?, hpackages]
        rfl
      rw [WorkspaceIndex.packagesFor_read hfind hkept]
      constructor
      · intro h
        rw [packages_eq_ok_iff.mpr ⟨h manifest rfl, rfl⟩]
        exact ⟨_, rfl⟩
      · rintro ⟨⟨found, index'⟩, hfound⟩ other hother
        cases hother
        cases hread : packages disk index.root manifest with
        | error failure =>
            rw [hread] at hfound
            cases hfound
        | ok found => exact (packages_eq_ok_iff.mp hread).1

end Manifest

end ImportAssist
