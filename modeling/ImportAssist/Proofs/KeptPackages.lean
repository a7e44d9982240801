import ImportAssist.Proofs.IndexFiles
import ImportAssist.Session.Language

/-!
# Packages that an index keeps

A manifest is read when packages are first wanted from it, and what was found then is kept. `Keeps` says so for
the index of a language by the requests that have been answered: of each manifest the index has the packages as
they were on the disk of the first answer from it. An answer preserves this (`Keeps.answered`), and so
does all that leaves the packages alone (`Keeps.of_packages`). What the index has for a directory is thus what
its manifest was read as (`Keeps.packagesFor_fst`).

Packages are offered by name, which is the order in which a manifest is read (`Manifest.packages_sorted`).
-/

namespace ImportAssist

open ImportAssist.Path

/-! ## Packages in order -/

namespace Manifest

theorem dropRepeats_sublist : ∀ names : List String, (dropRepeats names).Sublist names
  | [] => .slnil
  | [a] => .refl _
  | a :: b :: rest => by
      have ih := dropRepeats_sublist (b :: rest)
      rw [dropRepeats]
      split
      · exact ih.cons a
      · exact ih.cons_cons a

theorem names_of_mapM {ε : Type} {f : String → Except ε PackageCandidate}
    (hf : ∀ name p, f name = .ok p → p.name = name) : ∀ {names : List String} {found : List PackageCandidate},
      names.mapM f = .ok found → found.map (·.name) = names
  | [], found, h => by
      rw [List.mapM_nil] at h
      cases h
      rfl
  | name :: names, found, h => by
      rw [List.mapM_cons] at h
      obtain ⟨p, hp, h⟩ := bind_eq_ok h
      obtain ⟨rest, hrest, h⟩ := bind_eq_ok h
      cases h
      rw [List.map_cons, hf name p hp, names_of_mapM hf hrest]

theorem mergeSort_sorted (names : List String) : names.mergeSort.Pairwise (· ≤ ·) := by
  have hsorted : names.mergeSort.Pairwise fun a b => decide (a ≤ b) = true := by
    refine List.pairwise_mergeSort (fun a b c hab hbc => ?_) (fun a b => ?_) names
    · exact decide_eq_true (String.le_trans (of_decide_eq_true hab) (of_decide_eq_true hbc))
    · simpa using String.le_total a b
  exact hsorted.imp fun hle => of_decide_eq_true hle

/-- The names that a manifest declares, as often as it does. -/
def declared (data : Json) : List String := sectionNames data "dependencies" ++ sectionNames data "devDependencies"

/-- The packages of a manifest are those that it declares, each once; a manifest that is no object declares none. -/
theorem packages_names {disk : Disk} {root manifest : String} {found : List PackageCandidate}
    (h : packages disk root manifest = .ok found) : ∃ data?, readObject? disk manifest = .ok data? ∧
      found.map (·.name) = dropRepeats ((data?.map declared).getD []).mergeSort := by
  rw [packages] at h
  obtain ⟨data?, hdata, h⟩ := bind_eq_ok h
  refine ⟨data?, hdata, ?_⟩
  cases data? with
  | none =>
      cases h
      rw [Option.map_none, Option.getD_none, List.mergeSort_nil]
      rfl
  | some data =>
      refine names_of_mapM (fun name p hp => ?_) h
      obtain ⟨version, -, hp⟩ := bind_eq_ok hp
      cases hp
      rfl

/-- The packages of a manifest are in the order of their names. -/
theorem packages_sorted {disk : Disk} {root manifest : String} {found : List PackageCandidate}
    (h : packages disk root manifest = .ok found) : found.Pairwise fun a b => a.name ≤ b.name := by
  obtain ⟨data?, -, hnames⟩ := packages_names h
  have hsorted := (mergeSort_sorted ((data?.map declared).getD [])).sublist (dropRepeats_sublist _)
  rwa [← hnames, List.pairwise_map] at hsorted

end Manifest

/-- The packages among some candidates. -/
def packagesOf (items : List Candidate) : List PackageCandidate :=
  items.filterMap fun
    | .file _ => none
    | .package p => some p

theorem packagesOf_sortCandidates {document : String} {files : List FileCandidate}
    {packages : List PackageCandidate} (h : packages.Pairwise fun a b => a.name ≤ b.name) :
    packagesOf (sortCandidates document files packages) = packages := by
  have hsorted : packages.mergeSort (fun a b => a.name ≤ b.name) = packages :=
    List.mergeSort_of_pairwise (h.imp fun hle => decide_eq_true hle)
  rw [packagesOf, sortCandidates, hsorted, List.filterMap_append, List.filterMap_map, List.filterMap_map]
  exact (congrArg₂ (· ++ ·) (List.filterMap_eq_nil_iff.mpr fun _ _ => rfl) List.filterMap_some).trans
    (List.nil_append packages)

/-! ## What an index keeps -/

/-- A request that was answered, and the disk at that time. -/
structure Answer where
  language : Language
  disk : Disk
  document : Document

/-- The manifest from which packages were offered. -/
def Answer.manifest? (root : String) (a : Answer) : Option String :=
  Manifest.find? a.disk a.document.directory root

/-- The first of some answers in a language that is from a manifest. -/
def firstFrom (answers : List Answer) (language : Language) (root manifest : String) : Option Answer :=
  answers.find? fun a => a.language == language && a.manifest? root == some manifest

/-- The disk on which a manifest has been read for a language: that of the first answer from it, or that of now. -/
def readOn (answers : List Answer) (language : Language) (root manifest : String) (now : Disk) : Disk :=
  ((firstFrom answers language root manifest).map (·.disk)).getD now

theorem firstFrom_append {answers : List Answer} {a : Answer} {language : Language} {root manifest : String} :
    firstFrom (answers ++ [a]) language root manifest = (firstFrom answers language root manifest).or
      (if a.language = language ∧ a.manifest? root = some manifest then some a else none) := by
  rw [firstFrom, List.find?_append, firstFrom, List.find?_singleton]
  simp only [Bool.and_eq_true, beq_iff_eq]

theorem readOn_cases (answers : List Answer) (language : Language) (root manifest : String) (now : Disk) :
    readOn answers language root manifest now = now ∨
      ∃ a ∈ answers, readOn answers language root manifest now = a.disk := by
  rw [readOn]
  cases hfirst : firstFrom answers language root manifest with
  | none => exact .inl rfl
  | some a => exact .inr ⟨a, List.mem_of_find?_eq_some hfirst, rfl⟩

namespace WorkspaceIndex

variable {disk : Disk} {index index' : WorkspaceIndex} {root directory manifest : String}
  {found : List PackageCandidate} {answers : List Answer} {language : Language}

/-- The packages of a manifest that has been read. -/
def kept? (index : WorkspaceIndex) (manifest : String) : Option (List PackageCandidate) :=
  (index.packages.find? (·.1 == manifest)).map (·.2)

theorem packagesFor_none (h : Manifest.find? disk directory index.root = none) :
    index.packagesFor disk directory = .ok ([], index) := by
  unfold packagesFor
  rw [h]

theorem packagesFor_kept (h : Manifest.find? disk directory index.root = some manifest)
    (hkept : index.kept? manifest = some found) : index.packagesFor disk directory = .ok (found, index) := by
  obtain ⟨⟨other, kept⟩, hfind, rfl⟩ := Option.map_eq_some_iff.mp hkept
  unfold packagesFor
  rw [h]
  dsimp only
  rw [hfind]

theorem packagesFor_read (h : Manifest.find? disk directory index.root = some manifest)
    (hkept : index.kept? manifest = none) :
    index.packagesFor disk directory = (Manifest.packages disk index.root manifest).map fun found =>
      (found, { index with packages := (manifest, found) :: index.packages }) := by
  unfold packagesFor
  rw [h]
  dsimp only
  rw [Option.map_eq_none_iff.mp hkept]
  cases Manifest.packages disk index.root manifest <;> rfl

/-- Looking for packages leaves an index with what it had kept, and with what it has read now. -/
theorem kept?_packagesFor (h : index.packagesFor disk directory = .ok (found, index')) (manifest : String) :
    index'.root = index.root ∧ (index'.kept? manifest).map Except.ok =
      ((index.kept? manifest).map Except.ok).or (if Manifest.find? disk directory index.root = some manifest then
        some (Manifest.packages disk index.root manifest) else none) := by
  cases hfind : Manifest.find? disk directory index.root with
  | none =>
      rw [packagesFor_none hfind] at h
      cases h
      rw [if_neg nofun, Option.or_none]
      exact ⟨rfl, rfl⟩
  | some nearest =>
      cases hkept : index.kept? nearest with
      | some before =>
          rw [packagesFor_kept hfind hkept] at h
          cases h
          refine ⟨rfl, ?_⟩
          by_cases hsame : nearest = manifest
          · rw [← hsame, hkept, Option.map_some, Option.some_or]
          · rw [if_neg fun hother => hsame (Option.some.inj hother), Option.or_none]
      | none =>
          rw [packagesFor_read hfind hkept] at h
          cases hread : Manifest.packages disk index.root nearest with
          | error failure =>
              rw [hread] at h
              cases h
          | ok now =>
              rw [hread] at h
              cases h
              refine ⟨rfl, ?_⟩
              by_cases hsame : nearest = manifest
              · subst hsame
                rw [hkept, if_pos rfl, hread, kept?]
                simp
              · rw [if_neg fun hother => hsame (Option.some.inj hother), Option.or_none, kept?, List.find?_cons,
                  beq_false_of_ne hsame]
                rfl

/-- Of each manifest that a language has been answered from, an index keeps the packages as they were at the first
answer. -/
structure Keeps (root : String) (answers : List Answer) (language : Language) (index : WorkspaceIndex) : Prop where
  root_eq : index.root = root
  kept : ∀ manifest, (index.kept? manifest).map .ok =
    (firstFrom answers language root manifest).map fun a => Manifest.packages a.disk root manifest

theorem Keeps.of_packages (h : Keeps root answers language index) (hroot : index'.root = index.root)
    (hpackages : index'.packages = index.packages) : Keeps root answers language index' := by
  refine ⟨hroot.trans h.root_eq, fun manifest => ?_⟩
  rw [kept?, hpackages]
  exact h.kept manifest

/-- Answers in other languages make no difference. -/
theorem Keeps.other (h : Keeps root answers language index) {a : Answer} (hother : a.language ≠ language) :
    Keeps root (answers ++ [a]) language index := by
  refine ⟨h.root_eq, fun manifest => ?_⟩
  rw [firstFrom_append, if_neg fun hsame => hother hsame.1, Option.or_none]
  exact h.kept manifest

/-- The packages for a directory are those of its manifest, read on the disk of the first answer from it. -/
theorem Keeps.packagesFor_fst (h : Keeps root answers language index) (disk : Disk) (directory : String) :
    (index.packagesFor disk directory).map (·.1) =
      match Manifest.find? disk directory root with
      | none => .ok []
      | some manifest => Manifest.packages (readOn answers language root manifest disk) root manifest := by
  cases hfind : Manifest.find? disk directory root with
  | none =>
      rw [packagesFor_none (h.root_eq.symm ▸ hfind)]
      rfl
  | some manifest =>
      have hkept := h.kept manifest
      dsimp only
      cases hfirst : firstFrom answers language root manifest with
      | none =>
          rw [hfirst, Option.map_none, Option.map_eq_none_iff] at hkept
          rw [packagesFor_read (h.root_eq.symm ▸ hfind) hkept, h.root_eq, readOn, hfirst, Option.map_none,
            Option.getD_none]
          cases Manifest.packages disk root manifest <;> rfl
      | some a =>
          rw [hfirst, Option.map_some, Option.map_eq_some_iff] at hkept
          obtain ⟨found, hfound, hread⟩ := hkept
          rw [packagesFor_kept (h.root_eq.symm ▸ hfind) hfound, readOn, hfirst]
          exact hread

/-- An answer is kept if none from the same manifest has been before. -/
theorem Keeps.answered {d : Document} (h : Keeps root answers language index)
    (hpackages : index.packagesFor disk d.directory = .ok (found, index')) :
    Keeps root (answers ++ [⟨language, disk, d⟩]) language index' := by
  refine ⟨(kept?_packagesFor hpackages "").1.trans h.root_eq, fun manifest => ?_⟩
  rw [(kept?_packagesFor hpackages manifest).2, h.kept manifest, firstFrom_append, Answer.manifest?, h.root_eq]
  cases firstFrom answers language root manifest with
  | some a => rfl
  | none =>
      rw [Option.map_none, Option.none_or, Option.none_or]
      by_cases hfind : Manifest.find? disk d.directory root = some manifest
      · rw [if_pos hfind, if_pos ⟨rfl, hfind⟩]
        rfl
      · rw [if_neg hfind, if_neg fun hsame => hfind hsame.2]
        rfl

/-- An index finds packages where one that has not kept any does. -/
theorem Keeps.exists_packagesFor {new new' : WorkspaceIndex} {language' : Language}
    (h : Keeps root answers language index) (hnew : Keeps root [] language' new)
    (hpackages : new.packagesFor disk directory = .ok (found, new')) :
    ∃ found index', index.packagesFor disk directory = .ok (found, index') := by
  cases hfind : Manifest.find? disk directory root with
  | none => exact ⟨_, _, packagesFor_none (h.root_eq.symm ▸ hfind)⟩
  | some manifest =>
      cases hkept : index.kept? manifest with
      | some before => exact ⟨_, _, packagesFor_kept (h.root_eq.symm ▸ hfind) hkept⟩
      | none =>
          have hnone : new.kept? manifest = none := Option.map_eq_none_iff.mp (hnew.kept manifest)
          rw [packagesFor_read (hnew.root_eq.symm ▸ hfind) hnone, hnew.root_eq] at hpackages
          rw [packagesFor_read (h.root_eq.symm ▸ hfind) hkept, h.root_eq]
          cases hread : Manifest.packages disk root manifest with
          | error failure =>
              rw [hread] at hpackages
              cases hpackages
          | ok now => exact ⟨_, _, rfl⟩

end WorkspaceIndex

end ImportAssist
