import ImportAssist.Proofs.KeptPackages
import Mathlib.Data.List.Nodup
import Mathlib.Data.List.Sort
import Mathlib.Data.Prod.Lex
import Mathlib.Data.String.Basic

/-!
# Candidates in order

Files are sorted by four keys, of which each counts where those in front of it are the same: how many directories a
file shares with the document, how many levels it lies below these, its directory, and its name. The comparison is a
lexicographic one (`Proximity.le_iff`), and the sort is stable: files of the same keys stay in the order of the index.
Together these say which of two files comes first (`sortFiles_ordered`). An index file has the least name of all, and so
it comes before the others of its directory (`indexFirst_of_ordered`).

Packages are listed once for each name, which makes their order by name a strict one (`Manifest.packages_strict`).
-/

namespace ImportAssist

/-! ## Stable sorts -/

section Pairs

variable {α : Type} {a b : α}

/-- Of two members of a list one comes before the other. -/
theorem pair_sublist_total : ∀ {list : List α}, a ∈ list → b ∈ list → a ≠ b →
    [a, b].Sublist list ∨ [b, a].Sublist list
  | c :: rest, ha, hb, hne => by
      obtain rfl | ha' := List.mem_cons.mp ha
      · obtain rfl | hb' := List.mem_cons.mp hb
        · exact absurd rfl hne
        · exact .inl (.cons_cons a (List.singleton_sublist.mpr hb'))
      · obtain rfl | hb' := List.mem_cons.mp hb
        · exact .inr (.cons_cons b (List.singleton_sublist.mpr ha'))
        · exact (pair_sublist_total ha' hb' hne).imp (.cons c) (.cons c)

/-- If the list has each member once, only one way round. -/
theorem pair_sublist_antisymm : ∀ {list : List α}, list.Nodup → [a, b].Sublist list → ¬[b, a].Sublist list
  | c :: rest, hnodup, hab, hba => by
      rw [List.nodup_cons] at hnodup
      cases hab with
      | cons _ hab =>
          cases hba with
          | cons _ hba => exact pair_sublist_antisymm hnodup.2 hab hba
          | cons_cons _ _ => exact hnodup.1 (hab.subset (by simp))
      | cons_cons _ hb =>
          cases hba with
          | cons _ hba => exact hnodup.1 (hba.subset (by simp))
          | cons_cons _ _ => exact hnodup.1 (hb.subset (by simp))

/-- Of a sorted list no member is less than one in front of it, and those that compare the same are in their old
order. -/
theorem mergeSort_stable {le : α → α → Bool} {list : List α}
    (htrans : ∀ a b c : α, le a b = true → le b c = true → le a c = true)
    (htotal : ∀ a b : α, (le a b || le b a) = true) (hnodup : list.Nodup) :
    (list.mergeSort le).Pairwise fun a b => le a b = true ∧ (le b a = true → [a, b].Sublist list) := by
  have hsorted := List.pairwise_mergeSort htrans htotal list
  have hnodup' : (list.mergeSort le).Nodup := List.nodup_mergeSort.mpr hnodup
  refine List.pairwise_iff_forall_sublist.mpr fun {a b} hpair =>
    ⟨List.pairwise_iff_forall_sublist.mp hsorted hpair, fun hle => ?_⟩
  have hmem : ∀ c ∈ [a, b], c ∈ list := fun c hc => List.mem_mergeSort.mp (hpair.subset hc)
  have hne : a ≠ b := by
    rintro rfl
    exact List.nodup_iff_sublist.mp hnodup' a hpair
  obtain hkept | hswapped := pair_sublist_total (hmem a (by simp)) (hmem b (by simp)) hne
  · exact hkept
  · -- Then the sort would have kept them the other way round.
    exact absurd (List.pair_sublist_mergeSort htrans htotal hle hswapped)
      (pair_sublist_antisymm hnodup' hpair)

end Pairs

/-! ## Nearness -/

/-- The keys of a file for a document: how many directories they share, how many levels the file lies below these, its
directory in lower case, and its name. -/
def nearness (document : String) (c : FileCandidate) : Nat × Nat × String × String :=
  let place := Proximity.of c.path document
  (place.shared, place.below, place.directory, c.sortName)

/-- More shared directories come first, then fewer levels, then the directory, then the name. -/
def Nearer : Nat × Nat × String × String → Nat × Nat × String × String → Prop :=
  Prod.Lex (· > ·) (Prod.Lex (· < ·) (Prod.Lex (· < ·) (· < ·)))

/-- A file comes before another one for a document if it is nearer, or else by the order of the index. -/
def ComesBefore (document : String) (indexed : List FileCandidate) (a b : FileCandidate) : Prop :=
  Nearer (nearness document a) (nearness document b) ∨
    nearness document a = nearness document b ∧ [a, b].Sublist indexed

namespace Proximity

/-- Nearer, or the same. -/
abbrev LexLe : Nat × Nat × String × String → Nat × Nat × String × String → Prop :=
  Prod.Lex (· > ·) (Prod.Lex (· < ·) (Prod.Lex (· < ·) (· ≤ ·)))

theorem lexLe_iff {k l : Nat × Nat × String × String} : LexLe k l ↔ Nearer k l ∨ k = l := by
  obtain ⟨a, b, c, d⟩ := k
  obtain ⟨a', b', c', d'⟩ := l
  simp only [LexLe, Nearer, Prod.lex_def, le_iff_lt_or_eq, Prod.mk.injEq]
  tauto

end Proximity

/-- Whether a file need not come behind another one. -/
def byNearness (document : String) (a b : FileCandidate) : Bool :=
  Proximity.le (.of a.path document, a.sortName) (.of b.path document, b.sortName)

section

variable {document : String} {a b c : FileCandidate}

theorem byNearness_iff : byNearness document a b = true ↔
    Proximity.LexLe (nearness document a) (nearness document b) := by
  simp only [byNearness, Proximity.le, nearness, Proximity.LexLe, Prod.lex_def]
  split
  case isTrue hshared => simp [hshared]
  case isFalse hshared =>
    rw [ne_eq, not_not] at hshared
    split
    case isTrue hbelow => simp [hshared, hbelow]
    case isFalse hbelow =>
      rw [ne_eq, not_not] at hbelow
      split
      case isTrue hdirectory => simp [hshared, hbelow, hdirectory]
      case isFalse hdirectory =>
        rw [ne_eq, not_not] at hdirectory
        simp [hshared, hbelow, hdirectory]

theorem byNearness_trans (hab : byNearness document a b = true) (hbc : byNearness document b c = true) :
    byNearness document a c = true := by
  rw [byNearness_iff] at hab hbc ⊢
  exact trans_of _ hab hbc

theorem byNearness_total : (byNearness document a b || byNearness document b a) = true := by
  rw [Bool.or_eq_true, byNearness_iff, byNearness_iff]
  exact total_of _ _ _

end

/-- The files in order. -/
def sortFiles (document : String) (files : List FileCandidate) : List FileCandidate :=
  files.mergeSort (byNearness document)

theorem sortFiles_perm (document : String) (files : List FileCandidate) : (sortFiles document files).Perm files :=
  List.mergeSort_perm _ _

/-- Files in front of packages. -/
def together (files : List FileCandidate) (packages : List PackageCandidate) : List Candidate :=
  files.map .file ++ packages.map .package

theorem sortCandidates_eq {document : String} {files : List FileCandidate} {packages : List PackageCandidate}
    (h : packages.Pairwise fun a b => a.name ≤ b.name) :
    sortCandidates document files packages = together (sortFiles document files) packages := by
  have hpackages : packages.mergeSort (fun a b => a.name ≤ b.name) = packages :=
    List.mergeSort_of_pairwise (h.imp fun hle => decide_eq_true hle)
  have hfiles : (files.map fun c => ((Proximity.of c.path document, c.sortName), c)).mergeSort
      (fun a b => Proximity.le a.1 b.1) =
        (sortFiles document files).map fun c => ((Proximity.of c.path document, c.sortName), c) :=
    (List.map_mergeSort (f := fun c : FileCandidate => ((Proximity.of c.path document, c.sortName), c))
      (s := fun a b => Proximity.le a.1 b.1) fun _ _ _ _ => rfl).symm
  rw [sortCandidates, hpackages, hfiles, List.map_map]
  rfl

/-- Each sorted file is nearer than those behind it, or as near and in front of them in the index. -/
theorem sortFiles_ordered {document : String} {files : List FileCandidate} (hnodup : files.Nodup) :
    (sortFiles document files).Pairwise (ComesBefore document files) := by
  have hstable := mergeSort_stable (fun a b c => @byNearness_trans document a b c)
    (fun _ _ => byNearness_total) hnodup
  refine hstable.imp fun {a b} hab => ?_
  rw [byNearness_iff, byNearness_iff] at hab
  obtain hnearer | hsame := Proximity.lexLe_iff.mp hab.1
  · exact .inl hnearer
  · exact .inr ⟨hsame, hab.2 (Proximity.lexLe_iff.mpr (.inr hsame.symm))⟩

theorem ComesBefore.of_sublist {document : String} {files indexed : List FileCandidate} {a b : FileCandidate}
    (h : ComesBefore document files a b) (hfiles : files.Sublist indexed) : ComesBefore document indexed a b :=
  h.imp_right fun hsame => ⟨hsame.1, hsame.2.trans hfiles⟩

/-! ## Index files -/

theorem eq_empty_of_toLower {text : String} (h : toLower text = "") : text = "" := by
  have hlower : lowerFrom [] text.toList = [] := by
    rw [toLower] at h
    simpa using congrArg String.toList h
  cases hchars : text.toList with
  | nil => exact String.toList_inj.mp hchars
  | cons c rest =>
      rw [hchars, lowerFrom, List.append_eq_nil_iff] at hlower
      have hsmall := hlower.1
      split at hsmall
      · split at hsmall <;> cases hsmall
      · split at hsmall <;> cases hsmall

/-- An index file comes before the other files of its directory. A path without a file name is none of them. -/
theorem indexFirst_of_ordered {document : String} {files indexed : List FileCandidate} {a b : FileCandidate}
    (hordered : files.Pairwise (ComesBefore document indexed)) (ha : a ∈ files) (hb : b ∈ files)
    (hindex : a.isIndex = true) (hother : b.isIndex = false)
    (hdirectory : Path.directory a.path = Path.directory b.path) (hname : Path.fileName b.path ≠ "") :
    [a, b].Sublist files := by
  have hne : a ≠ b := by
    rintro rfl
    exact absurd (hindex.symm.trans hother) (by decide)
  refine (pair_sublist_total ha hb hne).resolve_right fun hswapped => ?_
  have hbefore := List.pairwise_iff_forall_sublist.mp hordered hswapped
  have hleast : a.sortName = "" := by rw [FileCandidate.sortName, if_pos hindex]
  have hplace : Proximity.of a.path document = Proximity.of b.path document := by
    rw [Proximity.of, Proximity.directoryParts, Proximity.directoryParts, hdirectory]
    rfl
  -- All keys in front of the name are the same, so that the name of the other file is no greater than none.
  have hempty : b.sortName = "" := by
    obtain hnearer | ⟨hsame, -⟩ := hbefore
    · rw [Nearer, nearness, nearness, hplace, hleast] at hnearer
      simp only [Prod.lex_def, gt_iff_lt, lt_irrefl, false_or, true_and] at hnearer
      exact absurd (String.lt_iff.mp hnearer) (List.not_lt_nil _)
    · rw [nearness, nearness, hleast] at hsame
      exact (Prod.mk.inj (Prod.mk.inj (Prod.mk.inj hsame).2).2).2
  rw [FileCandidate.sortName, if_neg (by simp [hother])] at hempty
  exact hname (eq_empty_of_toLower hempty)

/-! ## Packages once each -/

namespace Manifest

theorem mem_dropRepeats {name : String} : ∀ {names : List String}, name ∈ dropRepeats names ↔ name ∈ names
  | [] => .rfl
  | [a] => .rfl
  | a :: b :: rest => by
      have ih : name ∈ dropRepeats (b :: rest) ↔ name ∈ b :: rest := mem_dropRepeats
      rw [dropRepeats]
      split
      case isTrue hsame =>
        rw [ih, hsame]
        simp
      case isFalse => rw [List.mem_cons, ih, ← List.mem_cons]

theorem dropRepeats_strict : ∀ {names : List String}, names.Pairwise (· ≤ ·) →
    (dropRepeats names).Pairwise (· < ·)
  | [], _ => .nil
  | [a], _ => List.pairwise_singleton _ a
  | a :: b :: rest, h => by
      obtain ⟨hle, hrest⟩ := List.pairwise_cons.mp h
      have ih := dropRepeats_strict hrest
      rw [dropRepeats]
      split
      case isTrue => exact ih
      case isFalse hne =>
        refine List.pairwise_cons.mpr ⟨fun c hc => ?_, ih⟩
        have hc := mem_dropRepeats.mp hc
        have hab : a < b := lt_of_le_of_ne (hle b List.mem_cons_self) hne
        obtain rfl | hc := List.mem_cons.mp hc
        · exact hab
        · exact lt_of_lt_of_le hab ((List.pairwise_cons.mp hrest).1 c hc)

/-- A manifest declares a package. -/
def Declares (disk : Disk) (manifest name : String) : Prop :=
  ∃ data, readObject? disk manifest = .ok (some data) ∧ name ∈ declared data

/-- The packages of a manifest are strictly in the order of their names. -/
theorem packages_strict {disk : Disk} {root manifest : String} {found : List PackageCandidate}
    (h : packages disk root manifest = .ok found) : found.Pairwise fun a b => a.name < b.name := by
  obtain ⟨data?, -, hnames⟩ := packages_names h
  have hstrict := dropRepeats_strict (mergeSort_sorted ((data?.map declared).getD []))
  rwa [← hnames, List.pairwise_map] at hstrict

theorem packages_declared {disk : Disk} {root manifest : String} {found : List PackageCandidate}
    (h : packages disk root manifest = .ok found) (name : String) :
    (∃ p ∈ found, p.name = name) ↔ Declares disk manifest name := by
  obtain ⟨data?, hdata, hnames⟩ := packages_names h
  rw [← List.mem_map, hnames, mem_dropRepeats, List.mem_mergeSort]
  constructor
  · intro hname
    cases data? with
    | none => exact absurd hname List.not_mem_nil
    | some data => exact ⟨data, hdata, hname⟩
  · rintro ⟨data, hread, hname⟩
    rw [hdata] at hread
    cases hread
    exact hname

end Manifest

end ImportAssist
