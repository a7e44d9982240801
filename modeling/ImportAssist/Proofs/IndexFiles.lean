import ImportAssist.Proofs.RootedPaths
import ImportAssist.Workspace.Index

/-!
# Where the files of an index are

An index comes about by listing a workspace and following events. Whatever has become of it, each of its
files lies below the root of the workspace, under a normal path that is spelled as the root is
(`Grown.files_below`).
-/

namespace ImportAssist

open ImportAssist.Path

/-- A normal path of what lies below a root, spelled as the root is. -/
structure LiesBelow (root path : String) : Prop where
  normal : normalize path = path
  starts : root.toList <+: path.toList
  below : path ≠ root

/-- A disk on which everything has a name that a path can mean. -/
def Disk.Named (disk : Disk) : Prop := ∀ entry ∈ disk.entries, ∀ s ∈ entry.1, IsSegment s

/-! ## Listing -/

namespace Path

theorem toList_intercalate (segments : List String) : ("/".intercalate segments).toList = slashed segments := by
  simp [slashed]

theorem slashed_append : ∀ {segments way : List String}, segments ≠ [] → way ≠ [] →
    slashed (segments ++ way) = slashed segments ++ '/' :: slashed way
  | [s], t :: way, _, _ => by
      rw [List.singleton_append, slashed_cons_cons]
      simp [slashed]
  | s :: t :: segments, way, _, hway => by
      have ih : slashed (t :: segments ++ way) = slashed (t :: segments) ++ '/' :: slashed way :=
        slashed_append (List.cons_ne_nil _ _) hway
      rw [List.cons_append, List.cons_append, slashed_cons_cons, slashed_cons_cons, ← List.cons_append, ih,
        List.append_assoc, List.cons_append]

theorem isAbsolute_intercalate {way : List String} (h : ∀ s ∈ way, IsSegment s) :
    isAbsolute ("/".intercalate way) = false := by
  rw [Bool.eq_false_iff]
  intro habsolute
  obtain ⟨rest, hrest⟩ := isAbsolute_iff.1 habsolute
  rw [toList_intercalate] at hrest
  exact head?_slashed h (by rw [hrest]; rfl)

section Below

variable {k : Nat} {segments way : List String}

/-- A way from a root leads through the segments of the root and its own. -/
theorem join_way (hk : k = 1 ∨ k = 2) (hsegments : ∀ s ∈ segments, IsSegment s) (hway : ∀ s ∈ way, IsSegment s)
    (hne : way ≠ []) : join (rooted k segments) ("/".intercalate way) = rooted k (segments ++ way) := by
  have hk0 : k ≠ 0 := by omega
  rw [join, if_neg (by simp [isAbsolute_intercalate hway])]
  apply String.toList_inj.1
  by_cases hnil : segments = []
  · have hend := (getLast?_rooted hk0 hsegments).mpr hnil
    rw [if_pos (by simp [hend]), hnil, List.nil_append, String.toList_append, toList_rooted, toList_rooted,
      toList_intercalate]
    simp [slashed]
  · have hend := mt (getLast?_rooted hk0 hsegments).mp hnil
    rw [if_neg (by simp [hend, rooted_ne_empty hk0]), String.toList_append, String.toList_append, toList_rooted,
      toList_rooted, toList_intercalate, slashed_append hnil hne, List.append_assoc, List.append_assoc]
    rfl

theorem rooted_prefix : (rooted k segments).toList <+: (rooted k (segments ++ way)).toList := by
  rw [toList_rooted, toList_rooted, List.prefix_append_right_inj]
  by_cases hnil : segments = []
  · rw [hnil]
    exact List.nil_prefix
  · by_cases hne : way = []
    · simp [hne]
    · rw [slashed_append hnil hne]
      exact List.prefix_append _ _

/-- A way down from a root leads below it. -/
theorem join_liesBelow (hk : k = 1 ∨ k = 2) (hsegments : ∀ s ∈ segments, IsSegment s)
    (hway : ∀ s ∈ way, IsSegment s) (hne : way ≠ []) :
    LiesBelow (rooted k segments) (join (rooted k segments) ("/".intercalate way)) := by
  have hall : ∀ s ∈ segments ++ way, IsSegment s := fun s hs =>
    (List.mem_append.mp hs).elim (hsegments s) (hway s)
  rw [join_way hk hsegments hway hne]
  refine ⟨Rooted.normalize_eq hk ⟨_, hall, rfl⟩, rooted_prefix, fun hsame => hne ?_⟩
  have hread := congrArg Parts.read hsame
  rw [Parts.read_rooted hk hall, Parts.read_rooted hk hsegments] at hread
  exact List.append_right_eq_self.mp (Parts.mk.inj hread).2

end Below

theorem absolute_rooted {cwd : String} (hcwd : isAbsolute cwd = true) (path : String) :
    ∃ k, (k = 1 ∨ k = 2) ∧ Rooted k (absolute cwd path) := by
  have habsolute : isAbsolute (if isAbsolute path then path else join cwd path) = true := by
    by_cases hpath : isAbsolute path = true
    · rwa [if_pos hpath]
    · obtain ⟨rest, hrest⟩ := isAbsolute_iff.1 hcwd
      rw [if_neg hpath, join, if_neg hpath]
      split
      · exact isAbsolute_iff.2 ⟨rest ++ path.toList, by rw [String.toList_append, hrest]; rfl⟩
      · exact isAbsolute_iff.2 ⟨rest ++ '/' :: path.toList, by simp [hrest]⟩
  exact ⟨_, leadingSlashes_of_isAbsolute habsolute, normalize_rooted habsolute⟩

theorem absolute_eq {cwd path : String} {k : Nat} (hk : k = 1 ∨ k = 2) (h : Rooted k path) :
    absolute cwd path = path := by
  rw [absolute, if_pos (h.leads.isAbsolute hk), h.normalize_eq hk]

end Path

namespace Disk

variable {disk : Disk} {place : List String} {name : String}

/-- What stands in a directory, by name. -/
def inside (disk : Disk) (place : List String) : List (String × Entry) :=
  disk.entries.filterMap fun (found, entry) =>
    match found.getLast? with
    | some name => if found.dropLast == place then some (name, entry) else none
    | none => none

theorem mem_inside {entry : Entry} : (name, entry) ∈ disk.inside place ↔ (place ++ [name], entry) ∈ disk.entries := by
  rw [inside, List.mem_filterMap]
  constructor
  · rintro ⟨⟨found, other⟩, hfound, hname⟩
    dsimp only at hname
    split at hname
    · rename_i last hlast
      obtain ⟨front, rfl⟩ := List.getLast?_eq_some_iff.mp hlast
      rw [List.dropLast_concat] at hname
      split at hname <;> cases hname
      rename_i hplace
      exact beq_iff_eq.mp hplace ▸ hfound
    · cases hname
  · intro h
    refine ⟨_, h, ?_⟩
    dsimp only
    rw [List.getLast?_concat, List.dropLast_concat]
    exact if_pos (beq_self_eq_true place)

theorem mem_list_directories :
    name ∈ (disk.list place).1 ↔ (place ++ [name], Entry.directory) ∈ disk.entries := by
  have hlist : (disk.list place).1 = (((disk.inside place).partition (·.2 == .directory)).1.map (·.1)).mergeSort := rfl
  rw [hlist, List.mem_mergeSort, List.partition_eq_filter_filter, List.mem_map]
  constructor
  · rintro ⟨⟨found, entry⟩, hfound, rfl⟩
    obtain ⟨hinside, hentry⟩ := List.mem_filter.mp hfound
    exact mem_inside.mp (beq_iff_eq.mp hentry ▸ hinside)
  · intro h
    exact ⟨(name, .directory), List.mem_filter.mpr ⟨mem_inside.mpr h, rfl⟩, rfl⟩

theorem mem_list_files :
    name ∈ (disk.list place).2 ↔ ∃ content, (place ++ [name], Entry.file content) ∈ disk.entries := by
  have hlist : (disk.list place).2 = (((disk.inside place).partition (·.2 == .directory)).2.map (·.1)).mergeSort := rfl
  rw [hlist, List.mem_mergeSort, List.partition_eq_filter_filter, List.mem_map]
  constructor
  · rintro ⟨⟨found, entry⟩, hfound, rfl⟩
    obtain ⟨hinside, hentry⟩ := List.mem_filter.mp hfound
    cases entry with
    | file content => exact ⟨content, mem_inside.mp hinside⟩
    | directory => cases hentry
  · rintro ⟨content, h⟩
    exact ⟨(name, .file content), List.mem_filter.mpr ⟨mem_inside.mpr h, rfl⟩, rfl⟩

theorem mem_list (hnamed : disk.Named) (h : name ∈ (disk.list place).1 ∨ name ∈ (disk.list place).2) :
    IsSegment name := by
  have hentry : ∃ entry, (place ++ [name], entry) ∈ disk.entries := by
    rcases h with h | h
    · exact ⟨_, mem_list_directories.mp h⟩
    · obtain ⟨content, h⟩ := mem_list_files.mp h
      exact ⟨_, h⟩
  obtain ⟨entry, hentry⟩ := hentry
  exact hnamed _ hentry name (by simp)

end Disk

theorem mem_listFrom {disk : Disk} {ignored : String → Bool} {place : List String} (hnamed : disk.Named) :
    ∀ (fuel : Nat) {way : List String}, (∀ s ∈ way, IsSegment s) →
      ∀ path ∈ listFrom disk ignored place fuel way,
        ∃ segments, segments ≠ [] ∧ (∀ s ∈ segments, IsSegment s) ∧ path = "/".intercalate segments
  | 0, _, _, _, h => absurd h List.not_mem_nil
  | fuel + 1, way, hway, path, h => by
      have hstep : ∀ {name}, IsSegment name → ∀ s ∈ way ++ [name], IsSegment s := fun hname s hs =>
        (List.mem_append.mp hs).elim (hway s) fun hs => List.mem_singleton.mp hs ▸ hname
      unfold listFrom at h
      rcases List.mem_append.mp h with h | h
      · obtain ⟨name, hname, rfl⟩ := List.mem_map.mp (List.mem_filter.mp h).1
        exact ⟨way ++ [name], by simp, hstep (Disk.mem_list hnamed (.inr hname)), rfl⟩
      · obtain ⟨name, hname, h⟩ := List.mem_flatMap.mp h
        exact mem_listFrom hnamed fuel (hstep (Disk.mem_list hnamed (.inl (List.mem_filter.mp hname).1))) path h

theorem listFiles_below {disk : Disk} {root : String} {paths : List String} {k : Nat} (hnamed : disk.Named)
    (hk : k = 1 ∨ k = 2) (hroot : Rooted k root) (h : listFiles disk root true = .ok paths) :
    ∀ path ∈ paths, LiesBelow root path := by
  intro path hpath
  rw [listFiles, if_pos rfl] at h
  obtain ⟨rules, -, h⟩ := bind_eq_ok h
  split at h
  · cases h
    exact absurd hpath List.not_mem_nil
  · split at h <;> cases h
    · obtain ⟨found, hfound, rfl⟩ := List.mem_map.mp hpath
      obtain ⟨way, hne, hway, rfl⟩ := mem_listFrom hnamed _ (fun s hs => absurd hs List.not_mem_nil) _ hfound
      obtain ⟨segments, hsegments, rfl⟩ := hroot
      rw [absolute_eq hk ⟨segments, hsegments, rfl⟩]
      exact join_liesBelow hk hsegments hway hne
    · exact absurd hpath List.not_mem_nil

/-! ## Growing -/

namespace WorkspaceIndex

/-- What becomes of the index of a workspace. It is listed when it is first asked for, and told of files
that lie below the root. -/
inductive Grown (cwd root : String) : WorkspaceIndex → Prop where
  | create (options family) : Grown cwd root (.create cwd root options family)
  | build {disk index files index'} : disk.Named → Grown cwd root index →
      index.build disk = .ok (files, index') → Grown cwd root index'
  | add {disk path index index'} : LiesBelow (absolute cwd root) (absolute disk.cwd path) →
      Grown cwd root index → index.add disk path = .ok index' → Grown cwd root index'
  | remove {index} (cwd' path) : Grown cwd root index → Grown cwd root (index.remove cwd' path)
  | invalidate {index} : Grown cwd root index → Grown cwd root index.invalidate
  | packagesFor {disk directory index found index'} : Grown cwd root index →
      index.packagesFor disk directory = .ok (found, index') → Grown cwd root index'

/-- Of all files that an index has, each lies below its root, which is that of the workspace. -/
structure Rests (root : String) (index : WorkspaceIndex) : Prop where
  root_eq : index.root = root
  below : ∀ files, index.files? = some files → ∀ c ∈ files, LiesBelow root c.path

theorem candidate_path (index : WorkspaceIndex) (cwd path : String) :
    (index.candidate cwd path).path = normalize path := by
  simp only [candidate, FileCandidate.create]

theorem Rests.build {disk : Disk} {root : String} {k : Nat} {index index' : WorkspaceIndex}
    {files : List FileCandidate} (hnamed : disk.Named) (hk : k = 1 ∨ k = 2) (hroot : Rooted k root)
    (h : Rests root index) (hbuild : index.build disk = .ok (files, index')) :
    Rests root index' ∧ ∀ c ∈ files, LiesBelow root c.path := by
  unfold WorkspaceIndex.build at hbuild
  split at hbuild
  · rename_i present hfiles
    cases hbuild
    exact ⟨h, h.below _ hfiles⟩
  · obtain ⟨paths, hpaths, hbuild⟩ := bind_eq_ok hbuild
    cases hbuild
    have hall : ∀ c ∈ paths.map (index.candidate disk.cwd), LiesBelow root c.path := by
      intro c hc
      obtain ⟨path, hpath, rfl⟩ := List.mem_map.mp hc
      have hbelow := listFiles_below hnamed hk hroot (h.root_eq ▸ hpaths) path hpath
      rwa [candidate_path, hbelow.normal]
    refine ⟨⟨h.root_eq, ?_⟩, hall⟩
    rintro files hfiles
    cases hfiles
    exact hall

theorem Rests.add {disk : Disk} {root path : String} {index index' : WorkspaceIndex}
    (hpath : LiesBelow root (absolute disk.cwd path)) (h : Rests root index)
    (hadd : index.add disk path = .ok index') : Rests root index' := by
  unfold WorkspaceIndex.add at hadd
  split at hadd
  · cases hadd
    exact h
  · rename_i files hfiles
    dsimp only at hadd
    split at hadd
    · cases hadd
      exact h
    · obtain ⟨rules, -, hadd⟩ := bind_eq_ok hadd
      split at hadd
      · cases hadd
        exact h
      · split at hadd <;> cases hadd
        · exact h
        · refine ⟨h.root_eq, ?_⟩
          rintro files' hfiles' c hc
          cases hfiles'
          rcases List.mem_append.mp hc with hc | hc
          · exact h.below _ hfiles c hc
          · rw [List.mem_singleton.mp hc]
            rwa [candidate_path, hpath.normal]

theorem Rests.remove {root cwd path : String} {index : WorkspaceIndex} (h : Rests root index) :
    Rests root (index.remove cwd path) := by
  refine ⟨h.root_eq, fun files hfiles c hc => ?_⟩
  obtain ⟨present, hpresent, rfl⟩ := Option.map_eq_some_iff.mp hfiles
  exact h.below present hpresent c (List.mem_filter.mp hc).1

theorem Rests.packagesFor {disk : Disk} {root directory : String} {index index' : WorkspaceIndex}
    {found : List PackageCandidate} (h : Rests root index)
    (hpackages : index.packagesFor disk directory = .ok (found, index')) : Rests root index' := by
  unfold WorkspaceIndex.packagesFor at hpackages
  split at hpackages
  · cases hpackages
    exact h
  · split at hpackages
    · cases hpackages
      exact h
    · obtain ⟨packages, -, hpackages⟩ := bind_eq_ok hpackages
      cases hpackages
      exact ⟨h.root_eq, h.below⟩

theorem Grown.rests {cwd root : String} {index : WorkspaceIndex} (hcwd : isAbsolute cwd = true)
    (h : Grown cwd root index) : Rests (absolute cwd root) index := by
  obtain ⟨k, hk, hroot⟩ := absolute_rooted hcwd root
  induction h with
  | create options family =>
      refine ⟨?_, fun files hfiles => absurd hfiles.symm (Option.some_ne_none files)⟩
      rw [WorkspaceIndex.create]
  | build hnamed _ hbuild ih => exact (ih.build hnamed hk hroot hbuild).1
  | add hpath _ hadd ih => exact ih.add hpath hadd
  | remove cwd' path _ ih => exact ih.remove
  | invalidate _ ih =>
      exact ⟨ih.root_eq, fun files hfiles => absurd hfiles.symm (Option.some_ne_none files)⟩
  | packagesFor _ hpackages ih => exact ih.packagesFor hpackages

/-- What an index gives as its files lies below the root, whatever it has been told of before. -/
theorem Grown.files_below {disk : Disk} {cwd root : String} {index listed : WorkspaceIndex}
    {files : List FileCandidate} (hcwd : isAbsolute cwd = true) (hnamed : disk.Named)
    (h : Grown cwd root index) (hbuild : index.build disk = .ok (files, listed)) :
    ∀ c ∈ files, LiesBelow (absolute cwd root) c.path := by
  obtain ⟨k, hk, hroot⟩ := absolute_rooted hcwd root
  exact ((h.rests hcwd).build hnamed hk hroot hbuild).2

end WorkspaceIndex

end ImportAssist
