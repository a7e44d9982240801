import ImportAssist.Proofs.Attendance
import ImportAssist.Proofs.IgnoredDirectories
import ImportAssist.Proofs.KeptPackages

/-!
# The files of an index as an ordered set

An index lists its workspace, is told of files that come and go, and forgets everything again, in any order and
on a disk that changes in between. `index_ordered_set` says that it keeps its files as an ordered set of paths: each once,
normal, and below the root; a file that goes is taken out of its place, one that comes is put behind the others, and
the two undo each other.

`Orderly` is the invariant. A listing has each path once because the names of a directory differ and each file
has one way to it from the root (`nodup_listFrom`); what becomes of an index that is told of a file is in `added_cases`.
One lemma for each kind of call gives `Orderly.call`, and `Reached.orderly` is the induction over a run.
-/

namespace ImportAssist

open ImportAssist.Path

/-! ## Listings without repeats -/

theorem intercalate_inj {segments segments' : List String} (h : ∀ s ∈ segments, IsSegment s)
    (h' : ∀ s ∈ segments', IsSegment s) (hsame : "/".intercalate segments = "/".intercalate segments') :
    segments = segments' := by
  have hslashed : slashed segments = slashed segments' := by
    rw [← toList_intercalate, ← toList_intercalate, hsame]
  rw [← segmentsOf_slashed fun s hs => (h s hs).isStep, ← segmentsOf_slashed fun s hs => (h' s hs).isStep, hslashed]

namespace Disk

variable {disk : Disk} {place : List String}

/-- The entries of a directory are entries of the disk, in their order there. -/
theorem inside_sublist (disk : Disk) (place : List String) :
    ((disk.inside place).map fun named => place ++ [named.1]).Sublist (disk.entries.map (·.1)) := by
  rw [inside, List.map_filterMap]
  induction disk.entries with
  | nil => exact .slnil
  | cons e entries ih =>
      rw [List.filterMap_cons, List.map_cons]
      split
      case h_1 => exact ih.cons _
      case h_2 named hnamed =>
        have hplace : e.1 = named := by
          obtain ⟨found, hfound, rfl⟩ := Option.map_eq_some_iff.mp hnamed
          dsimp only at hfound
          split at hfound
          case h_1 last hlast =>
            obtain ⟨front, hfront⟩ := List.getLast?_eq_some_iff.mp hlast
            rw [hfront, List.dropLast_concat] at hfound
            split at hfound
            case isTrue hsame =>
              cases hfound
              rw [hfront, beq_iff_eq.mp hsame]
            case isFalse => cases hfound
          case h_2 => cases hfound
        rw [hplace]
        exact ih.cons_cons _

theorem nodup_inside (h : disk.Sound) (place : List String) : ((disk.inside place).map (·.1)).Nodup := by
  have hplaces := h.distinct.sublist (inside_sublist disk place)
  refine List.Nodup.of_map (place ++ [·]) ?_
  rwa [List.map_map]

theorem nodup_list (h : disk.Sound) (place : List String) :
    (disk.list place).1.Nodup ∧ (disk.list place).2.Nodup := by
  have hnames : ∀ p : String × Entry → Bool, (((disk.inside place).filter p).map (·.1)).mergeSort.Nodup :=
    fun p => List.nodup_mergeSort.mpr ((nodup_inside h place).sublist (List.filter_sublist.map _))
  have hlist : disk.list place = ((((disk.inside place).partition (·.2 == .directory)).1.map (·.1)).mergeSort,
    (((disk.inside place).partition (·.2 == .directory)).2.map (·.1)).mergeSort) := rfl
  rw [hlist, List.partition_eq_filter_filter]
  exact ⟨hnames _, hnames _⟩

end Disk

section Listing

variable {disk : Disk} {ignored : String → Bool} {place : List String}

/-- What is listed from a directory leads on from there. -/
theorem way_of_mem_listFrom (hnamed : disk.Named) {fuel : Nat} {way : List String} {path : String}
    (h : path ∈ listFrom disk ignored place fuel way) :
    ∃ rest, rest ≠ [] ∧ (∀ s ∈ way ++ rest, IsSegment s) ∧ path = "/".intercalate (way ++ rest) := by
  obtain ⟨target, name, hwalk, -, ⟨content, hfile⟩, hpath, -⟩ := (mem_listFrom_iff fuel).mp h
  obtain ⟨rest, rfl, -⟩ := hwalk.through
  refine ⟨rest ++ [name], by simp, fun s hs => hnamed _ hfile s ?_, by rw [hpath, List.append_assoc]⟩
  simp only [List.append_assoc]
  exact List.mem_append_right _ hs

/-- A listing has each path once. -/
theorem nodup_listFrom (hdisk : disk.Sound) : ∀ (fuel : Nat) (way : List String),
    (∀ s ∈ way, IsSegment s) → (listFrom disk ignored place fuel way).Nodup
  | 0, _, _ => .nil
  | fuel + 1, way, hway => by
      obtain ⟨hdirectories, hfiles⟩ := Disk.nodup_list hdisk (place ++ way)
      have hstep : ∀ {name}, name ∈ (disk.list (place ++ way)).1 ∨ name ∈ (disk.list (place ++ way)).2 →
          ∀ s ∈ way ++ [name], IsSegment s := by
        intro name hname s hs
        obtain hs | hs := List.mem_append.mp hs
        · exact hway s hs
        · exact List.mem_singleton.mp hs ▸ Disk.mem_list hdisk.named hname
      rw [listFrom, List.nodup_append']
      refine ⟨?_, List.nodup_flatMap.mpr ⟨?_, ?_⟩, ?_⟩
      · -- The files of the directory itself differ in their names.
        refine (hfiles.map_on fun a ha b hb hsame => ?_).filter _
        have hways := intercalate_inj (hstep (.inr ha)) (hstep (.inr hb)) hsame
        exact List.singleton_inj.mp (List.append_cancel_left hways)
      · intro name hname
        exact nodup_listFrom hdisk fuel _ (hstep (.inl (List.mem_filter.mp hname).1))
      · -- Files of different directories differ in the name of the directory.
        refine (hdirectories.filter _).pairwise_of_forall_ne fun a ha b hb hne => ?_
        refine List.disjoint_left.mpr fun path hpath hpath' => hne ?_
        obtain ⟨rest, -, hsegments, rfl⟩ := way_of_mem_listFrom hdisk.named hpath
        obtain ⟨rest', -, hsegments', hsame⟩ := way_of_mem_listFrom hdisk.named hpath'
        have hways := intercalate_inj hsegments hsegments' hsame
        simp only [List.append_assoc, List.singleton_append] at hways
        exact (List.cons.inj (List.append_cancel_left hways)).1
      · refine List.disjoint_left.mpr fun path hpath hpath' => ?_
        obtain ⟨file, hfile, rfl⟩ := List.mem_map.mp (List.mem_filter.mp hpath).1
        obtain ⟨name, hname, hpath'⟩ := List.mem_flatMap.mp hpath'
        obtain ⟨rest, hrest, hsegments, hsame⟩ := way_of_mem_listFrom hdisk.named hpath'
        have hways := intercalate_inj (hstep (.inr hfile)) hsegments hsame
        simp only [List.append_assoc, List.singleton_append] at hways
        exact hrest (List.cons.inj (List.append_cancel_left hways)).2.symm

/-- A workspace lists each file once, under the path that leads to it from the root. -/
theorem listFiles_ordered {root : String} {paths : List String} {k : Nat} {segments : List String}
    (hdisk : disk.Sound) (hk : k = 1 ∨ k = 2) (hsegments : ∀ s ∈ segments, IsSegment s)
    (hroot : root = rooted k segments) (h : listFiles disk root true = .ok paths) :
    paths.Nodup ∧ ∀ path ∈ paths, ∃ way, (∀ s ∈ segments ++ way, IsSegment s) ∧
      path = rooted k (segments ++ way) := by
  subst hroot
  rw [listFiles, if_pos rfl] at h
  obtain ⟨rules, -, h⟩ := bind_eq_ok h
  have hnone : ([] : List String).Nodup ∧ ∀ path ∈ [], ∃ way, (∀ s ∈ segments ++ way, IsSegment s) ∧
      path = rooted k (segments ++ way) := ⟨.nil, fun path hpath => absurd hpath List.not_mem_nil⟩
  split at h
  case h_1 =>
    cases h
    exact hnone
  case h_2 place _ =>
    split at h
    case isFalse =>
      cases h
      exact hnone
    case isTrue =>
      cases h
      have hall : ∀ {way}, (∀ s ∈ way, IsSegment s) → ∀ s ∈ segments ++ way, IsSegment s := fun hway s hs =>
        (List.mem_append.mp hs).elim (hsegments s) (hway s)
      have hjoin : ∀ found ∈ listFrom disk (shouldIgnore rules (rooted k segments)) place
          (disk.entries.length + 1) [], ∃ way, (∀ s ∈ way, IsSegment s) ∧ found = "/".intercalate way ∧
            join (absolute disk.cwd (rooted k segments)) found = rooted k (segments ++ way) := by
        intro found hfound
        obtain ⟨way, hne, hway, rfl⟩ := way_of_mem_listFrom hdisk.named hfound
        rw [List.nil_append] at hway ⊢
        rw [absolute_eq hk ⟨segments, hsegments, rfl⟩]
        exact ⟨way, hway, rfl, join_way hk hsegments hway hne⟩
      constructor
      · refine (nodup_listFrom hdisk _ [] fun s hs => absurd hs List.not_mem_nil).map_on ?_
        intro found hfound found' hfound' hsame
        obtain ⟨way, hway, rfl, hpath⟩ := hjoin found hfound
        obtain ⟨way', hway', rfl, hpath'⟩ := hjoin found' hfound'
        rw [hpath, hpath'] at hsame
        rw [List.append_cancel_left (rooted_inj hk hk (hall hway) (hall hway') hsame).2]
      · intro path hpath
        obtain ⟨found, hfound, rfl⟩ := List.mem_map.mp hpath
        obtain ⟨way, hway, -, hjoined⟩ := hjoin found hfound
        exact ⟨way, hall hway, hjoined⟩

end Listing

/-! ## Calls -/

/-- What is asked of an index. -/
inductive IndexCall where
  | build
  | add (path : String)
  | remove (path : String)
  | invalidate
  /-- The packages for documents in a directory. -/
  | packages (directory : String)

/-- A normal absolute path that leads through a root. -/
structure InWorkspace (root path : String) : Prop where
  absolute : isAbsolute path = true
  normal : normalize path = path
  components : (Parts.read root).segments <+: (Parts.read path).segments

namespace WorkspaceIndex

variable {disk : Disk} {index index' added : WorkspaceIndex} {files : List FileCandidate} {root path : String}

/-- What becomes of an index by a call. One that fails leaves it as it is. -/
def call (disk : Disk) (index : WorkspaceIndex) : IndexCall → Except Failure WorkspaceIndex
  | .build => (·.2) <$> index.build disk
  | .add path => index.add disk path
  | .remove path => .ok (index.remove disk.cwd path)
  | .invalidate => .ok index.invalidate
  | .packages directory => (·.2) <$> index.packagesFor disk directory

/-- An index that has come about by calls, on disks that may be others each time. -/
inductive Reached (cwd root : String) (options : Options) (family : Family) : WorkspaceIndex → Prop
  | create : Reached cwd root options family (.create cwd root options family)
  | call {disk : Disk} {index index' : WorkspaceIndex} {c : IndexCall} (hdisk : disk.Sound)
      (hcwd : isAbsolute disk.cwd = true) (h : Reached cwd root options family index)
      (hcall : index.call disk c = .ok index') : Reached cwd root options family index'

/-- Whether a file may be taken in: it is inside the workspace, and the rules can be read and do not ignore it. -/
def Admits (index : WorkspaceIndex) (disk : Disk) (path : String) : Prop :=
  isWithin index.root path = true ∧
    ∃ rules, loadIgnoreRules disk index.root = .ok rules ∧ shouldIgnore rules index.root path = false

/-- Whether a file is to be put behind the others. -/
def Appends (index : WorkspaceIndex) (disk : Disk) (files : List FileCandidate) (path : String) : Prop :=
  index.Admits disk path ∧ ∀ c ∈ files, c.path ≠ path

/-- The path by which a file is known, however it is spelled. -/
theorem path_of_added (hcwd : isAbsolute disk.cwd = true) (index : WorkspaceIndex) (path : String) :
    (index.candidate disk.cwd (absolute disk.cwd path)).path = absolute disk.cwd path := by
  obtain ⟨k, hk, hrooted⟩ := absolute_rooted hcwd path
  rw [candidate_path, hrooted.normalize_eq hk]

theorem files_of_build (h : index.build disk = .ok (files, index')) : index'.files? = some files := by
  unfold build at h
  split at h
  case h_1 hfiles =>
    cases h
    exact hfiles
  case h_2 =>
    obtain ⟨paths, -, h⟩ := bind_eq_ok h
    cases h
    rfl

theorem add_of_unlisted (h : index.files? = none) : index.add disk path = .ok index := by
  rw [add, h]

/-- An index that is told of a file takes it in behind the others, or stays as it is, or fails because the rules
cannot be read. -/
theorem added_cases (hcwd : isAbsolute disk.cwd = true) (hfiles : index.files? = some files) (path : String) :
    (∃ failure, loadIgnoreRules disk index.root = .error failure ∧ index.add disk path = .error failure) ∨
      (¬index.Appends disk files (absolute disk.cwd path) ∧ index.add disk path = .ok index) ∨
      (index.Appends disk files (absolute disk.cwd path) ∧ index.add disk path = .ok { index with
        files? := some (files ++ [index.candidate disk.cwd (absolute disk.cwd path)]) }) := by
  rw [add, hfiles]
  dsimp only
  rw [path_of_added hcwd]
  by_cases hwithin : isWithin index.root (absolute disk.cwd path) = true
  case neg => exact .inr (.inl ⟨fun h => hwithin h.1.1, if_pos (by simpa using hwithin)⟩)
  case pos =>
    rw [hwithin, if_neg (by decide)]
    cases hrules : loadIgnoreRules disk index.root with
    | error failure => exact .inl ⟨failure, rfl, rfl⟩
    | ok rules =>
        refine .inr ?_
        by_cases hignored : shouldIgnore rules index.root (absolute disk.cwd path) = true
        · refine .inl ⟨?_, if_pos hignored⟩
          rintro ⟨⟨-, rules', hrules', hkept⟩, -⟩
          rw [hrules] at hrules'
          cases hrules'
          exact absurd (hignored.symm.trans hkept) (by decide)
        · by_cases hthere : files.any (·.path == absolute disk.cwd path) = true
          · refine .inl ⟨?_, (if_neg hignored).trans (if_pos hthere)⟩
            rintro ⟨-, habsent⟩
            obtain ⟨c, hc, hpath⟩ := List.any_eq_true.mp hthere
            exact habsent c hc (beq_iff_eq.mp hpath)
          · refine .inr ⟨⟨⟨hwithin, rules, hrules, by simpa using hignored⟩, ?_⟩,
              (if_neg hignored).trans (if_neg hthere)⟩
            intro c hc hpath
            exact hthere (List.any_eq_true.mpr ⟨c, hc, beq_iff_eq.mpr hpath⟩)

theorem remove_listed (hcwd : isAbsolute disk.cwd = true) (hfiles : index.files? = some files) (path : String) :
    index.remove disk.cwd path =
      { index with files? := some (files.filter (·.path ≠ absolute disk.cwd path)) } := by
  obtain ⟨k, hk, hrooted⟩ := absolute_rooted hcwd path
  have hsame : (fun c : FileCandidate => c.path != absolute disk.cwd path) =
      fun c => decide (c.path ≠ absolute disk.cwd path) := by
    funext c
    rw [Bool.eq_iff_iff, bne_iff_ne, decide_eq_true_iff]
  rw [remove, hfiles, hrooted.normalize_eq hk, Option.map_some, hsame]

/-! ## What a call preserves -/

/-- The files of an index are an ordered set in its workspace, and its packages have been read from manifests. -/
structure Orderly (root : String) (index : WorkspaceIndex) : Prop where
  root_eq : index.root = root
  distinct : ∀ files, index.files? = some files → (files.map (·.path)).Nodup
  inside : ∀ files, index.files? = some files → ∀ c ∈ files, InWorkspace root c.path
  packages : ∀ e ∈ index.packages, ∃ disk, Manifest.packages disk root e.1 = .ok e.2

theorem inWorkspace_rooted {k : Nat} {segments way : List String} (hk : k = 1 ∨ k = 2)
    (h : ∀ s ∈ segments ++ way, IsSegment s) :
    InWorkspace (rooted k segments) (rooted k (segments ++ way)) where
  absolute := (Rooted.leads ⟨_, h, rfl⟩).isAbsolute hk
  normal := Rooted.normalize_eq hk ⟨_, h, rfl⟩
  components := by
    rw [Parts.read_rooted hk h, Parts.read_rooted hk fun s hs => h s (List.mem_append_left _ hs)]
    exact List.prefix_append segments way

/-- A path that is found to be inside a root is in the workspace, once it is absolute. -/
theorem inWorkspace_absolute (hcwd : isAbsolute disk.cwd = true)
    (h : isWithin root (absolute disk.cwd path) = true) : InWorkspace root (absolute disk.cwd path) := by
  obtain ⟨k, hk, hrooted⟩ := absolute_rooted hcwd path
  refine ⟨hrooted.leads.isAbsolute hk, hrooted.normalize_eq hk, ?_⟩
  rw [isWithin, Bool.and_eq_true] at h
  exact List.isPrefixOf_iff_prefix.mp h.2

namespace Orderly

/-- An index that has nothing is in order. -/
theorem of_empty (hroot : index.root = root) (hfiles : index.files? = none) (hpackages : index.packages = []) :
    Orderly root index where
  root_eq := hroot
  distinct := by
    intro files hsome
    rw [hfiles] at hsome
    cases hsome
  inside := by
    intro files hsome
    rw [hfiles] at hsome
    cases hsome
  packages := by
    intro e he
    rw [hpackages] at he
    cases he

theorem build {k : Nat} (hdisk : disk.Sound) (hk : k = 1 ∨ k = 2) (hroot : Rooted k root)
    (h : Orderly root index) (hbuild : index.build disk = .ok (files, index')) : Orderly root index' := by
  unfold WorkspaceIndex.build at hbuild
  split at hbuild
  case h_1 =>
    cases hbuild
    exact h
  case h_2 =>
    obtain ⟨paths, hpaths, hbuild⟩ := bind_eq_ok hbuild
    cases hbuild
    obtain ⟨segments, hsegments, rfl⟩ := hroot
    obtain ⟨hnodup, hbelow⟩ := listFiles_ordered hdisk hk hsegments h.root_eq hpaths
    -- The paths of a listing are normal, so that each is that of its candidate.
    have hmap : (paths.map (index.candidate disk.cwd)).map (·.path) = paths := by
      rw [List.map_map]
      refine (List.map_congr_left fun path hpath => ?_).trans (List.map_id paths)
      obtain ⟨way, hway, rfl⟩ := hbelow path hpath
      exact (candidate_path _ _ _).trans (inWorkspace_rooted hk hway).normal
    refine ⟨h.root_eq, ?_, ?_, h.packages⟩
    · rintro files hfiles
      cases hfiles
      rwa [hmap]
    · rintro files hfiles c hc
      cases hfiles
      have hpath : c.path ∈ paths := by
        rw [← hmap]
        exact List.mem_map_of_mem hc
      obtain ⟨way, hway, hrooted⟩ := hbelow c.path hpath
      rw [hrooted]
      exact inWorkspace_rooted hk hway

theorem add (hcwd : isAbsolute disk.cwd = true) (h : Orderly root index)
    (hadd : index.add disk path = .ok index') : Orderly root index' := by
  cases hfiles : index.files? with
  | none =>
      rw [add_of_unlisted hfiles] at hadd
      cases hadd
      exact h
  | some files =>
      obtain ⟨failure, -, hfailed⟩ | ⟨-, hsame⟩ | ⟨⟨⟨hwithin, -⟩, habsent⟩, happended⟩ := added_cases hcwd hfiles path
      · rw [hfailed] at hadd
        cases hadd
      · rw [hsame] at hadd
        cases hadd
        exact h
      · rw [happended] at hadd
        cases hadd
        refine ⟨h.root_eq, ?_, ?_, h.packages⟩
        · rintro files' hfiles'
          cases hfiles'
          rw [List.map_append, List.map_singleton, path_of_added hcwd, List.nodup_append']
          refine ⟨h.distinct files hfiles, List.nodup_singleton _, ?_⟩
          rw [List.disjoint_singleton]
          intro hmem
          obtain ⟨c, hc, hpath⟩ := List.mem_map.mp hmem
          exact habsent c hc hpath
        · rintro files' hfiles' c hc
          cases hfiles'
          obtain hc | hc := List.mem_append.mp hc
          · exact h.inside files hfiles c hc
          · rw [List.mem_singleton.mp hc, path_of_added hcwd]
            exact inWorkspace_absolute hcwd (h.root_eq ▸ hwithin)

theorem remove (h : Orderly root index) (cwd path : String) : Orderly root (index.remove cwd path) where
  root_eq := h.root_eq
  distinct := by
    intro files hfiles
    obtain ⟨present, hpresent, rfl⟩ := Option.map_eq_some_iff.mp hfiles
    exact (h.distinct present hpresent).sublist (List.filter_sublist.map _)
  inside := by
    intro files hfiles c hc
    obtain ⟨present, hpresent, rfl⟩ := Option.map_eq_some_iff.mp hfiles
    exact h.inside present hpresent c (List.mem_filter.mp hc).1
  packages := h.packages

theorem packagesFor {directory : String} {found : List PackageCandidate} (h : Orderly root index)
    (hpackages : index.packagesFor disk directory = .ok (found, index')) : Orderly root index' := by
  cases hfind : Manifest.find? disk directory index.root with
  | none =>
      rw [packagesFor_none hfind] at hpackages
      cases hpackages
      exact h
  | some manifest =>
      cases hkept : index.kept? manifest with
      | some kept =>
          rw [packagesFor_kept hfind hkept] at hpackages
          cases hpackages
          exact h
      | none =>
          rw [packagesFor_read hfind hkept] at hpackages
          cases hread : Manifest.packages disk index.root manifest with
          | error failure =>
              rw [hread] at hpackages
              cases hpackages
          | ok now =>
              rw [hread] at hpackages
              cases hpackages
              refine ⟨h.root_eq, h.distinct, h.inside, ?_⟩
              intro e he
              obtain rfl | he := List.mem_cons.mp he
              · exact ⟨disk, h.root_eq ▸ hread⟩
              · exact h.packages e he

theorem call {k : Nat} {c : IndexCall} (hdisk : disk.Sound) (hcwd : isAbsolute disk.cwd = true)
    (hk : k = 1 ∨ k = 2) (hroot : Rooted k root) (h : Orderly root index)
    (hcall : index.call disk c = .ok index') : Orderly root index' := by
  cases c with
  | build =>
      cases hbuild : index.build disk with
      | error failure =>
          rw [WorkspaceIndex.call, hbuild] at hcall
          cases hcall
      | ok built =>
          rw [WorkspaceIndex.call, hbuild] at hcall
          cases hcall
          exact h.build hdisk hk hroot hbuild
  | add path => exact h.add hcwd hcall
  | remove path =>
      cases hcall
      exact h.remove disk.cwd path
  | invalidate =>
      cases hcall
      exact .of_empty h.root_eq rfl rfl
  | packages directory =>
      cases hpackages : index.packagesFor disk directory with
      | error failure =>
          rw [WorkspaceIndex.call, hpackages] at hcall
          cases hcall
      | ok found =>
          rw [WorkspaceIndex.call, hpackages] at hcall
          cases hcall
          exact h.packagesFor hpackages

end Orderly

theorem Reached.orderly {cwd root : String} {options : Options} {family : Family} (hcwd : isAbsolute cwd = true)
    (h : Reached cwd root options family index) : Orderly (Path.absolute cwd root) index := by
  obtain ⟨k, hk, hroot⟩ := absolute_rooted hcwd root
  induction h with
  | create =>
      refine .of_empty ?_ ?_ ?_
      · rw [WorkspaceIndex.create]
      · rw [WorkspaceIndex.create]
      · rw [WorkspaceIndex.create]
  | call hdisk hcwd' _ hcall ih => exact ih.call hdisk hcwd' hk hroot hcall

end WorkspaceIndex

/-- The files of an index that has been called in any way are distinct normal paths in its workspace. An index that is
not listed is not changed by files that come and go. A file that goes is taken out of its place. One that comes
is put behind the others exactly if it may be taken in and is not there, unless the rules cannot be read; and if it
was not there, taking it out again leaves the index as it was. -/
theorem index_ordered_set {cwd root : String} {options : Options} {family : Family} {index : WorkspaceIndex}
    (hcwd : isAbsolute cwd = true) (h : index.Reached cwd root options family) :
    (∀ files, index.files? = some files →
      (files.map (·.path)).Nodup ∧ ∀ c ∈ files, InWorkspace (absolute cwd root) c.path) ∧
    ∀ (disk : Disk) (path : String), isAbsolute disk.cwd = true →
      (index.files? = none → index.add disk path = .ok index ∧ index.remove disk.cwd path = index) ∧
      ∀ files, index.files? = some files →
        index.remove disk.cwd path =
          { index with files? := some (files.filter (·.path ≠ absolute disk.cwd path)) } ∧
        (∀ failure, index.add disk path = .error failure → loadIgnoreRules disk index.root = .error failure) ∧
        ∀ added, index.add disk path = .ok added →
          (index.Appends disk files (absolute disk.cwd path) →
            ∃ c : FileCandidate, c.path = absolute disk.cwd path ∧
              added = { index with files? := some (files ++ [c]) }) ∧
          (¬index.Appends disk files (absolute disk.cwd path) → added = index) ∧
          ((∀ c ∈ files, c.path ≠ absolute disk.cwd path) → added.remove disk.cwd path = index) := by
  have horderly := h.orderly hcwd
  refine ⟨fun files hfiles => ⟨horderly.distinct files hfiles, horderly.inside files hfiles⟩, ?_⟩
  intro disk path hcwd'
  refine ⟨fun hnone => ⟨WorkspaceIndex.add_of_unlisted hnone, remove_of_unlisted hnone⟩, ?_⟩
  intro files hfiles
  refine ⟨WorkspaceIndex.remove_listed hcwd' hfiles path, ?_⟩
  have hrestored : (∀ c ∈ files, c.path ≠ absolute disk.cwd path) → index.remove disk.cwd path = index := by
    intro habsent
    rw [WorkspaceIndex.remove_listed hcwd' hfiles, List.filter_eq_self.mpr fun c hc => decide_eq_true (habsent c hc),
      ← hfiles]
  obtain ⟨failure, hrules, hfailed⟩ | ⟨hnot, hsame⟩ | ⟨happends, happended⟩ :=
    WorkspaceIndex.added_cases hcwd' hfiles path
  · rw [hfailed]
    refine ⟨fun failure' hfailure => ?_, fun added hadded => ?_⟩
    · cases hfailure
      exact hrules
    · cases hadded
  · rw [hsame]
    refine ⟨nofun, fun added hadded => ?_⟩
    cases hadded
    exact ⟨fun happends => absurd happends hnot, fun _ => rfl, hrestored⟩
  · rw [happended]
    refine ⟨nofun, fun added hadded => ?_⟩
    cases hadded
    have hpath := WorkspaceIndex.path_of_added hcwd' index path
    refine ⟨fun _ => ⟨_, hpath, rfl⟩, fun hnot => absurd happends hnot, fun habsent => ?_⟩
    rw [WorkspaceIndex.remove_listed hcwd' rfl, List.filter_append, List.filter_eq_self.mpr fun c hc =>
      decide_eq_true (habsent c hc)]
    simp [hpath, ← hfiles]

/-- A listed workspace takes in a file that is spelled in a roundabout way, and drops it again. -/
theorem roundabout_file_added : ∃ (index added : WorkspaceIndex) (files : List FileCandidate),
    index.Reached "/ws" "/ws" {} .javascript ∧ index.files? = some files ∧
      files.map (·.path) = ["/ws/.quickenignore"] ∧
      index.add (ruledLib "lib/\n") "../ws/./new.js" = .ok added ∧
      (∃ c : FileCandidate, c.path = "/ws/new.js" ∧ added = { index with files? := some (files ++ [c]) }) ∧
      added.remove "/ws" "../ws/./new.js" = index := by
  have hlisted : ((WorkspaceIndex.create "/ws" "/ws" {} .javascript).build (ruledLib "lib/\n")).map
      (fun r => (r.1.map (·.path), r.2.root)) =
      .ok (["/ws/.quickenignore"], "/ws") := by decide +kernel
  have hkept : (loadIgnoreRules (ruledLib "lib/\n") "/ws").map (shouldIgnore · "/ws" "/ws/new.js") = .ok false := by
    decide +kernel
  have hpath : absolute "/ws" "../ws/./new.js" = "/ws/new.js" := by decide +kernel
  cases hbuild : (WorkspaceIndex.create "/ws" "/ws" {} .javascript).build (ruledLib "lib/\n") with
  | error failure =>
      rw [hbuild] at hlisted
      cases hlisted
  | ok built =>
      obtain ⟨files, index⟩ := built
      rw [hbuild] at hlisted
      obtain ⟨hpaths, hroot⟩ := Prod.mk.inj (Except.ok.inj hlisted)
      have hreached : index.Reached "/ws" "/ws" {} .javascript := by
        refine .call (c := .build) (ruledLib_sound "lib/\n") (by decide) .create ?_
        rw [WorkspaceIndex.call, hbuild]
        rfl
      have hfiles := WorkspaceIndex.files_of_build hbuild
      obtain ⟨-, hcalls⟩ := index_ordered_set (by decide) hreached
      obtain ⟨-, hfailed, hadded⟩ := (hcalls (ruledLib "lib/\n") "../ws/./new.js" (by decide)).2 files hfiles
      have hcwd : (ruledLib "lib/\n").cwd = "/ws" := rfl
      rw [hroot] at hfailed
      rw [hcwd, hpath] at hadded
      have habsent : ∀ c ∈ files, c.path ≠ "/ws/new.js" := by
        intro c hc hsame
        have hmem := List.mem_map_of_mem (f := (·.path)) hc
        rw [hpaths, hsame] at hmem
        exact absurd hmem (by decide)
      cases hrules : loadIgnoreRules (ruledLib "lib/\n") "/ws" with
      | error failure =>
          rw [hrules] at hkept
          cases hkept
      | ok rules =>
          rw [hrules] at hkept hfailed
          cases hadd : index.add (ruledLib "lib/\n") "../ws/./new.js" with
          | error failure => exact absurd (hfailed failure hadd) nofun
          | ok added =>
              obtain ⟨happended, -, hrestored⟩ := hadded added hadd
              refine ⟨index, added, files, hreached, hfiles, hpaths, hadd, happended ⟨?_, habsent⟩,
                hrestored habsent⟩
              exact ⟨by rw [hroot]; decide +kernel, rules, by rw [hroot]; exact hrules, by
                rw [hroot]
                exact Except.ok.inj hkept⟩

end ImportAssist
