import ImportAssist.Proofs.ImportTargets
import ImportAssist.Proofs.IndexFiles

/-!
# Files in ignored directories

Listing a workspace does not look into a directory that is ignored: it finds a file exactly if neither the file
nor a directory on the way to it is ignored (`mem_listFiles_iff`). A file that an index is told of is judged by its
own path alone (`WorkspaceIndex.offers_add_iff`). So the two disagree about every file that a rule takes back in
from an ignored directory (`listed_and_added`).

Both see a path as it leads on from the root (`ignorePath_rooted`), and neither gets to its rules if these cannot be
read.
-/

namespace ImportAssist

open ImportAssist.Path

/-! ## Entries -/

/-- A disk on which no place is taken twice, and everything has a name that a path can mean. -/
structure Disk.Sound (disk : Disk) : Prop where
  named : disk.Named
  distinct : (disk.entries.map (·.1)).Nodup

namespace Disk

variable {disk : Disk} {k : Nat} {segments way : List String}

theorem Sound.at?_eq_some (h : disk.Sound) {place : List String} {entry : Entry} (hne : place ≠ []) :
    disk.at? place = some entry ↔ (place, entry) ∈ disk.entries := by
  have hat : disk.at? place = (disk.entries.find? (·.1 == place)).map (·.2) := by
    rw [at?, if_neg (by simp [hne])]
  rw [hat, Option.map_eq_some_iff]
  constructor
  · rintro ⟨⟨found, other⟩, hfind, rfl⟩
    have hplace := List.find?_some hfind
    rw [beq_iff_eq] at hplace
    exact hplace ▸ List.mem_of_find?_eq_some hfind
  · intro hmem
    cases hfind : disk.entries.find? (·.1 == place) with
    | none => exact absurd (beq_self_eq_true place) (List.find?_eq_none.mp hfind _ hmem)
    | some found =>
        have hplace := List.find?_some hfind
        rw [beq_iff_eq] at hplace
        have hsame := List.inj_on_of_nodup_map h.distinct (List.mem_of_find?_eq_some hfind) hmem hplace
        exact ⟨found, rfl, by rw [hsame]⟩

/-- A file stands under its place, behind directories. -/
theorem Sound.entries_of_isFile (h : disk.Sound) (hk : k = 1 ∨ k = 2) {name : String}
    (hsegments : ∀ s ∈ segments ++ (way ++ [name]), IsSegment s)
    (hfile : disk.isFile (rooted k (segments ++ (way ++ [name]))) = true) :
    (∃ content, (segments ++ way ++ [name], Entry.file content) ∈ disk.entries) ∧
      disk.isDirectory (rooted k segments) = true ∧
      ∀ above, above ≠ [] → above <+: way → (segments ++ above, Entry.directory) ∈ disk.entries := by
  obtain ⟨content, hentry⟩ := isFile_iff.mp hfile
  have hhas : disk.has (rooted k (segments ++ (way ++ [name]))) = true := has_iff.mpr ⟨_, hentry⟩
  have hdirectory : ∀ above, above <+: way → disk.isDirectory (rooted k (segments ++ above)) = true := by
    rintro above ⟨rest, rfl⟩
    have hsplit : segments ++ (above ++ rest ++ [name]) = segments ++ above ++ (rest ++ [name]) := by
      simp only [List.append_assoc]
    rw [hsplit] at hsegments hhas
    exact isDirectory_of_has hk hsegments (by simp) hhas
  refine ⟨⟨content, ?_⟩, ?_, fun above hne habove => ?_⟩
  · obtain ⟨place, hplace, hat⟩ := entry?_eq_some.mp hentry
    rw [place_eq hk hsegments hplace] at hat
    rw [List.append_assoc]
    exact (h.at?_eq_some (by simp)).mp hat
  · have hroot := hdirectory [] List.nil_prefix
    rwa [List.append_nil] at hroot
  · have habove' : ∀ s ∈ segments ++ above, IsSegment s := by
      intro s hs
      rcases List.mem_append.mp hs with hs | hs
      · exact hsegments s (List.mem_append_left _ hs)
      · exact hsegments s (List.mem_append_right _ (List.mem_append_left _ (habove.subset hs)))
    obtain ⟨place, hplace, hat⟩ := entry?_eq_some.mp (isDirectory_iff.mp (hdirectory above habove))
    rw [place_eq hk habove' hplace] at hat
    exact (h.at?_eq_some (by simp [hne])).mp hat

end Disk

/-! ## Walks -/

/-- A walk down from one directory to another through directories that are not ignored. The directories are
given by the ways to them from `place`. -/
inductive Walk (disk : Disk) (ignored : String → Bool) (place : List String) :
    List String → List String → Prop where
  | here (way) : Walk disk ignored place way way
  | down {way name target} : (place ++ way ++ [name], Entry.directory) ∈ disk.entries →
      ignored ("/".intercalate (way ++ [name]) ++ "/") = false →
      Walk disk ignored place (way ++ [name]) target → Walk disk ignored place way target

section Walk

variable {disk : Disk} {ignored : String → Bool} {place way target : List String}

theorem Walk.length_le (h : Walk disk ignored place way target) : way.length ≤ target.length := by
  induction h with
  | here way => exact Nat.le_refl _
  | down _ _ _ ih =>
      rw [List.length_append] at ih
      omega

/-- A walk leads down, and everything that it leads through is a directory that is not ignored. -/
theorem Walk.through (h : Walk disk ignored place way target) :
    ∃ rest, target = way ++ rest ∧ ∀ above, above ≠ [] → above <+: rest →
      (place ++ way ++ above, Entry.directory) ∈ disk.entries ∧
        ignored ("/".intercalate (way ++ above) ++ "/") = false := by
  induction h with
  | here way => exact ⟨[], (List.append_nil way).symm, fun above hne h => absurd (List.prefix_nil.mp h) hne⟩
  | @down way name target hentry hignored _ ih =>
      obtain ⟨rest, rfl, hthrough⟩ := ih
      refine ⟨name :: rest, by rw [List.append_assoc, List.singleton_append], fun above hne habove => ?_⟩
      obtain rfl | ⟨more, rfl, hmore⟩ := List.prefix_cons_iff.mp habove
      · exact absurd rfl hne
      · by_cases hnil : more = []
        · rw [hnil]
          exact ⟨hentry, hignored⟩
        · have hlater := hthrough more hnil hmore
          simp only [List.append_assoc, List.singleton_append] at hlater ⊢
          exact hlater

theorem Walk.of_through : ∀ {rest way : List String}, (∀ above, above ≠ [] → above <+: rest →
      (place ++ way ++ above, Entry.directory) ∈ disk.entries ∧
        ignored ("/".intercalate (way ++ above) ++ "/") = false) →
    Walk disk ignored place way (way ++ rest)
  | [], way, _ => by
      rw [List.append_nil]
      exact .here way
  | name :: rest, way, h => by
      obtain ⟨hentry, hignored⟩ := h [name] (List.cons_ne_nil _ _) (List.prefix_append [name] rest)
      have hrest : Walk disk ignored place (way ++ [name]) (way ++ [name] ++ rest) := by
        refine Walk.of_through fun above hne habove => ?_
        have hlater := h (name :: above) (List.cons_ne_nil _ _) (List.cons_prefix_cons.mpr ⟨rfl, habove⟩)
        simp only [List.append_assoc, List.singleton_append] at hlater ⊢
        exact hlater
      rw [List.append_assoc, List.singleton_append] at hrest
      exact .down hentry hignored hrest

/-- A walk is no longer than there are entries, since it comes to another one with every step. -/
theorem Walk.length_le_entries (h : Walk disk ignored place [] target) :
    target.length ≤ disk.entries.length := by
  obtain ⟨rest, hrest, hthrough⟩ := h.through
  rw [List.nil_append] at hrest
  subst hrest
  have hplaces : (Disk.ancestry target).map (place ++ ·) ⊆ disk.entries.map (·.1) := by
    intro found hfound
    obtain ⟨above, habove, rfl⟩ := List.mem_map.mp hfound
    obtain ⟨n, hn, rfl⟩ := List.mem_map.mp habove
    have hne : target.take (n + 1) ≠ [] := by
      intro hnil
      rw [List.take_eq_nil_iff] at hnil
      have hlength := List.mem_range.mp hn
      rcases hnil with hnil | hnil
      · exact absurd hnil (Nat.succ_ne_zero n)
      · rw [hnil, List.length_nil] at hlength
        omega
    have hentry := (hthrough _ hne (List.take_prefix _ _)).1
    rw [List.append_nil] at hentry
    exact List.mem_map.mpr ⟨_, hentry, rfl⟩
  have hdistinct : ((Disk.ancestry target).map (place ++ ·)).Nodup := by
    rw [Disk.ancestry, List.map_map]
    refine List.nodup_range.map_on fun n hn m hm hsame => ?_
    have hlength := congrArg List.length hsame
    rw [List.mem_range] at hn hm
    simp only [Function.comp_apply, List.length_append, List.length_take] at hlength
    omega
  have hle := (hdistinct.subperm hplaces).length_le
  simpa [Disk.ancestry] using hle

/-- Listing from a directory finds the files that are not ignored in all directories to which a walk leads. -/
theorem mem_listFrom_iff {path : String} : ∀ (fuel : Nat) {way : List String},
    path ∈ listFrom disk ignored place fuel way ↔
      ∃ target name, Walk disk ignored place way target ∧ target.length < way.length + fuel ∧
        (∃ content, (place ++ target ++ [name], Entry.file content) ∈ disk.entries) ∧
        path = "/".intercalate (target ++ [name]) ∧ ignored path = false
  | 0, way => by
      refine iff_of_false List.not_mem_nil ?_
      rintro ⟨target, name, hwalk, hlength, -⟩
      have hle := hwalk.length_le
      omega
  | fuel + 1, way => by
      rw [listFrom, List.mem_append, List.mem_filter, List.mem_flatMap]
      constructor
      · rintro (⟨hpath, hkept⟩ | ⟨name, hname, hpath⟩)
        · obtain ⟨name, hname, rfl⟩ := List.mem_map.mp hpath
          rw [Bool.not_eq_true'] at hkept
          exact ⟨way, name, .here way, by omega, Disk.mem_list_files.mp hname, rfl, hkept⟩
        · obtain ⟨hname, hopen⟩ := List.mem_filter.mp hname
          rw [Bool.not_eq_true'] at hopen
          obtain ⟨target, last, hwalk, hlength, hfound⟩ := (mem_listFrom_iff fuel).mp hpath
          rw [List.length_append, List.length_singleton] at hlength
          exact ⟨target, last, .down (Disk.mem_list_directories.mp hname) hopen hwalk, by omega, hfound⟩
      · rintro ⟨target, last, hwalk, hlength, hfile, hpath, hkept⟩
        cases hwalk with
        | here => exact .inl ⟨List.mem_map.mpr ⟨last, Disk.mem_list_files.mpr hfile, hpath.symm⟩, by simp [hkept]⟩
        | @down _ name _ hentry hopen hwalk =>
            refine .inr ⟨name, List.mem_filter.mpr ⟨Disk.mem_list_directories.mpr hentry, by simp [hopen]⟩, ?_⟩
            refine (mem_listFrom_iff fuel).mpr ⟨target, last, hwalk, ?_, hfile, hpath, hkept⟩
            rw [List.length_append, List.length_singleton]
            omega

end Walk

/-! ## Paths as the rules see them -/

namespace Path

variable {k : Nat} {segments way : List String} {ending : String}

theorem segmentsOf_behind_slashes (cs : List Char) :
    ∀ n, segmentsOf (List.replicate n '/' ++ cs) = segmentsOf cs
  | 0 => rfl
  | n + 1 => by
      rw [List.replicate_succ, List.cons_append]
      exact (segmentsOf_append_cons [] _).trans (segmentsOf_behind_slashes cs n)

/-- A slash at the end of a path is no part of it. -/
theorem read_marked (hk : k ≤ 2) (h : ∀ s ∈ way, IsSegment s) (hne : way ≠ [])
    (hending : ending = "" ∨ ending = "/") : Parts.read (rooted k way ++ ending) = ⟨k, way⟩ := by
  have hleads : Leads k (rooted k way ++ ending) := by
    refine ⟨slashed way ++ ending.toList, ?_, ?_⟩
    · rw [String.toList_append, toList_rooted, List.append_assoc]
    · obtain ⟨first, rest, hfirst⟩ := List.exists_cons_of_ne_nil (mt (slashed_eq_nil h).mp hne)
      have hslash := head?_slashed h
      rw [hfirst] at hslash ⊢
      exact hslash
  have hsegments : (Parts.read (rooted k way ++ ending)).segments = way := by
    have hway : segmentsOf (slashed way) = way := segmentsOf_slashed fun s hs => (h s hs).isStep
    rw [read_segments, String.toList_append, toList_rooted, List.append_assoc, segmentsOf_behind_slashes]
    rcases hending with rfl | rfl
    · rw [String.toList_empty, List.append_nil, hway]
    · exact (segmentsOf_slashes _ 1).trans hway
  calc Parts.read (rooted k way ++ ending)
      = ⟨leadingSlashes (rooted k way ++ ending), (Parts.read (rooted k way ++ ending)).segments⟩ := rfl
    _ = ⟨k, way⟩ := by rw [leadingSlashes_of_leads_le hk hleads, hsegments]

/-- The path of what lies below a root ends as the way from there does. -/
theorem getLast?_marked (h : ∀ s ∈ way, IsSegment s) (hne : way ≠ []) :
    (rooted k (segments ++ way) ++ ending).toList.getLast? = ("/".intercalate way ++ ending).toList.getLast? := by
  obtain ⟨front, hfront⟩ : ∃ front, (rooted k (segments ++ way)).toList = front ++ slashed way := by
    rw [toList_rooted]
    by_cases hnil : segments = []
    · exact ⟨_, by rw [hnil, List.nil_append]⟩
    · refine ⟨List.replicate k '/' ++ slashed segments ++ ['/'], ?_⟩
      rw [slashed_append hnil hne, List.append_assoc, List.append_assoc]
      rfl
  rw [String.toList_append, hfront, String.toList_append, toList_intercalate, List.append_assoc,
    List.getLast?_append_of_ne_nil]
  exact fun hnil => mt (slashed_eq_nil h).mp hne (List.append_eq_nil_iff.mp hnil).1

end Path

section Rules

variable {k : Nat} {segments way : List String} {ending : String}

/-- What lies below the root is seen by its way from there, whether that or the whole path is given. A slash
at the end may mark it as a directory. -/
theorem ignorePath_rooted (hk : k = 1 ∨ k = 2) (h : ∀ s ∈ segments ++ way, IsSegment s) (hne : way ≠ [])
    (hending : ending = "" ∨ ending = "/") :
    ignorePath (rooted k segments) (rooted k (segments ++ way) ++ ending) =
      ignorePath (rooted k segments) ("/".intercalate way ++ ending) := by
  have hsegments : ∀ s ∈ segments, IsSegment s := fun s hs => h s (List.mem_append_left _ hs)
  have hway : ∀ s ∈ way, IsSegment s := fun s hs => h s (List.mem_append_right _ hs)
  have hwhole := read_marked (k := k) (by omega) h (by simp [hne]) hending
  have hrelative : Parts.read ("/".intercalate way ++ ending) = ⟨0, way⟩ := by
    have hread := read_marked (k := 0) (by omega) hway hne hending
    have hsame : rooted 0 way = "/".intercalate way := by
      apply String.toList_inj.1
      rw [toList_rooted, toList_intercalate]
      rfl
    rwa [hsame] at hread
  have hinside : below? (rooted k segments) (rooted k (segments ++ way) ++ ending) =
      some (Parts.mk 0 way).render := by
    rw [below?, Parts.read_rooted hk hsegments, hwhole]
    simp
  have houtside : below? (rooted k segments) ("/".intercalate way ++ ending) = none := by
    rw [below?, Parts.read_rooted hk hsegments, hrelative]
    have hk0 : k ≠ 0 := by omega
    simp [hk0]
  have hclean : clean ("/".intercalate way ++ ending) = (Parts.mk 0 way).render := by rw [clean, hrelative]
  unfold ignorePath
  rw [hinside, houtside, hclean, getLast?_marked hway hne]
  rfl

theorem shouldIgnore_rooted (rules : List IgnoreRule) (hk : k = 1 ∨ k = 2)
    (h : ∀ s ∈ segments ++ way, IsSegment s) (hne : way ≠ []) (hending : ending = "" ∨ ending = "/") :
    shouldIgnore rules (rooted k segments) (rooted k (segments ++ way) ++ ending) =
      shouldIgnore rules (rooted k segments) ("/".intercalate way ++ ending) := by
  rw [shouldIgnore, ignorePath_rooted hk h hne hending]
  rfl

end Rules

/-! ## Listing and adding -/

namespace Path

theorem clean_rooted {k : Nat} {segments : List String} (hk : k = 1 ∨ k = 2) (h : ∀ s ∈ segments, IsSegment s) :
    clean (rooted k segments) = rooted k segments := by
  rw [clean, Parts.read_rooted hk h, Parts.render]
  exact if_neg (rooted_ne_empty (by omega) _)

theorem rooted_inj {k k' : Nat} {segments segments' : List String} (hk : k = 1 ∨ k = 2) (hk' : k' = 1 ∨ k' = 2)
    (h : ∀ s ∈ segments, IsSegment s) (h' : ∀ s ∈ segments', IsSegment s)
    (hsame : rooted k segments = rooted k' segments') : k = k' ∧ segments = segments' := by
  have hread := congrArg Parts.read hsame
  rw [Parts.read_rooted hk h, Parts.read_rooted hk' h'] at hread
  exact Parts.mk.inj hread

/-- A root behind two slashes is never found to be above a path. -/
theorem isWithin_rooted {k : Nat} {segments way : List String} (hk : k = 1 ∨ k = 2)
    (h : ∀ s ∈ segments ++ way, IsSegment s) :
    isWithin (rooted k segments) (rooted k (segments ++ way)) = decide (k = 1) := by
  have hsegments : ∀ s ∈ segments, IsSegment s := fun s hs => h s (List.mem_append_left _ hs)
  have hrender : (Parts.mk 1 segments).render = rooted 1 segments := if_neg (rooted_ne_empty Nat.one_ne_zero _)
  rw [isWithin, Parts.read_rooted hk hsegments, Parts.read_rooted hk h]
  dsimp only
  rw [hrender, List.isPrefixOf_iff_prefix.mpr (List.prefix_append segments way), Bool.and_true, decide_eq_decide]
  constructor
  · intro hsame
    exact (rooted_inj (.inl rfl) hk hsegments hsegments hsame).1.symm
  · rintro rfl
    rfl

end Path

/-- Whether a walk from a root gets to where some directories lead: none of them is ignored. -/
def Unpruned (rules : List IgnoreRule) (root : String) (directories : List String) : Prop :=
  ∀ above, above ≠ [] → above <+: directories →
    shouldIgnore rules root (Path.join root ("/".intercalate above) ++ "/") = false

section Offering

variable {disk : Disk} {k : Nat} {segments directories : List String} {name : String} {rules : List IgnoreRule}

theorem unpruned_iff (hk : k = 1 ∨ k = 2) (h : ∀ s ∈ segments ++ directories, IsSegment s) :
    Unpruned rules (rooted k segments) directories ↔ ∀ above, above ≠ [] → above <+: directories →
      shouldIgnore rules (rooted k segments) ("/".intercalate above ++ "/") = false := by
  refine forall₃_congr fun above hne habove => ?_
  have habove' : ∀ s ∈ segments ++ above, IsSegment s := fun s hs =>
    h s ((List.prefix_append_right_inj segments).mpr habove |>.subset hs)
  rw [join_way hk (fun s hs => habove' s (List.mem_append_left _ hs))
    (fun s hs => habove' s (List.mem_append_right _ hs)) hne, shouldIgnore_rooted rules hk habove' hne (.inr rfl)]

theorem listFiles_eq (hk : k = 1 ∨ k = 2) (h : ∀ s ∈ segments, IsSegment s)
    (hroot : disk.isDirectory (rooted k segments) = true)
    (hrules : loadIgnoreRules disk (rooted k segments) = .ok rules) :
    listFiles disk (rooted k segments) true =
      .ok ((listFrom disk (shouldIgnore rules (rooted k segments)) segments (disk.entries.length + 1) []).map
        (join (rooted k segments))) := by
  obtain ⟨place, hplace, hat⟩ := Disk.entry?_eq_some.mp (Disk.isDirectory_iff.mp hroot)
  have hplace' := Disk.place_eq hk h hplace
  subst hplace'
  rw [listFiles, if_pos rfl, hrules, clean_rooted hk h, hplace, absolute_eq hk ⟨place, h, rfl⟩]
  exact if_pos (by rw [hat]; rfl)

/-- Of the files below a root those are listed that are not ignored, and to which no ignored directory leads. -/
theorem mem_listFiles_iff (hdisk : disk.Sound) (hk : k = 1 ∨ k = 2)
    (h : ∀ s ∈ segments ++ (directories ++ [name]), IsSegment s)
    (hfile : disk.isFile (rooted k (segments ++ (directories ++ [name]))) = true)
    (hrules : loadIgnoreRules disk (rooted k segments) = .ok rules) :
    ∃ paths, listFiles disk (rooted k segments) true = .ok paths ∧
      (rooted k (segments ++ (directories ++ [name])) ∈ paths ↔
        shouldIgnore rules (rooted k segments) (rooted k (segments ++ (directories ++ [name]))) = false ∧
          Unpruned rules (rooted k segments) directories) := by
  obtain ⟨hentry, hroot, habove⟩ := hdisk.entries_of_isFile hk h hfile
  have hsegments : ∀ s ∈ segments, IsSegment s := fun s hs => h s (List.mem_append_left _ hs)
  have hway : ∀ s ∈ directories ++ [name], IsSegment s := fun s hs => h s (List.mem_append_right _ hs)
  have hseen := shouldIgnore_rooted rules hk h (by simp) (.inl rfl)
  rw [String.append_empty, String.append_empty] at hseen
  have hdirectories : ∀ s ∈ segments ++ directories, IsSegment s := fun s hs => h s (by
    rw [← List.append_assoc]
    exact List.mem_append_left _ hs)
  refine ⟨_, listFiles_eq hk hsegments hroot hrules, ?_⟩
  rw [List.mem_map, hseen, unpruned_iff hk hdirectories]
  constructor
  · rintro ⟨found, hfound, hpath⟩
    obtain ⟨target, last, hwalk, -, ⟨content, hlast⟩, rfl, hkept⟩ := (mem_listFrom_iff _).mp hfound
    have htarget : ∀ s ∈ target ++ [last], IsSegment s := fun s hs =>
      hdisk.named _ hlast s (by rw [List.append_assoc]; exact List.mem_append_right _ hs)
    have hall : ∀ s ∈ segments ++ (target ++ [last]), IsSegment s := fun s hs =>
      hdisk.named _ hlast s (by rwa [List.append_assoc])
    rw [join_way hk hsegments htarget (by simp)] at hpath
    have hsame := List.append_cancel_left (rooted_inj hk hk hall h hpath).2
    obtain ⟨rfl, -⟩ := List.append_inj' hsame rfl
    obtain ⟨rest, hrest, hthrough⟩ := hwalk.through
    rw [List.nil_append] at hrest
    subst hrest
    rw [hsame] at hkept
    exact ⟨hkept, fun above hne habove => (hthrough above hne habove).2⟩
  · rintro ⟨hkept, hunpruned⟩
    have hwalk : Walk disk (shouldIgnore rules (rooted k segments)) segments [] ([] ++ directories) := by
      refine .of_through fun above hne hprefix => ?_
      rw [List.append_nil, List.nil_append]
      exact ⟨habove above hne hprefix, hunpruned above hne hprefix⟩
    have hlength := hwalk.length_le_entries
    refine ⟨_, (mem_listFrom_iff _).mpr ⟨directories, name, hwalk, ?_, hentry, rfl, hkept⟩, ?_⟩
    · rw [List.nil_append] at hlength
      rw [List.length_nil]
      omega
    · exact join_way hk hsegments hway (by simp)

namespace WorkspaceIndex

variable {index : WorkspaceIndex} {files : List FileCandidate} {path : String}

/-- Whether an index has a file. -/
def Offers (index : WorkspaceIndex) (path : String) : Prop :=
  ∃ files, index.files? = some files ∧ ∃ c ∈ files, c.path = path

theorem offers_iff (hfiles : index.files? = some files) : index.Offers path ↔ ∃ c ∈ files, c.path = path := by
  constructor
  · rintro ⟨present, hpresent, hpath⟩
    rw [Option.some.inj (hfiles.symm.trans hpresent)]
    exact hpath
  · exact fun hpath => ⟨files, hfiles, hpath⟩

/-- An index that has not been listed has all that is listed now. -/
theorem offers_build_iff {paths : List String} (hnamed : disk.Named) (hk : k = 1 ∨ k = 2)
    (hroot : Rooted k index.root) (hfiles : index.files? = none) (h : listFiles disk index.root true = .ok paths) :
    ∃ files built, index.build disk = .ok (files, built) ∧ (built.Offers path ↔ path ∈ paths) := by
  have hpaths : ∀ path ∈ paths, (index.candidate disk.cwd path).path = path := fun path hpath => by
    rw [candidate_path, (listFiles_below hnamed hk hroot h path hpath).normal]
  refine ⟨paths.map (index.candidate disk.cwd), { index with files? := some (paths.map (index.candidate disk.cwd)) },
    ?_, ?_⟩
  · rw [build, hfiles]
    dsimp only
    rw [h]
    rfl
  · rw [offers_iff rfl]
    constructor
    · rintro ⟨c, hc, rfl⟩
      obtain ⟨path, hpath, rfl⟩ := List.mem_map.mp hc
      rwa [hpaths path hpath]
    · exact fun hpath => ⟨_, List.mem_map.mpr ⟨path, hpath, rfl⟩, hpaths path hpath⟩

/-- A file that an index is told of is taken in if it is not ignored itself. -/
theorem offers_add_iff {way : List String} (hk : k = 1 ∨ k = 2) (h : ∀ s ∈ segments ++ way, IsSegment s)
    (hroot : index.root = rooted k segments) (hfiles : index.files? = some files)
    (hrules : loadIgnoreRules disk (rooted k segments) = .ok rules) :
    ∃ added, index.add disk (rooted k (segments ++ way)) = .ok added ∧
      (added.Offers (rooted k (segments ++ way)) ↔ index.Offers (rooted k (segments ++ way)) ∨
        k = 1 ∧ shouldIgnore rules (rooted k segments) (rooted k (segments ++ way)) = false) := by
  have hrooted : Rooted k (rooted k (segments ++ way)) := ⟨_, h, rfl⟩
  have hpath : (index.candidate disk.cwd (rooted k (segments ++ way))).path = rooted k (segments ++ way) := by
    rw [candidate_path, hrooted.normalize_eq hk]
  rw [add, hfiles]
  dsimp only
  rw [absolute_eq hk hrooted, hroot, isWithin_rooted hk h, hrules, hpath]
  by_cases hone : k = 1
  · rw [decide_eq_true hone, if_neg (by decide)]
    by_cases hignored : shouldIgnore rules (rooted k segments) (rooted k (segments ++ way)) = true
    · refine ⟨index, if_pos hignored, ?_⟩
      simp [hignored]
    · by_cases hthere : files.any (·.path == rooted k (segments ++ way)) = true
      · have hoffers : index.Offers (rooted k (segments ++ way)) := by
          rw [offers_iff hfiles]
          simpa using hthere
        exact ⟨index, (if_neg hignored).trans (if_pos hthere), iff_of_true hoffers (.inl hoffers)⟩
      · refine ⟨_, (if_neg hignored).trans (if_neg hthere), iff_of_true ?_ (.inr ⟨hone, by simpa using hignored⟩)⟩
        rw [offers_iff rfl]
        exact ⟨_, List.mem_append_right _ (List.mem_singleton_self _), hpath⟩
  · refine ⟨index, if_pos (by rw [decide_eq_false hone]; rfl), ?_⟩
    simp [hone]

end WorkspaceIndex

end Offering

theorem add_error {disk : Disk} {segments way : List String} {index : WorkspaceIndex} {failure : Failure}
    (h : ∀ s ∈ segments ++ way, IsSegment s) (hroot : index.root = rooted 1 segments)
    (hbuilt : index.isBuilt = true) (hrules : loadIgnoreRules disk (rooted 1 segments) = .error failure) :
    index.add disk (rooted 1 (segments ++ way)) = .error failure := by
  have hone : 1 = 1 ∨ 1 = 2 := .inl rfl
  obtain ⟨files, hfiles⟩ := Option.isSome_iff_exists.mp hbuilt
  rw [WorkspaceIndex.add, hfiles]
  dsimp only
  rw [absolute_eq hone ⟨_, h, rfl⟩, hroot, isWithin_rooted hone h, hrules]
  rfl

/-- Of a file below the root of a workspace: a listing has it, and so has an index that is listed now, exactly if the
file is not ignored and neither is a directory on the way to it. An index that is told of the file has it,
unless it had it before, exactly if the file itself is not ignored and its root stands behind one slash. Where the rules
cannot be read, listing fails, and so does adding. -/
theorem listed_and_added {disk : Disk} {k : Nat} {segments directories : List String} {name root path : String}
    (hdisk : disk.Sound) (hk : k = 1 ∨ k = 2) (hsegments : ∀ s ∈ segments ++ (directories ++ [name]), IsSegment s)
    (hroot : root = rooted k segments) (hpath : path = rooted k (segments ++ (directories ++ [name])))
    (hfile : disk.isFile path = true) :
    (∀ failure, loadIgnoreRules disk root = .error failure →
      listFiles disk root true = .error failure ∧
        ∀ index : WorkspaceIndex, index.root = root → index.isBuilt = true → k = 1 →
          index.add disk path = .error failure) ∧
    ∀ rules, loadIgnoreRules disk root = .ok rules →
      (∃ paths, listFiles disk root true = .ok paths ∧
        (path ∈ paths ↔ shouldIgnore rules root path = false ∧ Unpruned rules root directories)) ∧
      (∀ fresh : WorkspaceIndex, fresh.root = root → fresh.isBuilt = false →
        ∃ files built, fresh.build disk = .ok (files, built) ∧
          (built.Offers path ↔ shouldIgnore rules root path = false ∧ Unpruned rules root directories)) ∧
      ∀ index : WorkspaceIndex, index.root = root → index.isBuilt = true →
        ∃ added, index.add disk path = .ok added ∧
          (added.Offers path ↔ index.Offers path ∨ k = 1 ∧ shouldIgnore rules root path = false) := by
  subst hroot hpath
  have hsegments' : ∀ s ∈ segments, IsSegment s := fun s hs => hsegments s (List.mem_append_left _ hs)
  refine ⟨fun failure hrules => ⟨by rw [listFiles, if_pos rfl, hrules]; rfl, ?_⟩, fun rules hrules => ?_⟩
  · rintro index hroot hbuilt rfl
    exact add_error hsegments hroot hbuilt hrules
  · obtain ⟨paths, hlist, hlisted⟩ := mem_listFiles_iff hdisk hk hsegments hfile hrules
    refine ⟨⟨paths, hlist, hlisted⟩, fun fresh hroot hbuilt => ?_, fun index hroot hbuilt => ?_⟩
    · have hfiles : fresh.files? = none := by simpa [WorkspaceIndex.isBuilt] using hbuilt
      obtain ⟨files, built, hbuild, hoffers⟩ := WorkspaceIndex.offers_build_iff hdisk.named hk
        (hroot ▸ ⟨segments, hsegments', rfl⟩) hfiles (hroot ▸ hlist)
      exact ⟨files, built, hbuild, hoffers.trans hlisted⟩
    · obtain ⟨files, hfiles⟩ := Option.isSome_iff_exists.mp hbuilt
      exact WorkspaceIndex.offers_add_iff hk hsegments hroot hfiles hrules

/-- A workspace with rules and two files in its directory `lib`. -/
def ruledLib (rules : String) : Disk where
  cwd := "/ws"
  entries := [(["ws"], .directory), (["ws", ".quickenignore"], .file (Utf8.encode rules)),
    (["ws", "lib"], .directory), (["ws", "lib", "keep.js"], .file []), (["ws", "lib", "drop.js"], .file [])]

theorem ruledLib_sound (rules : String) : (ruledLib rules).Sound := by
  refine ⟨fun entry hentry s hs => ?_, by simp [ruledLib]⟩
  have hname : s ∈ ["ws", ".quickenignore", "lib", "keep.js", "drop.js"] := by
    simp only [ruledLib, List.mem_cons, List.not_mem_nil, or_false] at hentry
    rcases hentry with rfl | rfl | rfl | rfl | rfl <;> simp at hs ⊢ <;> tauto
  simp only [List.mem_cons, List.not_mem_nil, or_false] at hname
  rcases hname with rfl | rfl | rfl | rfl | rfl <;>
    exact ⟨by decide +kernel, by decide +kernel, by decide +kernel, by decide +kernel⟩

/-- The index of a workspace that has been listed without its directory `lib`. -/
def ruledIndex : WorkspaceIndex :=
  { WorkspaceIndex.create "/ws" "/ws" {} .javascript with files? := some [] }

/-- A file that is taken back in is listed and added if only what its directory has is ignored, and not the
directory itself. -/
theorem kept_file_listed_and_added :
    (∃ paths, listFiles (ruledLib "lib/*\n!lib/keep.js\n") "/ws" true = .ok paths ∧ "/ws/lib/keep.js" ∈ paths) ∧
      ∃ added, ruledIndex.add (ruledLib "lib/*\n!lib/keep.js\n") "/ws/lib/keep.js" = .ok added ∧
        added.Offers "/ws/lib/keep.js" := by
  have hread : (loadIgnoreRules (ruledLib "lib/*\n!lib/keep.js\n") "/ws").map (fun rules =>
      (shouldIgnore rules "/ws" "/ws/lib/keep.js", shouldIgnore rules "/ws" "/ws/lib/")) = .ok (false, false) := by
    decide +kernel
  cases hrules : loadIgnoreRules (ruledLib "lib/*\n!lib/keep.js\n") "/ws" with
  | error failure =>
      rw [hrules] at hread
      cases hread
  | ok rules =>
      rw [hrules] at hread
      obtain ⟨hkept, hdirectory⟩ := Prod.mk.inj (Except.ok.inj hread)
      have hunpruned : Unpruned rules "/ws" ["lib"] := by
        intro above hne habove
        obtain rfl | ⟨more, rfl, hmore⟩ := List.prefix_cons_iff.mp habove
        · exact absurd rfl hne
        · rw [List.prefix_nil.mp hmore]
          exact hdirectory
      have hsegments : ∀ s ∈ ["ws"] ++ (["lib"] ++ ["keep.js"]), IsSegment s := fun s hs =>
        (ruledLib_sound "").named (["ws", "lib", "keep.js"], .file []) (by simp [ruledLib]) s hs
      obtain ⟨⟨paths, hlist, hlisted⟩, -, hadd⟩ := (listed_and_added (ruledLib_sound _) (.inl rfl) hsegments rfl rfl
        (by decide +kernel)).2 rules hrules
      obtain ⟨added, hadded, hoffers⟩ := hadd ruledIndex (by decide +kernel) rfl
      exact ⟨⟨paths, hlist, hlisted.mpr ⟨hkept, hunpruned⟩⟩, added, hadded, hoffers.mpr (.inr ⟨rfl, hkept⟩)⟩

/-- A file that is taken back in from an ignored directory is not listed, but it is added. -/
theorem pruned_file_added :
    (loadIgnoreRules (ruledLib "lib/\n!lib/keep.js\n") "/ws").map (shouldIgnore · "/ws" "/ws/lib/keep.js") =
        .ok false ∧
      listFiles (ruledLib "lib/\n!lib/keep.js\n") "/ws" true = .ok ["/ws/.quickenignore"] ∧
      (ruledIndex.add (ruledLib "lib/\n!lib/keep.js\n") "/ws/lib/keep.js").map (·.files?.map (·.map (·.path))) =
        .ok (some ["/ws/lib/keep.js"]) :=
  ⟨by decide +kernel, by decide +kernel, by decide +kernel⟩

end ImportAssist
