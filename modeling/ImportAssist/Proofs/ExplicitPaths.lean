import ImportAssist.Proofs.ImportPaths

/-!
# Import paths that loaders take for relative ones

A loader takes a path for a relative one if it starts with a whole segment of one or two dots, and for the name of
a package if it does not. A path that has nothing in front of a hidden name starts with a dot all the same.

So whether an import path is taken for what it is depends on where the file lies: it is, unless the way leads down
from the directory into a hidden directory, or to a hidden file (`import_path_isExplicit_iff`). What the path leaves
out of the name makes no difference.
-/

namespace ImportAssist

namespace Path

/-! ## First pieces -/

/-- A path that cannot be the name of a package. -/
def IsExplicit (path : String) : Prop :=
  path = "." ∨ path = ".." ∨ "./".toList <+: path.toList ∨ "../".toList <+: path.toList

instance (path : String) : Decidable (IsExplicit path) :=
  inferInstanceAs (Decidable (_ ∨ _ ∨ _ ∨ _))

/-- What stands in front of the first slash. -/
def firstPiece (cs : List Char) : List Char := cs.takeWhile (· != '/')

variable {cs front back s : List Char} {path : String}

theorem firstPiece_append_of_mem (h : '/' ∈ front) : firstPiece (front ++ back) = firstPiece front := by
  unfold firstPiece
  rw [List.takeWhile_append, if_neg]
  intro hlength
  have hall := (List.takeWhile_prefix (· != '/')).eq_of_length hlength
  exact absurd (List.takeWhile_eq_self_iff.mp hall '/' h) (by decide)

theorem firstPiece_of_notMem (h : '/' ∉ cs) : firstPiece cs = cs :=
  List.takeWhile_eq_self_iff.mpr fun c hc => by simpa using fun e : c = '/' => h (e ▸ hc)

theorem firstPiece_append_cons (h : '/' ∉ s) : firstPiece (s ++ '/' :: back) = s := by
  rw [List.append_cons, firstPiece_append_of_mem (by simp)]
  unfold firstPiece
  rw [List.takeWhile_append_of_pos fun c hc => by simpa using fun e : c = '/' => h (e ▸ hc)]
  simp

theorem firstPiece_append_slashes (n : Nat) : firstPiece (cs ++ List.replicate n '/') = firstPiece cs := by
  by_cases hslash : '/' ∈ cs
  · exact firstPiece_append_of_mem hslash
  · cases n with
    | zero => rw [List.replicate_zero, List.append_nil]
    | succ n => rw [List.replicate_succ, firstPiece_append_cons hslash, firstPiece_of_notMem hslash]

theorem firstPiece_eq_iff (hs : '/' ∉ s) : firstPiece cs = s ↔ cs = s ∨ s ++ ['/'] <+: cs := by
  constructor
  · intro hfirst
    have hcs := List.takeWhile_append_dropWhile (p := (· != '/')) (l := cs)
    have hhead := List.head?_dropWhile_not (· != '/') cs
    rw [firstPiece] at hfirst
    rw [hfirst] at hcs
    cases hrest : cs.dropWhile (· != '/') with
    | nil =>
        rw [hrest, List.append_nil] at hcs
        exact .inl hcs.symm
    | cons c rest =>
        rw [hrest] at hcs hhead
        obtain rfl : c = '/' := by simpa using hhead
        exact .inr ⟨rest, by rw [← hcs, List.append_assoc, List.singleton_append]⟩
  · rintro (rfl | ⟨rest, rfl⟩)
    · exact firstPiece_of_notMem hs
    · rw [List.append_assoc, List.singleton_append, firstPiece_append_cons hs]

theorem isExplicit_iff :
    IsExplicit path ↔ firstPiece path.toList = ['.'] ∨ firstPiece path.toList = ['.', '.'] := by
  have hdot : path = "." ↔ path.toList = ['.'] := String.toList_inj.symm
  have hdots : path = ".." ↔ path.toList = ['.', '.'] := String.toList_inj.symm
  rw [IsExplicit, hdot, hdots, firstPiece_eq_iff (by decide), firstPiece_eq_iff (by decide), or_assoc, or_left_comm]
  constructor <;> tauto

/-! ## The first step of a way -/

variable {segments here : List String} {cwd start : String} {k : Nat}

theorem sharedLength_append (rest : List String) : ∀ here : List String,
    sharedLength here (here ++ rest) = here.length
  | [] => by simp [sharedLength]
  | a :: here => by rw [List.cons_append, sharedLength, if_pos rfl, sharedLength_append rest here, List.length_cons]

theorem wayTo_append (here rest : List String) : wayTo here (here ++ rest) = rest := by
  rw [wayTo, sharedLength_append, Nat.sub_self, List.replicate_zero, List.drop_left, List.nil_append]

/-- The way to what does not lie below a directory leads up first. -/
theorem wayTo_up (h : ¬ here <+: segments) : ∃ rest, wayTo here segments = ".." :: rest := by
  have hle := sharedLength_le_left here segments
  have hne : sharedLength here segments ≠ here.length := by
    intro heq
    have htake := take_sharedLength here segments
    rw [heq, List.take_length] at htake
    exact h (htake ▸ List.take_prefix _ _)
  obtain ⟨n, hn⟩ : ∃ n, here.length - sharedLength here segments = n + 1 :=
    ⟨here.length - sharedLength here segments - 1, by omega⟩
  exact ⟨_, by rw [wayTo, hn, List.replicate_succ, List.cons_append]⟩

theorem slashed_singleton (s : String) : slashed [s] = s.toList := by simp [slashed]

theorem firstPiece_slashed {s : String} (hs : IsStep s) (way : List String) :
    firstPiece (slashed (s :: way)) = s.toList := by
  cases way with
  | nil => rw [slashed_singleton, firstPiece_of_notMem hs.no_slash]
  | cons t way => rw [slashed_cons_cons, firstPiece_append_cons hs.no_slash]

theorem head?_slashed_cons {s : String} (hs : IsStep s) (way : List String) :
    (slashed (s :: way)).head? = s.toList.head? := by
  obtain ⟨c, rest, hc⟩ := List.exists_cons_of_ne_nil (mt String.toList_eq_nil_iff.1 hs.ne_empty)
  cases way with
  | nil => rw [slashed_singleton]
  | cons t way => rw [slashed_cons_cons, hc]; rfl

theorem mem_wayTo {s : String} (h : s ∈ wayTo here segments) : s = ".." ∨ s ∈ segments :=
  (List.mem_append.mp h).imp List.eq_of_mem_replicate List.mem_of_mem_drop

section Written

variable (hk : k = 1 ∨ k = 2) (hsegments : ∀ s ∈ segments, IsSegment s)
  (hslashes : ∀ s ∈ segments, '\\' ∉ s.toList)

include hk hsegments hslashes

/-- An import path is its way, in front of which a dot stands unless the first step starts with one. -/
theorem toList_importPath {s : String} {way : List String}
    (hway : wayTo (rootSegments cwd start) segments = s :: way) :
    (importPath cwd (rooted k segments) start).toList =
      if s.toList.head? = some '.' then slashed (s :: way) else '.' :: '/' :: slashed (s :: way) := by
  have hstep : ∀ t ∈ s :: way, IsStep t := hway ▸ wayTo_isStep hsegments
  have hnone : ∀ t ∈ s :: way, '\\' ∉ t.toList := by
    intro t ht
    rcases mem_wayTo (hway ▸ ht) with rfl | hmem
    · decide
    · exact hslashes t hmem
  have hs := hstep s (List.mem_cons_self ..)
  have hhead := head?_slashed_cons hs way
  have hne : slashed (s :: way) ≠ [] := by
    intro hnil
    rw [hnil, List.head?_nil, eq_comm, List.head?_eq_none_iff] at hhead
    exact hs.ne_empty (String.toList_eq_nil_iff.1 hhead)
  have htext : (toSlashes (Parts.mk 0 (s :: way)).render).toList = slashed (s :: way) := by
    rw [toList_toSlashes, toList_relative rfl hne, map_toSlashes_eq (no_backslash_slashed hnone)]
  have hslash : s.toList.head? ≠ some '/' := fun h => hs.no_slash (List.mem_of_mem_head? h)
  rw [importPath, relative_rooted hk hsegments, hway, htext, hhead]
  by_cases hdot : s.toList.head? = some '.'
  · rw [if_pos (by simp [hdot]), if_pos hdot, htext]
  · rw [if_neg (by simp [hdot, hslash]), if_neg hdot, String.toList_append, htext]
    rfl

/-- An import path starts with dots alone, or with the hidden name of what lies directly below the directory. -/
theorem firstPiece_importPath :
    (firstPiece (importPath cwd (rooted k segments) start).toList = ['.'] ∨
      firstPiece (importPath cwd (rooted k segments) start).toList = ['.', '.']) ∧
        (∀ s rest, segments = rootSegments cwd start ++ s :: rest → s.toList.head? ≠ some '.') ∨
      ∃ s rest, segments = rootSegments cwd start ++ s :: rest ∧ s.toList.head? = some '.' ∧
        (importPath cwd (rooted k segments) start).toList = slashed (s :: rest) := by
  by_cases hbelow : rootSegments cwd start <+: segments
  · obtain ⟨way, hway⟩ := hbelow
    have hto : wayTo (rootSegments cwd start) segments = way := by rw [← hway, wayTo_append]
    cases way with
    | nil =>
        refine .inl ⟨.inl ?_, fun s rest heq => ?_⟩
        · rw [importPath, relative_rooted hk hsegments, hto]
          rfl
        · rw [← hway] at heq
          cases List.append_cancel_left heq
    | cons s rest =>
        have htext := toList_importPath hk hsegments hslashes hto
        by_cases hdot : s.toList.head? = some '.'
        · rw [if_pos hdot] at htext
          exact .inr ⟨s, rest, hway.symm, hdot, htext⟩
        · rw [if_neg hdot] at htext
          refine .inl ⟨.inl ?_, fun t more heq => ?_⟩
          · rw [htext]
            exact firstPiece_append_cons (s := ['.']) (by decide)
          · rw [← hway] at heq
            obtain ⟨rfl, -⟩ := List.cons.inj (List.append_cancel_left heq)
            exact hdot
  · obtain ⟨rest, hup⟩ := wayTo_up hbelow
    have htext := toList_importPath hk hsegments hslashes hup
    rw [if_pos (by decide)] at htext
    refine .inl ⟨.inr ?_, fun s more heq => absurd ⟨_, heq.symm⟩ hbelow⟩
    rw [htext, firstPiece_slashed ⟨by decide, by decide, by decide⟩]
    decide

end Written

/-! ## Paths that leave something out -/

theorem stripExtension_cases (path ext : String) :
    stripExtension path ext = path ∨ path.toList = (stripExtension path ext).toList ++ '.' :: ext.toList := by
  by_cases hends : ext ≠ "" ∧ '.' :: ext.toList <:+ path.toList
  · obtain ⟨hne, cs, hcs⟩ := hends
    exact .inr (by rw [toList_stripExtension hne hcs.symm, hcs])
  · refine .inl (if_neg ?_)
    rw [Bool.and_eq_true, decide_eq_true_eq, List.isSuffixOf_iff_suffix]
    exact hends

theorem firstPiece_stripExtension {path ext : String} (hext : '/' ∉ ext.toList) (hslash : '/' ∈ path.toList) :
    firstPiece (stripExtension path ext).toList = firstPiece path.toList := by
  rcases stripExtension_cases path ext with heq | hcut
  · rw [heq]
  · have hmem : '/' ∈ (stripExtension path ext).toList := by
      rw [hcut, List.mem_append, List.mem_cons] at hslash
      exact hslash.resolve_right fun h => h.elim (by decide) hext
    rw [hcut, firstPiece_append_of_mem hmem]

/-- An extension that starts with no dot is none of dots. -/
theorem stripExtension_dots {path ext : String} (hne : ext ≠ "") (hext : IsExtension ext)
    (hpath : path.toList = ['.'] ∨ path.toList = ['.', '.']) : stripExtension path ext = path := by
  refine (stripExtension_cases path ext).resolve_right fun hcut => ?_
  obtain ⟨c, rest, hc⟩ := List.exists_cons_of_ne_nil (mt String.toList_eq_nil_iff.1 hne)
  have hdot : c ≠ '.' := fun heq => hext.no_dot (by rw [hc, heq]; rfl)
  have hmem : c ∈ path.toList := by rw [hcut, hc]; simp
  rcases hpath with hpath | hpath <;>
    · rw [hpath] at hmem
      exact hdot (by simpa using hmem)

theorem exists_last_slash (h : '/' ∈ cs) : ∃ front name, cs = front ++ '/' :: name ∧ '/' ∉ name := by
  obtain ⟨back, front, hcs, hback⟩ := List.eq_append_cons_of_mem (List.mem_reverse.mpr h)
  refine ⟨front.reverse, back.reverse, ?_, fun hmem => hback (List.mem_reverse.mp hmem)⟩
  rw [← List.reverse_reverse cs, hcs]
  simp

theorem firstPiece_stripLastSegment (hslash : '/' ∈ path.toList) :
    firstPiece (stripLastSegment path).toList = firstPiece path.toList := by
  obtain ⟨front, name, hpath, hname⟩ := exists_last_slash hslash
  obtain ⟨n, hslashes⟩ := stripLastSegment_append_slashes hname hpath
  have hfront : firstPiece (front ++ '/' :: name) = firstPiece (front ++ ['/']) := by
    rw [List.append_cons, firstPiece_append_of_mem (by simp)]
  rw [← firstPiece_append_slashes n, hslashes, hpath, hfront]

theorem not_isExplicit_of_segment {s : String} (hs : IsSegment s) (h : firstPiece path.toList = s.toList) :
    ¬ IsExplicit path := by
  rw [isExplicit_iff, h, not_or]
  exact ⟨fun hdot => hs.ne_dot (String.toList_inj.1 hdot), fun hdots => hs.ne_dots (String.toList_inj.1 hdots)⟩

end Path

open ImportAssist.Path

namespace FileCandidate

variable {c : FileCandidate} {k : Nat} {segments : List String} {cwd start : String}

/-- The name of an index file is not hidden. -/
theorem head?_of_throughDirectory (h : c.throughDirectory = true) : (fileName c.path).toList.head? = some 'i' := by
  have hindex := (Bool.and_eq_true_iff.mp h).2
  rw [isIndex, Family.isIndexName] at hindex
  split at hindex
  · rename_i first last hsplit
    have hjoin := @List.intercalate_splitOn _ (fileName c.path).toList _ _ '.'
    have hpieces := congrArg (List.map String.toList) hsplit
    rw [List.map_map, of_decide_eq_true (Bool.and_eq_true_iff.mp hindex).1] at hpieces
    simp only [Function.comp_def, String.toList_ofList, List.map_id'] at hpieces
    rw [← hjoin, hpieces]
    rfl
  · cases hindex

/-- What an import path leaves out makes no difference to its start. -/
theorem isExplicit_pathFrom (hk : k = 1 ∨ k = 2) (hsegments : ∀ s ∈ segments, IsSegment s)
    (hslashes : ∀ s ∈ segments, '\\' ∉ s.toList) (hpath : c.path = rooted k segments) :
    IsExplicit (c.pathFrom cwd start) ↔ IsExplicit (importPath cwd c.path start) := by
  have hext := isExtension_extension c.path
  unfold pathFrom
  dsimp only
  by_cases hslash : '/' ∈ (importPath cwd c.path start).toList
  · rw [isExplicit_iff, isExplicit_iff]
    split
    · rw [firstPiece_stripLastSegment hslash]
    · split
      · rw [firstPiece_stripExtension hext.no_slash hslash]
      · exact Iff.rfl
  · have hfirst := firstPiece_of_notMem hslash
    rcases @firstPiece_importPath segments cwd start k hk hsegments hslashes with ⟨hdots, -⟩ |
      ⟨s, rest, hbelow, hdot, htext⟩
    · rw [← hpath, hfirst] at hdots
      refine iff_of_true ?_ (isExplicit_iff.mpr (by rwa [hfirst]))
      split
      · rw [stripLastSegment_name hslash]
        exact .inl rfl
      · split
        · rename_i hwithout
          have hne := extension_ne_of_inFamily (inFamily_of_withoutExtension hwithout)
          rw [stripExtension_dots hne hext hdots, isExplicit_iff, hfirst]
          exact hdots
        · rw [isExplicit_iff, hfirst]
          exact hdots
    · -- The path is the name of the file alone, and stays it but for the extension.
      rw [← hpath] at htext
      cases rest with
      | cons t rest =>
          rw [htext, slashed_cons_cons] at hslash
          exact absurd (List.mem_append_right _ (List.mem_cons_self ..)) hslash
      | nil =>
          have hs : IsSegment s := hsegments s (by simp [hbelow])
          have hname : fileName c.path = s := by rw [hpath, hbelow, fileName_rooted hk hs.no_slash]
          rw [slashed_singleton] at htext
          refine iff_of_false ?_ (not_isExplicit_of_segment hs (by rw [hfirst, htext]))
          split
          · rename_i hthrough
            have hindex := head?_of_throughDirectory hthrough
            rw [hname, hdot] at hindex
            cases hindex
          · split
            · rename_i hwithout
              have hfamily := inFamily_of_withoutExtension hwithout
              have hstem := stem_isSegment hname hs.no_slash hfamily
              have hparts := (stem_append hname hfamily).1
              refine not_isExplicit_of_segment hstem ?_
              rw [toList_stripExtension (extension_ne_of_inFamily hfamily) (htext.trans hparts),
                firstPiece_of_notMem hstem.no_slash]
            · exact not_isExplicit_of_segment hs (by rw [hfirst, htext])

end FileCandidate

/-! ## Hidden names -/

namespace Path

/-- The normal spelling of an absolute path, taken apart. -/
theorem exists_rooted_normalize {path : String} (h : isAbsolute path = true) (hslashes : '\\' ∉ path.toList)
    (cwd : String) : ∃ k segments, (k = 1 ∨ k = 2) ∧ (∀ s ∈ segments, IsSegment s) ∧
      (∀ s ∈ segments, '\\' ∉ s.toList) ∧ normalize path = rooted k segments ∧ rootSegments cwd path = segments := by
  have hk := leadingSlashes_of_isAbsolute h
  have hk0 : leadingSlashes path ≠ 0 := by omega
  have hnormal : normalize path = rooted (leadingSlashes path) (Parts.read path).resolve.segments := by
    rw [normalize, Parts.render]
    exact if_neg (rooted_ne_empty hk0 _)
  have hsegments : ∀ s ∈ (Parts.read path).resolve.segments, IsSegment s :=
    resolve_isSegment hk0 fun s hs =>
      ⟨(read_isStep path s hs).ne_empty, (read_isStep path s hs).ne_dot, (read_isStep path s hs).no_slash⟩
  refine ⟨_, _, hk, hsegments, fun s hs hmem => ?_, hnormal, ?_⟩
  · rcases mem_foldl_push _ (List.mem_reverse.mp hs) with hs | hs
    · cases hs
    · exact hslashes (slashed_pieces path ▸ mem_slashed (List.mem_filter.mp hs).1 hmem)
  · rw [rootSegments, absolute, if_pos h, hnormal, Parts.read_rooted hk hsegments]

/-- A file lies below a directory, and the first step of the way to it is hidden. -/
def HiddenBelow (cwd file start : String) : Prop :=
  ∃ s rest, rootSegments cwd file = rootSegments cwd start ++ s :: rest ∧ s.toList.head? = some '.'

theorem isExplicit_importPath {k : Nat} {segments : List String} {cwd file start : String} (hk : k = 1 ∨ k = 2)
    (hsegments : ∀ s ∈ segments, IsSegment s) (hslashes : ∀ s ∈ segments, '\\' ∉ s.toList)
    (hfile : rootSegments cwd file = segments) :
    IsExplicit (importPath cwd (rooted k segments) start) ↔ ¬ HiddenBelow cwd file start := by
  rcases @firstPiece_importPath segments cwd start k hk hsegments hslashes with ⟨hdots, hnot⟩ |
    ⟨s, rest, hbelow, hdot, htext⟩
  · refine iff_of_true (isExplicit_iff.mpr hdots) ?_
    rintro ⟨s, rest, hbelow, hdot⟩
    exact hnot s rest (hfile.symm.trans hbelow) hdot
  · have hs : IsSegment s := hsegments s (by simp [hbelow])
    refine iff_of_false (not_isExplicit_of_segment hs ?_) (not_not_intro ⟨s, rest, hfile.trans hbelow, hdot⟩)
    rw [htext, firstPiece_slashed hs.isStep]

end Path

/-- The import path of a file is taken for a relative one unless the way to the file leads down from the directory
and its first step is hidden. So is the path that goes with the name of a binding, whatever the options leave out. -/
theorem import_path_isExplicit_iff {cwd root file start : String} {options : Options} {family : Family}
    (hfile : isAbsolute file = true) (hslashes : '\\' ∉ file.toList) :
    (IsExplicit (importPath cwd (normalize file) start) ↔ ¬ HiddenBelow cwd file start) ∧
      ∀ c, c = FileCandidate.create cwd root options family file → ∀ name path,
        c.nameAndPath cwd start = .ok (name, path) → (IsExplicit path ↔ ¬ HiddenBelow cwd file start) := by
  obtain ⟨k, segments, hk, hsegments, hnone, hnormal, hplace⟩ := exists_rooted_normalize hfile hslashes cwd
  have hown : IsExplicit (importPath cwd (normalize file) start) ↔ ¬ HiddenBelow cwd file start := by
    rw [hnormal]
    exact isExplicit_importPath hk hsegments hnone hplace
  refine ⟨hown, fun c hc name path hname => ?_⟩
  have hpath : c.path = normalize file := by rw [hc, FileCandidate.create]
  rw [FileCandidate.nameAndPath_snd hname, FileCandidate.isExplicit_pathFrom hk hsegments hnone (hpath.trans hnormal),
    hpath]
  exact hown

/-- The hidden directory is not on the way from inside it. -/
theorem inside_hidden_directory :
    isAbsolute "/ws/.cfg/./lint.js" = true ∧ '\\' ∉ "/ws/.cfg/./lint.js".toList ∧
      FileCandidate.nameAndPath "/" (.create "/" "/ws" {} .javascript "/ws/.cfg/./lint.js") "/ws/.cfg" =
        .ok ("lint", "./lint") ∧
      IsExplicit (importPath "/" (normalize "/ws/.cfg/./lint.js") "/ws/.cfg") ∧ IsExplicit "./lint" := by
  have hfile : isAbsolute "/ws/.cfg/./lint.js" = true := by decide +kernel
  have hslashes : '\\' ∉ "/ws/.cfg/./lint.js".toList := by decide +kernel
  have hname : FileCandidate.nameAndPath "/" (.create "/" "/ws" {} .javascript "/ws/.cfg/./lint.js") "/ws/.cfg" =
      .ok ("lint", "./lint") := by decide +kernel
  have hnot : ¬ HiddenBelow "/" "/ws/.cfg/./lint.js" "/ws/.cfg" := by
    have hplace : rootSegments "/" "/ws/.cfg/./lint.js" = rootSegments "/" "/ws/.cfg" ++ ["lint.js"] := by
      decide +kernel
    rintro ⟨s, rest, hbelow, hdot⟩
    obtain ⟨rfl, -⟩ := List.cons.inj (List.append_cancel_left (hplace.symm.trans hbelow))
    exact absurd hdot (by decide)
  have hexplicit := @import_path_isExplicit_iff "/" "/ws" _ "/ws/.cfg" {} .javascript hfile hslashes
  exact ⟨hfile, hslashes, hname, hexplicit.1.mpr hnot, (hexplicit.2 _ rfl _ _ hname).mpr hnot⟩

/-- Nothing stands in front of a hidden file of the directory itself, whose path is taken for the name of a package. -/
theorem hidden_file_not_explicit :
    isAbsolute "/ws/.setup.js" = true ∧ '\\' ∉ "/ws/.setup.js".toList ∧
      importPath "/" (normalize "/ws/.setup.js") "/ws" = ".setup.js" ∧ ¬ IsExplicit ".setup.js" ∧
      FileCandidate.nameAndPath "/" (.create "/" "/ws" {} .javascript "/ws/.setup.js") "/ws" =
        .ok ("setup", ".setup") ∧ ¬ IsExplicit ".setup" :=
  ⟨by decide +kernel, by decide +kernel, by decide +kernel, by decide +kernel, by decide +kernel, by decide +kernel⟩

end ImportAssist
