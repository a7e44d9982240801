import ImportAssist.Proofs.ImportTargets

/-!
# What import paths denote

Resolved in the directory it was made for, the import path of a file denotes that file, the file without its
extension, or its directory, by what the path shows of the name (`import_path_leads_back`). It never ends in a
slash, so the imports of a document are compared with it as it is.

What a path leaves out has to be found again on the disk. A module is found by its import path unless the disk has
something else under what the path shows (`import_path_finds_file`).
-/

namespace ImportAssist

open ImportAssist.Path

namespace Path

/-! ## The ends of a path -/

/-- The text of a way starts with the first character of its first step. -/
theorem slashed_cons {s : String} (hs : IsStep s) (way : List String) :
    ∃ first rest, first ≠ '/' ∧ slashed (s :: way) = first :: rest := by
  obtain ⟨first, rest, hfirst⟩ := List.exists_cons_of_ne_nil (mt String.toList_eq_nil_iff.1 hs.ne_empty)
  have hne : first ≠ '/' := fun heq => hs.no_slash (by simp [hfirst, heq])
  cases way with
  | nil => exact ⟨first, rest, hne, by simpa [slashed] using hfirst⟩
  | cons t way => exact ⟨first, rest ++ '/' :: slashed (t :: way), hne, by rw [slashed_cons_cons, hfirst]; rfl⟩

theorem head?_approach {way : List String} (hstep : ∀ s ∈ way, IsStep s)
    (hslashes : ∀ s ∈ way, '\\' ∉ s.toList) : (approach way).head? = some '.' := by
  have htext : (toSlashes (String.ofList (slashed way))).toList = slashed way := by
    rw [toList_toSlashes, String.toList_ofList, map_toSlashes_eq (no_backslash_slashed hslashes)]
  unfold approach
  cases way with
  | nil => rfl
  | cons s way =>
      obtain ⟨first, rest, hne, hfirst⟩ := slashed_cons (hstep s (List.mem_cons_self ..)) way
      rw [if_neg (List.cons_ne_nil _ _), htext, hfirst]
      dsimp only
      split
      · rename_i hhead
        rcases hhead with hdot | hslash
        · exact hdot
        · exact absurd (Option.some.inj hslash) hne
      · rfl

/-- Unless it starts with a slash, a path is left without one at its end when its last segment is dropped. -/
theorem getLast?_directory {path : String} (h : path.toList.head? ≠ some '/') :
    (directory path).toList.getLast? ≠ some '/' := by
  unfold directory
  dsimp only
  rw [String.toList_ofList, List.getLast?_reverse]
  split
  · rename_i hslashes
    intro hfirst
    have hne : path.toList.reverse.dropWhile (· != '/') ≠ [] := fun hnil => by simp [hnil] at hfirst
    have hlast := getLast?_dropWhile hne
    obtain ⟨last, hfound⟩ := Option.isSome_iff_exists.mp (List.getLast?_isSome.mpr hne)
    have hslash := List.dropWhile_eq_nil_iff.mp (List.isEmpty_iff.mp hslashes) last
      (List.mem_of_getLast? hfound)
    rw [hfound, List.getLast?_reverse] at hlast
    exact h (by rw [← hlast, beq_iff_eq.mp hslash])
  · intro hfirst
    have hnot := List.head?_dropWhile_not (· == '/') (path.toList.reverse.dropWhile (· != '/'))
    rw [hfirst] at hnot
    simp at hnot

theorem stripLastSegment_ends {path : String} (h : path.toList.head? ≠ some '/') :
    stripLastSegment path ≠ "" ∧ (stripLastSegment path).toList.getLast? ≠ some '/' := by
  unfold stripLastSegment
  dsimp only
  split
  · exact ⟨by decide, by decide⟩
  · rename_i hne
    exact ⟨hne, getLast?_directory h⟩

theorem getLast?_append_segment (front : List Char) {s : String} (hs : IsSegment s) :
    (front ++ s.toList).getLast? ≠ some '/' := by
  have hne : s.toList ≠ [] := mt String.toList_eq_nil_iff.1 hs.ne_empty
  rw [List.getLast?_append, List.getLast?_eq_some_getLast hne]
  intro hlast
  exact hs.no_slash (Option.some.inj hlast ▸ List.getLast_mem hne)

end Path

/-- Only a slash at its end is trimmed off a path. -/
theorem trimSlash_eq {path : String} (h : path.toList.getLast? ≠ some '/') : trimSlash path = path := by
  rw [trimSlash]
  exact if_neg (by simp [h])

namespace FileCandidate

variable {c : FileCandidate} {k : Nat} {segments : List String} {name cwd start : String}

namespace Placed

theorem head?_importPath (h : c.Placed cwd start k segments name) :
    (importPath cwd c.path start).toList.head? = some '.' := by
  have happroach := head?_approach (wayTo_isStep h.segments_isSegment) h.way_no_backslash
  rw [h.path_eq]
  rcases importPath_file h.slashes h.isSegment (h.no_backslash name (by simp)) h.notAbove with
    hpath | ⟨hhead, -, hpath⟩
  · rw [hpath, List.head?_append, happroach]
    rfl
  · rw [hpath, hhead]

/-- An import path is a text that does not end in a slash. -/
theorem pathFrom_text (h : c.Placed cwd start k segments name) :
    c.pathFrom cwd start ≠ "" ∧ (c.pathFrom cwd start).toList.getLast? ≠ some '/' := by
  by_cases hthrough : c.throughDirectory = true
  · have hhead := h.head?_importPath
    rw [pathFrom, if_pos hthrough]
    exact stripLastSegment_ends (by rw [hhead]; decide)
  · obtain ⟨front, last, hshown, -, hends⟩ := h.pathFrom_ends hthrough
    have hlast : IsSegment last := h.shown_isSegment last (by simp [hshown])
    obtain ⟨before, hpath⟩ : ∃ before, (c.pathFrom cwd start).toList = before ++ last.toList := by
      rcases hends with hends | ⟨-, hends⟩
      · exact ⟨front ++ ['/'], by rw [hends, List.append_assoc, List.singleton_append]⟩
      · exact ⟨[], hends⟩
    refine ⟨fun hempty => ?_, by rw [hpath]; exact getLast?_append_segment before hlast⟩
    rw [hempty] at hpath
    have hnil := (List.append_eq_nil_iff.mp hpath.symm).2
    exact hlast.ne_empty (String.toList_eq_nil_iff.1 hnil)

end Placed

/-- Making up an import path fails only where making up a name does. -/
theorem nameAndPath_error {failure : Failure} (h : c.nameAndPath cwd start = .error failure) :
    variableName (stem c.path) c.options = .error failure ∨
      variableName (directoryName c.path) c.options = .error failure := by
  unfold nameAndPath at h
  cases hstem : variableName (stem c.path) c.options with
  | error other =>
      rw [hstem] at h
      cases h
      exact .inl rfl
  | ok own =>
      rw [hstem] at h
      dsimp only [bind, Except.bind] at h
      split at h
      · cases hdirectory : variableName (directoryName c.path) c.options with
        | error other =>
            rw [hdirectory] at h
            cases h
            exact .inr rfl
        | ok other =>
            rw [hdirectory] at h
            cases h
      · split at h <;> cases h

end FileCandidate

/-! ## Leading back -/

namespace Path

theorem mem_push {rooted : Bool} {s segment : String} {done : List String}
    (h : s ∈ Parts.push rooted done segment) : s ∈ done ∨ s = segment := by
  unfold Parts.push at h
  split at h
  · rename_i hdots
    cases done with
    | nil =>
        cases rooted with
        | true => exact absurd h List.not_mem_nil
        | false => exact .inr (by rw [hdots]; exact List.mem_singleton.mp h)
    | cons last rest =>
        dsimp only at h
        split at h
        · rcases List.mem_cons.mp h with h | h
          · exact .inr (h.trans hdots.symm)
          · exact .inl h
        · exact .inl (List.mem_cons_of_mem _ h)
  · rcases List.mem_cons.mp h with h | h
    · exact .inr h
    · exact .inl h

theorem mem_foldl_push {rooted : Bool} {s : String} (way : List String) : ∀ {done : List String},
    s ∈ way.foldl (Parts.push rooted) done → s ∈ done ∨ s ∈ way := by
  induction way with
  | nil => exact fun h => .inl h
  | cons t way ih =>
      intro done h
      rcases ih h with h | h
      · rcases mem_push h with h | rfl
        · exact .inl h
        · exact .inr (List.mem_cons_self ..)
      · exact .inr (List.mem_cons_of_mem _ h)

theorem slashed_pieces (path : String) : slashed (pieces path) = path.toList := by
  have hpieces : (pieces path).map String.toList = path.toList.splitOn '/' := by
    simp [pieces, Function.comp_def]
  rw [slashed, hpieces]
  exact List.intercalate_splitOn ..

/-- The normal spelling of a path has no characters of its own but slashes. -/
theorem no_backslash_normalize {k : Nat} {path : String} (hk : k = 1 ∨ k = 2) (h : Leads k path)
    (hslashes : '\\' ∉ path.toList) : '\\' ∉ (normalize path).toList := by
  have hsegments : ∀ s ∈ follow [] (Parts.read path).segments, '\\' ∉ s.toList := by
    intro s hs hmem
    rcases mem_foldl_push _ (List.mem_reverse.mp hs) with hs | hs
    · exact absurd hs List.not_mem_nil
    · exact hslashes (slashed_pieces path ▸ mem_slashed (List.mem_filter.mp hs).1 hmem)
  rw [normalize_eq_rooted hk h, toList_rooted, List.mem_append, not_or]
  exact ⟨fun hmem => absurd (List.eq_of_mem_replicate hmem) (by decide), no_backslash_slashed hsegments⟩

theorem rootSegments_normalize {k : Nat} {path cwd : String} (hk : k = 1 ∨ k = 2) (h : Leads k path) :
    rootSegments cwd (normalize path) = rootSegments cwd path := by
  rw [normalize_eq_rooted hk h, rootSegments_rooted hk (resolve_read hk h).2, rootSegments_eq hk h]

end Path

theorem FileCandidate.placed_of_leads (c : FileCandidate) {cwd file start : String} (hpath : c.path = normalize file)
    (hfile : Leads 1 file) (hslashes : '\\' ∉ file.toList)
    (habove : ¬ rootSegments cwd file <+: rootSegments cwd start) :
    ∃ segments name, c.Placed cwd start 1 segments name := by
  have hone : 1 = 1 ∨ 1 = 2 := .inl rfl
  refine placed_of_rooted hone ?_ ?_ ?_ <;> rw [hpath]
  · exact hfile.normalize hone
  · exact no_backslash_normalize hone hfile hslashes
  · rwa [rootSegments_normalize hone hfile]

/-- The import path of a file means the file again, seen from the directory it was made for. So does the path
that goes with the name of a binding, less what it leaves out: the name of an index file that stands for its
directory, or else the extension. It is not empty and does not end in a slash. -/
theorem import_path_leads_back {cwd root file start : String} {options : Options} {family : Family}
    (hfile : Leads 1 file) (hstart : Leads 1 start) (hslashes : '\\' ∉ file.toList)
    (habove : ¬ rootSegments cwd file <+: rootSegments cwd start) :
    resolveImport start (importPath cwd (normalize file) start) = normalize file ∧
      ∀ c, c = FileCandidate.create cwd root options family file →
        (∀ failure, c.nameAndPath cwd start = .error failure →
          variableName (stem c.path) options = .error failure ∨
            variableName (directoryName c.path) options = .error failure) ∧
        ∀ name path, c.nameAndPath cwd start = .ok (name, path) →
          resolveImport start path =
              (if c.throughDirectory then directory c.path
                else if c.withoutExtension then c.bare
                else c.path) ∧
            (c.inFamily = true → c.bare ++ "." ++ extension c.path = c.path) ∧
            path ≠ "" ∧ path.toList.getLast? ≠ some '/' ∧ trimSlash path = path := by
  have hone : 1 = 1 ∨ 1 = 2 := .inl rfl
  refine ⟨?_, ?_⟩
  · have hpath : (FileCandidate.create cwd root options family file).path = normalize file := by
      rw [FileCandidate.create]
    obtain ⟨segments, name, hplaced⟩ := FileCandidate.placed_of_leads _ hpath hfile hslashes habove
    have hmeans := hplaced.resolveImport_importPath hone hstart
    rwa [← hplaced.path_eq, hpath] at hmeans
  · intro c hc
    have hpath : c.path = normalize file := by rw [hc, FileCandidate.create]
    have hoptions : c.options = options := by rw [hc, FileCandidate.create]
    obtain ⟨segments, name, hplaced⟩ := c.placed_of_leads hpath hfile hslashes habove
    have hmeans := hplaced.resolveImport_pathFrom hone hstart
    obtain ⟨hne, hlast⟩ := hplaced.pathFrom_text
    refine ⟨fun failure h => hoptions ▸ FileCandidate.nameAndPath_error h, fun name path h => ?_⟩
    rw [FileCandidate.nameAndPath_snd h]
    refine ⟨hmeans.trans ?_, hplaced.bare_extension, hne, hlast, trimSlash_eq hlast⟩
    unfold FileCandidate.shown
    split
    · rw [List.append_nil, hplaced.directory_eq]
    · split
      · rename_i hwithout
        rw [hplaced.bare_eq (FileCandidate.inFamily_of_withoutExtension hwithout)]
      · rw [hplaced.fileName_eq, hplaced.path_eq]

/-- An index file in a hidden directory next to that of the document. -/
theorem hidden_index_leads_back :
    Leads 1 "/ws/lib/../.cfg/index.js" ∧ Leads 1 "/ws/./app" ∧
      FileCandidate.nameAndPath "/" (.create "/" "/ws" { indexFile := true } .javascript "/ws/lib/../.cfg/index.js")
        "/ws/./app" = .ok ("cfg", "../.cfg") ∧
      resolveImport "/ws/./app" "../.cfg" = "/ws/.cfg" := by
  have hfile : Leads 1 "/ws/lib/../.cfg/index.js" :=
    ⟨"ws/lib/../.cfg/index.js".toList, by decide +kernel, by decide +kernel⟩
  have hstart : Leads 1 "/ws/./app" := ⟨"ws/./app".toList, by decide +kernel, by decide +kernel⟩
  have hslashes : '\\' ∉ "/ws/lib/../.cfg/index.js".toList := by decide +kernel
  have habove : ¬ rootSegments "/" "/ws/lib/../.cfg/index.js" <+: rootSegments "/" "/ws/./app" := by
    decide +kernel
  have hpath : FileCandidate.nameAndPath "/"
      (.create "/" "/ws" { indexFile := true } .javascript "/ws/lib/../.cfg/index.js") "/ws/./app" =
        .ok ("cfg", "../.cfg") := by decide +kernel
  have hmeans := (((@import_path_leads_back "/" "/ws" _ _ { indexFile := true } .javascript hfile hstart hslashes
    habove).2 _ rfl).2 _ _ hpath).1
  exact ⟨hfile, hstart, hpath, hmeans.trans (by decide +kernel)⟩

/-! ## Finding the file -/

namespace FileCandidate

variable {disk : Disk} {c : FileCandidate} {k : Nat} {segments : List String} {name cwd start : String}

/-- Whether something else is found where the import path of a file leads: a file that is called as this one is
without its extension, or, for an index file that stands for its directory, whatever has the name of the
directory and the extension. -/
def isShadowed (disk : Disk) (c : FileCandidate) : Bool :=
  if c.throughDirectory then disk.has (directory c.path ++ "." ++ extension c.path)
  else c.withoutExtension && disk.isFile c.bare

theorem append_extension_ne (front ext : String) : front ++ "." ++ ext ≠ front := by
  intro heq
  have hlength := congrArg String.length heq
  have hdot : ".".length = 1 := rfl
  rw [String.length_append, String.length_append] at hlength
  omega

/-- The name of an index file is longer than its extension. -/
theorem Placed.directory_append_ne (h : c.Placed cwd start k segments name) (hindex : c.isIndex = true)
    (hfamily : c.inFamily = true) : directory c.path ++ "." ++ extension c.path ≠ c.path := by
  intro heq
  have hname := h.fileName_eq ▸ fileName_of_isIndex hindex (extension_ne_of_inFamily hfamily)
  have hlength := congrArg String.length (heq.trans (h.path_eq.trans (rooted_append_singleton ..)))
  have hdot : ".".length = 1 := rfl
  have hstem : "index.".length = 6 := rfl
  rw [h.directory_eq, hname, String.length_append, String.length_append, String.length_append,
    String.length_append] at hlength
  split at hlength
  · rename_i hnil
    rw [hnil] at hlength
    omega
  · rw [String.length_append] at hlength
    omega

/-- The import path of a module finds the module, unless something else is found there first. -/
theorem Placed.modulePath_pathFrom (h : c.Placed disk.cwd start 1 segments name) (hstart : Leads 1 start)
    (hfamily : c.inFamily = true) (hfile : disk.isFile c.path = true) :
    modulePath disk (extension c.path) start (c.pathFrom disk.cwd start) = c.path ↔
      c.isShadowed disk = false := by
  have hone : 1 = 1 ∨ 1 = 2 := .inl rfl
  have hhas : disk.has c.path = true := by
    obtain ⟨content, hentry⟩ := Disk.isFile_iff.mp hfile
    exact Disk.has_iff.mpr ⟨_, hentry⟩
  rw [modulePath, h.resolveImport_pathFrom hone hstart, isShadowed]
  dsimp only
  by_cases hthrough : c.throughDirectory = true
  · have hindex : c.isIndex = true := (Bool.and_eq_true_iff.mp hthrough).2
    have hshown : c.shown = [] := if_pos hthrough
    have hdirectory : disk.isDirectory (directory c.path) = true := by
      rw [h.directory_eq]
      exact Disk.isDirectory_of_has hone h.isSegment (List.cons_ne_nil _ _) (h.path_eq ▸ hhas)
    have hnofile : disk.isFile (directory c.path) = false := by
      rw [Disk.isFile, Disk.isDirectory_iff.mp hdirectory]
    have hjoin : join (directory c.path) ("index." ++ extension c.path) = c.path := by
      have hname := h.fileName_eq.symm.trans (fileName_of_isIndex hindex (extension_ne_of_inFamily hfamily))
      rw [h.directory_eq, ← hname, Rooted.join_singleton hone h.segments_isSegment h.name_isSegment, ← h.path_eq]
    rw [if_pos hthrough, hshown, List.append_nil, ← h.directory_eq, hnofile, hdirectory, hjoin,
      if_neg Bool.false_ne_true]
    cases hother : disk.has (directory c.path ++ "." ++ extension c.path) with
    | false => exact iff_of_true rfl rfl
    | true => exact iff_of_false (h.directory_append_ne hindex hfamily) nofun
  · rw [if_neg hthrough]
    by_cases hwithout : c.withoutExtension = true
    · have hshown : c.shown = [stem c.path] := by rw [shown, if_neg hthrough, if_pos hwithout]
      rw [hshown, ← h.bare_eq hfamily, h.bare_extension hfamily, hhas, hwithout, Bool.true_and, Bool.not_true,
        Bool.and_false, if_neg Bool.false_ne_true]
      cases hbare : disk.isFile c.bare with
      | false => exact iff_of_true rfl rfl
      | true =>
          refine iff_of_false (fun heq => ?_) nofun
          rw [if_pos rfl] at heq
          exact append_extension_ne c.bare (extension c.path) ((h.bare_extension hfamily).trans heq.symm)
    · have hshown : c.shown = [name] := by rw [shown, if_neg hthrough, if_neg hwithout, h.fileName_eq]
      rw [hshown, ← h.path_eq, if_pos hfile, Bool.eq_false_iff.mpr hwithout, Bool.false_and]
      exact iff_of_true rfl rfl

end FileCandidate

/-- On every disk that has a module, the import path that goes with its name finds the module by the extension it
has, exactly if nothing shadows it. A directory for which the path is made is never the file nor below it. -/
theorem import_path_finds_file {disk : Disk} {root file start : String} {options : Options} {family : Family}
    (hfile : Leads 1 file) (hstart : Leads 1 start) (hslashes : '\\' ∉ file.toList)
    (habove : ¬ rootSegments disk.cwd file <+: rootSegments disk.cwd start) :
    ∀ c name path, c = FileCandidate.create disk.cwd root options family file → c.inFamily = true →
      disk.isFile c.path = true → c.nameAndPath disk.cwd start = .ok (name, path) →
        (modulePath disk (extension c.path) start path = c.path ↔ c.isShadowed disk = false) := by
  intro c name path hc hfamily hthere hname
  have hpath : c.path = normalize file := by rw [hc, FileCandidate.create]
  obtain ⟨segments, last, hplaced⟩ := c.placed_of_leads hpath hfile hslashes habove
  rw [FileCandidate.nameAndPath_snd hname]
  exact hplaced.modulePath_pathFrom hstart hfamily hthere

/-- A disk with empty files in the root of a workspace and in its directory `lib`. -/
def emptyFiles (top inner : List String) : Disk where
  cwd := "/ws"
  entries := [(["ws"], .directory), (["ws", "lib"], .directory)] ++ top.map (fun name => (["ws", name], .file []))
    ++ inner.map fun name => (["ws", "lib", name], .file [])

/-- An index file is found through its directory although a file with another extension has the name of that. -/
theorem index_found_beside_jsx :
    Leads 1 "/ws/lib/index.js" ∧ Leads 1 "/ws/app" ∧
      modulePath (emptyFiles ["lib.jsx"] ["index.js"]) "js" "/ws/app" "../lib" = "/ws/lib/index.js" := by
  have hfile : Leads 1 "/ws/lib/index.js" := ⟨"ws/lib/index.js".toList, by decide +kernel, by decide +kernel⟩
  have hstart : Leads 1 "/ws/app" := ⟨"ws/app".toList, by decide +kernel, by decide +kernel⟩
  have hslashes : '\\' ∉ "/ws/lib/index.js".toList := by decide +kernel
  have habove : ¬ rootSegments "/ws" "/ws/lib/index.js" <+: rootSegments "/ws" "/ws/app" := by decide +kernel
  have hname : FileCandidate.nameAndPath "/ws"
      (.create "/ws" "/ws" { indexFile := true } .javascript "/ws/lib/index.js") "/ws/app" =
        .ok ("lib", "../lib") := by decide +kernel
  have hfinds := @import_path_finds_file (emptyFiles ["lib.jsx"] ["index.js"]) _ _ _ _ _ hfile hstart hslashes habove
    _ _ _ rfl (by decide +kernel) (by decide +kernel) hname
  exact ⟨hfile, hstart, hfinds.mpr (by decide +kernel)⟩

/-- Beside a file that has the name alone, the path without the extension finds that one. -/
theorem bare_name_found_first :
    ∃ c, c = FileCandidate.create "/ws" "/ws" {} .javascript "/ws/a.js" ∧ c.inFamily = true ∧
      (emptyFiles ["a", "a.js"] []).isFile c.path = true ∧ c.nameAndPath "/ws" "/ws" = .ok ("a", "./a") ∧
      modulePath (emptyFiles ["a", "a.js"] []) "js" "/ws" "./a" = "/ws/a" ∧ c.path ≠ "/ws/a" :=
  ⟨_, rfl, by decide +kernel, by decide +kernel, by decide +kernel, by decide +kernel, by decide +kernel⟩

end ImportAssist
