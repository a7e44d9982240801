import ImportAssist.Proofs.ImportTargets

/-!
# Two routes to an index file

A module can be imported through the index file next to it, and an index file can be imported itself. The first route
makes up the import path of the index file in the synthesizer, the second in the candidate, each by its own conditions.
An index file passes all the tests of a candidate, whatever directory it is in (`fileName_normalize_join`), so the
conditions agree, and both routes come to one path (`index_routes_agree`).
-/

namespace ImportAssist

open ImportAssist.Path

namespace Path

/-! ## The name behind a directory -/

theorem join_segment {name : String} (h : IsSegment name) (base : String) :
    join base name = name ∧ base = "" ∨ (∃ front, base.toList = front ++ ['/'] ∧ join base name = base ++ name) ∨
      join base name = base ++ "/" ++ name := by
  have hrelative : isAbsolute name = false := by
    rw [Bool.eq_false_iff]
    intro habsolute
    obtain ⟨rest, hrest⟩ := isAbsolute_iff.1 habsolute
    exact h.no_slash (by simp [hrest])
  rw [join, if_neg (by simp [hrelative])]
  by_cases hempty : base = ""
  · exact .inl ⟨by rw [if_pos (by simp [hempty]), hempty, String.empty_append], hempty⟩
  · refine .inr ?_
    split
    · rename_i hend
      have hlast : base.toList.getLast? = some '/' := by simpa [hempty] using hend
      exact .inl ⟨_, (List.getLast?_eq_some_iff.mp hlast).choose_spec, rfl⟩
    · exact .inr rfl

/-- A name put behind any path is its last segment. -/
theorem read_join_segment {name : String} (h : IsSegment name) (base : String) :
    ∃ front, (Parts.read (join base name)).segments = front ++ [name] := by
  rw [read_segments, ← segmentsOf_step h.isStep]
  obtain ⟨hjoin, -⟩ | ⟨front, hfront, hjoin⟩ | hjoin := join_segment h base
  · exact ⟨[], by rw [hjoin, List.nil_append]⟩
  · refine ⟨segmentsOf front, ?_⟩
    rw [hjoin, String.toList_append, hfront, List.append_assoc, List.singleton_append, segmentsOf_append_cons]
  · refine ⟨segmentsOf base.toList, ?_⟩
    rw [hjoin, String.toList_append, String.toList_append]
    exact (congrArg segmentsOf (List.append_assoc ..)).trans (segmentsOf_append_cons _ _)

theorem fileName_append_segment {name : String} (h : '/' ∉ name.toList) (k : Nat) (segments : List String) :
    fileName (rooted k (segments ++ [name])) = name := by
  have hall : ∀ c ∈ name.toList.reverse, (c != '/') = true := by
    intro c hc
    simpa using fun e : c = '/' => h (e ▸ List.mem_reverse.1 hc)
  rw [fileName, toList_rooted, slashed_append_singleton, ← List.append_assoc, List.reverse_append,
    List.takeWhile_append_of_pos hall]
  -- In front of the name there is nothing, or a slash.
  by_cases hnil : segments = []
  · cases k with
    | zero => simp [hnil]
    | succ k => simp [hnil, List.replicate_succ']
  · simp [hnil]

/-- A name put behind any path is kept by its normal spelling. -/
theorem fileName_normalize_join {name : String} (h : IsSegment name) (base : String) :
    fileName (normalize (join base name)) = name := by
  obtain ⟨front, hread⟩ := read_join_segment h base
  obtain ⟨kept, hresolve⟩ : ∃ kept, (Parts.read (join base name)).resolve.segments = kept ++ [name] := by
    have hpush : ∀ rooted done, Parts.push rooted done name = name :: done := fun _ _ => if_neg h.ne_dots
    rw [Parts.resolve, hread, List.foldl_append, List.foldl_cons, List.foldl_nil, hpush, List.reverse_cons]
    exact ⟨_, rfl⟩
  have hjoin : (Parts.read (join base name)).resolve.join
      = rooted (Parts.read (join base name)).resolve.slashes (kept ++ [name]) := by
    rw [rooted, ← hresolve]
  have hne : rooted (Parts.read (join base name)).resolve.slashes (kept ++ [name]) ≠ "" := by
    rw [Ne, ← String.toList_eq_nil_iff, toList_rooted, slashed_append_singleton]
    simp [h.ne_empty]
  rw [normalize, Parts.render, hjoin, if_neg hne, fileName_append_segment h.no_slash]

/-! ## The parts of an index file's name -/

theorem splitExtension_index {ext : String} (hdot : '.' ∉ ext.toList) :
    splitExtension ("index." ++ ext) = ("index", String.ofList ('.' :: ext.toList)) := by
  have hname : ("index." ++ ext).toList = "index".toList ++ '.' :: ext.toList := by simp
  have hdots : ("index." ++ ext).toList.takeWhile (· == '.') = [] ∧
      ("index." ++ ext).toList.dropWhile (· == '.') = ("index." ++ ext).toList := by
    rw [hname]
    simp
  obtain ⟨hafter, hstem⟩ := reverse_cut hdot "index".toList
  rw [splitExtension, hdots.1, hdots.2, if_pos (by simp)]
  dsimp only
  rw [hname, hafter, hstem, List.reverse_reverse, List.reverse_cons, List.reverse_reverse, List.dropLast_concat]
  simp

end Path

/-! ## The index file as a candidate -/

namespace Synthesizer

variable (s : Synthesizer) {c : FileCandidate} (root : String)

/-- The index file next to a module as a candidate itself. -/
def indexCandidate (s : Synthesizer) (c : FileCandidate) (root : String) : FileCandidate :=
  .create s.disk.cwd root s.options c.family (indexPath c)

theorem path_indexCandidate : (s.indexCandidate c root).path =
    normalize (join (directory c.path) ("index." ++ extension c.path)) := by
  rw [indexCandidate, FileCandidate.create, indexPath]

theorem family_indexCandidate : (s.indexCandidate c root).family = c.family := by
  rw [indexCandidate, FileCandidate.create]

theorem options_indexCandidate : (s.indexCandidate c root).options = s.options := by
  rw [indexCandidate, FileCandidate.create]

/-- The index file next to a module has the extension of the module. -/
theorem name_indexCandidate (hfamily : c.inFamily = true) :
    fileName (s.indexCandidate c root).path = "index." ++ extension c.path ∧
      stem (s.indexCandidate c root).path = "index" ∧
      extension (s.indexCandidate c root).path = extension c.path := by
  obtain ⟨-, hdot, -⟩ := fileName_eq_of_extension (extension_ne_of_inFamily hfamily)
  have hsegment : IsSegment ("index." ++ extension c.path) :=
    isSegment_of_mem (c := 'i') (by simpa using (isExtension_extension c.path).no_slash) (by simp) (by decide)
  have hname : fileName (s.indexCandidate c root).path = "index." ++ extension c.path := by
    rw [path_indexCandidate, fileName_normalize_join hsegment]
  refine ⟨hname, ?_, ?_⟩
  · rw [stem, hname, splitExtension_index hdot]
  · rw [extension, hname, splitExtension_index hdot, String.toList_ofList, List.dropWhile_cons_of_pos (by rfl),
      List.dropWhile_eq_self_iff.mpr, String.ofList_toList]
    intro hpos hfirst
    exact hdot (beq_iff_eq.1 hfirst ▸ List.getElem_mem hpos)

/-- It passes for a module and for an index file of its family. -/
theorem indexCandidate_passes (hfamily : c.inFamily = true) :
    (s.indexCandidate c root).inFamily = true ∧ (s.indexCandidate c root).isIndex = true := by
  obtain ⟨-, hdot, -⟩ := fileName_eq_of_extension (extension_ne_of_inFamily hfamily)
  obtain ⟨hname, -, hextension⟩ := name_indexCandidate s root hfamily
  have hpieces : (("index." ++ extension c.path).toList.splitOn '.').map String.ofList =
      ["index", extension c.path] := by
    have hsplit : ("index." ++ extension c.path).toList = "index".toList ++ '.' :: (extension c.path).toList := by simp
    rw [hsplit, List.splitOn_append_cons_self, List.splitOn_eq_singleton hdot, List.splitOn_eq_singleton (by decide)]
    simp
  rw [FileCandidate.inFamily] at hfamily
  rw [FileCandidate.inFamily, FileCandidate.isIndex, family_indexCandidate, hname, hextension, Family.isIndexName,
    hpieces]
  exact ⟨hfamily, by simpa using hfamily⟩

/-- The candidate makes up the path of an index file as the synthesizer does. -/
theorem pathFrom_indexCandidate (hfamily : c.inFamily = true) (directory : String) :
    (s.indexCandidate c root).pathFrom s.disk.cwd directory = s.indexImportPath (indexPath c) directory := by
  obtain ⟨hmodule, hindex⟩ := indexCandidate_passes s root hfamily
  rw [FileCandidate.pathFrom, FileCandidate.throughDirectory, FileCandidate.withoutExtension, hindex, hmodule,
    options_indexCandidate, Bool.and_true, Bool.and_true, path_indexCandidate, indexImportPath, indexPath]

end Synthesizer

/-- A candidate has a name for its binding by the rules of the options, and a path. -/
theorem FileCandidate.nameAndPath_eq (c : FileCandidate) (cwd directory : String) :
    c.nameAndPath cwd directory = (do
      let name ← variableName (stem c.path) c.options
      let name ← if c.throughDirectory then variableName (directoryName c.path) c.options else pure name
      return (name, c.pathFrom cwd directory)) := by
  rw [nameAndPath, pathFrom]
  cases variableName (stem c.path) c.options with
  | error failure => dsimp only [bind, Except.bind]
  | ok own =>
      dsimp only [bind, Except.bind]
      by_cases hthrough : c.throughDirectory = true
      · rw [if_pos hthrough, if_pos hthrough, if_pos hthrough]
      · rw [if_neg hthrough, if_neg hthrough, if_neg hthrough]
        dsimp only [pure, Except.pure]
        split
        · rfl
        · rfl

/-- Whatever the module, the document and the options: the index file next to a module is imported itself from the path
from which the module is imported through it, unless making up the name of the binding fails. So both find the same
imports in a document, and are carried out in the same way. -/
theorem index_routes_agree (s : Synthesizer) {c : FileCandidate} (hfamily : c.inFamily = true)
    (root directory : String) :
    (s.indexCandidate c root).nameAndPath s.disk.cwd directory = (do
      let name ← variableName "index" s.options
      let name ← if s.options.indexFile then
          variableName (directoryName (s.indexCandidate c root).path) s.options
        else pure name
      return (name, s.indexImportPath (Synthesizer.indexPath c) directory)) ∧
    ∀ name path, (s.indexCandidate c root).nameAndPath s.disk.cwd directory = .ok (name, path) →
      ∀ (d : Document) (found : List Import) (binding : Binding),
        findDuplicate found path = findDuplicate found (s.indexImportPath (Synthesizer.indexPath c) directory) ∧
        s.carryOut d found (.bind binding path) =
          s.carryOut d found (.bind binding (s.indexImportPath (Synthesizer.indexPath c) directory)) := by
  obtain ⟨-, hstem, -⟩ := Synthesizer.name_indexCandidate s root hfamily
  obtain ⟨-, hindex⟩ := Synthesizer.indexCandidate_passes s root hfamily
  have hpath := Synthesizer.pathFrom_indexCandidate s root hfamily directory
  refine ⟨?_, fun name path hname d found binding => ?_⟩
  · rw [FileCandidate.nameAndPath_eq, hstem, hpath, FileCandidate.throughDirectory, hindex, Bool.and_true,
      Synthesizer.options_indexCandidate]
  · rw [FileCandidate.nameAndPath_snd hname, hpath]
    exact ⟨rfl, rfl⟩

/-- A synthesizer that imports index files through their directory. -/
def throughDirectories : Synthesizer := ⟨{ cwd := "/ws", entries := [] }, { indexFile := true }, false⟩

/-- The index file next to a module is imported through its directory, on both routes. -/
theorem sibling_index_agrees :
    (throughDirectories.indexCandidate (.create "/ws" "/ws" {} .javascript "/ws/lib/a.jsx") "/ws").nameAndPath "/ws"
        "/ws/src" = .ok ("lib", "../lib") ∧
      throughDirectories.indexImportPath "/ws/lib/index.jsx" "/ws/src" = "../lib" := by
  have hfamily : (FileCandidate.create "/ws" "/ws" {} .javascript "/ws/lib/a.jsx").inFamily = true := by
    decide +kernel
  obtain ⟨hagree, -⟩ := index_routes_agree throughDirectories hfamily "/ws" "/ws/src"
  refine ⟨Eq.trans hagree ?_, by decide +kernel⟩
  decide +kernel

end ImportAssist
