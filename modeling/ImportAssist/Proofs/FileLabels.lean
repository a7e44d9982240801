import ImportAssist.Proofs.Attendance
import ImportAssist.Proofs.IndexFiles
import ImportAssist.Proofs.SiblingPaths

/-!
# Labels of files

A prompt offers the files that an import may mean by their labels, and a reply is read back as a file.
`labelled` gives each label once (`labelled_labels`). So the reply to a prompt names the file that was
meant if no two files of the index have the same label. They have not if all of them lie below the root, as
those of an index do (`indexed_of_grown`), and none has a backslash, which a label shows as a slash.
-/

namespace ImportAssist

namespace Repairer

variable {r : Repairer}

/-- A table of the labels of some paths: each label once, with a path that has it. -/
structure Labels (r : Repairer) (paths : List String) (labels : List (String × String)) : Prop where
  nodup : (labels.map (·.1)).Nodup
  own : ∀ l ∈ labels, l.2 ∈ paths ∧ r.label l.2 = l.1
  all : ∀ path ∈ paths, r.label path ∈ labels.map (·.1)

/-- A path with a label that is there takes the place of the one that has it. -/
theorem Labels.replace {paths : List String} {labels : List (String × String)} {path : String}
    (h : r.Labels paths labels) (hmem : r.label path ∈ labels.map (·.1)) :
    r.Labels (paths ++ [path])
      (labels.map fun l => if l.1 == r.label path then (r.label path, path) else l) := by
  have hkeys : (labels.map fun l => if l.1 == r.label path then (r.label path, path) else l).map (·.1) =
      labels.map (·.1) := by
    rw [List.map_map]
    refine List.map_congr_left fun l _ => ?_
    by_cases hl : l.1 = r.label path <;> simp [hl]
  refine ⟨by rw [hkeys]; exact h.nodup, fun l hl => ?_, fun other hother => ?_⟩
  · obtain ⟨old, hold, rfl⟩ := List.mem_map.mp hl
    obtain ⟨hpath, hlabel⟩ := h.own old hold
    by_cases heq : old.1 = r.label path
    · simp [heq]
    · simp [heq, hpath, hlabel]
  · rw [hkeys]
    rcases List.mem_append.mp hother with hother | hother
    · exact h.all other hother
    · rw [List.mem_singleton.mp hother]
      exact hmem

theorem Labels.add {paths : List String} {labels : List (String × String)} {path : String}
    (h : r.Labels paths labels) (hmem : r.label path ∉ labels.map (·.1)) :
    r.Labels (paths ++ [path]) (labels ++ [(r.label path, path)]) := by
  refine ⟨?_, fun l hl => ?_, fun other hother => ?_⟩
  · rw [List.map_append, List.nodup_append]
    refine ⟨h.nodup, by simp, fun label hlabel other hother heq => hmem ?_⟩
    obtain rfl : other = r.label path := List.mem_singleton.mp hother
    exact heq ▸ hlabel
  · rcases List.mem_append.mp hl with hl | hl
    · exact ⟨List.mem_append_left _ (h.own l hl).1, (h.own l hl).2⟩
    · rw [List.mem_singleton.mp hl]
      exact ⟨List.mem_append_right _ (List.mem_singleton_self _), rfl⟩
  · rw [List.map_append, List.mem_append]
    rcases List.mem_append.mp hother with hother | hother
    · exact .inl (h.all other hother)
    · rw [List.mem_singleton.mp hother]
      exact .inr (List.mem_singleton_self _)

theorem labelled_labels (paths : List String) : r.Labels paths (r.labelled paths) := by
  induction paths using List.reverseRecOn with
  | nil => exact ⟨List.nodup_nil, fun _ hl => absurd hl List.not_mem_nil, fun _ hp => absurd hp List.not_mem_nil⟩
  | append_singleton paths path ih =>
      rw [labelled, List.foldl_concat]
      dsimp only
      rw [← labelled]
      by_cases hmem : r.label path ∈ (r.labelled paths).map (·.1)
      · rw [if_pos (by simpa using hmem)]
        exact ih.replace hmem
      · rw [if_neg (by simpa using hmem)]
        exact ih.add hmem

/-! ## Files of an index -/

/-- The label of a file is the rest of its path behind the root. -/
theorem label_of_below {path : String} (hbelow : LiesBelow r.root path) (hslash : '\\' ∉ path.toList) :
    path.toList = r.root.toList ++ (r.label path).toList := by
  obtain ⟨rest, hrest⟩ := hbelow.starts
  have hlabel : (r.label path).toList = rest := by
    rw [label, Path.toList_toSlashes, String.toList_ofList, ← hrest, List.drop_left,
      Path.map_toSlashes_eq fun hmem => hslash (hrest ▸ List.mem_append_right _ hmem)]
  rw [hlabel, hrest]

/-- The files of an index, as a repairer relies on them. -/
structure Indexed (r : Repairer) (files : List FileCandidate) : Prop where
  below : ∀ c ∈ files, LiesBelow r.root c.path
  no_backslash : ∀ c ∈ files, '\\' ∉ c.path.toList

section Indexed

variable {files now : List FileCandidate} {c c' : FileCandidate}

theorem Indexed.subset (h : r.Indexed files) (hsubset : now ⊆ files) : r.Indexed now where
  below c hc := h.below c (hsubset hc)
  no_backslash c hc := h.no_backslash c (hsubset hc)

theorem Indexed.normal (h : r.Indexed files) (hc : c ∈ files) : Path.normalize c.path = c.path :=
  (h.below c hc).normal

theorem Indexed.shown (h : r.Indexed files) (hc : c ∈ files) : r.label c.path ≠ "" := by
  intro hempty
  have hpath := label_of_below (h.below c hc) (h.no_backslash c hc)
  rw [hempty] at hpath
  exact (h.below c hc).below (String.toList_inj.1 (hpath.trans (List.append_nil _)))

/-- Labels tell files apart. -/
theorem Indexed.apart (h : r.Indexed files) (hc : c ∈ files) (hc' : c' ∈ files)
    (hlabel : r.label c.path = r.label c'.path) : c.path = c'.path := by
  apply String.toList_inj.1
  rw [label_of_below (h.below c hc) (h.no_backslash c hc), hlabel,
    ← label_of_below (h.below c' hc') (h.no_backslash c' hc')]

/-- An index of the workspace is as a repairer of the workspace relies on it. -/
theorem indexed_of_grown {disk : Disk} {cwd root : String} {index listed : WorkspaceIndex}
    (hcwd : Path.isAbsolute cwd = true) (hnamed : disk.Named) (hgrown : WorkspaceIndex.Grown cwd root index)
    (hroot : r.root = Path.absolute cwd root) (hbuild : index.build disk = .ok (files, listed))
    (hslash : ∀ c ∈ files, '\\' ∉ c.path.toList) : r.Indexed files where
  below c hc := by
    rw [hroot]
    exact hgrown.files_below hcwd hnamed hbuild c hc
  no_backslash := hslash

end Indexed

end Repairer

theorem utilFiles_indexed : utilRepairer.Indexed utilFiles where
  below := by
    have hbelow : ∀ c ∈ utilFiles, Path.normalize c.path = c.path ∧
        utilRepairer.root.toList <+: c.path.toList ∧ c.path ≠ utilRepairer.root := by decide +kernel
    exact fun c hc => ⟨(hbelow c hc).1, (hbelow c hc).2.1, (hbelow c hc).2.2⟩
  no_backslash := by decide +kernel

end ImportAssist
