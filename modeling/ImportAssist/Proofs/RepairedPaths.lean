import ImportAssist.Proofs.Attendance
import ImportAssist.Proofs.ImportTargets

/-!
# Whether repaired imports lead somewhere

Every edit of a pass makes a broken import lead to a file that was in the index (`Made`). Whether its path
counts as broken afterwards is decided by the extension of the document, while the path leaves out the
extension of the file. The two agree if both have the same extension; otherwise the path is broken as
before unless something else is there by that name (`repaired_paths`).
-/

namespace ImportAssist

namespace Repairer

variable {r : Repairer} {d : Document} {imports : List RelativeImport} {p : Progress}
  {log looked back : List Exchange} {i : RelativeImport} {edit : Edit}

/-! ## Where edits come from -/

/-- An edit that makes one of some imports lead to a file that an index had. -/
def Made (r : Repairer) (d : Document) (imports : List RelativeImport) (log : List Exchange)
    (edit : Edit) : Prop :=
  ∃ i ∈ imports, ∃ files, .files files ∈ log ∧ ∃ c ∈ files, edit = r.correction d i c

theorem Made.mono {imports' : List RelativeImport} {log' : List Exchange} (himports : imports ⊆ imports')
    (hlog : log ⊆ log') (h : r.Made d imports log edit) : r.Made d imports' log' edit := by
  obtain ⟨i, hi, files, hfiles, hedit⟩ := h
  exact ⟨i, himports hi, files, hlog hfiles, hedit⟩

/-- Where the edits come from if an import has been redirected in front of the rest of a run. -/
theorem made_of_redirected {path : String} {files : List FileCandidate} {edits : List Edit} {made : Edit}
    (hfiles : .files files ∈ log) (hback : back ⊆ log) (h : r.redirected d i path files = .ok made)
    (hedit : edit ∈ edits ++ [made] ∨ r.Made d imports back edit) :
    edit ∈ edits ∨ r.Made d (i :: imports) log edit := by
  rcases hedit with hedit | hmade
  · refine (List.mem_append.mp hedit).imp_right fun hedit => ?_
    obtain ⟨c, hc, -, hcorrection⟩ := redirected_ok h
    rw [List.mem_singleton.mp hedit, hcorrection]
    exact ⟨i, List.mem_cons_self .., files, hfiles, c, hc, rfl⟩
  · exact .inr (hmade.mono (List.subset_cons_self ..) hback)

/-- The edits that a run of the loop ends with, early or not. -/
def editsOf : RepairReport ⊕ Progress → List Edit := Sum.elim (·.edits) (·.edits)

theorem Sorting.made {result : Except Failure (RepairReport ⊕ Progress)}
    (h : r.Sorting d imports p log result) :
    ∀ out, result = .ok out → ∀ edit ∈ editsOf out, edit ∈ p.edits ∨ r.Made d imports log edit := by
  induction h with
  | finished p =>
      rintro out hresult edit hedit
      cases hresult
      exact .inl hedit
  | stopped i rest p =>
      rintro out hresult edit hedit
      cases hresult
      exact .inl hedit
  | failed _ _ => exact nofun
  | unresolved _ _ ih =>
      intro out hresult edit hedit
      exact (ih out hresult edit hedit).imp_right
        (.mono (List.subset_cons_self ..) (List.subset_append_right ..))
  | corrected _ hredirected _ ih =>
      intro out hresult edit hedit
      exact made_of_redirected (by simp) (fun e he => by simp [he]) hredirected (ih out hresult edit hedit)
  | ambiguous _ _ _ ih =>
      intro out hresult edit hedit
      exact (ih out hresult edit hedit).imp_right
        (.mono (List.subset_cons_self ..) (List.subset_append_right ..))

/-- What has to be asked for are imports that have been sorted. -/
theorem Sorting.ambiguous_subset {result : Except Failure (RepairReport ⊕ Progress)}
    (h : r.Sorting d imports p log result) :
    ∀ p', result = .ok (.inr p') → p'.ambiguous ⊆ p.ambiguous ++ imports := by
  induction h with
  | finished p =>
      rintro p' hresult
      cases hresult
      exact List.subset_append_left ..
  | stopped i rest p => exact nofun
  | failed _ _ => exact nofun
  | unresolved _ _ ih =>
      exact fun p' hresult => List.Subset.trans (ih p' hresult) (List.append_subset.mpr ⟨by simp, by simp⟩)
  | corrected _ _ _ ih =>
      exact fun p' hresult => List.Subset.trans (ih p' hresult) (List.append_subset.mpr ⟨by simp, by simp⟩)
  | ambiguous _ _ _ ih =>
      intro p' hresult
      refine List.Subset.trans (ih p' hresult) ?_
      rw [List.append_assoc]
      exact List.Subset.refl _

theorem Asking.made {result : Except Failure RepairReport} (h : r.Asking d imports p log result) :
    ∀ report, result = .ok report → ∀ edit ∈ report.edits, edit ∈ p.edits ∨ r.Made d imports log edit := by
  induction h with
  | finished p =>
      rintro report hresult edit hedit
      cases hresult
      exact .inl hedit
  | stopped i rest p =>
      rintro report hresult edit hedit
      cases hresult
      exact .inl hedit
  | dismissed _ _ =>
      rintro report hresult edit hedit
      cases hresult
      exact .inl hedit
  | stoppedOpen _ _ =>
      rintro report hresult edit hedit
      cases hresult
      exact .inl hedit
  | notOffered _ _ _ => exact nofun
  | failed _ _ _ _ => exact nofun
  | corrected _ _ _ hredirected _ ih =>
      intro report hresult edit hedit
      exact made_of_redirected (by simp) (fun e he => by simp [he]) hredirected (ih report hresult edit hedit)

theorem fix_made {report : RepairReport} (h : (r.fix d).Plays log (.ok report)) :
    ∀ edit ∈ report.edits, r.Made d (r.brokenImports d) log edit := by
  intro edit hedit
  rcases fix_cases h with ⟨-, -, hresult⟩ | ⟨-, ⟨failure, -, hresult⟩ | ⟨report, hsort, hresult⟩ |
    ⟨p, front, back, hsort, hask, rfl⟩⟩
  · cases hresult
    exact absurd hedit List.not_mem_nil
  · cases hresult
  · cases hresult
    exact (hsort.made _ rfl edit hedit).resolve_left List.not_mem_nil
  · rcases hask.made _ rfl edit hedit with hedit | hmade
    · exact ((hsort.made _ rfl edit hedit).resolve_left List.not_mem_nil).mono (List.Subset.refl _)
        (List.subset_append_left ..)
    · exact hmade.mono (hsort.ambiguous_subset _ rfl) (List.subset_append_right ..)

end Repairer

/-! ## Where they lead -/

/-- A document finds the import paths of files with its own extension. -/
theorem isResolvable_same_extension {disk : Disk} {d : Document} {c : FileCandidate}
    (hd : Path.isAbsolute d.path = true) (h : c.Stands disk d.directory)
    (hextension : Path.extension c.path = d.extension) :
    isResolvable disk d.extension d.directory (c.pathFrom disk.cwd d.directory) = true := by
  rw [isResolvable_pathFrom hd h]
  by_cases hwithout : c.withoutExtension = true
  · refine .inr (.inr (.inr ?_))
    rw [← hextension, h.bare_extension (Bool.and_eq_true_iff.mp hwithout).2]
    exact h.there
  · exact .inr (.inl (Bool.not_eq_true _ ▸ hwithout))

/-- Each edit of a pass, also of one that was cancelled, makes a broken import lead to a file of the index. For
a file that is on the disk the new path counts as broken if it leaves out the extension and neither the
name alone nor the name with the extension of the document is there, and only then. In particular it leads
somewhere if the file has the extension of the document. -/
theorem repaired_paths {r : Repairer} {d : Document} {log : List Exchange} {report : RepairReport}
    (hd : Path.isAbsolute d.path = true) (h : (r.fix d).Plays log (.ok report)) :
    ∀ edit ∈ report.edits, ∃ i ∈ r.brokenImports d, ∃ files, .files files ∈ log ∧ ∃ c ∈ files,
      edit = r.correction d i c ∧
      (c.Stands r.disk d.directory →
        (isResolvable r.disk d.extension d.directory (c.pathFrom r.disk.cwd d.directory) = true ↔
          c.throughDirectory = true ∨ c.withoutExtension = false ∨ r.disk.has c.bare = true ∨
            r.disk.has (c.bare ++ "." ++ d.extension) = true) ∧
        (Path.extension c.path = d.extension →
          isResolvable r.disk d.extension d.directory (c.pathFrom r.disk.cwd d.directory) = true)) := by
  intro edit hedit
  obtain ⟨i, hi, files, hfiles, c, hc, hcorrection⟩ := Repairer.fix_made h edit hedit
  exact ⟨i, hi, files, hfiles, c, hc, hcorrection, fun hstands =>
    ⟨isResolvable_pathFrom hd hstands, isResolvable_same_extension hd hstands⟩⟩

/-- The file has the extension of the document. -/
theorem same_extension_repaired :
    Path.isAbsolute loneDocument.path = true ∧
      ((loneRepairer "b.js").fix loneDocument).Plays (loneLog {} "b.js")
        (.ok ⟨.allFixed, [⟨14, 19, "'./lib/b'"⟩], []⟩) ∧
      ∃ c ∈ loneFiles {} "b.js",
        ⟨14, 19, "'./lib/b'"⟩ = (loneRepairer "b.js").correction loneDocument loneImport c ∧
        isResolvable (loneRepairer "b.js").disk loneDocument.extension loneDocument.directory
          (c.pathFrom "/ws" loneDocument.directory) = true := by
  have hplays : ((loneRepairer "b.js").fix loneDocument).Plays (loneLog {} "b.js")
      (.ok ⟨.allFixed, [⟨14, 19, "'./lib/b'"⟩], []⟩) := by
    rw [Repairer.fix_eq (loneDocument_broken (by simp))]
    exact Dialogue.plays_of_replay (by decide +kernel)
  refine ⟨by decide, hplays, ?_⟩
  obtain ⟨i, hi, files, hfiles, c, hc, hcorrection, hleads⟩ :=
    repaired_paths (by decide) hplays _ (List.mem_singleton_self _)
  rw [loneDocument_broken (by simp), List.mem_singleton] at hi
  have hfiles : files = loneFiles {} "b.js" := by simpa [loneLog] using hfiles
  rw [hi] at hcorrection
  rw [hfiles] at hc
  have hstands : c.Stands (loneRepairer "b.js").disk loneDocument.directory ∧
      Path.extension c.path = loneDocument.extension := by
    rw [List.mem_singleton.mp hc]
    exact ⟨⟨by decide +kernel, by decide +kernel, by decide +kernel, by decide +kernel, by decide +kernel⟩,
      by decide +kernel⟩
  exact ⟨c, hc, hcorrection, (hleads hstands.1).2 hstands.2⟩

/-- The document with its import corrected to a file with another extension. -/
def misledDocument : Document := { loneDocument with text := "import b from './lib/b'\n" }

/-- The file has another extension than the document. The pass reports that all is fixed, and the next one
finds the import that it has written broken. -/
theorem other_extension_broken :
    ((loneRepairer "b.jsx").fix loneDocument).Plays (loneLog {} "b.jsx")
        (.ok ⟨.allFixed, [⟨14, 19, "'./lib/b'"⟩], []⟩) ∧
      loneDocument.apply [⟨14, 19, "'./lib/b'"⟩] = .ok misledDocument ∧
      (loneRepairer "b.jsx").brokenImports misledDocument = [⟨"./lib/b", 14, 23, '\x27'⟩] := by
  refine ⟨?_, by decide +kernel, ?_⟩
  · rw [Repairer.fix_eq (loneDocument_broken (by simp))]
    exact Dialogue.plays_of_replay (by decide +kernel)
  · have himports : relativeImports misledDocument = [⟨"./lib/b", 14, 23, '\x27'⟩] :=
      relativeImports_of_sorted [14] _ (by decide +kernel) (by decide)
    rw [Repairer.brokenImports, himports]
    decide +kernel

end ImportAssist
