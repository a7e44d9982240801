import ImportAssist.Proofs.Attendance
import ImportAssist.Proofs.ImportPaths

/-!
# Import paths that lead nowhere unnoticed

Two procedures follow the path of an import. One looks for the file that is meant, to read its exports; the other
only asks whether anything is there, to tell broken imports. What the first one finds the second one sees. The
other way round they differ where a directory is all that is there: one in the place of the file, or one that is
meant itself and has no index file (`DeadEnd`).

So a repair leaves alone the imports that find a file, and those that end at such a directory
(`resolution_agrees_iff`).
-/

namespace ImportAssist

namespace Disk

variable {disk : Disk} {path : String}

theorem has_eq (disk : Disk) (path : String) : disk.has path = (disk.isFile path || disk.isDirectory path) := by
  unfold has isFile isDirectory
  cases disk.entry? path with
  | none => rfl
  | some entry => cases entry <;> rfl

theorem isDirectory_of_isFile (h : disk.isFile path = true) : disk.isDirectory path = false := by
  obtain ⟨content, hentry⟩ := isFile_iff.mp h
  rw [isDirectory, hentry]
  rfl

end Disk

/-- What is left of a path although no file is found by it. -/
inductive DeadEnd (disk : Disk) (extension target : String) : Prop where
  /-- A directory is called as the file would be. -/
  | misnamed : disk.isFile target = false → disk.isDirectory (target ++ "." ++ extension) = true →
      DeadEnd disk extension target
  /-- A directory without an index file. -/
  | withoutIndex : disk.isDirectory target = true → disk.has (target ++ "." ++ extension) = false →
      disk.isFile (Path.join target ("index." ++ extension)) = false → DeadEnd disk extension target

variable {disk : Disk} {extension directory path : String}

/-- What a module path leads to. -/
theorem isFile_modulePath :
    disk.isFile (modulePath disk extension directory path) = true ↔
      disk.isFile (Path.resolveImport directory path) = true ∨
        disk.isFile (Path.resolveImport directory path ++ "." ++ extension) = true ∨
        disk.isDirectory (Path.resolveImport directory path) = true ∧
          disk.has (Path.resolveImport directory path ++ "." ++ extension) = false ∧
          disk.isFile (Path.join (Path.resolveImport directory path) ("index." ++ extension)) = true := by
  unfold modulePath
  dsimp only
  generalize Path.resolveImport directory path = target
  cases hfile : disk.isFile target with
  | true => simp [hfile]
  | false =>
      rw [if_neg Bool.false_ne_true]
      cases hwith : disk.has (target ++ "." ++ extension) with
      | true => simp
      | false =>
          have hnone := hwith
          rw [Disk.has_eq, Bool.or_eq_false_iff] at hnone
          cases hdirectory : disk.isDirectory target with
          | true => simp [hnone.1]
          | false => simp

/-- What is there by an import path is what it leads to, or a dead end. -/
theorem isResolvable_iff :
    isResolvable disk extension directory path = true ↔
      disk.isFile (modulePath disk extension directory path) = true ∨
        DeadEnd disk extension (Path.resolveImport directory path) := by
  rw [isFile_modulePath, isResolvable, Bool.or_eq_true]
  generalize Path.resolveImport directory path = target
  constructor
  · intro h
    by_cases hfile : disk.isFile target = true
    · exact .inl (.inl hfile)
    · by_cases hwith : disk.has (target ++ "." ++ extension) = true
      · rw [Disk.has_eq, Bool.or_eq_true] at hwith
        exact hwith.imp (fun hwith => .inr (.inl hwith)) fun hwith => .misnamed (Bool.not_eq_true _ ▸ hfile) hwith
      · have htarget := h.resolve_right hwith
        rw [Disk.has_eq, Bool.or_eq_true] at htarget
        have hdirectory := htarget.resolve_left hfile
        rw [Bool.not_eq_true] at hwith
        by_cases hindex : disk.isFile (Path.join target ("index." ++ extension)) = true
        · exact .inl (.inr (.inr ⟨hdirectory, hwith, hindex⟩))
        · exact .inr (.withoutIndex hdirectory hwith (Bool.not_eq_true _ ▸ hindex))
  · rw [Disk.has_eq, Disk.has_eq, Bool.or_eq_true, Bool.or_eq_true]
    rintro ((hfile | hwith | ⟨hdirectory, -, -⟩) | ⟨-, hwith⟩ | ⟨hdirectory, -, -⟩)
    · exact .inl (.inl hfile)
    · exact .inr (.inl hwith)
    · exact .inl (.inr hdirectory)
    · exact .inr (.inr hwith)
    · exact .inl (.inr hdirectory)

/-- No file is found at a dead end. -/
theorem DeadEnd.isFile_modulePath_eq (h : DeadEnd disk extension (Path.resolveImport directory path)) :
    disk.isFile (modulePath disk extension directory path) = false := by
  rw [← Bool.not_eq_true, isFile_modulePath]
  cases h with
  | misnamed hfile hwith =>
      have hhas : disk.has (Path.resolveImport directory path ++ "." ++ extension) = true := by
        rw [Disk.has_eq, hwith, Bool.or_true]
      rintro (hfound | hfound | ⟨-, hnone, -⟩)
      · exact Bool.false_ne_true (hfile.symm.trans hfound)
      · rw [Disk.isDirectory_of_isFile hfound] at hwith
        cases hwith
      · rw [hhas] at hnone
        cases hnone
  | withoutIndex hdirectory hwith hindex =>
      rw [Disk.has_eq, Bool.or_eq_false_iff] at hwith
      rintro (hfound | hfound | ⟨-, -, hfound⟩)
      · rw [Disk.isDirectory_of_isFile hfound] at hdirectory
        cases hdirectory
      · exact Bool.false_ne_true (hwith.1.symm.trans hfound)
      · exact Bool.false_ne_true (hindex.symm.trans hfound)

/-- An import path counts as resolvable if it leads to a file or to a dead end, so the two agree but for dead ends.
The imports that a repair takes for broken are those that lead to no file and to no dead end. -/
theorem resolution_agrees_iff (disk : Disk) (extension directory path : String) :
    (isResolvable disk extension directory path = true ↔
        disk.isFile (modulePath disk extension directory path) = true ∨
          DeadEnd disk extension (Path.resolveImport directory path)) ∧
      ((isResolvable disk extension directory path = true ↔
          disk.isFile (modulePath disk extension directory path) = true) ↔
        ¬ DeadEnd disk extension (Path.resolveImport directory path)) ∧
      ∀ (r : Repairer) (d : Document) (i : RelativeImport), i ∈ r.brokenImports d ↔
        i ∈ relativeImports d ∧ r.disk.isFile (modulePath r.disk d.extension d.directory i.path) = false ∧
          ¬ DeadEnd r.disk d.extension (Path.resolveImport d.directory i.path) := by
  refine ⟨isResolvable_iff, ?_, fun r d i => ?_⟩
  · rw [isResolvable_iff]
    constructor
    · intro h hdead
      exact Bool.false_ne_true (hdead.isFile_modulePath_eq.symm.trans (h.mp (.inr hdead)))
    · exact fun hnot => or_iff_left hnot
  · rw [Repairer.brokenImports, List.mem_filter, Bool.not_eq_true', ← Bool.not_eq_true, isResolvable_iff, not_or,
      Bool.not_eq_true]

/-- A document that imports a directory. -/
def directoryDocument : Document := ⟨"/ws/a.js", "import b from './lib'\n", "javascript", 0⟩

/-- The directory is empty, and the import of it leads to no file; it does not count as broken. -/
theorem empty_directory_unnoticed :
    isResolvable (emptyFiles [] []) "js" "/ws" "./lib" = true ∧
      modulePath (emptyFiles [] []) "js" "/ws" "./lib" = "/ws/lib/index.js" ∧
      (emptyFiles [] []).isFile "/ws/lib/index.js" = false ∧
      relativeImports directoryDocument = [⟨"./lib", 14, 21, '\x27'⟩] ∧
      Repairer.brokenImports ⟨emptyFiles [] [], .javascript, "/ws"⟩ directoryDocument = [] := by
  have himports : relativeImports directoryDocument = [⟨"./lib", 14, 21, '\x27'⟩] :=
    relativeImports_of_sorted [14] _ (by decide +kernel) (by decide)
  refine ⟨by decide +kernel, by decide +kernel, by decide +kernel, himports, ?_⟩
  rw [Repairer.brokenImports, himports]
  decide +kernel

end ImportAssist
