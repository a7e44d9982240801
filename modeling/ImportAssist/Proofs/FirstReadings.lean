import ImportAssist.Proofs.OfferedPackages
import ImportAssist.Proofs.OrderedIndex

/-!
# The disks of first readings

The packages of a manifest are read when they are first wanted, and an index keeps them until it is made to forget
everything. Over a run of calls, each on a disk of its own, `firstRead` finds the disk of that reading: the first
after the last time that everything was forgotten. It is a fold over the run, so that one lemma for a call
(`kept?_of_call`) is enough for `Runs.kept`: the packages that an index has of a manifest are those that the manifest
had on that disk.
-/

namespace ImportAssist

/-- A call of an index, and the disk at that time. -/
structure IndexStep where
  disk : Disk
  call : IndexCall

namespace WorkspaceIndex

/-- The disk on which a manifest has been read for the first time, once a call has been made. -/
def firstReadAfter (root manifest : String) (before : Option Disk) (step : IndexStep) : Option Disk :=
  match step.call with
  | .invalidate => none
  | .packages directory =>
    before.or (if Manifest.find? step.disk directory root = some manifest then some step.disk else none)
  | .build | .add _ | .remove _ => before

/-- The disk on which a manifest has been read for the first time since an index last forgot everything. -/
def firstRead (root manifest : String) (steps : List IndexStep) : Option Disk :=
  steps.foldl (firstReadAfter root manifest) none

/-- An index that has come about by some calls, the oldest first. Those that fail leave it as it is. -/
inductive Runs (cwd root : String) (options : Options) (family : Family) : List IndexStep → WorkspaceIndex → Prop
  | create : Runs cwd root options family [] (.create cwd root options family)
  | call {steps : List IndexStep} {step : IndexStep} {index index' : WorkspaceIndex} (hdisk : step.disk.Sound)
      (hcwd : Path.isAbsolute step.disk.cwd = true) (h : Runs cwd root options family steps index)
      (hcall : index.call step.disk step.call = .ok index') : Runs cwd root options family (steps ++ [step]) index'

variable {disk : Disk} {index index' : WorkspaceIndex} {cwd root manifest : String} {options : Options}
  {family : Family} {steps : List IndexStep}

theorem Runs.reached (h : Runs cwd root options family steps index) : Reached cwd root options family index := by
  induction h with
  | create => exact .create
  | call hdisk hcwd _ hcall ih => exact .call hdisk hcwd ih hcall

/-! ## What an index keeps -/

theorem kept?_of_packages (h : index'.packages = index.packages) (manifest : String) :
    index'.kept? manifest = index.kept? manifest := by
  rw [kept?, h, kept?]

/-- The disk of the first reading is left as it is by a call, or forgotten with everything else, or it is that of the
call. What an index keeps goes along. -/
theorem kept?_of_call {step : IndexStep} {before : Option Disk} (hcall : index.call step.disk step.call = .ok index')
    (h : (index.kept? manifest).map .ok = before.map fun disk => Manifest.packages disk index.root manifest) :
    index'.root = index.root ∧ (index'.kept? manifest).map .ok =
      (firstReadAfter index.root manifest before step).map fun disk => Manifest.packages disk index.root manifest := by
  rw [firstReadAfter]
  cases hstep : step.call with
  | build =>
      rw [hstep, call] at hcall
      obtain ⟨⟨files, listed⟩, hbuild, rfl⟩ := map_eq_ok hcall
      obtain ⟨hroot, hsame⟩ := build_packages hbuild
      rw [kept?_of_packages hsame]
      exact ⟨hroot, h⟩
  | add path =>
      rw [hstep, call] at hcall
      obtain ⟨files?, rfl⟩ := Session.add_files hcall
      exact ⟨rfl, h⟩
  | remove path =>
      rw [hstep, call] at hcall
      cases hcall
      have hsame : (index.remove step.disk.cwd path).kept? manifest = index.kept? manifest := kept?_of_packages rfl _
      rw [hsame]
      exact ⟨rfl, h⟩
  | invalidate =>
      rw [hstep, call] at hcall
      cases hcall
      exact ⟨rfl, rfl⟩
  | packages directory =>
      rw [hstep, call] at hcall
      obtain ⟨⟨found, asked⟩, hpackages, rfl⟩ := map_eq_ok hcall
      obtain ⟨hroot, hkept⟩ := kept?_packagesFor hpackages manifest
      refine ⟨hroot, ?_⟩
      rw [hkept, h]
      cases before with
      | some disk => rfl
      | none =>
          dsimp only
          rw [Option.map_none, Option.none_or, Option.none_or]
          split <;> rfl

/-- The packages that an index has of a manifest are those on the disk of its first reading. -/
theorem Runs.kept (h : Runs cwd root options family steps index) (manifest : String) :
    index.root = Path.absolute cwd root ∧ (index.kept? manifest).map .ok =
      (firstRead index.root manifest steps).map fun disk => Manifest.packages disk index.root manifest := by
  induction h with
  | create =>
      constructor
      · rw [WorkspaceIndex.create]
      · rw [WorkspaceIndex.create, kept?, List.find?_nil, firstRead, List.foldl_nil]
        rfl
  | call _ _ _ hcall ih =>
      obtain ⟨hroot, hkept⟩ := kept?_of_call hcall ih.2
      rw [hroot, firstRead, List.foldl_append]
      exact ⟨ih.1, hkept⟩

end WorkspaceIndex

end ImportAssist
