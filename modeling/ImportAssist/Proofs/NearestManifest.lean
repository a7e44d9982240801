import ImportAssist.Proofs.IgnoredDirectories

/-!
# The nearest manifest

The search for a manifest goes up from the directory of a document. `Nearest` says what it is meant to find: the
manifest of the first directory on the way up that holds one, on a way that ends at the root of the workspace, or at the
root of the disk for a directory that is not below that. `Climbs` is the search without a bound on its length, and
`nearest_manifest` says that it ends, and where.

The search knows the root of the workspace by its spelling, and there are two spellings of each place: behind one slash
and behind two. Where those of the root and of the directory differ, the search misses the root and goes on above it.
-/

namespace ImportAssist.Manifest

open ImportAssist.Path

/-! ## What is meant -/

/-- A directory, given by its segments, holds a manifest. -/
def HoldsManifest (disk : Disk) (place : List String) : Prop :=
  disk.isFile (rooted 1 (place ++ [fileName])) = true

instance (disk : Disk) (place : List String) : Decidable (HoldsManifest disk place) :=
  inferInstanceAs (Decidable (_ = true))

/-- The nearest directory with a manifest on the way up from `here` to `top`, if there is one. -/
def Nearest (disk : Disk) (top here : List String) : Option (List String) → Prop
  | some place => top <+: place ∧ place <+: here ∧ HoldsManifest disk place ∧
      ∀ nearer, place <+: nearer → nearer <+: here → HoldsManifest disk nearer → nearer = place
  | none => ∀ place, top <+: place → place <+: here → ¬HoldsManifest disk place

/-- How many slashes lead the normal spelling of a path. -/
def spelledSlashes (cwd path : String) : Nat := (Parts.read (absolute cwd path)).slashes

/-- The search finds the manifest of the nearest directory on the way up to `top`, spelled as the directory of the
document is. -/
def FindsNearest (disk : Disk) (directory root : String) (top : List String) : Prop :=
  ∃ place?, Nearest disk top (rootSegments disk.cwd directory) place? ∧
    find? disk directory root = place?.map fun place => rooted (spelledSlashes disk.cwd directory) (place ++ [fileName])

variable {disk : Disk} {root : String} {k k' : Nat} {top here init : List String} {last : String}
  {place? : Option (List String)}

theorem nearest_here (htop : top <+: here) (h : HoldsManifest disk here) : Nearest disk top here (some here) :=
  ⟨htop, List.prefix_rfl, h, fun _ hbelow habove _ => habove.eq_of_length_le hbelow.length_le⟩

theorem nearest_self (h : ¬HoldsManifest disk top) : Nearest disk top top none := fun _ hbelow habove => by
  rwa [habove.eq_of_length_le hbelow.length_le]

/-- A directory without a manifest is passed over. -/
theorem Nearest.up (hnone : ¬HoldsManifest disk (init ++ [last])) (h : Nearest disk top init place?) :
    Nearest disk top (init ++ [last]) place? := by
  cases place? with
  | none =>
      intro place hbelow habove hholds
      obtain rfl | habove := List.prefix_concat_iff.mp habove
      · exact hnone hholds
      · exact h place hbelow habove hholds
  | some place =>
      obtain ⟨hbelow, habove, hholds, hnearest⟩ := h
      refine ⟨hbelow, habove.trans (List.prefix_append _ _), hholds, fun nearer hover hunder hmanifest => ?_⟩
      obtain rfl | hunder := List.prefix_concat_iff.mp hunder
      · exact absurd hmanifest hnone
      · exact hnearest nearer hover hunder hmanifest

/-- There is but one nearest directory. -/
theorem Nearest.unique {other? : Option (List String)} (h : Nearest disk top here place?)
    (h' : Nearest disk top here other?) : place? = other? := by
  cases place? with
  | none =>
      cases other? with
      | none => rfl
      | some other => exact absurd h'.2.2.1 (h other h'.1 h'.2.1)
  | some place =>
      cases other? with
      | none => exact absurd h.2.2.1 (h' place h.1 h.2.1)
      | some other =>
          obtain ⟨-, hplace, hholds, hnearest⟩ := h
          obtain ⟨-, hother, hholds', hnearest'⟩ := h'
          obtain hover | hover := List.prefix_or_prefix_of_prefix hplace hother
          · rw [hnearest other hover hother hholds']
          · rw [hnearest' place hover hplace hholds]

/-- What is nearest on the way to the root of the disk is so on the way up to `top`, if nothing above `top` holds a
manifest that is missing below. -/
theorem Nearest.below (h : Nearest disk [] here place?) (htop : top <+: here)
    (hnone : Nearest disk top here none → Nearest disk [] here none) : Nearest disk top here place? := by
  cases place? with
  | none => exact fun place _ habove => h place List.nil_prefix habove
  | some place =>
      obtain ⟨-, hplace, hholds, hnearest⟩ := h
      obtain hover | hunder := List.prefix_or_prefix_of_prefix htop hplace
      · exact ⟨hover, hplace, hholds, hnearest⟩
      · -- All directories up to `top` are nearer, so only `top` itself can hold a manifest.
        by_cases hat : HoldsManifest disk top
        · obtain rfl := hnearest top hunder htop hat
          exact ⟨List.prefix_rfl, hplace, hholds, hnearest⟩
        · refine absurd hholds (hnone (fun between hover hbelow hmanifest => hat ?_) place List.nil_prefix hplace)
          obtain rfl := hnearest between (hunder.trans hover) hbelow hmanifest
          rwa [hover.eq_of_length_le hunder.length_le]

/-- What is found on the way to the root of the disk is what there is up to `top` exactly if nothing above `top` holds a
manifest that is missing below. -/
theorem Nearest.bounded_iff {path : List String → String} (h : Nearest disk [] here place?) (htop : top <+: here) :
    (∃ found?, Nearest disk top here found? ∧ place?.map path = found?.map path) ↔
      (Nearest disk top here none → Nearest disk [] here none) := by
  constructor
  · rintro ⟨found?, hbounded, hsame⟩ hnone
    rw [hbounded.unique hnone, Option.map_none, Option.map_eq_none_iff] at hsame
    rwa [hsame] at h
  · exact fun hnone => ⟨place?, h.below htop hnone, rfl⟩

/-! ## The search -/

/-- The search from a directory with what it ends in, however long it takes. -/
inductive Climbs (disk : Disk) (root : String) : String → Option String → Prop
  | found {directory : String} (hfile : disk.isFile (join directory fileName) = true) :
      Climbs disk root directory (some (join directory fileName))
  | stop {directory : String} (hfile : disk.isFile (join directory fileName) = false)
      (hend : directory = root ∨ Path.directory directory = directory) : Climbs disk root directory none
  | up {directory : String} {manifest? : Option String} (hfile : disk.isFile (join directory fileName) = false)
      (hroot : directory ≠ root) (htop : Path.directory directory ≠ directory)
      (hrest : Climbs disk root (Path.directory directory) manifest?) : Climbs disk root directory manifest?

theorem isSegment_fileName : IsSegment fileName := by
  refine ⟨?_, ?_, ?_, ?_⟩ <;> decide

/-- The slashes that lead a path make no difference to what it means. -/
theorem isFile_manifest (hk : k = 1 ∨ k = 2) (h : ∀ s ∈ here, IsSegment s) :
    disk.isFile (join (rooted k here) fileName) = true ↔ HoldsManifest disk here := by
  have hall : ∀ s ∈ here ++ [fileName], IsSegment s := by
    intro s hs
    obtain hs | hs := List.mem_append.mp hs
    · exact h s hs
    · exact List.mem_singleton.mp hs ▸ isSegment_fileName
  rw [Rooted.join_singleton hk h isSegment_fileName, HoldsManifest, Disk.isFile, Disk.isFile, Disk.entry?, Disk.entry?,
    Disk.find, Disk.find, Disk.locate_rooted hk hall, Disk.locate_rooted (.inl rfl) hall]

/-- Where the search stops: at the root of the workspace, if it comes across its spelling. -/
def limit (k k' : Nat) (top here : List String) : List String := if k = k' ∧ top <+: here then top else []

theorem limit_concat (h : ¬(k = k' ∧ top = init ++ [last])) :
    limit k k' top (init ++ [last]) = limit k k' top init := by
  unfold limit
  refine if_congr (and_congr_right fun hk => ?_) rfl rfl
  rw [List.prefix_concat_iff, or_iff_right]
  rintro rfl
  exact h ⟨hk, rfl⟩

theorem limit_above (k k' : Nat) (top here : List String) : limit k k' top here <+: here := by
  unfold limit
  split
  · rename_i h
    exact h.2
  · exact List.nil_prefix

theorem directory_top (hk : k = 1 ∨ k = 2) : directory (rooted k []) = rooted k [] := by
  obtain rfl | rfl := hk
  · decide
  · decide

theorem directory_ne (hk : k = 1 ∨ k = 2) (h : ∀ s ∈ init ++ [last], IsSegment s) :
    directory (rooted k (init ++ [last])) ≠ rooted k (init ++ [last]) := by
  have hinit : ∀ s ∈ init, IsSegment s := fun s hs => h s (List.mem_append_left _ hs)
  rw [directory_rooted hk hinit (h last (by simp)).no_slash]
  intro hsame
  simpa using (rooted_inj hk hk hinit h hsame).2

/-- With fuel for each segment the search ends where it is meant to. The induction takes away the last segment. -/
theorem findFrom_nearest (disk : Disk) (hk : k = 1 ∨ k = 2) (hk' : k' = 1 ∨ k' = 2) (htop : ∀ s ∈ top, IsSegment s) :
    ∀ {fuel : Nat} {here : List String}, here.length < fuel → (∀ s ∈ here, IsSegment s) →
      ∃ place?, Nearest disk (limit k k' top here) here place? ∧
        findFrom disk (rooted k' top) fuel (rooted k here) = place?.map (fun place => rooted k (place ++ [fileName])) ∧
        Climbs disk (rooted k' top) (rooted k here) (place?.map fun place => rooted k (place ++ [fileName]))
  | 0, _, hfuel, _ => absurd hfuel (Nat.not_lt_zero _)
  | fuel + 1, here, hfuel, hhere => by
      have hjoin := Rooted.join_singleton hk hhere isSegment_fileName
      have hholds : disk.isFile (join (rooted k here) fileName) = true ↔ HoldsManifest disk here :=
        isFile_manifest hk hhere
      rw [findFrom]
      by_cases hfile : disk.isFile (join (rooted k here) fileName) = true
      · refine ⟨some here, nearest_here (limit_above ..) (hholds.mp hfile), ?_, ?_⟩
        · rw [if_pos hfile, hjoin]
          rfl
        · rw [Option.map_some, ← hjoin]
          exact .found hfile
      · have hnone : ¬HoldsManifest disk here := mt hholds.mpr hfile
        rw [if_neg hfile]
        rw [Bool.not_eq_true] at hfile
        by_cases hroot : rooted k here = rooted k' top
        · obtain ⟨rfl, rfl⟩ := rooted_inj hk hk' hhere htop hroot
          refine ⟨none, ?_, if_pos (by simp), .stop hfile (.inl rfl)⟩
          rw [limit, if_pos ⟨rfl, List.prefix_rfl⟩]
          exact nearest_self hnone
        · obtain rfl | ⟨init, last, rfl⟩ := List.eq_nil_or_concat here
          · have hend := directory_top hk
            refine ⟨none, ?_, if_pos (by simp [hend]), .stop hfile (.inr hend)⟩
            rw [List.prefix_nil.mp (limit_above k k' top [])]
            exact nearest_self hnone
          · rw [List.concat_eq_append] at *
            have hinit : ∀ s ∈ init, IsSegment s := fun s hs => hhere s (List.mem_append_left _ hs)
            have hup := directory_rooted hk hinit (hhere last (by simp)).no_slash
            have hne := directory_ne hk hhere
            have hfuel : init.length < fuel := by simpa using hfuel
            obtain ⟨place?, hnearest, hfound, hclimbs⟩ := findFrom_nearest disk hk hk' htop hfuel hinit
            refine ⟨place?, ?_, ?_, .up hfile hroot hne (hup ▸ hclimbs)⟩
            · rw [limit_concat fun ⟨hsame, htop⟩ => hroot (by rw [hsame, htop])]
              exact hnearest.up hnone
            · rw [if_neg (by simp [hroot, hne]), hup, hfound]

/-! ## Where it ends -/

/-- A path by its normal spelling. -/
theorem absolute_spelled {cwd : String} (hcwd : isAbsolute cwd = true) (path : String) :
    (spelledSlashes cwd path = 1 ∨ spelledSlashes cwd path = 2) ∧ (∀ s ∈ rootSegments cwd path, IsSegment s) ∧
      absolute cwd path = rooted (spelledSlashes cwd path) (rootSegments cwd path) := by
  obtain ⟨k, hk, segments, hsegments, hpath⟩ := absolute_rooted hcwd path
  have hread : Parts.read (absolute cwd path) = ⟨k, segments⟩ := by rw [hpath, Parts.read_rooted hk hsegments]
  rw [spelledSlashes, rootSegments, hread]
  exact ⟨hk, hsegments, hpath⟩

/-- The search ends, at the manifest of the nearest directory up to where it stops. -/
theorem find?_nearest (hcwd : isAbsolute disk.cwd = true) (directory root : String) :
    FindsNearest disk directory root (limit (spelledSlashes disk.cwd directory) (spelledSlashes disk.cwd root)
      (rootSegments disk.cwd root) (rootSegments disk.cwd directory)) ∧
    Climbs disk (absolute disk.cwd root) (absolute disk.cwd directory) (find? disk directory root) := by
  obtain ⟨hk, hhere, hdirectory⟩ := absolute_spelled hcwd directory
  obtain ⟨hk', htop, hroot⟩ := absolute_spelled hcwd root
  have hfuel : (rootSegments disk.cwd directory).length < (pieces (absolute disk.cwd directory)).length + 1 := by
    rw [hdirectory, pieces_rooted _ hhere, List.length_append]
    split
    · rename_i hnil
      simp [hnil]
    · omega
  obtain ⟨place?, hnearest, hfound, hclimbs⟩ := findFrom_nearest disk hk hk' htop hfuel hhere
  rw [← hfound] at hclimbs
  rw [← hdirectory, ← hroot] at hfound hclimbs
  exact ⟨⟨place?, hnearest, hfound⟩, hclimbs⟩

/-- The search always ends. For a directory that is not at or below the root of the workspace it finds the nearest
manifest up to the root of the disk. For one that is, it finds the nearest manifest up to the root of the workspace
exactly if both are spelled behind as many slashes, or there is no manifest above a workspace that has none on the way;
otherwise it goes on to the root of the disk. -/
theorem nearest_manifest (hcwd : isAbsolute disk.cwd = true) (directory root : String) :
    Climbs disk (absolute disk.cwd root) (absolute disk.cwd directory) (find? disk directory root) ∧
    (rootSegments disk.cwd root <+: rootSegments disk.cwd directory →
      (FindsNearest disk directory root (rootSegments disk.cwd root) ↔
        spelledSlashes disk.cwd directory = spelledSlashes disk.cwd root ∨
          (Nearest disk (rootSegments disk.cwd root) (rootSegments disk.cwd directory) none →
            Nearest disk [] (rootSegments disk.cwd directory) none))) ∧
    (¬(spelledSlashes disk.cwd directory = spelledSlashes disk.cwd root ∧
        rootSegments disk.cwd root <+: rootSegments disk.cwd directory) → FindsNearest disk directory root []) := by
  obtain ⟨hfinds, hclimbs⟩ := find?_nearest hcwd directory root
  refine ⟨hclimbs, fun hbelow => ?_, fun hmissed => ?_⟩
  · by_cases hsame : spelledSlashes disk.cwd directory = spelledSlashes disk.cwd root
    · rw [limit, if_pos ⟨hsame, hbelow⟩] at hfinds
      exact iff_of_true hfinds (.inl hsame)
    · rw [limit, if_neg fun h => hsame h.1] at hfinds
      obtain ⟨place?, hnearest, hfind⟩ := hfinds
      rw [or_iff_right hsame, FindsNearest, hfind]
      exact hnearest.bounded_iff hbelow
  · rwa [limit, if_neg hmissed] at hfinds

/-- A project with a manifest, and a directory in it that has none. -/
def projectDisk : Disk where
  cwd := "/ws"
  entries := [(["ws"], .directory), (["ws", "package.json"], .file []), (["ws", "lib"], .directory),
    (["ws", "lib", "src"], .directory)]

/-- The root is found in a roundabout spelling, and the root of the disk bounds the search elsewhere. -/
theorem roundabout_root_bounds :
    FindsNearest projectDisk "lib/./src" "../ws/" (rootSegments "/ws" "../ws/") ∧
      FindsNearest projectDisk "/ws/lib" "/ws/lib/src" [] := by
  have hcwd : isAbsolute projectDisk.cwd = true := by decide
  obtain ⟨-, hbelow, -⟩ := nearest_manifest hcwd "lib/./src" "../ws/"
  obtain ⟨-, -, helsewhere⟩ := nearest_manifest hcwd "/ws/lib" "/ws/lib/src"
  exact ⟨(hbelow (by decide +kernel)).mpr (.inl (by decide +kernel)), helsewhere (by decide +kernel)⟩

/-- A root behind two slashes is missed: the manifest that is found lies above it. -/
theorem doubled_slash_overrun :
    rootSegments "/ws" "//ws/lib" = ["ws", "lib"] ∧ rootSegments "/ws" "/ws/lib/src" = ["ws", "lib", "src"] ∧
      find? projectDisk "/ws/lib/src" "//ws/lib" = some "/ws/package.json" ∧
      ¬FindsNearest projectDisk "/ws/lib/src" "//ws/lib" ["ws", "lib"] := by
  have hhere : rootSegments "/ws" "/ws/lib/src" = ["ws", "lib", "src"] := by decide +kernel
  have hfound : find? projectDisk "/ws/lib/src" "//ws/lib" = some "/ws/package.json" := by decide +kernel
  refine ⟨by decide +kernel, hhere, hfound, ?_⟩
  have hlib : Nearest projectDisk ["ws", "lib"] ["ws", "lib"] none := nearest_self (by decide +kernel)
  have hsource : ¬HoldsManifest projectDisk (["ws", "lib"] ++ ["src"]) := by decide +kernel
  have hnone : Nearest projectDisk ["ws", "lib"] ["ws", "lib", "src"] none := hlib.up hsource
  rintro ⟨place?, hnearest, hfind⟩
  rw [show projectDisk.cwd = "/ws" from rfl, hhere] at hnearest
  rw [hfound, hnearest.unique hnone] at hfind
  cases hfind

end ImportAssist.Manifest
