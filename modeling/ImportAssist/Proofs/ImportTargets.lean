import ImportAssist.Proofs.RepairPass
import ImportAssist.Proofs.SiblingPaths

/-!
# Where import paths lead

An import path that is made for a file leads back to it: resolved in the directory of the document, its
segments are those of the file (`resolveImport_eq`, `follow_wayTo`). Without its last segment it leads to the
directory of the file, and without the extension to what the file would be without it
(`resolveImport_pathFrom`).

Paths count here by their segments. What a disk has under a path does not depend on more
(`Disk.has_rooted`).
-/

namespace ImportAssist.Path

/-! ## Segments of a text -/

/-- The segments that stand between the slashes of a text. -/
def segmentsOf (cs : List Char) : List String :=
  ((cs.splitOn '/').map String.ofList).filter fun s => s ≠ "" && s ≠ "."

theorem read_segments (path : String) : (Parts.read path).segments = segmentsOf path.toList := rfl

theorem segmentsOf_append_cons (front back : List Char) :
    segmentsOf (front ++ '/' :: back) = segmentsOf front ++ segmentsOf back := by
  rw [segmentsOf, List.splitOn_append_cons_self, List.map_append, List.filter_append]
  rfl

theorem segmentsOf_dot : segmentsOf ['.'] = [] := by decide

theorem segmentsOf_nil : segmentsOf [] = [] := by decide

/-- A segment of a way, which may lead up. -/
structure IsStep (s : String) : Prop where
  ne_empty : s ≠ ""
  ne_dot : s ≠ "."
  no_slash : '/' ∉ s.toList

theorem IsSegment.isStep {s : String} (h : IsSegment s) : IsStep s := ⟨h.ne_empty, h.ne_dot, h.no_slash⟩

theorem segmentsOf_piece {s : String} (h : '/' ∉ s.toList) :
    segmentsOf s.toList = [s].filter fun s => s ≠ "" && s ≠ "." := by
  rw [segmentsOf, List.splitOn_eq_singleton h, List.map_singleton, String.ofList_toList]

theorem segmentsOf_step {s : String} (h : IsStep s) : segmentsOf s.toList = [s] := by
  rw [segmentsOf_piece h.no_slash, List.filter_cons_of_pos (by simp [h.ne_empty, h.ne_dot]), List.filter_nil]

theorem segmentsOf_slashed : ∀ {way : List String}, (∀ s ∈ way, IsStep s) →
    segmentsOf (slashed way) = way
  | [], _ => segmentsOf_nil
  | [s], h => by
      have hsingle : slashed [s] = s.toList := by simp [slashed]
      rw [hsingle, segmentsOf_step (h s (List.mem_singleton_self s))]
  | s :: t :: way, h => by
      rw [slashed_cons_cons, segmentsOf_append_cons, segmentsOf_step (h s (List.mem_cons_self ..)),
        segmentsOf_slashed fun u hu => h u (List.mem_cons_of_mem _ hu)]
      rfl

/-! ## Joining and resolving -/

theorem read_join {k : Nat} {base piece : String} (hk : k = 1 ∨ k = 2) (h : Leads k base)
    (hpiece : '/' ∉ piece.toList) :
    (Parts.read (join base piece)).segments
      = (Parts.read base).segments ++ segmentsOf piece.toList := by
  have hrelative : isAbsolute piece = false := by
    rw [Bool.eq_false_iff]
    intro habsolute
    obtain ⟨rest, hrest⟩ := isAbsolute_iff.1 habsolute
    exact hpiece (by simp [hrest])
  have hne : base ≠ "" := by
    rintro rfl
    obtain ⟨rest, hrest⟩ := isAbsolute_iff.1 (h.isAbsolute hk)
    simp at hrest
  rw [join, if_neg (by simp [hrelative])]
  split
  · rename_i hend
    have hlast : base.toList.getLast? = some '/' := by simpa [hne] using hend
    obtain ⟨front, hfront⟩ := List.getLast?_eq_some_iff.mp hlast
    rw [read_segments, read_segments, String.toList_append, hfront, List.append_assoc, List.singleton_append,
      segmentsOf_append_cons, segmentsOf_append_cons, segmentsOf_nil, List.append_nil]
  · rw [read_segments, read_segments, String.toList_append, String.toList_append]
    exact (congrArg segmentsOf (List.append_assoc ..)).trans (segmentsOf_append_cons _ _)

theorem read_foldl_join {k : Nat} (hk : k = 1 ∨ k = 2) : ∀ (pieces : List String) {base : String},
    Leads k base → (∀ s ∈ pieces, '/' ∉ s.toList) →
      Leads k (pieces.foldl join base) ∧ (Parts.read (pieces.foldl join base)).segments
        = (Parts.read base).segments ++ pieces.flatMap fun s => segmentsOf s.toList
  | [], base, h, _ => ⟨h, by simp⟩
  | piece :: pieces, base, h, hpieces => by
      have hpiece := hpieces piece (List.mem_cons_self ..)
      obtain ⟨hleads, hsegments⟩ := read_foldl_join hk pieces (h.join hk hpiece) fun s hs =>
        hpieces s (List.mem_cons_of_mem _ hs)
      refine ⟨hleads, ?_⟩
      rw [List.foldl_cons, hsegments, read_join hk h hpiece, List.flatMap_cons, List.append_assoc]

theorem flatMap_pieces : ∀ {pieces : List String}, (∀ s ∈ pieces, '/' ∉ s.toList) →
    pieces.flatMap (fun s => segmentsOf s.toList) = pieces.filter fun s => s ≠ "" && s ≠ "."
  | [], _ => rfl
  | s :: pieces, h => by
      rw [List.flatMap_cons, segmentsOf_piece (h s (List.mem_cons_self ..)),
        flatMap_pieces fun t ht => h t (List.mem_cons_of_mem _ ht), ← List.filter_append, List.singleton_append]

theorem read_isStep (path : String) : ∀ s ∈ (Parts.read path).segments, IsStep s := by
  intro s hs
  obtain ⟨hmem, hkeep⟩ := List.mem_filter.1 hs
  rw [Bool.and_eq_true, decide_eq_true_eq, decide_eq_true_eq] at hkeep
  exact ⟨hkeep.1, hkeep.2, no_slash_of_mem_pieces hmem⟩

/-- The segments reached from a directory on a way. -/
def follow (here way : List String) : List String :=
  (way.foldl (Parts.push true) here.reverse).reverse

theorem follow_append (here way way' : List String) :
    follow here (way ++ way') = follow (follow here way) way' := by
  rw [follow, follow, follow, List.foldl_append, List.reverse_reverse]

section Resolve

variable {k : Nat} {base : String}

theorem resolve_read (hk : k = 1 ∨ k = 2) (h : Leads k base) :
    (Parts.read base).resolve = ⟨k, follow [] (Parts.read base).segments⟩ ∧
      ∀ s ∈ follow [] (Parts.read base).segments, IsSegment s := by
  have hslashes : (Parts.read base).slashes = k := leadingSlashes_of_leads hk h
  have hk0 : k ≠ 0 := by omega
  have hresolve : (Parts.read base).resolve = ⟨k, follow [] (Parts.read base).segments⟩ := by
    rw [Parts.resolve, hslashes, decide_eq_true hk0]
    rfl
  refine ⟨hresolve, fun s hs => ?_⟩
  have hsegment := resolve_isSegment (p := Parts.read base) (by rwa [hslashes]) fun t ht =>
    ⟨(read_isStep base t ht).ne_empty, (read_isStep base t ht).ne_dot, (read_isStep base t ht).no_slash⟩
  rw [hresolve] at hsegment
  exact hsegment s hs

theorem normalize_eq_rooted (hk : k = 1 ∨ k = 2) (h : Leads k base) :
    normalize base = rooted k (follow [] (Parts.read base).segments) := by
  rw [normalize, (resolve_read hk h).1, Parts.render]
  exact if_neg (rooted_ne_empty (by omega) _)

theorem rootSegments_eq (hk : k = 1 ∨ k = 2) (h : Leads k base) (cwd : String) :
    rootSegments cwd base = follow [] (Parts.read base).segments := by
  rw [rootSegments, absolute, if_pos (h.isAbsolute hk), normalize_eq_rooted hk h,
    Parts.read_rooted hk (resolve_read hk h).2]

/-- An import path means what is reached on its segments from the directory. -/
theorem resolveImport_eq (hk : k = 1 ∨ k = 2) (h : Leads k base) (cwd path : String) :
    resolveImport base path = rooted k (follow (rootSegments cwd base) (Parts.read path).segments) := by
  have hpieces : ∀ s ∈ pieces path, '/' ∉ s.toList := fun s hs => no_slash_of_mem_pieces hs
  obtain ⟨hleads, hsegments⟩ := read_foldl_join hk (pieces path) h hpieces
  rw [resolveImport, normalize_eq_rooted hk hleads, hsegments, follow_append, rootSegments_eq hk h,
    flatMap_pieces hpieces]
  rfl

end Resolve

/-! ## Ways -/

theorem foldl_push_dots : ∀ (n : Nat) {done : List String}, (∀ s ∈ done, IsSegment s) →
    (List.replicate n "..").foldl (Parts.push true) done = done.drop n
  | 0, done, _ => rfl
  | n + 1, [], h => by
      rw [List.replicate_succ, List.foldl_cons]
      exact (foldl_push_dots n h).trans (by simp)
  | n + 1, s :: done, h => by
      have hpush : Parts.push true (s :: done) ".." = done := by
        rw [Parts.push, if_pos rfl]
        exact if_neg (h s (List.mem_cons_self ..)).ne_dots
      rw [List.replicate_succ, List.foldl_cons, hpush,
        foldl_push_dots n fun t ht => h t (List.mem_cons_of_mem _ ht), List.drop_succ_cons]

theorem foldl_push_segments : ∀ {way : List String} (done : List String), (∀ s ∈ way, IsSegment s) →
    way.foldl (Parts.push true) done = way.reverse ++ done
  | [], _, _ => rfl
  | s :: way, done, h => by
      have hpush : Parts.push true done s = s :: done := if_neg (h s (List.mem_cons_self ..)).ne_dots
      rw [List.foldl_cons, hpush, foldl_push_segments _ fun t ht => h t (List.mem_cons_of_mem _ ht),
        List.reverse_cons, List.append_assoc, List.singleton_append]

/-- Segments that name something lead down. -/
theorem follow_segments (here : List String) {way : List String} (h : ∀ s ∈ way, IsSegment s) :
    follow here way = here ++ way := by
  rw [follow, foldl_push_segments _ h, List.reverse_append, List.reverse_reverse, List.reverse_reverse]

theorem sharedLength_le_left : ∀ here there : List String, sharedLength here there ≤ here.length
  | [], _ => by simp [sharedLength]
  | _ :: _, [] => by simp [sharedLength]
  | a :: as, b :: bs => by
      rw [sharedLength]
      split
      · simpa using sharedLength_le_left as bs
      · simp

theorem take_sharedLength : ∀ here there : List String,
    here.take (sharedLength here there) = there.take (sharedLength here there)
  | [], there => by cases there <;> rfl
  | _ :: _, [] => rfl
  | a :: as, b :: bs => by
      rw [sharedLength]
      split
      · rename_i heq
        rw [heq, List.take_succ_cons, List.take_succ_cons, take_sharedLength as bs]
      · rfl

/-- The way between two directories leads from one to the other. -/
theorem follow_wayTo {here segments : List String} (hhere : ∀ s ∈ here, IsSegment s)
    (h : ∀ s ∈ segments, IsSegment s) : follow here (wayTo here segments) = segments := by
  have hup : follow here (List.replicate (here.length - sharedLength here segments) "..")
      = segments.take (sharedLength here segments) := by
    rw [follow, foldl_push_dots _ fun s hs => hhere s (List.mem_reverse.mp hs), List.drop_reverse,
      List.reverse_reverse, Nat.sub_sub_self (sharedLength_le_left here segments), take_sharedLength]
  rw [wayTo, follow_append, hup, follow_segments _ fun s hs => h s (List.mem_of_mem_drop hs),
    List.take_append_drop]

theorem wayTo_isStep {here segments : List String} (h : ∀ s ∈ segments, IsSegment s) :
    ∀ s ∈ wayTo here segments, IsStep s := by
  intro s hs
  rcases List.mem_append.mp hs with hs | hs
  · rw [List.eq_of_mem_replicate hs]
    exact ⟨by decide, by decide, by decide⟩
  · exact (h s (List.mem_of_mem_drop hs)).isStep

theorem no_backslash_slashed : ∀ {way : List String}, (∀ s ∈ way, '\\' ∉ s.toList) → '\\' ∉ slashed way
  | [], _ => by simp [slashed]
  | [s], h => by simpa [slashed] using h s (List.mem_singleton_self s)
  | s :: t :: way, h => by
      rw [slashed_cons_cons, List.mem_append, not_or]
      refine ⟨h s (List.mem_cons_self ..), ?_⟩
      rw [List.mem_cons, not_or]
      exact ⟨by decide, no_backslash_slashed fun u hu => h u (List.mem_cons_of_mem _ hu)⟩

theorem mem_slashed {x : Char} {s : String} : ∀ {way : List String}, s ∈ way → x ∈ s.toList → x ∈ slashed way
  | [t], hs, hx => by
      rw [List.mem_singleton.mp hs] at hx
      simpa [slashed] using hx
  | t :: u :: way, hs, hx => by
      rw [slashed_cons_cons, List.mem_append]
      rcases List.mem_cons.mp hs with rfl | hs
      · exact .inl hx
      · exact .inr (List.mem_cons_of_mem _ (mem_slashed hs hx))

/-- In front of the name, an import path leads on the way to the directory. -/
theorem segmentsOf_approach {way : List String} (hstep : ∀ s ∈ way, IsStep s)
    (hslashes : ∀ s ∈ way, '\\' ∉ s.toList) : segmentsOf (approach way) = way := by
  have htext : (toSlashes (String.ofList (slashed way))).toList = slashed way := by
    rw [toList_toSlashes, String.toList_ofList, map_toSlashes_eq (no_backslash_slashed hslashes)]
  unfold approach
  split
  · rename_i hnil
    rw [hnil, segmentsOf_dot]
  · dsimp only
    rw [htext]
    split
    · exact segmentsOf_slashed hstep
    · exact (segmentsOf_append_cons ['.'] (slashed way)).trans (by
        rw [segmentsOf_dot, segmentsOf_slashed hstep, List.nil_append])

end ImportAssist.Path

namespace ImportAssist

open ImportAssist.Path

/-! ## What a disk has -/

namespace Disk

variable {disk : Disk} {segments : List String}

theorem locate_rooted {k : Nat} (hk : k = 1 ∨ k = 2) (h : ∀ s ∈ segments, IsSegment s) :
    disk.locate (rooted k segments) = segments.foldlM disk.step [] := by
  have hstay : disk.step [] "" = .ok [] := rfl
  have habsolute : Path.isAbsolute (rooted k segments) = true :=
    (Rooted.leads ⟨segments, h, rfl⟩).isAbsolute hk
  rw [locate, if_neg (rooted_ne_empty (by omega) _), if_pos habsolute, pieces_rooted k h]
  have hslashes : ∀ n (rest : List String),
      (List.replicate n "" ++ rest).foldlM disk.step [] = rest.foldlM disk.step [] := by
    intro n rest
    induction n with
    | zero => rfl
    | succ n ih =>
        rw [List.replicate_succ, List.cons_append, List.foldlM_cons, hstay]
        exact ih
  rw [hslashes]
  by_cases hnil : segments = []
  · rw [if_pos hnil, hnil]
    rfl
  · rw [if_neg hnil]

/-- How many slashes lead a path makes no difference to a disk. -/
theorem has_rooted {k k' : Nat} (hk : k = 1 ∨ k = 2) (hk' : k' = 1 ∨ k' = 2)
    (h : ∀ s ∈ segments, IsSegment s) : disk.has (rooted k segments) = disk.has (rooted k' segments) := by
  rw [has, has, entry?, entry?, find, find, locate_rooted hk h, locate_rooted hk' h]

theorem entry?_eq_some {path : String} {entry : Entry} :
    disk.entry? path = some entry ↔ ∃ place, disk.locate path = .ok place ∧ disk.at? place = some entry := by
  unfold entry? find
  cases disk.locate path with
  | error fault => simp [bind, Except.bind, Except.toOption]
  | ok place =>
      cases hat : disk.at? place with
      | none => simp [bind, Except.bind, Except.toOption, hat, throw, throwThe, MonadExceptOf.throw]
      | some found => simp [bind, Except.bind, Except.toOption, hat, pure, Except.pure]

theorem has_iff {path : String} : disk.has path = true ↔ ∃ entry, disk.entry? path = some entry := by
  rw [has, Option.isSome_iff_exists]

theorem isFile_iff {path : String} :
    disk.isFile path = true ↔ ∃ content, disk.entry? path = some (.file content) := by
  unfold isFile
  split <;> simp_all

theorem isDirectory_iff {path : String} :
    disk.isDirectory path = true ↔ disk.entry? path = some .directory := by
  rw [isDirectory, beq_iff_eq]

theorem place_eq {k : Nat} {place : List String} (hk : k = 1 ∨ k = 2) (h : ∀ s ∈ segments, IsSegment s)
    (hplace : disk.locate (rooted k segments) = .ok place) : place = segments := by
  rw [locate_rooted hk h] at hplace
  have hdots : ".." ∉ segments := fun hmem => (h _ hmem).ne_dots rfl
  rw [foldlM_step_eq hdots hplace, List.nil_append]
  exact List.filter_eq_self.2 fun s hs => by simp [(h s hs).ne_empty, (h s hs).ne_dot]

/-- What is there lies in directories all the way. -/
theorem isDirectory_of_has {k : Nat} {way : List String} (hk : k = 1 ∨ k = 2)
    (h : ∀ s ∈ segments ++ way, IsSegment s) (hne : way ≠ [])
    (hhas : disk.has (rooted k (segments ++ way)) = true) : disk.isDirectory (rooted k segments) = true := by
  obtain ⟨entry, hentry⟩ := has_iff.mp hhas
  obtain ⟨place, hplace, -⟩ := entry?_eq_some.mp hentry
  obtain ⟨name, rest, rfl⟩ := List.exists_cons_of_ne_nil hne
  rw [locate_rooted hk h, List.foldlM_append] at hplace
  obtain ⟨directory, hdirectory, hrest⟩ := bind_eq_ok hplace
  rw [isDirectory_iff, entry?_eq_some]
  refine ⟨directory, ?_, ?_⟩
  · rw [locate_rooted hk fun s hs => h s (List.mem_append_left _ hs), hdirectory]
  · -- A step from this place would fail if anything but a directory were there.
    rw [List.foldlM_cons] at hrest
    obtain ⟨there, hstep, -⟩ := bind_eq_ok hrest
    rw [step] at hstep
    split at hstep
    · cases hstep
    · cases hstep
    · assumption

theorem has_directory {k : Nat} {name : String} (hk : k = 1 ∨ k = 2)
    (h : ∀ s ∈ segments ++ [name], IsSegment s) (hhas : disk.has (rooted k (segments ++ [name])) = true) :
    disk.has (rooted k segments) = true :=
  has_iff.mpr ⟨_, isDirectory_iff.mp (isDirectory_of_has hk h (List.cons_ne_nil _ _) hhas)⟩

end Disk

/-! ## Import paths of files -/

namespace Path

theorem segmentsOf_slashes (cs : List Char) : ∀ n, segmentsOf (cs ++ List.replicate n '/') = segmentsOf cs
  | 0 => by rw [List.replicate_zero, List.append_nil]
  | n + 1 => by
      have hnone : segmentsOf (List.replicate n '/') = [] := segmentsOf_slashes [] n
      rw [List.replicate_succ, segmentsOf_append_cons, hnone, List.append_nil]

/-- Without its last segment, an import path leads on what stands in front of that. -/
theorem read_stripLastSegment {path : String} {front name : List Char} (hname : '/' ∉ name)
    (hpath : path.toList = front ++ '/' :: name) :
    (Parts.read (stripLastSegment path)).segments = segmentsOf front := by
  obtain ⟨n, hslashes⟩ := stripLastSegment_append_slashes hname hpath
  rw [read_segments, ← segmentsOf_slashes _ n, hslashes]
  exact segmentsOf_slashes front 1

theorem read_ends {path last : String} {front : List Char} (hlast : IsStep last)
    (hends : path.toList = front ++ '/' :: last.toList ∨ front = [] ∧ path.toList = last.toList) :
    (Parts.read path).segments = segmentsOf front ++ [last] := by
  rcases hends with hends | ⟨rfl, hends⟩
  · rw [read_segments, hends, segmentsOf_append_cons, segmentsOf_step hlast]
  · rw [read_segments, hends, segmentsOf_step hlast, segmentsOf_nil, List.nil_append]

theorem isSegment_append {segments : List String} {name : String} (h : ∀ s ∈ segments, IsSegment s)
    (hname : IsSegment name) : ∀ s ∈ segments ++ [name], IsSegment s := by
  intro s hs
  rcases List.mem_append.mp hs with hs | hs
  · exact h s hs
  · rw [List.mem_singleton.mp hs]
    exact hname

theorem stripLastSegment_name {path : String} (h : '/' ∉ path.toList) : stripLastSegment path = "." := by
  have hnone : path.toList.reverse.dropWhile (· != '/') = [] := by
    rw [List.dropWhile_eq_nil_iff]
    intro c hc
    simpa using fun e : c = '/' => h (e ▸ List.mem_reverse.mp hc)
  rw [stripLastSegment, directory, hnone]
  rfl

end Path

namespace FileCandidate

variable {c : FileCandidate} {k k' : Nat} {segments : List String} {name cwd start : String}

theorem stem_append (hname : fileName c.path = name) (hfamily : c.inFamily = true) :
    name.toList = (stem c.path).toList ++ '.' :: (extension c.path).toList ∧ Telling (stem c.path).toList := by
  obtain ⟨hparts, -, htelling⟩ := fileName_eq_of_extension (extension_ne_of_inFamily hfamily)
  rw [hname] at hparts
  exact ⟨hparts, htelling⟩

theorem stem_isSegment (hname : fileName c.path = name) (hslash : '/' ∉ name.toList)
    (hfamily : c.inFamily = true) : IsSegment (stem c.path) := by
  obtain ⟨hparts, x, hx, hdot, -⟩ := stem_append hname hfamily
  refine isSegment_of_mem (fun hmem => hslash ?_) hx hdot
  rw [hparts]
  exact List.mem_append_left _ hmem

theorem inFamily_of_withoutExtension (h : c.withoutExtension = true) : c.inFamily = true :=
  (Bool.and_eq_true_iff.mp h).2

/-- The last segment of an import path, by which it means the file; none for that of its directory. -/
def shown (c : FileCandidate) : List String :=
  if c.throughDirectory then []
  else if c.withoutExtension then [stem c.path]
  else [fileName c.path]

/-- What a file is without its extension. -/
def bare (c : FileCandidate) : String := stripExtension c.path (extension c.path)

/-- A file by its name in a directory, and not where the way to another directory leads through. -/
structure Placed (c : FileCandidate) (cwd start : String) (k : Nat) (segments : List String)
    (name : String) : Prop where
  slashes : k = 1 ∨ k = 2
  path_eq : c.path = rooted k (segments ++ [name])
  isSegment : ∀ s ∈ segments ++ [name], IsSegment s
  no_backslash : ∀ s ∈ segments ++ [name], '\\' ∉ s.toList
  notAbove : ¬ segments ++ [name] <+: rootSegments cwd start

theorem placed_of_rooted (hk : k = 1 ∨ k = 2) (hpath : Rooted k c.path) (hslashes : '\\' ∉ c.path.toList)
    (habove : ¬ rootSegments cwd c.path <+: rootSegments cwd start) :
    ∃ segments name, c.Placed cwd start k segments name := by
  obtain ⟨all, hall, hpath⟩ := hpath
  rw [hpath, rootSegments_rooted hk hall] at habove
  rcases List.eq_nil_or_concat all with rfl | ⟨segments, name, rfl⟩
  · exact absurd List.nil_prefix habove
  · rw [List.concat_eq_append] at hall hpath habove
    refine ⟨segments, name, hk, hpath, hall, fun s hs hmem => hslashes ?_, habove⟩
    rw [hpath, toList_rooted]
    exact List.mem_append_right _ (mem_slashed hs hmem)

namespace Placed

variable (h : c.Placed cwd start k segments name)

include h

theorem name_isSegment : IsSegment name := h.isSegment name (by simp)

theorem segments_isSegment : ∀ s ∈ segments, IsSegment s :=
  fun s hs => h.isSegment s (List.mem_append_left _ hs)

theorem fileName_eq : fileName c.path = name := by
  rw [h.path_eq, fileName_rooted h.slashes h.name_isSegment.no_slash]

theorem directory_eq : directory c.path = rooted k segments := by
  rw [h.path_eq, directory_rooted h.slashes h.segments_isSegment h.name_isSegment.no_slash]

theorem shown_isSegment : ∀ s ∈ c.shown, IsSegment s := by
  intro s hs
  unfold shown at hs
  split at hs
  · exact absurd hs List.not_mem_nil
  · split at hs
    · rename_i hwithout
      rw [List.mem_singleton.mp hs]
      exact stem_isSegment h.fileName_eq h.name_isSegment.no_slash (inFamily_of_withoutExtension hwithout)
    · rw [List.mem_singleton.mp hs, h.fileName_eq]
      exact h.name_isSegment

theorem way_no_backslash : ∀ s ∈ wayTo (rootSegments cwd start) segments, '\\' ∉ s.toList := by
  intro s hs
  rcases List.mem_append.mp hs with hs | hs
  · rw [List.eq_of_mem_replicate hs]
    decide
  · exact h.no_backslash s (List.mem_append_left _ (List.mem_of_mem_drop hs))

/-- In an import path the name of the file stands behind the way to its directory, or alone. -/
theorem importPath_ends : ∃ front, segmentsOf front = wayTo (rootSegments cwd start) segments ∧
    ((importPath cwd c.path start).toList = front ++ '/' :: name.toList ∨
      front = [] ∧ (importPath cwd c.path start).toList = name.toList) := by
  have happroach := segmentsOf_approach (wayTo_isStep h.segments_isSegment) h.way_no_backslash
  rw [h.path_eq]
  rcases importPath_file h.slashes h.isSegment (h.no_backslash name (by simp)) h.notAbove with
    hends | ⟨-, hnil, hends⟩
  · exact ⟨_, happroach, .inl hends⟩
  · exact ⟨[], by rw [hnil, segmentsOf_nil], .inr ⟨rfl, hends⟩⟩

/-- What a path shows of the name stands in its place. -/
theorem pathFrom_ends (hthrough : ¬ c.throughDirectory = true) :
    ∃ front last, c.shown = [last] ∧ segmentsOf front = wayTo (rootSegments cwd start) segments ∧
      ((c.pathFrom cwd start).toList = front ++ '/' :: last.toList ∨
        front = [] ∧ (c.pathFrom cwd start).toList = last.toList) := by
  obtain ⟨front, hfront, hends⟩ := h.importPath_ends
  unfold shown pathFrom
  dsimp only
  rw [if_neg hthrough, if_neg hthrough]
  by_cases hwithout : c.withoutExtension = true
  · have hfamily := inFamily_of_withoutExtension hwithout
    have hext := extension_ne_of_inFamily hfamily
    obtain ⟨hparts, -⟩ := stem_append h.fileName_eq hfamily
    rw [if_pos hwithout, if_pos hwithout]
    refine ⟨front, _, rfl, hfront, ?_⟩
    rw [hparts] at hends
    refine hends.imp (fun hends => ?_) fun ⟨hnil, hends⟩ => ⟨hnil, ?_⟩
    · exact toList_stripExtension hext (by rw [hends, List.append_assoc, List.cons_append])
    · exact toList_stripExtension hext hends
  · rw [if_neg hwithout, if_neg hwithout, h.fileName_eq]
    exact ⟨front, name, rfl, hfront, hends⟩

/-- The import path of a file leads to its directory, and from there to what it shows of its name. -/
theorem read_pathFrom :
    (Parts.read (c.pathFrom cwd start)).segments = wayTo (rootSegments cwd start) segments ++ c.shown := by
  by_cases hthrough : c.throughDirectory = true
  · obtain ⟨front, hfront, hends⟩ := h.importPath_ends
    unfold pathFrom shown
    rw [if_pos hthrough, if_pos hthrough, List.append_nil, ← hfront]
    rcases hends with hends | ⟨rfl, hends⟩
    · exact read_stripLastSegment h.name_isSegment.no_slash hends
    · rw [stripLastSegment_name (by rw [hends]; exact h.name_isSegment.no_slash)]
      rfl
  · obtain ⟨front, last, hshown, hfront, hends⟩ := h.pathFrom_ends hthrough
    rw [hshown, ← hfront]
    exact read_ends (h.shown_isSegment last (by simp [hshown])).isStep hends

theorem follow_way (hk : k' = 1 ∨ k' = 2) (hstart : Leads k' start) {shown : List String}
    (hshown : ∀ s ∈ shown, IsSegment s) :
    follow (rootSegments cwd start) (wayTo (rootSegments cwd start) segments ++ shown) = segments ++ shown := by
  have hhere : ∀ s ∈ rootSegments cwd start, IsSegment s := by
    rw [rootSegments_eq hk hstart]
    exact (resolve_read hk hstart).2
  rw [follow_append, follow_wayTo hhere h.segments_isSegment, follow_segments _ hshown]

/-- An import path means the directory of the file, followed by what it shows of its name. -/
theorem resolveImport_pathFrom (hk : k' = 1 ∨ k' = 2) (hstart : Leads k' start) :
    resolveImport start (c.pathFrom cwd start) = rooted k' (segments ++ c.shown) := by
  rw [resolveImport_eq hk hstart cwd, h.read_pathFrom, h.follow_way hk hstart h.shown_isSegment]

/-- With the whole name it means the file. -/
theorem resolveImport_importPath (hk : k' = 1 ∨ k' = 2) (hstart : Leads k' start) :
    resolveImport start (importPath cwd c.path start) = rooted k' (segments ++ [name]) := by
  obtain ⟨front, hfront, hends⟩ := h.importPath_ends
  rw [resolveImport_eq hk hstart cwd, read_ends h.name_isSegment.isStep hends, hfront,
    h.follow_way hk hstart (by simpa using h.name_isSegment)]

theorem bare_eq (hfamily : c.inFamily = true) : c.bare = rooted k (segments ++ [stem c.path]) := by
  obtain ⟨hparts, -⟩ := stem_append h.fileName_eq hfamily
  apply String.toList_inj.1
  rw [bare, toList_rooted_file h.slashes]
  refine toList_stripExtension (extension_ne_of_inFamily hfamily) ((congrArg String.toList h.path_eq).trans ?_)
  rw [toList_rooted_file h.slashes, hparts, List.append_assoc, List.cons_append]

theorem bare_append (hfamily : c.inFamily = true) (ext : String) :
    c.bare ++ "." ++ ext = rooted k (segments ++ [stem c.path ++ "." ++ ext]) := by
  rw [h.bare_eq hfamily, rooted_append_singleton, rooted_append_singleton]
  simp only [String.append_assoc]

theorem bare_extension (hfamily : c.inFamily = true) : c.bare ++ "." ++ extension c.path = c.path := by
  obtain ⟨hparts, -⟩ := stem_append h.fileName_eq hfamily
  have hname : stem c.path ++ "." ++ extension c.path = name := by
    apply String.toList_inj.1
    rw [hparts, String.toList_append, String.toList_append, List.append_assoc]
    rfl
  rw [h.bare_append hfamily, hname, ← h.path_eq]

end Placed

/-- A file of an index that is on the disk, and not where the way to a directory leads through. -/
structure Stands (disk : Disk) (fromDirectory : String) (c : FileCandidate) : Prop where
  isAbsolute : Path.isAbsolute c.path = true
  normal : Path.normalize c.path = c.path
  no_backslash : '\\' ∉ c.path.toList
  there : disk.has c.path = true
  notAbove : ¬ rootSegments disk.cwd c.path <+: rootSegments disk.cwd fromDirectory

theorem Stands.placed {disk : Disk} (h : c.Stands disk start) :
    ∃ k segments name, c.Placed disk.cwd start k segments name := by
  have hpath := normalize_rooted h.isAbsolute
  rw [h.normal] at hpath
  exact ⟨_, placed_of_rooted (leadingSlashes_of_isAbsolute h.isAbsolute) hpath h.no_backslash h.notAbove⟩

theorem Stands.bare_extension {disk : Disk} (h : c.Stands disk start) (hfamily : c.inFamily = true) :
    c.bare ++ "." ++ extension c.path = c.path := by
  obtain ⟨k, segments, name, hplaced⟩ := h.placed
  exact hplaced.bare_extension hfamily

end FileCandidate

/-- Whether a document finds what an import path for a file means. The path of an index file that stands for its
directory always leads somewhere, as does one with the full name. Without the extension the path leads to the
file only if the document has the same extension, and otherwise to what else is there by that name. -/
theorem isResolvable_pathFrom {disk : Disk} {d : Document} {c : FileCandidate}
    (hd : Path.isAbsolute d.path = true) (h : c.Stands disk d.directory) :
    isResolvable disk d.extension d.directory (c.pathFrom disk.cwd d.directory) = true ↔
      c.throughDirectory = true ∨ c.withoutExtension = false ∨ disk.has c.bare = true ∨
        disk.has (c.bare ++ "." ++ d.extension) = true := by
  obtain ⟨k, segments, name, hplaced⟩ := h.placed
  have hk := hplaced.slashes
  have hsegments := hplaced.segments_isSegment
  have hk' := leadingSlashes_of_isAbsolute hd
  have hleads : Leads (leadingSlashes d.path) d.directory := (normalize_rooted hd).leads.directory
  have htarget := hplaced.resolveImport_pathFrom hk' hleads
  have hthere := h.there
  rw [hplaced.path_eq] at hthere
  by_cases hthrough : c.throughDirectory = true
  · have hshown : c.shown = [] := if_pos hthrough
    rw [hshown, List.append_nil] at htarget
    refine iff_of_true ?_ (.inl hthrough)
    rw [isResolvable, htarget, Disk.has_rooted hk' hk hsegments,
      Disk.has_directory hk hplaced.isSegment hthere]
    rfl
  · by_cases hwithout : c.withoutExtension = true
    · have hfamily := FileCandidate.inFamily_of_withoutExtension hwithout
      have hshown : c.shown = [stem c.path] := by rw [FileCandidate.shown, if_neg hthrough, if_pos hwithout]
      have hstem : IsSegment (stem c.path) := hplaced.shown_isSegment _ (by simp [hshown])
      have hput : rooted (leadingSlashes d.path) (segments ++ [stem c.path]) ++ "." ++ d.extension =
          rooted (leadingSlashes d.path) (segments ++ [stem c.path ++ "." ++ d.extension]) := by
        rw [rooted_append_singleton, rooted_append_singleton]
        simp only [String.append_assoc]
      have hext : IsExtension d.extension := isExtension_extension _
      have hwith := isSegment_append hsegments (hstem.withExtension hext)
      rw [hshown] at htarget
      rw [isResolvable, htarget, hput, Disk.has_rooted hk' hk (isSegment_append hsegments hstem),
        Disk.has_rooted hk' hk hwith, ← hplaced.bare_eq hfamily, ← hplaced.bare_append hfamily, Bool.or_eq_true]
      simp [hthrough, hwithout]
    · have hshown : c.shown = [name] := by
        rw [FileCandidate.shown, if_neg hthrough, if_neg hwithout, hplaced.fileName_eq]
      refine iff_of_true ?_ (.inr (.inl (Bool.not_eq_true _ ▸ hwithout)))
      rw [isResolvable, htarget, hshown, Disk.has_rooted hk' hk hplaced.isSegment, hthere]
      rfl

end ImportAssist
