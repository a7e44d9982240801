import Mathlib.Data.List.TakeWhile
import ImportAssist.Modules.Surface

/-!
# Paths from the root

The normal spelling of an absolute path is determined by the segments it leads through, once the
number of its leading slashes is fixed (`Parts.read_rooted`). So a disk has at most one such path
for each of its entries (`place_of_read`), and a relative import path seen from one of them means
another one, or nothing that can be read (`relativeModule_rooted`): following relative imports
never leaves a finite set of files.

The number of leading slashes is one or two, and everything here keeps it.
-/

namespace ImportAssist.Path

/-- A segment that names a file or a directory. -/
structure IsSegment (s : String) : Prop where
  ne_empty : s ≠ ""
  ne_dot : s ≠ "."
  ne_dots : s ≠ ".."
  no_slash : '/' ∉ s.toList

/-- The path from the root through some segments. -/
def rooted (k : Nat) (segments : List String) : String := (Parts.mk k segments).join

/-- A normal path from the root, behind `k` slashes. -/
def Rooted (k : Nat) (path : String) : Prop :=
  ∃ segments, (∀ s ∈ segments, IsSegment s) ∧ path = rooted k segments

/-- A path of which exactly the first `k` characters lead to the root. -/
def Leads (k : Nat) (path : String) : Prop :=
  ∃ rest, path.toList = List.replicate k '/' ++ rest ∧ rest.head? ≠ some '/'

/-! ## Characters and pieces -/

/-- The characters of segments with slashes between them. -/
def slashed (segments : List String) : List Char := ['/'].intercalate (segments.map String.toList)

theorem toList_rooted (k : Nat) (segments : List String) :
    (rooted k segments).toList = List.replicate k '/' ++ slashed segments := by
  simp [rooted, Parts.join, slashed]

theorem slashed_cons_cons (s t : String) (segments : List String) :
    slashed (s :: t :: segments) = s.toList ++ '/' :: slashed (t :: segments) := by
  simp [slashed, List.intercalate_cons_cons]

theorem slashed_append_singleton : ∀ (segments : List String) (s : String),
    slashed (segments ++ [s])
      = (if segments = [] then [] else slashed segments ++ ['/']) ++ s.toList
  | [], s => by simp [slashed]
  | [t], s => by simp [slashed]
  | t :: u :: segments, s => by
      have ih := slashed_append_singleton (u :: segments) s
      simp only [List.cons_append] at ih ⊢
      rw [slashed_cons_cons, slashed_cons_cons, ih]
      simp

theorem head?_slashed {segments : List String} (h : ∀ s ∈ segments, IsSegment s) :
    (slashed segments).head? ≠ some '/' := by
  cases segments with
  | nil => simp [slashed]
  | cons s segments =>
      have hs := h s (by simp)
      obtain ⟨c, cs, hc⟩ : ∃ c cs, s.toList = c :: cs := by
        refine List.exists_cons_of_ne_nil fun hnil => hs.ne_empty ?_
        exact String.toList_eq_nil_iff.1 hnil
      have hne : c ≠ '/' := fun e => hs.no_slash (by simp [hc, e])
      cases segments with
      | nil => simpa [slashed, hc] using hne
      | cons t rest => simpa [slashed_cons_cons, hc] using hne

theorem separator_notMem_of_mem_splitOn {separator : Char} : ∀ {cs : List Char} {piece : List Char},
    piece ∈ cs.splitOn separator → separator ∉ piece
  | [], piece, h => by simp_all
  | c :: cs, piece, h => by
      rw [List.splitOn_cons_eq_if_modifyHead] at h
      split at h
      case isTrue hc =>
        rcases List.mem_cons.1 h with rfl | h
        · simp
        · exact separator_notMem_of_mem_splitOn h
      case isFalse hc =>
        obtain ⟨first, rest, he⟩ := List.exists_cons_of_ne_nil (List.splitOn_ne_nil separator cs)
        have hrest := fun p hp => @separator_notMem_of_mem_splitOn separator cs p (he ▸ hp)
        rw [he, List.modifyHead_cons, List.mem_cons] at h
        rcases h with rfl | h
        · simp only [List.mem_cons, not_or]
          exact ⟨fun e => hc (by simp [← e]), hrest first (by simp)⟩
        · exact hrest piece (by simp [h])

theorem no_slash_of_mem_pieces {path s : String} (h : s ∈ pieces path) : '/' ∉ s.toList := by
  obtain ⟨cs, hcs, rfl⟩ := List.mem_map.1 h
  rw [String.toList_ofList]
  exact separator_notMem_of_mem_splitOn hcs

theorem leadingSlashes_of_leads_le {k : Nat} {path : String} (hk : k ≤ 2) (h : Leads k path) :
    leadingSlashes path = k := by
  obtain ⟨rest, hpath, hrest⟩ := h
  have hlen : (path.toList.takeWhile (· == '/')).length = k := by
    rw [hpath, List.takeWhile_append_of_pos (by simp)]
    cases rest with
    | nil => simp
    | cons c rest => simp_all
  have hcases : k = 0 ∨ k = 1 ∨ k = 2 := by omega
  rcases hcases with rfl | rfl | rfl <;> simp [leadingSlashes, hlen]

theorem leadingSlashes_of_leads {k : Nat} {path : String} (hk : k = 1 ∨ k = 2) (h : Leads k path) :
    leadingSlashes path = k :=
  leadingSlashes_of_leads_le (by omega) h

theorem Rooted.leads {k : Nat} {path : String} (h : Rooted k path) : Leads k path := by
  obtain ⟨segments, hs, rfl⟩ := h
  exact ⟨slashed segments, toList_rooted k segments, head?_slashed hs⟩

theorem pieces_rooted (k : Nat) {segments : List String} (h : ∀ s ∈ segments, IsSegment s) :
    pieces (rooted k segments)
      = List.replicate k "" ++ (if segments = [] then [""] else segments) := by
  induction k with
  | zero =>
      by_cases hnil : segments = []
      · simp [pieces, toList_rooted, slashed, hnil]
      · simp only [pieces, toList_rooted, slashed, List.replicate_zero, List.nil_append, hnil,
          if_false]
        rw [List.splitOn_intercalate '/' (by simpa using fun s hs => (h s hs).no_slash)
          (by simpa using hnil)]
        simp
  | succ k ih =>
      simp only [pieces, toList_rooted] at ih ⊢
      rw [List.replicate_succ, List.cons_append, List.splitOn_cons_eq_if_modifyHead]
      simp [ih, List.replicate_succ]

/-- The segments of a rooted path are read back. -/
theorem Parts.read_rooted {k : Nat} {segments : List String} (hk : k = 1 ∨ k = 2)
    (h : ∀ s ∈ segments, IsSegment s) : Parts.read (rooted k segments) = ⟨k, segments⟩ := by
  have hslashes := leadingSlashes_of_leads hk (Rooted.leads ⟨segments, h, rfl⟩)
  have hkeep : segments.filter (fun s => s ≠ "" && s ≠ ".") = segments :=
    List.filter_eq_self.2 fun s hs => by simp [(h s hs).ne_empty, (h s hs).ne_dot]
  rw [Parts.read, hslashes, pieces_rooted k h, List.filter_append]
  by_cases hnil : segments = []
  · simp [hnil]
  · simp only [hnil, if_false, hkeep]
    simp

/-- Resolving the double dots of an absolute path leaves segments that name something. -/
theorem resolve_isSegment {p : Parts} (hp : p.slashes ≠ 0)
    (h : ∀ s ∈ p.segments, s ≠ "" ∧ s ≠ "." ∧ '/' ∉ s.toList) :
    ∀ s ∈ p.resolve.segments, IsSegment s := by
  have run : ∀ (segments : List String), (∀ s ∈ segments, s ≠ "" ∧ s ≠ "." ∧ '/' ∉ s.toList) →
      ∀ done : List String, (∀ s ∈ done, IsSegment s) →
        ∀ s ∈ segments.foldl (Parts.push true) done, IsSegment s := by
    intro segments
    induction segments with
    | nil => intro _ done hdone; exact hdone
    | cons t segments ih =>
        intro hseg done hdone
        refine ih (fun s hs => hseg s (by simp [hs])) _ fun s hs => ?_
        obtain ⟨h1, h2, h3⟩ := hseg t (by simp)
        unfold Parts.push at hs
        split at hs
        · cases done with
          | nil => simp at hs
          | cons last rest =>
              simp only [(hdone last (by simp)).ne_dots, if_false] at hs
              exact hdone s (by simp [hs])
        · next hdots =>
            rcases List.mem_cons.1 hs with rfl | hs
            · exact ⟨h1, h2, hdots, h3⟩
            · exact hdone s hs
  intro s hs
  simp only [Parts.resolve, List.mem_reverse, ne_eq, hp, not_false_eq_true, decide_true] at hs
  exact run p.segments h [] (by simp) s hs

theorem rooted_ne_empty {k : Nat} (hk : k ≠ 0) (segments : List String) :
    rooted k segments ≠ "" := by
  intro h
  have := congrArg String.toList h
  rw [toList_rooted] at this
  simp [hk] at this

theorem isAbsolute_iff {path : String} :
    isAbsolute path = true ↔ ∃ rest, path.toList = '/' :: rest := by
  unfold isAbsolute
  cases path.toList with
  | nil => simp
  | cons c rest => simp

theorem leadingSlashes_of_isAbsolute {path : String} (h : isAbsolute path = true) :
    leadingSlashes path = 1 ∨ leadingSlashes path = 2 := by
  obtain ⟨rest, hpath⟩ := isAbsolute_iff.1 h
  have hpos : (path.toList.takeWhile (· == '/')).length ≠ 0 := by simp [hpath]
  unfold leadingSlashes
  split
  case h_1 h0 => exact absurd h0 hpos
  case h_2 => exact .inr rfl
  case h_3 => exact .inl rfl

/-- The normal spelling of an absolute path is rooted. -/
theorem normalize_rooted {path : String} (h : isAbsolute path = true) :
    Rooted (leadingSlashes path) (normalize path) := by
  have hk : leadingSlashes path ≠ 0 := by
    have := leadingSlashes_of_isAbsolute h
    omega
  refine ⟨(Parts.read path).resolve.segments, resolve_isSegment hk fun s hs => ?_, ?_⟩
  · obtain ⟨hmem, hkeep⟩ := List.mem_filter.1 hs
    simp only [ne_eq, Bool.and_eq_true, decide_eq_true_eq] at hkeep
    exact ⟨hkeep.1, hkeep.2, no_slash_of_mem_pieces hmem⟩
  · have hjoin : (Parts.read path).resolve.join
        = rooted (leadingSlashes path) (Parts.read path).resolve.segments := rfl
    rw [Path.normalize, Parts.render, hjoin, if_neg (rooted_ne_empty hk _)]

/-- A rooted path is its own normal spelling. -/
theorem Rooted.normalize_eq {k : Nat} {path : String} (hk : k = 1 ∨ k = 2) (h : Rooted k path) :
    normalize path = path := by
  obtain ⟨segments, hs, rfl⟩ := h
  have run : ∀ (segments done : List String), (∀ s ∈ segments, IsSegment s) →
      segments.foldl (Parts.push true) done = segments.reverse ++ done := by
    intro segments
    induction segments with
    | nil => simp
    | cons t segments ih =>
        intro done hseg
        have hpush : Parts.push true done t = t :: done := if_neg (hseg t (by simp)).ne_dots
        rw [List.foldl_cons, hpush, ih _ fun s hs => hseg s (by simp [hs])]
        simp
  have hk' : k ≠ 0 := by omega
  have hresolve : (Parts.mk k segments).resolve = ⟨k, segments⟩ := by
    simp [Parts.resolve, hk', run segments [] hs]
  rw [normalize, Parts.read_rooted hk hs, hresolve, Parts.render]
  exact if_neg (rooted_ne_empty hk' segments)

theorem Leads.isAbsolute {k : Nat} {path : String} (hk : k = 1 ∨ k = 2) (h : Leads k path) :
    isAbsolute path = true := by
  obtain ⟨rest, hpath, -⟩ := h
  obtain ⟨k, rfl⟩ := Nat.exists_eq_succ_of_ne_zero (show k ≠ 0 by omega)
  exact isAbsolute_iff.2 ⟨_, by rw [hpath, List.replicate_succ]; rfl⟩

theorem Leads.normalize {k : Nat} {path : String} (hk : k = 1 ∨ k = 2) (h : Leads k path) :
    Rooted k (normalize path) := by
  have := normalize_rooted (h.isAbsolute hk)
  rwa [leadingSlashes_of_leads hk h] at this

/-! ## Relative import paths -/

theorem Leads.join {k : Nat} {base piece : String} (hk : k = 1 ∨ k = 2) (h : Leads k base)
    (hpiece : '/' ∉ piece.toList) : Leads k (join base piece) := by
  have hrel : Path.isAbsolute piece = false := by
    rw [Bool.eq_false_iff]
    intro habs
    obtain ⟨rest, hrest⟩ := isAbsolute_iff.1 habs
    exact hpiece (by simp [hrest])
  have hhead : piece.toList.head? ≠ some '/' := by
    intro hh
    exact hpiece (List.mem_of_mem_head? hh)
  obtain ⟨rest, hbase, hrest⟩ := h
  have hne : base ≠ "" := by
    rintro rfl
    obtain ⟨k, rfl⟩ := Nat.exists_eq_succ_of_ne_zero (show k ≠ 0 by omega)
    simp at hbase
  simp only [Path.join, hrel, hne, Bool.false_eq_true, if_false, decide_false, Bool.false_or]
  split
  case isTrue hlast =>
    refine ⟨rest ++ piece.toList, by simp [hbase], ?_⟩
    cases rest with
    | nil => simpa using hhead
    | cons c rest => simpa using hrest
  case isFalse hlast =>
    refine ⟨rest ++ '/' :: piece.toList, by simp [hbase], ?_⟩
    cases rest with
    | nil =>
        -- The base would consist of slashes only, and so end in one.
        obtain ⟨k, rfl⟩ := Nat.exists_eq_succ_of_ne_zero (show k ≠ 0 by omega)
        simp [hbase, List.getLast?_replicate] at hlast
    | cons c rest => simpa using hrest

theorem resolveImport_rooted {k : Nat} (hk : k = 1 ∨ k = 2) {base : String} (h : Leads k base)
    (path : String) : Rooted k (resolveImport base path) := by
  have run : ∀ (ps : List String) (base : String), Leads k base → (∀ s ∈ ps, '/' ∉ s.toList) →
      Leads k (ps.foldl Path.join base) := by
    intro ps
    induction ps with
    | nil => intro base hb _; exact hb
    | cons p ps ih =>
        intro base hb hps
        exact ih _ (hb.join hk (hps p (by simp))) fun s hs => hps s (by simp [hs])
  exact (run _ _ h fun _ hs => no_slash_of_mem_pieces hs).normalize hk

/-- What is left of a list in front of which something was dropped ends as the list does. -/
theorem getLast?_dropWhile {α : Type} {p : α → Bool} {l : List α} (h : l.dropWhile p ≠ []) :
    (l.dropWhile p).getLast? = l.getLast? := by
  have hl := congrArg List.getLast? (List.takeWhile_append_dropWhile (p := p) (l := l))
  rw [List.getLast?_append, List.getLast?_eq_some_getLast h] at hl
  rw [← hl, List.getLast?_eq_some_getLast h]
  rfl

theorem Leads.directory {k : Nat} {path : String} (h : Leads k path) :
    Leads k (directory path) := by
  obtain ⟨rest, hpath, hrest⟩ := h
  have hfront : path.toList.reverse.dropWhile (· != '/')
      = rest.reverse.dropWhile (· != '/') ++ List.replicate k '/' := by
    rw [hpath, List.reverse_append, List.reverse_replicate, List.dropWhile_append]
    split
    · next hnil =>
      rw [List.isEmpty_iff.1 hnil]
      cases k <;> simp [List.replicate_succ]
    · rfl
  have hslashes : (List.replicate k '/').dropWhile (· == '/') = [] := by simp
  unfold Path.directory
  rw [hfront]
  by_cases hx : rest.reverse.dropWhile (· != '/') = []
  · refine ⟨[], ?_, by simp⟩
    simp [hx]
  · -- The part behind the leading slashes does not start with one, so it is not trimmed away.
    have hlast : (rest.reverse.dropWhile (· != '/')).getLast? ≠ some '/' := by
      rw [getLast?_dropWhile hx, List.getLast?_reverse]
      exact hrest
    generalize rest.reverse.dropWhile (· != '/') = x at hx hlast ⊢
    have hy : x.dropWhile (· == '/') ≠ [] := by
      intro hnil
      have hall := List.dropWhile_eq_nil_iff.1 hnil
      obtain ⟨c, hc⟩ := List.getLast?_isSome.2 hx |> Option.isSome_iff_exists.1
      have := hall c (List.mem_of_getLast? hc)
      simp_all
    refine ⟨(x.dropWhile (· == '/')).reverse, ?_, ?_⟩
    · simp [List.dropWhile_append, hy]
    · rw [List.head?_reverse, getLast?_dropWhile hy]
      exact hlast

theorem rooted_append_singleton (k : Nat) (segments : List String) (s : String) :
    rooted k (segments ++ [s])
      = (if segments = [] then rooted k [] else rooted k segments ++ "/") ++ s := by
  apply String.toList_inj.1
  rw [toList_rooted, slashed_append_singleton]
  by_cases h : segments = [] <;> simp [toList_rooted, h, slashed]

/-- The extension of a path has no slash, and starts with no dot. -/
structure IsExtension (s : String) : Prop where
  no_slash : '/' ∉ s.toList
  no_dot : s.toList.head? ≠ some '.'

theorem no_slash_fileName (path : String) : '/' ∉ (fileName path).toList := by
  intro h
  simp only [fileName, String.toList_ofList, List.mem_reverse] at h
  simpa using List.mem_takeWhile_imp h

theorem mem_splitExtension {name : String} {c : Char}
    (h : c ∈ (splitExtension name).2.toList) : c ∈ name.toList ∨ c = '.' := by
  unfold splitExtension at h
  dsimp only at h
  split at h
  · simp only [String.toList_ofList, List.mem_cons, List.mem_reverse] at h
    rcases h with rfl | h
    · exact .inr rfl
    · have := (List.takeWhile_sublist _).mem h
      exact .inl ((List.dropWhile_sublist _).mem (List.mem_reverse.1 this))
  · simp at h

theorem isExtension_extension (path : String) : IsExtension (extension path) where
  no_slash h := by
    simp only [extension, String.toList_ofList] at h
    rcases mem_splitExtension ((List.dropWhile_sublist _).mem h) with h | h
    · exact no_slash_fileName path h
    · exact absurd h (by decide)
  no_dot h := by
    simp only [extension, String.toList_ofList] at h
    generalize (splitExtension (fileName path)).2.toList = ending at h
    have hdrop := List.head?_dropWhile_not (· == '.') ending
    rw [h] at hdrop
    simp at hdrop

theorem isSegment_of_mem {s : String} {c : Char} (hs : '/' ∉ s.toList) (hc : c ∈ s.toList)
    (hdot : c ≠ '.') : IsSegment s := by
  refine ⟨?_, ?_, ?_, hs⟩ <;>
    · rintro rfl
      simp [hdot] at hc

/-- Putting an extension behind a segment gives a segment. -/
theorem IsSegment.withExtension {s ext : String} (hs : IsSegment s) (he : IsExtension ext) :
    IsSegment (s ++ "." ++ ext) := by
  have hlist : (s ++ "." ++ ext).toList = s.toList ++ '.' :: ext.toList := by simp
  obtain ⟨c, cs, hc⟩ : ∃ c cs, s.toList = c :: cs :=
    List.exists_cons_of_ne_nil fun hnil => hs.ne_empty (String.toList_eq_nil_iff.1 hnil)
  have hne : ∀ t : String, s.toList ++ '.' :: ext.toList ≠ t.toList → s ++ "." ++ ext ≠ t :=
    fun t ht e => ht (by rw [← hlist, e])
  refine ⟨hne _ (by simp), hne _ (by simp [hc]), hne _ fun e => ?_, ?_⟩
  · -- Two dots in all leave one for the segment.
    have hlen : (s.toList ++ '.' :: ext.toList).length = 2 := congrArg List.length e
    simp only [hc, List.cons_append, List.length_cons, List.length_append] at hlen
    have hcs : cs = [] := List.eq_nil_of_length_eq_zero (by omega)
    have hdot : s.toList = ['.'] := by
      rw [hc, hcs] at e ⊢
      simp at e
      rw [e.1]
    exact hs.ne_dot (String.toList_inj.1 hdot)
  · simp [hs.no_slash, he.no_slash]

theorem getLast?_slashed {segments : List String} (h : ∀ s ∈ segments, IsSegment s) :
    (slashed segments).getLast? ≠ some '/' := by
  rcases List.eq_nil_or_concat segments with rfl | ⟨init, t, rfl⟩
  · simp [slashed]
  · rw [List.concat_eq_append] at h ⊢
    have ht := h t (by simp)
    have hne : t.toList ≠ [] := fun hnil => ht.ne_empty (String.toList_eq_nil_iff.1 hnil)
    have hend : t.toList.getLast hne ≠ '/' := fun e => ht.no_slash (e ▸ List.getLast_mem hne)
    rw [slashed_append_singleton, List.getLast?_append, List.getLast?_eq_some_getLast hne]
    simpa using hend

theorem slashed_eq_nil {segments : List String} (h : ∀ s ∈ segments, IsSegment s) :
    slashed segments = [] ↔ segments = [] := by
  rcases List.eq_nil_or_concat segments with rfl | ⟨init, t, rfl⟩
  · simp [slashed]
  · rw [List.concat_eq_append] at h ⊢
    simp [slashed_append_singleton, (h t (by simp)).ne_empty]

/-- Only the path of the root itself ends in a slash. -/
theorem getLast?_rooted {k : Nat} (hk : k ≠ 0) {segments : List String}
    (h : ∀ s ∈ segments, IsSegment s) :
    (rooted k segments).toList.getLast? = some '/' ↔ segments = [] := by
  rw [toList_rooted, List.getLast?_append]
  by_cases hnil : segments = []
  · simp [hnil, slashed, List.getLast?_replicate, hk]
  · have hne := mt (slashed_eq_nil h).1 hnil
    have hlast := getLast?_slashed h
    rw [List.getLast?_eq_some_getLast hne] at hlast ⊢
    simpa [hnil] using hlast

theorem Rooted.join_singleton {k : Nat} (hk : k = 1 ∨ k = 2) {segments : List String} {s : String}
    (h : ∀ t ∈ segments, IsSegment t) (hs : IsSegment s) :
    join (rooted k segments) s = rooted k (segments ++ [s]) := by
  have hrel : isAbsolute s = false := by
    rw [Bool.eq_false_iff]
    intro habs
    obtain ⟨rest, hrest⟩ := isAbsolute_iff.1 habs
    exact hs.no_slash (by simp [hrest])
  have hlast : ((rooted k segments).toList.getLast? == some '/') = decide (segments = []) := by
    rw [Bool.eq_iff_iff, beq_iff_eq, decide_eq_true_iff]
    exact getLast?_rooted (by omega) h
  rw [rooted_append_singleton]
  simp only [Path.join, hrel, rooted_ne_empty (show k ≠ 0 by omega), hlast]
  by_cases hnil : segments = [] <;> simp [hnil]

end ImportAssist.Path

namespace ImportAssist

open ImportAssist.Path

/-! ## Entries of a disk -/

theorem bind_eq_ok {ε α β : Type} {x : Except ε α} {f : α → Except ε β} {b : β}
    (h : x >>= f = .ok b) : ∃ a, x = .ok a ∧ f a = .ok b := by
  cases x with
  | error e => cases h
  | ok a => exact ⟨a, rfl, h⟩

theorem map_eq_ok {ε α β : Type} {x : Except ε α} {f : α → β} {b : β} (h : f <$> x = .ok b) :
    ∃ a, x = .ok a ∧ f a = b := by
  cases x with
  | error e => cases h
  | ok a => exact ⟨a, rfl, Except.ok.inj h⟩

/-- A path that can be read leads to a file. -/
theorem Disk.locate_of_read {disk : Disk} {path : String} {content : Bytes}
    (h : disk.read path = .ok content) :
    ∃ place, disk.locate path = .ok place ∧ disk.at? place = some (.file content) := by
  unfold Disk.read at h
  split at h
  case h_1 c hfind =>
    cases h
    obtain ⟨place, hlocate, hat⟩ := bind_eq_ok hfind
    split at hat
    · next entry hentry =>
        cases hat
        exact ⟨place, hlocate, hentry⟩
    · cases hat
  · cases h
  · cases h

/-- A file stands on the disk under its place. -/
theorem Disk.mem_entries_of_at? {disk : Disk} {place : List String} {content : Bytes}
    (h : disk.at? place = some (.file content)) : (place, Entry.file content) ∈ disk.entries := by
  unfold Disk.at? at h
  split at h
  · cases h
  · obtain ⟨⟨place', entry⟩, hfind, hentry⟩ := Option.map_eq_some_iff.1 h
    have hplace := List.find?_some hfind
    simp only [beq_iff_eq] at hplace hentry
    subst hplace hentry
    exact List.mem_of_find?_eq_some hfind

theorem Disk.step_eq {disk : Disk} {here there : List String} {piece : String} (hp : piece ≠ "..")
    (h : disk.step here piece = .ok there) :
    there = here ++ [piece].filter fun s => s ≠ "" && s ≠ "." := by
  unfold Disk.step at h
  split at h
  · cases h
  · cases h
  · split at h
    case isTrue hc =>
      cases h
      rcases Bool.or_eq_true_iff.1 hc with hc | hc <;> simp_all
    case isFalse hc =>
      cases h
      simp_all

/-- A path without double dots leads through its own segments. -/
theorem Disk.foldlM_step_eq {disk : Disk} : ∀ {ps : List String} {here there : List String},
    ".." ∉ ps → ps.foldlM disk.step here = .ok there →
      there = here ++ ps.filter fun s => s ≠ "" && s ≠ "."
  | [], here, there, _, h => by
      cases h
      simp
  | p :: ps, here, there, hdots, h => by
      rw [List.foldlM_cons] at h
      obtain ⟨next, hstep, hrest⟩ := bind_eq_ok h
      rw [Disk.foldlM_step_eq (fun hm => hdots (by simp [hm])) hrest,
        Disk.step_eq (fun e => hdots (by simp [e])) hstep, List.append_assoc, ← List.filter_append]
      rfl

/-- A rooted path that can be read stands on the disk under its own segments. -/
theorem place_of_read {disk : Disk} {k : Nat} {path : String} {content : Bytes}
    (hk : k = 1 ∨ k = 2) (hpath : Rooted k path) (h : disk.read path = .ok content) :
    ((Parts.read path).segments, Entry.file content) ∈ disk.entries := by
  have habs := hpath.leads.isAbsolute hk
  obtain ⟨segments, hseg, rfl⟩ := hpath
  have hdots : ".." ∉ pieces (rooted k segments) := by
    rw [pieces_rooted k hseg]
    intro hm
    rcases List.mem_append.1 hm with hm | hm
    · simp at hm
    · split at hm
      · simp at hm
      · exact (hseg _ hm).ne_dots rfl
  obtain ⟨place, hlocate, hat⟩ := Disk.locate_of_read h
  simp only [Disk.locate, rooted_ne_empty (show k ≠ 0 by omega), habs, if_true, if_false] at hlocate
  have hplace := Disk.foldlM_step_eq hdots hlocate
  rw [List.nil_append] at hplace
  rw [hplace] at hat
  exact Disk.mem_entries_of_at? hat

/-- Characters behind a path do not change what leads it. -/
theorem Path.Leads.append {k : Nat} {path s : String} (h : Leads k path) (hs : s.toList.head? ≠ some '/') :
    Leads k (path ++ s) := by
  obtain ⟨rest, hpath, hrest⟩ := h
  refine ⟨rest ++ s.toList, by simp [hpath], ?_⟩
  cases rest with
  | nil => simpa using hs
  | cons c rest => simpa using hrest

theorem modulePath_leads {disk : Disk} {k : Nat} {ext base path : String} (hk : k = 1 ∨ k = 2)
    (hbase : Leads k base) (hext : IsExtension ext) : Leads k (modulePath disk ext base path) := by
  have hfile := (resolveImport_rooted hk hbase path).leads
  unfold modulePath
  dsimp only
  split
  · exact hfile
  split
  · exact hfile.join hk (by simp [hext.no_slash])
  · rw [String.append_assoc]
    exact hfile.append (by simp)

/-- The file that a module path means is rooted. The exception is a path to the root itself with the
empty extension. -/
theorem modulePath_rooted_or_root {disk : Disk} {k : Nat} {ext base path : String}
    (hk : k = 1 ∨ k = 2) (hbase : Leads k base) (hext : IsExtension ext) :
    Rooted k (modulePath disk ext base path)
      ∨ modulePath disk ext base path = rooted k [] ++ "." := by
  have hfile := resolveImport_rooted hk hbase path
  unfold modulePath
  dsimp only
  obtain ⟨segments, hseg, hpath⟩ := id hfile
  split
  · exact .inl hfile
  split
  · have hindex : IsSegment ("index." ++ ext) :=
      isSegment_of_mem (c := 'i') (by simp [hext.no_slash]) (by simp) (by decide)
    rw [hpath, Rooted.join_singleton hk hseg hindex]
    refine .inl ⟨_, ?_, rfl⟩
    simpa [or_imp, forall_and] using ⟨hseg, hindex⟩
  · rw [hpath]
    rcases List.eq_nil_or_concat segments with rfl | ⟨init, last, rfl⟩
    · cases hcs : ext.toList with
      | nil =>
          right
          rw [String.toList_eq_nil_iff.1 hcs, String.append_empty]
      | cons c cs =>
          have hname : IsSegment ("." ++ ext) :=
            isSegment_of_mem (c := c) (by simp [hext.no_slash]) (by simp [hcs])
              (fun e => hext.no_dot (by simp [hcs, e]))
          refine .inl ⟨["." ++ ext], by simpa using hname, ?_⟩
          have := rooted_append_singleton k [] ("." ++ ext)
          rw [List.nil_append, if_pos rfl] at this
          rw [this, String.append_assoc]
    · rw [List.concat_eq_append] at hseg ⊢
      have hlast := (hseg last (by simp)).withExtension hext
      refine .inl ⟨init ++ [last ++ "." ++ ext], ?_, ?_⟩
      · simp only [List.mem_append, List.mem_singleton]
        rintro s (hs | rfl)
        · exact hseg s (by simp [hs])
        · exact hlast
      · simp only [rooted_append_singleton, String.append_assoc]

/-- The root is a directory, however it is spelled. -/
theorem read_root {disk : Disk} {k : Nat} (hk : k = 1 ∨ k = 2) :
    (∃ e, disk.read (rooted k [] ++ ".") = .error e) ∧
      ∃ e, disk.read (normalize (rooted k [] ++ ".")) = .error e := by
  rcases hk with rfl | rfl
  · exact ⟨⟨⟨.isDirectory, "/."⟩, rfl⟩, ⟨.isDirectory, "/"⟩, rfl⟩
  · exact ⟨⟨⟨.isDirectory, "//."⟩, rfl⟩, ⟨.isDirectory, "//"⟩, rfl⟩

theorem modulePath_rooted {disk : Disk} {k : Nat} {ext base path : String} (hk : k = 1 ∨ k = 2)
    (hbase : Leads k base) (hext : IsExtension ext) :
    Rooted k (modulePath disk ext base path)
      ∨ ∃ e, disk.read (modulePath disk ext base path) = .error e := by
  rcases @modulePath_rooted_or_root disk k ext base path hk hbase hext with h | h
  · exact .inl h
  · exact .inr (h ▸ (read_root hk).1)

theorem relativeModule_leads {disk : Disk} {k : Nat} {file target : String} {path? : Option String}
    (hk : k = 1 ∨ k = 2) (hfile : Rooted k file)
    (h : relativeModule? disk file path? = some target) : Leads k target := by
  obtain ⟨path, -, rfl⟩ := Option.map_eq_some_iff.1 h
  exact modulePath_leads hk (hfile.leads.normalize hk).leads.directory (isExtension_extension _)

/-- Following a relative path from a rooted file leads to a rooted file, or to nothing that can be
read. -/
theorem relativeModule_rooted {disk : Disk} {k : Nat} {file target : String} {path? : Option String}
    (hk : k = 1 ∨ k = 2) (hfile : Rooted k file)
    (h : relativeModule? disk file path? = some target) :
    Rooted k target ∨ ∃ e, disk.read target = .error e := by
  obtain ⟨path, -, rfl⟩ := Option.map_eq_some_iff.1 h
  exact modulePath_rooted hk (hfile.leads.normalize hk).leads.directory (isExtension_extension _)

end ImportAssist
