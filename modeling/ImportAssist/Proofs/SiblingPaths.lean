import ImportAssist.Proofs.RootedPaths
import ImportAssist.Synthesis.Add

/-!
# Import paths of siblings

Seen from one document, two files of a directory are reached on the same way but for their names
(`importPath_siblings`), unless the document lies below one of them, which is then reached by double
dots alone. So the import path of a module is never that of the index file next to it, even though
the latter may be written without its name (`nameAndPath_ne_indexImportPath`).

A backslash in a name is read as a slash, so names have to be free of it.
-/

namespace ImportAssist.Path

/-! ## Names and extensions -/

/-- Some character is neither a dot nor a slash. -/
def Telling (cs : List Char) : Prop := ∃ c ∈ cs, c ≠ '.' ∧ c ≠ '/'

theorem Telling.mono {cs ds : List Char} (h : Telling cs) (hsub : cs ⊆ ds) : Telling ds := by
  obtain ⟨c, hc, hne⟩ := h
  exact ⟨c, hsub hc, hne⟩

/-- A file name that has an extension is put together from its two parts, and the first one tells
something. -/
theorem fileName_eq_of_extension {path : String} (h : extension path ≠ "") :
    (fileName path).toList = (stem path).toList ++ '.' :: (extension path).toList ∧
      '.' ∉ (extension path).toList ∧ Telling (stem path).toList := by
  have hslash := no_slash_fileName path
  unfold stem
  unfold extension at h ⊢
  generalize fileName path = name at h hslash ⊢
  have hname := List.takeWhile_append_dropWhile (p := (· == '.')) (l := name.toList)
  have hhead := List.head?_dropWhile_not (· == '.') name.toList
  unfold splitExtension at h ⊢
  dsimp only at h ⊢
  generalize name.toList.takeWhile (· == '.') = dots at h hname ⊢
  generalize name.toList.dropWhile (· == '.') = body at h hname hhead ⊢
  split at h
  case isFalse => simp at h
  case isTrue hdot =>
    rw [if_pos hdot]
    have hbody := List.takeWhile_append_dropWhile (p := (· != '.')) (l := body.reverse)
    obtain ⟨front, hfront⟩ : ∃ front, body.reverse.dropWhile (· != '.') = '.' :: front := by
      have hne : body.reverse.dropWhile (· != '.') ≠ [] := by
        intro hnil
        have := List.dropWhile_eq_nil_iff.1 hnil '.' (by simpa using hdot)
        simp at this
      obtain ⟨c, front, hc⟩ := List.exists_cons_of_ne_nil hne
      have hstop := List.head?_dropWhile_not (· != '.') body.reverse
      rw [hc] at hstop
      have hdot : c = '.' := by simpa using hstop
      exact ⟨front, hdot ▸ hc⟩
    have hafter : '.' ∉ body.reverse.takeWhile (· != '.') := fun hmem => by
      simpa using List.mem_takeWhile_imp hmem
    rw [hfront] at hbody ⊢
    generalize body.reverse.takeWhile (· != '.') = after at hbody hafter ⊢
    have hsplit : body = front.reverse ++ '.' :: after.reverse := by
      rw [← List.reverse_reverse body, ← hbody]
      simp
    have hdrop : ('.' :: after.reverse).dropWhile (· == '.') = after.reverse := by
      rw [List.dropWhile_cons_of_pos (by rfl), List.dropWhile_eq_self_iff]
      intro hpos hfirst
      exact hafter (List.mem_reverse.1 (beq_iff_eq.1 hfirst ▸ List.getElem_mem hpos))
    rw [List.reverse_cons, List.dropLast_concat]
    simp only [String.toList_ofList, hdrop]
    refine ⟨by rw [← hname, hsplit, List.append_assoc], by simpa using hafter, ?_⟩
    -- The part in front of the last dot does not start with a dot, so there is such a part.
    obtain ⟨first, rest, hrest⟩ : ∃ first rest, front.reverse = first :: rest := by
      refine List.exists_cons_of_ne_nil fun hnil => ?_
      rw [hsplit, hnil] at hhead
      simp at hhead
    rw [hsplit, hrest] at hhead hname
    refine ⟨first, by simp [hrest], by simpa using hhead, ?_⟩
    rintro rfl
    simp [← hname] at hslash

/-! ## The way to a file -/

variable {k : Nat} {segments here : List String} {name : String}

/-- A text is cut behind the last of its separators. -/
theorem reverse_cut {separator : Char} {last : List Char} (h : separator ∉ last)
    (front : List Char) :
    (front ++ separator :: last).reverse.takeWhile (· != separator) = last.reverse ∧
      (front ++ separator :: last).reverse.dropWhile (· != separator)
        = separator :: front.reverse := by
  have hall : ∀ c ∈ last.reverse, (c != separator) = true := by
    intro c hc
    simpa using fun e : c = separator => h (e ▸ List.mem_reverse.1 hc)
  rw [List.reverse_append, List.reverse_cons, List.append_assoc, List.singleton_append,
    List.takeWhile_append_of_pos hall, List.dropWhile_append_of_pos hall]
  simp

/-- The directory of a file, with the slashes behind it. -/
theorem directory_append_slashes {path : String} {front name : List Char} (hname : '/' ∉ name)
    (hpath : path.toList = front ++ '/' :: name) :
    directory path ≠ "" ∧
      ∃ n, (directory path).toList ++ List.replicate n '/' = front ++ ['/'] := by
  have hcut := (reverse_cut hname front).2
  rw [← hpath] at hcut
  unfold directory
  rw [hcut]
  dsimp only
  have htrim := List.takeWhile_append_dropWhile (p := (· == '/')) (l := '/' :: front.reverse)
  have hslashes : ('/' :: front.reverse).takeWhile (· == '/')
      = List.replicate (('/' :: front.reverse).takeWhile (· == '/')).length '/' :=
    List.eq_replicate_of_mem fun c hc => by simpa using List.mem_takeWhile_imp hc
  generalize ('/' :: front.reverse).takeWhile (· == '/') = slashes at htrim hslashes
  generalize ('/' :: front.reverse).dropWhile (· == '/') = trimmed at htrim ⊢
  split
  · exact ⟨by simp, 0, by simp⟩
  · rename_i hne
    refine ⟨fun hempty => hne (by simpa using hempty), slashes.length, ?_⟩
    rw [hslashes] at htrim
    simpa using congrArg List.reverse htrim

/-- Where the name of a file stands in its path. -/
theorem toList_rooted_file (hk : k = 1 ∨ k = 2) :
    (rooted k (segments ++ [name])).toList
      = (if segments = [] then List.replicate (k - 1) '/' else (rooted k segments).toList)
        ++ '/' :: name.toList := by
  rw [toList_rooted, slashed_append_singleton]
  split
  · rcases hk with rfl | rfl <;> rfl
  · simp [toList_rooted]

theorem fileName_rooted (hk : k = 1 ∨ k = 2) (hname : '/' ∉ name.toList) :
    fileName (rooted k (segments ++ [name])) = name := by
  rw [fileName, toList_rooted_file hk, (reverse_cut hname _).1]
  simp

theorem directory_rooted (hk : k = 1 ∨ k = 2) (h : ∀ s ∈ segments, IsSegment s)
    (hname : '/' ∉ name.toList) : directory (rooted k (segments ++ [name])) = rooted k segments := by
  rw [directory, toList_rooted_file hk, (reverse_cut hname _).2]
  have hk0 : k ≠ 0 := by omega
  by_cases hnil : segments = []
  · rw [hnil]
    rcases hk with rfl | rfl <;> rfl
  · -- The directory has a name, so just one slash stands behind it.
    have hlast := mt (getLast?_rooted hk0 h).1 hnil
    have hne : (rooted k segments).toList.reverse ≠ [] := by
      simpa using rooted_ne_empty hk0 segments
    obtain ⟨c, cs, hc⟩ := List.exists_cons_of_ne_nil hne
    rw [← List.head?_reverse, hc] at hlast
    have hcs : (rooted k segments).toList = (c :: cs).reverse := by rw [← hc, List.reverse_reverse]
    apply String.toList_inj.1
    rw [if_neg hnil, hc, List.dropWhile_cons_of_pos (by rfl),
      List.dropWhile_cons_of_neg (by simpa using hlast), hcs]
    simp

theorem sharedLength_le : ∀ here there : List String, sharedLength here there ≤ there.length
  | [], _ => by simp [sharedLength]
  | _ :: _, [] => by simp [sharedLength]
  | a :: as, b :: bs => by
      rw [sharedLength]
      split
      · simpa using sharedLength_le as bs
      · simp

theorem sharedLength_of_isPrefix : ∀ {there here : List String}, there <+: here →
    sharedLength here there = there.length
  | [], here, _ => by cases here <;> rfl
  | b :: bs, [], h => by simp at h
  | b :: bs, a :: as, h => by
      obtain ⟨rfl, hrest⟩ := List.cons_prefix_cons.1 h
      rw [sharedLength, if_pos rfl, sharedLength_of_isPrefix hrest, List.length_cons]

theorem sharedLength_append_singleton : ∀ {here segments : List String},
    ¬ segments ++ [name] <+: here → sharedLength here (segments ++ [name]) = sharedLength here segments
  | [], _, _ => by simp [sharedLength]
  | a :: as, [], h => by
      have hne : a ≠ name := by
        rintro rfl
        exact h (List.cons_prefix_cons.2 ⟨rfl, List.nil_prefix⟩)
      simp [sharedLength, hne]
  | a :: as, b :: bs, h => by
      rw [List.cons_append, sharedLength, sharedLength]
      split
      · rename_i hab
        rw [sharedLength_append_singleton fun hpre => h ?_]
        rw [List.cons_append, hab]
        exact List.cons_prefix_cons.2 ⟨rfl, hpre⟩
      · rfl

theorem rootSegments_rooted {cwd : String} (hk : k = 1 ∨ k = 2) (h : ∀ s ∈ segments, IsSegment s) :
    rootSegments cwd (rooted k segments) = segments := by
  have hrooted : Rooted k (rooted k segments) := ⟨segments, h, rfl⟩
  rw [rootSegments, absolute, if_pos (hrooted.leads.isAbsolute hk), hrooted.normalize_eq hk,
    Parts.read_rooted hk h]

/-- The segments from one directory to another one. -/
def wayTo (here segments : List String) : List String :=
  List.replicate (here.length - sharedLength here segments) ".."
    ++ segments.drop (sharedLength here segments)

theorem relative_rooted {cwd start : String} (hk : k = 1 ∨ k = 2)
    (h : ∀ s ∈ segments, IsSegment s) :
    relative cwd (rooted k segments) start
      = (Parts.mk 0 (wayTo (rootSegments cwd start) segments)).render := by
  rw [relative, rootSegments_rooted hk h]
  rfl

theorem wayTo_file (h : ¬ segments ++ [name] <+: here) :
    wayTo here (segments ++ [name]) = wayTo here segments ++ [name] := by
  rw [wayTo, sharedLength_append_singleton h, List.drop_append_of_le_length (sharedLength_le _ _),
    ← List.append_assoc, wayTo]

theorem wayTo_above (h : segments <+: here) :
    wayTo here segments = List.replicate (here.length - segments.length) ".." := by
  rw [wayTo, sharedLength_of_isPrefix h, List.drop_length, List.append_nil]

/-! ## Import paths -/

/-- What stands in an import path in front of the slash before the name, on a way of some segments. -/
def approach (way : List String) : List Char :=
  if way = [] then ['.']
  else
    let cs := (toSlashes (String.ofList (slashed way))).toList
    if (cs ++ ['/']).head? = some '.' ∨ (cs ++ ['/']).head? = some '/' then cs
    else '.' :: '/' :: cs

theorem toList_toSlashes (path : String) :
    (toSlashes path).toList = path.toList.map fun c => if c = '\\' then '/' else c := by
  simp [toSlashes]

theorem map_toSlashes_eq {cs : List Char} (h : '\\' ∉ cs) :
    (cs.map fun c => if c = '\\' then '/' else c) = cs := by
  refine (List.map_congr_left fun c hc => ?_).trans (List.map_id cs)
  exact if_neg fun e : c = '\\' => h (e ▸ hc)

theorem toList_relative {cs : List Char} {way : List String} (hcs : slashed way = cs)
    (hne : cs ≠ []) : (Parts.mk 0 way).render.toList = cs := by
  have hjoin : (Parts.mk 0 way).join.toList = cs := by
    simpa [Parts.join, slashed] using hcs
  rw [Parts.render, if_neg, hjoin]
  intro hempty
  rw [hempty] at hjoin
  exact hne hjoin.symm

/-- Files of a directory have the same import path but for their names; one in the directory of the
document whose name starts with a dot needs nothing in front of it. -/
theorem importPath_file {cwd start : String} (hk : k = 1 ∨ k = 2)
    (h : ∀ s ∈ segments ++ [name], IsSegment s) (hslashes : '\\' ∉ name.toList)
    (habove : ¬ segments ++ [name] <+: rootSegments cwd start) :
    (importPath cwd (rooted k (segments ++ [name])) start).toList
        = approach (wayTo (rootSegments cwd start) segments) ++ '/' :: name.toList ∨
      name.toList.head? = some '.' ∧ wayTo (rootSegments cwd start) segments = [] ∧
        (importPath cwd (rooted k (segments ++ [name])) start).toList = name.toList := by
  have hname : IsSegment name := h name (by simp)
  rw [importPath, relative_rooted hk h, wayTo_file habove]
  generalize wayTo (rootSegments cwd start) segments = way
  have hway : (toSlashes (Parts.mk 0 (way ++ [name])).render).toList
      = (if way = [] then [] else (toSlashes (String.ofList (slashed way))).toList ++ ['/'])
        ++ name.toList := by
    rw [toList_toSlashes, toList_relative (slashed_append_singleton way name)
      (by simp [hname.ne_empty]), List.map_append, map_toSlashes_eq hslashes]
    split <;> simp [toList_toSlashes]
  by_cases hnil : way = []
  · rw [if_pos hnil, List.nil_append] at hway
    rw [hway]
    split
    · rename_i hhead
      rw [Bool.or_eq_true, beq_iff_eq, beq_iff_eq, or_iff_left] at hhead
      · exact .inr ⟨hhead, hnil, hway⟩
      · exact fun hslash => hname.no_slash (List.mem_of_mem_head? hslash)
    · refine .inl ?_
      rw [String.toList_append, hway, approach, if_pos hnil]
      rfl
  · refine .inl ?_
    rw [if_neg hnil] at hway
    rw [approach, if_neg hnil]
    dsimp only
    generalize (toSlashes (String.ofList (slashed way))).toList = cs at hway ⊢
    have hhead : (cs ++ ['/'] ++ name.toList).head? = (cs ++ ['/']).head? := by cases cs <;> rfl
    rw [hway, hhead]
    split
    · rename_i hlead
      rw [if_pos (by simpa using hlead), hway]
      simp
    · rename_i hlead
      rw [if_neg (by simpa using hlead)]
      simp [hway]

theorem slashed_dots : ∀ n, (slashed (List.replicate n "..")).count '.' = 2 * n ∧
    ∀ c ∈ slashed (List.replicate n ".."), c = '.' ∨ c = '/'
  | 0 => by simp [slashed]
  | 1 => by
      have hdots : slashed (List.replicate 1 "..") = ['.', '.'] := by decide
      rw [hdots]
      simp
  | n + 2 => by
      obtain ⟨hcount, honly⟩ := slashed_dots (n + 1)
      have hdots : "..".toList = ['.', '.'] := by decide
      rw [List.replicate_succ, List.replicate_succ, slashed_cons_cons, ← List.replicate_succ, hdots]
      generalize slashed (List.replicate (n + 1) "..") = cs at hcount honly
      refine ⟨?_, ?_⟩
      · simp only [List.cons_append, List.nil_append, List.count_cons, hcount]
        simp
        omega
      · simpa using honly

theorem not_telling_of_forall {cs : List Char} (h : ∀ c ∈ cs, c = '.' ∨ c = '/') : ¬ Telling cs := by
  rintro ⟨c, hc, hdot, hslash⟩
  rcases h c hc with rfl | rfl
  · exact hdot rfl
  · exact hslash rfl

/-- What lies above a document is reached by double dots alone. -/
theorem importPath_above {cwd start : String} (hk : k = 1 ∨ k = 2)
    (h : ∀ s ∈ segments, IsSegment s) (habove : segments <+: rootSegments cwd start) :
    ¬ Telling (importPath cwd (rooted k segments) start).toList ∧
      (importPath cwd (rooted k segments) start).toList.count '.'
        ≤ 2 * ((rootSegments cwd start).length - segments.length) + 1 := by
  rw [importPath, relative_rooted hk h, wayTo_above habove]
  generalize (rootSegments cwd start).length - segments.length = n
  obtain ⟨hcount, honly⟩ := slashed_dots n
  -- The way from a directory to itself is written as a single dot.
  have hway : ∃ cs, (Parts.mk 0 (List.replicate n "..")).render.toList = cs ∧ cs ≠ [] ∧
      (∀ c ∈ cs, c = '.' ∨ c = '/') ∧ cs.count '.' ≤ 2 * n + 1 := by
    by_cases hnil : slashed (List.replicate n "..") = []
    · refine ⟨['.'], ?_, by simp, by simp, by simp⟩
      have hn : n = 0 := by
        rw [hnil, List.count_nil] at hcount
        omega
      rw [hn]
      rfl
    · exact ⟨_, toList_relative rfl hnil, hnil, honly, by omega⟩
  obtain ⟨cs, hcs, hne, honly, hcount⟩ := hway
  have hslashes : (toSlashes (Parts.mk 0 (List.replicate n "..")).render).toList = cs := by
    rw [toList_toSlashes, hcs, map_toSlashes_eq]
    intro hmem
    rcases honly _ hmem with h | h <;> exact absurd h (by decide)
  obtain ⟨c, rest, rfl⟩ := List.exists_cons_of_ne_nil hne
  rw [if_pos, hslashes]
  · exact ⟨not_telling_of_forall honly, hcount⟩
  · rcases honly c (by simp) with rfl | rfl <;> simp [hslashes]

theorem approach_dots {n : Nat} (hn : n ≠ 0) :
    2 * n ≤ (approach (List.replicate n "..")).count '.' := by
  obtain ⟨hcount, honly⟩ := slashed_dots n
  have hslashes : (toSlashes (String.ofList (slashed (List.replicate n "..")))).toList
      = slashed (List.replicate n "..") := by
    rw [toList_toSlashes, String.toList_ofList, map_toSlashes_eq]
    intro hmem
    rcases honly _ hmem with h | h <;> exact absurd h (by decide)
  rw [approach, if_neg (by simpa using hn), hslashes]
  dsimp only
  split
  · omega
  · simp only [List.count_cons]
    omega

theorem toList_stripExtension {path extension : String} {cs : List Char} (h : extension ≠ "")
    (hpath : path.toList = cs ++ '.' :: extension.toList) :
    (stripExtension path extension).toList = cs := by
  have hsuffix : ('.' :: extension.toList) <:+ path.toList := ⟨cs, hpath.symm⟩
  rw [stripExtension, if_pos (by simp [h, List.isSuffixOf_iff_suffix, hsuffix]),
    String.toList_ofList, hpath]
  simp

theorem stripExtension_isPrefix (path extension : String) :
    (stripExtension path extension).toList <+: path.toList := by
  unfold stripExtension
  dsimp only
  split
  · rw [String.toList_ofList]
    exact List.take_prefix _ _
  · exact List.prefix_rfl

theorem stripLastSegment_append_slashes {path : String} {front name : List Char}
    (hname : '/' ∉ name) (hpath : path.toList = front ++ '/' :: name) :
    ∃ n, (stripLastSegment path).toList ++ List.replicate n '/' = front ++ ['/'] := by
  obtain ⟨hne, hslashes⟩ := directory_append_slashes hname hpath
  rw [stripLastSegment, if_neg hne]
  exact hslashes

theorem stripLastSegment_not_telling {path : String} (h : ¬ Telling path.toList) :
    ¬ Telling (stripLastSegment path).toList := by
  unfold stripLastSegment
  dsimp only
  split
  · simp [Telling]
  · refine mt (fun htell => htell.mono fun c hc => ?_) h
    simp only [directory, String.toList_ofList, List.mem_reverse] at hc
    apply List.mem_reverse.1
    split at hc
    · exact (List.dropWhile_sublist _).mem hc
    · exact (List.dropWhile_sublist _).mem ((List.dropWhile_sublist _).mem hc)

end ImportAssist.Path

namespace ImportAssist

open ImportAssist.Path

/-! ## A module and its index file -/

theorem extension_ne_of_inFamily {c : FileCandidate} (h : c.inFamily = true) :
    extension c.path ≠ "" := by
  intro hempty
  rw [FileCandidate.inFamily, hempty] at h
  cases hfamily : c.family <;> rw [hfamily] at h <;> exact absurd h (by decide)

/-- An index file is named by its extension. -/
theorem fileName_of_isIndex {c : FileCandidate} (h : c.isIndex = true)
    (hext : extension c.path ≠ "") : fileName c.path = "index." ++ extension c.path := by
  obtain ⟨hname, hdot, -⟩ := fileName_eq_of_extension hext
  rw [FileCandidate.isIndex, Family.isIndexName] at h
  split at h
  · rename_i first last hsplit
    obtain ⟨hfirst, -⟩ := Bool.and_eq_true_iff.1 h
    have hpieces : (fileName c.path).toList.splitOn '.' = ["index".toList, last.toList] := by
      have := congrArg (List.map String.toList) hsplit
      simpa [of_decide_eq_true hfirst, Function.comp_def] using this
    have hlast : '.' ∉ last.toList := separator_notMem_of_mem_splitOn (by rw [hpieces]; simp)
    have hjoin := @List.intercalate_splitOn _ (fileName c.path).toList _ _ '.'
    rw [hpieces] at hjoin
    have hparts : "index".toList ++ '.' :: last.toList = (fileName c.path).toList := by
      simpa [List.intercalate] using hjoin
    -- Only one extension can stand behind the last dot.
    have hcut := (reverse_cut hlast "index".toList).1
    rw [hparts, hname, (reverse_cut hdot _).1, List.reverse_inj] at hcut
    apply String.toList_inj.1
    rw [← hparts, ← hcut]
    simp
  · cases h

/-- A module and the index file next to it, by their names in a directory. -/
structure Siblings (c : FileCandidate) (k : Nat) (segments : List String) (name : String) : Prop where
  path_eq : c.path = rooted k (segments ++ [name])
  index_eq : Synthesizer.indexPath c = rooted k (segments ++ ["index." ++ extension c.path])
  isSegment : ∀ s ∈ segments ++ [name], IsSegment s
  isSegment_index : ∀ s ∈ segments ++ ["index." ++ extension c.path], IsSegment s
  name_eq : name.toList = (stem c.path).toList ++ '.' :: (extension c.path).toList
  telling : Telling (stem c.path).toList
  extension_ne : extension c.path ≠ ""
  extension_no_dot : '.' ∉ (extension c.path).toList

theorem siblings_of_rooted {c : FileCandidate} {k : Nat} (hk : k = 1 ∨ k = 2) (h : Rooted k c.path)
    (hfamily : c.inFamily = true) : ∃ segments, Siblings c k segments (fileName c.path) := by
  have hext := extension_ne_of_inFamily hfamily
  obtain ⟨hname, hdot, htelling⟩ := fileName_eq_of_extension hext
  obtain ⟨all, hall, hpath⟩ := h
  rcases List.eq_nil_or_concat all with rfl | ⟨segments, last, rfl⟩
  · rw [hpath] at hext
    rcases hk with rfl | rfl <;> exact absurd rfl hext
  · rw [List.concat_eq_append] at hall hpath
    have hlast : fileName c.path = last := by
      rw [hpath, fileName_rooted hk (hall last (by simp)).no_slash]
    have hindex : IsSegment ("index." ++ extension c.path) :=
      isSegment_of_mem (c := 'i') (by simpa using (isExtension_extension c.path).no_slash)
        (by simp) (by decide)
    have hsegments : ∀ s ∈ segments, IsSegment s := fun s hs => hall s (by simp [hs])
    refine ⟨segments, by rw [hlast, hpath], ?_, by rwa [hlast], ?_, hname, htelling,
      extension_ne_of_inFamily hfamily, hdot⟩
    · rw [Synthesizer.indexPath]
      rw [show directory c.path = rooted k segments by
        rw [hpath, directory_rooted hk hsegments (hall last (by simp)).no_slash]]
      exact Rooted.join_singleton hk hsegments hindex
    · intro s hs
      rcases List.mem_append.1 hs with hs | hs
      · exact hsegments s hs
      · rwa [List.mem_singleton.1 hs]

/-- The import path of a module, by the name of the file. -/
theorem path_of_nameAndPath {c : FileCandidate} {cwd directory name own : String}
    (h : c.nameAndPath cwd directory = .ok (name, own)) (hindex : c.isIndex = false)
    (hfamily : c.inFamily = true) :
    own = if c.options.fileExtension then importPath cwd c.path directory
      else stripExtension (importPath cwd c.path directory) (extension c.path) := by
  obtain ⟨_, -, h⟩ := bind_eq_ok h
  have hown {p q r : String} (hpq : (pure (p, q) : Except Failure _) = .ok (name, r)) : r = q :=
    (Prod.mk.inj (Except.ok.inj hpq)).2.symm
  rw [if_neg (by simp [FileCandidate.throughDirectory, hindex])] at h
  cases hoption : c.options.fileExtension
  · rw [if_pos (by simp [FileCandidate.withoutExtension, hoption, hfamily])] at h
    rw [if_neg Bool.false_ne_true]
    exact hown h
  · rw [if_neg (by simp [FileCandidate.withoutExtension, hoption])] at h
    rw [if_pos rfl]
    exact hown h

theorem indexImportPath_not_telling {s : Synthesizer} {index directory : String}
    (h : ¬ Telling (importPath s.disk.cwd (normalize index) directory).toList) :
    ¬ Telling (s.indexImportPath index directory).toList := by
  unfold Synthesizer.indexImportPath
  dsimp only
  split
  · exact stripLastSegment_not_telling h
  · split
    · exact mt (·.mono (stripExtension_isPrefix _ _).subset) h
    · exact h

theorem extension_index {k : Nat} {segments : List String} {ext : String} (hk : k = 1 ∨ k = 2)
    (hslash : '/' ∉ ext.toList) (hdot : '.' ∉ ext.toList) :
    extension (rooted k (segments ++ ["index." ++ ext])) = ext := by
  have hname : ("index." ++ ext).toList = "index".toList ++ '.' :: ext.toList := by simp
  have hdots : ("index." ++ ext).toList.dropWhile (· == '.') = ("index." ++ ext).toList := by
    rw [hname]
    simp
  have hdrop : ('.' :: ext.toList).dropWhile (· == '.') = ext.toList := by
    rw [List.dropWhile_cons_of_pos (by rfl), List.dropWhile_eq_self_iff]
    intro hpos hfirst
    exact hdot (beq_iff_eq.1 hfirst ▸ List.getElem_mem hpos)
  rw [extension, fileName_rooted hk (by simpa using hslash), splitExtension, hdots, if_pos (by simp)]
  dsimp only
  rw [hname, (reverse_cut hdot _).1, List.reverse_reverse, String.toList_ofList, hdrop,
    String.ofList_toList]

variable {s : Synthesizer} {c : FileCandidate} {k : Nat} {segments : List String}
  {file name own start : String}

theorem Siblings.normalize_index (hk : k = 1 ∨ k = 2) (h : Siblings c k segments file) :
    normalize (Synthesizer.indexPath c) = Synthesizer.indexPath c :=
  Rooted.normalize_eq hk ⟨_, h.isSegment_index, h.index_eq⟩

/-- How a module is named in its import path. -/
def shownName (s : Synthesizer) (c : FileCandidate) (file : String) : List Char :=
  if s.options.fileExtension then file.toList else (stem c.path).toList

theorem Siblings.shownName_telling (h : Siblings c k segments file) :
    Telling (shownName s c file) := by
  unfold shownName
  split
  · exact h.telling.mono (by simp [h.name_eq])
  · exact h.telling

theorem Siblings.no_slash_shownName (h : Siblings c k segments file) :
    '/' ∉ shownName s c file := by
  have hfile := (h.isSegment file (by simp)).no_slash
  unfold shownName
  split
  · exact hfile
  · rw [h.name_eq] at hfile
    exact fun hmem => hfile (List.mem_append_left _ hmem)

/-- The import path of a module that does not lie above the document. -/
theorem Siblings.toList_own (hk : k = 1 ∨ k = 2) (h : Siblings c k segments file)
    (hslashes : '\\' ∉ file.toList)
    (habove : ¬ segments ++ [file] <+: rootSegments s.disk.cwd start)
    (hown : own = if s.options.fileExtension then importPath s.disk.cwd c.path start
      else stripExtension (importPath s.disk.cwd c.path start) (extension c.path)) :
    own.toList = approach (wayTo (rootSegments s.disk.cwd start) segments) ++ '/'
        :: shownName s c file ∨
      wayTo (rootSegments s.disk.cwd start) segments = [] ∧ own.toList = shownName s c file := by
  have hfront {front : List Char}
      (hpath : (importPath s.disk.cwd c.path start).toList = front ++ file.toList) :
      own.toList = front ++ shownName s c file := by
    unfold shownName
    cases hoption : s.options.fileExtension <;> rw [hoption] at hown
    · rw [if_neg Bool.false_ne_true] at hown ⊢
      rw [hown]
      exact toList_stripExtension h.extension_ne (by rw [hpath, h.name_eq, List.append_assoc])
    · rw [if_pos rfl] at hown ⊢
      rw [hown, hpath]
  have hpath := importPath_file hk h.isSegment hslashes habove
  rw [← h.path_eq] at hpath
  rcases hpath with hpath | ⟨-, hway, hpath⟩
  · refine .inl ?_
    rw [List.append_cons] at hpath ⊢
    exact hfront hpath
  · exact .inr ⟨hway, hfront (by rw [hpath, List.nil_append])⟩

/-- The import path of an index file that does not lie above the document: that of its directory, or
one by its name. -/
theorem Siblings.toList_index (hk : k = 1 ∨ k = 2) (h : Siblings c k segments file)
    (hslashes : '\\' ∉ file.toList)
    (habove : ¬ segments ++ ["index." ++ extension c.path] <+: rootSegments s.disk.cwd start) :
    (s.options.indexFile = true ∧ ∃ n,
        (s.indexImportPath (Synthesizer.indexPath c) start).toList ++ List.replicate n '/'
          = approach (wayTo (rootSegments s.disk.cwd start) segments) ++ ['/']) ∨
      (s.indexImportPath (Synthesizer.indexPath c) start).toList
        = approach (wayTo (rootSegments s.disk.cwd start) segments) ++ '/' ::
          if s.options.fileExtension then ("index." ++ extension c.path).toList
          else "index".toList := by
  have hext : '/' ∉ (extension c.path).toList := (isExtension_extension c.path).no_slash
  have hback : '\\' ∉ ("index." ++ extension c.path).toList := by
    rw [h.name_eq] at hslashes
    simp_all
  have hpath : (importPath s.disk.cwd (Synthesizer.indexPath c) start).toList
      = approach (wayTo (rootSegments s.disk.cwd start) segments) ++ '/'
        :: ("index." ++ extension c.path).toList := by
    rw [h.index_eq]
    rcases importPath_file hk h.isSegment_index hback habove with hpath | ⟨hdot, -⟩
    · exact hpath
    · simp at hdot
  rw [Synthesizer.indexImportPath, h.normalize_index hk]
  split
  · rename_i hoption
    exact .inl ⟨hoption, stripLastSegment_append_slashes (by simpa using hext) hpath⟩
  · refine .inr ?_
    cases hoption : s.options.fileExtension
    · rw [if_pos (by simp), if_neg Bool.false_ne_true, h.index_eq, extension_index hk hext h.extension_no_dot, ← h.index_eq]
      refine toList_stripExtension h.extension_ne ?_
      rw [hpath]
      simp
    · rw [if_neg (by simp), if_pos rfl, hpath]

theorem Siblings.not_both_above (hfile : file ≠ "index." ++ extension c.path) {here : List String}
    (habove : segments ++ [file] <+: here) : ¬ segments ++ ["index." ++ extension c.path] <+: here := by
  intro hindexAbove
  have hstart := List.prefix_of_prefix_length_le habove hindexAbove (by simp)
  have heq := hstart.eq_of_length (by simp)
  exact hfile (by simpa using heq)

/-- A module above the document is named by dots, its index file by more of them or by its name. -/
theorem Siblings.own_ne_of_above (hk : k = 1 ∨ k = 2) (h : Siblings c k segments file)
    (hslashes : '\\' ∉ file.toList) (hfile : file ≠ "index." ++ extension c.path)
    (habove : segments ++ [file] <+: rootSegments s.disk.cwd start)
    (hown : own.toList <+: (importPath s.disk.cwd c.path start).toList) :
    own ≠ s.indexImportPath (Synthesizer.indexPath c) start := by
  rintro rfl
  obtain ⟨hdots, hcount⟩ := importPath_above hk h.isSegment habove
  rw [← h.path_eq] at hdots hcount
  rcases h.toList_index hk hslashes (not_both_above hfile habove) with ⟨-, n, hindex⟩ | hindex
  · have hway := wayTo_above ((List.prefix_append _ _).trans habove)
    have hlength := habove.length_le
    rw [List.length_append, List.length_singleton] at hlength hcount
    have happroach := @approach_dots
      ((rootSegments s.disk.cwd start).length - segments.length) (by omega)
    have hslashes : (List.replicate n '/').count '.' = 0 := by simp [List.count_replicate]
    have hsame := congrArg (List.count '.') hindex
    rw [hway, List.count_append, List.count_append, hslashes] at hsame
    have hle := hown.sublist.count_le '.'
    omega
  · refine hdots (Telling.mono ⟨'i', ?_, by decide⟩ hown.subset)
    rw [hindex]
    split <;> simp

/-- A module that does not lie above the document is named by more than dots. -/
theorem Siblings.own_ne_of_not_above (hk : k = 1 ∨ k = 2) (h : Siblings c k segments file)
    (hslashes : '\\' ∉ file.toList) (hfile : file ≠ "index." ++ extension c.path)
    (hown : own.toList = approach (wayTo (rootSegments s.disk.cwd start) segments) ++ '/'
        :: shownName s c file ∨
      wayTo (rootSegments s.disk.cwd start) segments = [] ∧ own.toList = shownName s c file) :
    own ≠ s.indexImportPath (Synthesizer.indexPath c) start := by
  rintro rfl
  have htelling : Telling (shownName s c file) := h.shownName_telling
  have hslash : '/' ∉ shownName s c file := h.no_slash_shownName
  by_cases hindexAbove : segments ++ ["index." ++ extension c.path] <+: rootSegments s.disk.cwd start
  · have hdots := (importPath_above hk h.isSegment_index hindexAbove).1
    rw [← h.index_eq, ← h.normalize_index hk] at hdots
    refine indexImportPath_not_telling hdots (htelling.mono fun ch hch => ?_)
    rcases hown with hown | ⟨-, hown⟩ <;> simp [hown, hch]
  · rcases h.toList_index hk hslashes hindexAbove with ⟨-, n, hindex⟩ | hindex <;>
      rcases hown with hown | ⟨hway, hown⟩
    · -- The path of the directory has no room for a name.
      have hlength := congrArg List.length hindex
      rw [hown] at hlength
      simp only [List.length_append, List.length_cons, List.length_replicate,
        List.length_nil] at hlength
      have hnil : shownName s c file = [] := List.length_eq_zero_iff.1 (by omega)
      rw [hnil] at htelling
      obtain ⟨_, hmem, -⟩ := htelling
      cases hmem
    · rw [hown, hway] at hindex
      obtain ⟨ch, hch, hdot, hslash'⟩ := htelling
      have hmem : ch ∈ approach [] ++ ['/'] := hindex ▸ List.mem_append_left _ hch
      simp [approach, hdot, hslash'] at hmem
    · -- Both are named, by different names.
      rw [hindex] at hown
      have hname := (List.cons.inj (List.append_cancel_left hown)).2
      refine hfile (String.toList_inj.1 ?_)
      unfold shownName at hname
      split at hname
      · exact hname.symm
      · rw [h.name_eq, ← hname]
        simp
    · rw [hindex, hway] at hown
      exact hslash (hown ▸ List.mem_append_right _ (List.mem_cons_self ..))

/-- A module and its index file are imported from different paths. -/
theorem nameAndPath_ne_indexImportPath (hk : k = 1 ∨ k = 2) (hpath : Rooted k c.path)
    (hoptions : c.options = s.options) (hfamily : c.inFamily = true)
    (hslashes : '\\' ∉ (fileName c.path).toList) (hne : c.path ≠ Synthesizer.indexPath c)
    (hown : c.nameAndPath s.disk.cwd start = .ok (name, own)) :
    own ≠ s.indexImportPath (Synthesizer.indexPath c) start := by
  obtain ⟨segments, h⟩ := siblings_of_rooted hk hpath hfamily
  have hfile : fileName c.path ≠ "index." ++ extension c.path := fun heq =>
    hne (by rw [h.index_eq, ← heq, ← h.path_eq])
  have hindex : c.isIndex = false :=
    Bool.eq_false_iff.2 fun hindex => hfile (fileName_of_isIndex hindex h.extension_ne)
  have hown := path_of_nameAndPath hown hindex hfamily
  rw [hoptions] at hown
  by_cases habove : segments ++ [fileName c.path] <+: rootSegments s.disk.cwd start
  · refine h.own_ne_of_above hk hslashes hfile habove ?_
    rw [hown]
    split
    · exact List.prefix_rfl
    · exact stripExtension_isPrefix _ _
  · exact h.own_ne_of_not_above hk hslashes hfile (h.toList_own hk hslashes habove hown)

end ImportAssist
