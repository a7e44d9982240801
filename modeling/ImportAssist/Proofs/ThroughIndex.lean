import ImportAssist.Proofs.Cycles

/-!
# Names behind an index file

An index file passes on the names of a file that one of its star exports leads to. The files of all
its star exports are listed one after the other, and what was kept about a file the first time is
passed on. So whether all names of the file arrive depends on the star exports in front:
`exportedThroughIndex_complete` says that they do if the file comes to every cycle at the file where
the index came to it first, and that otherwise some file it reaches adds nothing.
`crossedSiblings_incomplete` shows that this happens.
-/

namespace ImportAssist

/-- The file that a star export of an index leads to. -/
def starOrigin? (disk : Disk) (index : String) (source : Bytes) (statement : Node) :
    Option String :=
  if ExportStatement.isStar statement then
    (relativeModule? disk index
      (checkedString source (statement.child? .source)).toOption.join).map Path.normalize
  else none

/-- The files that the star exports of an index lead to, in order. -/
def starOrigins (disk : Disk) (index : String) (source : Bytes) (statements : List Node) :
    List String :=
  statements.filterMap (starOrigin? disk index source)

/-- A name in the braces of an export statement. -/
def NamedIn (source : Bytes) (statements : List Node) (name : String) : Prop :=
  ∃ statement ∈ statements, ExportStatement.isStar statement = false ∧
    ∃ pairs, ExportStatement.specifiers source statement = .ok pairs ∧ name ∈ pairs.map (·.1)

theorem starOrigin?_rooted {disk : Disk} {k : Nat} {index origin : String} {source : Bytes}
    {statement : Node} (hk : k = 1 ∨ k = 2) (hindex : Path.Rooted k index)
    (h : starOrigin? disk index source statement = some origin) : Path.Rooted k origin := by
  unfold starOrigin? at h
  split at h
  · obtain ⟨target, htarget, rfl⟩ := Option.map_eq_some_iff.1 h
    exact (relativeModule_leads hk hindex htarget).normalize hk
  · cases h

/-- A file that is not being listed keeps what it gives. -/
theorem Lists.names?_single {ps : String → List Contribution} {l l' : Listing} {file : String}
    {ns seen seen' : List String} (h : Lists ps l seen [.star file] ns l' seen')
    (hclosed : file ∉ l.visiting) : l'.names? file = some ns := by
  cases h with
  | known hknown hnil =>
      cases hnil
      rwa [List.append_nil]
  | opened _ hopen _ => exact absurd hopen hclosed
  | enter _ _ _ hnil =>
      cases hnil
      rw [List.append_nil, Listing.names?_leave, if_pos rfl]

/-- What one statement of an index does: a star export lists its file, and any other statement
gives names in braces. -/
theorem passedOn_cases {disk : Disk} {file index : String} {source : Bytes}
    {origins : List (String × String)} {statement : Node} {l l' : Listing} {more : List String}
    (hl : l.visiting = [])
    (h : passedOn disk file index source origins statement l = .ok (more, l')) :
    (∃ origin names, starOrigin? disk index source statement = some origin ∧
      listNames disk (listingDepth disk) origin l = .ok (names, l') ∧
      more = if origin = file then names else []) ∨
    (starOrigin? disk index source statement = none ∧ l' = l ∧
      ∀ name ∈ more, NamedIn source [statement] name) := by
  obtain ⟨done, visiting⟩ := l
  cases hl
  obtain ⟨path?, hpath, h⟩ := bind_eq_ok h
  have horigin : starOrigin? disk index source statement
      = if ExportStatement.isStar statement then (relativeModule? disk index path?).map Path.normalize
        else none := by
    unfold starOrigin?
    rw [hpath]
    rfl
  rw [horigin]
  split at h
  · next hstar =>
      rw [if_pos hstar]
      dsimp only at h
      split at h
      · next hnone =>
          cases h
          exact .inr ⟨hnone, rfl, by simp⟩
      · next origin hsome =>
          obtain ⟨⟨names, after⟩, hlist, h⟩ := bind_eq_ok h
          cases h
          exact .inl ⟨origin, names, hsome, hlist, rfl⟩
  · next hstar =>
      rw [if_neg hstar]
      obtain ⟨pairs, hpairs, h⟩ := bind_eq_ok h
      cases h
      refine .inr ⟨rfl, rfl, fun name hname => ?_⟩
      obtain ⟨⟨exported, inner⟩, hpair, hkeep⟩ := List.mem_filterMap.1 hname
      rw [Option.ite_none_right_eq_some] at hkeep
      cases hkeep.2
      exact ⟨statement, by simp, by simpa using hstar, pairs, hpairs, List.mem_map_of_mem hpair⟩

/-- What the statements of an index have done so far: the star exports among them have been listed
one after the other, the names kept for the file have been passed on if one of them leads to it, and
nothing else has but names in braces. -/
structure PassesOn (disk : Disk) (file index : String) (source : Bytes) (statements : List Node)
    (names : List String) (l : Listing) : Prop where
  lists : ∃ ns order, Lists (parts disk) .fresh []
    ((starOrigins disk index source statements).map .star) ns l order
  passed : file ∈ starOrigins disk index source statements →
    ∃ ms, l.names? file = some ms ∧ ∀ name ∈ ms, name ∈ names
  only : ∀ name ∈ names, (∃ ms, l.names? file = some ms ∧ name ∈ ms) ∨
    NamedIn source statements name

theorem NamedIn.append_left {source : Bytes} {as : List Node} {name : String}
    (h : NamedIn source as name) (bs : List Node) : NamedIn source (as ++ bs) name := by
  obtain ⟨statement, hmem, hrest⟩ := h
  exact ⟨statement, List.mem_append_left _ hmem, hrest⟩

theorem NamedIn.append_right {source : Bytes} {bs : List Node} {name : String} (as : List Node)
    (h : NamedIn source bs name) : NamedIn source (as ++ bs) name := by
  obtain ⟨statement, hmem, hrest⟩ := h
  exact ⟨statement, List.mem_append_right _ hmem, hrest⟩

theorem PassesOn.step {disk : Disk} {k : Nat} {file index : String} {source : Bytes}
    {origins : List (String × String)} {statements : List Node} {statement : Node}
    {names more : List String} {l l' : Listing} (hk : k = 1 ∨ k = 2) (hindex : Path.Rooted k index)
    (h : PassesOn disk file index source statements names l)
    (hstep : passedOn disk file index source origins statement l = .ok (more, l')) :
    PassesOn disk file index source (statements ++ [statement]) (names ++ more) l' := by
  obtain ⟨ns, order, hlists⟩ := h.lists
  have hclosed : l.visiting = [] := hlists.visiting_eq
  rcases passedOn_cases hclosed hstep with
    ⟨origin, given, horigin, hlist, rfl⟩ | ⟨horigin, rfl, hnamed⟩
  · have hstars : starOrigins disk index source (statements ++ [statement])
        = starOrigins disk index source statements ++ [origin] := by
      simp [starOrigins, horigin]
    obtain ⟨order', hstar⟩ := lists_of_listNames hk order
      (.inl (starOrigin?_rooted hk hindex horigin))
      (hclosed ▸ fits_nil (Nat.le_refl _)) hlist
    have hgiven : l'.names? origin = some given := hstar.names?_single (by simp [hclosed])
    refine ⟨⟨ns ++ given, order', ?_⟩, fun hfile => ?_, fun name hname => ?_⟩
    · rw [hstars, List.map_append]
      exact hlists.append hstar
    · by_cases he : origin = file
      · exact ⟨given, he ▸ hgiven, fun name hname => by simp [he, hname]⟩
      · have hbefore : file ∈ starOrigins disk index source statements := by
          rw [hstars, List.mem_append, List.mem_singleton] at hfile
          exact hfile.resolve_right (Ne.symm he)
        obtain ⟨ms, hms, hsub⟩ := h.passed hbefore
        exact ⟨ms, hstar.names?_some hms, fun name hname => by simp [hsub name hname]⟩
    · rcases List.mem_append.1 hname with hname | hname
      · rcases h.only name hname with ⟨ms, hms, hmem⟩ | hnamed
        · exact .inl ⟨ms, hstar.names?_some hms, hmem⟩
        · exact .inr (hnamed.append_left _)
      · split at hname
        · next he => exact .inl ⟨given, he ▸ hgiven, hname⟩
        · cases hname
  · have hstars : starOrigins disk index source (statements ++ [statement])
        = starOrigins disk index source statements := by
      simp [starOrigins, horigin]
    refine ⟨⟨ns, order, hstars ▸ hlists⟩, fun hfile => ?_, fun name hname => ?_⟩
    · obtain ⟨ms, hms, hsub⟩ := h.passed (hstars ▸ hfile)
      exact ⟨ms, hms, fun name hname => by simp [hsub name hname]⟩
    · rcases List.mem_append.1 hname with hname | hname
      · exact (h.only name hname).imp_right fun hnamed => hnamed.append_left _
      · exact .inr ((hnamed name hname).append_right _)

theorem passesOn_foldlM {disk : Disk} {k : Nat} {file index : String} {source : Bytes}
    {origins : List (String × String)} (hk : k = 1 ∨ k = 2) (hindex : Path.Rooted k index) :
    ∀ {rest statements : List Node} {names names' : List String} {l l' : Listing},
      PassesOn disk file index source statements names l →
      rest.foldlM (fun (names, l) statement => do
        let (more, l) ← passedOn disk file index source origins statement l
        return (names ++ more, l)) (names, l) = .ok (names', l') →
      PassesOn disk file index source (statements ++ rest) names' l'
  | [], _, _, _, _, _, h, hrun => by
      cases hrun
      rwa [List.append_nil]
  | statement :: rest, _, _, _, _, _, h, hrun => by
      rw [List.foldlM_cons] at hrun
      obtain ⟨⟨names₁, l₁⟩, hstep, hrun⟩ := bind_eq_ok hrun
      obtain ⟨⟨more, l₂⟩, hmore, hstep⟩ := bind_eq_ok hstep
      cases hstep
      rw [List.append_cons]
      exact passesOn_foldlM hk hindex (h.step hk hindex hmore) hrun

/-! ## UTF-8 -/

theorem importOrigins_succeeds {disk : Disk} {source : Bytes} {tree : Node} (index : String)
    (hutf8 : (Utf8.decode? source).isSome) (htree : tree.Placed (Utf8.IsCut source)) :
    Succeeds (importOrigins disk index source tree) := by
  refine (Succeeds.mapM fun statement hs => ?_).bind fun _ => .ok _
  refine (checkedString_succeeds hutf8 fun n hn => (htree.ofKind hs).child? hn).bind fun path? => ?_
  split <;> exact .ok _

theorem passedOn_succeeds {disk : Disk} (hdisk : disk.IsUtf8) (file index : String) {source : Bytes}
    (hutf8 : (Utf8.decode? source).isSome) (origins : List (String × String)) {statement : Node}
    (hs : statement.Placed (Utf8.IsCut source)) (l : Listing) :
    Succeeds (passedOn disk file index source origins statement l) := by
  refine (checkedString_succeeds hutf8 fun n hn => hs.child? hn).bind fun path? => ?_
  dsimp only
  split
  · split
    · exact .ok _
    · exact (listNames_succeeds hdisk _ _ _).bind fun _ => .ok _
  · exact (specifiers_succeeds hutf8 hs).bind fun _ => .ok _

theorem exportedNames_succeeds {disk : Disk} (hutf8 : disk.IsUtf8) (file : String) :
    Succeeds (exportedNames disk file) :=
  (listNames_succeeds hutf8 _ _ _).bind fun _ => .ok _

theorem exportedThroughIndex_succeeds {disk : Disk} (hutf8 : disk.IsUtf8) (file index : String) :
    Succeeds (exportedThroughIndex disk file index) := by
  unfold exportedThroughIndex
  dsimp only
  split
  · exact exportedNames_succeeds hutf8 _
  split
  · exact .ok _
  · next source tree hmodule =>
      obtain ⟨hread, htree⟩ := readModule_spec hmodule
      have hsource := hutf8.read hread
      refine (importOrigins_succeeds _ hsource htree).bind fun origins => ?_
      refine (Succeeds.foldlM fun statement hs r => ?_).bind fun _ => .ok _
      exact (passedOn_succeeds hutf8 _ _ hsource origins (htree.ofKind hs) r.2).bind fun _ => .ok _

/-! ## Complete and incomplete lists -/

theorem exportedThroughIndex_passesOn {disk : Disk} {k : Nat} {file index : String} {source : Bytes}
    {tree : Node} {names : List String} (hk : k = 1 ∨ k = 2)
    (hindex : Path.Rooted k (Path.normalize index))
    (hstem : Path.stem (Path.normalize file) ≠ "index")
    (hmodule : readModule disk (Path.normalize index) = some (source, tree))
    (h : exportedThroughIndex disk file index = .ok names) :
    ∃ passed l, names = unique passed ∧ PassesOn disk (Path.normalize file) (Path.normalize index)
      source (tree.childrenOfKind .exportStatement) passed l := by
  unfold exportedThroughIndex at h
  dsimp only at h
  rw [if_neg hstem, hmodule] at h
  obtain ⟨origins, -, h⟩ := bind_eq_ok h
  obtain ⟨⟨passed, l⟩, hfold, h⟩ := bind_eq_ok h
  cases h
  have hstart : PassesOn disk (Path.normalize file) (Path.normalize index) source [] []
      Listing.fresh :=
    ⟨⟨[], [], .nil _ _⟩, by simp [starOrigins], by simp⟩
  exact ⟨passed, l, rfl, passesOn_foldlM hk hindex hstart hfold⟩

/-- If a star export of an index leads to a file, the names of the file pass through the index
where the file comes to every cycle at the file where the star exports of the index came to it
first. Otherwise it reaches another file of which nothing passes: every name that passes stands in
braces in the index, or is also declared elsewhere. -/
theorem exportedThroughIndex_complete {disk : Disk} {file index : String} {source : Bytes}
    {tree : Node} (habs : Path.isAbsolute index = true)
    (hstem : Path.stem (Path.normalize file) ≠ "index")
    (hmodule : readModule disk (Path.normalize index) = some (source, tree))
    (hstar : Path.normalize file ∈ starOrigins disk (Path.normalize index) source
      (tree.childrenOfKind .exportStatement)) :
    (disk.IsUtf8 →
      Succeeds (exportedThroughIndex disk file index) ∧ Succeeds (exportedNames disk file)) ∧
    ∀ names, exportedThroughIndex disk file index = .ok names →
      ∃ raw order, Inlines (parts disk) [] ((starOrigins disk (Path.normalize index) source
          (tree.childrenOfKind .exportStatement)).map .star) raw order ∧
        (EntersFirst (parts disk) order (Path.normalize file) →
          ∀ all, exportedNames disk file = .ok all → ∀ name ∈ all, name ∈ names) ∧
        (¬ EntersFirst (parts disk) order (Path.normalize file) →
          ∃ c, Reaches (parts disk) (Path.normalize file) c ∧ c ≠ Path.normalize file ∧
            ∀ name ∈ names, NamedIn source (tree.childrenOfKind .exportStatement) name ∨
              ∃ u, u ≠ c ∧ Reaches (parts disk) (Path.normalize file) u ∧
                Declares (parts disk) u name) := by
  have hk := Path.leadingSlashes_of_isAbsolute habs
  have hindex := Path.normalize_rooted habs
  refine ⟨fun hutf8 => ⟨exportedThroughIndex_succeeds hutf8 file index,
    exportedNames_succeeds hutf8 file⟩, fun names hnames => ?_⟩
  obtain ⟨passed, l, rfl, hpasses⟩ :=
    exportedThroughIndex_passesOn hk hindex hstem hmodule hnames
  obtain ⟨ns, order, hlists⟩ := hpasses.lists
  obtain ⟨raw, hraw, -⟩ := hlists.inlines agrees_fresh
  have hfile : Path.normalize file ∈ order := by
    exact hraw.done.reaches _ (List.mem_map_of_mem hstar)
  refine ⟨raw, order, hraw, fun henters all hall name hname => ?_, fun henters => ?_⟩
  · obtain ⟨statement, -, horigin⟩ := List.mem_filterMap.1 hstar
    obtain ⟨⟨all', l'⟩, hlist, hall⟩ := bind_eq_ok hall
    cases hall
    obtain ⟨raw', order', hraw', rfl⟩ :=
      listNames_fresh hk (Nat.le_refl _) (starOrigin?_rooted hk hindex horigin) hlist
    obtain ⟨hname, himp⟩ := mem_offered.1 hname
    obtain ⟨v, hv, hd⟩ := hraw'.mem_iff.1 hname
    obtain ⟨ms, hms, hmem⟩ := hlists.mem_kept_of_entersFirst hfile henters hv hd himp
    obtain ⟨ms', hms', hsub⟩ := hpasses.passed hstar
    rw [hms] at hms'
    cases hms'
    exact mem_unique.2 (hsub name hmem)
  · obtain ⟨c, hc, hne, hkept⟩ := hlists.kept_elsewhere henters
    refine ⟨c, hc, hne, fun name hname => ?_⟩
    rcases hpasses.only name (mem_unique.1 hname) with ⟨ms, hms, hmem⟩ | hnamed
    · exact .inr (hkept ms hms name hmem)
    · exact .inl hnamed

/-- An index in front of two files that re-export each other. -/
def crossedSiblings : Disk where
  cwd := "/"
  entries := [(["index.js"], .file (Utf8.encode "export * from './a';export * from './b'")),
    (["a.js"], .file (Utf8.encode "export * from './b';export let x")),
    (["b.js"], .file (Utf8.encode "export * from './a';export let y"))]

/-- The second of the two files loses the name of the first, although the index has a star export
that leads to it. -/
theorem crossedSiblings_incomplete :
    (readModule crossedSiblings "/index.js").any (fun (source, tree) =>
      (starOrigins crossedSiblings "/index.js" source
        (tree.childrenOfKind .exportStatement)).contains "/b.js") = true ∧
      (exportedNames crossedSiblings "/b.js").toOption = some ["x", "y"] ∧
      (exportedThroughIndex crossedSiblings "/b.js" "/index.js").toOption = some ["y"] := by
  decide +kernel

theorem crossedSiblings_parts :
    parts crossedSiblings "/a.js" = [.star "/b.js", .names ["x"]] ∧
      parts crossedSiblings "/b.js" = [.star "/a.js", .names ["y"]] := by
  decide +kernel

/-- The star exports of the index come to the first file first. -/
theorem crossedSiblings_inlines :
    Inlines (parts crossedSiblings) [] [.star "/a.js", .star "/b.js"] ["y", "x"]
      ["/a.js", "/b.js"] := by
  obtain ⟨ha, hb⟩ := crossedSiblings_parts
  have hsecond : Inlines (parts crossedSiblings) ["/a.js", "/b.js"]
      (parts crossedSiblings "/b.js") ["y"] ["/a.js", "/b.js"] := by
    rw [hb]
    exact .again (by simp) (.names (.nil _))
  have hown : Inlines (parts crossedSiblings) ["/a.js", "/b.js"] [.names ["x"]] ["x"]
      ["/a.js", "/b.js"] := .names (.nil _)
  have hfirst : Inlines (parts crossedSiblings) ["/a.js"] (parts crossedSiblings "/a.js")
      ["y", "x"] ["/a.js", "/b.js"] := by
    rw [ha]
    have h := Inlines.expand (show "/b.js" ∉ ["/a.js"] by simp) hsecond hown
    exact h
  have hagain : Inlines (parts crossedSiblings) ["/a.js", "/b.js"] [.star "/b.js"] []
      ["/a.js", "/b.js"] := .again (by simp) (.nil _)
  have h := Inlines.expand (show "/a.js" ∉ [] by simp) hfirst hagain
  exact h

theorem crossedSiblings_entersFirst :
    EntersFirst (parts crossedSiblings) ["/a.js", "/b.js"] "/a.js" := by
  intro c hc hfirst
  have hmem := crossedSiblings_inlines.done.mem_of_reaches (by simp) hc
  simp only [List.mem_cons, List.not_mem_nil, or_false] at hmem
  rcases hmem with rfl | rfl
  · exact .inl rfl
  · have hback : Reexports (parts crossedSiblings) "/b.js" "/a.js" := by
      simp [Reexports, crossedSiblings_parts.2]
    have hle := hfirst "/a.js" ⟨.single hback, hc⟩
    simp at hle

/-- Nothing is lost for the first of them, where the index comes to the cycle. -/
theorem crossedSiblings_complete :
    ∃ source tree, readModule crossedSiblings (Path.normalize "/index.js") = some (source, tree) ∧
      Path.isAbsolute "/index.js" = true ∧ Path.stem (Path.normalize "/a.js") ≠ "index" ∧
      Path.normalize "/a.js" ∈ starOrigins crossedSiblings (Path.normalize "/index.js") source
        (tree.childrenOfKind .exportStatement) ∧
      ∃ order names, EntersFirst (parts crossedSiblings) order (Path.normalize "/a.js") ∧
        exportedThroughIndex crossedSiblings "/a.js" "/index.js" = .ok names ∧
        ∀ all, exportedNames crossedSiblings "/a.js" = .ok all → ∀ name ∈ all, name ∈ names := by
  obtain ⟨horigins, hsome⟩ : ((readModule crossedSiblings (Path.normalize "/index.js")).map fun m =>
        starOrigins crossedSiblings (Path.normalize "/index.js") m.1
          (m.2.childrenOfKind .exportStatement)) = some ["/a.js", "/b.js"] ∧
      (exportedThroughIndex crossedSiblings "/a.js" "/index.js").toOption.isSome := by
    decide +kernel
  obtain ⟨⟨source, tree⟩, hmodule, hstars⟩ := Option.map_eq_some_iff.1 horigins
  have hfile : Path.normalize "/a.js" = "/a.js" := by decide +kernel
  have hstem : Path.stem (Path.normalize "/a.js") ≠ "index" := by decide +kernel
  have habs : Path.isAbsolute "/index.js" = true := by decide +kernel
  have hstar : Path.normalize "/a.js" ∈ starOrigins crossedSiblings (Path.normalize "/index.js")
      source (tree.childrenOfKind .exportStatement) := by
    rw [hstars, hfile]
    simp
  have hnames : ∃ names, exportedThroughIndex crossedSiblings "/a.js" "/index.js" = .ok names := by
    cases hrun : exportedThroughIndex crossedSiblings "/a.js" "/index.js" with
    | error e => simp [hrun, Except.toOption] at hsome
    | ok names => exact ⟨names, rfl⟩
  obtain ⟨names, hnames⟩ := hnames
  obtain ⟨raw, order, hraw, hcomplete, -⟩ :=
    (exportedThroughIndex_complete habs hstem hmodule hstar).2 names hnames
  rw [hstars] at hraw
  obtain ⟨rfl, rfl⟩ := crossedSiblings_inlines.unique hraw
  have henters := crossedSiblings_entersFirst
  rw [← hfile] at henters
  exact ⟨source, tree, hmodule, habs, hstem, hstar, _, names, henters, hnames, hcomplete henters⟩

end ImportAssist
