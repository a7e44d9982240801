import ImportAssist.Proofs.Decision
import ImportAssist.Proofs.ExportStatements
import ImportAssist.Proofs.SiblingPaths
import ImportAssist.Proofs.ThroughIndex

/-!
# Named imports name exports

A binding by name is decided on for a name that the module exports: the index file next to a candidate
if the binding goes through it, and otherwise the candidate. What an index file passes on are names of
its own (`exportedThroughIndex_subset`), and the import path tells which of the two files is meant.
-/

namespace ImportAssist

/-! ## What passes through an index file -/

section

variable {disk : Disk} {index : String} {source : Bytes} {tree : Node}

/-- A file whose names are listed has been read. -/
theorem contributions_of_exportedNames {file : String} {all : List String}
    (h : exportedNames disk file = .ok all) :
    Succeeds (contributions disk (Path.normalize file)) := by
  obtain ⟨⟨names, l⟩, hlist, -⟩ := bind_eq_ok h
  rw [listingDepth, listNames] at hlist
  obtain ⟨cs, hcs, -⟩ := bind_eq_ok hlist
  exact ⟨cs, hcs⟩

theorem exists_of_mapM {ε α β : Type} {f : α → Except ε β} : ∀ {l : List α} {bs : List β} {a : α},
    l.mapM f = .ok bs → a ∈ l → ∃ b ∈ bs, f a = .ok b
  | first :: l, _, a, h, ha => by
      rw [List.mapM_cons] at h
      obtain ⟨b, hb, h⟩ := bind_eq_ok h
      obtain ⟨bs, hbs, h⟩ := bind_eq_ok h
      cases h
      rcases List.mem_cons.1 ha with rfl | ha
      · exact ⟨b, by simp, hb⟩
      · obtain ⟨b', hb', hfa⟩ := exists_of_mapM hbs ha
        exact ⟨b', by simp [hb'], hfa⟩

/-- Every export statement of a file that has been read adds its part. -/
theorem contribution_mem_parts (hcs : Succeeds (contributions disk index))
    (hmodule : readModule disk index = some (source, tree)) {statement : Node}
    (hstatement : statement ∈ tree.childrenOfKind .exportStatement) :
    ∃ part ∈ parts disk index, contribution disk index source statement = .ok part := by
  obtain ⟨cs, hcs⟩ := hcs
  rw [parts, hcs]
  rw [contributions, hmodule] at hcs
  obtain ⟨ps, hps, hcs⟩ := bind_eq_ok hcs
  cases hcs
  obtain ⟨hmem, hkind⟩ := List.mem_filter.1 hstatement
  refine exists_of_mapM hps (List.mem_filter.2 ⟨hmem, ?_⟩)
  rw [Node.isNamed, beq_iff_eq.1 hkind]

theorem parse_of_readModule {file : String} (h : readModule disk file = some (source, tree)) :
    ∃ language, parse source language = some tree := by
  unfold readModule at h
  split at h
  · cases h
  · obtain ⟨parsed, hparsed, heq⟩ := Option.map_eq_some_iff.1 h
    cases heq
    exact ⟨_, hparsed⟩

/-- A file that cannot be read adds nothing. -/
theorem parts_of_unread {file : String} (h : ∃ e, disk.read file = .error e) :
    parts disk file = [] := by
  obtain ⟨e, he⟩ := h
  simp [parts, contributions, readModule, he]

/-- What the files behind a star export of an index declare, the index reaches. -/
theorem reaches_of_starOrigin {k : Nat} (hk : k = 1 ∨ k = 2) (hindex : Path.Rooted k index)
    (hcs : Succeeds (contributions disk index))
    (hmodule : readModule disk index = some (source, tree)) {origin v name : String}
    (horigin : origin ∈ starOrigins disk index source (tree.childrenOfKind .exportStatement))
    (hv : Reaches (parts disk) origin v) (hname : Declares (parts disk) v name) :
    Reaches (parts disk) index v := by
  obtain ⟨statement, hstatement, horigin⟩ := List.mem_filterMap.1 horigin
  obtain ⟨part, hpart, hcontribution⟩ := contribution_mem_parts hcs hmodule hstatement
  obtain ⟨language, htree⟩ := parse_of_readModule hmodule
  rw [starOrigin?, Option.ite_none_right_eq_some] at horigin
  obtain ⟨hstar, horigin⟩ := horigin
  obtain ⟨target, htarget, rfl⟩ := Option.map_eq_some_iff.1 horigin
  obtain rfl := star_contributes htree hstatement hstar htarget hcontribution
  obtain ⟨path, -, hmodulePath⟩ := Option.map_eq_some_iff.1 htarget
  have hbase := (hindex.leads.normalize hk).leads.directory
  rcases @modulePath_rooted_or_root disk k _ _ path hk hbase (Path.isExtension_extension _) with
    hrooted | hroot
  · rw [hmodulePath] at hrooted
    rw [hrooted.normalize_eq hk] at hv
    exact .head hpart hv
  · -- The root is a directory, so nothing is declared behind it.
    rw [hmodulePath] at hroot
    have hempty : parts disk (Path.normalize target) = [] :=
      parts_of_unread (hroot ▸ (read_root hk).2)
    cases hv using Relation.ReflTransGen.head_induction_on with
    | refl =>
        obtain ⟨names, hnames, -⟩ := hname
        rw [hempty] at hnames
        cases hnames
    | head hstep =>
        rw [Reexports, hempty] at hstep
        cases hstep

theorem passedOn_ne_default {k : Nat} {file : String} {origins : List (String × String)}
    {statements : List Node} {statement : Node} {names more : List String} {l l' : Listing}
    (hk : k = 1 ∨ k = 2) (hindex : Path.Rooted k index)
    (h : PassesOn disk file index source statements names l)
    (hstep : passedOn disk file index source origins statement l = .ok (more, l')) :
    "default" ∉ more := by
  intro hdefault
  obtain ⟨ns, order, hlists⟩ := h.lists
  have hclosed : l.visiting = [] := hlists.visiting_eq
  rcases passedOn_cases hclosed hstep with ⟨origin, given, horigin, hlist, rfl⟩ | ⟨horigin, -, -⟩
  · -- What is kept about a file can be imported by itself.
    obtain ⟨order', hstar⟩ := lists_of_listNames hk order
      (.inl (starOrigin?_rooted hk hindex horigin)) (hclosed ▸ fits_nil (Nat.le_refl _)) hlist
    have hkept : l'.names? origin = some given := hstar.names?_single (by simp [hclosed])
    have hgiven : "default" ∈ given := by
      split at hdefault
      · exact hdefault
      · cases hdefault
    have himportable := importable_of_kept ((hlists.append hstar).consistent ⟨_, agrees_fresh⟩)
      hkept hgiven
    exact absurd himportable (by decide)
  · obtain ⟨path?, hpath, hstep⟩ := bind_eq_ok hstep
    split at hstep
    · rename_i hstar
      rw [starOrigin?, if_pos hstar, hpath] at horigin
      have hnone : (relativeModule? disk index path?).map Path.normalize = none := horigin
      rw [hnone] at hstep
      cases hstep
      cases hdefault
    · obtain ⟨pairs, -, hstep⟩ := bind_eq_ok hstep
      cases hstep
      obtain ⟨⟨exported, inner⟩, -, hkeep⟩ := List.mem_filterMap.1 hdefault
      rw [Option.ite_none_right_eq_some] at hkeep
      obtain ⟨hkeep, hname⟩ := hkeep
      cases hname
      simp at hkeep

theorem passesOn_ne_default {k : Nat} {file : String} {origins : List (String × String)}
    (hk : k = 1 ∨ k = 2) (hindex : Path.Rooted k index) :
    ∀ {rest statements : List Node} {names names' : List String} {l l' : Listing},
      PassesOn disk file index source statements names l → "default" ∉ names →
      rest.foldlM (fun (names, l) statement => do
        let (more, l) ← passedOn disk file index source origins statement l
        return (names ++ more, l)) (names, l) = .ok (names', l') →
      "default" ∉ names'
  | [], _, _, _, _, _, _, hnames, hrun => by
      cases hrun
      exact hnames
  | statement :: rest, statements, names, _, l, _, h, hnames, hrun => by
      rw [List.foldlM_cons] at hrun
      obtain ⟨⟨names₁, l₁⟩, hstep, hrun⟩ := bind_eq_ok hrun
      obtain ⟨⟨more, l₂⟩, hmore, hstep⟩ := bind_eq_ok hstep
      cases hstep
      refine passesOn_ne_default hk hindex (h.step hk hindex hmore) ?_ hrun
      rw [List.mem_append, not_or]
      exact ⟨hnames, passedOn_ne_default hk hindex h hmore⟩

/-- A name that passes through an index file can be imported from the index file itself. -/
theorem exportedThroughIndex_subset {file : String} {names all : List String}
    (habs : Path.isAbsolute index = true) (h : exportedThroughIndex disk file index = .ok names)
    (hall : exportedNames disk index = .ok all) : ∀ name ∈ names, name ∈ all := by
  intro name hname
  have hk := Path.leadingSlashes_of_isAbsolute habs
  have hindex := Path.normalize_rooted habs
  have hcs := contributions_of_exportedNames hall
  obtain ⟨⟨listed, l⟩, hlist, hlisted⟩ := bind_eq_ok hall
  cases hlisted
  obtain ⟨raw, order, hraw, rfl⟩ := listNames_fresh hk (Nat.le_refl _) hindex hlist
  unfold exportedThroughIndex at h
  dsimp only at h
  split at h
  · rw [exportedNames, hindex.normalize_eq hk, hlist] at h
    cases h
    exact hname
  · split at h
    · cases h
      cases hname
    · rename_i hstem source tree hmodule
      obtain ⟨origins, -, h⟩ := bind_eq_ok h
      obtain ⟨⟨passed, l'⟩, hfold, h⟩ := bind_eq_ok h
      cases h
      have hstart : PassesOn disk (Path.normalize file) (Path.normalize index) source [] []
          Listing.fresh :=
        ⟨⟨[], [], .nil _ _⟩, by simp [starOrigins], by simp⟩
      have hdefault := passesOn_ne_default hk hindex hstart (by simp) hfold
      have hpasses := passesOn_foldlM hk hindex hstart hfold
      rw [mem_unique] at hname
      have hreached : isImportable name = true ∧
          ∃ v, Reaches (parts disk) (Path.normalize index) v ∧ Declares (parts disk) v name := by
        rcases hpasses.only name hname with ⟨ms, hms, hmem⟩ | hnamed
        · obtain ⟨ns, order', hlists⟩ := hpasses.lists
          obtain ⟨raw', hraw', hagrees, -⟩ := hlists.inlines agrees_fresh
          obtain ⟨hgiven, himportable⟩ := mem_offered.1 (hagrees.kept _ _ hms _ hmem)
          refine ⟨himportable, ?_⟩
          rcases hraw'.mem_sound hgiven with ⟨xs, hxs, -⟩ | ⟨origin, v, horigin, hv, hdeclares⟩
          · simp at hxs
          · obtain ⟨origin', horigin', heq⟩ := List.mem_map.1 horigin
            cases heq
            exact ⟨v, reaches_of_starOrigin hk hindex hcs hmodule horigin' hv hdeclares, hdeclares⟩
        · obtain ⟨statement, hstatement, hstar, pairs, hpairs, hin⟩ := hnamed
          obtain ⟨language, htree⟩ := parse_of_readModule hmodule
          obtain ⟨part, hpart, hcontribution⟩ := contribution_mem_parts hcs hmodule hstatement
          obtain ⟨hempty, hnames⟩ := specifiers_contribute htree hstatement hstar hpairs hin
          rw [hnames part hcontribution] at hpart
          have hne : name ≠ "default" := fun heq => hdefault (heq ▸ hname)
          exact ⟨by simp [isImportable, hempty, hne], _, .refl, _, hpart, hin⟩
      exact mem_offered.2 ⟨hraw.mem_iff.2 hreached.2, hreached.1⟩

end

/-! ## What is decided on -/

/-- A choice is answered by one of the items on offer, or not at all. -/
def Exchange.Offered : Exchange → Prop
  | .select items _ answer => ∀ x ∈ answer, x ∈ items
  | _ => True

/-- The file that a path of an import means next to a candidate. -/
def Synthesizer.meant (s : Synthesizer) (d : Document) (c : FileCandidate) (path : String) : String :=
  if path = s.indexImportPath (indexPath c) d.directory then indexPath c else c.path

variable {s : Synthesizer} {d : Document} {log : List Exchange} {x path : String}

theorem Synthesizer.Chosen.named_mem {name own : String} {exported : List String}
    (h : Chosen name own exported log (.bind (.named x) path)) (hlog : ∀ e ∈ log, e.Offered) :
    x ∈ exported ∧ path = own := by
  cases h with
  | only hexported => exact ⟨by simp [hexported], rfl⟩
  | named hempty hall =>
      have hx : x ∈ Synthesizer.everything :: exported := hlog _ (List.mem_singleton_self _) x rfl
      exact ⟨(List.mem_cons.1 hx).resolve_left hall, rfl⟩

/-- A binding by name is one of a name that the file it comes from exports, and whatever passes
through an index file the index file exports. -/
theorem settles_named_exported {c : FileCandidate} {root file : String} {family : Family}
    (hc : c = .create s.disk.cwd root s.options family file) (habs : Path.isAbsolute file = true)
    (hfamily : c.inFamily = true) (hslashes : '\\' ∉ (Path.fileName c.path).toList)
    (hlog : ∀ e ∈ log, e.Offered) (h : s.Settles d c log (.named x) path) :
    ((∀ names, exportedNames s.disk (s.meant d c path) = .ok names → x ∈ names) ∧
      (s.disk.IsUtf8 → Succeeds (exportedNames s.disk (s.meant d c path)))) ∧
    ∀ other index names all, Path.isAbsolute index = true →
      exportedThroughIndex s.disk other index = .ok names → exportedNames s.disk index = .ok all →
      ∀ name ∈ names, name ∈ all := by
  refine ⟨⟨fun names hnames => ?_, fun hutf8 => exportedNames_succeeds hutf8 _⟩,
    fun _ _ _ _ hindex hthrough hall => exportedThroughIndex_subset hindex hthrough hall⟩
  have hk := Path.leadingSlashes_of_isAbsolute habs
  have hpath : Path.Rooted (Path.leadingSlashes file) c.path := by
    rw [hc, FileCandidate.create]
    dsimp only
    exact Path.normalize_rooted habs
  obtain ⟨name, own, hown, hplays⟩ := h
  have hdecided := Synthesizer.decideForm_decided hplays
  cases hdecided with
  | own hexported hchosen =>
      obtain ⟨hx, rfl⟩ := hchosen.named_mem hlog
      -- The path is that of the index file only if the candidate is the index file.
      have hfile : s.meant d c path = c.path := by
        unfold Synthesizer.meant
        split
        · rename_i hindex
          by_contra hne
          exact nameAndPath_ne_indexImportPath hk hpath (by rw [hc]; rfl) hfamily hslashes
            (Ne.symm hne) hown hindex
        · rfl
      rw [hfile, hexported] at hnames
      exact Except.ok.inj hnames ▸ hx
  | through hexported hchosen =>
      obtain ⟨hx, rfl⟩ := hchosen.named_mem hlog
      obtain ⟨segments, hsiblings⟩ := siblings_of_rooted hk hpath hfamily
      have hindex : Path.isAbsolute (Synthesizer.indexPath c) = true :=
        Path.Leads.isAbsolute hk
          (Path.Rooted.leads ⟨_, hsiblings.isSegment_index, hsiblings.index_eq⟩)
      rw [Synthesizer.meant, if_pos rfl] at hnames
      exact exportedThroughIndex_subset hindex hexported hnames x hx

def emptyDocument : Document := ⟨"/ws/app.js", "", "javascript", 0⟩

/-- The candidate at a path of a small workspace. -/
def Synthesizer.candidateAt (s : Synthesizer) (path : String) : FileCandidate :=
  .create s.disk.cwd "/ws" s.options .javascript path

def starIndex : Synthesizer :=
  ⟨{ cwd := "/ws", entries := [(["ws"], .directory), (["ws", "index.js"], .file (Utf8.encode "export * from './a';")),
    (["ws", "a.js"], .file (Utf8.encode "export const a = 1, b = 2;"))] }, {}, false⟩

def choiceOfTwo : List Exchange := [.select ["*", "a", "b"] "" (some "b")]

/-- One of two names that pass through an index file is chosen. -/
theorem chosen_name_exported :
    let c := starIndex.candidateAt "/ws/a.js"
    c.inFamily = true ∧ '\\' ∉ (Path.fileName c.path).toList ∧ (∀ e ∈ choiceOfTwo, e.Offered) ∧
      starIndex.Settles emptyDocument c choiceOfTwo (.named "b") "./index" ∧
      starIndex.meant emptyDocument c "./index" = "/ws/index.js" ∧
      ∀ names, exportedNames starIndex.disk "/ws/index.js" = .ok names → "b" ∈ names := by
  have hfamily : (starIndex.candidateAt "/ws/a.js").inFamily = true := by decide +kernel
  have hslashes : '\\' ∉ (Path.fileName (starIndex.candidateAt "/ws/a.js").path).toList := by
    decide +kernel
  have hoffered : ∀ e ∈ choiceOfTwo, e.Offered := by simp [choiceOfTwo, Exchange.Offered]
  have hsettles : starIndex.Settles emptyDocument (starIndex.candidateAt "/ws/a.js") choiceOfTwo
      (.named "b") "./index" :=
    ⟨"a", "./a", by decide +kernel, Dialogue.plays_of_replay (by decide +kernel)⟩
  have hmeant : starIndex.meant emptyDocument (starIndex.candidateAt "/ws/a.js") "./index"
      = "/ws/index.js" := by decide +kernel
  have hcreated : starIndex.candidateAt "/ws/a.js"
      = .create starIndex.disk.cwd "/ws" starIndex.options .javascript "/ws/a.js" := rfl
  have hexported :=
    (settles_named_exported hcreated (by decide) hfamily hslashes hoffered hsettles).1.1
  rw [hmeant] at hexported
  exact ⟨hfamily, hslashes, hoffered, hsettles, hmeant, hexported⟩

/-- An index file with a name that is no text, and one next to a file whose name has a backslash. -/
def unreadableIndex : Synthesizer :=
  ⟨{ cwd := "/ws", entries := [(["ws"], .directory), (["ws", "a.js"], .file (Utf8.encode "export const a = 1;")),
    (["ws", "index.js"], .file (Utf8.encode "export \x7b a \x7d from './a';\nmodule.exports = \x7b'"
      ++ [0xff] ++ Utf8.encode "': 1\x7d;"))] }, {}, false⟩

def backslashedName : Synthesizer :=
  ⟨{ cwd := "/ws", entries := [(["ws"], .directory), (["ws", "index.js"], .file (Utf8.encode "export const y = 1;")),
    (["ws", ".\\index.js"], .file (Utf8.encode "export const x = 1;"))] }, {}, false⟩

/-- Where the exports of an index file cannot be listed, a name that passes through it is bound all the
same; and a backslash lets the path of a file pass for that of its index file. -/
theorem named_not_exported :
    (unreadableIndex.Settles emptyDocument (unreadableIndex.candidateAt "/ws/a.js") []
        (.named "a") "./index" ∧
      ¬ ∃ names, exportedNames unreadableIndex.disk (unreadableIndex.meant emptyDocument
        (unreadableIndex.candidateAt "/ws/a.js") "./index") = .ok names ∧ "a" ∈ names) ∧
    backslashedName.Settles emptyDocument (backslashedName.candidateAt "/ws/.\\index.js") []
        (.named "x") "./index" ∧
      ¬ ∃ names, exportedNames backslashedName.disk (backslashedName.meant emptyDocument
        (backslashedName.candidateAt "/ws/.\\index.js") "./index") = .ok names ∧ "x" ∈ names := by
  obtain ⟨hthrough, hnone⟩ : (unreadableIndex.decideForm emptyDocument emptyDocument.imports
        (unreadableIndex.candidateAt "/ws/a.js") "a" "./a").replay [] = some (.bind (.named "a") "./index") ∧
      (exportedNames unreadableIndex.disk (unreadableIndex.meant emptyDocument
        (unreadableIndex.candidateAt "/ws/a.js") "./index")).toOption = none := by decide +kernel
  obtain ⟨hown, hsome⟩ : (backslashedName.decideForm emptyDocument emptyDocument.imports
        (backslashedName.candidateAt "/ws/.\\index.js") "index" "./index").replay [] =
          some (.bind (.named "x") "./index") ∧
      (exportedNames backslashedName.disk (backslashedName.meant emptyDocument
        (backslashedName.candidateAt "/ws/.\\index.js") "./index")).toOption = some ["y"] := by decide +kernel
  refine ⟨⟨⟨"a", "./a", by decide +kernel, Dialogue.plays_of_replay hthrough⟩, ?_⟩,
    ⟨"index", "./index", by decide +kernel, Dialogue.plays_of_replay hown⟩, ?_⟩
  · rintro ⟨names, hnames, -⟩
    rw [hnames] at hnone
    cases hnone
  · rintro ⟨names, hnames, hx⟩
    rw [hnames] at hsome
    cases hsome
    simp at hx

end ImportAssist
