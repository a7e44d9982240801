import ImportAssist.Proofs.Decision
import ImportAssist.Proofs.KnownFronts
import ImportAssist.Proofs.NewImports

/-!
# Additions are seen

An addition that inserts a statement writes it for a binding and a path (`Synthesizer.add_writes`). If
the document has room for it (`Synthesizer.Admits`), the new import comes first in the document that
the edits leave, the others follow as they were, and adding the candidate again finds it there
(`addition_seen`).

Not every document has room at its front: a script keeps its interpreter line there. Where there are imports, it is
enough that the text in front of the first one is read in the same way whatever stands behind it
(`Synthesizer.admits_of_front`).
-/

namespace ImportAssist

open Syntax
open Utf8 (glyphOf)

/-! ## What an addition writes -/

namespace Synthesizer

variable {s : Synthesizer} {d : Document} {log : List Exchange} {binding : Binding} {path : String}

/-- A candidate is written as a new statement: after some choices, with a binding or none, for a path. -/
inductive Writes (s : Synthesizer) (d : Document) :
    Candidate → List Exchange → Option Binding → String → Prop
  | package {p : PackageCandidate} {name : String} : variableName p.name s.options = .ok name →
      Writes s d (.package p) [] (some (if s.wildcardPackages && s.options.form = .declaration
        then .wildcard name else .default name)) p.name
  | module {c : FileCandidate} {log : List Exchange} {binding : Binding} {path : String} :
      c.inFamily = true → s.Settles d c log binding path →
      Writes s d (.file c) log (some binding) path
  | stylesheet {c : FileCandidate} {name path : String} : c.inFamily = false →
      isStylesheet (Path.extension c.path) = true →
      c.nameAndPath s.disk.cwd d.directory = .ok (name, path) → Writes s d (.file c) [] none path

theorem Settles.default {c : FileCandidate} (h : s.Settles d c log binding path)
    (hform : s.options.form = .require) : ∃ x, binding = .default x := by
  obtain ⟨name, own, -, h⟩ := h
  rw [decideForm, if_neg (by rw [hform]; decide)] at h
  obtain ⟨-, hbinding⟩ := Dialogue.plays_done h
  cases hbinding
  exact ⟨name, rfl⟩

/-- A statement that loads a module binds the whole module. -/
theorem Writes.default {c : Candidate} {binding? : Option Binding}
    (h : s.Writes d c log binding? path) (hform : s.options.form = .require) :
    ∀ binding ∈ binding?, ∃ x, binding = .default x := by
  intro binding hbinding
  cases h with
  | package =>
      simp only [hform, reduceCtorEq, decide_false, Bool.and_false, Bool.false_eq_true, if_false,
        Option.mem_def, Option.some.injEq] at hbinding
      exact ⟨_, hbinding.symm⟩
  | module _ hsettles =>
      cases hbinding
      exact hsettles.default hform
  | stylesheet => cases hbinding

/-- The new statement of an addition. -/
def newStatement (s : Synthesizer) (d : Document) (binding? : Option Binding) (path : String) : String :=
  importStatement (renderAll binding?) path s.options.form s.options d.lineBreak

theorem insert_writes {edits : List Edit}
    (hkeep : ∀ identifier, Exchange.confirmReplace identifier (some true) ∉ log)
    (h : (s.insert d d.imports binding path).Plays log (.ok (.inserted edits))) :
    edits = [.insert (insertionOffset d.imports) (s.newStatement d (some binding) path)] := by
  simp only [insert] at h
  split at h
  · obtain ⟨-, ho⟩ := Dialogue.plays_done h
    cases ho
    rfl
  · cases h with
    | confirmReplace h =>
        dsimp only at h
        split at h
        · obtain ⟨-, ho⟩ := Dialogue.plays_done h
          cases ho
        · obtain ⟨-, ho⟩ := Dialogue.plays_done h
          cases ho
          rfl
        · exact absurd (List.mem_cons_self ..) (hkeep binding.identifier)

theorem carryOut_writes {edits : List Edit}
    (hkeep : ∀ identifier, Exchange.confirmReplace identifier (some true) ∉ log)
    (h : (s.carryOut d d.imports (.bind binding path)).Plays log (.ok (.inserted edits))) :
    edits = [.insert (insertionOffset d.imports) (s.newStatement d (some binding) path)] := by
  simp only [carryOut] at h
  split at h
  · exact insert_writes hkeep h
  · split at h
    · exact absurd (Except.ok.inj (Dialogue.plays_done h).2).symm merge_ne_inserted
    · cases (Dialogue.plays_done h).2

theorem add_writes {c : Candidate} (hc : c.byStatement = true) {edits : List Edit}
    (hkeep : ∀ identifier, Exchange.confirmReplace identifier (some true) ∉ log)
    (h : (s.add d c).Plays log (.ok (.inserted edits))) :
    ∃ chosen binding? path, chosen <+: log ∧ s.Writes d c chosen binding? path ∧
      edits = [.insert (insertionOffset d.imports) (s.newStatement d binding? path)] := by
  cases c with
  | package p =>
      simp only [add, addAmong, addPackage] at h
      split at h
      · cases (Dialogue.plays_done h).2
      · obtain ⟨name, hname, h⟩ := Dialogue.plays_ofExcept_bind h
        obtain ⟨-, ho⟩ := Dialogue.plays_pure h
        cases ho
        exact ⟨[], _, _, List.nil_prefix, .package hname, rfl⟩
  | file c =>
      simp only [add, addAmong] at h
      split at h
      · rename_i hfamily
        obtain ⟨⟨name, own⟩, hname, h⟩ := Dialogue.plays_ofExcept_bind h
        obtain ⟨decision, front, back, hdecision, hcarried, rfl⟩ := Dialogue.plays_bind h
        cases decision with
        | stop outcome =>
            obtain ⟨-, ho⟩ := Dialogue.plays_done hcarried
            cases ho
            rcases decideForm_stop hdecision with h | ⟨_, _, h⟩ <;> cases h
        | bind binding path =>
            have hback : ∀ identifier, Exchange.confirmReplace identifier (some true) ∉ back :=
              fun identifier hmem => hkeep identifier (List.mem_append_right _ hmem)
            exact ⟨front, some binding, path, List.prefix_append front back,
              .module hfamily ⟨name, own, hname, hdecision⟩, carryOut_writes hback hcarried⟩
      · rename_i hfamily
        have hsheet : isStylesheet (Path.extension c.path) = true := by
          simpa [Candidate.byStatement, hfamily] using hc
        obtain ⟨⟨name, path⟩, hname, h⟩ := Dialogue.plays_ofExcept_bind h
        simp only [hsheet, if_true] at h
        split at h
        · cases (Dialogue.plays_pure h).2
        · obtain ⟨-, ho⟩ := Dialogue.plays_pure h
          cases ho
          exact ⟨[], none, path, List.nil_prefix,
            .stylesheet (Bool.eq_false_iff.mpr hfamily) hsheet hname, rfl⟩

/-- What is imported already is not added again. -/
theorem add_there {c : Candidate} {binding? : Option Binding} (h : s.Writes d c log binding? path)
    {new : Import} (hnew : findDuplicate d.imports path = some new)
    (hmerge : new.isDeclaration = true → ∀ binding ∈ binding?, ∃ duplicate focus,
      merge d.source new.node binding path = .alreadyImported duplicate focus) :
    ∃ duplicate focus, (s.add d c).Plays log (.ok (.alreadyImported duplicate focus)) := by
  cases h with
  | @package p name hname =>
      refine ⟨.module p.name, startOf d new, ?_⟩
      simp only [add, addAmong, addPackage, hnew]
      exact .done _
  | @stylesheet c name path hfamily hsheet hname =>
      refine ⟨.module c.label, startOf d new, ?_⟩
      simp only [add, addAmong, hfamily, Bool.false_eq_true, if_false, addAsset, hname,
        Dialogue.ofExcept_ok_bind, hsheet, if_true, hnew]
      exact .done _
  | @module c log binding path hfamily hsettles =>
      obtain ⟨name, own, hname, hdecided⟩ := hsettles
      have hcarried : ∃ duplicate focus, (s.carryOut d d.imports (.bind binding path)).Plays []
          (.ok (.alreadyImported duplicate focus)) := by
        simp only [carryOut, hnew]
        split
        · rename_i hjoins
          obtain ⟨duplicate, focus, hduplicate⟩ :=
            hmerge (Bool.and_eq_true_iff.mp hjoins).2 binding rfl
          rw [hduplicate]
          exact ⟨_, _, .done _⟩
        · exact ⟨_, _, .done _⟩
      obtain ⟨duplicate, focus, hcarried⟩ := hcarried
      refine ⟨duplicate, focus, ?_⟩
      simp only [add, addAmong, hfamily, if_true, addModule, hname, Dialogue.ofExcept_ok_bind]
      have hboth := Dialogue.Plays.append hcarried hdecided
      rwa [List.append_nil] at hboth

theorem Chosen.path_eq {name own : String} {exported : List String}
    (h : Chosen name own exported log (.bind binding path)) : path = own := by
  cases h <;> rfl

/-- With a new import for the path that was decided on, the decision is the same or there is nothing
left to decide. -/
theorem decideForm_again {d' : Document} {c : FileCandidate} {name own : String} {new : Import}
    (hdirectory : d'.directory = d.directory) (hnew : findDuplicate d'.imports path = some new)
    (h : (s.decideForm d d.imports c name own).Plays log (.ok (.bind binding path))) :
    (s.decideForm d' d'.imports c name own).Plays log (.ok (.bind binding path)) ∨
      ∃ duplicate focus, (s.decideForm d' d'.imports c name own).Plays []
        (.ok (.stop (.alreadyImported duplicate focus))) := by
  simp only [decideForm] at h ⊢
  split at h
  · rename_i hform
    rw [if_pos hform]
    simp only [decide] at h ⊢
    split at h
    · rename_i hindex
      rw [if_pos hindex]
      obtain ⟨exported, hexported, h⟩ := Dialogue.plays_ofExcept_bind h
      rw [hexported, Dialogue.ofExcept_ok_bind]
      split at h
      · rename_i hempty
        rw [if_pos hempty]
        exact .inl h
      · rename_i hempty
        rw [if_neg hempty, hdirectory]
        split at h
        · cases (Dialogue.plays_done h).2
        · obtain rfl := (takeExport_chosen h).path_eq
          split
          · exact .inr ⟨_, _, .done _⟩
          · exact .inl h
    · rename_i hindex
      rw [if_neg hindex]
      exact .inl h
  · rename_i hform
    rw [if_neg hform]
    exact .inl h

/-- With a new import for its path, a candidate is not added again. -/
theorem add_again {d' : Document} {c : Candidate} {binding? : Option Binding} {new : Import}
    (hdirectory : d'.directory = d.directory) (h : s.Writes d c log binding? path)
    (hnew : findDuplicate d'.imports path = some new)
    (hmerge : new.isDeclaration = true → ∀ binding ∈ binding?, ∃ duplicate focus,
      merge d'.source new.node binding path = .alreadyImported duplicate focus) :
    ∃ again duplicate focus, again <+: log ∧
      (s.add d' c).Plays again (.ok (.alreadyImported duplicate focus)) := by
  suffices hwrites : s.Writes d' c log binding? path ∨
      ∃ duplicate focus, (s.add d' c).Plays [] (.ok (.alreadyImported duplicate focus)) by
    rcases hwrites with hwrites | ⟨duplicate, focus, hplays⟩
    · obtain ⟨duplicate, focus, hplays⟩ := add_there hwrites hnew hmerge
      exact ⟨log, duplicate, focus, List.prefix_refl log, hplays⟩
    · exact ⟨[], duplicate, focus, List.nil_prefix, hplays⟩
  cases h with
  | package hname => exact .inl (.package hname)
  | stylesheet hfamily hsheet hname =>
      rw [← hdirectory] at hname
      exact .inl (.stylesheet hfamily hsheet hname)
  | @module c log binding path hfamily hsettles =>
      obtain ⟨name, own, hname, hdecided⟩ := hsettles
      rw [← hdirectory] at hname
      rcases decideForm_again hdirectory hnew hdecided with hagain | ⟨duplicate, focus, hstop⟩
      · exact .inl (.module hfamily ⟨name, own, hname, hagain⟩)
      · refine .inr ⟨duplicate, focus, ?_⟩
        simp only [add, addAmong, hfamily, if_true, addModule, hname, Dialogue.ofExcept_ok_bind]
        have hcarried : (s.carryOut d' d'.imports (.stop (.alreadyImported duplicate focus))).Plays []
            (.ok (.alreadyImported duplicate focus)) := .done _
        exact hcarried.append hstop

end Synthesizer

/-! ## The document with a new statement -/

theorem isBreak_lineBreak (d : Document) : IsBreak d.lineBreak.toList := by
  unfold Document.lineBreak
  split
  · exact .inr rfl
  · exact .inl rfl

theorem mem_quotes (mark : QuoteMark) : mark.char = '\x27' ∨ mark.char = '"' := by
  cases mark
  · exact .inl rfl
  · exact .inr rfl

/-- Without an interpreter line reading starts at the front. -/
theorem arrives_zero {dialect : Dialect} {source : Bytes}
    (h : Lexeme.hashBang (Utf8.glyphs source) = none) : Arrives dialect source 0 := by
  have hstart : (readHashBang (Cursor.start source)).2 = Cursor.start source := by
    rw [readHashBang, Cursor.start, h]
  refine ⟨[], _, 0, .refl _, rfl, ?_⟩
  rw [hstart]
  rfl

theorem applyEdits_text {d : Document} {front snippet back : String} (htext : d.text = front ++ back) :
    applyEdits d.source [.insert (Utf8.encode front).length snippet] =
      Utf8.encode (front ++ (snippet ++ back)) := by
  have hsource : d.source = Utf8.encode front ++ Utf8.encode back := by
    rw [Document.source, htext, Utf8.encode_append]
  rw [applyEdits_insert (by simp [hsource]), hsource, List.take_left, List.drop_left]
  simp

/-- A text put in at a cut leaves a text. -/
theorem apply_insert {d : Document} {front snippet back : String} (htext : d.text = front ++ back) :
    d.apply [.insert (Utf8.encode front).length snippet] =
      .ok { d with text := front ++ (snippet ++ back) } := by
  rw [Document.apply, applyEdits_text htext, Utf8.decode?_encode]

namespace Synthesizer

variable {s : Synthesizer} {d : Document}

/-- A new statement has room in a document: its name and its path stand for themselves, what follows
does not go on with it, and it does not disturb what comes before. -/
structure Admits (s : Synthesizer) (d : Document) (binding? : Option Binding) (path : String) :
    Prop where
  name : ∀ binding ∈ binding?, Shape.IsName binding.identifier
  enclosed : Enclosed s.options.quoteMark.char path.toList
  noSlash : trimSlash path = path
  next : s.options.semicolons = true ∨ Follows (Shape.of s.options.form binding?).refused
    (upcoming (Utf8.glyphs (d.source.drop (insertionOffset d.imports))))
  front : if d.imports.isEmpty then Lexeme.hashBang (Utf8.glyphs d.source) = none
    else ∀ dialect ∈ Dialect.forLanguage d.language, FrontKept d.source
      (applyEdits d.source
        [.insert (insertionOffset d.imports) (s.newStatement d binding? path)])
      (insertionOffset d.imports) dialect

/-- What is known of the import that a new statement makes. -/
structure Makes (s : Synthesizer) (source : Bytes) (binding? : Option Binding) (path : String)
    (new : Import) : Prop where
  form_eq : new.form = (Shape.of s.options.form binding?).importForm
  path_eq : new.path = path
  there : new.isDeclaration = true → ∀ binding ∈ binding?, ∃ duplicate focus,
    merge source new.node binding path = .alreadyImported duplicate focus

variable {binding? : Option Binding} {path : String}

theorem Admits.isName (h : s.Admits d binding? path)
    (hbinds : (Shape.of s.options.form binding?).binds = true) : Shape.IsName (boundName binding?) :=
  isName_boundName h.name hbinds

theorem Admits.ne_empty (h : s.Admits d binding? path) :
    ∀ binding ∈ binding?, binding.identifier ≠ "" :=
  fun binding hbinding => (h.name binding hbinding).ne_empty

/-- A new statement makes its import wherever there is room for it. -/
theorem Admits.lands {front back : String} {dialect : Dialect} (h : s.Admits d binding? path)
    (hdefault : s.options.form = .require → ∀ binding ∈ binding?, ∃ x, binding = .default x)
    (hback : Utf8.glyphs (d.source.drop (insertionOffset d.imports)) = back.toList.map glyphOf) :
    let snippet := s.newStatement d binding? path
    let source := Utf8.encode (front ++ (snippet ++ back))
    ∃ new, Lands dialect source (Utf8.encode front).length (Utf8.encode snippet).length new ∧
      s.Makes source binding? path new := by
  intro snippet source
  let shape := Shape.of s.options.form binding?
  let quoted := s.options.quoteMark.char :: path.toList ++ [s.options.quoteMark.char]
  have hsnippet : snippet.toList =
      shape.text s.options.semicolons (boundName binding?) quoted ++ d.lineBreak.toList :=
    importStatement_toList h.ne_empty hdefault
  have hsource : source = Utf8.encode (String.ofList (front.toList ++
      ((shape.text s.options.semicolons (boundName binding?) quoted ++ d.lineBreak.toList) ++
        back.toList))) := by
    rw [← hsnippet, ← String.toList_append, ← String.toList_append, String.ofList_toList]
  have hlands := @Shape.lands dialect (boundName binding?) s.options.quoteMark.char path.toList
    d.lineBreak.toList shape s.options.semicolons h.isName (mem_quotes _) h.enclosed
    (isBreak_lineBreak d) front.toList back.toList (hback ▸ h.next)
  dsimp only at hlands
  rw [← hsource, ← hsnippet, bytesOf, bytesOf, String.ofList_toList, String.ofList_toList,
    String.ofList_toList] at hlands
  refine ⟨_, hlands, rfl, h.noSlash, fun hdeclaration binding hbinding => ?_⟩
  cases hbinding
  have hform : s.options.form = .declaration := by
    cases hform : s.options.form with
    | declaration => rfl
    | require =>
        rw [show shape = .required by simp only [shape, hform]; rfl] at hdeclaration
        cases hdeclaration
  have hshape : shape = Shape.of .declaration (some binding) := by simp only [shape, hform]
  rw [hsource, hshape]
  have hnode (statement : Node) (f : Nat → Nat) :
      ((Shape.of .declaration (some binding)).toImport path statement f).node = statement := by
    cases binding <;> rfl
  rw [hnode]
  have hmerge := @merge_new s.options.semicolons _ (h.ne_empty binding rfl) front.toList back.toList
    d.lineBreak.toList quoted path
  rw [bytesOf, String.ofList_toList] at hmerge
  exact hmerge

theorem Admits.hashBang_eq_none (h : s.Admits d binding? path) (hnone : d.imports = []) :
    Lexeme.hashBang (Utf8.glyphs d.source) = none := by
  have hfront := h.front
  rwa [hnone, List.isEmpty_nil, if_pos rfl] at hfront

/-- The place of a new statement is one where reading arrives. -/
theorem Admits.arrives {dialect : Dialect} {tree : Node} (h : s.Admits d binding? path)
    (htree : parse d.source d.language = some tree) (hdialect : parseAs dialect d.source = some tree) :
    Arrives dialect d.source (insertionOffset d.imports) := by
  have himports : d.imports = imports d.source tree := by rw [Document.imports, htree]; rfl
  cases hfound : d.imports with
  | nil => exact arrives_zero (h.hashBang_eq_none hfound)
  | cons first others => exact parseAs_arrives hdialect (himports ▸ hfound)

/-- A new statement is no interpreter line. -/
theorem Admits.newStatement_hashBang (h : s.Admits d binding? path)
    (hdefault : s.options.form = .require → ∀ binding ∈ binding?, ∃ x, binding = .default x)
    (back : String) :
    Lexeme.hashBang (Utf8.glyphs (Utf8.encode (s.newStatement d binding? path ++ back))) = none := by
  have hsnippet := @importStatement_toList s.options binding? path d.lineBreak h.ne_empty hdefault
  rw [Utf8.glyphs_encode_self, String.toList_append, newStatement, hsnippet]
  cases Shape.of s.options.form binding? <;> rfl

theorem Admits.frontKept {front back : String} (h : s.Admits d binding? path)
    (hdefault : s.options.form = .require → ∀ binding ∈ binding?, ∃ x, binding = .default x)
    (htext : d.text = front ++ back)
    (hoffset : insertionOffset d.imports = (Utf8.encode front).length) :
    ∀ dialect ∈ Dialect.forLanguage d.language, FrontKept d.source
      (Utf8.encode (front ++ (s.newStatement d binding? path ++ back)))
      (insertionOffset d.imports) dialect := by
  intro dialect hmem
  have hfront := h.front
  cases hfound : d.imports with
  | nil =>
      have hzero : insertionOffset d.imports = 0 := by rw [hfound]; rfl
      have hempty : front = "" := by
        have hnil : Utf8.encode front = [] := List.length_eq_zero_iff.mp (hoffset.symm.trans hzero)
        rw [← Utf8.decodeLossy_encode front, hnil]
        rfl
      have hhere : Arrives dialect d.source 0 := arrives_zero (h.hashBang_eq_none hfound)
      have hthere : Arrives dialect
          (Utf8.encode (front ++ (s.newStatement d binding? path ++ back))) 0 := by
        rw [hempty, String.empty_append]
        exact arrives_zero (h.newStatement_hashBang hdefault back)
      rw [← hfound, hzero]
      exact ⟨fun _ => hthere, fun hnot => absurd hhere hnot⟩
  | cons first others =>
      rw [hoffset, applyEdits_text htext, ← hoffset, hfound, if_neg (by simp)] at hfront
      exact hfront dialect hmem

/-- A new statement for which there is room is seen, and the imports that were there are kept. -/
theorem Admits.imports_eq {front back : String} (h : s.Admits d binding? path)
    (hdefault : s.options.form = .require → ∀ binding ∈ binding?, ∃ x, binding = .default x)
    (hparses : (parse d.source d.language).isSome = true) (htext : d.text = front ++ back)
    (hoffset : insertionOffset d.imports = (Utf8.encode front).length) :
    let d' : Document := { d with text := front ++ (s.newStatement d binding? path ++ back) }
    ∃ new k, (parse d'.source d'.language).isSome = true ∧
      d'.imports = new :: d.imports.map (Import.shift k) ∧ s.Makes d'.source binding? path new := by
  intro d'
  obtain ⟨tree, htree⟩ := Option.isSome_iff_exists.mp hparses
  have hsource : d.source = Utf8.encode front ++ Utf8.encode back := by
    rw [Document.source, htext, Utf8.encode_append]
  have hback : Utf8.glyphs (d.source.drop (insertionOffset d.imports)) = back.toList.map glyphOf := by
    rw [hsource, hoffset, List.drop_left, Utf8.glyphs_encode_self]
  have hsame : SameBehind d.source d'.source (insertionOffset d.imports)
      (Utf8.encode (s.newStatement d binding? path)).length := by
    have hsource' : d'.source = (Utf8.encode front ++ Utf8.encode (s.newStatement d binding? path)) ++
        Utf8.encode back := by
      rw [Document.source, Utf8.encode_append, Utf8.encode_append, List.append_assoc]
    rw [SameBehind, hsource', hsource, hoffset, List.drop_left, ← List.length_append, List.drop_left]
  obtain ⟨tree', new, htree', hnew, himports⟩ := parse_insert hsame htree
    (fun dialect => h.arrives htree) (h.frontKept hdefault htext hoffset)
    fun dialect _ => by rw [hoffset]; exact h.lands hdefault hback
  refine ⟨new, (Utf8.encode (s.newStatement d binding? path)).length,
    Option.isSome_iff_exists.mpr ⟨tree', htree'⟩, ?_, hnew⟩
  rw [Document.imports, htree', Document.imports, htree]
  exact himports

end Synthesizer

/-- An addition whose statement has room in the document is seen: the document with the edits parses,
its first import is the new one, the others follow as they were, and the candidate is not added again.
-/
theorem addition_seen {s : Synthesizer} {d : Document} {c : Candidate} {log : List Exchange}
    {edits : List Edit} (hc : c.byStatement = true)
    (hparses : (parse d.source d.language).isSome = true)
    (hkeep : ∀ identifier, Exchange.confirmReplace identifier (some true) ∉ log)
    (h : (s.add d c).Plays log (.ok (.inserted edits))) :
    ∃ chosen binding? path, chosen <+: log ∧ s.Writes d c chosen binding? path ∧
      edits = [.insert (insertionOffset d.imports) (s.newStatement d binding? path)] ∧
      (s.Admits d binding? path → ∃ d', d.apply edits = .ok d' ∧
        (parse d'.source d'.language).isSome = true ∧
        d'.imports.map (fun i => (i.form, i.path)) =
          ((Shape.of s.options.form binding?).importForm, path) ::
            d.imports.map (fun i => (i.form, i.path)) ∧
        ∃ again duplicate focus, again <+: chosen ∧
          (s.add d' c).Plays again (.ok (.alreadyImported duplicate focus))) := by
  obtain ⟨chosen, binding?, path, hchosen, hwrites, rfl⟩ := s.add_writes hc hkeep h
  refine ⟨chosen, binding?, path, hchosen, hwrites, rfl, fun hadmits => ?_⟩
  obtain ⟨tree, htree⟩ := Option.isSome_iff_exists.mp hparses
  obtain ⟨dialect, -, hdialect⟩ := List.exists_of_findSome?_eq_some htree
  have hcut := (hadmits.arrives htree hdialect).isCut
  obtain ⟨front, back, htext, hoffset⟩ := Utf8.encode_split hcut
  obtain ⟨new, k, hparsed, himports, hnew⟩ :=
    hadmits.imports_eq hwrites.default hparses htext hoffset
  refine ⟨_, by rw [hoffset]; exact apply_insert htext, hparsed, ?_, ?_⟩
  · rw [himports, List.map_cons, List.map_map, hnew.form_eq, hnew.path_eq]
    rfl
  · refine Synthesizer.add_again (d := d) rfl hwrites ?_ hnew.there
    rw [himports, findDuplicate, List.find?_cons_of_pos]
    simp [hnew.path_eq]

/-! ## Behind other statements -/

/-- The words that a statement with an import starts with. -/
def importWords : List String := ["import", "const", "let", "var", "require"]

theorem isOpener_importWords : ∀ w ∈ importWords, IsOpener w := by
  have hall : ∀ w ∈ importWords, (w.toList.all fun ch => Lexeme.isWordGlyph (glyphOf ch)) = true ∧
      (w.toList.head?.any fun ch => !ch.isDigit) = true ∧ w ≠ "in" ∧ w ≠ "instanceof" := by decide +kernel
  intro w hw
  obtain ⟨hglyphs, hstart, hoperator⟩ := hall w hw
  exact ⟨Shape.isWord_of_all hglyphs hstart, hoperator⟩

/-- A new statement starts with one of these words. -/
theorem Shape.startsWord (shape : Shape) (semicolons : Bool) (name : String) (path back : List Char) :
    ∃ w ∈ importWords, StartsWord w (shape.text semicolons name path ++ back) := by
  have hends {ch : Char} (more : List Char) (hword : Lexeme.isWordGlyph (glyphOf ch) = false) (hescape : ch ≠ '\\') :
      EndsWord ((ch :: more).map glyphOf) := by
    have hcons := @endsWord_cons more [] ch hword hescape
    rwa [List.append_nil] at hcons
  cases shape with
  | required => exact ⟨"const", by decide, _, rfl, hends _ rfl (by decide)⟩
  | loaded => exact ⟨"require", by decide, _, rfl, hends _ rfl (by decide)⟩
  | _ => exact ⟨"import", by decide, _, rfl, hends _ rfl (by decide)⟩

section

variable {s : Synthesizer} {d : Document} {binding? : Option Binding} {path : String} {front text : List Char}

/-- A new statement does not disturb a text in front that is read without an import, whatever stands behind it. -/
theorem Synthesizer.frontKept_of_front {dialect : Dialect} (hname : ∀ binding ∈ binding?, binding.identifier ≠ "")
    (hdefault : s.options.form = .require → ∀ binding ∈ binding?, ∃ x, binding = .default x)
    (htext : d.text.toList = front ++ text) (hoffset : insertionOffset d.imports = bytesOf front)
    (hword : ∃ w ∈ importWords, StartsWord w text) (hfront : importFree dialect importWords front = true) :
    FrontKept d.source (applyEdits d.source [.insert (insertionOffset d.imports) (s.newStatement d binding? path)])
      (insertionOffset d.imports) dialect := by
  have hsplit : d.text = String.ofList front ++ String.ofList text := by
    rw [← String.ofList_append, ← htext, String.ofList_toList]
  have hopens {chars : List Char} (h : ∃ w ∈ importWords, StartsWord w chars) :
      Opens importWords (Utf8.glyphs (Utf8.encode (String.ofList chars))) := by
    obtain ⟨w, hw, hstarts⟩ := h
    rw [Utf8.glyphs_encode_self, String.toList_ofList]
    exact hstarts.opens (isOpener_importWords w hw) hw
  have hsnippet := @importStatement_toList s.options binding? path d.lineBreak hname hdefault
  have hnew := (Shape.of s.options.form binding?).startsWord s.options.semicolons (boundName binding?)
    (s.options.quoteMark.char :: path.toList ++ [s.options.quoteMark.char]) (d.lineBreak.toList ++ text)
  rw [← List.append_assoc, ← hsnippet] at hnew
  have hkept := frontKept_of_importFree hfront (hopens hword) (hopens hnew)
  rw [← Utf8.encode_append, ← Utf8.encode_append, ← hsplit, String.ofList_append, String.ofList_toList] at hkept
  rw [hoffset, bytesOf, applyEdits_text hsplit]
  exact hkept

/-- Where a new statement has room, seen from the document alone: behind a text that is read without an import, in
front of the first one. -/
theorem Synthesizer.admits_of_front (hname : ∀ binding ∈ binding?, Shape.IsName binding.identifier)
    (hpath : Enclosed s.options.quoteMark.char path.toList) (hslash : trimSlash path = path)
    (hnext : s.options.semicolons = true ∨ Follows (Shape.of s.options.form binding?).refused
      (upcoming (Utf8.glyphs (d.source.drop (insertionOffset d.imports)))))
    (hdefault : s.options.form = .require → ∀ binding ∈ binding?, ∃ x, binding = .default x)
    (himports : d.imports.isEmpty = false) (htext : d.text.toList = front ++ text)
    (hoffset : insertionOffset d.imports = bytesOf front) (hword : ∃ w ∈ importWords, StartsWord w text)
    (hfront : ∀ dialect ∈ Dialect.forLanguage d.language, importFree dialect importWords front = true) :
    s.Admits d binding? path := by
  refine ⟨hname, hpath, hslash, hnext, ?_⟩
  rw [himports, if_neg Bool.false_ne_true]
  intro dialect hdialect
  exact frontKept_of_front (fun binding hbinding => (hname binding hbinding).ne_empty) hdefault htext hoffset hword
    (hfront dialect hdialect)

end

/-- A script whose only import stands behind an interpreter line and a comment. -/
def commentedScript : Document :=
  ⟨"/ws/app.js", "#!/bin/node\n// Tools\nimport './a'\n", "javascript", 0⟩

def namingSynthesizer : Synthesizer :=
  ⟨{ cwd := "/ws", entries := [(["ws"], .directory),
    (["ws", "x.js"], .file (Utf8.encode "export const type = 1;"))] }, {}, false⟩

def namingCandidate : FileCandidate := .create "/ws" "/ws" {} .javascript "/ws/x.js"

def namingEdits : List Edit := [.insert 21 "import \x7b type \x7d from './x'\n"]

theorem naming_writes {chosen : List Exchange} {binding? : Option Binding} {path : String}
    (hchosen : chosen <+: []) (h : namingSynthesizer.Writes commentedScript (.file namingCandidate)
      chosen binding? path) : binding? = some (.named "type") ∧ path = "./x" := by
  obtain rfl := List.prefix_nil.mp hchosen
  cases h with
  | stylesheet hfamily => exact absurd hfamily (by decide +kernel)
  | module _ hsettles =>
      obtain ⟨name, own, hname, hdecided⟩ := hsettles
      have hown : namingCandidate.nameAndPath namingSynthesizer.disk.cwd commentedScript.directory =
          .ok ("x", "./x") := by decide +kernel
      rw [hown] at hname
      cases hname
      have hdecision : (namingSynthesizer.decideForm commentedScript commentedScript.imports
          namingCandidate "x" "./x").replay [] = some (.bind (.named "type") "./x") := by
        decide +kernel
      rw [Dialogue.replay_of_plays hdecided] at hdecision
      cases hdecision
      exact ⟨rfl, rfl⟩

/-- A new import goes behind the interpreter line and the comment, and binds the name `type`. -/
theorem commented_import_seen :
    namingSynthesizer.Admits commentedScript (some (.named "type")) "./x" ∧
      (parse commentedScript.source commentedScript.language).isSome = true ∧
      (namingSynthesizer.add commentedScript (.file namingCandidate)).Plays []
        (.ok (.inserted namingEdits)) ∧
      ∃ d', commentedScript.apply namingEdits = .ok d' ∧
        (parse d'.source d'.language).isSome = true ∧
        d'.imports.map (fun i => (i.form, i.path)) = [(.declaration, "./x"), (.declaration, "./a")] ∧
        ∃ duplicate focus, (namingSynthesizer.add d' (.file namingCandidate)).Plays []
          (.ok (.alreadyImported duplicate focus)) := by
  obtain ⟨hparses, hreplay, hfound⟩ :
      (parse commentedScript.source commentedScript.language).isSome = true ∧
        (namingSynthesizer.add commentedScript (.file namingCandidate)).replay [] = some (.inserted namingEdits) ∧
        insertionOffset commentedScript.imports = 21 ∧
          (commentedScript.imports.map fun i => (i.form, i.path)) = [(.declaration, "./a")] := by
    decide +kernel
  have hplays : (namingSynthesizer.add commentedScript (.file namingCandidate)).Plays []
      (.ok (.inserted namingEdits)) := Dialogue.plays_of_replay hreplay
  have hadmits : namingSynthesizer.Admits commentedScript (some (.named "type")) "./x" := by
    have htext : commentedScript.text.toList = "#!/bin/node\n// Tools\n".toList ++ "import './a'\n".toList := by
      decide +kernel
    have hfree : ∀ dialect ∈ Dialect.forLanguage commentedScript.language,
        importFree dialect importWords "#!/bin/node\n// Tools\n".toList = true := by decide +kernel
    refine Synthesizer.admits_of_front ?_ (by unfold Enclosed; decide +kernel) (by decide +kernel) (.inr ?_) ?_ ?_
      htext hfound.1 (by decide +kernel) hfree
    · rintro _ ⟨⟩
      exact ⟨Shape.isWord_of_all (by decide +kernel) (by decide +kernel), .inl rfl⟩
    · rw [hfound.1]
      refine ⟨by decide +kernel, ?_, by decide +kernel⟩
      intro text htext
      cases htext
    · rintro ⟨⟩
    · rw [← List.isEmpty_map, hfound.2]
      rfl
  obtain ⟨chosen, binding?, path, hchosen, hwrites, -, hseen⟩ :=
    addition_seen (by decide +kernel) hparses (by simp) hplays
  obtain ⟨rfl, rfl⟩ := naming_writes hchosen hwrites
  obtain ⟨d', happly, hparses', himports, again, duplicate, focus, hagain, hplays'⟩ := hseen hadmits
  obtain rfl := List.prefix_nil.mp (hagain.trans hchosen)
  rw [hfound.2] at himports
  exact ⟨hadmits, hparses, hplays, d', happly, hparses', himports, duplicate, focus, hplays'⟩

/-! ## In front of an interpreter line -/

/-- A script that imports nothing. -/
def runningScript : Document := ⟨"/ws/a.js", "#!/usr/bin/env node\nrun();\n", "javascript", 0⟩

def defaultSynthesizer : Synthesizer :=
  ⟨{ cwd := "/ws", entries := [(["ws"], .directory), (["ws", "x.js"], .file (Utf8.encode "export default 1;"))] },
    {}, false⟩

/-- A new statement goes in front of the interpreter line, and nothing parses any more. -/
theorem interpreter_line_lost :
    (parse runningScript.source runningScript.language).isSome = true ∧
      (defaultSynthesizer.add runningScript (.file namingCandidate)).Plays []
        (.ok (.inserted [.insert 0 "import x from './x'\n"])) ∧
      (parse (Utf8.encode "import x from './x'\n") "javascript").isSome = true ∧
      ∃ d', runningScript.apply [.insert 0 "import x from './x'\n"] = .ok d' ∧
        parse d'.source d'.language = none ∧ d'.imports = [] := by
  obtain ⟨hparses, hplays, hparses', hnone⟩ :
      (parse runningScript.source runningScript.language).isSome = true ∧
        (defaultSynthesizer.add runningScript (.file namingCandidate)).replay [] =
          some (.inserted [.insert 0 "import x from './x'\n"]) ∧
        (parse (Utf8.encode "import x from './x'\n") "javascript").isSome = true ∧
        (parse (Utf8.encode "import x from './x'\n#!/usr/bin/env node\nrun();\n") "javascript").isNone = true := by
    decide +kernel
  refine ⟨hparses, Dialogue.plays_of_replay hplays, hparses', ?_⟩
  rw [Option.isNone_iff_eq_none] at hnone
  refine ⟨⟨"/ws/a.js", "import x from './x'\n#!/usr/bin/env node\nrun();\n", "javascript", 0⟩,
    by decide +kernel, hnone, ?_⟩
  rw [Document.imports, Document.source, hnone]
  rfl

end ImportAssist
