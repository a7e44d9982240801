import ImportAssist.Proofs.NamedExports
import ImportAssist.Proofs.Preorder

/-!
# Default exports

A module that has a default export is imported by default, without a question, and no other module that
can be read is (`default_bound_iff`). What counts is what `hasDefaultExport` finds: `export default`,
`export =` and assignments to `module.exports`, at any depth.

It does not find a default export that is named in braces or behind a star
(`namesDefault_not_isDefault`). The list of exports leaves the name `default` out, so nothing at all is
known of such an export: the module is imported as a whole, or for another name (`renamed_default_missed`).
-/

namespace ImportAssist

open Syntax

variable {d : Dialect} {source : Bytes}

/-! ## What is found -/

theorem hasDefaultExport_iff {tree : Node} : hasDefaultExport source tree = true ↔
    ∃ n ∈ tree.preorder,
      ExportStatement.isDefault n = true ∨ (ExportAssignment.ofModule? source n).isSome = true := by
  simp only [hasDefaultExport, Node.walk_eq_preorder, List.any_eq_true, Bool.or_eq_true]

/-! ## What is not found -/

/-- The export statement gives the name `default` to something: `export * as default from '...'` or
`export { x as default }`, with or without a path. -/
def ExportStatement.NamesDefault (source : Bytes) (statement : Node) : Prop :=
  ExportStatement.wildcardName? source statement = .ok (some "default") ∨
    ∃ pairs inner, ExportStatement.specifiers source statement = .ok pairs ∧ ("default", inner) ∈ pairs

/-- The marks by which a default export is found. -/
def isDefaultMark (label : Label) : Bool := label == .token "default" || label == .token "="

def isNameList (label : Label) : Bool :=
  label == .kind .exportClause || label == .kind .namespaceExport

theorem isDefaultMark_unnamed : Unnamed d isDefaultMark := by
  intro symbol
  cases d <;> cases symbol <;> rfl

theorem isNameList_unnamed : Unnamed d isNameList := by
  intro symbol
  cases d <;> cases symbol <;> rfl

/-- Where names are listed there is no mark of a default export. -/
theorem exportStatement_listed_or_marked {n : Node} (h : MadeIn d source (Grammar.exportStatement d) n) :
    (∀ c ∈ n.children, isNameList c.label = false) ∨ ∀ c ∈ n.children, isDefaultMark c.label = false := by
  cases h with
  | @node kind body fuel place c r hc hrun =>
  cases fuel with
  | zero => cases hrun
  | succ fuel =>
  obtain ⟨rule, hrule, hrun⟩ := runAlt_mem hrun
  simp only [List.mem_cons, List.not_mem_nil, or_false] at hrule
  have hgives := run_makes hc hrun
  rcases hrule with rfl | rfl | rfl
  · exact .inl (hgives.no_label isNameList_unnamed rfl (by cases d <;> rfl))
  · exact .inr (hgives.no_label isDefaultMark_unnamed rfl (by cases d <;> rfl))
  · cases d with
    | javascript => exact .inl (hgives.no_label isNameList_unnamed rfl rfl)
    | typescript | tsx =>
        obtain ⟨choice, hchoice, hgives⟩ := seq_choice_gives [_] hc hrun
        simp only [List.mem_cons, List.not_mem_nil, or_false] at hchoice
        rcases hchoice with rfl | rfl | rfl | rfl
        · exact .inr (hgives.no_label isDefaultMark_unnamed rfl rfl)
        · exact .inl (hgives.no_label isNameList_unnamed rfl rfl)
        · exact .inl (hgives.no_label isNameList_unnamed rfl rfl)
        · exact .inl (hgives.no_label isNameList_unnamed rfl rfl)

/-- The name list of a statement that names a default export. -/
theorem ExportStatement.NamesDefault.listed {statement : Node} (h : NamesDefault source statement) :
    ∃ c ∈ statement.children, isNameList c.label = true := by
  rcases h with hwhole | ⟨pairs, inner, hpairs, hmem⟩
  · unfold wildcardName? at hwhole
    split at hwhole
    · cases hwhole
    · rename_i name hname
      obtain ⟨w, hw, -⟩ := List.exists_of_findSome?_eq_some hname
      obtain ⟨hmem, hkind⟩ := List.mem_filter.mp hw
      exact ⟨w, hmem, Bool.or_eq_true_iff.mpr (.inr hkind)⟩
  · obtain ⟨found, hfound, hpairs⟩ := bind_eq_ok hpairs
    cases hpairs
    obtain ⟨pair?, hpair?, -⟩ := List.mem_filterMap.mp hmem
    obtain ⟨specifier, hspecifier, -⟩ := mem_of_mapM hfound hpair?
    obtain ⟨clause, hclause, -⟩ := List.mem_flatMap.mp hspecifier
    obtain ⟨hmem, hkind⟩ := List.mem_filter.mp hclause
    exact ⟨clause, hmem, Bool.or_eq_true_iff.mpr (.inl hkind)⟩

/-- A statement that names a default export is not found. -/
theorem namesDefault_not_isDefault {language : String} {tree statement : Node}
    (htree : parse source language = some tree)
    (hstatement : statement ∈ tree.childrenOfKind .exportStatement)
    (h : ExportStatement.NamesDefault source statement) :
    ExportStatement.isDefault statement = false := by
  obtain ⟨d, m, hm, hmade⟩ := parse_exportStatement htree hstatement
  obtain ⟨c, hc, hlisted⟩ := h.listed
  rcases exportStatement_listed_or_marked hmade with hnone | hnone
  · rw [hnone c (hm.2.2.2 ▸ hc)] at hlisted
    cases hlisted
  · have hmark : ∀ text, isDefaultMark (.token text) = true → statement.hasToken text = false := by
      intro text htext
      rw [Node.hasToken, List.any_eq_false]
      intro c hc hlabel
      rw [← beq_iff_eq.mp hlabel, hnone c (hm.2.2.2 ▸ hc)] at htext
      cases htext
    simp [ExportStatement.isDefault, hmark "default" rfl, hmark "=" rfl]

/-! ## The binding -/

namespace Synthesizer

variable {s : Synthesizer} {d : Document} {found : List Import} {c : FileCandidate}
  {name own : String} {tree : Node}

/-- What a single export or a choice of several comes to is not a default binding. -/
theorem Chosen.ne_default {exported : List String} {path x p : String} {log : List Exchange} :
    ¬Chosen name path exported log (.bind (.default x) p) := nofun

/-- A default export is bound without a question. -/
theorem decideByFile_default (hread : readModule s.disk c.path = some (source, tree))
    (hdefault : hasDefaultExport source tree = true) :
    s.decideByFile c name own = .done (.bind (.default name) own) := by
  rw [decideByFile, hread]
  exact if_pos hdefault

theorem decideByFile_not_default (hread : readModule s.disk c.path = some (source, tree))
    (hdefault : hasDefaultExport source tree = false) {log : List Exchange} {x path : String} :
    ¬(s.decideByFile c name own).Plays log (.ok (.bind (.default x) path)) := by
  intro h
  simp only [decideByFile, hread, hdefault, Bool.false_eq_true, if_false] at h
  obtain ⟨exported, -, h⟩ := Dialogue.plays_ofExcept_bind h
  split at h
  · cases (Dialogue.plays_done h).2
  · exact (takeExport_chosen h).ne_default

/-- No index file next to the candidate passes names of it on. -/
def StandsAlone (s : Synthesizer) (c : FileCandidate) : Prop :=
  s.disk.isFile (indexPath c) = true → exportedThroughIndex s.disk c.path (indexPath c) = .ok []

theorem StandsAlone.decideForm_eq (h : s.StandsAlone c) (hform : s.options.form = .declaration) :
    s.decideForm d found c name own = s.decideByFile c name own := by
  rw [decideForm, if_pos hform]
  unfold decide
  dsimp only
  split
  · rename_i hindex
    rw [h hindex]
    rfl
  · rfl

end Synthesizer

/-- A module that can be read, and that no index file passes on, is imported by default if and only if
it has a default export in a form that is looked for; and then nothing is asked. An export that only
names `default` is of no such form. -/
theorem default_bound_iff {s : Synthesizer} {d : Document} {c : FileCandidate} {name own : String}
    {tree : Node} (hform : s.options.form = .declaration) (hfamily : c.inFamily = true)
    (hname : c.nameAndPath s.disk.cwd d.directory = .ok (name, own)) (halone : s.StandsAlone c)
    (hread : readModule s.disk c.path = some (source, tree)) :
    ((∃ log x path, s.Settles d c log (.default x) path) ↔
      ∃ n ∈ tree.preorder,
        ExportStatement.isDefault n = true ∨ (ExportAssignment.ofModule? source n).isSome = true) ∧
    (hasDefaultExport source tree = true →
      s.add d (.file c) = s.carryOut d d.imports (.bind (.default name) own)) ∧
    ∀ statement ∈ tree.childrenOfKind .exportStatement, ExportStatement.NamesDefault source statement →
      ExportStatement.isDefault statement = false := by
  have hdecide : s.decideForm d d.imports c name own = s.decideByFile c name own :=
    halone.decideForm_eq hform
  refine ⟨?_, fun hdefault => ?_, fun statement hstatement h => ?_⟩
  · rw [← hasDefaultExport_iff]
    constructor
    · rintro ⟨log, x, path, name', own', hname', hplays⟩
      obtain ⟨rfl, rfl⟩ := Prod.mk.inj (Except.ok.inj (hname.symm.trans hname'))
      rw [hdecide] at hplays
      by_contra hdefault
      exact Synthesizer.decideByFile_not_default hread (Bool.eq_false_iff.mpr hdefault) hplays
    · intro hdefault
      refine ⟨[], name, own, name, own, hname, ?_⟩
      rw [hdecide, Synthesizer.decideByFile_default hread hdefault]
      exact .done _
  · rw [Synthesizer.add, Synthesizer.addAmong, if_pos hfamily, Synthesizer.addModule, hname,
      Dialogue.ofExcept_ok_bind]
    dsimp only
    rw [hdecide, Synthesizer.decideByFile_default hread hdefault]
    rfl
  · obtain ⟨language, htree⟩ := parse_of_readModule hread
    exact namesDefault_not_isDefault htree hstatement h

/-- A workspace with one module. -/
def singleModule (text : String) : Synthesizer :=
  ⟨{ cwd := "/ws", entries := [(["ws"], .directory), (["ws", "x.js"], .file (Utf8.encode text))] }, {}, false⟩

/-- A default export at the top level. -/
theorem exported_default_bound :
    let s := singleModule "export default 1;\n"
    let c := s.candidateAt "/ws/x.js"
    c.inFamily = true ∧ s.StandsAlone c ∧
      ∃ source tree, readModule s.disk c.path = some (source, tree) ∧
        (∃ n ∈ tree.preorder, ExportStatement.isDefault n = true ∨
          (ExportAssignment.ofModule? source n).isSome = true) ∧
        (∃ log x path, s.Settles emptyDocument c log (.default x) path) ∧
        s.add emptyDocument (.file c) =
          s.carryOut emptyDocument emptyDocument.imports (.bind (.default "x") "./x") := by
  intro s c
  have hname : c.nameAndPath s.disk.cwd emptyDocument.directory = .ok ("x", "./x") := by decide +kernel
  have hfamily : c.inFamily = true := by decide +kernel
  have hindex : s.disk.isFile (Synthesizer.indexPath c) = false := by decide +kernel
  have halone : s.StandsAlone c := fun hfile => by rw [hindex] at hfile; cases hfile
  have hread : (readModule s.disk c.path).map (fun m => hasDefaultExport m.1 m.2) = some true := by
    decide +kernel
  obtain ⟨⟨source, tree⟩, hmodule, hdefault⟩ := Option.map_eq_some_iff.mp hread
  obtain ⟨hiff, hadd, -⟩ := default_bound_iff (d := emptyDocument) rfl hfamily hname halone hmodule
  have hfound := hasDefaultExport_iff.mp hdefault
  exact ⟨hfamily, halone, source, tree, hmodule, hfound, hiff.mpr hfound, hadd hdefault⟩

/-- A module whose default export is named in braces is imported as a whole. -/
theorem renamed_default_missed :
    let s := singleModule "const a = 1;\nexport \x7b a as default \x7d;\n"
    let c := s.candidateAt "/ws/x.js"
    s.options.form = .declaration ∧ c.inFamily = true ∧ s.StandsAlone c ∧
      (∃ source tree, readModule s.disk c.path = some (source, tree) ∧
        ∃ statement ∈ tree.childrenOfKind .exportStatement, ExportStatement.NamesDefault source statement) ∧
      (s.add emptyDocument (.file c)).Plays [] (.ok (.inserted [.insert 0 "import * as x from './x'\n"])) ∧
      ¬∃ log x path, s.Settles emptyDocument c log (.default x) path := by
  intro s c
  have hindex : s.disk.isFile (Synthesizer.indexPath c) = false := by decide +kernel
  have halone : s.StandsAlone c := fun hfile => by rw [hindex] at hfile; cases hfile
  have hread : (readModule s.disk c.path).map (fun m => (hasDefaultExport m.1 m.2,
      (m.2.childrenOfKind .exportStatement).map fun n =>
        (ExportStatement.specifiers m.1 n).toOption)) = some (false, [some [("default", "a")]]) := by
    decide +kernel
  obtain ⟨⟨source, tree⟩, hmodule, hfacts⟩ := Option.map_eq_some_iff.mp hread
  obtain ⟨hdefault, hstatements⟩ := Prod.mk.inj hfacts
  obtain ⟨statement, hstatement, hpairs⟩ := List.map_eq_singleton_iff.mp hstatements
  have hnames : ExportStatement.NamesDefault source statement := by
    cases hspecifiers : ExportStatement.specifiers source statement with
    | error e => rw [hspecifiers] at hpairs; cases hpairs
    | ok pairs =>
        rw [hspecifiers] at hpairs
        obtain rfl : pairs = [("default", "a")] := Option.some.inj hpairs
        exact .inr ⟨_, "a", hspecifiers, List.mem_singleton_self _⟩
  refine ⟨rfl, by decide +kernel, halone, ⟨source, tree, hmodule, statement, ?_, hnames⟩,
    Dialogue.plays_of_replay (by decide +kernel), ?_⟩
  · rw [hstatement]
    exact List.mem_singleton_self _
  · rintro ⟨log, x, path, name, own, -, hplays⟩
    rw [halone.decideForm_eq rfl] at hplays
    exact Synthesizer.decideByFile_not_default hmodule hdefault hplays

end ImportAssist
