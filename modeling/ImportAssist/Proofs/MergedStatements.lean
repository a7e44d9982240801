import ImportAssist.Proofs.MergeEdits
import ImportAssist.Proofs.Rebinding

/-!
# The statement that a binding joins

Of several imports of one path the first one is joined, whatever stands behind it
(`merged_into_first_import`). Nobody asks whether that is an import of types: if it is, the binding is
put behind the word `type`, which stays where it was, and so the name cannot be used as a value. That
there is an import of values further on does not help (`joined_type_import`).
-/

namespace ImportAssist

open Syntax

variable {d : Dialect} {source : Bytes} {n : Node}

/-! ## Imports of types -/

def isTypeWord (label : Label) : Bool := label == .token "type" || label == .token "typeof"

/-- The word that makes an import one of types. -/
def Node.typeWords (statement : Node) : List Node := statement.children.filter fun c => isTypeWord c.label

/-- What a binding is put into, or in front of. -/
def Node.IsClauseOrPath (c : Node) : Prop := c.hasKind .importClause = true ∨ c.role = some .source

theorem isTypeWord_unnamed : Unnamed d isTypeWord := by
  intro symbol
  cases d <;> cases symbol <;> rfl

theorem importClause_unnamed : Unnamed d (isKind .importClause) := by
  intro symbol
  cases d <;> cases symbol <;> rfl

theorem source_givers (symbol : Symbol) : (grammar d symbol).givers .source = [] := by
  cases d <;> cases symbol <;> rfl

section

variable {rule : Grammar.Production} {ns : List Node}

/-- A rule that has neither a clause nor a path gives none. -/
theorem Gives.no_clauseOrPath (h : Gives (grammar d) d.endsLine (Reached source) rule ns)
    (hclause : rule.makers (isKind .importClause) (fun _ => true) = []) (hpath : rule.givers .source = []) :
    ∀ c ∈ ns, ¬c.IsClauseOrPath := by
  rintro c hc (hkind | hrole)
  · rw [hasKind_iff, h.no_label importClause_unnamed rfl hclause c hc] at hkind
    cases hkind
  · exact h.no_role source_givers hpath c hc hrole

end

/-- What is read stands between the two cursors. -/
theorem run_bounds {fuel : Nat} {place : Place} {rule : Grammar.Production} {c : Cursor} {r : Reading}
    (h : rule.run (grammar d) d.endsLine fuel place c = some r) :
    ∀ n ∈ r.1, c.offset ≤ n.start ∧ n.stop ≤ r.2.offset := by
  have hreads : Syntax.Reads (fun _ => True) c r :=
    Rule.run_reads (grammar d) d.endsLine fuel place rule c r (fun _ => trivial) h
  exact fun n hn => ⟨(hreads.2.mem n hn).1, (hreads.2.mem n hn).2.1⟩

/-- The word for types comes before clause and path. -/
theorem importStatement_typeWord_first (h : MadeIn d source (Grammar.importStatement d) n)
    {word part : Node} (hword : word ∈ n.typeWords) (hpart : part ∈ n.children)
    (hkind : part.IsClauseOrPath) : word.stop ≤ part.start := by
  obtain ⟨hword, hlabel⟩ := List.mem_filter.mp hword
  cases h with
  | @node kind body fuel place c r hc hrun =>
  rw [Node.children] at hword hpart
  cases fuel with
  | zero => cases hrun
  | succ fuel =>
  -- the word `import`, then what is imported, then the end of the statement
  obtain ⟨x, rest, hx, hrest, rfl⟩ := runSeq_cons hrun
  obtain ⟨y, z, hy, hz, rfl⟩ := runSeq_cons hrest
  obtain ⟨hcx, -⟩ := reached_run hc hx
  obtain ⟨hcy, -⟩ := reached_run hcx hy
  have hz : (Rule.seq [.opt Grammar.importAttribute, Grammar.terminator]).run (grammar d) d.endsLine
      (fuel + 1) place y.2 = some z := hz
  have hxword := (run_makes hc hx).no_label isTypeWord_unnamed rfl rfl
  have hxpart := (run_makes hc hx).no_clauseOrPath rfl rfl
  have hzword := (run_makes hcy hz).no_label isTypeWord_unnamed rfl rfl
  have hypart : part ∈ y.1 ++ z.1 :=
    (List.mem_append.mp hpart).resolve_left fun hin => hxpart part hin hkind
  have hyword : word ∈ y.1 := by
    rcases List.mem_append.mp hword with hin | hin
    · rw [hxword word hin] at hlabel
      cases hlabel
    · refine (List.mem_append.mp hin).resolve_right fun hin => ?_
      rw [hzword word hin] at hlabel
      cases hlabel
  cases fuel with
  | zero => cases hy
  | succ fuel =>
  obtain ⟨choice, hchoice, hy⟩ := runAlt_mem hy
  simp only [List.mem_cons, List.not_mem_nil, or_false] at hchoice
  rcases hchoice with rfl | rfl
  · cases fuel with
    | zero => cases hy
    | succ fuel =>
    obtain ⟨u, v, hu, hv, rfl⟩ := runSeq_cons hy
    obtain ⟨hcu, -⟩ := reached_run hcx hu
    obtain ⟨what, hwhat, hv⟩ : ∃ what : Grammar.Production,
        what.makers isTypeWord (fun _ => true) = [] ∧
          (Rule.seq [what]).run (grammar d) d.endsLine (fuel + 1) place u.2 = some v :=
      ⟨_, by cases d <;> rfl, hv⟩
    have hforward := (reached_run hcu hv).2
    have hwordin : word ∈ u.1 := by
      refine (List.mem_append.mp hyword).resolve_right fun hin => ?_
      have hnone := (run_makes hcu hv).no_label isTypeWord_unnamed rfl
        (by simp [Rule.makers, makersAmong, hwhat]) word hin
      rw [hnone] at hlabel
      cases hlabel
    have hstop := (run_bounds hu word hwordin).2
    have hupart := (run_makes hcx hu).no_clauseOrPath (by cases d <;> rfl) (by cases d <;> rfl)
    rcases List.mem_append.mp hypart with hin | hin
    · have hin := (List.mem_append.mp hin).resolve_left fun hin => hupart part hin hkind
      exact Nat.le_trans hstop (run_bounds hv part hin).1
    · exact Nat.le_trans hstop (Nat.le_trans hforward (run_bounds hz part hin).1)
  · have hnone := (run_makes hcx hy).no_label isTypeWord_unnamed rfl (by cases d <;> rfl)
    rw [hnone word hyword] at hlabel
    cases hlabel

/-! ## Where a binding is put -/

section

variable {statement : Node} {e : Edit}

open ImportClause

/-- An edit that comes no earlier than the clause or the path. -/
def Edit.Behind (e : Edit) (statement : Node) : Prop :=
  ∃ part ∈ statement.children, part.IsClauseOrPath ∧ (part.start : Int) ≤ e.start

namespace Node.IsImport

theorem behind_clause {clause : Node} (hc : (ofStatement statement).clause = some clause)
    (hstart : (clause.start : Int) ≤ e.start) : e.Behind statement := by
  obtain ⟨hmem, hkind⟩ := List.mem_filter.mp (mem_clause hc)
  exact ⟨clause, hmem, .inl hkind, hstart⟩

theorem behind_path (h : statement.IsImport source) (text : String) :
    (Edit.insert (pathStart statement) text).Behind statement := by
  obtain ⟨literal, hliteral⟩ := h.literal
  refine ⟨literal, List.mem_of_find?_eq_some hliteral, .inr ?_, ?_⟩
  · simpa using List.find?_some hliteral
  · simp [pathStart, hliteral, Edit.insert]

theorem behind_part (h : statement.IsImport source) (hn : n ∈ (ofStatement statement).parts)
    (text : String) : (Edit.insert n.stop text).Behind statement := by
  obtain ⟨clause, hc, hplaced, hinside⟩ := h.part_inside hn
  have hends := hplaced.ends.2.2
  refine behind_clause hc ?_
  simp only [Edit.insert]
  omega

theorem behind_list (h : statement.IsImport source) {list : Node}
    (hl : (ofStatement statement).list? = some list) (text : String) :
    Edit.Behind ⟨list.start, list.stop, text⟩ statement := by
  obtain ⟨-, clause, hc, hinside⟩ := h.list_inside hl
  exact behind_clause hc (Int.ofNat_le.mpr hinside.1)

/-- A binding that joins a statement goes into its clause, or in front of the clause or the path. -/
theorem merge_behind (h : statement.IsImport source) {binding : Binding} {path : String}
    (hmerge : merge source statement binding path = .merged e) : e.Behind statement := by
  have hbehind : (mergeWildcard (ofStatement statement) statement binding).Behind statement ∧
      (mergeNamed (ofStatement statement) statement binding).Behind statement ∧
      (mergeDefault (ofStatement statement) statement binding).Behind statement := by
    refine ⟨?_, ?_, ?_⟩
    · unfold mergeWildcard
      split
      · rename_i hl
        exact h.behind_list hl _
      · rename_i hname
        exact h.behind_part (mem_parts.mpr (.inl hname)) _
      · exact h.behind_path _
    · unfold mergeNamed
      split
      · rename_i hlast
        exact h.behind_part (mem_parts.mpr (.inr (.inr (List.mem_of_getLast? hlast)))) _
      · rename_i hl
        exact h.behind_list hl _
      · rename_i hname
        exact h.behind_part (mem_parts.mpr (.inl hname)) _
      · exact h.behind_path _
    · unfold mergeDefault
      split
      · rename_i hc
        exact behind_clause hc (Int.le_refl _)
      · exact h.behind_path _
  obtain ⟨hwildcard, hnamed, hdefault⟩ := hbehind
  simp only [merge] at hmerge
  repeat' split at hmerge
  all_goals first
    | cases hmerge; assumption
    | cases hmerge

end Node.IsImport

end

/-! ## The statement that is joined -/

/-- The word for types stays in front of a binding that joins the statement. -/
theorem typeWord_kept {language : String} {tree : Node} (htree : parse source language = some tree)
    {i : Import} (hi : i ∈ imports source tree) (hform : i.form = .declaration) {binding : Binding}
    {path : String} {e : Edit} (hmerge : merge source i.node binding path = .merged e) {word : Node}
    (hword : word ∈ i.node.typeWords) : (word.stop : Int) ≤ e.start := by
  obtain ⟨hstatement, -⟩ := Import.mem_declarations hi hform
  obtain ⟨d, m, hm, hmade⟩ := parse_importStatement htree hstatement
  obtain ⟨part, hpart, hkind, hstart⟩ := (imports_isImport htree hi hform).merge_behind hmerge
  rw [Node.typeWords, hm.2.2.2] at hword
  rw [hm.2.2.2] at hpart
  have hfirst := importStatement_typeWord_first hmade hword hpart hkind
  omega

/-- What stands in front of an edit stays. -/
theorem front_kept {e : Edit} (hwithin : 0 ≤ e.start ∧ e.start ≤ e.stop ∧ e.stop ≤ source.length)
    (hn : (n.stop : Int) ≤ e.start) :
    ((applyEdits source [e]).drop n.start).take (n.stop - n.start) = n.bytes source := by
  rcases Nat.lt_or_ge n.start n.stop with hlt | hge
  · have hbatch : Batch source [e] := ⟨by simpa using hwithin, List.pairwise_singleton _ _⟩
    have hkept := hbatch.kept (p := n.start) (q := n.stop) (by simpa using .inr hn)
    have hbehind : ¬e.stop ≤ n.start := by omega
    have hshift : shift [e] n.start = 0 := by simp [shift, hbehind]
    rwa [hshift, Int.add_zero, Int.toNat_natCast] at hkept
  · simp [Node.bytes, Nat.sub_eq_zero_of_le hge]

/-- A binding that is merged joins the first import of its path, whatever that is: an import of types
stays one, and has the binding behind its word for types. -/
theorem merged_into_first_import {s : Synthesizer} {d : Document} {c : FileCandidate}
    {log : List Exchange} {edit : Edit} (h : (s.add d (.file c)).Plays log (.ok (.merged edit))) :
    ∃ front binding path before i after, s.Settles d c front binding path ∧
      d.imports = before ++ i :: after ∧ (∀ other ∈ before, other.path ≠ path) ∧ i.path = path ∧
      i.isDeclaration = true ∧ merge d.source i.node binding path = .merged edit ∧
      ((i.node.start : Int) ≤ edit.start ∧ edit.stop ≤ i.node.stop) ∧
      ∀ word ∈ i.node.typeWords, (word.stop : Int) ≤ edit.start ∧
        ((applyEdits d.source [edit]).drop word.start).take (word.stop - word.start) =
          word.bytes d.source := by
  obtain ⟨front, binding, path, hsettles, i, hfound, hdeclaration, hmerge⟩ :
      ∃ front binding path, s.Settles d c front binding path ∧
        ∃ i, findDuplicate d.imports path = some i ∧ i.isDeclaration = true ∧
          merge d.source i.node binding path = .merged edit := by
    have hadds : (Outcome.merged edit).Adds := trivial
    simp only [Synthesizer.add, Synthesizer.addAmong] at h
    split at h
    · obtain ⟨front, binding, path, hsettles, -, hbound⟩ := Synthesizer.addModule_bound hadds h
      cases hbound with
      | merged hfound hdeclaration hmerge _ =>
          exact ⟨front, binding, path, hsettles, _, hfound, hdeclaration, hmerge⟩
    · obtain ⟨-, path, hinserted | hinserted⟩ := Synthesizer.addAsset_confirms hadds h
      · cases hinserted
      · cases hinserted
  obtain ⟨hpath, before, after, himports, hbefore⟩ := List.find?_eq_some_iff_append.mp hfound
  have hmem : i ∈ d.imports := List.mem_of_find?_eq_some hfound
  obtain ⟨tree, htree, hlisted⟩ := Document.read_of_import hmem
  rw [hlisted] at hmem
  have hform : i.form = .declaration := beq_iff_eq.mp hdeclaration
  have himport := imports_isImport htree hmem hform
  have hwithin : (i.node.start : Int) ≤ edit.start ∧ edit.start ≤ edit.stop ∧ edit.stop ≤ i.node.stop := by
    by_cases hhas : (ImportClause.ofStatement i.node).Has d.source binding
    · obtain ⟨duplicate, focus, halready⟩ := himport.merge_has binding path hhas
      cases hmerge.symm.trans halready
    · obtain ⟨e, hadds, hinto⟩ := himport.merge_adds_edit binding path hhas
      cases hmerge.symm.trans hadds
      exact hinto.within
  have hlength : i.node.stop ≤ d.source.length :=
    ((parse_placed htree).1.ofKind (Import.mem_declarations hmem hform).1).ends.2.1.le_length
  refine ⟨front, binding, path, before, i, after, hsettles, himports, fun other hother => ?_,
    beq_iff_eq.mp hpath, hdeclaration, hmerge, ⟨hwithin.1, hwithin.2.2⟩, fun word hword => ?_⟩
  · simpa using hbefore other hother
  · have hkept := typeWord_kept htree hmem hform hmerge hword
    exact ⟨hkept, front_kept (by omega) hkept⟩

/-! ## A binding among types -/

/-- An import of types, and one of values behind it. -/
def typesFirst : Document :=
  ⟨"/ws/app.ts", "import type \x7b A \x7d from './x';\nimport c from './x';\n", "typescript", 0⟩

def valueExporter : Synthesizer :=
  ⟨{ cwd := "/ws", entries := [(["ws"], .directory), (["ws", "x.ts"], .file (Utf8.encode "export const b = 1;\n"))] },
    {}, false⟩

def valueCandidate : FileCandidate := .create "/ws" "/ws" {} .both "/ws/x.ts"

theorem valueCandidate_merged :
    (valueExporter.add typesFirst (.file valueCandidate)).Plays [] (.ok (.merged (.insert 15 ", b"))) :=
  Dialogue.plays_of_replay (by decide +kernel)

/-- The first import is joined, behind the word `type`. -/
theorem first_of_two_joined :
    (valueExporter.add typesFirst (.file valueCandidate)).Plays [] (.ok (.merged (.insert 15 ", b"))) ∧
      ∃ front binding path before i after,
        valueExporter.Settles typesFirst valueCandidate front binding path ∧
        typesFirst.imports = before ++ i :: after ∧ (∀ other ∈ before, other.path ≠ path) ∧ i.path = path ∧
        merge typesFirst.source i.node binding path = .merged (.insert 15 ", b") ∧
        ∀ word ∈ i.node.typeWords, word.stop ≤ 15 := by
  obtain ⟨front, binding, path, before, i, after, hsettles, himports, hbefore, hpath, -, hmerge, -, hkept⟩ :=
    merged_into_first_import valueCandidate_merged
  exact ⟨valueCandidate_merged, front, binding, path, before, i, after, hsettles, himports, hbefore, hpath,
    hmerge, fun word hword => Int.ofNat_le.mp (hkept word hword).1⟩

/-- The value `b` ends up in the import of types, with an import of values behind it. -/
theorem joined_type_import :
    (valueExporter.add typesFirst (.file valueCandidate)).Plays [] (.ok (.merged (.insert 15 ", b"))) ∧
      let after := applyEdits typesFirst.source [.insert 15 ", b"]
      (importsIn after (parse after "typescript")).map (fun i => (i.node.typeWords.length, i.names after)) =
        [(1, ["A", "b"]), (0, ["c"])] :=
  ⟨valueCandidate_merged, by decide +kernel⟩

end ImportAssist
