import ImportAssist.Proofs.Listing
import ImportAssist.Proofs.Origins
import ImportAssist.Proofs.Sequence

/-!
# The export statements of a source

What the grammar says about an export statement that takes names from elsewhere, in braces or with a
star: nothing is declared in it, and it has no name for a whole module. So names in braces are what it
contributes, and none of them is empty (`specifiers_contribute`); and a star contributes the file that
it leads to (`star_contributes`).
-/

namespace ImportAssist

open Syntax

/-! ## The statements of a source -/

/-- A cursor in a source. -/
def Reached (source : Bytes) (c : Cursor) : Prop := ∃ n, c = (Cursor.start source).advance n

/-- A part of the rule makes the node somewhere in the source. -/
abbrev MadeIn (d : Dialect) (source : Bytes) : Grammar.Production → Node → Prop :=
  Makes (grammar d) d.endsLine (Reached source)

variable {d : Dialect} {source : Bytes} {n : Node}

theorem Reached.advance {c : Cursor} (h : Reached source c) (n : Nat) : Reached source (c.advance n) := by
  obtain ⟨m, rfl⟩ := h
  exact ⟨m + n, Cursor.advance_advance ..⟩

theorem run_makes {fuel : Nat} {place : Place} {rule : Grammar.Production} {c : Cursor} {r : Reading}
    (hc : Reached source c) (h : rule.run (grammar d) d.endsLine fuel place c = some r) :
    Gives (grammar d) d.endsLine (Reached source) rule r.1 :=
  (Rule.run_makes (fun _ n hc => hc.advance n) fuel place rule c r hc h).2

/-- Reading a rule goes forward in the source. -/
theorem reached_run {fuel : Nat} {place : Place} {rule : Grammar.Production} {c : Cursor} {r : Reading}
    (hc : Reached source c) (h : rule.run (grammar d) d.endsLine fuel place c = some r) :
    Reached source r.2 ∧ c.offset ≤ r.2.offset := by
  obtain ⟨n, hn⟩ := (Rule.run_reads _ _ fuel place rule c r (fun _ => trivial) h :
    Syntax.Reads (fun _ => True) c r).1
  rw [hn]
  exact ⟨hc.advance n, Cursor.offset_le_advance n c⟩

theorem readStatement_makes {c : Cursor} {r : Reading} (hc : Reached source c)
    (h : readStatement d c = some r) :
    Gives (grammar d) d.endsLine (Reached source) Grammar.item r.1 := by
  have hskip : Reached source (trivia c.rest.length c).2 := by
    obtain ⟨n, hn⟩ := trivia_forward c.rest.length c
    exact hn ▸ hc.advance n
  simp only [readStatement] at h
  split at h
  · rename_i ns after hitem
    split at h
    · cases h
    · cases h
      exact (gives_trivia _ c).append (run_makes hskip hitem)
  · cases h

theorem readStatements_makes : ∀ (limit : Nat) {c : Cursor}, Reached source c →
    Gives (grammar d) d.endsLine (Reached source) Grammar.item (readStatements d limit c).1
  | 0, _, _ => .nil
  | limit + 1, c, hc => by
      rw [readStatements]
      split
      · exact .nil
      · rename_i ns after hread
        obtain ⟨n, rfl⟩ := readStatement_forward hread
        exact (readStatement_makes hc hread).append (readStatements_makes limit (hc.advance n))

/-- Each node at the top level of a tree is a statement, a comment or the interpreter line. -/
theorem parse_makes {language : String} {tree : Node} (h : parse source language = some tree)
    (hn : n ∈ tree.children) :
    ∃ d, n.IsComment ∨ n.hasKind .hashBang = true ∨ MadeIn d source Grammar.item n := by
  obtain ⟨d, -, hd⟩ := List.exists_of_findSome?_eq_some h
  refine ⟨d, ?_⟩
  unfold parseAs readBody at hd
  dsimp only at hd
  split at hd
  · cases hd
    rw [Node.children, List.mem_append, List.mem_append] at hn
    rcases hn with hn | hn | hn
    · unfold readHashBang at hn
      split at hn
      · obtain rfl := List.mem_singleton.mp hn
        exact .inr (.inl rfl)
      · cases hn
    · obtain ⟨m, hm⟩ := readHashBang_forward (Cursor.start source)
      exact (readStatements_makes _ ⟨m, hm⟩ n hn).imp_right .inr
    · exact .inl (trivia_comments _ _ n hn)
  · cases hd

/-! ## Export statements -/

def isKind (kind : Kind) (label : Label) : Bool := label == .kind kind

theorem hasKind_iff {kind : Kind} : n.hasKind kind = true ↔ isKind kind n.label = true := Iff.rfl

theorem exportStatement_makers (symbol : Symbol) (h : (symbol != .statement) = true) :
    (grammar d symbol).makers (isKind .exportStatement) (· != .statement) = [] := by
  cases symbol with
  | statement => cases h
  | _ => cases d <;> rfl

theorem exportStatement_made (h : MadeIn d source Grammar.item n)
    (hkind : n.hasKind .exportStatement = true) :
    ∃ m, n.Alike m ∧ MadeIn d source (Grammar.exportStatement d) m := by
  obtain ⟨part, hpart, m, hm, hmade⟩ := h.maker exportStatement_makers hkind
  obtain rfl : part = .call .statement := List.mem_singleton.mp hpart
  cases hmade with
  | call hmade =>
      obtain ⟨part, hpart, m', hm', hmade⟩ := hmade.maker exportStatement_makers (hm.1 ▸ hkind)
      obtain rfl : part = Grammar.exportStatement d := by
        cases d <;> exact List.mem_singleton.mp hpart
      exact ⟨m', hm.trans hm', hmade⟩

/-- No symbol stands for a node with a label of which `test` holds. -/
def Unnamed (d : Dialect) (test : Label → Bool) : Prop :=
  ∀ symbol, (grammar d symbol).makers test (fun _ => true) = []

/-- The label of names in braces, or of a star. -/
def isListing (label : Label) : Bool := label == .kind .exportClause || label == .token "*"

theorem isListing_unnamed : Unnamed d isListing := by
  intro symbol
  cases d <;> cases symbol <;> rfl

theorem namespaceExport_unnamed : Unnamed d (isKind .namespaceExport) := by
  intro symbol
  cases d <;> cases symbol <;> rfl

theorem declaration_givers (symbol : Symbol) : (grammar d symbol).givers .declaration = [] := by
  cases d <;> cases symbol <;> rfl

section

variable {rule : Grammar.Production} {ns : List Node}

/-- A rule without parts that make a label gives no node with that label. -/
theorem Gives.no_label {test : Label → Bool} (htest : Unnamed d test)
    (hcomment : test (.kind .comment) = false)
    (h : Gives (grammar d) d.endsLine (Reached source) rule ns)
    (hrule : rule.makers test (fun _ => true) = []) : ∀ n ∈ ns, test n.label = false := by
  intro n hn
  rcases h n hn with ⟨start, stop, rfl⟩ | hmade
  · exact hcomment
  · exact hmade.label_avoided (fun symbol _ => htest symbol) hrule

theorem Gives.no_role {role : Role} (hrole : ∀ symbol, (grammar d symbol).givers role = [])
    (h : Gives (grammar d) d.endsLine (Reached source) rule ns) (hrule : rule.givers role = []) :
    ∀ n ∈ ns, n.role ≠ some role := by
  intro n hn hn'
  rcases h n hn with ⟨start, stop, rfl⟩ | hmade
  · cases hn'
  · obtain ⟨part, hpart, -⟩ := hmade.giver hrole hn'
    rw [hrule] at hpart
    cases hpart

end

/-- A choice in a sequence is made once for all that is given. -/
theorem runSeq_choice {choices after : List Grammar.Production} {fuel : Nat} {place : Place} :
    ∀ {before : List Grammar.Production} {c : Cursor} {r : Reading}, Reached source c →
      runSeq (Rule.run (grammar d) d.endsLine fuel place) (before ++ .alt choices :: after) c = some r →
      ∃ choice ∈ choices,
        Gives (grammar d) d.endsLine (Reached source) (.seq (before ++ choice :: after)) r.1
  | [], c, r, hc, h => by
      have htraces : ∀ fuel, Traces (grammar d) d.endsLine (Reached source)
          (Rule.run (grammar d) d.endsLine fuel place) :=
        fun fuel => Rule.run_makes (fun _ n hc => hc.advance n) fuel place
      obtain ⟨x, rest, hx, hrest, rfl⟩ := runSeq_cons h
      cases fuel with
      | zero => cases hx
      | succ fuel =>
          obtain ⟨choice, hchoice, hx⟩ := runAlt_mem hx
          obtain ⟨hc', hx⟩ := htraces _ _ _ _ hc hx
          have hrest := (runSeq_gives (htraces _) (choice :: after)
            (fun _ => List.mem_cons_of_mem _) hc' hrest).2
          exact ⟨choice, hchoice, (hx.imp fun _ => .seq List.mem_cons_self).append hrest⟩
  | rule :: before, c, r, hc, h => by
      obtain ⟨x, rest, hx, hrest, rfl⟩ := runSeq_cons h
      obtain ⟨hc', hx⟩ := Rule.run_makes (fun _ n hc => hc.advance n) fuel place _ _ _ hc hx
      obtain ⟨choice, hchoice, hrest⟩ := runSeq_choice hc' hrest
      refine ⟨choice, hchoice, (hx.imp fun _ => .seq List.mem_cons_self).append ?_⟩
      refine hrest.imp fun _ hmade => ?_
      cases hmade with
      | seq hmem hmade => exact .seq (List.mem_cons_of_mem _ hmem) hmade

theorem seq_choice_gives (before : List Grammar.Production) {choices after : List Grammar.Production}
    {fuel : Nat} {place : Place} {c : Cursor} {r : Reading} (hc : Reached source c)
    (h : (Rule.seq (before ++ .alt choices :: after)).run (grammar d) d.endsLine fuel place c = some r) :
    ∃ choice ∈ choices,
      Gives (grammar d) d.endsLine (Reached source) (.seq (before ++ choice :: after)) r.1 := by
  cases fuel with
  | zero => cases h
  | succ fuel => exact runSeq_choice hc h

/-- What takes names from elsewhere excludes a name for a whole module and a declaration. -/
theorem exportStatement_exclusive (h : MadeIn d source (Grammar.exportStatement d) n) :
    (∀ c ∈ n.children, isListing c.label = false) ∨
      (∀ c ∈ n.children, c.hasKind .namespaceExport = false) ∧
        ∀ c ∈ n.children, c.role ≠ some .declaration := by
  cases h with
  | @node kind body fuel place c r hc hrun =>
  cases fuel with
  | zero => cases hrun
  | succ fuel =>
  obtain ⟨rule, hrule, hrun⟩ := runAlt_mem hrun
  simp only [List.mem_cons, List.not_mem_nil, or_false] at hrule
  have hgives := run_makes hc hrun
  rcases hrule with rfl | rfl | rfl
  · exact .inl (hgives.no_label isListing_unnamed rfl (by cases d <;> rfl))
  · have hplain := hgives.no_role declaration_givers (by cases d <;> rfl)
    obtain ⟨choice, hchoice, hgives⟩ := seq_choice_gives [_] hc hrun
    simp only [List.mem_cons, List.not_mem_nil, or_false] at hchoice
    rcases hchoice with rfl | rfl | rfl | rfl
    · exact .inl (hgives.no_label isListing_unnamed rfl rfl)
    · exact .inr ⟨hgives.no_label namespaceExport_unnamed rfl rfl, hplain⟩
    · exact .inr ⟨hgives.no_label namespaceExport_unnamed rfl rfl, hplain⟩
    · exact .inr ⟨hgives.no_label namespaceExport_unnamed rfl rfl, hplain⟩
  · exact .inr ⟨hgives.no_label namespaceExport_unnamed rfl (by cases d <;> rfl),
      hgives.no_role declaration_givers (by cases d <;> rfl)⟩

/-! ## Names in braces -/

theorem Gives.maker {rule : Grammar.Production} {ns : List Node} {test : Label → Bool}
    (htest : Unnamed d test) (hcomment : test (.kind .comment) = false)
    (h : Gives (grammar d) d.endsLine (Reached source) rule ns) (hn : n ∈ ns)
    (hn' : test n.label = true) :
    ∃ part ∈ rule.makers test (fun _ => true), ∃ m, n.Alike m ∧ MadeIn d source part m := by
  rcases h n hn with ⟨start, stop, rfl⟩ | hmade
  · rw [show test (Node.leaf .comment start stop).label = false from hcomment] at hn'
    cases hn'
  · exact hmade.maker (fun symbol _ => htest symbol) hn'

/-- The children of a node that is made by a rule for its kind. -/
theorem node_children {kind : Kind} {rule : Grammar.Production}
    (h : MadeIn d source (.node kind rule) n) :
    Gives (grammar d) d.endsLine (Reached source) rule n.children := by
  cases h with
  | node hc hrun => exact run_makes hc hrun

theorem exportClause_unnamed : Unnamed d (isKind .exportClause) := by
  intro symbol
  cases d <;> cases symbol <;> rfl

theorem exportClause_made (h : MadeIn d source (Grammar.exportStatement d) n) {clause : Node}
    (hclause : clause ∈ n.childrenOfKind .exportClause) :
    ∃ m, clause.Alike m ∧ MadeIn d source (Grammar.exportClause d) m := by
  obtain ⟨hmem, hkind⟩ := List.mem_filter.mp hclause
  obtain ⟨part, hpart, m, hm, hmade⟩ :=
    (node_children h).maker exportClause_unnamed rfl hmem hkind
  have hparts : part ∈ List.replicate (if d.typed then 3 else 2) (Grammar.exportClause d) := by
    cases d <;> exact hpart
  exact ⟨m, hm, List.eq_of_mem_replicate hparts ▸ hmade⟩

theorem exportSpecifier_unnamed : Unnamed d (isKind .exportSpecifier) := by
  intro symbol
  cases d <;> cases symbol <;> rfl

theorem exportSpecifier_made {clause specifier : Node}
    (h : MadeIn d source (Grammar.exportClause d) clause)
    (hspecifier : specifier ∈ clause.childrenOfKind .exportSpecifier) :
    ∃ m, specifier.Alike m ∧ MadeIn d source (Grammar.exportSpecifier d) m := by
  obtain ⟨hmem, hkind⟩ := List.mem_filter.mp hspecifier
  obtain ⟨part, hpart, m, hm, hmade⟩ :=
    (node_children h).maker exportSpecifier_unnamed rfl hmem hkind
  have hparts : part ∈ List.replicate 2 (Grammar.exportSpecifier d) := by cases d <;> exact hpart
  exact ⟨m, hm, List.eq_of_mem_replicate hparts ▸ hmade⟩

theorem offset_lt_advance {c : Cursor} (hc : Reached source c) (hrest : c.rest ≠ []) {n : Nat}
    (hn : 0 < n) : c.offset < (c.advance n).offset := by
  obtain ⟨k, rfl⟩ := hc
  obtain ⟨g, gs, hgs⟩ := List.exists_cons_of_ne_nil hrest
  obtain ⟨n, rfl⟩ : ∃ m, n = m + 1 := ⟨n - 1, by omega⟩
  have hmem : g ∈ Utf8.glyphs source := by
    have hdrop : (Utf8.glyphs source).drop k = g :: gs := by
      rw [Cursor.advance_eq] at hgs
      exact hgs
    exact (List.drop_sublist k _).mem (hdrop ▸ List.mem_cons_self ..)
  have hpos := Utf8.width_pos_of_mem source g hmem
  rw [Cursor.advance_eq n.succ, hgs, List.take_succ_cons, Utf8.width_cons]
  dsimp only
  omega

theorem moduleExportName_solid (h : MadeIn d source Grammar.moduleExportName n) :
    n.start < n.stop := by
  cases h with
  | alt hmem h =>
      simp only [List.mem_cons, List.not_mem_nil, or_false] at hmem
      rcases hmem with rfl | rfl
      · cases h with
        | name hc hrest hpos => exact offset_lt_advance hc hrest hpos
      · cases h with
        | @lexeme _ _ _ c k hc hscan =>
            cases hrest : c.rest with
            | nil => rw [hrest] at hscan; cases hscan
            | cons g gs =>
                rw [hrest, Lexeme.Class.scan, Lexeme.string, Option.ite_none_right_eq_some] at hscan
                obtain ⟨m, -, rfl⟩ := Option.map_eq_some_iff.mp hscan.2
                exact offset_lt_advance hc (by simp [hrest]) (Nat.succ_pos m)

/-- The names of a specifier are not empty. -/
theorem exportSpecifier_solid (h : MadeIn d source (Grammar.exportSpecifier d) n) {role : Role}
    (hrole : role = .name ∨ role = .newName) {part : Node} (hpart : n.child? role = some part) :
    part.start < part.stop := by
  have hmem := List.mem_of_find?_eq_some hpart
  have hpart : part.role = some role := by simpa using List.find?_some hpart
  rcases node_children h part hmem with ⟨start, stop, rfl⟩ | hmade
  · cases hpart
  · have hsymbols : ∀ symbol, (grammar d symbol).givers role = [] := by
      intro symbol
      rcases hrole with rfl | rfl <;> cases d <;> cases symbol <;> rfl
    obtain ⟨rule, hrule, m, hm, hmade⟩ := hmade.giver hsymbols hpart
    have hrules : ∃ k, rule ∈ List.replicate k Grammar.moduleExportName := by
      rcases hrole with rfl | rfl
      · exact ⟨4, by cases d <;> exact hrule⟩
      · exact ⟨2, by cases d <;> exact hrule⟩
    obtain ⟨k, hrules⟩ := hrules
    rw [List.eq_of_mem_replicate hrules] at hmade
    rw [hm.2.1, hm.2.2.1]
    exact moduleExportName_solid hmade

/-! ## What the names contribute -/

theorem checkedText_ne_empty {text : String} (hn : n.Placed (Utf8.IsCut source))
    (hsolid : n.start < n.stop) (h : n.checkedText source = .ok text) : text ≠ "" := by
  have hlength : (n.bytes source).length ≠ 0 := by
    have := hn.ends.2.1.le_length
    simp only [Node.bytes, List.length_take, List.length_drop]
    omega
  unfold Node.checkedText at h
  split at h
  · rename_i decoded hdecoded
    cases h
    unfold Utf8.decode? at hdecoded
    rw [Option.ite_none_right_eq_some] at hdecoded
    obtain ⟨-, hdecoded⟩ := hdecoded
    rintro rfl
    have hempty : Utf8.decodeLossy (n.bytes source) = "" := Option.some.inj hdecoded
    rw [Utf8.decodeLossy, String.ofList_eq_empty_iff, List.map_eq_nil_iff] at hempty
    rw [← Utf8.width_glyphs, hempty] at hlength
    exact hlength rfl
  · cases h

theorem specifier?_ne_empty (hn : n.Placed (Utf8.IsCut source))
    (hsolid : ∀ role part, role = .name ∨ role = .newName → n.child? role = some part →
      part.start < part.stop) {pair : String × String}
    (h : ExportStatement.specifier? source n = .ok (some pair)) : pair.1 ≠ "" := by
  unfold ExportStatement.specifier? at h
  split at h
  · cases h
  · rename_i inner hinner
    obtain ⟨innerText, hinnerText, h⟩ := bind_eq_ok h
    split at h
    · cases h
      exact checkedText_ne_empty (hn.child? hinner) (hsolid _ _ (.inl rfl) hinner) hinnerText
    · rename_i outer houter
      obtain ⟨outerText, houterText, h⟩ := bind_eq_ok h
      cases h
      exact checkedText_ne_empty (hn.child? houter) (hsolid _ _ (.inr rfl) houter) houterText

/-- The export statements of a tree are made by the rule for them. -/
theorem parse_exportStatement {language : String} {tree statement : Node}
    (htree : parse source language = some tree)
    (hstatement : statement ∈ tree.childrenOfKind .exportStatement) :
    ∃ d m, statement.Alike m ∧ MadeIn d source (Grammar.exportStatement d) m := by
  obtain ⟨hmem, hkind⟩ := List.mem_filter.mp hstatement
  obtain ⟨d, ⟨start, stop, rfl⟩ | hbang | hmade⟩ := parse_makes htree hmem
  · cases hkind
  · rw [Node.hasKind, beq_iff_eq] at hbang hkind
    rw [hbang] at hkind
    cases hkind
  · exact ⟨d, exportStatement_made hmade hkind⟩

/-- What a statement with names in braces or a star contributes. -/
theorem listing_contribution {disk : Disk} {file language : String} {tree statement c : Node}
    (htree : parse source language = some tree)
    (hstatement : statement ∈ tree.childrenOfKind .exportStatement) (hc : c ∈ statement.children)
    (hlisting : isListing c.label = true) :
    contribution disk file source statement = (do
      let path? ← checkedString source (statement.child? .source)
      if ExportStatement.isStar statement then
        match relativeModule? disk file path? with
        | some target => return .star target
        | none => return .names []
      else return .names ((← ExportStatement.specifiers source statement).map (·.1))) := by
  obtain ⟨d, m, hm, hmade⟩ := parse_exportStatement htree hstatement
  rcases exportStatement_exclusive hmade with hnone | ⟨hwhole, hdeclaration⟩
  · rw [hnone c (hm.2.2.2 ▸ hc)] at hlisting
    cases hlisting
  · have hplain : statement.child? .declaration = none := by
      rw [hm.child?, Node.child?, List.find?_eq_none]
      exact fun c hc => by simpa using hdeclaration c hc
    have hname : ExportStatement.wildcardName? source statement = .ok none := by
      have hnil : statement.childrenOfKind .namespaceExport = [] := by
        rw [hm.childrenOfKind, Node.childrenOfKind, List.filter_eq_nil_iff]
        exact fun c hc => by simp [hwhole c hc]
      simp [ExportStatement.wildcardName?, hnil]
    have hkind : statement.hasKind .exportStatement = true := (List.mem_filter.mp hstatement).2
    rw [contribution, if_pos hkind, exportContribution, hplain, hname]
    rfl

/-- A statement with names in braces contributes these and nothing else, and none of them is empty. -/
theorem specifiers_contribute {disk : Disk} {file language : String} {tree statement : Node}
    (htree : parse source language = some tree)
    (hstatement : statement ∈ tree.childrenOfKind .exportStatement)
    (hstar : ExportStatement.isStar statement = false) {pairs : List (String × String)}
    (hpairs : ExportStatement.specifiers source statement = .ok pairs) {name : String}
    (hname : name ∈ pairs.map (·.1)) :
    name ≠ "" ∧ ∀ part, contribution disk file source statement = .ok part →
      part = .names (pairs.map (·.1)) := by
  obtain ⟨d, m, hm, hmade⟩ := parse_exportStatement htree hstatement
  obtain ⟨⟨exported, inner⟩, hpair, rfl⟩ := List.mem_map.mp hname
  obtain ⟨found, hfound, hpairs'⟩ := bind_eq_ok hpairs
  cases hpairs'
  obtain ⟨pair?, hpair?, hsome⟩ := List.mem_filterMap.mp hpair
  obtain rfl : pair? = some (exported, inner) := hsome
  obtain ⟨specifier, hspecifier, hread⟩ := mem_of_mapM hfound hpair?
  obtain ⟨clause, hclause, hspecifier⟩ := List.mem_flatMap.mp hspecifier
  refine ⟨?_, fun part hpart => ?_⟩
  · have hplaced : specifier.Placed (Utf8.IsCut source) :=
      (((parse_placed htree).1.ofKind hstatement).ofKind hclause).ofKind hspecifier
    obtain ⟨m', hm', hmade'⟩ := exportClause_made hmade (hm.childrenOfKind _ ▸ hclause)
    obtain ⟨m'', hm'', hmade''⟩ := exportSpecifier_made hmade' (hm'.childrenOfKind _ ▸ hspecifier)
    refine specifier?_ne_empty hplaced (fun role part hrole hpart => ?_) hread
    exact exportSpecifier_solid hmade'' hrole (hm''.child? role ▸ hpart)
  · obtain ⟨hmem, hkind⟩ := List.mem_filter.mp hclause
    have hlisting : isListing clause.label = true := Bool.or_eq_true_iff.mpr (.inl hkind)
    rw [listing_contribution htree hstatement hmem hlisting] at hpart
    obtain ⟨path?, -, hpart⟩ := bind_eq_ok hpart
    rw [if_neg (by simp [hstar])] at hpart
    obtain ⟨pairs', hpairs', hpart⟩ := bind_eq_ok hpart
    rw [hpairs] at hpairs'
    cases hpairs'
    exact (Except.ok.inj hpart).symm

/-- A star that leads to a file contributes that file. -/
theorem star_contributes {disk : Disk} {file language target : String} {tree statement : Node}
    {part : Contribution} (htree : parse source language = some tree)
    (hstatement : statement ∈ tree.childrenOfKind .exportStatement)
    (hstar : ExportStatement.isStar statement = true)
    (htarget : relativeModule? disk file
      (checkedString source (statement.child? .source)).toOption.join = some target)
    (hpart : contribution disk file source statement = .ok part) : part = .star target := by
  have htoken : statement.hasToken "*" = true := (Bool.and_eq_true_iff.mp hstar).2
  obtain ⟨c, hc, hlabel⟩ := List.any_eq_true.mp htoken
  have hlisting : isListing c.label = true := Bool.or_eq_true_iff.mpr (.inr hlabel)
  rw [listing_contribution htree hstatement hc hlisting] at hpart
  obtain ⟨path?, hpath, hpart⟩ := bind_eq_ok hpart
  have hjoin : (checkedString source (statement.child? .source)).toOption.join = path? := by
    rw [hpath]
    rfl
  rw [hjoin] at htarget
  rw [if_pos hstar, htarget] at hpart
  exact (Except.ok.inj hpart).symm

end ImportAssist
