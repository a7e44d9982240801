import ImportAssist.Proofs.DeclaredNames
import ImportAssist.Proofs.Insertion

/-!
# Reading a declaration as a statement

At the top level a text is read by the rule for an item. A node for an import comes from the rule for import
statements and from no other one (`readText_item_import`), and a text with the word `import` in front is read
by that rule if it can be read by it (`readText_item_declaration`). So what has been found out about declarations
carries over to the statements of a source.
-/

namespace ImportAssist

namespace Syntax

open Grammar (Production)
open Utf8 (glyphOf)

variable {d : Dialect} {p : Place} {rule : Production} {a : Part} {text rest : List Char} {offset : Nat}

/-! ## Readings of parts -/

/-- With enough fuel, a rule reads its part wherever the text stands. -/
theorem run_readText (hbounded : IsBounded rule) {fuel : Nat} (hfuel : enoughFuel rule text ≤ fuel) (offset : Nat) :
    rule.run (grammar d) d.endsLine fuel p ⟨offset, text.map glyphOf⟩ =
      (readText d p rule text).map fun r => (r.1.nodes offset, ⟨offset + bytesOf r.1.chars, r.2.map glyphOf⟩) := by
  have hfits {fuel : Nat} (hfuel : enoughFuel rule text ≤ fuel) :
      rule.Fits Symbol.rank 400 fuel ⟨offset, text.map glyphOf⟩ := ⟨hbounded, by rwa [List.length_map]⟩
  have henough (k : Nat) := Rule.run_enough (graded_grammar d) (tame_grammar d) d.endsLine p (hfits hfuel)
    (hfits (Nat.le_trans hfuel (Nat.le_max_right k fuel)))
  have hresult := result_readText (d := d) (p := p) hbounded text
  cases hread : readText d p rule text with
  | none =>
      rw [hread] at hresult
      obtain ⟨k, hk⟩ := hresult
      rw [henough k, hk offset _ (Nat.le_max_left k fuel)]
      rfl
  | some r =>
      rw [hread] at hresult
      obtain ⟨htext, k, hk⟩ := hresult
      have hrun := hk offset _ (Nat.le_max_left k fuel)
      rw [← List.map_append, ← htext] at hrun
      rw [henough k, hrun]
      rfl

/-- The nodes of a part are the same everywhere, only further on. -/
theorem nodes_readText (hbounded : IsBounded rule) (h : readText d p rule text = some (a, rest)) (offset : Nat) :
    a.nodes offset = (a.nodes 0).map (Node.shift offset) := by
  have hshift := Rule.run_shift (k := offset) (grammar d) d.endsLine (enoughFuel rule text) p rule
    ⟨0, text.map glyphOf⟩
  rw [Cursor.shift, run_readText hbounded (Nat.le_refl _), run_readText hbounded (Nat.le_refl _), h,
    Nat.zero_add] at hshift
  exact congrArg Prod.fst (Option.some.inj hshift)

theorem readText_gives (hbounded : IsBounded rule) (h : readText d p rule text = some (a, rest)) :
    Gives (grammar d) d.endsLine (Reached (Utf8.encode (String.ofList text))) rule (a.nodes 0) := by
  have hstart : Reached (Utf8.encode (String.ofList text)) ⟨0, text.map glyphOf⟩ :=
    ⟨0, by rw [Cursor.start, Utf8.glyphs_encode_self, String.toList_ofList]; rfl⟩
  have hrun := @run_readText d p rule text hbounded _ (Nat.le_refl _) 0
  rw [h] at hrun
  exact run_makes hstart hrun

/-- A rule that has neither a clause nor a path reads none. -/
theorem readText_isPlain (hbounded : IsBounded rule) (h : readText d p rule text = some (a, rest))
    (hclause : rule.makers (isKind .importClause) (fun _ => true) = []) (hpath : rule.givers .source = []) :
    a.IsPlain := by
  intro offset n hn hpart
  rw [nodes_readText hbounded h] at hn
  obtain ⟨m, hm, rfl⟩ := List.mem_map.mp hn
  have hplain := (readText_gives hbounded h).no_clauseOrPath hclause hpath m hm
  rw [Node.IsClauseOrPath, Node.relocate_hasKind, Node.relocate_role] at hpart
  exact hplain hpart

/-- A rule that makes no import statement reads none. -/
theorem readText_no_import (hbounded : IsBounded rule) (h : readText d p rule text = some (a, rest))
    (hrule : rule.makers (isKind .importStatement) (· != .statement) = []) :
    ∀ offset, ∀ n ∈ a.nodes offset, n.hasKind .importStatement = false := by
  intro offset n hn
  rw [nodes_readText hbounded h] at hn
  obtain ⟨m, hm, rfl⟩ := List.mem_map.mp hn
  rw [Node.relocate_hasKind]
  rcases readText_gives hbounded h m hm with ⟨start, stop, rfl⟩ | hmade
  · rfl
  · exact hmade.label_avoided importStatement_makers hrule

/-! ## Items -/

/-- The rules for a statement. -/
theorem statement_eq (d : Dialect) : ∃ rules, Grammar.statement d =
      .fresh (.inside .statement (.alt (Grammar.exportStatement d :: Grammar.importStatement d :: rules))) ∧
    ∀ rule ∈ Grammar.exportStatement d :: rules,
      rule.makers (isKind .importStatement) (· != .statement) = [] := by
  refine ⟨_, rfl, ?_⟩
  simp only [List.forall_mem_cons, List.not_mem_nil, false_imp_iff, implies_true, and_true]
  cases d <;> exact ⟨rfl, rfl, rfl, rfl, rfl, rfl, rfl, rfl, rfl, rfl, rfl, rfl, rfl, rfl, rfl, rfl, rfl, rfl, rfl⟩

theorem isBounded_item : IsBounded Grammar.item := rfl

/-- A statement is the first of its rules to read something. -/
theorem readText_item_eq (hstarts : Starts (text.map glyphOf)) : ∃ rules,
    (∀ rule ∈ Grammar.exportStatement d :: rules, rule.makers (isKind .importStatement) (· != .statement) = []) ∧
    IsBounded (.alt (Grammar.exportStatement d :: Grammar.importStatement d :: rules)) ∧
    readText d p Grammar.item text = (readText d p (.lexeme .markupComment false .markupComment) text).or
      (readText d .statement (.alt (Grammar.exportStatement d :: Grammar.importStatement d :: rules)) text) := by
  obtain ⟨rules, hstatement, hrules⟩ := statement_eq d
  have hbounded := @isBounded_grammar d .statement
  have hsymbol : grammar d .statement = Grammar.statement d := rfl
  rw [hsymbol, hstatement] at hbounded
  have halt : IsBounded (.alt (Grammar.exportStatement d :: Grammar.importStatement d :: rules)) := hbounded
  have hinside : IsBounded (.inside .statement
    (.alt (Grammar.exportStatement d :: Grammar.importStatement d :: rules))) := hbounded
  refine ⟨rules, hrules, halt, ?_⟩
  have hitem := isBounded_item
  rw [Grammar.item] at hitem ⊢
  rw [readText_alt_cons hitem, readText_alt_cons hitem.alt.2, readText_alt_nil, Option.or_none, readText_call,
    hsymbol, hstatement, readText_fresh hinside hstarts, readText_inside halt]

/-- What is read as an import statement is read by the rule for one. -/
theorem readText_item_import (hstarts : Starts (text.map glyphOf))
    (h : readText d p Grammar.item text = some (a, rest)) {n : Node} (hn : n ∈ a.nodes offset)
    (hkind : n.hasKind .importStatement = true) :
    readText d .statement (Grammar.importStatement d) text = some (a, rest) := by
  obtain ⟨rules, hrules, hbounded, hitem⟩ := @readText_item_eq d p text hstarts
  rw [hitem] at h
  rcases Option.or_eq_some_iff.mp h with hread | ⟨-, hread⟩
  · have hnone := readText_no_import rfl hread rfl offset n hn
    rw [hkind] at hnone
    cases hnone
  · obtain ⟨rule, hrule, hread⟩ := readText_alt_inv hbounded hread
    by_cases heq : rule = Grammar.importStatement d
    · exact heq ▸ hread
    · have hother : rule ∈ Grammar.exportStatement d :: rules := by
        rcases List.mem_cons.mp hrule with rfl | hrule
        · exact List.mem_cons_self
        · exact List.mem_cons_of_mem _ ((List.mem_cons.mp hrule).resolve_left heq)
      have hnone := readText_no_import (hbounded.of_mem hrule) hread (hrules rule hother) offset n hn
      rw [hkind] at hnone
      cases hnone

section

variable {behind : List Char} {tokens : Spaced}

theorem readText_decorator_none (hfits : Fits behind (([], .word "import".toList) :: tokens)) :
    readText d p (.call .decorator) (textOf (([], .word "import".toList) :: tokens) ++ behind) = none := by
  obtain ⟨rules, heq⟩ : ∃ rules, grammar d .decorator = .node .decorator (.seq (Grammar.sign "@" :: rules)) :=
    ⟨_, rfl⟩
  have hbounded : IsBounded (.node .decorator (.seq (Grammar.sign "@" :: rules))) := heq ▸ isBounded_grammar .decorator
  have hrow : IsBounded (.seq (Grammar.sign "@" :: rules)) := hbounded
  have hsign : readText d p (Grammar.sign "@") (textOf (([], .word "import".toList) :: tokens) ++ behind) = none :=
    readText_mark_none (show "@".toList = ['@'] from rfl) rfl (by decide) hfits (by simp)
  rw [readText_call, heq, readText_node_row hrow hfits, readText_seq_cons hrow, hsign]
  rfl

/-- No export statement starts with the word `import`. -/
theorem readText_export_none (hfits : Fits behind (([], .word "import".toList) :: tokens)) :
    readText d p (Grammar.exportStatement d) (textOf (([], .word "import".toList) :: tokens) ++ behind) = none := by
  obtain ⟨decorated, plain, typed, heq⟩ : ∃ decorated plain typed, Grammar.exportStatement d =
      .node .exportStatement (.alt [.seq (.many (.call .decorator) :: Grammar.word "export" :: decorated),
        .seq (Grammar.word "export" :: plain), Grammar.onlyIf d.typed (.seq (Grammar.word "export" :: typed))]) :=
    ⟨_, _, _, rfl⟩
  have hbounded : IsBounded (Grammar.exportStatement d) := by cases d <;> rfl
  rw [heq] at hbounded ⊢
  have halt : IsBounded (.alt [.seq (.many (.call .decorator) :: Grammar.word "export" :: decorated),
    .seq (Grammar.word "export" :: plain), Grammar.onlyIf d.typed (.seq (Grammar.word "export" :: typed))]) := hbounded
  have hexport {rules : List Production} (hrow : IsBounded (.seq (Grammar.word "export" :: rules))) :
      readText d p (.seq (Grammar.word "export" :: rules))
        (textOf (([], .word "import".toList) :: tokens) ++ behind) = none :=
    (readsToken_keyword (by decide)).seq hrow hfits
  have hmany : readText d p (.many (.call .decorator)) (textOf (([], .word "import".toList) :: tokens) ++ behind) =
      some (.nil, textOf (([], .word "import".toList) :: tokens) ++ behind) := by
    rw [readText_many rfl rfl, readText_decorator_none hfits]
  have htyped : readText d p (Grammar.onlyIf d.typed (.seq (Grammar.word "export" :: typed)))
      (textOf (([], .word "import".toList) :: tokens) ++ behind) = none := by
    have hlast := halt.alt.2.alt.2.alt.1
    unfold Grammar.onlyIf
    split
    · rename_i hd
      rw [Grammar.onlyIf, if_pos hd] at hlast
      exact hexport hlast
    · exact readText_alt_nil
  rw [readText_node_row halt hfits, readText_alt_cons halt, readText_alt_cons halt.alt.2,
    readText_alt_cons halt.alt.2.alt.2, readText_alt_nil, htyped, hexport halt.alt.2.alt.1,
    readText_seq_cons halt.alt.1, hmany, Option.bind_some, hexport halt.alt.1.seq.2]
  rfl

/-- A declaration that can be read is read as an item. -/
theorem readText_item_declaration (hfits : Fits behind (([], .word "import".toList) :: tokens)) {r : Part × List Char}
    (h : readText d .statement (Grammar.importStatement d)
      (textOf (([], .word "import".toList) :: tokens) ++ behind) = some r) :
    readText d p Grammar.item (textOf (([], .word "import".toList) :: tokens) ++ behind) = some r := by
  have hstarts : Starts ((textOf (([], .word "import".toList) :: tokens) ++ behind).map glyphOf) := by
    rw [textOf_cons_append]
    exact hfits.2.1.starts
  have hcomment : readText d p (.lexeme .markupComment false .markupComment)
      (textOf (([], .word "import".toList) :: tokens) ++ behind) = none :=
    readText_segment rfl rfl hfits false rfl
  obtain ⟨rules, -, hbounded, hitem⟩ := @readText_item_eq d p _ hstarts
  rw [hitem, hcomment, Option.none_or, readText_alt_cons hbounded, readText_alt_cons hbounded.alt.2,
    readText_export_none hfits, Option.none_or, h, Option.some_or]

end

/-! ## Statements -/

theorem not_le_add_bytesOf {chars : List Char} (h : chars ≠ []) : ¬offset + bytesOf chars ≤ offset := by
  have hpos := bytesOf_pos h
  omega

/-- What is read as the next statement, where nothing is skipped. -/
theorem readStatement_readText (hstarts : Starts (text.map glyphOf)) {r : Reading} :
    readStatement d ⟨offset, text.map glyphOf⟩ = some r ↔ ∃ a rest,
      readText d .statement Grammar.item text = some (a, rest) ∧ a.chars ≠ [] ∧
        r = (a.nodes offset, ⟨offset + bytesOf a.chars, rest.map glyphOf⟩) := by
  have hfuel : enoughFuel Grammar.item text ≤ readingDepth (text.map glyphOf).length := by
    have hfits := (item_fits ⟨offset, text.map glyphOf⟩).2
    rwa [List.length_map] at hfits ⊢
  have hrun := @run_readText d .statement _ text isBounded_item _ hfuel offset
  rw [readStatement, hstarts offset]
  dsimp only
  rw [hrun]
  cases readText d .statement Grammar.item text with
  | none => simp
  | some found =>
      obtain ⟨a, rest⟩ := found
      rw [Option.map_some]
      dsimp only
      by_cases hnil : a.chars = []
      · rw [if_pos (by rw [hnil]; exact Nat.le_refl _)]
        simp [hnil]
      · rw [if_neg (not_le_add_bytesOf hnil)]
        simp [hnil, eq_comm]

/-! ## Declarations -/

theorem isBounded_importEnd : IsBounded importEnd := rfl

/-- What follows a path is neither a clause nor a path. -/
theorem importEnd_isPlain (h : readText d p importEnd text = some (a, rest)) : a.IsPlain :=
  readText_isPlain isBounded_importEnd h rfl rfl

/-- A statement that imports a path is a declaration that fits. -/
theorem readStatement_declaration_inv (hstarts : Starts (text.map glyphOf)) {n : Node} {after : Cursor}
    (h : readStatement d ⟨offset, text.map glyphOf⟩ = some ([n], after)) (hkind : n.hasKind .importStatement = true)
    (hsource : n.child? .source ≠ none) :
    ∃ (decl : Declaration d) (tail : Part) (middle rest : List Char), Spans decl.row text middle ∧
      readText d .statement importEnd middle = some (tail, rest) ∧ n = decl.node tail offset ∧
      after.rest = rest.map glyphOf := by
  obtain ⟨a, rest, hitem, -, hr⟩ := (readStatement_readText hstarts).mp h
  obtain ⟨hnodes, rfl⟩ := Prod.mk.inj hr
  have hread := readText_item_import hstarts hitem (hnodes ▸ List.mem_singleton_self n) hkind
  rcases readText_declaration_inv hstarts hread with ⟨decl, tail, middle, hspans, hend, rfl⟩ | ⟨rule, hrule, b, rfl, hb⟩
  · rw [decl.part_nodes] at hnodes
    exact ⟨decl, tail, middle, rest, hspans, hend, List.head_eq_of_cons_eq hnodes, rfl⟩
  · have hbounded : IsBounded
        (.seq [Grammar.word "import", rule, .opt Grammar.importAttribute, Grammar.terminator]) := by
      rcases hrule with rfl | rfl <;> cases d <;> rfl
    have hplain : b.IsPlain := by
      refine readText_isPlain hbounded hb ?_ ?_
      · rcases hrule with rfl | rfl <;> cases d <;> rfl
      · rcases hrule with rfl | rfl <;> cases d <;> rfl
    obtain rfl : n = nodeAt .importStatement [] b offset := List.head_eq_of_cons_eq hnodes
    exact absurd (hplain.find_none (offset + bytesOf [])) hsource

/-- A declaration that fits is the next statement. -/
theorem readStatement_declaration {decl : Declaration d} {tail : Part} {middle rest : List Char}
    (hfits : Fits middle decl.row) (hend : readText d .statement importEnd middle = some (tail, rest)) :
    ∃ after, readStatement d ⟨offset, (textOf decl.row ++ middle).map glyphOf⟩ = some ([decl.node tail offset], after) ∧
      after.rest = rest.map glyphOf := by
  have hdeclaration := readText_declaration (p := .statement) decl hfits
  rw [hend, Option.map_some] at hdeclaration
  have hitem := readText_item_declaration (p := .statement) hfits hdeclaration
  have hstarts : Starts ((textOf decl.row ++ middle).map glyphOf) := by
    rw [Declaration.row, textOf_cons_append]
    exact hfits.2.1.starts
  have hchars : (decl.part tail).chars ≠ [] := by
    intro hnil
    cases hnil
  exact ⟨_, (readStatement_readText hstarts).mpr ⟨_, _, hitem, hchars, rfl⟩, rfl⟩

end Syntax

end ImportAssist
