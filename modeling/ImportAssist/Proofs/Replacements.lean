import ImportAssist.Proofs.MergeEdits
import ImportAssist.Proofs.Rebinding

/-!
# What goes with a binding that is replaced

A binding that is replaced goes with the import that made it: an import declaration as a whole, with
every name it binds, a require declarator with a gap to its neighbour. What is taken out spares the
names of every other import, on the same line as well (`removal_spares_other_imports`), so these stand in
the new document as they were.

Where a whole line goes, white space behind the statement goes too. It ends before the next statement
because reading a statement starts behind the white space (`parse_marked`).
-/

namespace ImportAssist

open Syntax

variable {d : Dialect} {source : Bytes} {n : Node}

/-! ## Where statements start -/

/-- No white space at the start. -/
def Node.Marked (source : Bytes) (n : Node) : Prop :=
  ∀ b, source[n.start]? = some b → Document.isSpaceByte b = false

/-- A byte of white space is a blank of its own. -/
theorem glyphAt_space {b : UInt8} (h : Document.isSpaceByte b = true) (rest : Bytes) :
    ((Utf8.glyphAt b rest).valid && Lexeme.isBlank (Utf8.glyphAt b rest).char) = true := by
  have hb : b.toNat = 0x20 ∨ 9 ≤ b.toNat ∧ b.toNat ≤ 13 := by
    simpa [Document.isSpaceByte, UInt8.le_iff_toNat_le, ← UInt8.toNat_inj] using h
  have hlength : Utf8.sequenceLength b = some 1 := by
    rw [Utf8.sequenceLength, if_pos (UInt8.lt_iff_toNat_lt.mpr (by simp; omega))]
  have hchar : (Char.ofNat b.toNat).toNat = b.toNat := Utf8.val_ofNat (.inl (by omega))
  unfold Utf8.glyphAt
  rw [hlength]
  simp only [Lexeme.isBlank, hchar]
  rcases hb with hb | hb <;> simp [hb]

/-- A blank is skipped. -/
theorem not_settled_of_blank {c : Cursor} {g : Glyph} {gs : List Glyph} (hrest : c.rest = g :: gs)
    (h : (g.valid && Lexeme.isBlank g.char) = true) : ¬c.Settled := by
  obtain ⟨offset, rest⟩ := c
  obtain rfl : rest = g :: gs := hrest
  intro hsettled
  have hskip := hsettled 1
  rw [trivia] at hskip
  simp only [h, if_true, trivia, Cursor.advance, Prod.mk.injEq, Cursor.mk.injEq, true_and] at hskip
  exact absurd (congrArg List.length hskip.2) (by simp)

/-- Where reading has skipped what there is to skip, no white space follows. -/
theorem settled_byte {c : Cursor} (hc : Reached source c) (hsettled : c.Settled) {b : UInt8}
    (hb : source[c.offset]? = some b) : Document.isSpaceByte b = false := by
  obtain ⟨n, rfl⟩ := hc
  have hoffset : ((Cursor.start source).advance n).offset = Utf8.cut source n := by
    simp [Cursor.advance_eq, Cursor.start, Utf8.cut]
  have hrest : ((Cursor.start source).advance n).rest = Utf8.glyphs (source.drop (Utf8.cut source n)) := by
    rw [Cursor.advance_eq, Utf8.glyphs_drop_cut]
    rfl
  rw [hoffset] at hb
  obtain ⟨hlt, hget⟩ := List.getElem?_eq_some_iff.mp hb
  rw [List.drop_eq_getElem_cons hlt, hget, Utf8.glyphs_cons] at hrest
  rw [Bool.eq_false_iff]
  intro hspace
  exact not_settled_of_blank hrest (glyphAt_space hspace _) hsettled

theorem readStatements_marked : ∀ (limit : Nat) {c : Cursor}, Reached source c →
    ∀ n ∈ (readStatements d limit c).1, n.IsComment ∨ n.Marked source
  | 0, _, _ => nofun
  | limit + 1, c, hc => by
      rw [readStatements]
      split
      · exact List.forall_mem_nil _
      · rename_i ns after hread
        obtain ⟨k, rfl⟩ := readStatement_forward hread
        obtain ⟨statement, hns, hstart, -⟩ := readStatement_eq hread
        obtain rfl : ns = _ := hns
        intro n hn
        rcases List.mem_append.mp hn with hn | hn
        · rcases List.mem_append.mp hn with hn | hn
          · exact .inl (trivia_comments _ _ n hn)
          · rw [List.mem_singleton.mp hn]
            refine .inr fun b hb => settled_byte (hc.trivia _) (trivia_settled (Nat.le_refl _)) ?_
            rwa [← hstart]
        · exact readStatements_marked limit (hc.advance k) n hn

/-- A node at the top level of a tree starts with a mark, if it is no comment and no interpreter line. -/
theorem parse_marked {language : String} {tree : Node} (h : parse source language = some tree)
    (hn : n ∈ tree.children) : n.IsComment ∨ n.hasKind .hashBang = true ∨ n.Marked source := by
  obtain ⟨d, -, hd⟩ := List.exists_of_findSome?_eq_some h
  unfold parseAs readBody at hd
  dsimp only at hd
  split at hd
  · cases hd
    rw [Node.children, List.mem_append, List.mem_append] at hn
    rcases hn with hn | hn | hn
    · unfold readHashBang at hn
      split at hn
      · obtain rfl := List.mem_singleton.mp hn
        exact .inr (.inl rfl)
      · cases hn
    · obtain ⟨m, hm⟩ := readHashBang_forward (Cursor.start source)
      exact (readStatements_marked _ ⟨m, hm⟩ n hn).imp_right .inr
    · exact .inl (trivia_comments _ _ n hn)
  · cases hd

/-- A statement that imports starts with a mark. -/
theorem imports_marked {language : String} {tree : Node} (h : parse source language = some tree)
    {i : Import} (hi : i ∈ imports source tree) : i.statement.Marked source := by
  obtain ⟨statement, hstatement, hmem⟩ := List.mem_flatMap.mp hi
  obtain ⟨rfl, -⟩ := Import.ofStatement_spec hmem
  rcases parse_marked h hstatement with ⟨start, stop, hcomment⟩ | hbang | hmarked
  · rw [hcomment] at hmem
    cases hmem
  · have hlabel : i.statement.label = .kind .hashBang := beq_iff_eq.mp hbang
    simp [Import.ofStatement, Node.hasKind, hlabel] at hmem
  · exact hmarked

/-! ## Imports that lie apart -/

/-- Two imports are made by different statements, or by different declarators of one declaration. -/
def Import.Apart (i j : Import) : Prop :=
  i.statement.Apart j.statement ∨
    i.statement = j.statement ∧ i.form = .requireDeclaration ∧ j.form = .requireDeclaration ∧
      i.node ≠ j.node

/-- What is known of the imports that a statement makes. -/
theorem Import.ofStatement_unique {statement : Node} {i j : Import}
    (hi : i ∈ Import.ofStatement source statement) (hj : j ∈ Import.ofStatement source statement) :
    i = j ∨ i.form = .requireDeclaration ∧ j.form = .requireDeclaration ∧ i.node ≠ j.node := by
  unfold Import.ofStatement at hi hj
  split at hi
  · rename_i hkind
    rw [if_pos hkind] at hj
    split at hi
    · rename_i hpath
      rw [hpath] at hj
      exact .inl ((List.mem_singleton.mp hi).trans (List.mem_singleton.mp hj).symm)
    · cases hi
  · rename_i hkind
    rw [if_neg hkind] at hj
    split at hi
    · rename_i hdeclaration
      rw [if_pos hdeclaration] at hj
      obtain ⟨a, -, ha⟩ := List.mem_filterMap.mp hi
      obtain ⟨b, -, hb⟩ := List.mem_filterMap.mp hj
      obtain ⟨path, hpath, rfl⟩ := Option.map_eq_some_iff.mp ha
      obtain ⟨path', hpath', rfl⟩ := Option.map_eq_some_iff.mp hb
      by_cases hab : a = b
      · subst hab
        rw [Option.some.inj (hpath.symm.trans hpath')]
        exact .inl rfl
      · exact .inr ⟨rfl, rfl, hab⟩
    · rename_i hdeclaration
      rw [if_neg hdeclaration] at hj
      split at hi
      · rename_i hexpression
        rw [if_pos hexpression] at hj
        split at hi
        · rename_i expression hnamed
          rw [hnamed] at hj
          simp only at hj
          split at hi
          · rename_i path hpath
            rw [hpath] at hj
            exact .inl ((List.mem_singleton.mp hi).trans (List.mem_singleton.mp hj).symm)
          · cases hi
        · cases hi
      · cases hi

/-- Different imports of a tree lie apart. -/
theorem imports_apart {ok : Nat → Prop} {tree : Node} (htree : tree.Placed ok) {i j : Import}
    (hi : i ∈ imports source tree) (hj : j ∈ imports source tree) (hne : i ≠ j) : i.Apart j := by
  obtain ⟨statement, hstatement, hi⟩ := List.mem_flatMap.mp hi
  obtain ⟨statement', hstatement', hj⟩ := List.mem_flatMap.mp hj
  obtain rfl := (Import.ofStatement_spec hi).1
  obtain rfl := (Import.ofStatement_spec hj).1
  rcases htree.row.apart hstatement hstatement' with heq | hapart
  · rw [← heq] at hj
    exact .inr ⟨heq, (Import.ofStatement_unique hi hj).resolve_left hne⟩
  · exact .inl hapart

/-! ## Where the names of an import stand -/

/-- An import that is no declarator is the whole statement. -/
theorem Import.ofStatement_node {statement : Node} {i : Import} (h : i ∈ Import.ofStatement source statement)
    (hform : i.form ≠ .requireDeclaration) : i.node = i.statement := by
  unfold Import.ofStatement at h
  split at h
  · split at h
    · rw [List.mem_singleton.mp h]
    · cases h
  · split at h
    · obtain ⟨declarator, -, hdeclarator⟩ := List.mem_filterMap.mp h
      obtain ⟨path, -, rfl⟩ := Option.map_eq_some_iff.mp hdeclarator
      exact absurd rfl hform
    · repeat' split at h
      · rw [List.mem_singleton.mp h]
      all_goals cases h

/-- The names of an import stand in the part that imports, and that in the statement. -/
theorem imports_inside {language : String} {tree : Node} (htree : parse source language = some tree)
    {i : Import} (hi : i ∈ imports source tree) :
    (i.statement.Placed (Utf8.IsCut source)) ∧
      (i.statement.start ≤ i.node.start ∧ i.node.stop ≤ i.statement.stop) ∧
      ∀ n ∈ i.sites, i.node.start ≤ n.start ∧ n.stop ≤ i.node.stop := by
  obtain ⟨hstatement, hdeclarator⟩ := mem_imports hi
  have hplaced := (parse_placed htree).1.child hstatement
  obtain ⟨statement, -, hmem⟩ := List.mem_flatMap.mp hi
  refine ⟨hplaced, ?_, fun n hn => ?_⟩
  · by_cases hform : i.form = .requireDeclaration
    · exact hplaced.inside (List.mem_filter.mp (hdeclarator hform)).1
    · rw [Import.ofStatement_node hmem hform]
      exact ⟨Nat.le_refl _, Nat.le_refl _⟩
  · unfold Import.sites at hn
    split at hn
    · rename_i hform
      have himport := imports_isImport htree hi hform
      obtain ⟨part, hpart, hin⟩ := himport.site_inside hn
      obtain ⟨clause, hc, -, hin'⟩ := himport.part_inside hpart
      have := (himport.clause_inside hc).2
      omega
    · rename_i hform
      have hname : i.node.child? .name = some n := Option.mem_toList.mp (List.mem_filter.mp hn).1
      exact (hplaced.ofKind (hdeclarator hform)).inside (List.mem_of_find?_eq_some hname)
    · cases hn

/-! ## What the span spares -/

/-- The span that goes when the binding of an import is replaced. -/
def removal (d : Document) (c : Import) : Edit := .delete (removalRange d c).1 (removalRange d c).2

/-- Of several declarators the others stay. -/
theorem removal_spares_declarator {ok : Nat → Prop} {d : Document} {c : Import}
    (hplaced : c.statement.Placed ok) (hshares : c.Shares)
    (hnode : c.node ∈ c.statement.childrenOfKind .variableDeclarator) {m : Node}
    (hm : m ∈ c.statement.childrenOfKind .variableDeclarator) (hne : m ≠ c.node) :
    (removal d c).Spares m := by
  obtain ⟨hform, hmany⟩ := hshares
  simp only [removal, removalRange, hform, hmany, decide_true, Bool.and_self, if_true]
  generalize hds : c.statement.childrenOfKind .variableDeclarator = ds at hmany hnode hm ⊢
  have hends : ∀ n ∈ ds, n.start ≤ n.stop := by
    intro n hn
    rw [← hds] at hn
    exact (hplaced.ofKind hn).ends.2.2
  have hpair : ds.Pairwise fun a b => a.stop ≤ b.start := by
    rw [← hds]
    exact hplaced.row.pairwise.filter _
  have hbefore : ∀ (j k : Nat) (hj : j < ds.length) (hk : k < ds.length), j < k →
      ds[j].stop ≤ ds[k].start := List.pairwise_iff_getElem.mp hpair
  have hpos : ds.findIdx (·.start == c.node.start) < ds.length :=
    List.findIdx_lt_length_of_exists ⟨c.node, hnode, by simp⟩
  have hhere : (ds[ds.findIdx (·.start == c.node.start)]).start = c.node.start := by
    simpa using List.findIdx_getElem (w := hpos)
  obtain ⟨l, hl, hcl⟩ := List.getElem_of_mem hnode
  have hfirst : ds.findIdx (·.start == c.node.start) ≤ l := by
    by_contra hlt
    have := List.not_of_lt_findIdx (Nat.lt_of_not_le hlt)
    simp [hcl] at this
  generalize ds.findIdx (·.start == c.node.start) = k at hpos hhere hfirst ⊢
  obtain ⟨j, hj, rfl⟩ := List.getElem_of_mem hm
  have hjl : j ≠ l := by
    rintro rfl
    exact hne hcl
  have hendj := hends _ (List.getElem_mem hj)
  have hendl := hends _ (List.getElem_mem hl)
  rw [← hcl] at hhere ⊢
  unfold Edit.Spares
  split
  · -- up to the next declarator: those in front end before this one, those behind start at the next
    rename_i next hnext
    obtain ⟨hnextpos, rfl⟩ := List.getElem?_eq_some_iff.mp hnext
    simp only [Edit.delete]
    rcases Nat.lt_trichotomy j k with hjk | rfl | hkj
    · exact .inl (by have := hbefore j k hj hpos hjk; omega)
    · exact .inl (by have := hbefore j l hj hl (by omega); omega)
    · rcases Nat.eq_or_lt_of_le (Nat.succ_le_of_lt hkj) with rfl | hlt
      · exact .inr (Int.le_refl _)
      · have := hbefore (k + 1) j hnextpos hj hlt
        have := hends _ (List.getElem_mem hnextpos)
        exact .inr (by omega)
  · -- the last one, from the end of the declarator before it
    rename_i hnone
    have hlast : ds.length ≤ k + 1 := by simpa using hnone
    have hprev : k - 1 < ds.length := by omega
    rw [List.getElem?_eq_getElem hprev]
    simp only [Edit.delete]
    rcases Nat.eq_or_lt_of_le (show j ≤ k - 1 by omega) with rfl | hlt
    · exact .inl (Int.le_refl _)
    · have := hbefore j (k - 1) hj hprev hlt
      have := hends _ (List.getElem_mem hprev)
      exact .inl (by omega)

/-- A line that goes ends before the next statement starts. -/
theorem BlankToLineEnd.le_marked {from_ stop : Nat} (h : BlankToLineEnd source from_ stop)
    (hstop : stop ≤ source.length) {m : Node} (hfrom : from_ ≤ m.start) (hm : m.Marked source) :
    stop ≤ m.start := by
  obtain ⟨blanks, ending, hbytes, hblank, hending⟩ := h
  by_contra hlt
  have hget : ((source.drop from_).take (stop - from_))[m.start - from_]? = some source[m.start] := by
    rw [List.getElem?_take_of_lt (by omega), List.getElem?_drop, Nat.add_sub_cancel' hfrom,
      List.getElem?_eq_getElem]
  have hspace : Document.isSpaceByte source[m.start] = true := by
    rw [hbytes] at hget
    rcases List.mem_append.mp (List.mem_of_getElem? hget) with hmem | hmem
    · exact (hblank _ hmem).1
    · rcases hending with rfl | rfl
      · cases hmem
      · rw [List.mem_singleton.mp hmem]
        rfl
  rw [hm _ (List.getElem?_eq_getElem (by omega))] at hspace
  cases hspace

/-- The names of every other import are spared. -/
theorem removal_spares {d : Document} {tree : Node} (htree : parse d.source d.language = some tree)
    {c i : Import} (hc : c ∈ imports d.source tree) (hi : i ∈ imports d.source tree) (hne : i ≠ c)
    (hn : n ∈ i.sites) : (removal d c).Spares n := by
  obtain ⟨hplaced, -⟩ := imports_inside htree hc
  obtain ⟨hiplaced, hnode, hsites⟩ := imports_inside htree hi
  have hsite := hsites n hn
  have hin : i.statement.start ≤ n.start ∧ n.stop ≤ i.statement.stop := by omega
  have hdeclarator := (mem_imports hc).2
  rcases imports_apart (parse_placed htree).1 hc hi hne.symm with hapart | ⟨hsame, hform, hform', hnodes⟩
  · obtain ⟨start, stop, hrange, -, -, hstop, hspan⟩ :=
      removalRange_spec (d := d) (hplaced.imp fun _ hcut => hcut.le_length) hdeclarator
    rcases hspan with hshares | ⟨rfl, -, hblank⟩
    · obtain ⟨start, stop, hrange, hstart, -, hstop⟩ :=
        removalRange_shares (d := d) hplaced hshares (hdeclarator hshares.1)
      refine (Edit.spares_of_apart ?_ hapart).inside hin
      simp only [removal, hrange, Edit.delete]
      omega
    · simp only [removal, hrange, Edit.Spares, Edit.delete]
      rcases hapart with hbefore | hbehind
      · have := hblank.le_marked hstop hbefore (imports_marked htree hi)
        omega
      · omega
  · have hdeclarator' := hdeclarator hform
    have hother := (mem_imports hi).2 hform'
    rw [← hsame] at hother
    have hshares : c.Shares := by
      refine ⟨hform, ?_⟩
      cases hlist : c.statement.childrenOfKind .variableDeclarator with
      | nil => rw [hlist] at hother; cases hother
      | cons first rest =>
          cases rest with
          | cons => simp
          | nil =>
              rw [hlist, List.mem_singleton] at hdeclarator' hother
              exact absurd (hdeclarator'.trans hother.symm) hnodes
    exact (removal_spares_declarator hplaced hshares hdeclarator' hother hnodes.symm).inside hsite

/-- An import declaration goes with every name it binds. -/
theorem removal_covers {d : Document} {tree : Node} (htree : parse d.source d.language = some tree)
    {c : Import} (hc : c ∈ imports d.source tree) (hform : c.form = .declaration) (hn : n ∈ c.sites) :
    (removal d c).Covers n := by
  obtain ⟨hplaced, hnode, hsites⟩ := imports_inside htree hc
  have hsite := hsites n hn
  obtain ⟨start, stop, hrange, -, -, -, hspan⟩ :=
    removalRange_spec (d := d) (hplaced.imp fun _ hcut => hcut.le_length) (mem_imports hc).2
  rcases hspan with ⟨hshares, -⟩ | ⟨rfl, hle, -⟩
  · rw [hform] at hshares
    cases hshares
  · simp only [removal, hrange, Edit.Covers, Edit.delete]
    omega

/-! ## The new document -/

/-- What stands apart from the span that goes and from the place of the new statement stays. -/
theorem replacement_kept {start stop p a b : Nat} (hp : p ≤ start) (hle : start ≤ stop)
    (hstop : stop ≤ source.length) (text : String) (hgone : b ≤ start ∨ stop ≤ a)
    (hnew : b ≤ p ∨ p ≤ a) :
    let edits := [.delete start stop, .insert p text]
    ((applyEdits source edits).drop (a + shift edits a).toNat).take (b - a) =
      (source.drop a).take (b - a) := by
  intro edits
  by_cases hempty : start = p ∧ stop = p
  · -- nothing goes, so both edits are at one place: the new statement alone does the same
    obtain ⟨rfl, rfl⟩ := hempty
    have hbatch : Batch source [.insert stop text] := by
      refine ⟨?_, List.pairwise_singleton _ _⟩
      simp only [List.forall_mem_singleton, Edit.insert]
      omega
    have hsame : applyEdits source edits = applyEdits source [.insert stop text] := by
      rw [applyEdits_delete_insert hp hle hstop, applyEdits_insert hstop]
      simp
    have hshift : shift edits a = shift [.insert stop text] a := by
      simp only [edits, shift, List.filter_cons, Edit.delete, Edit.insert]
      split <;> simp [Edit.growth, Utf8.encode]
    rw [hsame, hshift]
    refine hbatch.kept ?_
    simp only [List.forall_mem_singleton, Edit.insert]
    omega
  · have hbatch : Batch source edits := by
      refine ⟨?_, ?_⟩
      · simp only [edits, List.forall_mem_cons, Edit.delete, Edit.insert]
        refine ⟨?_, ?_, List.forall_mem_nil _⟩ <;> omega
      · refine List.pairwise_pair.mpr ⟨.inr ?_, ?_⟩
        · simpa [Edit.delete, Edit.insert] using hp
        · simp only [Edit.delete, Edit.insert, ne_eq, Prod.mk.injEq]
          omega
    refine hbatch.kept ?_
    simp only [edits, List.forall_mem_cons, Edit.delete, Edit.insert]
    refine ⟨?_, ?_, List.forall_mem_nil _⟩ <;> omega

namespace Synthesizer

variable {s : Synthesizer} {d : Document} {found : List Import} {log : List Exchange} {x : String}
  {edits : List Edit}

theorem insert_replaced {binding : Binding} {path : String}
    (h : (s.insert d found binding path).Plays log (.ok (.inserted edits)))
    (hreply : .confirmReplace x (some true) ∈ log) :
    ∃ c snippet, binder? d.source found x = some c ∧
      edits = [removal d c, .insert (insertionOffset found) snippet] := by
  simp only [insert] at h
  split at h
  · obtain ⟨rfl, -⟩ := Dialogue.plays_done h
    cases hreply
  · rename_i conflict hconflict
    cases h with
    | confirmReplace h =>
        dsimp only at h
        split at h
        · cases (Dialogue.plays_done h).2
        · obtain ⟨rfl, -⟩ := Dialogue.plays_done h
          cases List.mem_singleton.mp hreply
        · obtain ⟨rfl, ho⟩ := Dialogue.plays_done h
          cases List.mem_singleton.mp hreply
          cases ho
          exact ⟨conflict, _, hconflict, rfl⟩

theorem carryOut_replaced {binding : Binding} {path : String}
    (h : (s.carryOut d found (.bind binding path)).Plays log (.ok (.inserted edits)))
    (hreply : .confirmReplace x (some true) ∈ log) :
    ∃ c snippet, binder? d.source found x = some c ∧
      edits = [removal d c, .insert (insertionOffset found) snippet] := by
  simp only [carryOut] at h
  split at h
  · exact insert_replaced h hreply
  · split at h
    · exact absurd (Except.ok.inj (Dialogue.plays_done h).2).symm merge_ne_inserted
    · cases (Dialogue.plays_done h).2

theorem addModule_replaced {c : FileCandidate}
    (h : (s.addModule d d.imports c).Plays log (.ok (.inserted edits)))
    (hreply : .confirmReplace x (some true) ∈ log) :
    ∃ c snippet, binder? d.source d.imports x = some c ∧
      edits = [removal d c, .insert (insertionOffset d.imports) snippet] := by
  obtain ⟨⟨name, own⟩, hname, h⟩ := Dialogue.plays_ofExcept_bind h
  obtain ⟨decision, front, back, hdecision, hcarried, rfl⟩ := Dialogue.plays_bind h
  cases decision with
  | stop outcome =>
      cases (Dialogue.plays_done hcarried).2
      rcases decideForm_stop hdecision with h | ⟨_, _, h⟩ <;> cases h
  | bind binding path =>
      have hsettles : s.Settles d c front binding path := ⟨name, own, hname, hdecision⟩
      have hback : .confirmReplace x (some true) ∈ back := by
        refine (List.mem_append.mp hreply).resolve_left fun hfront => ?_
        have hasked : x ∈ confirmations front := List.mem_filterMap.mpr ⟨_, hfront, rfl⟩
        rw [hsettles.confirmations_eq] at hasked
        cases hasked
      exact carryOut_replaced hcarried hback

/-- A binding that is replaced goes with its import, and a new statement comes in front of all. -/
theorem add_replaced {candidate : Candidate}
    (h : (s.add d candidate).Plays log (.ok (.inserted edits)))
    (hreply : .confirmReplace x (some true) ∈ log) :
    ∃ c snippet, binder? d.source d.imports x = some c ∧
      edits = [removal d c, .insert (insertionOffset d.imports) snippet] := by
  cases candidate with
  | package p =>
      simp only [add, addAmong, addPackage] at h
      split at h
      · obtain ⟨rfl, -⟩ := Dialogue.plays_pure h
        cases hreply
      · obtain ⟨name, -, h⟩ := Dialogue.plays_ofExcept_bind h
        obtain ⟨rfl, -⟩ := Dialogue.plays_pure h
        cases hreply
  | file c =>
      simp only [add, addAmong] at h
      split at h
      · exact addModule_replaced h hreply
      · have hasked : x ∈ confirmations log := List.mem_filterMap.mpr ⟨_, hreply, rfl⟩
        have hadds : (Outcome.inserted edits).Adds := trivial
        rw [(addAsset_confirms hadds h).1] at hasked
        cases hasked

end Synthesizer

/-- Whoever binds `x` in a document: what goes with the binding are the names of that import, if it is
a declaration all of them, and no name of another import. So after the binding is replaced these stand
in the new document as they were, moved by the edits in front of them. -/
theorem removal_spares_other_imports {d : Document} {x : String} {c : Import}
    (hc : binder? d.source d.imports x = some c) :
    (∀ i ∈ d.imports, i.names d.source = i.sites.map fun n => n.text d.source) ∧
    (c.form = .declaration → ∀ n ∈ c.sites, (removal d c).Covers n) ∧
    (∀ i ∈ d.imports, i ≠ c → ∀ n ∈ i.sites, (removal d c).Spares n) ∧
    ∀ (s : Synthesizer) (candidate : Candidate) (log : List Exchange) (edits : List Edit),
      (s.add d candidate).Plays log (.ok (.inserted edits)) → .confirmReplace x (some true) ∈ log →
      ∃ snippet, edits = [removal d c, .insert (insertionOffset d.imports) snippet] ∧
        ∀ i ∈ d.imports, i ≠ c → ∀ n ∈ i.sites,
          ((applyEdits d.source edits).drop (n.start + shift edits n.start).toNat).take
            (n.stop - n.start) = n.bytes d.source := by
  have hmem : c ∈ d.imports := List.mem_of_find?_eq_some hc
  obtain ⟨tree, htree, himports⟩ := Document.read_of_import hmem
  rw [himports] at hmem hc ⊢
  refine ⟨fun i hi => Import.names_eq (imports_isImport htree hi),
    fun hform n hn => removal_covers htree hmem hform hn,
    fun i hi hne n hn => removal_spares htree hmem hi hne hn,
    fun s candidate log edits hplays hreply => ?_⟩
  obtain ⟨c', snippet, hc', rfl⟩ := Synthesizer.add_replaced hplays hreply
  rw [himports] at hc'
  obtain rfl := Option.some.inj (hc.symm.trans hc')
  refine ⟨snippet, by rw [himports], fun i hi hne n hn => ?_⟩
  obtain ⟨hplaced, -⟩ := imports_inside htree hmem
  obtain ⟨start, stop, hrange, hstart, hle, hstop, -⟩ :=
    removalRange_spec (d := d) (hplaced.imp fun _ hcut => hcut.le_length) (mem_imports hmem).2
  have hspares := removal_spares htree hmem hi hne hn
  obtain ⟨-, hnode, hsites⟩ := imports_inside htree hi
  have hsite := hsites n hn
  have hordered := imports_ordered (parse_placed htree).1 d.source
  have hfirst := insertionOffset_le hordered hi
  have hfirst' := insertionOffset_le hordered hmem
  simp only [removal, hrange, Edit.Spares, Edit.delete] at hspares
  rw [himports, removal, hrange]
  exact replacement_kept (Nat.le_trans hfirst' hstart) hle hstop snippet (by omega) (.inr (by omega))

/-- Two imports on one line. -/
def sharedLine : Document :=
  ⟨"/ws/app.js", "import \x7b a, b \x7d from './old'; import d, * as e from './e'\n", "javascript", 0⟩

/-- The import behind the one that goes keeps both names. -/
theorem shared_line_spared :
    ∃ c other, sharedLine.imports = [c, other] ∧ binder? sharedLine.source sharedLine.imports "a" = some c ∧
      removal sharedLine c = .delete 0 29 ∧ other.names sharedLine.source = ["d", "e"] ∧
      ∀ n ∈ other.sites, (removal sharedLine c).Spares n := by
  obtain ⟨hlist, hbinder⟩ : (sharedLine.imports.map fun i => (i.path, i.names sharedLine.source)) =
        [("./old", ["a", "b"]), ("./e", ["d", "e"])] ∧
      ((binder? sharedLine.source sharedLine.imports "a").map fun c => (c.path, removal sharedLine c)) =
        some ("./old", .delete 0 29) := by decide +kernel
  obtain ⟨c, hc, hpair⟩ := Option.map_eq_some_iff.mp hbinder
  obtain ⟨hpath, hremoval⟩ := Prod.mk.inj hpair
  obtain ⟨first, rest, himports, hfirst, hrest⟩ := List.map_eq_cons_iff.mp hlist
  obtain ⟨other, rfl, hother⟩ := List.map_eq_singleton_iff.mp hrest
  obtain ⟨hpath', hnames⟩ := Prod.mk.inj hother
  have hne : other ≠ c := by
    rintro rfl
    rw [hpath] at hpath'
    exact absurd hpath' (by decide)
  have hmem : c ∈ [first, other] := himports ▸ List.mem_of_find?_eq_some hc
  obtain rfl : c = first := by
    rcases List.mem_cons.mp hmem with h | h
    · exact h
    · exact absurd (List.mem_singleton.mp h).symm hne
  refine ⟨c, other, himports, hc, hremoval, hnames, ?_⟩
  exact (removal_spares_other_imports hc).2.2.1 other (by simp [himports]) hne

/-! ## Names that go together -/

/-- One import of two names. -/
def pairedNames : Document :=
  ⟨"/ws/app.js", "import \x7b a, b \x7d from './old'\n", "javascript", 0⟩

def exportingSynthesizer : Synthesizer :=
  ⟨{ cwd := "/ws", entries := [(["ws"], .directory), (["ws", "a.js"], .file (Utf8.encode "export default 1;"))] },
    {}, false⟩

def exportingCandidate : Candidate := .file (.create "/ws" "/ws" {} .javascript "/ws/a.js")

/-- With the binding of `a` that of `b` goes, and `b` is not bound any more. -/
theorem paired_names_removed :
    (∃ c, binder? pairedNames.source pairedNames.imports "a" = some c ∧ c.form = .declaration ∧
      ∃ n ∈ c.sites, n.text pairedNames.source = "b" ∧ (removal pairedNames c).Covers n) ∧
    "b" ∈ pairedNames.boundIdentifiers ∧
    (exportingSynthesizer.add pairedNames exportingCandidate).Plays [.confirmReplace "a" (some true)]
      (.ok (.inserted [.delete 0 29, .insert 0 "import a from './a'\n"])) ∧
    let after := applyEdits pairedNames.source [.delete 0 29, .insert 0 "import a from './a'\n"]
    (importsIn after (parse after "javascript")).map (·.names after) = [["a"]] := by
  obtain ⟨hbinder, hbound, hplays⟩ : ((binder? pairedNames.source pairedNames.imports "a").map fun c =>
        (c.form, removal pairedNames c, c.sites.map fun n => (n.text pairedNames.source, n.start, n.stop))) =
          some (.declaration, .delete 0 29, [("a", 9, 10), ("b", 12, 13)]) ∧
      "b" ∈ pairedNames.boundIdentifiers ∧
      (exportingSynthesizer.add pairedNames exportingCandidate).replay [.confirmReplace "a" (some true)] =
        some (.inserted [.delete 0 29, .insert 0 "import a from './a'\n"]) := by decide +kernel
  refine ⟨?_, hbound, Dialogue.plays_of_replay hplays, ?_⟩
  · obtain ⟨c, hc, htriple⟩ := Option.map_eq_some_iff.mp hbinder
    simp only [Prod.mk.injEq] at htriple
    obtain ⟨hform, hremoval, hsites⟩ := htriple
    obtain ⟨first, rest, hlist, -, hrest⟩ := List.map_eq_cons_iff.mp hsites
    obtain ⟨second, rfl, hsecond⟩ := List.map_eq_singleton_iff.mp hrest
    simp only [Prod.mk.injEq] at hsecond
    refine ⟨c, hc, hform, second, by simp [hlist], hsecond.1, ?_⟩
    simp only [hremoval, Edit.Covers, Edit.delete]
    omega
  · have hafter : applyEdits pairedNames.source [.delete 0 29, .insert 0 "import a from './a'\n"] =
        Utf8.encode "import a from './a'\n" :=
      (@applyEdits_delete_insert pairedNames.source 0 0 29 (by decide) (by decide) (by decide) _).trans
        (by decide)
    rw [hafter]
    decide +kernel

end ImportAssist
