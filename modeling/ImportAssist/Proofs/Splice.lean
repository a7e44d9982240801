import ImportAssist.Proofs.Layout
import ImportAssist.Proofs.Transcript
import ImportAssist.Synthesis.Add

/-!
# Where a new import goes

A new statement goes in front of the first import. If it replaces a binding, one span behind that
place is taken out: a declarator with a gap to its neighbour, or a statement with the rest of its
line. `SplicesIn` says what the document is afterwards, byte for byte, and `inserted_edits_splice`
that every insertion is of that kind.

Two things keep the edits apart. The imports of a document are listed in document order, so the
first one starts before the one whose binding goes; and edits are applied from the back, where the
span that goes comes before a new statement at the same place.
-/

namespace ImportAssist

/-! ## Applying the edits -/

theorem slicePosition_natCast (length k : Nat) : slicePosition length k = min k length := by
  rw [slicePosition, if_neg (by omega), Int.toNat_natCast]

theorem applyEdits_insert {source : Bytes} {i : Nat} (hi : i ≤ source.length) (text : String) :
    applyEdits source [.insert i text] =
      source.take i ++ Utf8.encode text ++ source.drop i := by
  simp [applyEdits, Edit.apply, Edit.insert, slicePosition_natCast, Nat.min_eq_left hi]

/-- A deletion behind an insertion is applied first, also where both start at the same offset. -/
theorem applyEdits_delete_insert {source : Bytes} {i start stop : Nat} (hi : i ≤ start)
    (hstart : start ≤ stop) (hstop : stop ≤ source.length) (text : String) :
    applyEdits source [.delete start stop, .insert i text] =
      source.take i ++ Utf8.encode text ++ (source.drop i).take (start - i) ++ source.drop stop := by
  have hlater : Edit.later (.delete start stop) (.insert i text) = true := by
    simp [Edit.later, Edit.delete, Edit.insert]
    omega
  have hsort : [Edit.delete start stop, .insert i text].mergeSort Edit.later =
      [.delete start stop, .insert i text] :=
    List.mergeSort_of_pairwise (by simpa using hlater)
  have hdeleted : Edit.apply source (.delete start stop) = source.take start ++ source.drop stop := by
    simp [Edit.apply, Edit.delete, slicePosition_natCast, Utf8.encode, Nat.min_eq_left hstop,
      Nat.min_eq_left (Nat.le_trans hstart hstop)]
  have hlen : (source.take start ++ source.drop stop).length = start + (source.length - stop) := by
    simp [Nat.min_eq_left (Nat.le_trans hstart hstop)]
  have hpos : slicePosition (source.take start ++ source.drop stop).length i = i := by
    rw [slicePosition_natCast, hlen]
    omega
  have htake : (source.take start).length = start := by
    simp [Nat.min_eq_left (Nat.le_trans hstart hstop)]
  rw [applyEdits, hsort, List.foldl_cons, List.foldl_cons, List.foldl_nil, hdeleted, Edit.apply]
  simp only [Edit.insert, hpos]
  rw [List.take_append_of_le_length (by omega), List.drop_append_of_le_length (by omega),
    List.take_take, Nat.min_eq_left hi, List.drop_take, List.append_assoc, List.append_assoc,
    List.append_assoc]

/-! ## The imports of a tree -/

/-- An import belongs to its statement; one that is not the whole statement is one of several
declarators. -/
theorem Import.ofStatement_spec {source : Bytes} {statement : Node} {i : Import}
    (h : i ∈ Import.ofStatement source statement) :
    i.statement = statement ∧
      (i.form = .requireDeclaration → i.node ∈ statement.childrenOfKind .variableDeclarator) := by
  unfold Import.ofStatement at h
  split at h
  · split at h
    · obtain rfl := List.mem_singleton.mp h
      exact ⟨rfl, nofun⟩
    · cases h
  · split at h
    · obtain ⟨declarator, hmem, hdecl⟩ := List.mem_filterMap.mp h
      obtain ⟨path, -, rfl⟩ := Option.map_eq_some_iff.mp hdecl
      exact ⟨rfl, fun _ => hmem⟩
    · split at h
      · split at h
        · split at h
          · obtain rfl := List.mem_singleton.mp h
            exact ⟨rfl, nofun⟩
          · cases h
        · cases h
      · cases h

theorem mem_imports {source : Bytes} {root : Node} {i : Import} (h : i ∈ imports source root) :
    i.statement ∈ root.children ∧
      (i.form = .requireDeclaration → i.node ∈ i.statement.childrenOfKind .variableDeclarator) := by
  obtain ⟨statement, hmem, hi⟩ := List.mem_flatMap.mp h
  obtain ⟨rfl, hnode⟩ := Import.ofStatement_spec hi
  exact ⟨hmem, hnode⟩

/-- A document with an import has been read. -/
theorem Document.read_of_import {d : Document} {i : Import} (h : i ∈ d.imports) :
    ∃ tree, parse d.source d.language = some tree ∧ d.imports = ImportAssist.imports d.source tree := by
  unfold Document.imports importsIn at h ⊢
  cases htree : parse d.source d.language with
  | none => rw [htree] at h; cases h
  | some tree => exact ⟨tree, rfl, rfl⟩

/-- The imports of a tree are listed in document order. -/
theorem imports_ordered {ok : Nat → Prop} {root : Node} (hroot : root.Placed ok) (source : Bytes) :
    (imports source root).Pairwise fun a b => a.statement.start ≤ b.statement.start := by
  rw [imports, List.pairwise_flatMap]
  refine ⟨fun statement _ => ?_, ?_⟩
  · refine List.pairwise_of_forall_mem_list fun a ha b hb => ?_
    have hsame : a.statement = b.statement :=
      (Import.ofStatement_spec ha).1.trans (Import.ofStatement_spec hb).1.symm
    exact Nat.le_of_eq (congrArg Node.start hsame)
  · refine hroot.row.pairwise.imp_of_mem fun {m n} hm _ hmn a ha b hb => ?_
    rw [(Import.ofStatement_spec ha).1, (Import.ofStatement_spec hb).1]
    exact Nat.le_trans (hroot.row.mem m hm).2.2.ends.2.2 hmn

/-- No import starts before the place of a new one. -/
theorem insertionOffset_le {found : List Import}
    (h : found.Pairwise fun a b => a.statement.start ≤ b.statement.start) {i : Import}
    (hi : i ∈ found) : insertionOffset found ≤ i.statement.start := by
  cases h with
  | nil => cases hi
  | cons hfirst _ =>
      rcases List.mem_cons.mp hi with rfl | hi
      · exact Nat.le_refl _
      · exact hfirst i hi

/-! ## The span that goes -/

/-- From the end of a statement to `stop` there is nothing but white space on one line and perhaps
the line break behind it. -/
def BlankToLineEnd (source : Bytes) (from_ stop : Nat) : Prop :=
  ∃ blanks ending, (source.drop from_).take (stop - from_) = blanks ++ ending ∧
    (∀ b ∈ blanks, Document.isSpaceByte b = true ∧ b ≠ 0x0A) ∧ (ending = [] ∨ ending = [0x0A])

/-- A span is widened over white space only. -/
theorem lineRange_spec (d : Document) (start : Nat) {stop : Nat} (hstop : stop ≤ d.source.length) :
    ∃ last : Nat, d.lineRange start stop = ((start : Int), (last : Int)) ∧ stop ≤ last ∧ last ≤ d.source.length ∧
      BlankToLineEnd d.source stop last := by
  have hfirst : slicePosition d.source.length stop = stop := by
    rw [slicePosition_natCast, Nat.min_eq_left hstop]
  have hrest : (d.source.drop stop).length = d.source.length - stop := List.length_drop
  unfold Document.lineRange
  simp only [hfirst]
  generalize hline : (d.source.drop stop).takeWhile (· ≠ 0x0A) = line
  have hsplit : line ++ (d.source.drop stop).dropWhile (· ≠ 0x0A) = d.source.drop stop := by
    rw [← hline, List.takeWhile_append_dropWhile]
  have hbreak : ∀ b ∈ line, b ≠ 0x0A := by
    intro b hb
    rw [← hline] at hb
    simpa using List.all_eq_true.mp List.all_takeWhile b hb
  split
  · exact ⟨stop, rfl, Nat.le_refl _, hstop, [], [], by simp, nofun, .inl rfl⟩
  · rename_i hblank
    have hspace : ∀ b ∈ line, Document.isSpaceByte b = true := by simpa using hblank
    split
    · rename_i hshort
      obtain ⟨b, tail, htail⟩ : ∃ b tail, (d.source.drop stop).dropWhile (· ≠ 0x0A) = b :: tail := by
        cases hdrop : (d.source.drop stop).dropWhile (· ≠ 0x0A) with
        | nil =>
            rw [← hsplit, hdrop, List.append_nil] at hshort
            exact absurd hshort (Nat.lt_irrefl _)
        | cons b tail => exact ⟨b, tail, rfl⟩
      have hb : b = 0x0A := by
        have := List.head?_dropWhile_not (· ≠ 0x0A) (d.source.drop stop)
        rw [htail] at this
        simpa using this
      refine ⟨stop + line.length + 1, rfl, by omega, by omega, line, [0x0A], ?_,
        fun b hb => ⟨hspace b hb, hbreak b hb⟩, .inr rfl⟩
      rw [← hsplit, htail, hb, show stop + line.length + 1 - stop = line.length + 1 by omega]
      simp [List.take_append, List.take_of_length_le]
    · rename_i hlong
      have hall : line = d.source.drop stop := by
        rw [← hsplit, List.self_eq_append_right, ← List.length_eq_zero_iff]
        have := congrArg List.length hsplit
        rw [List.length_append] at this
        omega
      refine ⟨d.source.length, rfl, hstop, Nat.le_refl _, line, [], ?_,
        fun b hb => ⟨hspace b hb, hbreak b hb⟩, .inl rfl⟩
      rw [hall, List.append_nil, List.take_of_length_le (by omega)]

/-- Whether a declaration has other declarators beside the one that imports. -/
def Import.Shares (i : Import) : Prop :=
  i.form = .requireDeclaration ∧ 1 < (i.statement.childrenOfKind .variableDeclarator).length

/-- The span between neighbours when one of several declarators goes. -/
theorem removalRange_shares {ok : Nat → Prop} {d : Document} {i : Import}
    (hplaced : i.statement.Placed ok) (hshares : i.Shares)
    (hnode : i.node ∈ i.statement.childrenOfKind .variableDeclarator) :
    ∃ start stop : Nat, removalRange d i = ((start : Int), (stop : Int)) ∧
      i.statement.start ≤ start ∧ start ≤ stop ∧ stop ≤ i.statement.stop := by
  obtain ⟨hform, hmany⟩ := hshares
  simp only [removalRange, hform, hmany, decide_true, Bool.and_self, if_true]
  generalize hds : i.statement.childrenOfKind .variableDeclarator = ds at hmany hnode ⊢
  have hmem : ∀ n ∈ ds, i.statement.start ≤ n.start ∧ n.stop ≤ i.statement.stop ∧ n.Placed ok := by
    intro n hn
    rw [← hds] at hn
    exact hplaced.row.mem n (List.mem_filter.mp hn).1
  have hpair : ds.Pairwise fun a b => a.stop ≤ b.start := by
    rw [← hds]
    exact hplaced.row.pairwise.filter _
  have hpos : ds.findIdx (·.start == i.node.start) < ds.length :=
    List.findIdx_lt_length_of_exists ⟨i.node, hnode, by simp⟩
  have hhere : (ds[ds.findIdx (·.start == i.node.start)]).start = i.node.start := by
    simpa using List.findIdx_getElem (w := hpos)
  generalize ds.findIdx (·.start == i.node.start) = k at hpos hhere ⊢
  have hk := hmem ds[k] (List.getElem_mem hpos)
  have hi := hmem i.node hnode
  split
  · rename_i next hnext
    obtain ⟨hlt, rfl⟩ := List.getElem?_eq_some_iff.mp hnext
    have hgap := List.pairwise_iff_getElem.mp hpair k (k + 1) hpos hlt (Nat.lt_succ_self k)
    have hnext := hmem _ (List.getElem_mem hlt)
    have := hk.2.2.ends.2.2
    have := hnext.2.2.ends.2.2
    exact ⟨i.node.start, ds[k + 1].start, rfl, hi.1, by omega, by omega⟩
  · rename_i hnone
    have hlast : ds.length ≤ k + 1 := by simpa using hnone
    have hprev : k - 1 < ds.length := by omega
    rw [List.getElem?_eq_getElem hprev]
    have hgap := List.pairwise_iff_getElem.mp hpair (k - 1) k hprev hpos (by omega)
    have hprev := hmem _ (List.getElem_mem hprev)
    have := hprev.2.2.ends.2.2
    have := hi.2.2.ends.2.2
    exact ⟨ds[k - 1].stop, i.node.stop, rfl, by omega, by omega, hi.2.1⟩

/-- What goes with a binding that is replaced. -/
theorem removalRange_spec {d : Document} {i : Import}
    (hplaced : i.statement.Placed (· ≤ d.source.length))
    (hnode : i.form = .requireDeclaration →
      i.node ∈ i.statement.childrenOfKind .variableDeclarator) :
    ∃ start stop : Nat, removalRange d i = ((start : Int), (stop : Int)) ∧
      i.statement.start ≤ start ∧ start ≤ stop ∧ stop ≤ d.source.length ∧
      (i.Shares ∨ start = i.statement.start ∧ i.statement.stop ≤ stop ∧
        BlankToLineEnd d.source i.statement.stop stop) := by
  have hends := hplaced.ends
  by_cases hshares : i.Shares
  · obtain ⟨start, stop, hrange, hstart, hle, hstop⟩ :=
      removalRange_shares (d := d) hplaced hshares (hnode hshares.1)
    exact ⟨start, stop, hrange, hstart, hle, Nat.le_trans hstop hends.2.1, .inl hshares⟩
  · obtain ⟨last, hrange, hle, hlast, hblank⟩ := lineRange_spec d i.statement.start hends.2.1
    refine ⟨i.statement.start, last, ?_, Nat.le_refl _, Nat.le_trans hends.2.2 hle, hlast,
      .inr ⟨rfl, hle, hblank⟩⟩
    rw [← hrange, removalRange, if_neg]
    simpa [Import.Shares] using hshares

/-! ## Early ends -/

namespace Synthesizer

variable {s : Synthesizer} {d : Document} {found : List Import} {log : List Exchange}

theorem takeExport_stop {name path : String} {exported : List String} {o : Outcome}
    (h : (takeExport name path exported).Plays log (.ok (.stop o))) : o = .cancelled := by
  unfold takeExport chooseExport at h
  split at h
  · cases (Dialogue.plays_done h).2
  · cases h with
    | select h =>
        dsimp only at h
        split at h
        · cases (Dialogue.plays_done h).2
          rfl
        · split at h
          · cases (Dialogue.plays_done h).2
            rfl
          · split at h <;> cases (Dialogue.plays_done h).2

theorem decideByFile_stop {c : FileCandidate} {name path : String} {o : Outcome}
    (h : (s.decideByFile c name path).Plays log (.ok (.stop o))) : o = .cancelled := by
  unfold decideByFile at h
  split at h
  · cases (Dialogue.plays_done h).2
  · split at h
    · cases (Dialogue.plays_done h).2
    · obtain ⟨exported, front, back, -, h, -⟩ := Dialogue.plays_bind h
      split at h
      · cases (Dialogue.plays_done h).2
      · exact takeExport_stop h

/-- Without a binding an addition is over: the import is there, or the user has dismissed it. -/
theorem decide_stop {c : FileCandidate} {name path : String} {o : Outcome}
    (h : (s.decide d found c name path).Plays log (.ok (.stop o))) :
    o = .cancelled ∨ ∃ duplicate focus, o = .alreadyImported duplicate focus := by
  simp only [decide] at h
  split at h
  · obtain ⟨exported, front, back, -, h, -⟩ := Dialogue.plays_bind h
    split at h
    · exact .inl (decideByFile_stop h)
    · split at h
      · cases (Dialogue.plays_done h).2
        exact .inr ⟨_, _, rfl⟩
      · exact .inl (takeExport_stop h)
  · exact .inl (decideByFile_stop h)

theorem decideForm_stop {c : FileCandidate} {name path : String} {o : Outcome}
    (h : (s.decideForm d found c name path).Plays log (.ok (.stop o))) :
    o = .cancelled ∨ ∃ duplicate focus, o = .alreadyImported duplicate focus := by
  rw [decideForm] at h
  split at h
  · exact decide_stop h
  · cases (Dialogue.plays_done h).2

end Synthesizer

theorem merge_ne_inserted {source : Bytes} {statement : Node} {binding : Binding} {path : String}
    {edits : List Edit} : merge source statement binding path ≠ .inserted edits := by
  simp only [merge]
  repeat' split
  all_goals simp

/-! ## What an insertion does -/

/-- Whether a candidate is imported with a statement of its own, and not at the caret. -/
def Candidate.byStatement : Candidate → Bool
  | .package _ => true
  | .file c => c.inFamily || isStylesheet (Path.extension c.path)

/-- The edits put `snippet` in front of the first import, if any, and perhaps take one span out
behind it. Nothing else changes. -/
def SplicesIn (d : Document) (found : List Import) (snippet : String) (edits : List Edit) : Prop :=
  let source := d.source
  let i := (found.head?.map (·.statement.start)).getD 0
  i ≤ source.length ∧ (∀ other ∈ found, i ≤ other.statement.start) ∧
    ((edits = [.insert i snippet] ∧
        applyEdits source edits = source.take i ++ Utf8.encode snippet ++ source.drop i) ∨
      ∃ conflict ∈ found, ∃ start stop : Nat,
        edits = [.delete start stop, .insert i snippet] ∧
        i ≤ start ∧ start ≤ stop ∧ stop ≤ source.length ∧
        applyEdits source edits =
          source.take i ++ Utf8.encode snippet ++ (source.drop i).take (start - i) ++
            source.drop stop ∧
        (conflict.Shares ∨
          start = conflict.statement.start ∧ conflict.statement.stop ≤ stop ∧
            BlankToLineEnd source conflict.statement.stop stop))

/-- Imports listed from a tree that lies inside its source. -/
structure Listed (d : Document) (found : List Import) : Prop where
  ordered : found.Pairwise fun a b => a.statement.start ≤ b.statement.start
  placed : ∀ i ∈ found, i.statement.Placed (· ≤ d.source.length)
  node_mem : ∀ i ∈ found, i.form = .requireDeclaration →
    i.node ∈ i.statement.childrenOfKind .variableDeclarator

theorem listed_of_placed {d : Document} {tree? : Option Node}
    (h : ∀ tree ∈ tree?, tree.Placed (· ≤ d.source.length)) :
    Listed d (importsIn d.source tree?) := by
  cases tree? with
  | none => exact ⟨List.Pairwise.nil, nofun, nofun⟩
  | some tree =>
      have htree := h tree rfl
      exact ⟨imports_ordered htree d.source, fun i hi => (htree.row.mem _ (mem_imports hi).1).2.2,
        fun i hi => (mem_imports hi).2⟩

section

variable {s : Synthesizer} {d : Document} {found : List Import} {log : List Exchange}

theorem insertionOffset_eq (found : List Import) :
    insertionOffset found = (found.head?.map (·.statement.start)).getD 0 := by
  cases found <;> rfl

theorem insertionOffset_le_length (hfound : Listed d found) :
    insertionOffset found ≤ d.source.length := by
  cases found with
  | nil => exact Nat.zero_le _
  | cons first rest => exact (hfound.placed first (List.mem_cons_self ..)).ends.1

theorem splicesIn_insert (hfound : Listed d found) (snippet : String) :
    SplicesIn d found snippet [.insert (insertionOffset found) snippet] := by
  have hi := insertionOffset_le_length hfound
  have hfirst := fun i => insertionOffset_le (i := i) hfound.ordered
  rw [insertionOffset_eq] at hi hfirst ⊢
  exact ⟨hi, hfirst, .inl ⟨rfl, applyEdits_insert hi snippet⟩⟩

theorem splicesIn_replace (hfound : Listed d found) {conflict : Import} (hmem : conflict ∈ found)
    (snippet : String) :
    SplicesIn d found snippet
      [.delete (removalRange d conflict).1 (removalRange d conflict).2,
        .insert (insertionOffset found) snippet] := by
  have hi := insertionOffset_le_length hfound
  have hfirst := fun i => insertionOffset_le (i := i) hfound.ordered
  obtain ⟨start, stop, hrange, hstart, hle, hstop, hspan⟩ :=
    removalRange_spec (hfound.placed conflict hmem) (hfound.node_mem conflict hmem)
  have histart := Nat.le_trans (hfirst conflict hmem) hstart
  rw [insertionOffset_eq] at hi hfirst histart ⊢
  rw [hrange]
  exact ⟨hi, hfirst, .inr ⟨conflict, hmem, start, stop, rfl, histart, hle, hstop,
    applyEdits_delete_insert histart hle hstop snippet, hspan⟩⟩

/-- A new statement goes in front of the imports, whatever is answered about its identifier. -/
theorem Synthesizer.insert_splices (hfound : Listed d found) {binding : Binding} {path : String}
    {edits : List Edit} (h : (s.insert d found binding path).Plays log (.ok (.inserted edits))) :
    SplicesIn d found
      (importStatement binding.render path s.options.form s.options d.lineBreak) edits := by
  simp only [Synthesizer.insert] at h
  split at h
  · cases (Dialogue.plays_done h).2
    exact splicesIn_insert hfound _
  · rename_i conflict hconflict
    cases h with
    | confirmReplace h =>
        dsimp only at h
        split at h
        · cases (Dialogue.plays_done h).2
        · cases (Dialogue.plays_done h).2
          exact splicesIn_insert hfound _
        · cases (Dialogue.plays_done h).2
          exact splicesIn_replace hfound (List.mem_of_find?_eq_some hconflict) _

theorem Synthesizer.carryOut_splices (hfound : Listed d found) {binding : Binding} {path : String}
    {edits : List Edit}
    (h : (s.carryOut d found (.bind binding path)).Plays log (.ok (.inserted edits))) :
    SplicesIn d found
      (importStatement binding.render path s.options.form s.options d.lineBreak) edits := by
  simp only [carryOut] at h
  split at h
  · exact insert_splices hfound h
  · split at h
    · exact absurd (Except.ok.inj (Dialogue.plays_done h).2).symm merge_ne_inserted
    · cases (Dialogue.plays_done h).2

theorem Synthesizer.addModule_splices (hfound : Listed d found) {c : FileCandidate}
    {edits : List Edit} (h : (s.addModule d found c).Plays log (.ok (.inserted edits))) :
    ∃ binding path, SplicesIn d found
      (importStatement binding path s.options.form s.options d.lineBreak) edits := by
  obtain ⟨⟨name, path⟩, -, log, -, h, -⟩ := Dialogue.plays_bind h
  obtain ⟨decision, front, log, hdecision, h, -⟩ := Dialogue.plays_bind h
  cases decision with
  | stop outcome =>
      cases (Dialogue.plays_done h).2
      rcases decideForm_stop hdecision with h | ⟨_, _, h⟩ <;> cases h
  | bind binding path => exact ⟨_, _, carryOut_splices hfound h⟩

theorem Synthesizer.addPackage_splices (hfound : Listed d found) {p : PackageCandidate}
    {edits : List Edit} (h : (s.addPackage d found p).Plays log (.ok (.inserted edits))) :
    ∃ binding path, SplicesIn d found
      (importStatement binding path s.options.form s.options d.lineBreak) edits := by
  simp only [addPackage] at h
  split at h
  · cases (Dialogue.plays_done h).2
  · obtain ⟨name, -, log, -, h, -⟩ := Dialogue.plays_bind h
    cases (Dialogue.plays_done h).2
    exact ⟨_, _, splicesIn_insert hfound _⟩

theorem Synthesizer.addAsset_splices (hfound : Listed d found) {c : FileCandidate}
    (hsheet : isStylesheet (Path.extension c.path) = true) {edits : List Edit}
    (h : (s.addAsset d found c).Plays log (.ok (.inserted edits))) :
    ∃ binding path, SplicesIn d found
      (importStatement binding path s.options.form s.options d.lineBreak) edits := by
  obtain ⟨⟨name, path⟩, -, log, -, h, -⟩ := Dialogue.plays_bind h
  simp only [hsheet, if_true] at h
  split at h
  · cases (Dialogue.plays_done h).2
  · cases (Dialogue.plays_done h).2
    exact ⟨_, _, splicesIn_insert hfound _⟩

theorem Synthesizer.addAmong_splices (hfound : Listed d found) {c : Candidate}
    (hc : c.byStatement = true) {edits : List Edit}
    (h : (s.addAmong d found c).Plays log (.ok (.inserted edits))) :
    ∃ binding path, SplicesIn d found
      (importStatement binding path s.options.form s.options d.lineBreak) edits := by
  cases c with
  | package p => exact addPackage_splices hfound h
  | file c =>
      simp only [addAmong] at h
      split at h
      · exact addModule_splices hfound h
      · rename_i hfamily
        exact addAsset_splices hfound (by simpa [Candidate.byStatement, hfamily] using hc) h

end

/-- An insertion of a module, a package or a stylesheet splices one statement in, for every tree
that lies in order inside the source; and the trees that reading gives do. -/
theorem inserted_edits_splice {s : Synthesizer} {d : Document} {c : Candidate}
    (hc : c.byStatement = true) {log : List Exchange} {edits : List Edit} :
    (∀ tree? : Option Node, (∀ tree ∈ tree?, tree.Placed (· ≤ d.source.length)) →
      (s.addAmong d (importsIn d.source tree?) c).Plays log (.ok (.inserted edits)) →
      ∃ binding path, SplicesIn d (importsIn d.source tree?)
        (importStatement binding path s.options.form s.options d.lineBreak) edits) ∧
    ((s.add d c).Plays log (.ok (.inserted edits)) →
      ∃ binding path, SplicesIn d d.imports
        (importStatement binding path s.options.form s.options d.lineBreak) edits) := by
  refine ⟨fun tree? htree h => s.addAmong_splices (listed_of_placed htree) hc h, fun h => ?_⟩
  refine s.addAmong_splices (listed_of_placed fun tree htree => ?_) hc h
  exact (parse_placed htree).1.imp fun _ hcut => hcut.le_length

/-! ## One of two declarators replaced -/

/-- A document whose only declaration binds two names. -/
def twoDeclarators : Document :=
  ⟨"/ws/app.js", "const a = require('x'), b = require('y')\nrun()\n", "javascript", 0⟩

def replacingSynthesizer : Synthesizer :=
  ⟨{ cwd := "/ws", entries := [(["ws"], .directory), (["ws", "b.js"], .file [])] }, { form := .require }, false⟩

def replacingCandidate : Candidate := .file (.create "/ws" "/ws" {} .javascript "/ws/b.js")

def replacingEdits : List Edit := [.delete 22 40, .insert 0 "const b = require('./b')\n"]

/-- One who lets every binding be replaced. -/
def replacingHost : Dialogue.Host (StateT Unit (Except Failure)) :=
  ⟨fun _ _ => pure none, fun _ => pure (some true), pure [], pure false⟩

/-- Here the first import is the declaration that loses a declarator. -/
theorem two_declarators_splice :
    replacingCandidate.byStatement = true ∧
      ∃ log, (replacingSynthesizer.add twoDeclarators replacingCandidate).Plays log
          (.ok (.inserted replacingEdits)) ∧
        ∃ binding path, SplicesIn twoDeclarators twoDeclarators.imports
          (importStatement binding path replacingSynthesizer.options.form
            replacingSynthesizer.options twoDeclarators.lineBreak) replacingEdits := by
  have hc : replacingCandidate.byStatement = true := by decide +kernel
  have hrun : ((Dialogue.run replacingHost
      (replacingSynthesizer.add twoDeclarators replacingCandidate)).run ()).toOption.map (·.1) =
      some (.inserted replacingEdits) := by decide +kernel
  obtain ⟨log, hlog⟩ := Dialogue.plays_of_result hrun
  exact ⟨hc, log, hlog, (inserted_edits_splice hc).2 hlog⟩

end ImportAssist
