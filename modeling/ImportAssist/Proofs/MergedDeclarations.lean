import ImportAssist.Proofs.JoinedDeclarations

/-!
# Merging into a declaration

What `merge` does to the tree of a declaration is one of the ways for a binding to join the declaration
(`merge_joins`): it looks at the parts of the clause, and these are the parts of the row of tokens.
-/

namespace ImportAssist

namespace Syntax

open Utf8 (glyphOf)

variable {d : Dialect} {decl : Declaration d} {binding : Binding} {tail : Part} {e : Edit} {x path : String}
  {front back text : List Char} {source : Bytes} {statement : Node}

/-! ## Edits -/

theorem merge_no_clause (hclause : ImportClause.ofStatement statement = ⟨none, none, none, none, []⟩)
    (h : merge source statement binding path = .merged e) :
    e = .insert (pathStart statement) (binding.render ++ " from ") := by
  cases binding <;>
    simpa [merge, hclause, ImportClause.wildcardName?, mergeWildcard, mergeNamed, mergeDefault, Binding.render,
      Binding.identifier, eq_comm] using h

theorem merge_default_eq (h : merge source statement (.default x) path = .merged e) :
    (ImportClause.ofStatement statement).default? = none ∧
      e = mergeDefault (ImportClause.ofStatement statement) statement (.default x) := by
  simp only [merge] at h
  split at h
  · cases h
  · rename_i hnone
    cases h
    exact ⟨hnone, rfl⟩

/-- No binding but a default one joins a statement that has a name for the whole module. -/
theorem merge_not_whole {node : Node} {name : String}
    (hwildcard : (ImportClause.ofStatement statement).wildcard? = some node)
    (hname : (ImportClause.ofStatement statement).wildcardName? source = some name) (hne : name ≠ "")
    (hbinding : ∀ x, binding ≠ .default x) : merge source statement binding path ≠ .merged e := by
  have hwhole : ((some name).filter (· ≠ "")) = some name := Option.filter_some_pos (by simpa using hne)
  cases binding with
  | default x => exact absurd rfl (hbinding x)
  | named x | wildcard x =>
      simp only [merge, hname, hwhole, hwildcard]
      intro hmerged
      cases hmerged

theorem merge_named_eq (h : merge source statement (.named x) path = .merged e) :
    e = mergeNamed (ImportClause.ofStatement statement) statement (.named x) := by
  simp only [merge] at h
  split at h
  · cases h
  · split at h
    · cases h
    · cases h
      rfl

theorem merge_wildcard_eq (h : merge source statement (.wildcard x) path = .merged e) :
    e = mergeWildcard (ImportClause.ofStatement statement) statement (.wildcard x) := by
  simp only [merge] at h
  split at h
  · cases h
  · cases h
    rfl

/-- The edit of a change. -/
theorem Joins.edit {lead old new : List Char} (h : Joins decl binding lead old new)
    (hstart : e.start = bytesOf (front ++ lead)) (hstop : e.stop = bytesOf (front ++ (lead ++ old)))
    (htext : e.text = String.ofList new) :
    ∃ change decl', Joined decl binding change decl' ∧ e = change.edit front := by
  obtain ⟨rest, decl', hjoined⟩ := h
  obtain ⟨start, stop, text⟩ := e
  refine ⟨_, decl', hjoined, ?_⟩
  simp only at hstart hstop htext
  rw [hstart, hstop, htext]
  rfl

/-! ## Clauses -/

section

variable {clause : Clause d} {gap before between lead : List Char}

/-- What stands where in a statement with a clause. -/
structure Shown (decl : Declaration d) (clause : Clause d) (gap front text : List Char) (statement : Node) : Prop where
  clause_eq : ImportClause.ofStatement statement = clauseOf (clause.node gap (bytesOf (front ++ decl.lead)))
  text_eq : ∃ back, text = (front ++ decl.lead) ++ ((clause.part gap).chars ++ back)

variable (hwhat : decl.what? = some (gap, clause, before)) (hshown : Shown decl clause gap front text statement)

include hwhat hshown

theorem merge_default_joins (hname : Shape.IsName x)
    (h : merge (Utf8.encode (String.ofList text)) statement (.default x) path = .merged e) :
    ∃ change decl', Joined decl (.default x) change decl' ∧ e = change.edit front := by
  obtain ⟨hnone, rfl⟩ := merge_default_eq h
  rw [hshown.clause_eq, clauseOf_default, Option.map_eq_none_iff] at hnone
  cases clause with
  | named => cases hnone
  | bare old =>
      refine (joins_default hwhat rfl hname).edit ?_ ?_ ?_
      · simp [hshown.clause_eq, mergeDefault, clauseOf, Edit.insert, nodeAt, Node.start, bytesOf_append, Nat.add_assoc]
      · simp [hshown.clause_eq, mergeDefault, clauseOf, Edit.insert, nodeAt, Node.start, bytesOf_append, Nat.add_assoc]
      · simp [hshown.clause_eq, mergeDefault, clauseOf, Edit.insert, Binding.identifier]

/-- A statement with a star is not joined by a name. -/
theorem merge_no_star {asGap nameGap name : List Char}
    (hbindings : clause.bindings? = some (lead, between, .whole asGap nameGap name))
    (hnames : ∀ name ∈ decl.names, name ≠ []) (hbinding : ∀ x, binding ≠ .default x) :
    merge (Utf8.encode (String.ofList text)) statement binding path ≠ .merged e := by
  obtain ⟨back, htext⟩ := hshown.text_eq
  have hmem : name ∈ decl.names := by
    simp [Declaration.names, hwhat, Clause.names, hbindings, Bindings.names, Bindings.star?]
  obtain ⟨hstar, -⟩ := bindings_text htext
  rw [hbindings] at hstar
  have hwildcard := clauseOf_wildcard clause gap (bytesOf (front ++ decl.lead))
  rw [hbindings] at hwildcard
  rw [← hshown.clause_eq] at hstar hwildcard
  refine merge_not_whole hwildcard hstar ?_ hbinding
  simpa using hnames name hmem

/-- Behind a default name. -/
theorem merge_name_joins {name : List Char} {free : String.ofList name ∉ d.reserved} (hclause : clause = .named name free none)
    (hname : Shape.IsName binding.identifier) (hbinding : ∀ x, binding ≠ .default x)
    (h : merge (Utf8.encode (String.ofList text)) statement binding path = .merged e) :
    ∃ change decl', Joined decl binding change decl' ∧ e = change.edit front := by
  subst hclause
  have hdefault := clauseOf_default (.named name free none) gap (bytesOf (front ++ decl.lead))
  have hlist := clauseOf_list (.named name free none) gap (bytesOf (front ++ decl.lead))
  have hspecifiers := clauseOf_specifiers (.named name free none) gap (bytesOf (front ++ decl.lead))
  rw [← hshown.clause_eq] at hdefault hlist hspecifiers
  simp only [Clause.default?, Clause.bindings?, Option.map_some, Option.bind_none] at hdefault hlist
  rw [hlist] at hspecifiers
  dsimp only at hspecifiers
  have hedit : e = .insert ((Node.leaf .identifier (bytesOf (front ++ decl.lead) + bytesOf gap)
      (bytesOf (front ++ decl.lead) + bytesOf gap + bytesOf name)).stop : Nat) (", " ++ binding.render) := by
    cases binding with
    | default x => exact absurd rfl (hbinding x)
    | named x =>
        obtain rfl := merge_named_eq h
        simp only [mergeNamed, hspecifiers, hlist, hdefault, List.getLast?_nil]
    | wildcard x =>
        obtain rfl := merge_wildcard_eq h
        simp only [mergeWildcard, hlist, hdefault]
  subst hedit
  have hoffset : (Node.leaf .identifier (bytesOf (front ++ decl.lead) + bytesOf gap)
      (bytesOf (front ++ decl.lead) + bytesOf gap + bytesOf name)).stop =
        bytesOf (front ++ (decl.lead ++ (gap ++ name))) := by
    simp only [Node.leaf, Node.stop, bytesOf_append, Nat.add_assoc]
  rw [hoffset]
  have hjoins : Joins decl binding (decl.lead ++ (gap ++ name)) [] (", " ++ binding.render).toList := by
    cases binding with
    | default x => exact absurd rfl (hbinding x)
    | named x => exact joins_name hwhat rfl (one_writes hname) rfl
    | wildcard x => exact joins_name hwhat rfl (every_writes hname) rfl
  exact hjoins.edit rfl (by rw [List.append_nil]; rfl) (by rw [String.ofList_toList]; rfl)

variable {items : List (List Char × Specifier d)} {trailing : Option (List Char)} {close : List Char}

omit hwhat in
/-- The list of a statement. -/
theorem list_shown (hbindings : clause.bindings? = some (lead, between, .braces items trailing close)) :
    ∃ list, (ImportClause.ofStatement statement).list? = some list ∧
      list.start = bytesOf (front ++ (decl.lead ++ (gap ++ (lead ++ between)))) ∧
      list.stop = bytesOf (front ++ ((decl.lead ++ (gap ++ (lead ++ between))) ++
        textOf ((Bindings.braces items trailing close).row []))) ∧
      (ImportClause.ofStatement statement).specifiers = ofKind .importSpecifier list.children ∧
      Specifies (Utf8.encode (String.ofList text)) list.children (itemNames items)
        (bytesOf (front ++ (decl.lead ++ (gap ++ (lead ++ (between ++ '\x7b' :: textOf (itemsRow items))))))) := by
  obtain ⟨back, htext⟩ := hshown.text_eq
  let bindings : Bindings d := .braces items trailing close
  let before := front ++ (decl.lead ++ (gap ++ lead))
  have hlist := clauseOf_list clause gap (bytesOf (front ++ decl.lead))
  have hspecifiers := clauseOf_specifiers clause gap (bytesOf (front ++ decl.lead))
  have hoffset : bytesOf (front ++ decl.lead) + bytesOf gap + bytesOf lead = bytesOf before := by
    simp only [before, bytesOf_append, Nat.add_assoc]
  rw [hbindings, Option.bind_some] at hlist
  simp only [Bindings.kind, if_true, hoffset] at hlist
  rw [hlist] at hspecifiers
  have hclause : (clause.part gap).chars = gap ++ clause.inner.chars := rfl
  have hhere : text = before ++ ((bindings.part between).chars ++ back) := by
    rw [htext, hclause, Clause.inner_bindings hbindings]
    simp [before, bindings]
  have hrow : textOf (bindings.row []) = bindings.inner.chars := (bindings.part_chars []).symm
  have hspecifies := Bindings.braces_specifies hhere
  rw [itemsPart_chars] at hspecifies
  rw [hshown.clause_eq]
  refine ⟨_, hlist, ?_, ?_, hspecifiers, ?_⟩
  · simp only [nodeAt, Node.start, before, bytesOf_append, Nat.add_assoc]
  · rw [hrow]
    simp only [nodeAt, Node.stop, before, bindings, bytesOf_append, Nat.add_assoc]
  · simpa [before] using hspecifies

/-- Into a list, or in place of it. -/
theorem merge_list_joins (hbindings : clause.bindings? = some (lead, between, .braces items trailing close))
    (hname : Shape.IsName binding.identifier) (hbinding : ∀ x, binding ≠ .default x)
    (h : merge (Utf8.encode (String.ofList text)) statement binding path = .merged e) :
    ∃ change decl', Joined decl binding change decl' ∧ e = change.edit front := by
  obtain ⟨list, hlist, hstart, hstop, hspecifiers, hspecifies⟩ := list_shown hshown hbindings
  have hreplaced (hedit : e = ⟨list.start, list.stop, binding.render⟩)
      (hjoins : Joins decl binding (decl.lead ++ (gap ++ (lead ++ between)))
        (textOf ((Bindings.braces items trailing close).row [])) binding.render.toList) :
      ∃ change decl', Joined decl binding change decl' ∧ e = change.edit front := by
    subst hedit
    exact hjoins.edit (congrArg Nat.cast hstart) (congrArg Nat.cast hstop) String.ofList_toList.symm
  cases binding with
  | default x => exact absurd rfl (hbinding x)
  | wildcard x =>
      obtain rfl := merge_wildcard_eq h
      refine hreplaced (by simp only [mergeWildcard, hlist]) ?_
      exact joins_bindings hwhat hbindings (every_writes hname) hname rfl
  | named x =>
      have hedit := merge_named_eq h
      cases items with
      | nil =>
          have hnone : (ImportClause.ofStatement statement).specifiers = [] := by
            rw [hspecifiers]
            exact List.map_eq_nil_iff.mp hspecifies.names_eq
          refine hreplaced (by simp only [hedit, mergeNamed, hnone, List.getLast?_nil, hlist]) ?_
          refine joins_bindings hwhat hbindings (one_writes hname) hname ?_
          rw [Clause.names_bindings hbindings]
          cases clause.default? <;> rfl
      | cons item items =>
          obtain ⟨last, hlast⟩ : ∃ last, (ofKind .importSpecifier list.children).getLast? = some last := by
            cases hlast : (ofKind .importSpecifier list.children).getLast? with
            | some last => exact ⟨last, rfl⟩
            | none =>
                have hnames := hspecifies.names_eq
                rw [List.getLast?_eq_none_iff.mp hlast] at hnames
                cases hnames
          have hend := hspecifies.last_stop last hlast
          rw [← hspecifiers] at hlast
          have hinsert : e = .insert last.stop (", " ++ x) := by
            simp only [hedit, mergeNamed, hlast, Binding.identifier]
          subst hinsert
          refine (joins_item hwhat hbindings rfl hname).edit (congrArg Nat.cast hend) ?_ String.ofList_toList.symm
          rw [List.append_nil]
          exact congrArg Nat.cast hend

end

/-! ## Statements -/

/-- A binding that is merged into the tree of a declaration joins the declaration. -/
theorem merge_joins (htail : tail.IsPlain) (hname : Shape.IsName binding.identifier)
    (hnames : ∀ name ∈ decl.names, name ≠ []) (htext : text = front ++ (decl.before ++ (decl.path ++ back)))
    (h : merge (Utf8.encode (String.ofList text)) (decl.node tail (bytesOf front)) binding path = .merged e) :
    ∃ change decl', Joined decl binding change decl' ∧ e = change.edit front := by
  have hclause := @childrenOfKind_clause d decl tail htail (bytesOf front)
  cases hwhat : decl.what? with
  | none =>
      rw [hwhat] at hclause
      have hedit := merge_no_clause (ofStatement_no_clause hclause) h
      have hpath : pathStart (decl.node tail (bytesOf front)) = bytesOf (front ++ decl.before) := by
        rw [pathStart, child_source, bytesOf_append]
        rfl
      rw [hpath] at hedit
      subst hedit
      exact (joins_path hwhat hname).edit rfl (by rw [List.append_nil]; rfl) String.ofList_toList.symm
  | some what =>
      obtain ⟨gap, clause, before⟩ := what
      rw [hwhat] at hclause
      have hshown : Shown decl clause gap front text (decl.node tail (bytesOf front)) := by
        refine ⟨?_, (before ++ ("from".toList ++ decl.gap)) ++ (decl.path ++ back), ?_⟩
        · rw [bytesOf_append]
          exact ofStatement_clause hclause
        · rw [htext, Declaration.before, hwhat]
          simp
      by_cases hdefault : ∃ x, binding = .default x
      · obtain ⟨x, rfl⟩ := hdefault
        exact merge_default_joins hwhat hshown hname h
      · have hbinding : ∀ x, binding ≠ .default x := fun x heq => hdefault ⟨x, heq⟩
        cases hbindings : clause.bindings? with
        | none =>
            cases clause with
            | bare => cases hbindings
            | named name free more =>
                cases more with
                | some => cases hbindings
                | none => exact merge_name_joins hwhat hshown rfl hname hbinding h
        | some found =>
            obtain ⟨lead, between, bindings⟩ := found
            cases bindings with
            | whole => exact absurd h (merge_no_star hwhat hshown hbindings hnames hbinding)
            | braces => exact merge_list_joins hwhat hshown hbindings hname hbinding h

end Syntax

end ImportAssist
