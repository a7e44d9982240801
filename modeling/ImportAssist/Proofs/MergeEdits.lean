import ImportAssist.Proofs.BindingSites
import ImportAssist.Proofs.EditBatches
import ImportAssist.Proofs.PathLiterals
import ImportAssist.Synthesis.Merge

/-!
# What joining an import touches

`merge` anchors its edit at one of the parts of the statement: behind the last specifier, behind the
default name, in front of the clause, in front of the path, or in place of the list in braces. The parts
lie apart, so the edit spares every part but the list that it replaces (`MergesInto`), and of the names
that the statement binds only those of that list go. The others are read in the new document where the edit moves
them (`MergesInto.kept_bytes`).

`merge_spec` says when there is an edit, and which: there is none if and only if the statement imports
the binding already.
-/

namespace ImportAssist

open Syntax

/-! ## Edits and nodes -/

namespace Edit

/-- The span lies in front of the node or behind it. An insertion spares a node unless it lies inside. -/
def Spares (e : Edit) (n : Node) : Prop := (n.stop : Int) ≤ e.start ∨ e.stop ≤ n.start

/-- The whole node is in the span. -/
def Covers (e : Edit) (n : Node) : Prop := e.start ≤ n.start ∧ (n.stop : Int) ≤ e.stop

/-- The span is that of the node. -/
def Replaces (e : Edit) (n : Node) : Prop := e.start = n.start ∧ e.stop = n.stop

variable {e : Edit} {a n m : Node}

theorem Spares.inside (h : e.Spares n) (hm : n.start ≤ m.start ∧ m.stop ≤ n.stop) : e.Spares m := by
  unfold Spares at h ⊢
  omega

theorem Replaces.covers (h : e.Replaces a) (hn : a.start ≤ n.start ∧ n.stop ≤ a.stop) : e.Covers n := by
  unfold Covers
  obtain ⟨hstart, hstop⟩ := h
  omega

theorem Covers.inside (h : e.Covers n) (hm : n.start ≤ m.start ∧ m.stop ≤ n.stop) : e.Covers m := by
  unfold Covers at h ⊢
  omega

/-- An edit of one node spares what lies apart from it. -/
theorem spares_of_apart (hin : (a.start : Int) ≤ e.start ∧ e.stop ≤ a.stop) (h : a.Apart n) :
    e.Spares n := by
  unfold Spares
  unfold Node.Apart at h
  omega

end Edit

/-! ## The parts of an import statement -/

namespace ImportClause

/-- The default name, the name for the whole module with its star, and the specifiers. -/
def parts (c : ImportClause) : List Node := c.default?.toList ++ c.wildcard?.toList ++ c.specifiers

/-- The sites that a binding takes the place of. -/
def replacedSites (c : ImportClause) : Binding → List Node
  | .wildcard _ => c.listSites
  | _ => []

/-- The sites that stay when a binding is added. -/
def keptSites (c : ImportClause) : Binding → List Node
  | .wildcard _ => c.outerSites
  | _ => c.sites

/-- A binding takes the place of sites of the statement, and the others stay. -/
theorem keptSites_append_replacedSites (c : ImportClause) (binding : Binding) :
    c.keptSites binding ++ c.replacedSites binding = c.sites := by
  cases binding <;> simp [keptSites, replacedSites, sites]

/-- The statement imports what a binding asks for. -/
def Has (c : ImportClause) (source : Bytes) : Binding → Prop
  | .default _ => c.default?.isSome
  | .named x => c.wildcard?.isSome ∨ ∃ s ∈ c.specifiers, importedName source s = x
  | .wildcard _ => c.wildcard?.isSome

end ImportClause

section

variable {source : Bytes} {statement clause list n m s : Node}

namespace Node.IsImport

open ImportClause

theorem clause_inside (h : statement.IsImport source) (hc : (ofStatement statement).clause = some clause) :
    (clause.Placed fun _ => True) ∧ statement.start ≤ clause.start ∧ clause.stop ≤ statement.stop := by
  have hmem := (List.mem_filter.mp (mem_clause hc)).1
  exact ⟨h.placed.child hmem, h.placed.inside hmem⟩

/-- Children of the clause are one or lie apart. -/
theorem clause_apart (h : statement.IsImport source) (hc : (ofStatement statement).clause = some clause)
    {kind kind' : Kind} (hn : n ∈ clause.childrenOfKind kind) (hm : m ∈ clause.childrenOfKind kind')
    (hkinds : kind ≠ kind') : n.Apart m := by
  obtain ⟨hn, hkind⟩ := List.mem_filter.mp hn
  obtain ⟨hm, hkind'⟩ := List.mem_filter.mp hm
  refine ((h.clause_inside hc).1.row.apart hn hm).resolve_left ?_
  rintro rfl
  rw [Node.hasKind, beq_iff_eq] at hkind hkind'
  exact hkinds (Label.kind.inj (hkind.symm.trans hkind'))

theorem default_apart_wildcard (h : statement.IsImport source)
    (hn : (ofStatement statement).default? = some n) (hm : (ofStatement statement).wildcard? = some m) :
    n.Apart m := by
  obtain ⟨clause, hc, hn⟩ := mem_default hn
  obtain ⟨_, hc', hm⟩ := mem_wildcard hm
  obtain rfl := Option.some.inj (hc.symm.trans hc')
  exact h.clause_apart hc hn hm (by decide)

theorem list_apart (h : statement.IsImport source) (hl : (ofStatement statement).list? = some list)
    (hn : (ofStatement statement).default? = some n ∨ (ofStatement statement).wildcard? = some n) :
    list.Apart n := by
  obtain ⟨clause, hc, hl⟩ := mem_list hl
  rcases hn with hn | hn
  · obtain ⟨_, hc', hn⟩ := mem_default hn
    obtain rfl := Option.some.inj (hc.symm.trans hc')
    exact h.clause_apart hc hl hn (by decide)
  · obtain ⟨_, hc', hn⟩ := mem_wildcard hn
    obtain rfl := Option.some.inj (hc.symm.trans hc')
    exact h.clause_apart hc hl hn (by decide)

theorem list_inside (h : statement.IsImport source) (hl : (ofStatement statement).list? = some list) :
    (list.Placed fun _ => True) ∧
      ∃ clause, (ofStatement statement).clause = some clause ∧
        clause.start ≤ list.start ∧ list.stop ≤ clause.stop := by
  obtain ⟨clause, hc, hl⟩ := mem_list hl
  have hmem := (List.mem_filter.mp hl).1
  have hplaced := (h.clause_inside hc).1
  exact ⟨hplaced.child hmem, clause, hc, hplaced.inside hmem⟩

theorem specifier_inside (h : statement.IsImport source) (hs : s ∈ (ofStatement statement).specifiers) :
    ∃ list, (ofStatement statement).list? = some list ∧ list.start ≤ s.start ∧ s.stop ≤ list.stop := by
  obtain ⟨list, hl, hs⟩ := mem_specifiers hs
  exact ⟨list, hl, (h.list_inside hl).1.inside (List.mem_filter.mp hs).1⟩

theorem mem_parts : n ∈ (ofStatement statement).parts ↔
    (ofStatement statement).default? = some n ∨ (ofStatement statement).wildcard? = some n ∨
      n ∈ (ofStatement statement).specifiers := by
  simp [ImportClause.parts]

/-- Every part lies inside the clause. -/
theorem part_inside (h : statement.IsImport source) (hn : n ∈ (ofStatement statement).parts) :
    ∃ clause, (ofStatement statement).clause = some clause ∧ (n.Placed fun _ => True) ∧
      clause.start ≤ n.start ∧ n.stop ≤ clause.stop := by
  rcases mem_parts.mp hn with hn | hn | hs
  · obtain ⟨clause, hc, hn⟩ := mem_default hn
    have hplaced := (h.clause_inside hc).1
    have hmem := (List.mem_filter.mp hn).1
    exact ⟨clause, hc, hplaced.child hmem, hplaced.inside hmem⟩
  · obtain ⟨clause, hc, hn⟩ := mem_wildcard hn
    have hplaced := (h.clause_inside hc).1
    have hmem := (List.mem_filter.mp hn).1
    exact ⟨clause, hc, hplaced.child hmem, hplaced.inside hmem⟩
  · obtain ⟨list, hl, hs'⟩ := mem_specifiers hs
    obtain ⟨hlist, clause, hc, hinside⟩ := h.list_inside hl
    have hin := hlist.inside (List.mem_filter.mp hs').1
    exact ⟨clause, hc, hlist.ofKind hs', by omega, by omega⟩

/-! ## Where an edit is anchored -/

theorem pathStart_inside (h : statement.IsImport source) :
    statement.start ≤ pathStart statement ∧ pathStart statement ≤ statement.stop := by
  obtain ⟨literal, hliteral⟩ := h.literal
  have hinside := h.placed.inside (List.mem_of_find?_eq_some hliteral)
  have := (h.placed.child? hliteral).ends.2.2
  simp only [pathStart, hliteral]
  omega

/-- In front of the path there is no part, or all of them. -/
theorem pathStart_spares (h : statement.IsImport source) (text : String)
    (hn : n ∈ (ofStatement statement).parts) :
    (Edit.insert (pathStart statement) text).Spares n := by
  obtain ⟨literal, hliteral⟩ := h.literal
  obtain ⟨clause, hc, -, hinside⟩ := h.part_inside hn
  have hmem := List.mem_of_find?_eq_some hliteral
  have hclause := (List.mem_filter.mp (mem_clause hc)).1
  simp only [pathStart, hliteral, Edit.Spares, Edit.insert]
  rcases h.placed.row.apart hmem hclause with rfl | hapart
  · omega
  · have := (h.placed.child hmem).ends.2.2
    unfold Node.Apart at hapart
    omega

/-- Behind the default name there is an end of no other part. -/
theorem default_spares (h : statement.IsImport source) {name : Node}
    (hname : (ofStatement statement).default? = some name) (text : String)
    (hn : n ∈ (ofStatement statement).parts) : (Edit.insert name.stop text).Spares n := by
  have hin : (name.start : Int) ≤ (Edit.insert name.stop text).start ∧
      (Edit.insert name.stop text).stop ≤ name.stop := by
    obtain ⟨clause, -, hplaced, -⟩ := h.part_inside (mem_parts.mpr (.inl hname))
    have := hplaced.ends.2.2
    simp only [Edit.insert]
    omega
  rcases mem_parts.mp hn with hn | hn | hs
  · obtain rfl := Option.some.inj (hname.symm.trans hn)
    exact .inl (Int.le_refl _)
  · exact Edit.spares_of_apart hin (h.default_apart_wildcard hname hn)
  · obtain ⟨list, hl, hinside⟩ := h.specifier_inside hs
    exact (Edit.spares_of_apart hin (h.list_apart hl (.inl hname)).symm).inside hinside

/-- An edit of the list spares what stands outside of it. -/
theorem list_spares (h : statement.IsImport source) {e : Edit}
    (hl : (ofStatement statement).list? = some list)
    (hin : (list.start : Int) ≤ e.start ∧ e.stop ≤ list.stop)
    (hn : n ∈ (ofStatement statement).default?.toList ++ (ofStatement statement).wildcard?.toList) :
    e.Spares n := by
  refine Edit.spares_of_apart hin (h.list_apart hl ?_)
  simpa using hn

/-- The last specifier is the last one to end. -/
theorem last_specifier (h : statement.IsImport source) {last : Node}
    (hlast : (ofStatement statement).specifiers.getLast? = some last)
    (hs : s ∈ (ofStatement statement).specifiers) : s.stop ≤ last.stop := by
  have hlastmem := List.mem_of_getLast? hlast
  obtain ⟨list, hl, -⟩ := mem_specifiers hs
  rw [specifiers_eq hl] at hlast hs hlastmem
  have hplaced := (h.list_inside hl).1
  have hpairwise := hplaced.row.pairwise.sublist (List.filter_sublist (p := fun c => c.hasKind .importSpecifier))
  obtain ⟨front, hfront⟩ := List.getLast?_eq_some_iff.mp hlast
  rw [Node.childrenOfKind] at hfront hs
  rw [hfront] at hs hpairwise
  rcases List.mem_append.mp hs with hs | hs
  · have hle := (List.pairwise_append.mp hpairwise).2.2 s hs last (List.mem_singleton.mpr rfl)
    have := (hplaced.ofKind hlastmem).ends.2.2
    omega
  · rw [List.mem_singleton.mp hs]

/-- Behind the last specifier no part ends. -/
theorem last_spares (h : statement.IsImport source) {last : Node}
    (hlast : (ofStatement statement).specifiers.getLast? = some last) (text : String)
    (hn : n ∈ (ofStatement statement).parts) : (Edit.insert last.stop text).Spares n := by
  obtain ⟨list, hl, hinside⟩ := h.specifier_inside (List.mem_of_getLast? hlast)
  obtain ⟨_, _, hplaced, -⟩ := h.part_inside (mem_parts.mpr (.inr (.inr (List.mem_of_getLast? hlast))))
  have hle := hplaced.ends.2.2
  rcases mem_parts.mp hn with hn | hn | hs
  · exact h.list_spares hl (by simp only [Edit.insert]; omega) (by simp [hn])
  · exact h.list_spares hl (by simp only [Edit.insert]; omega) (by simp [hn])
  · exact .inl (Int.ofNat_le.mpr (h.last_specifier hlast hs))

/-- In front of the clause there is no part. -/
theorem clause_spares (h : statement.IsImport source) (hc : (ofStatement statement).clause = some clause)
    (text : String) (hn : n ∈ (ofStatement statement).parts) :
    (Edit.insert clause.start text).Spares n := by
  obtain ⟨_, hc', -, hinside⟩ := h.part_inside hn
  obtain rfl := Option.some.inj (hc.symm.trans hc')
  exact .inr (Int.ofNat_le.mpr hinside.1)

/-! ## Sites -/

theorem specifierSite_inside (h : statement.IsImport source) (hs : s ∈ (ofStatement statement).specifiers)
    (hn : specifierSite? s = some n) : s.start ≤ n.start ∧ n.stop ≤ s.stop := by
  obtain ⟨_, -, hplaced, -⟩ := h.part_inside (mem_parts.mpr (.inr (.inr hs)))
  unfold specifierSite? at hn
  rcases Option.or_eq_some_iff.mp hn with hn | ⟨-, hn⟩
  · exact hplaced.inside (List.mem_of_find?_eq_some hn)
  · exact hplaced.inside (List.mem_of_find?_eq_some hn)

/-- A site outside of the list lies in the default name or in the name for the whole module. -/
theorem outerSite_inside (h : statement.IsImport source) (hn : n ∈ (ofStatement statement).outerSites) :
    ∃ part ∈ (ofStatement statement).default?.toList ++ (ofStatement statement).wildcard?.toList,
      part.start ≤ n.start ∧ n.stop ≤ part.stop := by
  rcases List.mem_append.mp hn with hn | hn
  · exact ⟨n, List.mem_append_left _ hn, Nat.le_refl _, Nat.le_refl _⟩
  · obtain ⟨w, hw, hsite⟩ := Option.bind_eq_some_iff.mp (Option.mem_toList.mp hn)
    obtain ⟨_, -, hplaced, -⟩ := h.part_inside (mem_parts.mpr (.inr (.inl hw)))
    have hmem := (List.mem_filter.mp (List.mem_of_getLast? hsite)).1
    exact ⟨w, List.mem_append_right _ (Option.mem_toList.mpr hw), hplaced.inside hmem⟩

theorem listSite_inside (h : statement.IsImport source) (hn : n ∈ (ofStatement statement).listSites) :
    ∃ s ∈ (ofStatement statement).specifiers, s.start ≤ n.start ∧ n.stop ≤ s.stop := by
  obtain ⟨s, hs, hsite⟩ := List.mem_filterMap.mp hn
  exact ⟨s, hs, h.specifierSite_inside hs hsite⟩

/-- A site lies in a part. -/
theorem site_inside (h : statement.IsImport source) (hn : n ∈ (ofStatement statement).sites) :
    ∃ part ∈ (ofStatement statement).parts, part.start ≤ n.start ∧ n.stop ≤ part.stop := by
  rcases List.mem_append.mp hn with hn | hn
  · obtain ⟨part, hpart, hinside⟩ := h.outerSite_inside hn
    exact ⟨part, List.mem_append_left _ hpart, hinside⟩
  · obtain ⟨s, hs, hinside⟩ := h.listSite_inside hn
    exact ⟨s, List.mem_append_right _ hs, hinside⟩

end Node.IsImport

/-! ## What an edit does -/

/-- The edit adds the binding to the statement and touches no more than it must. -/
structure MergesInto (statement : Node) (binding : Binding) (e : Edit) : Prop where
  within : (statement.start : Int) ≤ e.start ∧ e.start ≤ e.stop ∧ e.stop ≤ statement.stop
  /-- A default name goes in front of the clause, or of the path. -/
  default : ∀ x, binding = .default x →
    e.start = e.stop ∧ (∀ n ∈ (ImportClause.ofStatement statement).parts, e.Spares n) ∧
      (∀ clause, (ImportClause.ofStatement statement).clause = some clause → e.stop ≤ clause.start) ∧
      ((ImportClause.ofStatement statement).clause = none →
        ∀ literal, statement.child? .source = some literal → e.stop ≤ literal.start)
  /-- A name in braces goes behind the others; it takes the place of a list that is empty. -/
  named : ∀ x, binding = .named x →
    (∀ n ∈ (ImportClause.ofStatement statement).parts, e.Spares n) ∧
      (∀ s ∈ (ImportClause.ofStatement statement).specifiers, (s.stop : Int) ≤ e.start) ∧
      (∀ list, (ImportClause.ofStatement statement).list? = some list →
        (ImportClause.ofStatement statement).specifiers = [] → e.Replaces list) ∧
      ((ImportClause.ofStatement statement).list? = none ∨
        (ImportClause.ofStatement statement).specifiers ≠ [] → e.start = e.stop)
  /-- A name for the whole module takes the place of the list. -/
  wildcard : ∀ x, binding = .wildcard x →
    (∀ list, (ImportClause.ofStatement statement).list? = some list → e.Replaces list) ∧
      ((ImportClause.ofStatement statement).list? = none →
        e.start = e.stop ∧ ∀ n ∈ (ImportClause.ofStatement statement).parts, e.Spares n)
  kept : ∀ n ∈ (ImportClause.ofStatement statement).keptSites binding, e.Spares n
  replaced : ∀ n ∈ (ImportClause.ofStatement statement).replacedSites binding, e.Covers n

namespace Node.IsImport

open ImportClause

/-- An insertion that spares the parts spares the sites. -/
theorem sites_spared (h : statement.IsImport source) {e : Edit}
    (hparts : ∀ n ∈ (ofStatement statement).parts, e.Spares n) :
    ∀ n ∈ (ofStatement statement).sites, e.Spares n := by
  intro n hn
  obtain ⟨part, hpart, hinside⟩ := h.site_inside hn
  exact (hparts part hpart).inside hinside

theorem insert_within (h : statement.IsImport source) {offset : Nat} (text : String)
    (hoffset : offset = pathStart statement ∨
      ∃ clause, (ofStatement statement).clause = some clause ∧
        clause.start ≤ offset ∧ offset ≤ clause.stop) :
    (statement.start : Int) ≤ (Edit.insert offset text).start ∧
      (Edit.insert offset text).start ≤ (Edit.insert offset text).stop ∧
      (Edit.insert offset text).stop ≤ statement.stop := by
  simp only [Edit.insert]
  rcases hoffset with rfl | ⟨clause, hc, hinside⟩
  · have := h.pathStart_inside
    omega
  · have := (h.clause_inside hc).2
    omega

theorem mergeDefault_spec (h : statement.IsImport source) (x : String) :
    MergesInto statement (.default x) (mergeDefault (ofStatement statement) statement (.default x)) := by
  obtain ⟨offset, text, hedit, hwithin, hspares, hfront, hpath⟩ :
      ∃ (offset : Nat) (text : String),
        mergeDefault (ofStatement statement) statement (.default x) = .insert offset text ∧
        (offset = pathStart statement ∨ ∃ clause, (ofStatement statement).clause = some clause ∧
          clause.start ≤ offset ∧ offset ≤ clause.stop) ∧
        (∀ n ∈ (ofStatement statement).parts, (Edit.insert offset text).Spares n) ∧
        (∀ clause, (ofStatement statement).clause = some clause → offset ≤ clause.start) ∧
        ((ofStatement statement).clause = none →
          ∀ literal, statement.child? .source = some literal → offset ≤ literal.start) := by
    unfold mergeDefault
    split
    · rename_i clause hc
      refine ⟨clause.start, _, rfl, .inr ⟨clause, hc, Nat.le_refl _, (h.clause_inside hc).1.ends.2.2⟩,
        fun n hn => h.clause_spares hc _ hn, fun clause' hc' => ?_, fun hnone => ?_⟩
      · rw [Option.some.inj (hc.symm.trans hc')]
      · rw [hc] at hnone
        cases hnone
    · rename_i hc
      refine ⟨pathStart statement, _, rfl, .inl rfl, fun n hn => h.pathStart_spares _ hn,
        fun clause' hc' => ?_, fun _ literal hliteral => ?_⟩
      · rw [hc] at hc'
        cases hc'
      · simp [pathStart, hliteral]
  rw [hedit]
  refine ⟨h.insert_within text hwithin, fun _ _ => ⟨rfl, hspares, fun clause hc => ?_,
    fun hnone literal hliteral => ?_⟩, nofun, nofun, h.sites_spared hspares, nofun⟩
  · exact Int.ofNat_le.mpr (hfront clause hc)
  · exact Int.ofNat_le.mpr (hpath hnone literal hliteral)

theorem list_within (h : statement.IsImport source) (hl : (ofStatement statement).list? = some list)
    {e : Edit} (he : e.Replaces list) :
    (statement.start : Int) ≤ e.start ∧ e.start ≤ e.stop ∧ e.stop ≤ statement.stop := by
  obtain ⟨hplaced, clause, hc, hinside⟩ := h.list_inside hl
  have hclause := (h.clause_inside hc).2
  have hends := hplaced.ends.2.2
  obtain ⟨hstart, hstop⟩ := he
  omega

theorem specifiers_nil (hl : (ofStatement statement).list? = none) :
    (ofStatement statement).specifiers = [] := by
  rw [List.eq_nil_iff_forall_not_mem]
  intro s hs
  obtain ⟨list, hlist, -⟩ := mem_specifiers hs
  rw [hl] at hlist
  cases hlist

/-- An edit of the list takes its names and spares the others. -/
theorem outerSites_spared (h : statement.IsImport source) (hl : (ofStatement statement).list? = some list)
    {e : Edit} (he : e.Replaces list) : ∀ n ∈ (ofStatement statement).outerSites, e.Spares n := by
  intro n hn
  obtain ⟨part, hpart, hinside⟩ := h.outerSite_inside hn
  exact (h.list_spares hl ⟨Int.le_of_eq he.1.symm, Int.le_of_eq he.2⟩ hpart).inside hinside

theorem listSites_covered (h : statement.IsImport source) (hl : (ofStatement statement).list? = some list)
    {e : Edit} (he : e.Replaces list) : ∀ n ∈ (ofStatement statement).listSites, e.Covers n := by
  intro n hn
  obtain ⟨s, hs, hinside⟩ := h.listSite_inside hn
  obtain ⟨_, hl', hlist⟩ := h.specifier_inside hs
  obtain rfl := Option.some.inj (hl.symm.trans hl')
  exact (he.covers hlist).inside hinside

/-- A name that is put in behind the specifiers, there being no list that is empty. -/
theorem named_insert (h : statement.IsImport source) {offset : Nat} {text x : String}
    (hwithin : offset = pathStart statement ∨
      ∃ clause, (ofStatement statement).clause = some clause ∧
        clause.start ≤ offset ∧ offset ≤ clause.stop)
    (hspares : ∀ n ∈ (ofStatement statement).parts, (Edit.insert offset text).Spares n)
    (hbehind : ∀ s ∈ (ofStatement statement).specifiers, s.stop ≤ offset)
    (hlist : ∀ list, (ofStatement statement).list? = some list →
      (ofStatement statement).specifiers ≠ []) :
    MergesInto statement (.named x) (.insert offset text) where
  within := h.insert_within text hwithin
  default := nofun
  named _ _ := ⟨hspares, fun s hs => Int.ofNat_le.mpr (hbehind s hs),
    fun list hl hnil => absurd hnil (hlist list hl), fun _ => rfl⟩
  wildcard := nofun
  kept := h.sites_spared hspares
  replaced := nofun

theorem mergeNamed_spec (h : statement.IsImport source) (x : String) :
    MergesInto statement (.named x) (mergeNamed (ofStatement statement) statement (.named x)) := by
  unfold mergeNamed
  split
  case h_1 last hlast =>
    have hmem := List.mem_of_getLast? hlast
    obtain ⟨clause, hc, hplaced, hinside⟩ := h.part_inside (mem_parts.mpr (.inr (.inr hmem)))
    have hends := hplaced.ends.2.2
    exact h.named_insert (.inr ⟨clause, hc, by omega, hinside.2⟩) (fun n hn => h.last_spares hlast _ hn)
      (fun s hs => h.last_specifier hlast hs) fun _ _ => List.ne_nil_of_mem hmem
  case h_2 list hlast hl =>
    have hnil : (ofStatement statement).specifiers = [] := List.getLast?_eq_none_iff.mp hlast
    have hreplaces : Edit.Replaces ⟨list.start, list.stop, Binding.render (.named x)⟩ list := ⟨rfl, rfl⟩
    refine ⟨h.list_within hl hreplaces, nofun, fun _ _ => ⟨?_, ?_, ?_, ?_⟩, nofun, ?_, nofun⟩
    · intro n hn
      rw [ImportClause.parts, hnil, List.append_nil] at hn
      exact h.list_spares hl ⟨Int.le_refl _, Int.le_refl _⟩ hn
    · rw [hnil]
      exact List.forall_mem_nil _
    · intro list' hl' _
      obtain rfl := Option.some.inj (hl.symm.trans hl')
      exact hreplaces
    · rintro (hnone | hne)
      · rw [hl] at hnone
        cases hnone
      · exact absurd hnil hne
    · have hsites : (ofStatement statement).keptSites (.named x) = (ofStatement statement).outerSites := by
        simp [keptSites, sites, listSites, hnil]
      rw [hsites]
      exact h.outerSites_spared hl hreplaces
  case h_3 name hlast hl hname =>
    have hnil := specifiers_nil hl
    obtain ⟨clause, hc, hplaced, hinside⟩ := h.part_inside (mem_parts.mpr (.inl hname))
    have hends := hplaced.ends.2.2
    exact h.named_insert (.inr ⟨clause, hc, by omega, hinside.2⟩) (fun n hn => h.default_spares hname _ hn)
      (by simp [hnil]) (by simp [hl])
  case h_4 hlast hl hname =>
    have hnil := specifiers_nil hl
    exact h.named_insert (.inl rfl) (fun n hn => h.pathStart_spares _ hn) (by simp [hnil]) (by simp [hl])

/-- A name for the whole module, there being no list. -/
theorem wildcard_insert (h : statement.IsImport source) {offset : Nat} {text x : String}
    (hwithin : offset = pathStart statement ∨
      ∃ clause, (ofStatement statement).clause = some clause ∧
        clause.start ≤ offset ∧ offset ≤ clause.stop)
    (hspares : ∀ n ∈ (ofStatement statement).parts, (Edit.insert offset text).Spares n)
    (hl : (ofStatement statement).list? = none) :
    MergesInto statement (.wildcard x) (.insert offset text) where
  within := h.insert_within text hwithin
  default := nofun
  named := nofun
  wildcard _ _ := ⟨fun list hlist => (nomatch hl.symm.trans hlist), fun _ => ⟨rfl, hspares⟩⟩
  kept n hn := h.sites_spared hspares n (List.mem_append_left _ hn)
  replaced := by simp [replacedSites, listSites, specifiers_nil hl]

theorem mergeWildcard_spec (h : statement.IsImport source) (x : String) :
    MergesInto statement (.wildcard x)
      (mergeWildcard (ofStatement statement) statement (.wildcard x)) := by
  unfold mergeWildcard
  split
  case h_1 list hl =>
    have hreplaces : Edit.Replaces ⟨list.start, list.stop, Binding.render (.wildcard x)⟩ list := ⟨rfl, rfl⟩
    refine ⟨h.list_within hl hreplaces, nofun, nofun, fun _ _ => ⟨fun list' hl' => ?_, fun hnone => ?_⟩,
      h.outerSites_spared hl hreplaces, h.listSites_covered hl hreplaces⟩
    · obtain rfl := Option.some.inj (hl.symm.trans hl')
      exact hreplaces
    · rw [hl] at hnone
      cases hnone
  case h_2 name hl hname =>
    obtain ⟨clause, hc, hplaced, hinside⟩ := h.part_inside (mem_parts.mpr (.inl hname))
    have hends := hplaced.ends.2.2
    exact h.wildcard_insert (.inr ⟨clause, hc, by omega, hinside.2⟩)
      (fun n hn => h.default_spares hname _ hn) hl
  case h_3 hl hname =>
    exact h.wildcard_insert (.inl rfl) (fun n hn => h.pathStart_spares _ hn) hl

/-- There is no name for the whole module without its star. -/
theorem whole_none (source : Bytes) (hw : (ofStatement statement).wildcard? = none) :
    ((ofStatement statement).wildcardName? source).filter (· ≠ "") = none := by
  simp [wildcardName?, hw]

theorem whole_eq (h : statement.IsImport source) :
    ((ofStatement statement).wildcard? = none ∧
      ((ofStatement statement).wildcardName? source).filter (· ≠ "") = none) ∨
    ∃ w name, (ofStatement statement).wildcard? = some w ∧
      ((ofStatement statement).wildcardName? source).filter (· ≠ "") = some name := by
  cases hw : (ofStatement statement).wildcard? with
  | none => exact .inl ⟨rfl, whole_none source hw⟩
  | some w =>
      obtain ⟨site, hsite, hne⟩ := h.wildcard w hw
      exact .inr ⟨w, site.text source, rfl, by simp [wildcardName?, hw, hsite, hne]⟩

theorem merge_has (h : statement.IsImport source) (binding : Binding) (path : String)
    (hhas : (ofStatement statement).Has source binding) :
    ∃ duplicate focus, merge source statement binding path = .alreadyImported duplicate focus := by
  cases binding with
  | default x =>
      obtain ⟨name, hname⟩ := Option.isSome_iff_exists.mp hhas
      exact ⟨.module x, Point.ofOffset source name.start, by simp only [merge, hname]⟩
  | wildcard x =>
      rcases h.whole_eq with ⟨hw, -⟩ | ⟨w, name, hw, hwhole⟩
      · simp [Has, hw] at hhas
      · exact ⟨.whole path name, Point.ofOffset source w.start, by simp only [merge, hwhole, hw]⟩
  | named x =>
      rcases h.whole_eq with ⟨hw, hwhole⟩ | ⟨w, name, hw, hwhole⟩
      · obtain ⟨s, hs, hname⟩ : ∃ s ∈ (ofStatement statement).specifiers, importedName source s = x := by
          simpa [Has, hw] using hhas
        cases hfind : (ofStatement statement).specifiers.find? fun s => importedName source s == x with
        | some specifier =>
            exact ⟨.module x, Point.ofOffset source specifier.start, by simp only [merge, hwhole, hfind]⟩
        | none => exact absurd hname (by simpa using List.find?_eq_none.mp hfind s hs)
      · exact ⟨.whole path name, Point.ofOffset source w.start, by simp only [merge, hwhole, hw]⟩

theorem merge_adds_edit (h : statement.IsImport source) (binding : Binding) (path : String)
    (hhas : ¬(ofStatement statement).Has source binding) :
    ∃ e, merge source statement binding path = .merged e ∧ MergesInto statement binding e := by
  cases binding with
  | default x =>
      have hname : (ofStatement statement).default? = none := by simpa [Has] using hhas
      exact ⟨_, by simp only [merge, hname], h.mergeDefault_spec x⟩
  | wildcard x =>
      have hw : (ofStatement statement).wildcard? = none := by simpa [Has] using hhas
      have hwhole := whole_none source hw
      exact ⟨_, by simp only [merge, hwhole], h.mergeWildcard_spec x⟩
  | named x =>
      obtain ⟨hw, hnone⟩ : (ofStatement statement).wildcard? = none ∧
          ∀ s ∈ (ofStatement statement).specifiers, importedName source s ≠ x := by
        simpa [Has, not_or] using hhas
      have hwhole := whole_none source hw
      have hfind : (ofStatement statement).specifiers.find? (fun s => importedName source s == x) = none := by
        rw [List.find?_eq_none]
        exact fun s hs => by simpa using hnone s hs
      exact ⟨_, by simp only [merge, hwhole, hfind], h.mergeNamed_spec x⟩

end Node.IsImport

/-- A name that stays is read in the new document where the edit moves it. -/
theorem MergesInto.kept_bytes {binding : Binding} {e : Edit} (h : MergesInto statement binding e)
    (hlength : statement.stop ≤ source.length)
    (hn : n ∈ (ImportClause.ofStatement statement).keptSites binding) :
    ((applyEdits source [e]).drop (n.start + shift [e] n.start).toNat).take (n.stop - n.start) =
      n.bytes source := by
  have hbatch : Batch source [e] := by
    refine ⟨?_, List.pairwise_singleton _ _⟩
    have := h.within
    simp only [List.forall_mem_singleton]
    omega
  exact hbatch.kept (by simpa [Edit.Spares, or_comm] using h.kept n hn)

/-- A binding is there already, or one edit adds it, which spares every name that need not go. -/
theorem merge_spec (h : statement.IsImport source) (binding : Binding) (path : String) :
    ((ImportClause.ofStatement statement).Has source binding →
      ∃ duplicate focus, merge source statement binding path = .alreadyImported duplicate focus) ∧
    (¬(ImportClause.ofStatement statement).Has source binding →
      ∃ e, merge source statement binding path = .merged e ∧ MergesInto statement binding e) ∧
    (ImportClause.ofStatement statement).localNames source =
      ((ImportClause.ofStatement statement).keptSites binding ++
        (ImportClause.ofStatement statement).replacedSites binding).map fun n => n.text source := by
  refine ⟨h.merge_has binding path, h.merge_adds_edit binding path, ?_⟩
  rw [ImportClause.keptSites_append_replacedSites, ImportClause.localNames_eq h]

end

/-- A default name and a list in braces. -/
def listedImport : Bytes := Utf8.encode "import d, { a as b } from './x'\n"

/-- A second specifier goes behind the first one. -/
theorem listed_import_merged :
    ∃ statement : Node, statement.IsImport listedImport ∧
      merge listedImport statement (.named "c") "./x" = .merged (.insert 18 ", c") ∧
      MergesInto statement (.named "c") (.insert 18 ", c") := by
  have hrun : ((parse listedImport "javascript").map fun tree => (imports listedImport tree).map
      fun i => (i.form, merge listedImport i.node (.named "c") "./x")) =
        some [(.declaration, .merged (.insert 18 ", c"))] := by decide +kernel
  obtain ⟨tree, htree, hfound⟩ := Option.map_eq_some_iff.mp hrun
  obtain ⟨i, hi, hpair⟩ := List.map_eq_singleton_iff.mp hfound
  obtain ⟨hform, hmerge⟩ := Prod.mk.inj hpair
  have himport : i.node.IsImport listedImport :=
    imports_isImport htree (by rw [hi]; exact List.mem_singleton.mpr rfl) hform
  refine ⟨i.node, himport, hmerge, ?_⟩
  obtain ⟨hthere, hadded, -⟩ := merge_spec himport (.named "c") "./x"
  by_cases hhas : (ImportClause.ofStatement i.node).Has listedImport (.named "c")
  · obtain ⟨duplicate, focus, halready⟩ := hthere hhas
    cases hmerge.symm.trans halready
  · obtain ⟨e, hadds, hinto⟩ := hadded hhas
    cases hmerge.symm.trans hadds
    exact hinto

end ImportAssist
