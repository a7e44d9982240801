import ImportAssist.Proofs.ExportStatements
import ImportAssist.Proofs.Splice

/-!
# The sites of bound names

The names that an import binds are the texts of some of its nodes, its *sites*: the default name, the
name behind a star, and for each specifier of the list in braces the new name or, without one, the name
that is asked for (`ImportClause.localNames_eq`).

That takes import statements that are complete (`Node.IsImport`): a specifier has a name, and a star
has one that is not empty. The grammar reads no others (`imports_isImport`), which is seen from the runs
of its rules: every part of a sequence runs, and leaves its nodes.
-/

namespace ImportAssist

open Syntax

/-! ## Sites -/

namespace ImportClause

/-- The site of the name for the whole module. -/
def wildcardSite? (c : ImportClause) : Option Node :=
  c.wildcard?.bind fun w => (w.childrenOfKind .identifier).getLast?

/-- The site of the name a specifier binds. -/
def specifierSite? (specifier : Node) : Option Node :=
  (specifier.child? .newName).or (specifier.child? .name)

/-- The sites in front of the list in braces. -/
def outerSites (c : ImportClause) : List Node := c.default?.toList ++ c.wildcardSite?.toList

/-- The sites in the list in braces. -/
def listSites (c : ImportClause) : List Node := c.specifiers.filterMap specifierSite?

def sites (c : ImportClause) : List Node := c.outerSites ++ c.listSites

end ImportClause

namespace ImportClause

variable {statement clause list n : Node}

theorem mem_clause (h : (ofStatement statement).clause = some clause) :
    clause ∈ statement.childrenOfKind .importClause := by
  unfold ofStatement at h
  split at h
  · cases h
  · rename_i hlast
    cases h
    exact List.mem_of_getLast? hlast

theorem mem_default (h : (ofStatement statement).default? = some n) :
    ∃ clause, (ofStatement statement).clause = some clause ∧ n ∈ clause.childrenOfKind .identifier := by
  unfold ofStatement at h ⊢
  split at h
  · cases h
  · exact ⟨_, rfl, List.mem_of_getLast? h⟩

theorem mem_wildcard (h : (ofStatement statement).wildcard? = some n) :
    ∃ clause, (ofStatement statement).clause = some clause ∧
      n ∈ clause.childrenOfKind .namespaceImport := by
  unfold ofStatement at h ⊢
  split at h
  · cases h
  · exact ⟨_, rfl, List.mem_of_getLast? h⟩

theorem mem_list (h : (ofStatement statement).list? = some list) :
    ∃ clause, (ofStatement statement).clause = some clause ∧
      list ∈ clause.childrenOfKind .namedImports := by
  unfold ofStatement at h ⊢
  split at h
  · cases h
  · exact ⟨_, rfl, List.mem_of_getLast? h⟩

theorem specifiers_eq (h : (ofStatement statement).list? = some list) :
    (ofStatement statement).specifiers = list.childrenOfKind .importSpecifier := by
  unfold ofStatement at h ⊢
  split at h
  · cases h
  · simp only at h ⊢
    rw [h]

theorem mem_specifiers (h : n ∈ (ofStatement statement).specifiers) :
    ∃ list, (ofStatement statement).list? = some list ∧ n ∈ list.childrenOfKind .importSpecifier := by
  unfold ofStatement at h ⊢
  split at h
  · cases h
  · dsimp only at h ⊢
    split at h
    · rename_i list hlist
      exact ⟨list, hlist, h⟩
    · cases h

end ImportClause

/-- The sites of the names one import binds. -/
def Import.sites (i : Import) : List Node :=
  match i.form with
  | .declaration => (ImportClause.ofStatement i.node).sites
  | .requireDeclaration => (i.node.child? .name).toList.filter fun n => n.hasKind .identifier
  | .requireCall => []

/-- An import statement of which no path and no name is missing, its parts nested and in order. -/
structure Node.IsImport (source : Bytes) (statement : Node) : Prop where
  placed : statement.Placed fun _ => True
  literal : ∃ literal, statement.child? .source = some literal
  wildcard : ∀ w, (ImportClause.ofStatement statement).wildcard? = some w →
    ∃ site, (w.childrenOfKind .identifier).getLast? = some site ∧ site.text source ≠ ""
  specifier : ∀ s ∈ (ImportClause.ofStatement statement).specifiers, ∃ name, s.child? .name = some name

theorem ImportClause.localNames_eq {source : Bytes} {statement : Node} (h : statement.IsImport source) :
    (ImportClause.ofStatement statement).localNames source =
      (ImportClause.ofStatement statement).sites.map fun n => n.text source := by
  have hwhole : (((ImportClause.ofStatement statement).wildcardName? source).filter (· ≠ "")).toList =
      (ImportClause.ofStatement statement).wildcardSite?.toList.map fun n => n.text source := by
    unfold ImportClause.wildcardName? ImportClause.wildcardSite?
    cases hw : (ImportClause.ofStatement statement).wildcard? with
    | none => rfl
    | some w =>
        obtain ⟨site, hsite, hne⟩ := h.wildcard w hw
        simp [hsite, hne]
  have hlist : ∀ specifiers : List Node, (∀ s ∈ specifiers, ∃ name, s.child? .name = some name) →
      specifiers.map (specifierName source) =
        (specifiers.filterMap specifierSite?).map fun n => n.text source := by
    intro specifiers hnamed
    induction specifiers with
    | nil => rfl
    | cons s rest ih =>
        obtain ⟨name, hname⟩ := hnamed s List.mem_cons_self
        obtain ⟨site, hsite, htext⟩ :
            ∃ site, specifierSite? s = some site ∧ specifierName source s = site.text source := by
          unfold specifierSite? specifierName importedName
          cases hnew : s.child? .newName with
          | none => exact ⟨name, by simp [hname], by simp [hname]⟩
          | some new => exact ⟨new, rfl, rfl⟩
        rw [List.map_cons, List.filterMap_cons_some hsite, List.map_cons, htext,
          ih fun s hs => hnamed s (List.mem_cons_of_mem _ hs)]
  rw [ImportClause.localNames, hwhole, hlist _ h.specifier]
  cases hdefault : (ImportClause.ofStatement statement).default? <;>
    simp [ImportClause.sites, ImportClause.outerSites, ImportClause.listSites, hdefault]

theorem Import.names_eq {source : Bytes} {i : Import}
    (h : i.form = .declaration → i.node.IsImport source) :
    i.names source = i.sites.map fun n => n.text source := by
  unfold Import.names Import.sites
  cases hform : i.form with
  | declaration => exact ImportClause.localNames_eq (h hform)
  | requireDeclaration =>
      cases i.node.child? .name with
      | none => rfl
      | some n => by_cases hkind : n.hasKind .identifier <;> simp [hkind]
  | requireCall => rfl

/-! ## Texts that are not empty -/

theorem Node.bytes_length {ok : Nat → Prop} {source : Bytes} {n : Node} (hn : n.Placed ok)
    (hok : ∀ k, ok k → k ≤ source.length) : (n.bytes source).length = n.stop - n.start := by
  have := hok _ hn.ends.2.1
  rw [Node.bytes, List.length_take, List.length_drop]
  omega

theorem Node.text_ne_empty {source : Bytes} {n : Node} (hn : n.Placed (Utf8.IsCut source))
    (hsolid : n.start < n.stop) : n.text source ≠ "" := by
  have hlength := Node.bytes_length hn fun k hk => hk.le_length
  intro hempty
  rw [Node.text, Utf8.decodeLossy, String.ofList_eq_empty_iff, List.map_eq_nil_iff] at hempty
  rw [← Utf8.width_glyphs, hempty, Utf8.width_nil] at hlength
  omega

/-! ## What a run leaves -/

section

variable {σ : Type} {grammar : σ → Rule σ} {endsLine : Char → Bool} {p : Node → Prop}

/-- Wherever the rule runs, it leaves a node of which `p` holds, comments apart. -/
def Leaves (grammar : σ → Rule σ) (endsLine : Char → Bool) (p : Node → Prop) (rule : Rule σ) : Prop :=
  ∀ (fuel : Nat) (place : Place) (c : Cursor) (r : Reading),
    rule.run grammar endsLine fuel place c = some r → ∃ n ∈ r.1, n.hasKind .comment = false ∧ p n

/-- Every part of a sequence runs, and its nodes are among those of the sequence. -/
theorem runSeq_part {run : Rule σ → Cursor → Option Reading} {rule : Rule σ} :
    ∀ {rules : List (Rule σ)} {c : Cursor} {r : Reading}, runSeq run rules c = some r → rule ∈ rules →
      ∃ c' part, run rule c' = some part ∧ ∀ n ∈ part.1, n ∈ r.1
  | [], _, _, _, hmem => nomatch hmem
  | _ :: rules, c, r, h, hmem => by
      obtain ⟨first, more, hfirst, hmore, rfl⟩ := runSeq_cons h
      rcases List.mem_cons.mp hmem with rfl | hmem
      · exact ⟨c, first, hfirst, fun n hn => List.mem_append_left _ hn⟩
      · obtain ⟨c', part, hpart, hsub⟩ := runSeq_part hmore hmem
        exact ⟨c', part, hpart, fun n hn => List.mem_append_right _ (hsub n hn)⟩

theorem Leaves.seq {rule : Rule σ} {rules : List (Rule σ)} (h : Leaves grammar endsLine p rule)
    (hmem : rule ∈ rules) : Leaves grammar endsLine p (.seq rules)
  | 0, _, _, _, hrun => nomatch hrun
  | _ + 1, _, _, _, hrun => by
      obtain ⟨c', part, hpart, hsub⟩ := runSeq_part hrun hmem
      obtain ⟨n, hn, hleft⟩ := h _ _ _ _ hpart
      exact ⟨n, hsub n hn, hleft⟩

theorem leaves_alt {rules : List (Rule σ)} (h : ∀ rule ∈ rules, Leaves grammar endsLine p rule) :
    Leaves grammar endsLine p (.alt rules)
  | 0, _, _, _, hrun => nomatch hrun
  | _ + 1, _, _, _, hrun => by
      obtain ⟨rule, hmem, hrule⟩ := runAlt_mem hrun
      exact h rule hmem _ _ _ _ hrule

theorem leaves_name {kind : Kind} {except : List String} (hkind : kind ≠ .comment) :
    Leaves grammar endsLine (fun n => n.hasKind kind = true) (.name kind except)
  | 0, _, _, _, hrun => nomatch hrun
  | _ + 1, _, _, _, hrun => by
      simp only [Rule.run] at hrun
      split at hrun
      · cases hrun
      · cases hrun
        refine ⟨_, List.mem_append_right _ (List.mem_singleton.mpr rfl), ?_, ?_⟩
        · simpa [Node.hasKind, Node.leaf, Node.label] using hkind
        · simp [Node.hasKind, Node.leaf, Node.label]

theorem leaves_lexeme {kind : Kind} {raw : Bool} {literal : Lexeme.Class} (hkind : kind ≠ .comment) :
    Leaves grammar endsLine (fun n => n.hasKind kind = true) (.lexeme kind raw literal)
  | 0, _, _, _, hrun => nomatch hrun
  | _ + 1, _, _, _, hrun => by
      simp only [Rule.run] at hrun
      obtain ⟨k, -, rfl⟩ := Option.map_eq_some_iff.mp hrun
      refine ⟨_, List.mem_append_right _ (List.mem_singleton.mpr rfl), ?_, ?_⟩
      · simpa [Node.hasKind, Node.leaf, Node.label] using hkind
      · simp [Node.hasKind, Node.leaf, Node.label]

theorem withRole_hasKind (role : Role) (n : Node) (kind : Kind) :
    (n.withRole role).hasKind kind = n.hasKind kind := by
  cases n; rfl

/-- A role is given if there is a node that is no comment. -/
theorem assignRole_gives {role : Role} : ∀ {ns : List Node}, (∃ n ∈ ns, n.hasKind .comment = false) →
    ∃ n ∈ assignRole role ns, n.hasKind .comment = false ∧ n.role = some role
  | [], ⟨_, hn, _⟩ => nomatch hn
  | m :: ns, ⟨n, hn, hnode⟩ => by
      rw [assignRole]
      split
      · rename_i hrest
        rcases List.mem_cons.mp hn with rfl | hn
        · rw [if_neg (by simp [hnode])]
          exact ⟨_, List.mem_cons_self, by rw [withRole_hasKind, hnode], Node.withRole_role ..⟩
        · rw [List.all_eq_true.mp hrest n hn] at hnode
          cases hnode
      · rename_i hrest
        have hlater : ∃ k ∈ ns, k.hasKind .comment = false := by simpa using hrest
        obtain ⟨k, hk, hgiven⟩ := assignRole_gives hlater
        exact ⟨k, List.mem_cons_of_mem _ hk, hgiven⟩

theorem Leaves.role {rule : Rule σ} (h : Leaves grammar endsLine p rule) (role : Role) :
    Leaves grammar endsLine (fun n => n.role = some role) (.role role rule)
  | 0, _, _, _, hrun => nomatch hrun
  | _ + 1, _, _, _, hrun => by
      simp only [Rule.run] at hrun
      obtain ⟨inner, hinner, rfl⟩ := Option.map_eq_some_iff.mp hrun
      obtain ⟨n, hn, hnode, -⟩ := h _ _ _ _ hinner
      exact assignRole_gives ⟨n, hn, hnode⟩

theorem Leaves.imp {q : Node → Prop} {rule : Rule σ} (h : Leaves grammar endsLine p rule)
    (himp : ∀ n, p n → q n) : Leaves grammar endsLine q rule := by
  intro fuel place c r hrun
  obtain ⟨n, hn, hnode, hp⟩ := h fuel place c r hrun
  exact ⟨n, hn, hnode, himp n hp⟩

end

/-! ## Import statements -/

variable {d : Dialect} {source : Bytes} {n : Node}

theorem importStatement_makers (symbol : Symbol) (h : (symbol != .statement) = true) :
    (grammar d symbol).makers (isKind .importStatement) (· != .statement) = [] := by
  cases symbol with
  | statement => cases h
  | _ => cases d <;> rfl

theorem importStatement_made (h : MadeIn d source Grammar.item n)
    (hkind : n.hasKind .importStatement = true) :
    ∃ m, n.Alike m ∧ MadeIn d source (Grammar.importStatement d) m := by
  obtain ⟨part, hpart, m, hm, hmade⟩ := h.maker importStatement_makers hkind
  obtain rfl : part = .call .statement := List.mem_singleton.mp hpart
  cases hmade with
  | call hmade =>
      obtain ⟨part, hpart, m', hm', hmade⟩ := hmade.maker importStatement_makers (hm.1 ▸ hkind)
      obtain rfl : part = Grammar.importStatement d := by
        cases d <;> exact List.mem_singleton.mp hpart
      exact ⟨m', hm.trans hm', hmade⟩

/-- A child of a kind comes from the rule for the kind, if that is the only part that makes it. -/
theorem childOfKind_made {kind parent : Kind} {body rule : Grammar.Production} {c : Node}
    (h : MadeIn d source (.node parent body) n) (hc : c ∈ n.childrenOfKind kind)
    (hunnamed : Unnamed d (isKind kind)) (hcomment : kind ≠ .comment)
    (honly : ∀ part ∈ body.makers (isKind kind) fun _ => true, part = rule) :
    ∃ m, c.Alike m ∧ MadeIn d source rule m := by
  obtain ⟨hmem, hkind⟩ := List.mem_filter.mp hc
  obtain ⟨part, hpart, m, hm, hmade⟩ := (node_children h).maker hunnamed
    (by simpa [isKind] using hcomment.symm) hmem hkind
  exact ⟨m, hm, honly part hpart ▸ hmade⟩

theorem importClause_made (h : MadeIn d source (Grammar.importStatement d) n) {clause : Node}
    (hclause : clause ∈ n.childrenOfKind .importClause) :
    ∃ m, clause.Alike m ∧ MadeIn d source (Grammar.importClause d) m :=
  childOfKind_made h hclause (fun symbol => by cases d <;> cases symbol <;> rfl) nofun fun part hpart => by
    cases d <;> exact List.eq_of_mem_replicate (n := 2) hpart

theorem namespaceImport_made (h : MadeIn d source (Grammar.importClause d) n) {w : Node}
    (hw : w ∈ n.childrenOfKind .namespaceImport) :
    ∃ m, w.Alike m ∧ MadeIn d source Grammar.namespaceImport m :=
  childOfKind_made h hw (fun symbol => by cases d <;> cases symbol <;> rfl) nofun fun part hpart => by
    cases d <;> exact List.eq_of_mem_replicate (n := 2) hpart

theorem namedImports_made (h : MadeIn d source (Grammar.importClause d) n) {list : Node}
    (hlist : list ∈ n.childrenOfKind .namedImports) :
    ∃ m, list.Alike m ∧ MadeIn d source (Grammar.namedImports d) m :=
  childOfKind_made h hlist (fun symbol => by cases d <;> cases symbol <;> rfl) nofun fun part hpart => by
    cases d <;> exact List.eq_of_mem_replicate (n := 2) hpart

theorem importSpecifier_made (h : MadeIn d source (Grammar.namedImports d) n) {s : Node}
    (hs : s ∈ n.childrenOfKind .importSpecifier) :
    ∃ m, s.Alike m ∧ MadeIn d source (Grammar.importSpecifier d) m :=
  childOfKind_made h hs (fun symbol => by cases d <;> cases symbol <;> rfl) nofun fun part hpart => by
    cases d <;> exact List.eq_of_mem_replicate (n := 2) hpart

theorem name_solid {kind : Kind} {except : List String} (h : MadeIn d source (.name kind except) n) :
    n.start < n.stop := by
  cases h with
  | name hc hrest hpos => exact offset_lt_advance hc hrest hpos

/-- Behind a star there is a name. -/
theorem namespaceImport_named (h : MadeIn d source Grammar.namespaceImport n) :
    ∃ site, (n.childrenOfKind .identifier).getLast? = some site ∧ site.start < site.stop := by
  have hsolid : ∀ c ∈ n.childrenOfKind .identifier, c.start < c.stop := by
    intro c hc
    obtain ⟨hmem, hkind⟩ := List.mem_filter.mp hc
    rcases node_children h c hmem with ⟨start, stop, rfl⟩ | hmade
    · cases hkind
    · have hnone : ∀ symbol : Symbol, (fun _ => false) symbol = true →
          (grammar d symbol).makers (isKind .identifier) (fun _ => false) = [] := nofun
      obtain ⟨part, hpart, m, hm, hmade⟩ := hmade.maker hnone hkind
      obtain rfl : part = .name .identifier [] := List.mem_singleton.mp hpart
      rw [hm.2.1, hm.2.2.1]
      exact name_solid hmade
  have hleaves : Leaves (grammar d) d.endsLine (fun n => n.hasKind .identifier = true)
      (.seq [Grammar.sign "*", Grammar.word "as", .name .identifier []]) :=
    Leaves.seq (leaves_name (by decide)) (List.mem_of_mem_getLast? rfl)
  cases h with
  | node hc hrun =>
      obtain ⟨site, hsite, -, hkind⟩ := hleaves _ _ _ _ hrun
      cases hlast : (Node.childrenOfKind _ .identifier).getLast? with
      | none =>
          have hnil := List.filter_eq_nil_iff.mp (List.getLast?_eq_none_iff.mp hlast)
          exact absurd hkind (hnil site hsite)
      | some last => exact ⟨last, rfl, hsolid last (List.mem_of_getLast? hlast)⟩

/-- A specifier has a name that the module is asked for. -/
theorem importSpecifier_named (h : MadeIn d source (Grammar.importSpecifier d) n) :
    ∃ name, n.child? .name = some name := by
  have hplain : Leaves (grammar d) d.endsLine (fun n => n.role = some .name)
      (.role .name (.name .identifier [])) :=
    (leaves_name (by decide)).role .name
  have hexported : Leaves (grammar d) d.endsLine (fun _ => True) Grammar.moduleExportName := by
    refine leaves_alt fun rule hrule => ?_
    simp only [List.mem_cons, List.not_mem_nil, or_false] at hrule
    rcases hrule with rfl | rfl
    · exact (leaves_name (by decide)).imp fun _ _ => trivial
    · exact (leaves_lexeme (by decide)).imp fun _ _ => trivial
  have hrenamed : Leaves (grammar d) d.endsLine (fun n => n.role = some .name)
      (.seq [.role .name Grammar.moduleExportName, Grammar.word "as",
        .role .newName (.name .identifier [])]) :=
    (hexported.role .name).seq List.mem_cons_self
  have hleaves : Leaves (grammar d) d.endsLine (fun n => n.role = some .name)
      (.alt [
        .seq [Grammar.typeWord d, .seq [.role .name Grammar.moduleExportName, Grammar.word "as",
          .role .newName (.name .identifier [])], Grammar.endOfSpecifier],
        .seq [.seq [.role .name Grammar.moduleExportName, Grammar.word "as",
          .role .newName (.name .identifier [])], Grammar.endOfSpecifier],
        .seq [Grammar.typeWord d, .role .name (.name .identifier []), Grammar.endOfSpecifier],
        .seq [.role .name (.name .identifier []), Grammar.endOfSpecifier]]) := by
    refine leaves_alt fun rule hrule => ?_
    simp only [List.mem_cons, List.not_mem_nil, or_false] at hrule
    rcases hrule with rfl | rfl | rfl | rfl
    · exact hrenamed.seq (by simp)
    · exact hrenamed.seq (by simp)
    · exact hplain.seq (by simp)
    · exact hplain.seq (by simp)
  cases h with
  | node hc hrun =>
      obtain ⟨name, hname, -, hrole⟩ := hleaves _ _ _ _ hrun
      exact Option.isSome_iff_exists.mp (List.find?_isSome.mpr ⟨name, hname, by simp [hrole]⟩)

/-! ## The imports of a source -/

/-- A declaration that imports is an import statement as a whole, and imports the path of its literal. -/
theorem Import.declaration_eq {tree : Node} {i : Import} (hi : i ∈ imports source tree)
    (hform : i.form = .declaration) :
    i.node ∈ tree.childrenOfKind .importStatement ∧ ∃ literal path, i.node.child? .source = some literal ∧
      literal.stringValue? source = some path ∧ i = ⟨.declaration, trimSlash path, i.node, i.node⟩ := by
  obtain ⟨statement, hstatement, hi⟩ := List.mem_flatMap.mp hi
  unfold Import.ofStatement at hi
  split at hi
  · rename_i hkind
    split at hi
    · rename_i path hpath
      obtain rfl := List.mem_singleton.mp hi
      obtain ⟨literal, hliteral, hvalue⟩ := Option.bind_eq_some_iff.mp hpath
      exact ⟨List.mem_filter.mpr ⟨hstatement, hkind⟩, literal, path, hliteral, hvalue, rfl⟩
    · cases hi
  · split at hi
    · obtain ⟨declarator, -, hdeclarator⟩ := List.mem_filterMap.mp hi
      obtain ⟨path, -, rfl⟩ := Option.map_eq_some_iff.mp hdeclarator
      cases hform
    · repeat' split at hi
      · obtain rfl := List.mem_singleton.mp hi
        cases hform
      all_goals cases hi

theorem Import.mem_declarations {tree : Node} {i : Import} (hi : i ∈ imports source tree)
    (hform : i.form = .declaration) :
    i.node ∈ tree.childrenOfKind .importStatement ∧ ∃ literal, i.node.child? .source = some literal := by
  obtain ⟨hstatement, literal, -, hliteral, -⟩ := Import.declaration_eq hi hform
  exact ⟨hstatement, literal, hliteral⟩

/-- The import statements of a tree are made by the rule for them. -/
theorem parse_importStatement {language : String} {tree statement : Node}
    (htree : parse source language = some tree)
    (hstatement : statement ∈ tree.childrenOfKind .importStatement) :
    ∃ d m, statement.Alike m ∧ MadeIn d source (Grammar.importStatement d) m := by
  obtain ⟨hmem, hkind⟩ := List.mem_filter.mp hstatement
  obtain ⟨d, ⟨start, stop, rfl⟩ | hbang | hmade⟩ := parse_makes htree hmem
  · cases hkind
  · rw [Node.hasKind, beq_iff_eq] at hbang hkind
    rw [hbang] at hkind
    cases hkind
  · exact ⟨d, importStatement_made hmade hkind⟩

/-- An import statement of a source is complete. -/
theorem imports_isImport {language : String} {tree : Node} (htree : parse source language = some tree)
    {i : Import} (hi : i ∈ imports source tree) (hform : i.form = .declaration) :
    i.node.IsImport source := by
  obtain ⟨hstatement, hliteral⟩ := Import.mem_declarations hi hform
  have hplaced : i.node.Placed (Utf8.IsCut source) := (parse_placed htree).1.ofKind hstatement
  obtain ⟨d, m, hm, hmade⟩ := parse_importStatement htree hstatement
  have hclause : ∀ {clause : Node}, (ImportClause.ofStatement i.node).clause = some clause →
      ∃ k, clause.Alike k ∧ MadeIn d source (Grammar.importClause d) k := fun hclause =>
    importClause_made hmade (hm.childrenOfKind _ ▸ ImportClause.mem_clause hclause)
  refine ⟨hplaced.imp fun _ _ => trivial, hliteral, fun w hw => ?_, fun s hs => ?_⟩
  · obtain ⟨clause, hc, hw'⟩ := ImportClause.mem_wildcard hw
    obtain ⟨k, hk, hmade⟩ := hclause hc
    obtain ⟨k', hk', hmade⟩ := namespaceImport_made hmade (hk.childrenOfKind _ ▸ hw')
    obtain ⟨site, hsite, hsolid⟩ := namespaceImport_named hmade
    rw [← hk'.childrenOfKind] at hsite
    have hin := ((hplaced.ofKind (ImportClause.mem_clause hc)).ofKind hw').ofKind
      (List.mem_of_getLast? hsite)
    exact ⟨site, hsite, Node.text_ne_empty hin hsolid⟩
  · obtain ⟨list, hl, hs'⟩ := ImportClause.mem_specifiers hs
    obtain ⟨clause, hc, hl'⟩ := ImportClause.mem_list hl
    obtain ⟨k, hk, hmade⟩ := hclause hc
    obtain ⟨k', hk', hmade⟩ := namedImports_made hmade (hk.childrenOfKind _ ▸ hl')
    obtain ⟨k'', hk'', hmade⟩ := importSpecifier_made hmade (hk'.childrenOfKind _ ▸ hs')
    obtain ⟨name, hname⟩ := importSpecifier_named hmade
    exact ⟨name, by rw [hk''.child?, hname]⟩

end ImportAssist
