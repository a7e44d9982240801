import ImportAssist.Proofs.Declarations
import ImportAssist.Proofs.MergedStatements

/-!
# The names of a declaration

A declaration that stands somewhere in a text is read as a tree. The tree binds the names that can be read
off the row of tokens (`localNames_declaration`), and its path is the last token (`Declaration.path_eq`).
-/

namespace ImportAssist

namespace Syntax

open Grammar (Production)
open Utf8 (glyphOf)

/-! ## Nodes of a kind -/

/-- The nodes of one kind. -/
def ofKind (kind : Kind) (ns : List Node) : List Node := ns.filter fun n => n.hasKind kind

section

variable {kind : Kind} {o : Nat} {gap chars : List Char} {a b : Part}

theorem Part.nodes_append (a b : Part) (o : Nat) :
    (a ++ b).nodes o = a.nodes o ++ b.nodes (o + bytesOf a.chars) := rfl

theorem ofKind_append (ns ms : List Node) : ofKind kind (ns ++ ms) = ofKind kind ns ++ ofKind kind ms :=
  List.filter_append ..

theorem commentsOf_isComment : ∀ n ∈ commentsOf o gap, n.IsComment := trivia_comments _ _

theorem ofKind_commentsOf (hkind : kind ≠ .comment) : ofKind kind (commentsOf o gap) = [] := by
  refine List.filter_eq_nil_iff.mpr fun n hn => ?_
  obtain ⟨start, stop, rfl⟩ := commentsOf_isComment n hn
  simpa [Node.hasKind, Node.label, Node.leaf] using hkind.symm

/-- The node that a part makes behind its gap. -/
def nodeAt (made : Kind) (gap : List Char) (inner : Part) (o : Nat) : Node :=
  .mk (.kind made) none (o + bytesOf gap) (o + bytesOf gap + bytesOf inner.chars) (inner.nodes (o + bytesOf gap))

theorem ofKind_node {made : Kind} {inner : Part} (hkind : kind ≠ .comment) :
    ofKind kind ((Part.node made gap inner).nodes o) =
      if made = kind then [nodeAt made gap inner o] else [] := by
  have hnodes : (Part.node made gap inner).nodes o = commentsOf o gap ++ [nodeAt made gap inner o] := rfl
  rw [hnodes, ofKind_append, ofKind_commentsOf hkind, List.nil_append]
  by_cases heq : made = kind
  · simp [ofKind, nodeAt, Node.hasKind, Node.label, heq]
  · simp [ofKind, nodeAt, Node.hasKind, Node.label, heq]

theorem ofKind_token {text : String} (hkind : kind ≠ .comment) :
    ofKind kind ((Part.token gap chars (Node.token text)).nodes o) = [] := by
  have hnodes : (Part.token gap chars (Node.token text)).nodes o =
      commentsOf o gap ++ [Node.token text (o + bytesOf gap) (o + bytesOf gap + bytesOf chars)] := rfl
  rw [hnodes, ofKind_append, ofKind_commentsOf hkind]
  rfl

theorem ofKind_leaf {made : Kind} (hkind : kind ≠ .comment) :
    ofKind kind ((Part.token gap chars (Node.leaf made)).nodes o) =
      if made = kind then [Node.leaf made (o + bytesOf gap) (o + bytesOf gap + bytesOf chars)] else [] := by
  have hnodes : (Part.token gap chars (Node.leaf made)).nodes o =
      commentsOf o gap ++ [Node.leaf made (o + bytesOf gap) (o + bytesOf gap + bytesOf chars)] := rfl
  rw [hnodes, ofKind_append, ofKind_commentsOf hkind, List.nil_append]
  by_cases heq : made = kind
  · simp [ofKind, Node.leaf, Node.hasKind, Node.label, heq]
  · simp [ofKind, Node.leaf, Node.hasKind, Node.label, heq]

/-- A role goes to a token, not to the comments in front of it. -/
theorem assignRole_token {role : Role} {n : Node} (hn : n.hasKind .comment = false) : ∀ {comments : List Node},
    (∀ c ∈ comments, c.IsComment) → assignRole role (comments ++ [n]) = comments ++ [n.withRole role]
  | [], _ => by simp [assignRole, hn]
  | c :: comments, h => by
      have hrest : ((comments ++ [n]).all fun m => m.hasKind .comment) = false := by simp [hn]
      rw [List.cons_append, assignRole, hrest, if_neg Bool.false_ne_true,
        assignRole_token hn fun m hm => h m (List.mem_cons_of_mem _ hm)]
      rfl

theorem nodes_withRole {role : Role} {make : Nat → Nat → Node} (hmake : ∀ i j, (make i j).hasKind .comment = false) :
    ((Part.token gap chars make).withRole role).nodes o =
      commentsOf o gap ++ [(make (o + bytesOf gap) (o + bytesOf gap + bytesOf chars)).withRole role] :=
  assignRole_token (hmake _ _) commentsOf_isComment

end

/-! ## Texts of nodes -/

theorem text_token {n : Node} {front token back text : List Char} (htext : text = front ++ (token ++ back))
    (hstart : n.start = bytesOf front) (hstop : n.stop = bytesOf front + bytesOf token) :
    n.text (Utf8.encode (String.ofList text)) = String.ofList token := by
  rw [htext, ← List.append_assoc, ← List.append_nil (Utf8.encode _)]
  exact text_here hstart (hstop.trans (bytesOf_append ..).symm)

/-! ## Specifiers -/

variable {d : Dialect}

/-- The name that a specifier binds is its last token. -/
def Specifier.name (item : Specifier d) : List Char := ((item.tokens.getLast?).map fun token => token.2.chars).getD []

/-- No node has the role. -/
def Part.Lacks (a : Part) (role : Role) : Prop := ∀ o, ∀ n ∈ a.nodes o, n.role ≠ some role

section

variable {role : Role} {gap chars : List Char} {a b : Part} {s : Segment} {part : List Char → Part}

theorem Part.Lacks.append (ha : a.Lacks role) (hb : b.Lacks role) : (a ++ b).Lacks role := by
  intro o n hn
  rcases List.mem_append.mp hn with hn | hn
  · exact ha _ n hn
  · exact hb _ n hn

theorem lacks_nil : Part.nil.Lacks role := fun _ _ hn => nomatch hn

theorem role_commentsOf {o : Nat} : ∀ n ∈ commentsOf o gap, n.role = none := by
  intro n hn
  obtain ⟨start, stop, rfl⟩ := commentsOf_isComment n hn
  rfl

theorem lacks_token {make : Nat → Nat → Node} (hmake : ∀ i j, (make i j).role = none) :
    (Part.token gap chars make).Lacks role := by
  intro o n hn hrole
  rcases List.mem_append.mp hn with hn | hn
  · rw [role_commentsOf n hn] at hrole
    cases hrole
  · rw [List.mem_singleton.mp hn, hmake] at hrole
    cases hrole

theorem lacks_withRole {given : Role} {make : Nat → Nat → Node} (hmake : ∀ i j, (make i j).hasKind .comment = false)
    (hne : given ≠ role) : ((Part.token gap chars make).withRole given).Lacks role := by
  intro o n hn hrole
  rw [nodes_withRole hmake] at hn
  rcases List.mem_append.mp hn with hn | hn
  · rw [role_commentsOf n hn] at hrole
    cases hrole
  · rw [List.mem_singleton.mp hn, Node.withRole_role] at hrole
    exact hne (Option.some.inj hrole)

theorem wordTest_some {text : String} (h : wordTest text s = some part) :
    s = .word text.toList ∧ part = fun gap => wordPart gap text := by
  rw [wordTest] at h
  split at h
  · rename_i heq
    exact ⟨heq, (Option.some.inj h).symm⟩
  · cases h

theorem typeTest_some (h : typeTest d s = some part) : ∃ text, part = fun gap => wordPart gap text := by
  unfold typeTest at h
  split at h
  · rcases Option.or_eq_some_iff.mp h with h | ⟨-, h⟩
    · exact ⟨_, (wordTest_some h).2⟩
    · exact ⟨_, (wordTest_some h).2⟩
  · cases h

theorem nameTest_some {except : List String} (h : nameTest except s = some part) :
    ∃ name, s = .word name ∧ part = fun gap => namePart gap name := by
  cases s with
  | word name =>
      rw [nameTest] at h
      split at h
      · cases h
      · exact ⟨name, rfl, (Option.some.inj h).symm⟩
  | _ => cases h

theorem roleTest_some {test : TokenTest} (h : test.withRole role s = some part) :
    ∃ plain, test s = some plain ∧ part = fun gap => (plain gap).withRole role := by
  obtain ⟨plain, hplain, rfl⟩ := Option.map_eq_some_iff.mp h
  exact ⟨plain, hplain, rfl⟩

theorem exportTest_lacks (h : exportTest.withRole .name s = some part) (gap : List Char) :
    (part gap).Lacks .newName := by
  obtain ⟨plain, hplain, rfl⟩ := roleTest_some h
  rcases Option.or_eq_some_iff.mp hplain with hname | ⟨-, hstring⟩
  · obtain ⟨name, -, rfl⟩ := nameTest_some hname
    exact lacks_withRole (fun _ _ => rfl) (by decide)
  · cases s with
    | quoted chars =>
        cases hstring
        exact lacks_withRole (fun _ _ => rfl) (by decide)
    | _ => cases hstring

theorem wordPart_lacks (gap : List Char) (text : String) : (wordPart gap text).Lacks role :=
  lacks_token fun _ _ => rfl

theorem matchTokens_cons {test : TokenTest} {tests : List TokenTest} {tokens : Spaced}
    (h : matchTokens (test :: tests) tokens = some a) :
    ∃ gap s more part rest, tokens = (gap, s) :: more ∧ test s = some part ∧
      matchTokens tests more = some rest ∧ a = part gap ++ rest := by
  cases tokens with
  | nil => cases h
  | cons token more =>
      obtain ⟨gap, s⟩ := token
      obtain ⟨part, hpart, hmore⟩ := Option.bind_eq_some_iff.mp h
      obtain ⟨rest, hrest, heq⟩ := Option.map_eq_some_iff.mp hmore
      exact ⟨gap, s, more, part, rest, rfl, hpart, hrest, heq.symm⟩

/-- A last token that is a name. -/
theorem matchTokens_name {tokens : Spaced} (h : matchTokens [(nameTest []).withRole role] tokens = some a) :
    ∃ gap name, tokens = [(gap, .word name)] ∧ a = (namePart gap name).withRole role := by
  obtain ⟨gap, s, more, part, rest, rfl, hpart, hrest, rfl⟩ := matchTokens_cons h
  obtain ⟨plain, hplain, rfl⟩ := roleTest_some hpart
  obtain ⟨name, rfl, rfl⟩ := nameTest_some hplain
  cases more with
  | nil =>
      cases hrest
      exact ⟨gap, name, rfl, Part.append_nil _⟩
  | cons => cases hrest

/-- The name that is asked for, and a new one. -/
theorem matchTokens_renamed {tokens : Spaced}
    (h : matchTokens [exportTest.withRole .name, wordTest "as", (nameTest []).withRole .newName] tokens = some a) :
    ∃ front gap name, tokens.getLast? = some (gap, .word name) ∧
      a = front ++ (namePart gap name).withRole .newName ∧ front.Lacks .newName := by
  obtain ⟨gap₁, s₁, more₁, part₁, rest₁, rfl, hpart₁, hrest₁, rfl⟩ := matchTokens_cons h
  obtain ⟨gap₂, s₂, more₂, part₂, rest₂, rfl, hpart₂, hrest₂, rfl⟩ := matchTokens_cons hrest₁
  obtain ⟨gap, name, rfl, rfl⟩ := matchTokens_name hrest₂
  obtain ⟨-, rfl⟩ := wordTest_some hpart₂
  exact ⟨part₁ gap₁ ++ wordPart gap₂ "as", gap, name, by simp, (Part.append_assoc ..).symm,
    (exportTest_lacks hpart₁ gap₁).append (wordPart_lacks gap₂ "as")⟩

/-- A specifier ends with the name that it binds: a new name, or the name that is asked for. -/
theorem specifierInner_eq {tokens : Spaced} {inner : Part} (h : specifierInner d tokens = some inner) :
    ∃ front gap name role, tokens.getLast? = some (gap, .word name) ∧
      inner = front ++ (namePart gap name).withRole role ∧
      (role = .newName ∧ front.Lacks .newName ∨ role = .name ∧ front.Lacks .newName ∧ front.Lacks .name) := by
  obtain ⟨form, hform, hmatch⟩ := List.exists_of_findSome?_eq_some h
  have hbehind {tests : List TokenTest} (h : matchTokens (typeTest d :: tests) tokens = some inner) :
      ∃ gap s more text rest, tokens = (gap, s) :: more ∧ matchTokens tests more = some rest ∧
        inner = wordPart gap text ++ rest := by
    obtain ⟨gap, s, more, part, rest, rfl, hpart, hrest, rfl⟩ := matchTokens_cons h
    obtain ⟨text, rfl⟩ := typeTest_some hpart
    exact ⟨gap, s, more, text, rest, rfl, hrest, rfl⟩
  simp only [specifierForms, List.mem_cons, List.not_mem_nil, or_false] at hform
  rcases hform with rfl | rfl | rfl | rfl
  · obtain ⟨gap, s, more, text, rest, rfl, hrest, rfl⟩ := hbehind hmatch
    obtain ⟨front, last, name, hlast, rfl, hlacks⟩ := matchTokens_renamed hrest
    refine ⟨wordPart gap text ++ front, last, name, .newName, ?_, (Part.append_assoc ..).symm,
      .inl ⟨rfl, (wordPart_lacks gap text).append hlacks⟩⟩
    rw [List.getLast?_cons, hlast]
    rfl
  · obtain ⟨front, last, name, hlast, rfl, hlacks⟩ := matchTokens_renamed hmatch
    exact ⟨front, last, name, .newName, hlast, rfl, .inl ⟨rfl, hlacks⟩⟩
  · obtain ⟨gap, s, more, text, rest, rfl, hrest, rfl⟩ := hbehind hmatch
    obtain ⟨last, name, rfl, rfl⟩ := matchTokens_name hrest
    exact ⟨wordPart gap text, last, name, .name, rfl, rfl,
      .inr ⟨rfl, wordPart_lacks gap text, wordPart_lacks gap text⟩⟩
  · obtain ⟨last, name, rfl, rfl⟩ := matchTokens_name hmatch
    exact ⟨.nil, last, name, .name, rfl, (Part.nil_append _).symm, .inr ⟨rfl, lacks_nil, lacks_nil⟩⟩

theorem Part.Lacks.find_none (h : a.Lacks role) (o : Nat) :
    (a.nodes o).find? (fun c => c.role == some role) = none :=
  List.find?_eq_none.mpr fun n hn => by simpa using h o n hn

/-- The node of a specifier and the name that it binds. -/
theorem Specifier.node_eq (item : Specifier d) {front back text : List Char}
    (htext : text = front ++ (item.part.chars ++ back)) :
    ∃ node, ofKind .importSpecifier (item.part.nodes (bytesOf front)) = [node] ∧
      node.stop = bytesOf front + bytesOf item.part.chars ∧
      ImportClause.specifierName (Utf8.encode (String.ofList text)) node = String.ofList item.name := by
  obtain ⟨tokens, part, hreads⟩ := item
  cases tokens with
  | nil => cases hreads
  | cons token tokens =>
      obtain ⟨gap, s⟩ := token
      obtain ⟨inner, hinner, rfl⟩ := Option.map_eq_some_iff.mp hreads
      obtain ⟨before, last, name, role, hlast, rfl, hrole⟩ := specifierInner_eq hinner
      have hname : Specifier.name (⟨(gap, s) :: tokens, _, hreads⟩ : Specifier d) = name := by
        cases tokens with
        | nil =>
            cases hlast
            rfl
        | cons token tokens =>
            rw [List.getLast?_cons_cons] at hlast
            simp [Specifier.name, List.getLast?_cons_cons, hlast, Segment.chars]
      dsimp only at htext
      let inner := before ++ (namePart last name).withRole role
      let o := bytesOf front + bytesOf gap
      let leaf := Node.leaf .identifier (o + bytesOf before.chars + bytesOf last)
        (o + bytesOf before.chars + bytesOf last + bytesOf name)
      have hnodes : inner.nodes o = before.nodes o ++
          (commentsOf (o + bytesOf before.chars) last ++ [leaf.withRole role]) := by
        rw [Part.nodes_append, namePart, nodes_withRole fun _ _ => rfl]
      have hfind (role' : Role) (hlacks : before.Lacks role') :
          (nodeAt .importSpecifier gap inner (bytesOf front)).child? role' =
            if role = role' then some (leaf.withRole role) else none := by
        have hcomments : (commentsOf (o + bytesOf before.chars) last).find? (fun c => c.role == some role') = none :=
          List.find?_eq_none.mpr fun n hn => by simp [role_commentsOf n hn]
        change (inner.nodes o).find? (fun c => c.role == some role') = _
        rw [hnodes, List.find?_append, hlacks.find_none, Option.none_or, List.find?_append, hcomments,
          Option.none_or]
        by_cases heq : role = role'
        · simp [heq]
        · simp [heq]
      have hleaf : (leaf.withRole role).text (Utf8.encode (String.ofList text)) = String.ofList name := by
        refine @text_token _ (front ++ (gap ++ (before.chars ++ last))) name back _ ?_ ?_ ?_
        · rw [htext]
          simp [Part.node, Part.withRole, namePart, Part.token, Part.chars_append]
        · simp only [bytesOf_append, leaf, o]
          simp [Node.withRole, Node.leaf, Node.start, Nat.add_assoc]
        · simp only [bytesOf_append, leaf, o]
          simp [Node.withRole, Node.leaf, Node.stop, Nat.add_assoc]
      refine ⟨nodeAt .importSpecifier gap inner (bytesOf front), ?_, ?_, ?_⟩
      · rw [ofKind_node (by decide), if_pos rfl]
      · simp only [nodeAt, Node.stop, Part.node, bytesOf_append, Nat.add_assoc]
        rfl
      · rw [hname, ImportClause.specifierName, ImportClause.importedName]
        rcases hrole with ⟨rfl, hnew⟩ | ⟨rfl, hnew, hplain⟩
        · rw [hfind .newName hnew, if_pos rfl]
          exact hleaf
        · rw [hfind .newName hnew, if_neg (by decide), hfind .name hplain, if_pos rfl]
          exact hleaf

end

/-! ## Lists -/

/-- The specifiers among some nodes bind some names, and the last one ends somewhere. -/
structure Specifies (source : Bytes) (ns : List Node) (names : List (List Char)) (stop : Nat) : Prop where
  names_eq : (ofKind .importSpecifier ns).map (ImportClause.specifierName source) = names.map String.ofList
  last_stop : ∀ last, (ofKind .importSpecifier ns).getLast? = some last → last.stop = stop

theorem specifies_nil {source : Bytes} {ns : List Node} {stop : Nat} (h : ofKind .importSpecifier ns = []) :
    Specifies source ns [] stop := by
  constructor <;> simp [h]

/-- Only the specifiers matter. -/
theorem Specifies.of_ofKind {source : Bytes} {ns ms : List Node} {names : List (List Char)} {stop : Nat}
    (h : Specifies source ns names stop) (heq : ofKind .importSpecifier ms = ofKind .importSpecifier ns) :
    Specifies source ms names stop := by
  constructor
  · rw [heq, h.names_eq]
  · rw [heq]
    exact h.last_stop

theorem Specifies.append {source : Bytes} {ns ms : List Node} {names others : List (List Char)} {stop last : Nat}
    (h : Specifies source ns names stop) (hmore : Specifies source ms others last)
    (hstop : others = [] → stop = last) : Specifies source (ns ++ ms) (names ++ others) last := by
  constructor
  · rw [ofKind_append, List.map_append, h.names_eq, hmore.names_eq, List.map_append]
  · intro node hnode
    rw [ofKind_append, List.getLast?_append] at hnode
    rcases Option.or_eq_some_iff.mp hnode with hnode | ⟨hnone, hnode⟩
    · exact hmore.last_stop node hnode
    · have hempty := hmore.names_eq
      rw [List.getLast?_eq_none_iff.mp hnone, List.map_nil] at hempty
      exact (h.last_stop node hnode).trans (hstop (List.map_eq_nil_iff.mp hempty.symm))

def itemNames (items : List (List Char × Specifier d)) : List (List Char) := items.map fun item => item.2.name

theorem Specifier.specifies (item : Specifier d) {front back text : List Char}
    (htext : text = front ++ (item.part.chars ++ back)) :
    Specifies (Utf8.encode (String.ofList text)) (item.part.nodes (bytesOf front)) [item.name]
      (bytesOf (front ++ item.part.chars)) := by
  obtain ⟨node, hnodes, hstop, hname⟩ := item.node_eq htext
  constructor
  · rw [hnodes, List.map_singleton, hname]
    rfl
  · intro last hlast
    rw [hnodes] at hlast
    obtain rfl := Option.some.inj hlast
    rw [bytesOf_append]
    exact hstop

theorem specifies_more : ∀ {items : List (List Char × Specifier d)} {front back text : List Char},
    text = front ++ ((morePart items).chars ++ back) →
      Specifies (Utf8.encode (String.ofList text)) ((morePart items).nodes (bytesOf front)) (itemNames items)
        (bytesOf (front ++ (morePart items).chars))
  | [], _, _, _, _ => specifies_nil rfl
  | (comma, item) :: items, front, back, text, htext => by
      have hchars : (morePart ((comma, item) :: items)).chars =
          (commaPart comma).chars ++ (item.part.chars ++ (morePart items).chars) := List.append_assoc ..
      have hnodes : (morePart ((comma, item) :: items)).nodes (bytesOf front) =
          (commaPart comma).nodes (bytesOf front) ++
            (item.part.nodes (bytesOf (front ++ (commaPart comma).chars)) ++
              (morePart items).nodes (bytesOf (front ++ (commaPart comma).chars ++ item.part.chars))) := by
        simp only [morePart, Part.nodes_append, Part.chars_append, bytesOf_append, List.append_assoc]
      have hcomma : Specifies (Utf8.encode (String.ofList text)) ((commaPart comma).nodes (bytesOf front)) []
          (bytesOf (front ++ (morePart ((comma, item) :: items)).chars)) :=
        specifies_nil (ofKind_token (by decide))
      have hitem := @Specifier.specifies d item (front ++ (commaPart comma).chars) ((morePart items).chars ++ back)
        text (by rw [htext, hchars]; simp)
      have hmore := @specifies_more items (front ++ (commaPart comma).chars ++ item.part.chars) back text
        (by rw [htext, hchars]; simp)
      have hboth := hitem.append hmore (fun hnil => by
        rw [List.map_eq_nil_iff.mp hnil]
        simp [morePart, Part.nil])
      have hend : front ++ (commaPart comma).chars ++ item.part.chars ++ (morePart items).chars =
          front ++ (morePart ((comma, item) :: items)).chars := by rw [hchars]; simp
      rw [hend] at hboth
      rw [hnodes]
      exact hcomma.append hboth fun _ => rfl

theorem specifies_items {items : List (List Char × Specifier d)} {front back text : List Char}
    (htext : text = front ++ ((itemsPart items).chars ++ back)) :
    Specifies (Utf8.encode (String.ofList text)) ((itemsPart items).nodes (bytesOf front)) (itemNames items)
      (bytesOf (front ++ (itemsPart items).chars)) := by
  cases items with
  | nil => exact specifies_nil rfl
  | cons item items =>
      obtain ⟨comma, item⟩ := item
      have hchars : (itemsPart ((comma, item) :: items)).chars = item.part.chars ++ (morePart items).chars := rfl
      have hitem := @Specifier.specifies d item front ((morePart items).chars ++ back) text
        (by rw [htext, hchars]; simp)
      have hmore := @specifies_more d items (front ++ item.part.chars) back text (by rw [htext, hchars]; simp)
      have hboth := hitem.append hmore (fun hnil => by
        rw [List.map_eq_nil_iff.mp hnil]
        simp [morePart, Part.nil])
      rw [List.append_assoc] at hboth
      rw [itemsPart, Part.nodes_append, ← bytesOf_append]
      exact hboth

/-! ## Stars and lists -/

namespace Bindings

/-- The name for all of the module. -/
def star? : Bindings d → Option (List Char)
  | whole _ _ name => some name
  | braces .. => none

/-- The specifiers of the list. -/
def items : Bindings d → List (List Char × Specifier d)
  | whole .. => []
  | braces items .. => items

def names (bindings : Bindings d) : List (List Char) := bindings.star?.toList ++ itemNames bindings.items

/-- The name behind a star. -/
theorem star_eq {asGap nameGap name front gap back text : List Char}
    (htext : text = front ++ (((whole asGap nameGap name : Bindings d).part gap).chars ++ back)) :
    ∃ site, (nodeAt .namespaceImport gap (whole asGap nameGap name : Bindings d).inner
        (bytesOf front)).childrenOfKind .identifier = [site] ∧
      site.text (Utf8.encode (String.ofList text)) = String.ofList name := by
  let o := bytesOf front + bytesOf gap
  refine ⟨Node.leaf .identifier (o + bytesOf ['*'] + bytesOf (asGap ++ "as".toList) + bytesOf nameGap)
    (o + bytesOf ['*'] + bytesOf (asGap ++ "as".toList) + bytesOf nameGap + bytesOf name), ?_, ?_⟩
  · change ofKind .identifier ((whole asGap nameGap name : Bindings d).inner.nodes o) = _
    rw [inner, Part.nodes_append, Part.nodes_append, ofKind_append, ofKind_append, ofKind_token (by decide),
      wordPart, ofKind_token (by decide), namePart, ofKind_leaf (by decide), if_pos rfl]
    rfl
  · refine @text_token _ (front ++ (gap ++ (['*'] ++ ((asGap ++ "as".toList) ++ nameGap)))) name back _ ?_ ?_ ?_
    · rw [htext]
      simp [part, inner, Part.node, Part.chars_append, Part.token, wordPart, namePart]
    · simp only [bytesOf_append, o, Node.leaf, Node.start, Nat.add_assoc]
    · simp only [bytesOf_append, o, Node.leaf, Node.stop, Nat.add_assoc]

/-- The specifiers of a list. -/
theorem braces_specifies {items : List (List Char × Specifier d)} {trailing : Option (List Char)}
    {close front gap back text : List Char}
    (htext : text = front ++ (((braces items trailing close).part gap).chars ++ back)) :
    Specifies (Utf8.encode (String.ofList text))
      (nodeAt .namedImports gap (braces items trailing close).inner (bytesOf front)).children (itemNames items)
      (bytesOf (front ++ (gap ++ ('\x7b' :: (itemsPart items).chars)))) := by
  let before := front ++ (gap ++ ['\x7b'])
  have hitems := @specifies_items d items before ((trailingPart trailing).chars ++ (close ++ '\x7d' :: back)) text (by
    rw [htext]
    simp [before, part, inner, Part.node, Part.chars_append, Part.token])
  have hend : before ++ (itemsPart items).chars = front ++ (gap ++ ('\x7b' :: (itemsPart items).chars)) := by
    simp [before]
  have htrailing (o : Nat) : ofKind .importSpecifier ((trailingPart trailing).nodes o) = [] := by
    cases trailing with
    | none => rfl
    | some => exact ofKind_token (by decide)
  have hbefore : bytesOf front + bytesOf gap + bytesOf ['\x7b'] = bytesOf before := by
    simp only [before, bytesOf_append, Nat.add_assoc]
  rw [hend] at hitems
  refine hitems.of_ofKind ?_
  change ofKind .importSpecifier ((braces items trailing close).inner.nodes (bytesOf front + bytesOf gap)) = _
  rw [inner, Part.nodes_append, Part.nodes_append, Part.nodes_append, ofKind_append, ofKind_append, ofKind_append,
    ofKind_token (by decide), ofKind_token (by decide), htrailing, List.nil_append, List.append_nil, List.append_nil,
    ← hbefore]
  rfl

end Bindings

/-! ## Clauses -/

namespace Clause

def default? : Clause d → Option (List Char)
  | bare _ => none
  | named name .. => some name

/-- The star or the list, with the text and the gap in front of it. -/
def bindings? : Clause d → Option (List Char × List Char × Bindings d)
  | bare bindings => some ([], [], bindings)
  | named _ _ none => none
  | named name _ (some (comma, gap, bindings)) => some (name ++ (comma ++ [',']), gap, bindings)

def names (clause : Clause d) : List (List Char) :=
  clause.default?.toList ++ clause.bindings?.toList.flatMap fun (_, _, bindings) => bindings.names

/-- The names and the star or list of a clause are its children. -/
theorem ofKind_inner (clause : Clause d) {kind : Kind} (hkind : kind ≠ .comment) (o : Nat) :
    ofKind kind (clause.inner.nodes o) =
      (if kind = .identifier then
        clause.default?.toList.map fun name => Node.leaf .identifier o (o + bytesOf name) else []) ++
      clause.bindings?.toList.flatMap fun (front, gap, bindings) =>
        if bindings.kind = kind then [nodeAt bindings.kind gap bindings.inner (o + bytesOf front)] else [] := by
  have hname (name : List Char) : ofKind kind ((namePart [] name).nodes o) =
      if kind = .identifier then [Node.leaf .identifier o (o + bytesOf name)] else [] := by
    rw [namePart, ofKind_leaf hkind]
    by_cases heq : kind = .identifier
    · rw [if_pos heq, if_pos heq.symm]
      rfl
    · rw [if_neg heq, if_neg fun h => heq h.symm]
  cases clause with
  | bare bindings =>
      have hzero : bytesOf [] = 0 := rfl
      rw [inner, Bindings.part, ofKind_node hkind]
      simp [default?, bindings?, hzero]
  | named name free rest? =>
      cases rest? with
      | none =>
          rw [inner, hname]
          simp [default?, bindings?]
      | some others =>
          obtain ⟨comma, gap, bindings⟩ := others
          have hchars : (namePart [] name).chars = name := rfl
          have hcomma : (commaPart comma).chars = comma ++ [','] := rfl
          rw [inner, Part.nodes_append, Part.nodes_append, ofKind_append, ofKind_append, hname, hchars, hcomma,
            commaPart, ofKind_token hkind, List.nil_append, Bindings.part, ofKind_node hkind]
          simp [default?, bindings?, bytesOf_append, Nat.add_assoc]

end Clause

/-- What is looked up in the node of a clause. -/
def clauseOf (node : Node) : ImportClause :=
  let list? := (node.childrenOfKind .namedImports).getLast?
  { clause := some node
    default? := (node.childrenOfKind .identifier).getLast?
    wildcard? := (node.childrenOfKind .namespaceImport).getLast?
    list? := list?
    specifiers := match list? with
      | some list => list.childrenOfKind .importSpecifier
      | none => [] }

theorem ofStatement_clause {statement node : Node} (h : statement.childrenOfKind .importClause = [node]) :
    ImportClause.ofStatement statement = clauseOf node := by
  rw [ImportClause.ofStatement, h]
  rfl

theorem ofStatement_no_clause {statement : Node} (h : statement.childrenOfKind .importClause = []) :
    ImportClause.ofStatement statement = ⟨none, none, none, none, []⟩ := by
  rw [ImportClause.ofStatement, h]
  rfl

section

variable (clause : Clause d) (gap : List Char) (o : Nat)

/-- The node of a clause. -/
abbrev Clause.node : Node := nodeAt .importClause gap clause.inner o

theorem clauseOf_default : (clauseOf (clause.node gap o)).default? = clause.default?.map fun name =>
    Node.leaf .identifier (o + bytesOf gap) (o + bytesOf gap + bytesOf name) := by
  have hchildren : (clause.node gap o).childrenOfKind .identifier = ofKind .identifier (clause.inner.nodes _) := rfl
  have hnone (bindings : Bindings d) : bindings.kind ≠ .identifier := by cases bindings <;> simp [Bindings.kind]
  rw [clauseOf, hchildren, clause.ofKind_inner (by decide), if_pos rfl]
  cases clause.default? <;> cases clause.bindings? <;> simp [hnone]

theorem clauseOf_wildcard : (clauseOf (clause.node gap o)).wildcard? = clause.bindings?.bind
    fun (front, before, bindings) => if bindings.kind = .namespaceImport then
      some (nodeAt .namespaceImport before bindings.inner (o + bytesOf gap + bytesOf front)) else none := by
  have hchildren : (clause.node gap o).childrenOfKind .namespaceImport =
      ofKind .namespaceImport (clause.inner.nodes _) := rfl
  rw [clauseOf, hchildren, clause.ofKind_inner (by decide), if_neg (by decide), List.nil_append]
  cases clause.bindings? with
  | none => rfl
  | some found =>
      obtain ⟨front, before, bindings⟩ := found
      by_cases hkind : bindings.kind = .namespaceImport <;> simp [hkind]

theorem clauseOf_list : (clauseOf (clause.node gap o)).list? = clause.bindings?.bind
    fun (front, before, bindings) => if bindings.kind = .namedImports then
      some (nodeAt .namedImports before bindings.inner (o + bytesOf gap + bytesOf front)) else none := by
  have hchildren : (clause.node gap o).childrenOfKind .namedImports = ofKind .namedImports (clause.inner.nodes _) :=
    rfl
  rw [clauseOf, hchildren, clause.ofKind_inner (by decide), if_neg (by decide), List.nil_append]
  cases clause.bindings? with
  | none => rfl
  | some found =>
      obtain ⟨front, before, bindings⟩ := found
      by_cases hkind : bindings.kind = .namedImports <;> simp [hkind]

theorem clauseOf_specifiers : (clauseOf (clause.node gap o)).specifiers =
    match (clauseOf (clause.node gap o)).list? with
      | some list => list.childrenOfKind .importSpecifier
      | none => [] := rfl

end

theorem Clause.inner_default {clause : Clause d} {name : List Char} (h : clause.default? = some name) :
    ∃ behind, clause.inner.chars = name ++ behind := by
  cases clause with
  | bare => cases h
  | named name free rest? =>
      cases h
      cases rest? with
      | none => exact ⟨[], (List.append_nil _).symm⟩
      | some => exact ⟨_, rfl⟩

theorem Clause.inner_bindings {clause : Clause d} {front gap : List Char} {bindings : Bindings d}
    (h : clause.bindings? = some (front, gap, bindings)) :
    clause.inner.chars = front ++ (bindings.part gap).chars := by
  cases clause with
  | bare =>
      cases h
      rfl
  | named name free rest? =>
      cases rest? with
      | none => cases h
      | some =>
          cases h
          simp [Clause.inner, Part.chars_append, namePart, commaPart, Part.token]

section

variable {clause : Clause d} {front gap back text : List Char}

/-- The text of a default name. -/
theorem default_text (htext : text = front ++ ((clause.part gap).chars ++ back)) :
    ((clauseOf (clause.node gap (bytesOf front))).default?.map fun n => n.text (Utf8.encode (String.ofList text))) =
      clause.default?.map String.ofList := by
  have hchars : (clause.part gap).chars = gap ++ clause.inner.chars := rfl
  rw [clauseOf_default, Option.map_map]
  cases hname : clause.default? with
  | none => rfl
  | some name =>
      obtain ⟨behind, hbehind⟩ := Clause.inner_default hname
      refine congrArg some (@text_token _ (front ++ gap) name (behind ++ back) _ ?_ ?_ ?_)
      · rw [htext, hchars, hbehind]
        simp
      · exact (bytesOf_append ..).symm
      · rw [bytesOf_append]
        rfl

/-- The names of a star or a list. -/
theorem bindings_text (htext : text = front ++ ((clause.part gap).chars ++ back)) :
    (clauseOf (clause.node gap (bytesOf front))).wildcardName? (Utf8.encode (String.ofList text)) =
        (clause.bindings?.bind fun found => found.2.2.star?).map String.ofList ∧
      (clauseOf (clause.node gap (bytesOf front))).specifiers.map
          (ImportClause.specifierName (Utf8.encode (String.ofList text))) =
        (clause.bindings?.toList.flatMap fun found => itemNames found.2.2.items).map String.ofList := by
  have hchars : (clause.part gap).chars = gap ++ clause.inner.chars := rfl
  rw [ImportClause.wildcardName?, clauseOf_wildcard, clauseOf_specifiers, clauseOf_list]
  cases hfound : clause.bindings? with
  | none => exact ⟨rfl, rfl⟩
  | some found =>
      obtain ⟨before, between, bindings⟩ := found
      have hinner := Clause.inner_bindings hfound
      have hhere : text = (front ++ (gap ++ before)) ++ ((bindings.part between).chars ++ back) := by
        rw [htext, hchars, hinner]
        simp
      have hoffset : bytesOf front + bytesOf gap + bytesOf before = bytesOf (front ++ (gap ++ before)) := by
        simp only [bytesOf_append, Nat.add_assoc]
      cases bindings with
      | whole asGap nameGap name =>
          obtain ⟨site, hsite, hname⟩ := Bindings.star_eq hhere
          rw [← hoffset] at hsite
          simp [Bindings.kind, Bindings.star?, Bindings.items, hsite, hname, itemNames]
      | braces items trailing close =>
          have hlist := (Bindings.braces_specifies hhere).names_eq
          rw [← hoffset] at hlist
          have hspecifiers := hlist
          simp only [ofKind] at hspecifiers
          simpa [Bindings.kind, Bindings.star?, Bindings.items, Node.childrenOfKind] using hspecifiers

/-- The names that a clause binds are those of its tokens. -/
theorem localNames_clause (hnames : ∀ name ∈ clause.names, name ≠ [])
    (htext : text = front ++ ((clause.part gap).chars ++ back)) :
    (clauseOf (clause.node gap (bytesOf front))).localNames (Utf8.encode (String.ofList text)) =
      clause.names.map String.ofList := by
  obtain ⟨hstar, hlist⟩ := bindings_text htext
  have hfilter : ((clause.bindings?.bind fun found => found.2.2.star?).map String.ofList).filter (· ≠ "") =
      (clause.bindings?.bind fun found => found.2.2.star?).map String.ofList := by
    cases hname : clause.bindings?.bind fun found => found.2.2.star? with
    | none => rfl
    | some name =>
        obtain ⟨found, hfound, hstar⟩ := Option.bind_eq_some_iff.mp hname
        have hne : name ≠ [] := hnames name (by simp [Clause.names, hfound, Bindings.names, hstar])
        simpa using hne
  rw [ImportClause.localNames, default_text htext, hstar, hlist, hfilter, Clause.names]
  cases clause.default? with
  | none | some =>
    cases hfound : clause.bindings? with
    | none => simp
    | some found => cases hname : found.2.2.star? <;> simp [Bindings.names, hname]

end

/-! ## Texts of parts -/

/-- What passes the test is read with its own characters. -/
def TokenTest.Faithful (test : TokenTest) : Prop :=
  ∀ s part, test s = some part → ∀ gap, (part gap).chars = gap ++ s.chars

theorem specifierForms_faithful : ∀ form ∈ specifierForms d, ∀ test ∈ form, test.Faithful := by
  have hword (text : String) : (wordTest text).Faithful := by
    intro s part h gap
    obtain ⟨rfl, rfl⟩ := wordTest_some h
    rfl
  have hplain : (nameTest []).Faithful := by
    intro s part h gap
    obtain ⟨name, rfl, rfl⟩ := nameTest_some h
    rfl
  have hrole {test : TokenTest} (role : Role) (htest : test.Faithful) : (test.withRole role).Faithful := by
    intro s part h gap
    obtain ⟨plain, hplain, rfl⟩ := roleTest_some h
    exact htest s plain hplain gap
  have hexport : exportTest.Faithful := by
    intro s part h gap
    rcases Option.or_eq_some_iff.mp h with h | ⟨-, h⟩
    · exact hplain s part h gap
    · cases s with
      | quoted chars =>
          cases h
          rfl
      | _ => cases h
  have htype : (typeTest d).Faithful := by
    intro s part h gap
    unfold typeTest at h
    split at h
    · rcases Option.or_eq_some_iff.mp h with h | ⟨-, h⟩
      · exact hword _ s part h gap
      · exact hword _ s part h gap
    · cases h
  simp [specifierForms, hword, hrole, hplain, hexport, htype]

theorem matchTokens_chars : ∀ {tests : List TokenTest} {tokens : Spaced} {a : Part},
    (∀ test ∈ tests, test.Faithful) → matchTokens tests tokens = some a → a.chars = textOf tokens
  | [], [], _, _, h => by
      cases h
      rfl
  | test :: tests, tokens, a, htests, h => by
      obtain ⟨gap, s, more, part, rest, rfl, hpart, hrest, rfl⟩ := matchTokens_cons h
      have hmore := matchTokens_chars (fun test htest => htests test (List.mem_cons_of_mem _ htest)) hrest
      rw [Part.chars_append, htests test List.mem_cons_self s part hpart gap, hmore, textOf_cons, List.append_assoc]

theorem Specifier.chars_eq (item : Specifier d) : item.part.chars = textOf item.tokens := by
  obtain ⟨tokens, part, hreads⟩ := item
  cases tokens with
  | nil => cases hreads
  | cons token tokens =>
      obtain ⟨gap, s⟩ := token
      obtain ⟨inner, hinner, rfl⟩ := Option.map_eq_some_iff.mp hreads
      obtain ⟨form, hform, hmatch⟩ := List.exists_of_findSome?_eq_some hinner
      have hchars := matchTokens_chars (specifierForms_faithful form hform) hmatch
      simp only [Part.node, hchars, textOf_cons, List.nil_append]

theorem morePart_chars : ∀ items : List (List Char × Specifier d), (morePart items).chars = textOf (moreRow items)
  | [] => rfl
  | (comma, item) :: items => by
      have hrow : moreRow ((comma, item) :: items) = (comma, .mark ',') :: (item.tokens ++ moreRow items) := rfl
      rw [morePart, Part.chars_append, Part.chars_append, item.chars_eq, morePart_chars items, hrow]
      simp [commaPart, Part.token, Segment.chars]

theorem itemsPart_chars (items : List (List Char × Specifier d)) :
    (itemsPart items).chars = textOf (itemsRow items) := by
  cases items with
  | nil => rfl
  | cons item items => rw [itemsPart, Part.chars_append, item.2.chars_eq, morePart_chars, itemsRow, textOf_append]

theorem trailingPart_chars (trailing : Option (List Char)) :
    (trailingPart trailing).chars = textOf (trailingRow trailing) := by
  cases trailing with
  | none => rfl
  | some gap => simp [trailingPart, trailingRow, commaPart, Part.token, Segment.chars]

theorem Bindings.part_chars (bindings : Bindings d) (gap : List Char) :
    (bindings.part gap).chars = textOf (bindings.row gap) := by
  cases bindings with
  | whole asGap nameGap name =>
      simp [part, inner, row, Part.node, Part.chars_append, Part.token, wordPart, namePart, Segment.chars]
  | braces items trailing close =>
      simp [part, inner, row, Part.node, Part.chars_append, Part.token, itemsPart_chars, trailingPart_chars,
        Segment.chars]

theorem Clause.part_chars (clause : Clause d) (gap : List Char) :
    (clause.part gap).chars = textOf (clause.row gap) := by
  cases clause with
  | bare bindings =>
      have hgap : textOf (bindings.row gap) = gap ++ textOf (bindings.row []) := by
        obtain ⟨s, tokens, -, hrow⟩ := bindings.row_cons
        simp [hrow]
      simp [part, inner, row, Part.node, Bindings.part_chars, hgap]
  | named name free rest? =>
      cases rest? with
      | none => simp [part, inner, row, Part.node, namePart, Part.token, Segment.chars]
      | some others =>
          simp [part, inner, row, Part.node, Part.chars_append, namePart, commaPart, Part.token, Segment.chars,
            Bindings.part_chars]

/-! ## Statements -/

namespace Declaration

/-- The text in front of the clause or the path, with no gap at its end. -/
def lead (decl : Declaration d) : List Char := "import".toList ++ decl.typesPart.chars

/-- The text in front of the path. -/
def before (decl : Declaration d) : List Char :=
  decl.lead ++ (match decl.what? with
    | none => decl.gap
    | some (gap, clause, front) => (clause.part gap).chars ++ (front ++ ("from".toList ++ decl.gap)))

theorem typesPart_chars (decl : Declaration d) : decl.typesPart.chars = textOf decl.typesRow := by
  unfold typesPart typesRow
  cases decl.types? with
  | none => rfl
  | some word => simp [wordPart, Part.token, Segment.chars]

theorem row_text (decl : Declaration d) : textOf decl.row = decl.before ++ decl.path := by
  unfold row whatRow before
  cases decl.what? with
  | none => simp [lead, typesPart_chars, Segment.chars]
  | some what =>
      obtain ⟨gap, clause, front⟩ := what
      simp [lead, typesPart_chars, Clause.part_chars, Segment.chars]

/-- The names that a declaration binds. -/
def names (decl : Declaration d) : List (List Char) := decl.what?.toList.flatMap fun (_, clause, _) => clause.names

/-- The node of the statement. -/
abbrev node (decl : Declaration d) (tail : Part) (o : Nat) : Node := nodeAt .importStatement [] (decl.inner tail) o

theorem part_nodes (decl : Declaration d) (tail : Part) (o : Nat) :
    (decl.part tail).nodes o = [decl.node tail o] := rfl

end Declaration

/-! ## Names among the tokens -/

section

variable {name : List Char}

theorem Specifier.mem_name (item : Specifier d) : ∃ gap, (gap, .word item.name) ∈ item.tokens := by
  obtain ⟨tokens, part, hreads⟩ := item
  cases tokens with
  | nil => cases hreads
  | cons token tokens =>
      obtain ⟨gap, s⟩ := token
      obtain ⟨inner, hinner, -⟩ := Option.map_eq_some_iff.mp hreads
      obtain ⟨-, last, name, -, hlast, -⟩ := specifierInner_eq hinner
      cases tokens with
      | nil =>
          cases hlast
          exact ⟨gap, List.mem_cons_self⟩
      | cons token tokens =>
          rw [List.getLast?_cons_cons] at hlast
          refine ⟨last, List.mem_cons_of_mem _ ?_⟩
          simpa [Specifier.name, List.getLast?_cons_cons, hlast, Segment.chars] using List.mem_of_getLast? hlast

theorem mem_itemsRow {items : List (List Char × Specifier d)} {item : List Char × Specifier d} {token : List Char × Segment}
    (hitem : item ∈ items) (h : token ∈ item.2.tokens) : token ∈ itemsRow items := by
  cases items with
  | nil => cases hitem
  | cons first more =>
      rw [itemsRow, List.mem_append]
      rcases List.mem_cons.mp hitem with rfl | hmore
      · exact .inl h
      · exact .inr (List.mem_flatMap.mpr ⟨item, hmore, List.mem_cons_of_mem _ h⟩)

theorem Bindings.mem_names {bindings : Bindings d} (h : name ∈ bindings.names) (gap : List Char) :
    ∃ before, (before, .word name) ∈ bindings.row gap := by
  cases bindings with
  | whole asGap nameGap star =>
      obtain rfl : name = star := by simpa [names, star?, items, itemNames] using h
      exact ⟨nameGap, by simp [row]⟩
  | braces items trailing close =>
      obtain ⟨item, hitem, rfl⟩ : ∃ item ∈ items, item.2.name = name := by
        simpa [names, star?, Bindings.items, itemNames] using h
      obtain ⟨before, hmem⟩ := item.2.mem_name
      refine ⟨before, List.mem_cons_of_mem _ (List.mem_append_left _ (mem_itemsRow hitem hmem))⟩

theorem Clause.mem_names {clause : Clause d} (h : name ∈ clause.names) (gap : List Char) :
    ∃ before, (before, .word name) ∈ clause.row gap := by
  cases clause with
  | bare bindings => exact Bindings.mem_names (by simpa [names, default?, bindings?] using h) gap
  | named first free rest? =>
      cases rest? with
      | none =>
          obtain rfl : name = first := by simpa [names, default?, bindings?] using h
          exact ⟨gap, List.mem_cons_self⟩
      | some others =>
          obtain ⟨comma, behind, bindings⟩ := others
          rcases (by simpa [names, default?, bindings?] using h : name = first ∨ name ∈ bindings.names) with rfl | hname
          · exact ⟨gap, List.mem_cons_self⟩
          · obtain ⟨before, hmem⟩ := Bindings.mem_names hname behind
            exact ⟨before, List.mem_cons_of_mem _ (List.mem_cons_of_mem _ hmem)⟩

theorem Fits.word_ne_nil {behind gap word : List Char} {tokens : Spaced} (h : Fits behind tokens)
    (hmem : (gap, .word word) ∈ tokens) : word ≠ [] := by
  induction tokens with
  | nil => cases hmem
  | cons token tokens ih =>
      obtain ⟨first, s⟩ := token
      rcases List.mem_cons.mp hmem with heq | hmem
      · cases heq
        exact h.2.1.1.1
      · exact ih h.2.2 hmem

/-- In a declaration that fits, no name is empty. -/
theorem Declaration.names_ne_nil {decl : Declaration d} {behind : List Char} (h : Fits behind decl.row) :
    ∀ name ∈ decl.names, name ≠ [] := by
  intro name hname
  obtain ⟨⟨gap, clause, before⟩, hwhat, hname⟩ := List.mem_flatMap.mp hname
  obtain ⟨front, hmem⟩ := Clause.mem_names hname gap
  have hrow : (front, .word name) ∈ decl.whatRow := by
    rw [Declaration.whatRow, Option.mem_toList.mp hwhat]
    exact List.mem_append_left _ hmem
  exact h.word_ne_nil (List.mem_cons_of_mem _ (List.mem_append_right _ (List.mem_append_left _ hrow)))

end

/-- Neither a clause nor a path. -/
def Part.IsPlain (a : Part) : Prop := ∀ o, ∀ n ∈ a.nodes o, ¬n.IsClauseOrPath

section

variable {decl : Declaration d} {tail : Part}

theorem isPlain_comments {o : Nat} {gap : List Char} : ∀ n ∈ commentsOf o gap, ¬n.IsClauseOrPath := by
  intro n hn
  obtain ⟨start, stop, rfl⟩ := commentsOf_isComment n hn
  rintro (h | h) <;> cases h

theorem isPlain_word (gap : List Char) (text : String) : (wordPart gap text).IsPlain := by
  intro o n hn
  rcases List.mem_append.mp hn with hn | hn
  · exact isPlain_comments n hn
  · rw [List.mem_singleton.mp hn]
    rintro (h | h) <;> cases h

theorem isPlain_types (decl : Declaration d) : decl.typesPart.IsPlain := by
  unfold Declaration.typesPart
  cases decl.types? with
  | none => exact fun _ _ hn => nomatch hn
  | some word => exact isPlain_word _ _

theorem Part.IsPlain.ofKind_eq_nil {a : Part} (h : a.IsPlain) (o : Nat) : ofKind .importClause (a.nodes o) = [] :=
  List.filter_eq_nil_iff.mpr fun n hn hkind => h o n hn (.inl hkind)

theorem Part.IsPlain.find_none {a : Part} (h : a.IsPlain) (o : Nat) :
    (a.nodes o).find? (fun c => c.role == some .source) = none :=
  List.find?_eq_none.mpr fun n hn hrole => h o n hn (.inr (by simpa using hrole))

/-- The clause of a declaration. -/
theorem childrenOfKind_clause (htail : tail.IsPlain) (o : Nat) :
    (decl.node tail o).childrenOfKind .importClause = decl.what?.toList.map fun (gap, clause, _) =>
      clause.node gap (o + bytesOf decl.lead) := by
  have hsource (o : Nat) : ofKind .importClause (decl.sourcePart.nodes o) = [] := by
    rw [Declaration.sourcePart, nodes_withRole fun _ _ => rfl, ofKind_append, ofKind_commentsOf (by decide)]
    rfl
  have hword : (wordPart [] "import").chars = "import".toList := rfl
  change ofKind .importClause ((decl.inner tail).nodes o) = _
  rw [Declaration.inner, Part.nodes_append, Part.nodes_append, Part.nodes_append, ofKind_append, ofKind_append,
    ofKind_append, (isPlain_word _ _).ofKind_eq_nil, (isPlain_types decl).ofKind_eq_nil, htail.ofKind_eq_nil,
    List.append_nil, List.nil_append, List.nil_append, hword]
  unfold Declaration.whatPart
  cases decl.what? with
  | none => exact hsource _
  | some what =>
      obtain ⟨gap, clause, front⟩ := what
      rw [Part.nodes_append, Part.nodes_append, ofKind_append, ofKind_append, hsource,
        (isPlain_word _ _).ofKind_eq_nil, Clause.part, ofKind_node (by decide), if_pos rfl, Declaration.lead,
        bytesOf_append, ← Nat.add_assoc]
      rfl

/-- The path of a declaration. -/
theorem child_source (decl : Declaration d) (tail : Part) (o : Nat) :
    (decl.node tail o).child? .source = some ((Node.leaf .string (o + bytesOf decl.before)
      (o + bytesOf decl.before + bytesOf decl.path)).withRole .source) := by
  have hword : (wordPart [] "import").chars = "import".toList := rfl
  have hsource (o : Nat) : (decl.sourcePart.nodes o).find? (fun c => c.role == some .source) =
      some ((Node.leaf .string (o + bytesOf decl.gap) (o + bytesOf decl.gap + bytesOf decl.path)).withRole .source) := by
    have hcomments : (commentsOf o decl.gap).find? (fun c => c.role == some .source) = none :=
      List.find?_eq_none.mpr fun n hn => by simp [role_commentsOf n hn]
    rw [Declaration.sourcePart, nodes_withRole fun _ _ => rfl, List.find?_append, hcomments, Option.none_or]
    simp
  have hclause (clause : Clause d) (gap : List Char) (o : Nat) :
      ((clause.part gap).nodes o).find? (fun c => c.role == some .source) = none := by
    refine List.find?_eq_none.mpr fun n hn hrole => ?_
    rcases List.mem_append.mp hn with hn | hn
    · rw [role_commentsOf n hn] at hrole
      cases hrole
    · rw [List.mem_singleton.mp hn] at hrole
      cases hrole
  change ((decl.inner tail).nodes o).find? (fun c => c.role == some .source) = _
  rw [Declaration.inner, Part.nodes_append, Part.nodes_append, Part.nodes_append, List.find?_append,
    List.find?_append, List.find?_append, (isPlain_word _ _).find_none, (isPlain_types decl).find_none,
    Option.none_or, Option.none_or, hword]
  unfold Declaration.whatPart Declaration.before
  cases decl.what? with
  | none =>
      rw [hsource, Option.some_or]
      simp only [Declaration.lead, bytesOf_append, Nat.add_assoc]
  | some what =>
      obtain ⟨gap, clause, front⟩ := what
      have hfront : (wordPart front "from").chars = front ++ "from".toList := rfl
      rw [Part.nodes_append, Part.nodes_append, List.find?_append, List.find?_append, hclause,
        (isPlain_word _ _).find_none, Option.none_or, Option.none_or, hsource, Option.some_or]
      simp only [Declaration.lead, bytesOf_append, hfront, Nat.add_assoc]

/-- The path, as it is written between its quotes. -/
def unquoted (path : List Char) : Option String :=
  if path.length < 2 then none else some (String.ofList ((path.drop 1).dropLast))

variable {front back text : List Char}

/-- A declaration is read with its path. -/
theorem path_eq (htext : text = front ++ (decl.before ++ (decl.path ++ back))) :
    ((decl.node tail (bytesOf front)).child? .source).bind
        (fun s => s.stringValue? (Utf8.encode (String.ofList text))) = unquoted decl.path := by
  have hpath : ((Node.leaf .string (bytesOf front + bytesOf decl.before)
      (bytesOf front + bytesOf decl.before + bytesOf decl.path)).withRole .source).text
        (Utf8.encode (String.ofList text)) = String.ofList decl.path := by
    refine @text_token _ (front ++ decl.before) decl.path back _ ?_ ?_ ?_
    · rw [htext, List.append_assoc]
    · exact (bytesOf_append ..).symm
    · rw [bytesOf_append]
      rfl
  have hkind (start stop : Nat) : ((Node.leaf .string start stop).withRole .source).hasKind .string = true := rfl
  rw [child_source, Option.bind_some, Node.stringValue?, if_pos (hkind _ _), hpath, unquoted, String.toList_ofList]

/-- A declaration binds the names that can be read off its tokens. -/
theorem localNames_declaration (htail : tail.IsPlain) (hnames : ∀ name ∈ decl.names, name ≠ [])
    (htext : text = front ++ (decl.before ++ (decl.path ++ back))) :
    (ImportClause.ofStatement (decl.node tail (bytesOf front))).localNames (Utf8.encode (String.ofList text)) =
      decl.names.map String.ofList := by
  have hclause := @childrenOfKind_clause d decl tail htail (bytesOf front)
  unfold Declaration.before at htext
  cases hwhat : decl.what? with
  | none =>
      rw [hwhat, Option.toList_none, List.map_nil] at hclause
      rw [ofStatement_no_clause hclause, Declaration.names, hwhat]
      rfl
  | some what =>
      obtain ⟨gap, clause, between⟩ := what
      have hdeclared : decl.names = clause.names := by simp [Declaration.names, hwhat]
      rw [hwhat] at hclause htext
      dsimp only at htext
      rw [ofStatement_clause hclause, ← bytesOf_append, hdeclared]
      refine @localNames_clause d clause (front ++ decl.lead) gap
        ((between ++ ("from".toList ++ decl.gap)) ++ (decl.path ++ back)) text (hdeclared ▸ hnames) ?_
      rw [htext]
      simp

end

end Syntax

end ImportAssist
