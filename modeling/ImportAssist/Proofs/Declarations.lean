import ImportAssist.Proofs.Specifiers

/-!
# Import declarations

An import declaration up to its path is a row of tokens, for any gaps between them. `Declaration` is what
the grammar makes of such a row: the word for types, the default name, the star or the list, the path. A
declaration that fits is read as its part, together with what ends the statement (`readText_declaration`),
and whatever has been read as an import of a path is a declaration that fits (`readText_declaration_inv`).
-/

namespace ImportAssist

namespace Syntax

open Grammar (Production)
open Utf8 (glyphOf)

/-! ## Layouts -/

/-- The tokens of a specifier. -/
structure Specifier (d : Dialect) where
  tokens : Spaced
  part : Part
  reads : specifierPart d tokens = some part

/-- What is imported by name: all of a module with its star, or a list in braces. -/
inductive Bindings (d : Dialect) where
  | whole (asGap nameGap name : List Char)
  /-- Each specifier has the gap in front of the comma before it, which is of no use for the first one. -/
  | braces (items : List (List Char × Specifier d)) (trailing : Option (List Char)) (close : List Char)

/-- What stands between the word `import` and the word `from`. -/
inductive Clause (d : Dialect) where
  | bare (bindings : Bindings d)
  /-- A default name, and perhaps a comma and more behind it. -/
  | named (name : List Char) (free : String.ofList name ∉ d.reserved)
      (more : Option (List Char × List Char × Bindings d))

/-- The word that makes an import one of types. -/
structure TypeWord (d : Dialect) where
  gap : List Char
  word : String
  known : d.typed = true ∧ (word = "type" ∨ word = "typeof")

/-- An import declaration up to its path. -/
structure Declaration (d : Dialect) where
  types? : Option (TypeWord d)
  /-- The clause with the gap in front of it, and the gap in front of the word `from`. -/
  what? : Option (List Char × Clause d × List Char)
  gap : List Char
  path : List Char

variable {d : Dialect}

/-! ## Rows -/

/-- Specifiers with commas in front of them. -/
def moreRow (items : List (List Char × Specifier d)) : Spaced :=
  items.flatMap fun item => (item.1, .mark ',') :: item.2.tokens

/-- Specifiers with commas between them. -/
def itemsRow : List (List Char × Specifier d) → Spaced
  | [] => []
  | (_, first) :: more => first.tokens ++ moreRow more

def trailingRow (trailing : Option (List Char)) : Spaced := (trailing.map fun gap => (gap, .mark ',')).toList

namespace Bindings

def row (gap : List Char) : Bindings d → Spaced
  | whole asGap nameGap name => [(gap, .mark '*'), (asGap, .word "as".toList), (nameGap, .word name)]
  | braces items trailing close =>
    (gap, .mark '\x7b') :: (itemsRow items ++ (trailingRow trailing ++ [(close, .mark '\x7d')]))

end Bindings

namespace Clause

def row (gap : List Char) : Clause d → Spaced
  | bare bindings => bindings.row gap
  | named name _ none => [(gap, .word name)]
  | named name _ (some (comma, behind, bindings)) =>
    (gap, .word name) :: (comma, .mark ',') :: bindings.row behind

end Clause

namespace Declaration

def typesRow (decl : Declaration d) : Spaced :=
  (decl.types?.map fun word => (word.gap, .word word.word.toList)).toList

def whatRow (decl : Declaration d) : Spaced :=
  match decl.what? with
  | none => []
  | some (gap, clause, before) => clause.row gap ++ [(before, .word "from".toList)]

def row (decl : Declaration d) : Spaced :=
  ([], .word "import".toList) :: (decl.typesRow ++ (decl.whatRow ++ [(decl.gap, .quoted decl.path)]))

end Declaration

/-! ## Parts -/

def commaPart (gap : List Char) : Part := .token gap [','] (Node.token ",")

def wordPart (gap : List Char) (text : String) : Part := .token gap text.toList (Node.token text)

def namePart (gap name : List Char) : Part := .token gap name (Node.leaf .identifier)

def morePart : List (List Char × Specifier d) → Part
  | [] => .nil
  | (comma, item) :: more => commaPart comma ++ item.part ++ morePart more

def itemsPart : List (List Char × Specifier d) → Part
  | [] => .nil
  | (_, first) :: more => first.part ++ morePart more

def trailingPart : Option (List Char) → Part
  | none => .nil
  | some gap => commaPart gap

namespace Bindings

def kind : Bindings d → Kind
  | whole .. => .namespaceImport
  | braces .. => .namedImports

/-- The children of the node. -/
def inner : Bindings d → Part
  | whole asGap nameGap name =>
    .token [] ['*'] (Node.token "*") ++ (wordPart asGap "as" ++ namePart nameGap name)
  | braces items trailing close =>
    .token [] ['\x7b'] (Node.token "\x7b") ++ (itemsPart items ++ trailingPart trailing ++
      .token close ['\x7d'] (Node.token "\x7d"))

def part (gap : List Char) (bindings : Bindings d) : Part := .node bindings.kind gap bindings.inner

end Bindings

namespace Clause

/-- The children of the node. -/
def inner : Clause d → Part
  | bare bindings => bindings.part []
  | named name _ none => namePart [] name
  | named name _ (some (comma, behind, bindings)) =>
    namePart [] name ++ (commaPart comma ++ bindings.part behind)

def part (gap : List Char) (clause : Clause d) : Part := .node .importClause gap clause.inner

end Clause

namespace Declaration

def typesPart (decl : Declaration d) : Part :=
  match decl.types? with
  | none => .nil
  | some word => wordPart word.gap word.word

def sourcePart (decl : Declaration d) : Part :=
  Part.withRole .source (.token decl.gap decl.path (Node.leaf .string))

def whatPart (decl : Declaration d) : Part :=
  match decl.what? with
  | none => decl.sourcePart
  | some (gap, clause, before) => clause.part gap ++ (wordPart before "from" ++ decl.sourcePart)

/-- The children of the statement, with the part that ends it. -/
def inner (decl : Declaration d) (tail : Part) : Part :=
  wordPart [] "import" ++ (decl.typesPart ++ decl.whatPart ++ tail)

def part (decl : Declaration d) (tail : Part) : Part := .node .importStatement [] (decl.inner tail)

end Declaration

/-! ## Reading lists -/

section

variable {p : Place} {tokens more : Spaced} {gap behind text rest : List Char} {s : Segment} {a : Part}

/-- A row that goes on with a comma or a closing brace. -/
def GoesOn (tokens : Spaced) : Prop := ∃ gap s more, tokens = (gap, s) :: more ∧ EndsSpecifier s

theorem Specifier.inner (item : Specifier d) : ∀ token ∈ item.tokens, ¬EndsSpecifier token.2 := by
  obtain ⟨tokens, part, hreads⟩ := item
  cases tokens with
  | nil => exact nofun
  | cons token tokens =>
      obtain ⟨inner, hinner, -⟩ := Option.map_eq_some_iff.mp hreads
      obtain ⟨form, hform, hmatch⟩ := List.exists_of_findSome?_eq_some hinner
      have hnone := matchTokens_inner (specifierForms_inner form hform) (Option.isSome_of_eq_some hmatch)
      exact List.forall_mem_cons.mpr (List.forall_mem_cons.mp hnone)

/-- A specifier in a row is read as its part. -/
theorem readText_item (item : Specifier d) (hmore : GoesOn more) (hfits : Fits behind (item.tokens ++ more)) :
    readText d p (Grammar.importSpecifier d) (textOf (item.tokens ++ more) ++ behind) =
      some (item.part, textOf more ++ behind) := by
  obtain ⟨gap, s, others, rfl, hends⟩ := hmore
  rw [readText_specifier item.inner hends hfits, item.reads]
  rfl

theorem readText_item_none (hmore : GoesOn more) (hfits : Fits behind more) :
    readText d p (Grammar.importSpecifier d) (textOf more ++ behind) = none := by
  obtain ⟨gap, s, others, rfl, hends⟩ := hmore
  exact @readText_specifier d p [] others gap behind s nofun hends hfits

/-- A comma and a specifier. -/
def commaItem (d : Dialect) : Production := .seq [Grammar.sign ",", Grammar.importSpecifier d]

theorem isBounded_commaItem : IsBounded (commaItem d) := by cases d <;> rfl

theorem readsToken_comma : ReadsToken d p (Grammar.sign ",") (markTest "," ',') :=
  readsToken_sign rfl (by decide)

theorem readsToken_close : ReadsToken d p (Grammar.sign "\x7d") (markTest "\x7d" '\x7d') :=
  readsToken_sign rfl (by decide)

/-- The end of a list. -/
def endRow (trailing : Option (List Char)) (close : List Char) (more : Spaced) : Spaced :=
  trailingRow trailing ++ (close, .mark '\x7d') :: more

theorem goesOn_end (trailing : Option (List Char)) (close : List Char) (more : Spaced) :
    GoesOn (endRow trailing close more) := by
  cases trailing with
  | none => exact ⟨_, _, _, rfl, .inr rfl⟩
  | some gap => exact ⟨_, _, _, rfl, .inl rfl⟩

theorem goesOn_more (items : List (List Char × Specifier d)) (trailing : Option (List Char))
    (close : List Char) (more : Spaced) : GoesOn (moreRow items ++ endRow trailing close more) := by
  cases items with
  | nil => exact goesOn_end trailing close more
  | cons item items => exact ⟨_, _, _, rfl, .inl rfl⟩

variable {trailing : Option (List Char)} {close : List Char}

/-- Behind the last specifier there is none. -/
theorem readText_commaItem_none (hfits : Fits behind (endRow trailing close more)) :
    readText d p (commaItem d) (textOf (endRow trailing close more) ++ behind) = none := by
  rw [commaItem]
  cases trailing with
  | none => exact readsToken_comma.seq isBounded_commaItem hfits
  | some gap =>
      have hnone : readText d p (.seq [Grammar.importSpecifier d])
          (textOf ((close, .mark '\x7d') :: more) ++ behind) = none := by
        rw [readText_seq_last isBounded_commaItem.seq.2]
        exact readText_item_none ⟨_, _, _, rfl, .inr rfl⟩ hfits.2.2
      have hrow : endRow (some gap) close more = (gap, .mark ',') :: (close, .mark '\x7d') :: more := rfl
      rw [hrow] at hfits ⊢
      rw [readsToken_comma.seq isBounded_commaItem hfits, hnone]
      rfl

theorem readText_more : ∀ {items : List (List Char × Specifier d)},
    Fits behind (moreRow items ++ endRow trailing close more) →
      readText d p (.many (commaItem d)) (textOf (moreRow items ++ endRow trailing close more) ++ behind) =
        some (morePart items, textOf (endRow trailing close more) ++ behind)
  | [], hfits => by
      have hnone := @readText_commaItem_none d p more behind trailing close hfits
      rw [readText_many isBounded_commaItem (by cases d <;> rfl)]
      rw [moreRow, List.flatMap_nil, List.nil_append, hnone]
      rfl
  | (comma, item) :: items, hfits => by
      have hrow : moreRow ((comma, item) :: items) ++ endRow trailing close more =
          (comma, .mark ',') :: (item.tokens ++ (moreRow items ++ endRow trailing close more)) := by
        simp [moreRow]
      rw [hrow] at hfits ⊢
      have hitem := @readText_item d p _ behind item (goesOn_more items trailing close more) hfits.2.2
      have hmore := @readText_more items (fits_append.mp hfits.2.2).2
      have hfirst : readText d p (commaItem d) (textOf ((comma, .mark ',') :: (item.tokens ++
          (moreRow items ++ endRow trailing close more))) ++ behind) =
            some (commaPart comma ++ item.part, textOf (moreRow items ++ endRow trailing close more) ++ behind) := by
        rw [commaItem, readsToken_comma.seq isBounded_commaItem hfits,
          readText_seq_last isBounded_commaItem.seq.2, hitem]
        rfl
      rw [readText_many isBounded_commaItem (by cases d <;> rfl), hfirst]
      dsimp only
      rw [hmore]
      rfl

/-- The specifiers of a list, and the comma behind them. -/
theorem readText_listed {items : List (List Char × Specifier d)}
    (hfits : Fits behind (itemsRow items ++ endRow trailing close more)) :
    readText d p (Grammar.listed (Grammar.importSpecifier d))
        (textOf (itemsRow items ++ endRow trailing close more) ++ behind) =
      some (itemsPart items ++ trailingPart trailing, textOf ((close, .mark '\x7d') :: more) ++ behind) := by
  have hbounded : IsBounded (Grammar.listed (Grammar.importSpecifier d)) := by cases d <;> rfl
  have hitems : IsBounded (Grammar.separated (Grammar.importSpecifier d)) := by cases d <;> rfl
  have hseparated : readText d p (.opt (Grammar.separated (Grammar.importSpecifier d)))
      (textOf (itemsRow items ++ endRow trailing close more) ++ behind) =
        some (itemsPart items, textOf (endRow trailing close more) ++ behind) := by
    rw [readText_opt hitems, Grammar.separated, readText_seq_cons hitems]
    cases items with
    | nil =>
        rw [itemsRow, List.nil_append, readText_item_none (goesOn_end trailing close more) hfits]
        rfl
    | cons item items =>
        obtain ⟨comma, item⟩ := item
        have hrow : itemsRow ((comma, item) :: items) ++ endRow trailing close more =
            item.tokens ++ (moreRow items ++ endRow trailing close more) := List.append_assoc ..
        rw [hrow] at hfits ⊢
        rw [readText_item item (goesOn_more items trailing close more) hfits, Option.bind_some,
          readText_seq_last hitems.seq.2]
        dsimp only
        rw [← commaItem, readText_more (fits_append.mp hfits).2]
        rfl
  have hend := (fits_append.mp hfits).2
  have htrailing : readText d p (.opt (Grammar.sign ",")) (textOf (endRow trailing close more) ++ behind) =
      some (trailingPart trailing, textOf ((close, .mark '\x7d') :: more) ++ behind) := by
    rw [readText_opt rfl]
    cases trailing with
    | none =>
        have hnone : readText d p (Grammar.sign ",") (textOf (endRow none close more) ++ behind) = none :=
          readsToken_comma.reads hend
        rw [hnone]
        rfl
    | some gap =>
        have hsome : readText d p (Grammar.sign ",") (textOf (endRow (some gap) close more) ++ behind) =
          some (commaPart gap, textOf ((close, .mark '\x7d') :: more) ++ behind) := readsToken_comma.reads hend
        rw [hsome]
        rfl
  rw [Grammar.listed, readText_seq_cons hbounded, hseparated, Option.bind_some, readText_seq_last hbounded.seq.2]
  dsimp only
  rw [htrailing]
  rfl

/-! ## Reading clauses -/

/-- What a clause imports by name. -/
def bindingsRule (d : Dialect) : Production := .alt [Grammar.namespaceImport, Grammar.namedImports d]

theorem isBounded_bindingsRule : IsBounded (bindingsRule d) := by cases d <;> rfl

theorem readsToken_star : ReadsToken d p (Grammar.sign "*") (markTest "*" '*') := readsToken_sign rfl (by decide)

theorem readsToken_open : ReadsToken d p (Grammar.sign "\x7b") (markTest "\x7b" '\x7b') :=
  readsToken_sign rfl (by decide)

theorem readText_whole {asGap nameGap name : List Char}
    (hfits : Fits behind ((Bindings.whole asGap nameGap name : Bindings d).row gap ++ more)) :
    readText d p Grammar.namespaceImport
        (textOf ((Bindings.whole asGap nameGap name : Bindings d).row gap ++ more) ++ behind) =
      some ((Bindings.whole asGap nameGap name : Bindings d).part gap, textOf more ++ behind) := by
  have hrow : (Bindings.whole asGap nameGap name : Bindings d).row gap ++ more =
      (gap, .mark '*') :: (asGap, .word "as".toList) :: (nameGap, .word name) :: more := rfl
  have hbounded : IsBounded (.seq [Grammar.sign "*", Grammar.word "as", .name .identifier []]) := rfl
  have has : ReadsToken d p (Grammar.word "as") (wordTest "as") := readsToken_keyword (by decide)
  rw [hrow] at hfits ⊢
  have hinner := hfits.without_gap
  rw [Grammar.namespaceImport, readText_node_row hbounded hfits, readsToken_star.seq hbounded hinner,
    has.seq hbounded.seq.2 hinner.2.2, readText_seq_last hbounded.seq.2.seq.2,
    (readsToken_name []).reads hinner.2.2.2.2]
  rfl

theorem readText_braces {items : List (List Char × Specifier d)}
    (hfits : Fits behind ((Bindings.braces items trailing close).row gap ++ more)) :
    readText d p (Grammar.namedImports d) (textOf ((Bindings.braces items trailing close).row gap ++ more) ++ behind) =
      some ((Bindings.braces items trailing close).part gap, textOf more ++ behind) := by
  have hrow : (Bindings.braces items trailing close).row gap ++ more =
      (gap, .mark '\x7b') :: (itemsRow items ++ endRow trailing close more) := by
    simp [Bindings.row, endRow]
  have hbounded : IsBounded (Grammar.braced (Grammar.listed (Grammar.importSpecifier d))) := by cases d <;> rfl
  have hlisted : IsBounded (Grammar.listed (Grammar.importSpecifier d)) := by cases d <;> rfl
  rw [hrow] at hfits ⊢
  have hinner := hfits.without_gap
  have hlist := @readText_listed d .bracket more behind trailing close items hfits.2.2
  have hclose := (fits_append.mp (fits_append.mp hfits.2.2).2).2
  rw [Grammar.namedImports, readText_node_row hbounded hfits, Grammar.braced,
    readsToken_open.seq hbounded hinner, readText_seq_cons hbounded.seq.2, readText_inside hlisted,
    hlist, Option.bind_some, readText_seq_last hbounded.seq.2.seq.2]
  dsimp only
  rw [readsToken_close.reads hclose]
  rfl

/-- The star or the list is read as its part. -/
theorem readText_bindings (bindings : Bindings d) (hfits : Fits behind (bindings.row gap ++ more)) :
    readText d p (bindingsRule d) (textOf (bindings.row gap ++ more) ++ behind) =
      some (bindings.part gap, textOf more ++ behind) := by
  have hbounded := @isBounded_bindingsRule d
  rw [bindingsRule] at hbounded ⊢
  rw [readText_alt_cons hbounded, readText_alt_cons hbounded.alt.2, readText_alt_nil, Option.or_none]
  cases bindings with
  | whole asGap nameGap name =>
      rw [readText_whole hfits]
      rfl
  | braces items trailing close =>
      have hnone : readText d p Grammar.namespaceImport
          (textOf ((Bindings.braces items trailing close).row gap ++ more) ++ behind) = none := by
        have hstar : IsBounded (.seq [Grammar.sign "*", Grammar.word "as", .name .identifier []]) := rfl
        rw [Bindings.row, List.cons_append] at hfits ⊢
        rw [Grammar.namespaceImport, readText_node_row hstar hfits, readsToken_star.seq hstar hfits.without_gap]
        rfl
      rw [hnone, readText_braces hfits]
      rfl

/-- A word or a string is neither a star nor a list. -/
theorem readText_bindings_none (hstar : s ≠ .mark '*') (hopen : s ≠ .mark '\x7b')
    (hfits : Fits behind ((gap, s) :: more)) :
    readText d p (bindingsRule d) (textOf ((gap, s) :: more) ++ behind) = none := by
  have hbounded := @isBounded_bindingsRule d
  have hwhole : IsBounded (.seq [Grammar.sign "*", Grammar.word "as", .name .identifier []]) := rfl
  have hlist : IsBounded (Grammar.braced (Grammar.listed (Grammar.importSpecifier d))) := by cases d <;> rfl
  rw [bindingsRule] at hbounded ⊢
  rw [readText_alt_cons hbounded, readText_alt_cons hbounded.alt.2, readText_alt_nil, Option.or_none,
    Grammar.namespaceImport, readText_node_row hwhole hfits, readsToken_star.seq hwhole hfits.without_gap,
    Grammar.namedImports, readText_node_row hlist hfits, Grammar.braced, readsToken_open.seq hlist hfits.without_gap]
  simp [markTest, hstar, hopen]

theorem Bindings.row_cons (bindings : Bindings d) :
    ∃ s tokens, (s = .mark '*' ∨ s = .mark '\x7b') ∧ ∀ gap, bindings.row gap = (gap, s) :: tokens := by
  cases bindings with
  | whole => exact ⟨_, _, .inl rfl, fun _ => rfl⟩
  | braces => exact ⟨_, _, .inr rfl, fun _ => rfl⟩

/-- A default name, and perhaps more behind a comma. -/
def namedRule (d : Dialect) : Production :=
  .seq [Grammar.identifier d [], .opt (.seq [Grammar.sign ",", bindingsRule d])]

theorem isBounded_namedRule : IsBounded (namedRule d) := by cases d <;> rfl

theorem isBounded_clauseRule : IsBounded (.alt [bindingsRule d, namedRule d]) := by cases d <;> rfl

theorem importClause_eq : Grammar.importClause d = .node .importClause (.alt [bindingsRule d, namedRule d]) := rfl

theorem isBounded_moreRule : IsBounded (.seq [Grammar.sign ",", bindingsRule d]) := by cases d <;> rfl

theorem readsToken_default : ReadsToken d p (Grammar.identifier d []) (nameTest d.reserved) :=
  readsToken_name d.reserved

/-- A clause is a star or a list, or else it has a default name. -/
theorem readText_clause_cons (hfits : Fits behind ((gap, s) :: more)) :
    readText d p (Grammar.importClause d) (textOf ((gap, s) :: more) ++ behind) =
      ((readText d p (bindingsRule d) (textOf (([], s) :: more) ++ behind)).or
        (readText d p (namedRule d) (textOf (([], s) :: more) ++ behind))).map fun r =>
          (Part.node .importClause gap r.1, r.2) := by
  have hbounded := @isBounded_clauseRule d
  rw [importClause_eq, readText_node_row hbounded hfits, readText_alt_cons hbounded,
    readText_alt_cons hbounded.alt.2, readText_alt_nil, Option.or_none]

theorem readText_clause_none (hstar : s ≠ .mark '*') (hopen : s ≠ .mark '\x7b')
    (hname : nameTest d.reserved s = none) (hfits : Fits behind ((gap, s) :: more)) :
    readText d p (Grammar.importClause d) (textOf ((gap, s) :: more) ++ behind) = none := by
  rw [readText_clause_cons hfits, readText_bindings_none hstar hopen hfits.without_gap, Option.none_or, namedRule,
    readsToken_default.seq isBounded_namedRule hfits.without_gap, hname]
  rfl

/-- A name that no comma follows is all of a clause. -/
theorem readText_clause_name {gap' : List Char} {s' : Segment} {word : List Char} (hnext : s' ≠ .mark ',')
    (hfits : Fits behind ((gap, .word word) :: (gap', s') :: more)) :
    readText d p (Grammar.importClause d) (textOf ((gap, .word word) :: (gap', s') :: more) ++ behind) =
      (nameTest d.reserved (.word word)).map fun part =>
        (Part.node .importClause gap (part []), textOf ((gap', s') :: more) ++ behind) := by
  have hinner := hfits.without_gap
  have hcomma : readText d p (.seq [Grammar.sign ",", bindingsRule d]) (textOf ((gap', s') :: more) ++ behind) =
      none := by
    rw [readsToken_comma.seq isBounded_moreRule hinner.2.2, markTest, if_neg hnext]
    rfl
  rw [readText_clause_cons hfits, readText_bindings_none (by simp) (by simp) hinner, Option.none_or, namedRule,
    readsToken_default.seq isBounded_namedRule hinner, readText_seq_last isBounded_namedRule.seq.2,
    readText_opt isBounded_moreRule, hcomma]
  cases nameTest d.reserved (.word word) with
  | none => rfl
  | some part => simp

/-- A clause in front of a word is read as its part. -/
theorem readText_clause (clause : Clause d) {word before : List Char}
    (hfits : Fits behind (clause.row gap ++ (before, .word word) :: more)) :
    readText d p (Grammar.importClause d) (textOf (clause.row gap ++ (before, .word word) :: more) ++ behind) =
      some (clause.part gap, textOf ((before, .word word) :: more) ++ behind) := by
  have hname {name : List Char} (free : String.ofList name ∉ d.reserved) :
      nameTest d.reserved (.word name) = some fun gap => namePart gap name := by
    simp [nameTest, free, namePart]
  cases clause with
  | bare bindings =>
      obtain ⟨s, tokens, -, hrow⟩ := bindings.row_cons
      have hinner : Fits behind (bindings.row [] ++ (before, .word word) :: more) := by
        rw [Clause.row, hrow] at hfits
        rw [hrow]
        exact hfits.without_gap
      have hbindings := @readText_bindings d p _ [] behind bindings hinner
      rw [Clause.row, hrow, List.cons_append] at hfits ⊢
      rw [hrow, List.cons_append] at hbindings
      rw [readText_clause_cons hfits, hbindings]
      rfl
  | named name free rest? =>
      cases rest? with
      | none =>
          have hrow : (Clause.named name free none).row gap ++ (before, .word word) :: more =
              (gap, .word name) :: (before, .word word) :: more := rfl
          rw [hrow] at hfits ⊢
          rw [readText_clause_name (by simp) hfits, hname free]
          rfl
      | some others =>
          obtain ⟨comma, front, bindings⟩ := others
          have hrow : (Clause.named name free (some (comma, front, bindings))).row gap ++ (before, .word word) :: more =
              (gap, .word name) :: (comma, .mark ',') :: (bindings.row front ++ (before, .word word) :: more) := rfl
          rw [hrow] at hfits ⊢
          rw [readText_clause_cons hfits, readText_bindings_none (by simp) (by simp) hfits.without_gap,
            Option.none_or, namedRule, readsToken_default.seq isBounded_namedRule hfits.without_gap, hname free,
            Option.bind_some, readText_seq_last isBounded_namedRule.seq.2, readText_opt isBounded_moreRule,
            readsToken_comma.seq isBounded_moreRule hfits.2.2, readText_seq_last isBounded_moreRule.seq.2,
            readText_bindings bindings hfits.2.2.2.2]
          rfl

end

section

variable {p : Place} {more : Spaced} {gap behind text rest : List Char} {s : Segment} {a : Part}

/-! ## Reading declarations -/

/-- What stands behind the word `import` and the word for types. -/
def importWhat (d : Dialect) : Production :=
  .alt [.seq [Grammar.importClause d, Grammar.fromClause], Grammar.onlyIf d.typed Grammar.importRequireClause,
    .role .source Grammar.string]

def importInner (d : Dialect) : Production :=
  .alt [.seq [Grammar.typeWord d, importWhat d], importWhat d]

/-- What may follow the path. -/
def importEnd : Production := .seq [.opt Grammar.importAttribute, Grammar.terminator]

theorem importStatement_eq : Grammar.importStatement d = .node .importStatement
    (.seq [Grammar.word "import", importInner d, .opt Grammar.importAttribute, Grammar.terminator]) := rfl

theorem isBounded_importWhat : IsBounded (importWhat d) := by cases d <;> rfl

theorem isBounded_importInner : IsBounded (importInner d) := by cases d <;> rfl

theorem isBounded_importRow : IsBounded
    (.seq [Grammar.word "import", importInner d, .opt Grammar.importAttribute, Grammar.terminator]) := by
  cases d <;> rfl

theorem readsToken_source :
    ReadsToken d p (.role .source Grammar.string) (stringTest.withRole .source) := readsToken_string.role .source

theorem readsToken_from : ReadsToken d p (Grammar.word "from") (wordTest "from") := readsToken_keyword (by decide)

/-- `a = require('b')` starts with a name and an equals sign. -/
theorem readText_require_none {gap' : List Char} {s' : Segment}
    (hfits : Fits behind ((gap, s) :: (gap', s') :: more)) :
    readText d p (Grammar.onlyIf d.typed Grammar.importRequireClause)
      (textOf ((gap, s) :: (gap', s') :: more) ++ behind) = none := by
  unfold Grammar.onlyIf
  split
  · have hbounded : IsBounded (.seq [.name .identifier [], Grammar.equals, Grammar.word "require",
        Grammar.sign "(", Grammar.string, Grammar.sign ")"]) := rfl
    have hmark : s' ≠ .mark '=' := by
      rintro rfl
      have hmem : '=' ∈ Segment.marks := hfits.2.2.2.1
      exact absurd hmem (by decide)
    have hequals : readText d p Grammar.equals (textOf ((gap', s') :: more) ++ behind) = none :=
      readText_mark_none (show "=".toList = ['='] from rfl) rfl (by decide) hfits.2.2 hmark
    rw [Grammar.importRequireClause, readText_node_row hbounded hfits,
      (readsToken_name []).seq hbounded hfits.without_gap, readText_seq_cons hbounded.seq.2, hequals]
    cases nameTest [] s <;> rfl
  · exact readText_alt_nil

theorem readText_require_none_of (hname : nameTest [] s = none) (hfits : Fits behind ((gap, s) :: more)) :
    readText d p (Grammar.onlyIf d.typed Grammar.importRequireClause) (textOf ((gap, s) :: more) ++ behind) =
      none := by
  unfold Grammar.onlyIf
  split
  · have hbounded : IsBounded (.seq [.name .identifier [], Grammar.equals, Grammar.word "require",
        Grammar.sign "(", Grammar.string, Grammar.sign ")"]) := rfl
    rw [Grammar.importRequireClause, readText_node_row hbounded hfits,
      (readsToken_name []).seq hbounded hfits.without_gap, hname]
    rfl
  · exact readText_alt_nil

/-- Clause and path. -/
theorem readText_from {before path : List Char} (hfits : Fits behind [(before, .word "from".toList), (gap, .quoted path)]) :
    readText d p Grammar.fromClause (textOf [(before, .word "from".toList), (gap, .quoted path)] ++ behind) =
      some (wordPart before "from" ++ Part.withRole .source (.token gap path (Node.leaf .string)), behind) := by
  have hbounded : IsBounded Grammar.fromClause := rfl
  rw [Grammar.fromClause] at hbounded ⊢
  rw [readsToken_from.seq hbounded hfits, readText_seq_last hbounded.seq.2, readsToken_source.reads hfits.2.2]
  rfl

theorem readText_what (decl : Declaration d) (hfits : Fits behind (decl.whatRow ++ [(decl.gap, .quoted decl.path)])) :
    readText d p (importWhat d) (textOf (decl.whatRow ++ [(decl.gap, .quoted decl.path)]) ++ behind) =
      some (decl.whatPart, behind) := by
  obtain ⟨types?, what?, gap, path⟩ := decl
  have hbounded := @isBounded_importWhat d
  rw [importWhat] at hbounded ⊢
  have hfirst : IsBounded (.seq [Grammar.importClause d, Grammar.fromClause]) := hbounded.alt.1
  rw [readText_alt_cons hbounded, readText_alt_cons hbounded.alt.2, readText_alt_cons hbounded.alt.2.alt.2,
    readText_alt_nil, Option.or_none, readText_seq_cons hfirst]
  cases what? with
  | none =>
      have hrow : (Declaration.mk types? none gap path).whatRow ++ [(gap, .quoted path)] = [(gap, .quoted path)] := rfl
      dsimp only at hfits ⊢
      rw [hrow] at hfits ⊢
      rw [readText_clause_none (by simp) (by simp) rfl hfits, readText_require_none_of rfl hfits,
        readsToken_source.reads hfits]
      rfl
  | some what =>
      obtain ⟨front, clause, before⟩ := what
      have hrow : (Declaration.mk types? (some (front, clause, before)) gap path).whatRow ++ [(gap, .quoted path)] =
          clause.row front ++ [(before, .word "from".toList), (gap, .quoted path)] := by
        simp [Declaration.whatRow]
      dsimp only at hfits ⊢
      rw [hrow] at hfits ⊢
      rw [readText_clause clause hfits, Option.bind_some, readText_seq_last hfirst.seq.2]
      dsimp only
      rw [readText_from (fits_append.mp hfits).2]
      rfl

/-- Behind a default name `type`, a comma does not start what is imported. -/
theorem readText_what_comma (hfits : Fits behind ((gap, .mark ',') :: more)) :
    readText d p (importWhat d) (textOf ((gap, .mark ',') :: more) ++ behind) = none := by
  have hbounded := @isBounded_importWhat d
  rw [importWhat] at hbounded ⊢
  rw [readText_alt_cons hbounded, readText_alt_cons hbounded.alt.2, readText_alt_cons hbounded.alt.2.alt.2,
    readText_alt_nil, Option.or_none, readText_seq_cons hbounded.alt.1,
    readText_clause_none (by decide) (by decide) rfl hfits, readText_require_none_of rfl hfits,
    readsToken_source.reads hfits]
  rfl

/-- Behind a default name `type`, neither does the word `from` with its path. -/
theorem readText_what_from {word path before : List Char}
    (hfits : Fits behind [(before, .word word), (gap, .quoted path)]) :
    readText d p (importWhat d) (textOf [(before, .word word), (gap, .quoted path)] ++ behind) = none := by
  have hbounded := @isBounded_importWhat d
  rw [importWhat] at hbounded ⊢
  have hfrom : readText d p (.seq [Grammar.fromClause]) (textOf [(gap, .quoted path)] ++ behind) = none := by
    have hbounded : IsBounded Grammar.fromClause := rfl
    rw [readText_seq_last rfl]
    exact readsToken_from.seq hbounded hfits.2.2
  have hclause : (readText d p (Grammar.importClause d)
      (textOf [(before, .word word), (gap, .quoted path)] ++ behind)).bind (fun first =>
        (readText d p (.seq [Grammar.fromClause]) first.2).map fun more => (first.1 ++ more.1, more.2)) = none := by
    rw [readText_clause_name (by simp) hfits]
    cases nameTest d.reserved (.word word) with
    | none => rfl
    | some part => simp only [Option.map_some, Option.bind_some, hfrom, Option.map_none]
  rw [readText_alt_cons hbounded, readText_alt_cons hbounded.alt.2, readText_alt_cons hbounded.alt.2.alt.2,
    readText_alt_nil, Option.or_none, readText_seq_cons hbounded.alt.1, hclause,
    readText_require_none hfits, readsToken_source.reads hfits]
  rfl

/-- Without a word for types, a declaration is not read as one with such a word: behind a default name `type`
there is nothing to import. -/
theorem readText_untyped (decl : Declaration d) (htypes : decl.types? = none)
    (hfits : Fits behind (decl.whatRow ++ [(decl.gap, .quoted decl.path)])) :
    readText d p (.seq [Grammar.typeWord d, importWhat d])
      (textOf (decl.whatRow ++ [(decl.gap, .quoted decl.path)]) ++ behind) = none := by
  obtain ⟨types?, what?, gap, path⟩ := decl
  have hbounded : IsBounded (.seq [Grammar.typeWord d, importWhat d]) := (@isBounded_importInner d).alt.1
  have hquoted : typeTest d (.quoted path) = none := by cases d <;> rfl
  have hmark {s : Segment} (hs : s = .mark '*' ∨ s = .mark '\x7b') : typeTest d s = none := by
    rcases hs with rfl | rfl <;> cases d <;> rfl
  dsimp only [Declaration.whatRow] at hfits ⊢
  cases what? with
  | none =>
      dsimp only at hfits ⊢
      rw [List.nil_append] at hfits ⊢
      rw [readsToken_typeWord.seq hbounded hfits, hquoted]
      rfl
  | some what =>
      obtain ⟨front, clause, before⟩ := what
      dsimp only at hfits ⊢
      rw [List.append_assoc] at hfits ⊢
      cases clause with
      | bare bindings =>
          obtain ⟨s, tokens, hs, hrow⟩ := bindings.row_cons
          rw [show (Clause.bare bindings).row front = (front, s) :: tokens from hrow front, List.cons_append]
            at hfits ⊢
          rw [readsToken_typeWord.seq hbounded hfits, hmark hs]
          rfl
      | named name free rest? =>
          have hrefused {tokens : Spaced} (hfits : Fits behind ((front, .word name) :: tokens))
              (hnone : readText d p (importWhat d) (textOf tokens ++ behind) = none) :
              readText d p (.seq [Grammar.typeWord d, importWhat d])
                (textOf ((front, .word name) :: tokens) ++ behind) = none := by
            rw [readsToken_typeWord.seq hbounded hfits, readText_seq_last hbounded.seq.2, hnone]
            cases typeTest d (.word name) <;> rfl
          cases rest? with
          | none => exact hrefused hfits (readText_what_from hfits.2.2)
          | some => exact hrefused hfits (readText_what_comma hfits.2.2)

theorem typeTest_word (word : TypeWord d) :
    typeTest d (.word word.word.toList) = some fun gap => wordPart gap word.word := by
  obtain ⟨gap, word, htyped, rfl | rfl⟩ := word
  · simp [typeTest, htyped, TokenTest.or, wordTest, wordPart]
  · simp [typeTest, htyped, TokenTest.or, wordTest, wordPart]

/-- What stands behind the word `import` is read as its part. -/
theorem readText_inner (decl : Declaration d)
    (hfits : Fits behind (decl.typesRow ++ (decl.whatRow ++ [(decl.gap, .quoted decl.path)]))) :
    readText d p (importInner d)
        (textOf (decl.typesRow ++ (decl.whatRow ++ [(decl.gap, .quoted decl.path)])) ++ behind) =
      some (decl.typesPart ++ decl.whatPart, behind) := by
  have hbounded := @isBounded_importInner d
  have hwhat := @readText_what d p behind decl (fits_append.mp hfits).2
  rw [importInner] at hbounded ⊢
  rw [readText_alt_cons hbounded, readText_alt_cons hbounded.alt.2, readText_alt_nil, Option.or_none]
  cases htypes : decl.types? with
  | none =>
      have hrow : decl.typesRow = [] := by simp [Declaration.typesRow, htypes]
      have hpart : decl.typesPart = .nil := by simp [Declaration.typesPart, htypes]
      rw [hrow, List.nil_append] at hfits ⊢
      rw [readText_untyped decl htypes hfits, hwhat, hpart, Part.nil_append]
      rfl
  | some word =>
      have hrow : decl.typesRow = [(word.gap, .word word.word.toList)] := by simp [Declaration.typesRow, htypes]
      have hpart : decl.typesPart = wordPart word.gap word.word := by simp [Declaration.typesPart, htypes]
      rw [hrow, List.singleton_append] at hfits ⊢
      rw [readsToken_typeWord.seq hbounded.alt.1 hfits, typeTest_word, Option.bind_some,
        readText_seq_last hbounded.alt.1.seq.2, hwhat, hpart]
      rfl

/-- A declaration that fits is read as its part, with what ends the statement. -/
theorem readText_declaration (decl : Declaration d) (hfits : Fits behind decl.row) :
    readText d p (Grammar.importStatement d) (textOf decl.row ++ behind) =
      (readText d p importEnd behind).map fun r => (decl.part r.1, r.2) := by
  have hbounded := @isBounded_importRow d
  have himport : ReadsToken d p (Grammar.word "import") (wordTest "import") := readsToken_keyword (by decide)
  have hword : wordTest "import" (.word "import".toList) = some fun gap => wordPart gap "import" := rfl
  rw [Declaration.row] at hfits ⊢
  rw [importStatement_eq, readText_node_row hbounded hfits, himport.seq hbounded hfits,
    readText_seq_cons hbounded.seq.2, readText_inner decl hfits.2.2, hword, Option.bind_some, Option.bind_some,
    Option.map_map, Option.map_map]
  rfl

end

/-! ## What has been read -/

section

variable {p : Place} {text rest : List Char} {a : Part}

theorem readText_item_inv (h : readText d p (Grammar.importSpecifier d) text = some (a, rest)) :
    ∃ item : Specifier d, Spans item.tokens text rest := by
  obtain ⟨tokens, -, -, -, hspans, -, -, hreads⟩ := readText_specifier_inv h
  exact ⟨⟨tokens, a, hreads⟩, hspans⟩

theorem readText_more_inv {text : List Char} {a : Part}
    (h : readText d p (.many (commaItem d)) text = some (a, rest)) :
    ∃ items : List (List Char × Specifier d), Spans (moreRow items) text rest := by
  -- each round leaves a shorter text
  induction hn : text.length using Nat.strongRecOn generalizing text a with
  | _ n ih =>
  subst hn
  have hbites : (commaItem d).bites = true := by cases d <;> rfl
  rcases readText_many_inv isBounded_commaItem hbites h with rfl | ⟨b, middle, c, hb, hc⟩
  · exact ⟨[], spans_nil rest⟩
  · obtain ⟨items, hitems⟩ := ih middle.length (length_readText_lt isBounded_commaItem hbites hb) hc rfl
    obtain ⟨b', front, c', hcomma, hitem⟩ := readText_seq_inv isBounded_commaItem hb
    rw [readText_seq_last isBounded_commaItem.seq.2] at hitem
    obtain ⟨gap, s, hspans, htest⟩ := readsToken_comma.taken hcomma
    obtain ⟨item, hitem⟩ := readText_item_inv hitem
    obtain rfl : s = .mark ',' := by
      by_contra hne
      simp [markTest, hne] at htest
    exact ⟨(gap, item) :: items, (hspans.append hitem).append hitems⟩

theorem markTest_eq {name : String} {ch : Char} {s : Segment} (h : (markTest name ch s).isSome = true) :
    s = .mark ch := by
  by_contra hne
  simp [markTest, hne] at h

theorem wordTest_eq {name : String} {s : Segment} (h : (wordTest name s).isSome = true) :
    s = .word name.toList := by
  by_contra hne
  simp [wordTest, hne] at h

theorem nameTest_eq {except : List String} {s : Segment} (h : (nameTest except s).isSome = true) :
    ∃ word, s = .word word ∧ String.ofList word ∉ except := by
  cases s with
  | word word =>
      refine ⟨word, rfl, fun hmem => ?_⟩
      simp [nameTest, hmem] at h
  | _ => cases h

theorem readText_listed_inv
    (h : readText d p (Grammar.listed (Grammar.importSpecifier d)) text = some (a, rest)) :
    ∃ (items : List (List Char × Specifier d)) (trailing : Option (List Char)),
      Spans (itemsRow items ++ trailingRow trailing) text rest := by
  have hbounded : IsBounded (Grammar.listed (Grammar.importSpecifier d)) := by cases d <;> rfl
  have hitems : IsBounded (Grammar.separated (Grammar.importSpecifier d)) := by cases d <;> rfl
  obtain ⟨b, middle, c, hb, hc⟩ := readText_seq_inv hbounded h
  rw [readText_seq_last hbounded.seq.2] at hc
  obtain ⟨trailing, htrailing⟩ : ∃ trailing, Spans (trailingRow trailing) middle rest := by
    rcases readText_opt_inv rfl hc with hcomma | rfl
    · obtain ⟨gap, s, hspans, htest⟩ := readsToken_comma.taken hcomma
      obtain rfl := markTest_eq htest
      exact ⟨some gap, hspans⟩
    · exact ⟨none, spans_nil rest⟩
  rcases readText_opt_inv hitems hb with hseparated | rfl
  · obtain ⟨b', front, c', hfirst, hmore⟩ := readText_seq_inv hitems hseparated
    rw [readText_seq_last hitems.seq.2] at hmore
    obtain ⟨item, hitem⟩ := readText_item_inv hfirst
    obtain ⟨items, hitems⟩ := readText_more_inv hmore
    exact ⟨([], item) :: items, trailing, (hitem.append hitems).append htrailing⟩
  · exact ⟨[], trailing, htrailing⟩

theorem readText_bindings_inv (h : readText d p (bindingsRule d) text = some (a, rest)) :
    ∃ (bindings : Bindings d) (gap : List Char), Spans (bindings.row gap) text rest := by
  have hlist : IsBounded (Grammar.braced (Grammar.listed (Grammar.importSpecifier d))) := by cases d <;> rfl
  have hlisted : IsBounded (Grammar.listed (Grammar.importSpecifier d)) := by cases d <;> rfl
  have hwhole : IsBounded (.seq [Grammar.sign "*", Grammar.word "as", .name .identifier []]) := rfl
  obtain ⟨choice, hchoice, hread⟩ := readText_alt_inv isBounded_bindingsRule h
  rcases List.mem_pair.mp hchoice with rfl | rfl
  · obtain ⟨gap, more, b, rfl, hgap, -, hb, -⟩ := readText_node_inv hwhole rfl hread
    obtain ⟨b₁, text₁, c₁, hstar, hmore⟩ := readText_seq_inv hwhole hb
    obtain ⟨b₂, text₂, c₂, has, hname⟩ := readText_seq_inv hwhole.seq.2 hmore
    rw [readText_seq_last hwhole.seq.2.seq.2] at hname
    obtain ⟨starGap, s₁, hspans₁, htest₁⟩ := readsToken_star.taken hstar
    obtain ⟨asGap, s₂, hspans₂, htest₂⟩ := (readsToken_keyword (by decide)).taken has
    obtain ⟨nameGap, s₃, hspans₃, htest₃⟩ := (readsToken_name []).taken hname
    obtain rfl := markTest_eq htest₁
    obtain rfl := wordTest_eq htest₂
    obtain ⟨name, rfl, -⟩ := nameTest_eq htest₃
    exact ⟨.whole asGap nameGap name, gap ++ starGap, ((hspans₁.append hspans₂).append hspans₃).behind_gap hgap⟩
  · obtain ⟨gap, more, b, rfl, hgap, -, hb, -⟩ := readText_node_inv hlist (by cases d <;> rfl) hread
    obtain ⟨b₁, text₁, c₁, hopen, hmore⟩ := readText_seq_inv hlist hb
    obtain ⟨b₂, text₂, c₂, hitems, hclose⟩ := readText_seq_inv hlist.seq.2 hmore
    rw [readText_inside hlisted] at hitems
    rw [readText_seq_last hlist.seq.2.seq.2] at hclose
    obtain ⟨openGap, s₁, hspans₁, htest₁⟩ := readsToken_open.taken hopen
    obtain ⟨items, trailing, hspans₂⟩ := readText_listed_inv hitems
    obtain ⟨close, s₃, hspans₃, htest₃⟩ := readsToken_close.taken hclose
    obtain rfl := markTest_eq htest₁
    obtain rfl := markTest_eq htest₃
    refine ⟨.braces items trailing close, gap ++ openGap, ?_⟩
    have hrow := ((hspans₁.append hspans₂).append hspans₃).behind_gap hgap
    simpa [Bindings.row] using hrow

theorem readText_clause_inv (h : readText d p (Grammar.importClause d) text = some (a, rest)) :
    ∃ (clause : Clause d) (gap : List Char), Spans (clause.row gap) text rest := by
  obtain ⟨gap, more, b, rfl, hgap, -, hb, -⟩ := readText_node_inv isBounded_clauseRule (by cases d <;> rfl)
    (importClause_eq ▸ h)
  obtain ⟨choice, hchoice, hread⟩ := readText_alt_inv isBounded_clauseRule hb
  rcases List.mem_pair.mp hchoice with rfl | rfl
  · obtain ⟨bindings, front, hspans⟩ := readText_bindings_inv hread
    obtain ⟨s, tokens, -, hrow⟩ := bindings.row_cons
    refine ⟨.bare bindings, gap ++ front, ?_⟩
    rw [hrow] at hspans
    rw [Clause.row, hrow]
    exact hspans.behind_gap hgap
  · obtain ⟨b₁, text₁, c₁, hname, hmore⟩ := readText_seq_inv isBounded_namedRule hread
    rw [readText_seq_last isBounded_namedRule.seq.2] at hmore
    obtain ⟨front, s, hspans, htest⟩ := readsToken_default.taken hname
    obtain ⟨name, rfl, free⟩ := nameTest_eq htest
    rcases readText_opt_inv isBounded_moreRule hmore with hothers | rfl
    · obtain ⟨b₂, text₂, c₂, hcomma, hbindings⟩ := readText_seq_inv isBounded_moreRule hothers
      rw [readText_seq_last isBounded_moreRule.seq.2] at hbindings
      obtain ⟨comma, s, hspans₂, htest⟩ := readsToken_comma.taken hcomma
      obtain rfl := markTest_eq htest
      obtain ⟨bindings, behind, hspans₃⟩ := readText_bindings_inv hbindings
      exact ⟨.named name free (some (comma, behind, bindings)), gap ++ front,
        ((hspans.append hspans₂).append hspans₃).behind_gap hgap⟩
    · exact ⟨.named name free none, gap ++ front, hspans.behind_gap hgap⟩

/-- An import of a path, or one that calls `require`. -/
theorem readText_what_inv (h : readText d p (importWhat d) text = some (a, rest)) :
    (∃ (what? : Option (List Char × Clause d × List Char)) (gap path : List Char),
      Spans ((Declaration.mk none what? gap path).whatRow ++ [(gap, .quoted path)]) text rest) ∨
    readText d p (Grammar.onlyIf d.typed Grammar.importRequireClause) text = some (a, rest) := by
  obtain ⟨choice, hchoice, hread⟩ := readText_alt_inv isBounded_importWhat h
  simp only [List.mem_cons, List.not_mem_nil, or_false] at hchoice
  rcases hchoice with rfl | rfl | rfl
  · have hbounded : IsBounded (.seq [Grammar.importClause d, Grammar.fromClause]) :=
      (@isBounded_importWhat d).alt.1
    have hfrom : IsBounded Grammar.fromClause := rfl
    obtain ⟨b₁, text₁, c₁, hclause, hmore⟩ := readText_seq_inv hbounded hread
    rw [readText_seq_last hbounded.seq.2] at hmore
    obtain ⟨b₂, text₂, c₂, hword, hpath⟩ := readText_seq_inv hfrom hmore
    rw [readText_seq_last rfl] at hpath
    obtain ⟨clause, front, hspans₁⟩ := readText_clause_inv hclause
    obtain ⟨before, s, hspans₂, htest⟩ := readsToken_from.taken hword
    obtain rfl := wordTest_eq htest
    obtain ⟨gap, s, hspans₃, htest⟩ := readsToken_source.taken hpath
    cases s with
    | quoted path =>
        exact .inl ⟨some (front, clause, before), gap, path, (hspans₁.append hspans₂).append hspans₃⟩
    | _ => cases htest
  · exact .inr hread
  · obtain ⟨gap, s, hspans, htest⟩ := readsToken_source.taken hread
    cases s with
    | quoted path => exact .inl ⟨none, gap, path, hspans⟩
    | _ => cases htest

theorem typeTest_eq {s : Segment} (h : (typeTest d s).isSome = true) (gap : List Char) :
    ∃ word : TypeWord d, word.gap = gap ∧ s = .word word.word.toList := by
  unfold typeTest at h
  split at h
  · rename_i htyped
    rw [TokenTest.or, Option.isSome_or, Bool.or_eq_true] at h
    rcases h with h | h
    · exact ⟨⟨gap, "type", htyped, .inl rfl⟩, rfl, wordTest_eq h⟩
    · exact ⟨⟨gap, "typeof", htyped, .inr rfl⟩, rfl, wordTest_eq h⟩
  · cases h

/-- No gap stands in front of a token. -/
theorem Gap.eq_nil {gap more : List Char} (h : Gap gap) (hmore : Starts (more.map glyphOf))
    (hstarts : Starts ((gap ++ more).map glyphOf)) : gap = [] := by
  have hpassed : trivia gap.length ⟨0, gap.map glyphOf ++ more.map glyphOf⟩ = _ :=
    h.passable hmore (Nat.le_refl _)
  rw [← List.map_append, hstarts 0] at hpassed
  have hoffset := congrArg (fun r : Reading => r.2.offset) hpassed
  by_contra hne
  have hpos := bytesOf_pos hne
  simp only at hoffset
  omega

theorem readText_seq_head {rule other : Production} {rules : List Production}
    (hbounded : IsBounded (.seq (rule :: rules))) (hother : IsBounded (.seq (other :: rules)))
    (h : readText d p rule text = readText d p other text) :
    readText d p (.seq (rule :: rules)) text = readText d p (.seq (other :: rules)) text := by
  rw [readText_seq_cons hbounded, readText_seq_cons hother, h]

/-- What may stand behind the word `import` in place of a path and what comes from it. -/
def RequireInner (d : Dialect) (rule : Production) : Prop :=
  let required := Grammar.onlyIf d.typed Grammar.importRequireClause
  rule = .seq [Grammar.typeWord d, required] ∨ rule = required

theorem readText_inner_inv {middle : List Char} (h : readText d p (importInner d) text = some (a, middle)) :
    (∃ decl : Declaration d,
      Spans (decl.typesRow ++ (decl.whatRow ++ [(decl.gap, .quoted decl.path)])) text middle) ∨
    ∃ rule, RequireInner d rule ∧ readText d p rule text = some (a, middle) := by
  have hbounded := @isBounded_importInner d
  rw [importInner] at hbounded h
  rw [readText_alt_cons hbounded, readText_alt_cons hbounded.alt.2, readText_alt_nil, Option.or_none] at h
  rcases Option.or_eq_some_iff.mp h with hread | ⟨-, hread⟩
  · obtain ⟨b₁, text₁, c₁, hword, hwhat⟩ := readText_seq_inv hbounded.alt.1 hread
    rw [readText_seq_last hbounded.alt.1.seq.2] at hwhat
    rcases readText_what_inv hwhat with ⟨what?, gap, path, hspans⟩ | hrequire
    · obtain ⟨front, s, hfirst, htest⟩ := readsToken_typeWord.taken hword
      obtain ⟨word, rfl, rfl⟩ := typeTest_eq htest front
      exact .inl ⟨⟨some word, what?, gap, path⟩, hfirst.append hspans⟩
    · have hrule : IsBounded (.seq [Grammar.typeWord d, Grammar.onlyIf d.typed Grammar.importRequireClause]) := by
        cases d <;> rfl
      refine .inr ⟨_, .inl rfl, ?_⟩
      rw [readText_seq_cons hbounded.alt.1, hword, Option.bind_some, readText_seq_last hbounded.alt.1.seq.2,
        hwhat] at hread
      rw [readText_seq_cons hrule, hword, Option.bind_some, readText_seq_last hrule.seq.2, hrequire]
      exact hread
  · rcases readText_what_inv hread with ⟨what?, gap, path, hspans⟩ | hrequire
    · exact .inl ⟨⟨none, what?, gap, path⟩, hspans⟩
    · exact .inr ⟨_, .inr rfl, hrequire⟩

/-- What has been read as an import statement is a declaration that fits, or imports no path of its own. -/
theorem readText_declaration_inv (hstarts : Starts (text.map glyphOf))
    (h : readText d p (Grammar.importStatement d) text = some (a, rest)) :
    (∃ decl : Declaration d, ∃ tail middle, Spans decl.row text middle ∧
      readText d p importEnd middle = some (tail, rest) ∧ a = decl.part tail) ∨
    ∃ rule, RequireInner d rule ∧ ∃ b, a = .node .importStatement [] b ∧
      readText d p (.seq [Grammar.word "import", rule, .opt Grammar.importAttribute, Grammar.terminator]) text =
        some (b, rest) := by
  have hbounded := @isBounded_importRow d
  have himport : ReadsToken d p (Grammar.word "import") (wordTest "import") := readsToken_keyword (by decide)
  obtain ⟨gap, more, b, htext, hgap, hmore, hb, ha⟩ := readText_node_inv hbounded (by cases d <;> rfl)
    (importStatement_eq ▸ h)
  obtain rfl : gap = [] := hgap.eq_nil hmore (htext ▸ hstarts)
  rw [List.nil_append] at htext
  subst htext
  obtain ⟨b₁, text₁, c₁, hword, hothers⟩ := readText_seq_inv hbounded hb
  obtain ⟨b₂, middle, tail, hinner, htail⟩ := readText_seq_inv hbounded.seq.2 hothers
  rcases readText_inner_inv hinner with ⟨decl, hspans⟩ | ⟨rule, hrule, hread⟩
  · obtain ⟨front, s, hfirst, htest⟩ := himport.taken hword
    obtain rfl := wordTest_eq htest
    obtain rfl : front = [] := by
      refine hfirst.2.1.eq_nil hfirst.2.2.1.starts ?_
      rw [← textOf_cons_append]
      exact hfirst.1 ▸ hstarts
    have hrow : Spans decl.row text middle := hfirst.append hspans
    have hread := @readText_declaration d p middle decl hrow.2
    rw [← hrow.1, h] at hread
    obtain ⟨⟨tail, last⟩, hend, heq⟩ := Option.map_eq_some_iff.mp hread.symm
    cases heq
    exact .inl ⟨decl, tail, middle, hrow, hend, rfl⟩
  · have hother : IsBounded (.seq [rule, .opt Grammar.importAttribute, Grammar.terminator]) := by
      rcases hrule with rfl | rfl <;> cases d <;> rfl
    have hwhole : IsBounded
        (.seq [Grammar.word "import", rule, .opt Grammar.importAttribute, Grammar.terminator]) := by
      rcases hrule with rfl | rfl <;> cases d <;> rfl
    refine .inr ⟨rule, hrule, b, ha, ?_⟩
    rw [readText_seq_cons hbounded, hword, Option.bind_some,
      readText_seq_head hbounded.seq.2 hother (hinner.trans hread.symm)] at hb
    rw [readText_seq_cons hwhole, hword, Option.bind_some]
    exact hb

end

end Syntax

end ImportAssist
