import ImportAssist.Proofs.DeclaredNames
import ImportAssist.Proofs.Snippets

/-!
# Declarations that a binding joins

A binding that is merged changes a declaration in one of a few ways: a clause comes in front of the path, a
name in front of the star or the list, a star or a list behind the default name or in place of a list, a name
behind the last specifier. Each is a change of a row of tokens into another row (`Rewrites`), and it stays one
with other tokens around the row (`Rewrites.within`).

The new row fits where the old one did, on one condition: the new text must not stand directly behind a word
or in front of one if it starts or ends with a word (`Change.HasRoom`). That happens where the tokens have no
gap between them, as in `import{a}from'./x'`.
-/

namespace ImportAssist

/-- The names that a statement binds after a binding has joined it: with its default name `default?`, it has
bound `names`. A name for the whole module takes the place of a list. -/
def Binding.joined (default? : Option String) (names : List String) : Binding → List String
  | .default x => x :: names
  | .named x => names ++ [x]
  | .wildcard x => default?.toList ++ [x]

/-- A name can be bound in every dialect. -/
theorem Shape.IsName.not_reserved {d : Dialect} {x : String} (h : Shape.IsName x) :
    String.ofList x.toList ∉ d.reserved := by
  rw [String.ofList_toList]
  rcases h.free with rfl | hspecial
  · cases d <;> decide
  · cases d with
    | javascript => exact fun hmem => hspecial (List.mem_append_right _ hmem)
    | typescript | tsx => exact nofun

namespace Syntax

open Utf8 (glyphOf)

/-! ## Changes -/

/-- Whether a word goes on from one text into the next. -/
def meets (left right : List Glyph) : Bool :=
  left.getLast?.any Lexeme.isWordGlyph && right.head?.any Lexeme.isWordGlyph

/-- A text with a span of it replaced. -/
structure Change where
  lead : List Char
  old : List Char
  new : List Char
  rest : List Char

namespace Change

def before (change : Change) : List Char := change.lead ++ (change.old ++ change.rest)

def after (change : Change) : List Char := change.lead ++ (change.new ++ change.rest)

/-- The edit that makes the change behind a text. -/
def edit (change : Change) (front : List Char) : Edit :=
  ⟨bytesOf (front ++ change.lead), bytesOf (front ++ (change.lead ++ change.old)), String.ofList change.new⟩

/-- The new text joins no words. -/
structure HasRoom (change : Change) (behind : List Char) : Prop where
  front : meets (change.lead.map glyphOf) (change.new.map glyphOf) = false
  back : meets (change.new.map glyphOf) ((change.rest ++ behind).map glyphOf) = false

/-- The change with text around it. -/
def within (change : Change) (front back : List Char) : Change :=
  ⟨front ++ change.lead, change.old, change.new, change.rest ++ back⟩

end Change

theorem meets_append {front left right : List Glyph} (h : meets left right = true) :
    meets (front ++ left) right = true := by
  rw [meets, Bool.and_eq_true, Option.any_eq_true] at h ⊢
  obtain ⟨⟨g, hg, hword⟩, hright⟩ := h
  refine ⟨⟨g, ?_, hword⟩, hright⟩
  rw [List.getLast?_append, hg, Option.some_or]

theorem Change.HasRoom.inner {change : Change} {front back behind : List Char}
    (h : (change.within front back).HasRoom behind) : change.HasRoom (back ++ behind) := by
  refine ⟨?_, by simpa [within] using h.back⟩
  rw [Bool.eq_false_iff]
  intro hmeets
  have hfront := h.front
  rw [within, List.map_append, meets_append hmeets] at hfront
  cases hfront

/-- A change of a text that is a row of tokens, into another row. -/
structure Rewrites (change : Change) (tokens tokens' : Spaced) : Prop where
  text_eq : textOf tokens = change.before
  new_text_eq : textOf tokens' = change.after
  fits : ∀ {behind : List Char}, Fits behind tokens → change.HasRoom behind → Fits behind tokens'

/-- With other tokens around it, the change is one of the whole row, if the tokens in front end where they
did. -/
theorem Rewrites.within {change : Change} {front tokens tokens' back : Spaced} (h : Rewrites change tokens tokens')
    (hends : ∀ {behind : List Char}, Fits behind (tokens ++ back) →
      (change.within (textOf front) (textOf back)).HasRoom behind →
        EndsWord ((textOf (tokens ++ back) ++ behind).map glyphOf) →
          EndsWord ((textOf (tokens' ++ back) ++ behind).map glyphOf)) :
    Rewrites (change.within (textOf front) (textOf back)) (front ++ (tokens ++ back))
      (front ++ (tokens' ++ back)) where
  text_eq := by simp [h.text_eq, Change.before, Change.within]
  new_text_eq := by simp [h.new_text_eq, Change.after, Change.within]
  fits {behind} hfits hroom := by
    obtain ⟨hfront, hfits⟩ := fits_append.mp hfits
    obtain ⟨htokens, hback⟩ := fits_append.mp hfits
    have hnew := h.fits htokens hroom.inner
    refine fits_append.mpr ⟨hfront.exchange fun hhere => ?_, fits_append.mpr ⟨hnew, hback⟩⟩
    exact hends hfits hroom hhere

/-! ## Ends of words -/

section

variable {gap behind : List Char} {tokens tokens' : Spaced}

theorem endsWord_mark {ch : Char} (hgap : Gap gap) (hch : ch ∈ Segment.marks) :
    EndsWord ((textOf ((gap, .mark ch) :: tokens) ++ behind).map glyphOf) := by
  have hmark : Lexeme.isWordGlyph (glyphOf ch) = false ∧ ch ≠ '\\' := by
    rcases Segment.mem_marks hch with rfl | rfl | rfl | rfl <;> decide
  rw [textOf_cons_append, List.map_append]
  refine hgap.endsWord fun _ => ?_
  have hends := @endsWord_cons (textOf tokens ++ behind) [] ch hmark.1 hmark.2
  rwa [List.append_nil] at hends

theorem endsWord_blank {chars : List Char} : EndsWord ((' ' :: chars).map glyphOf) := by
  have hends := @endsWord_cons chars [] ' ' rfl (by decide)
  rwa [List.append_nil] at hends

/-- Whether a word ends in front of a row depends on the first token only. -/
theorem endsWord_first {s : Segment} (hgap : Gap gap) (hs : s.Stands (textOf tokens ++ behind))
    (hhere : EndsWord ((textOf ((gap, s) :: tokens) ++ behind).map glyphOf)) :
    EndsWord ((textOf ((gap, s) :: tokens') ++ behind).map glyphOf) := by
  rw [textOf_cons_append, List.map_append] at hhere ⊢
  refine hgap.endsWord fun hnil => hs.endsWord ?_
  subst hnil
  exact hhere

/-- Where there is room between a word and a name, the word ends. -/
theorem endsWord_room {lead name more : List Char} (hgap : Gap gap)
    (hlead : ∃ ch ∈ lead.getLast?, Lexeme.isWordGlyph (glyphOf ch) = true) (hname : IsWord name)
    (hroom : gap = [] → meets (lead.map glyphOf) ((name ++ more).map glyphOf) = false) :
    EndsWord ((gap ++ behind).map glyphOf) := by
  rw [List.map_append]
  refine hgap.endsWord fun hnil => ?_
  obtain ⟨last, hlast, hword⟩ := hlead
  obtain ⟨first, others, rfl, -⟩ := hname.start
  have hfirst : Lexeme.isWordGlyph (glyphOf first) = true := hname.glyphs first List.mem_cons_self
  have hmeets : meets (lead.map glyphOf) ((first :: others ++ more).map glyphOf) = true := by
    simp [meets, Option.mem_def.mp hlast, hword, hfirst]
  rw [hroom hnil] at hmeets
  cases hmeets

/-- A word ends with a character of a word. -/
theorem IsWord.last {word : List Char} (h : IsWord word) (front : List Char) :
    ∃ ch ∈ (front ++ word).getLast?, Lexeme.isWordGlyph (glyphOf ch) = true := by
  obtain ⟨first, others, rfl, -⟩ := h.start
  have hlast := List.getLast?_eq_some_getLast (List.cons_ne_nil first others)
  refine ⟨_, ?_, h.glyphs _ (List.getLast_mem (List.cons_ne_nil first others))⟩
  rw [List.getLast?_append, hlast]
  rfl

end

/-! ## New tokens -/

section

variable {d : Dialect} {x : String} {gap behind : List Char}

/-- A specifier of one name. -/
def Specifier.plain (d : Dialect) (gap name : List Char) : Specifier d where
  tokens := [(gap, .word name)]
  part := Part.node .importSpecifier gap ((namePart [] name).withRole .name)
  reads := by
    have hname : matchTokens [(nameTest []).withRole .name] [([], .word name)] =
        some ((namePart [] name).withRole .name) := by
      simp [matchTokens, TokenTest.withRole, nameTest, namePart]
    have hinner : specifierInner d [([], .word name)] = some ((namePart [] name).withRole .name) := by
      simp only [specifierInner, specifierForms, List.findSome?_cons, hname]
      cases typeTest d (.word name) <;> simp [matchTokens, exportTest, TokenTest.withRole, TokenTest.or, nameTest]
    rw [specifierPart, hinner]
    rfl

/-- `{ x }` -/
def Bindings.one (d : Dialect) (x : String) : Bindings d :=
  .braces [([], Specifier.plain d [' '] x.toList)] none [' ']

/-- `* as x` -/
def Bindings.every (d : Dialect) (x : String) : Bindings d := .whole [' '] [' '] x.toList

theorem gap_blank : Gap [' '] := .blank rfl .nil

theorem stands_mark {ch : Char} (hch : ch ∈ Segment.marks) : (Segment.mark ch).Stands behind := hch

theorem fits_one (hname : Shape.IsName x) (hgap : Gap gap) : Fits behind ((Bindings.one d x).row gap) :=
  ⟨hgap, stands_mark (by decide), gap_blank, ⟨hname.word.isWhole, endsWord_blank⟩, gap_blank,
    stands_mark (by decide), trivial⟩

theorem isWord_as : IsWord "as".toList := Shape.isWord_of_all (by decide) (by decide)

theorem isWord_from : IsWord "from".toList := Shape.isWord_of_all (by decide) (by decide)

theorem fits_every (hname : Shape.IsName x) (hgap : Gap gap) (hends : EndsWord (behind.map glyphOf)) :
    Fits behind ((Bindings.every d x).row gap) :=
  ⟨hgap, stands_mark (by decide), gap_blank, ⟨isWord_as.isWhole, endsWord_blank⟩, gap_blank,
    ⟨hname.word.isWhole, hends⟩, trivial⟩

/-- A star or a list is what a binding is written as. -/
structure Bindings.Writes (bindings : Bindings d) (binding : Binding) : Prop where
  text_eq : ∀ gap, textOf (bindings.row gap) = gap ++ binding.render.toList
  names_eq : bindings.names = [binding.identifier.toList]
  fits : ∀ {gap behind : List Char}, Gap gap →
    ((∃ x, binding = .wildcard x) → EndsWord (behind.map glyphOf)) → Fits behind (bindings.row gap)

theorem one_writes (hname : Shape.IsName x) : (Bindings.one d x).Writes (.named x) where
  text_eq gap := by
    simp [Bindings.one, Bindings.row, itemsRow, moreRow, trailingRow, Specifier.plain, Segment.chars, Binding.render]
  names_eq := by
    simp [Bindings.one, Bindings.names, Bindings.star?, Bindings.items, itemNames, Specifier.name, Specifier.plain,
      Segment.chars, Binding.identifier]
  fits hgap _ := fits_one hname hgap

theorem every_writes (hname : Shape.IsName x) : (Bindings.every d x).Writes (.wildcard x) where
  text_eq gap := by simp [Bindings.every, Bindings.row, Segment.chars, Binding.render]
  names_eq := by
    simp [Bindings.every, Bindings.names, Bindings.star?, Bindings.items, itemNames, Binding.identifier]
  fits hgap hends := fits_every hname hgap (hends ⟨x, rfl⟩)

end

/-! ## Changes of rows -/

section

variable {d : Dialect} {binding : Binding} {new : Bindings d} {x : String} {gap before path : List Char}

/-- A star or a list in place of another one. -/
theorem rewrites_bindings (hwrites : new.Writes binding) (hname : Shape.IsName binding.identifier)
    (old : Bindings d) :
    Rewrites ⟨gap, textOf (old.row []), binding.render.toList, before ++ "from".toList⟩
      (old.row gap ++ [(before, .word "from".toList)]) (new.row gap ++ [(before, .word "from".toList)]) where
  text_eq := by
    obtain ⟨s, tokens, -, hrow⟩ := old.row_cons
    simp [hrow, Change.before, Segment.chars]
  new_text_eq := by simp [hwrites.text_eq, Change.after, Segment.chars]
  fits {behind} hfits hroom := by
    obtain ⟨hold, hfrom⟩ := fits_append.mp hfits
    have hgap : Gap gap := by
      obtain ⟨s, tokens, -, hrow⟩ := old.row_cons
      rw [hrow] at hold
      exact hold.1
    refine fits_append.mpr ⟨hwrites.fits hgap ?_, hfrom⟩
    rintro ⟨x, rfl⟩
    rw [textOf_cons_append]
    refine @endsWord_room before _ _ _ behind hfrom.1 (hname.word.last "* as ".toList) isWord_from fun hnil => ?_
    have hback := hroom.back
    subst hnil
    simpa [Binding.render, Binding.identifier] using hback

/-- A name behind the last one of a list. -/
theorem rewrites_item (hname : Shape.IsName x) (trailing : Option (List Char)) (close : List Char) :
    Rewrites ⟨[], [], (", " ++ x).toList, textOf (endRow trailing close [])⟩ (endRow trailing close [])
      (([], .mark ',') :: ([' '], .word x.toList) :: endRow trailing close []) where
  text_eq := rfl
  new_text_eq := by simp [Change.after, Segment.chars]
  fits {behind} hfits _ := by
    refine ⟨.nil, stands_mark (by decide), gap_blank, ⟨hname.word.isWhole, ?_⟩, hfits⟩
    cases trailing with
    | none => exact endsWord_mark hfits.1 (by decide)
    | some => exact endsWord_mark hfits.1 (by decide)

/-- A star or a list behind a default name. -/
theorem rewrites_named (hwrites : new.Writes binding) {name : List Char} :
    Rewrites ⟨gap ++ name, [], (", " ++ binding.render).toList, before ++ "from".toList⟩
      [(gap, .word name), (before, .word "from".toList)]
      ((gap, .word name) :: ([], .mark ',') :: (new.row [' '] ++ [(before, .word "from".toList)])) where
  text_eq := by simp [Change.before, Segment.chars]
  new_text_eq := by simp [hwrites.text_eq, Change.after, Segment.chars]
  fits {behind} hfits _ := by
    have hcomma := @endsWord_mark [] behind (new.row [' '] ++ [(before, .word "from".toList)]) ',' .nil (by decide)
    exact ⟨hfits.1, ⟨hfits.2.1.1, hcomma⟩, .nil, stands_mark (by decide),
      fits_append.mpr ⟨hwrites.fits gap_blank fun _ => hfits.2.1.2, hfits.2.2⟩⟩

/-- A default name in front of a star or a list. -/
theorem rewrites_default (hname : Shape.IsName x) (old : Bindings d) :
    Rewrites ⟨gap, [], (x ++ ", ").toList, textOf (old.row [])⟩ (old.row gap)
      ((gap, .word x.toList) :: ([], .mark ',') :: old.row [' ']) where
  text_eq := by
    obtain ⟨s, tokens, -, hrow⟩ := old.row_cons
    simp [hrow, Change.before]
  new_text_eq := by
    obtain ⟨s, tokens, -, hrow⟩ := old.row_cons
    simp [hrow, Change.after, Segment.chars]
  fits {behind} hfits _ := by
    obtain ⟨s, tokens, -, hrow⟩ := old.row_cons
    rw [hrow] at hfits ⊢
    exact ⟨hfits.1, ⟨hname.word.isWhole, endsWord_mark .nil (by decide)⟩, .nil, stands_mark (by decide), gap_blank,
      hfits.2⟩

/-- A clause in front of the path. -/
theorem rewrites_path {clause : Clause d} {text : List Char} (htext : textOf (clause.row gap) = gap ++ text)
    (hclause : ∀ {behind : List Char}, Gap gap → EndsWord (behind.map glyphOf) → Fits behind (clause.row gap)) :
    Rewrites ⟨gap, [], text ++ " from ".toList, path⟩ [(gap, .quoted path)]
      (clause.row gap ++ [([' '], .word "from".toList), ([' '], .quoted path)]) where
  text_eq := by simp [Change.before, Segment.chars]
  new_text_eq := by simp [htext, Change.after, Segment.chars]
  fits {behind} hfits _ :=
    fits_append.mpr ⟨hclause hfits.1 endsWord_blank, gap_blank, ⟨isWord_from.isWhole, endsWord_blank⟩, gap_blank,
      hfits.2.1, trivial⟩

end

/-! ## Declarations -/

section

variable {d : Dialect} {decl decl' : Declaration d} {binding : Binding} {new : Bindings d} {x : String}
  {change : Change} {gap behind : List Char}

/-- The clause with another star or list. -/
def Clause.withBindings (new : Bindings d) : Clause d → Clause d
  | bare _ => bare new
  | named name free none => named name free none
  | named name free (some (comma, gap, _)) => named name free (some (comma, gap, new))

theorem Clause.names_bindings {clause : Clause d} {front between : List Char} {bindings : Bindings d}
    (h : clause.bindings? = some (front, between, bindings)) :
    clause.names = clause.default?.toList ++ bindings.names := by
  simp [names, h]

/-- The star or the list in the row of a clause. -/
theorem Clause.row_bindings {clause : Clause d} {front between : List Char} {bindings : Bindings d}
    (h : clause.bindings? = some (front, between, bindings)) (gap : List Char) :
    ∃ tokens place, textOf tokens ++ place = gap ++ (front ++ between) ∧
      clause.row gap = tokens ++ bindings.row place ∧
      ∀ new, (clause.withBindings new).row gap = tokens ++ new.row place ∧
        (clause.withBindings new).names = clause.default?.toList ++ new.names := by
  cases clause with
  | bare =>
      cases h
      exact ⟨[], gap, by simp, rfl, fun new => ⟨rfl, by simp [withBindings, names, default?, bindings?]⟩⟩
  | named name free rest? =>
      cases rest? with
      | none => cases h
      | some =>
          cases h
          exact ⟨[(gap, .word name), (_, .mark ',')], _, by simp [Segment.chars], rfl,
            fun new => ⟨rfl, by simp [withBindings, names, default?, bindings?]⟩⟩

namespace Declaration

/-- The words in front of the clause or the path. -/
def head (decl : Declaration d) : Spaced := ([], .word "import".toList) :: decl.typesRow

theorem row_eq (decl : Declaration d) :
    decl.row = decl.head ++ (decl.whatRow ++ [(decl.gap, .quoted decl.path)]) := rfl

theorem head_text (decl : Declaration d) : textOf decl.head = decl.lead := by
  rw [head, textOf_cons, lead, typesPart_chars]
  rfl

/-- The last word in front of the clause or the path. -/
theorem lead_last (decl : Declaration d) :
    ∃ ch ∈ decl.lead.getLast?, Lexeme.isWordGlyph (glyphOf ch) = true := by
  have himport : IsWord "import".toList := Shape.isWord_of_all (by decide) (by decide)
  unfold lead typesPart
  cases decl.types? with
  | none => exact himport.last []
  | some word =>
      have hword : IsWord word.word.toList := by
        rcases word.known.2 with h | h <;> rw [h] <;> exact Shape.isWord_of_all (by decide) (by decide)
      have hlast := hword.last ("import".toList ++ word.gap)
      rwa [List.append_assoc] at hlast

/-- The default name. -/
def default? (decl : Declaration d) : Option (List Char) := decl.what?.bind fun (_, clause, _) => clause.default?

end Declaration

/-- A declaration with a binding put in by a change. -/
structure Joined (decl : Declaration d) (binding : Binding) (change : Change) (decl' : Declaration d) : Prop where
  rewrites : Rewrites change decl.row decl'.row
  path_eq : decl'.path = decl.path
  names_eq : decl'.names.map String.ofList =
    binding.joined (decl.default?.map String.ofList) (decl.names.map String.ofList)

/-- A binding joins a declaration: behind `lead`, the text `new` takes the place of `old`. -/
def Joins (decl : Declaration d) (binding : Binding) (lead old new : List Char) : Prop :=
  ∃ rest decl', Joined decl binding ⟨lead, old, new, rest⟩ decl'

theorem endsWord_bindings (bindings : Bindings d) {tokens : Spaced} (hgap : Gap gap) :
    EndsWord ((textOf (bindings.row gap ++ tokens) ++ behind).map glyphOf) := by
  obtain ⟨s, more, hs, hrow⟩ := bindings.row_cons
  rw [hrow, List.cons_append]
  rcases hs with rfl | rfl
  · exact endsWord_mark hgap (by decide)
  · exact endsWord_mark hgap (by decide)

/-- A clause is what a binding is written as. -/
structure Clause.Writes (clause : Clause d) (binding : Binding) : Prop where
  text_eq : ∀ gap, textOf (clause.row gap) = gap ++ binding.render.toList
  names_eq : clause.names.map String.ofList = binding.joined none []
  fits : ∀ {gap behind : List Char}, Gap gap → EndsWord (behind.map glyphOf) → Fits behind (clause.row gap)
  /-- A word in front ends, if there is room. -/
  ends : ∀ {lead gap more behind : List Char} {tokens : Spaced},
    (∃ ch ∈ lead.getLast?, Lexeme.isWordGlyph (glyphOf ch) = true) → Gap gap →
      meets ((lead ++ gap).map glyphOf) ((binding.render.toList ++ more).map glyphOf) = false →
        EndsWord ((textOf (clause.row gap ++ tokens) ++ behind).map glyphOf)

theorem Bindings.Writes.clause (h : new.Writes binding) (hjoined : binding.joined none [] = [binding.identifier]) :
    (Clause.bare new).Writes binding where
  text_eq := h.text_eq
  names_eq := by simp [Clause.names, Clause.default?, Clause.bindings?, h.names_eq, hjoined]
  fits hgap hends := h.fits hgap fun _ => hends
  ends _ hgap _ := endsWord_bindings new hgap

theorem exists_clause (hname : Shape.IsName binding.identifier) : ∃ clause : Clause d, clause.Writes binding := by
  cases binding with
  | named x => exact ⟨_, (one_writes hname).clause rfl⟩
  | wildcard x => exact ⟨_, (every_writes hname).clause rfl⟩
  | default x =>
      refine ⟨.named x.toList hname.not_reserved none, fun _ => ?_, ?_, ?_, ?_⟩
      · simp [Clause.row, Segment.chars, Binding.render]
      · simp [Clause.names, Clause.default?, Clause.bindings?, Binding.joined]
      · exact fun hgap hends => ⟨hgap, ⟨hname.word.isWhole, hends⟩, trivial⟩
      · intro lead gap more behind tokens hlead hgap hroom
        change EndsWord ((textOf ((gap, .word x.toList) :: tokens) ++ behind).map glyphOf)
        rw [textOf_cons_append]
        refine @endsWord_room gap _ lead x.toList more hgap hlead hname.word fun hnil => ?_
        rwa [hnil, List.append_nil] at hroom

/-- A clause is put in front of the path. -/
theorem joins_path (hwhat : decl.what? = none) (hname : Shape.IsName binding.identifier) :
    Joins decl binding decl.before [] (binding.render ++ " from ").toList := by
  obtain ⟨types?, what?, gap, path⟩ := decl
  obtain rfl : what? = none := hwhat
  obtain ⟨clause, hwrites⟩ := @exists_clause d binding hname
  let decl : Declaration d := ⟨types?, none, gap, path⟩
  let decl' : Declaration d := ⟨types?, some (gap, clause, [' ']), [' '], path⟩
  have hbefore : decl.before = textOf decl.head ++ gap := by rw [decl.head_text]; rfl
  have hrow : decl'.row = decl.head ++ (clause.row gap ++ [([' '], .word "from".toList), ([' '], .quoted path)]) := by
    simp [decl', decl, Declaration.row_eq, Declaration.whatRow, Declaration.head, Declaration.typesRow]
  refine ⟨path, decl', ?_, rfl, ?_⟩
  · have hrewrites := @rewrites_path d gap path clause _ (hwrites.text_eq gap) hwrites.fits
    have hwithin := @Rewrites.within _ decl.head _ _ [] hrewrites (fun {behind} hfits hroom _ => by
      have hfront := hroom.front
      rw [Change.within, decl.head_text] at hfront
      rw [List.append_nil]
      exact hwrites.ends decl.lead_last hfits.1 hfront)
    rw [List.append_nil, List.append_nil, ← hrow, Change.within, ← hbefore, textOf_nil, List.append_nil,
      ← String.toList_append] at hwithin
    exact hwithin
  · simpa [Declaration.names, Declaration.default?, decl'] using hwrites.names_eq

section

variable {clause clause' : Clause d} {before : List Char} (hwhat : decl.what? = some (gap, clause, before))

include hwhat

/-- A change of the clause. -/
theorem joins_clause {tokens row row' back : Spaced} (h : Rewrites change row row')
    (hrow : clause.row gap ++ [(before, .word "from".toList)] = tokens ++ (row ++ back))
    (hrow' : clause'.row gap ++ [(before, .word "from".toList)] = tokens ++ (row' ++ back))
    (hnames : clause'.names.map String.ofList =
      binding.joined (clause.default?.map String.ofList) (clause.names.map String.ofList))
    (hends : ∀ {behind : List Char} {more : Spaced}, Fits behind (row ++ more) →
      meets ((decl.lead ++ (textOf tokens ++ change.lead)).map glyphOf) (change.new.map glyphOf) = false →
        EndsWord ((textOf (row ++ more) ++ behind).map glyphOf) →
          EndsWord ((textOf (row' ++ more) ++ behind).map glyphOf)) :
    Joins decl binding (decl.lead ++ (textOf tokens ++ change.lead)) change.old change.new := by
  obtain ⟨types?, what?, last, path⟩ := decl
  obtain rfl : what? = some (gap, clause, before) := hwhat
  let decl : Declaration d := ⟨types?, some (gap, clause, before), last, path⟩
  let decl' : Declaration d := ⟨types?, some (gap, clause', before), last, path⟩
  have hold : decl.row = (decl.head ++ tokens) ++ (row ++ (back ++ [(last, .quoted path)])) := by
    have hwhatRow : decl.whatRow = tokens ++ (row ++ back) := hrow
    rw [decl.row_eq, hwhatRow]
    simp [decl]
  have hnew : decl'.row = (decl.head ++ tokens) ++ (row' ++ (back ++ [(last, .quoted path)])) := by
    have hwhatRow : decl'.whatRow = tokens ++ (row' ++ back) := hrow'
    have hhead : decl'.head = decl.head := rfl
    rw [decl'.row_eq, hwhatRow, hhead]
    simp [decl']
  have hlead : textOf (decl.head ++ tokens) ++ change.lead = decl.lead ++ (textOf tokens ++ change.lead) := by
    rw [textOf_append, decl.head_text, List.append_assoc]
  have hwithin := @Rewrites.within _ (decl.head ++ tokens) _ _ (back ++ [(last, .quoted path)]) h
    (fun {behind} hfits hroom hhere => by
      have hfront := hroom.front
      rw [Change.within, hlead] at hfront
      exact hends hfits hfront hhere)
  rw [← hold, ← hnew, Change.within, hlead] at hwithin
  exact ⟨_, decl', hwithin, rfl, by simpa [Declaration.names, Declaration.default?, decl'] using hnames⟩

/-- A default name is put in front of a star or a list. -/
theorem joins_default {old : Bindings d} (hclause : clause = .bare old) (hname : Shape.IsName x) :
    Joins decl (.default x) (decl.lead ++ gap) [] (x ++ ", ").toList := by
  subst hclause
  let clause' : Clause d := .named x.toList hname.not_reserved (some ([], [' '], old))
  have hrow' : clause'.row gap ++ [(before, .word "from".toList)] =
      [] ++ (((gap, .word x.toList) :: ([], .mark ',') :: old.row [' ']) ++ [(before, .word "from".toList)]) := rfl
  refine joins_clause hwhat (rewrites_default hname old) rfl hrow' ?_ fun {behind more} hfits hroom _ => ?_
  · simp [clause', Clause.names, Clause.default?, Clause.bindings?, Binding.joined]
  · obtain ⟨s, tokens, -, hrow⟩ := old.row_cons
    rw [hrow] at hfits
    rw [textOf_nil, List.nil_append, String.toList_append] at hroom
    rw [List.cons_append, textOf_cons_append]
    refine @endsWord_room gap _ decl.lead x.toList ", ".toList hfits.1 decl.lead_last hname.word fun hnil => ?_
    rwa [hnil, List.append_nil] at hroom

/-- A star or a list is put behind a default name. -/
theorem joins_name {name : List Char} {free : String.ofList name ∉ d.reserved} (hclause : clause = .named name free none)
    (hwrites : new.Writes binding)
    (hjoined : binding.joined (some (String.ofList name)) [String.ofList name] =
      [String.ofList name, binding.identifier]) :
    Joins decl binding (decl.lead ++ (gap ++ name)) [] (", " ++ binding.render).toList := by
  subst hclause
  let clause' : Clause d := .named name free (some ([], [' '], new))
  have hrow' : clause'.row gap ++ [(before, .word "from".toList)] =
      [] ++ (((gap, .word name) :: ([], .mark ',') :: (new.row [' '] ++ [(before, .word "from".toList)])) ++ []) := by
    simp [clause', Clause.row]
  refine joins_clause hwhat (rewrites_named hwrites) rfl hrow' ?_ fun {behind more} hfits _ hhere => ?_
  · simp [clause', Clause.names, Clause.default?, Clause.bindings?, hwrites.names_eq, hjoined]
  · exact endsWord_first hfits.1 hfits.2.1 hhere

variable {front between : List Char} {old : Bindings d} (hold : clause.bindings? = some (front, between, old))

include hold

/-- A star or a list is put in place of a list. -/
theorem joins_bindings (hwrites : new.Writes binding) (hname : Shape.IsName binding.identifier)
    (hjoined : binding.joined (clause.default?.map String.ofList) (clause.names.map String.ofList) =
      (clause.default?.map String.ofList).toList ++ [binding.identifier]) :
    Joins decl binding (decl.lead ++ (gap ++ (front ++ between))) (textOf (old.row [])) binding.render.toList := by
  obtain ⟨tokens, place, htext, hrow, hwith⟩ := Clause.row_bindings hold gap
  obtain ⟨hrow', hnames⟩ := hwith new
  have hjoins := @joins_clause d decl binding _ gap clause (clause.withBindings new) before hwhat tokens _ _ []
    (@rewrites_bindings d binding new place before hwrites hname old) (by rw [hrow]; simp) (by rw [hrow']; simp)
    (by
      rw [hnames, hjoined, hwrites.names_eq]
      cases clause.default? <;> simp)
    (fun {behind more} hfits _ _ => by
      obtain ⟨s, others, -, hold⟩ := old.row_cons
      rw [hold] at hfits
      rw [List.append_assoc]
      exact endsWord_bindings new hfits.1)
  rwa [htext] at hjoins

/-- A name is put behind the last one of a list. -/
theorem joins_item {item : List Char × Specifier d} {items : List (List Char × Specifier d)}
    {trailing : Option (List Char)} {close : List Char} (hlist : old = .braces (item :: items) trailing close)
    (hname : Shape.IsName x) :
    Joins decl (.named x) (decl.lead ++ (gap ++ (front ++ (between ++ '\x7b' :: textOf (itemsRow (item :: items))))))
      [] (", " ++ x).toList := by
  subst hlist
  let new : Bindings d := .braces (item :: (items ++ [([], Specifier.plain d [' '] x.toList)])) trailing close
  obtain ⟨tokens, place, htext, hrow, hwith⟩ := Clause.row_bindings hold gap
  obtain ⟨hrow', hnames⟩ := hwith new
  have hlonger : itemsRow (item :: (items ++ [([], Specifier.plain d [' '] x.toList)])) =
      itemsRow (item :: items) ++ [([], .mark ','), ([' '], .word x.toList)] := by
    simp [itemsRow, moreRow, Specifier.plain]
  have hclause := Clause.names_bindings hold
  have hnew : itemNames (item :: (items ++ [([], Specifier.plain d [' '] x.toList)])) =
      itemNames (item :: items) ++ [x.toList] := by
    simp [itemNames, Specifier.name, Specifier.plain, Segment.chars]
  have hjoins := @joins_clause d decl (.named x) _ gap clause (clause.withBindings new) before hwhat
    (tokens ++ (place, .mark '\x7b') :: itemsRow (item :: items)) _ _ [(before, .word "from".toList)]
    (rewrites_item hname trailing close)
    (by rw [hrow]; simp [Bindings.row, endRow])
    (by rw [hrow']; simp [new, Bindings.row, endRow, hlonger])
    (by
      rw [hnames, hclause]
      simp [new, Bindings.names, Bindings.star?, Bindings.items, Binding.joined, hnew])
    (fun {behind more} hfits _ _ => endsWord_mark .nil (by decide))
  have hlead : textOf (tokens ++ (place, .mark '\x7b') :: itemsRow (item :: items)) =
      gap ++ (front ++ (between ++ '\x7b' :: textOf (itemsRow (item :: items)))) := by
    have hopened := congrArg (· ++ '\x7b' :: textOf (itemsRow (item :: items))) htext
    simpa [Segment.chars] using hopened
  rwa [hlead, List.append_nil] at hjoins

end

end

end Syntax

end ImportAssist
