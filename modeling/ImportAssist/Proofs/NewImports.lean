import ImportAssist.Proofs.Snippets
import ImportAssist.Synthesis.Merge

/-!
# The import that a new statement makes

A new statement is read as the tree of its shape. `Shape.lands` says that this tree makes one import, of
the path that was written, wherever the statement is put in; `merge_new` says that the import has the
binding that was written, so that there is nothing left to add.
-/

namespace ImportAssist

open Syntax
open Utf8 (glyphOf)

/-! ## What a statement imports -/

section

variable {source : Bytes} {n callee args literal declarator value : Node} {path : String}

theorem requirePath?_of (hkind : n.hasKind .callExpression = true)
    (hfunction : n.child? .function = some callee) (hcallee : callee.hasKind .identifier = true)
    (htext : callee.text source = "require") (hargs : n.child? .arguments = some args)
    (hargsKind : args.hasKind .arguments = true) (hnamed : args.namedChildren = [literal])
    (hvalue : literal.stringValue? source = some path) : n.requirePath? source = some path := by
  have hliteral : n.requireLiteral? source = some literal :=
    Node.requireLiteral?_eq_some_iff.mpr ⟨hkind, ⟨callee, hfunction, hcallee, htext⟩,
      ⟨args, hargs, hargsKind, hnamed⟩, Option.isSome_of_eq_some hvalue⟩
  rw [Node.requirePath?, hliteral, Option.bind_some, hvalue]

theorem ofStatement_declaration (hkind : n.hasKind .importStatement = true)
    (hsource : n.child? .source = some literal) (hvalue : literal.stringValue? source = some path) :
    Import.ofStatement source n = [⟨.declaration, trimSlash path, n, n⟩] := by
  simp [Import.ofStatement, hkind, hsource, hvalue]

theorem ofStatement_requireDeclaration (hlabel : n.label = .kind .lexicalDeclaration)
    (hdeclarators : n.childrenOfKind .variableDeclarator = [declarator])
    (hvalue : declarator.child? .value = some value)
    (hpath : value.requirePath? source = some path) :
    Import.ofStatement source n = [⟨.requireDeclaration, trimSlash path, n, declarator⟩] := by
  simp [Import.ofStatement, Node.hasKind, hlabel, hdeclarators, hvalue, hpath]

theorem ofStatement_requireCall (hlabel : n.label = .kind .expressionStatement)
    (hnamed : n.namedChildren = [value]) (hpath : value.requirePath? source = some path) :
    Import.ofStatement source n = [⟨.requireCall, trimSlash path, n, n⟩] := by
  simp [Import.ofStatement, Node.hasKind, hlabel, hnamed, hpath]

end

theorem stringValue?_quoted {source : Bytes} {n : Node} {quote : Char} {path : List Char}
    (hkind : n.hasKind .string = true) (htext : n.text source = String.ofList (quote :: path ++ [quote])) :
    n.stringValue? source = some (String.ofList path) := by
  rw [Node.stringValue?, if_pos hkind, htext]
  simp

namespace Shape

variable {d : Dialect} {name : String} {quote : Char} {path lineBreak : List Char}

def importForm : Shape → ImportForm
  | .required => .requireDeclaration
  | .loaded => .requireCall
  | _ => .declaration

/-- The import that a statement of a shape makes. -/
def toImport (shape : Shape) (path : String) (statement : Node) (f : Nat → Nat) : Import where
  form := shape.importForm
  path := trimSlash path
  statement := statement
  node := if shape = .required then declarator.relocate f else statement

/-- The place of the word `require`, if the shape has one. -/
def calleePlace? : Shape → Option Nat
  | .required => some 7
  | .loaded => some 1
  | _ => none

/-- The tree of a new import makes that import. -/
theorem ofStatement_tree {source : Bytes} {f : Nat → Nat} (shape : Shape) (semicolons : Bool)
    (hpath : ∀ n : Node, n.start = f shape.pathPlace → n.stop = f (shape.pathPlace + 1) →
      n.text source = String.ofList (quote :: path ++ [quote]))
    (hcallee : ∀ place ∈ shape.calleePlace?, ∀ n : Node, n.start = f place → n.stop = f (place + 1) →
      n.text source = "require") :
    Import.ofStatement source ((shape.tree semicolons).relocate f) =
      [shape.toImport (String.ofList path) ((shape.tree semicolons).relocate f) f] := by
  have hvalue : ∀ n : Node, n.hasKind .string = true → n.start = f shape.pathPlace →
      n.stop = f (shape.pathPlace + 1) → n.stringValue? source = some (String.ofList path) :=
    fun n hkind hstart hstop => stringValue?_quoted hkind (hpath n hstart hstop)
  cases shape with
  | required =>
      have hcall : ((callAt 7).relocate f).requirePath? source = some (String.ofList path) :=
        requirePath?_of rfl rfl rfl (hcallee 7 rfl _ rfl rfl) rfl rfl rfl (hvalue _ rfl rfl rfl)
      cases semicolons <;> exact ofStatement_requireDeclaration rfl rfl rfl hcall
  | loaded =>
      have hcall : ((callAt 1).relocate f).requirePath? source = some (String.ofList path) :=
        requirePath?_of rfl rfl rfl (hcallee 1 rfl _ rfl rfl) rfl rfl rfl (hvalue _ rfl rfl rfl)
      cases semicolons <;> exact ofStatement_requireCall rfl rfl hcall
  | default | named | wildcard | bare =>
      cases semicolons <;> exact ofStatement_declaration rfl rfl (hvalue _ rfl rfl rfl)

/-! ## Landing -/

theorem cursorAt_here (front token back : List Char) :
    cursorAt (Utf8.encode (String.ofList (front ++ (token ++ back)))) (bytesOf front) =
      here front token (back.map glyphOf) := by
  have hglyphs : Utf8.glyphs (Utf8.encode (String.ofList (token ++ back))) =
      token.map glyphOf ++ back.map glyphOf := by
    rw [Utf8.glyphs_encode_self, String.toList_ofList, List.map_append]
  rw [cursorAt, here, String.ofList_append, Utf8.encode_append, bytesOf, List.drop_left, hglyphs]

theorem text_settled (shape : Shape) (semicolons : Bool) {front back : List Char} {rest : List Glyph} :
    (here front (shape.text semicolons name path ++ back) rest).Settled := by
  cases shape <;> exact settled_here rfl (by decide)

/-- The text of a piece of a new import, in the source that it is put into. -/
theorem text_at (shape : Shape) (semicolons : Bool) (index : Nat) {front back : List Char} {p : Piece}
    (hp : (shape.pieces name path ++ closing semicolons)[index]? = some p) {n : Node}
    (hstart : n.start = shape.offset semicolons name path (bytesOf front) (2 * index + 1))
    (hstop : n.stop = shape.offset semicolons name path (bytesOf front) (2 * index + 2)) :
    n.text (Utf8.encode (String.ofList
      (front ++ ((shape.text semicolons name path ++ lineBreak) ++ back)))) =
        String.ofList p.token := by
  rw [List.append_assoc]
  exact text_piece hp hstart hstop

/-- The text of the name in a new import. -/
theorem name_at (shape : Shape) (semicolons : Bool) (index : Nat)
    (hp : (shape.pieces name path ++ closing semicolons)[index]? =
      some ⟨[' '], name.toList, nameClue name⟩) (front back : List Char) :
    ((leafAt .identifier (2 * index + 1)).relocate
      (shape.offset semicolons name path (bytesOf front))).text (Utf8.encode (String.ofList
        (front ++ ((shape.text semicolons name path ++ lineBreak) ++ back)))) = name := by
  rw [shape.text_at semicolons index hp (Node.relocate_start _) (Node.relocate_stop _),
    String.ofList_toList]

/-- A new import is the next statement that is read. -/
theorem readStatement_text (shape : Shape) (semicolons : Bool) {rest : List Glyph}
    (hname : shape.binds = true → IsName name) (hquote : quote = '\x27' ∨ quote = '"')
    (hpath : Enclosed quote path) (hbreak : IsBreak lineBreak)
    (hrest : semicolons = true ∨ Follows shape.refused (upcoming rest)) (front : List Char) :
    let quoted := quote :: path ++ [quote]
    readStatement d (here front (shape.text semicolons name quoted ++ lineBreak) rest) =
      some ([(shape.tree semicolons).relocate (shape.offset semicolons name quoted (bytesOf front))],
        here (front ++ shape.text semicolons name quoted) lineBreak rest) := by
  intro quoted
  let c := here front (shape.text semicolons name quoted ++ lineBreak) rest
  have hread := @runs _ _ _ _ rest d shape semicolons hname hquote hpath hbreak hrest front
    (readingDepth c.rest.length) (by
      simp only [c, readingDepth, here, List.length_append]
      omega)
  have hsettled : c.Settled := text_settled shape semicolons
  have hpos : 0 < bytesOf (shape.text semicolons name quoted) :=
    bytesOf_pos (by cases shape <;> simp [text, pieces, Piece.text, Piece.chars, wordPiece])
  have hoffset : ¬(here (front ++ shape.text semicolons name quoted) lineBreak rest).offset ≤ c.offset := by
    simp only [c, here, bytesOf_append]
    omega
  rw [readStatement, hsettled]
  dsimp only
  rw [hread]
  dsimp only
  rw [if_neg hoffset]
  rfl

/-- A new import lands in front of what may follow it. -/
theorem lands (shape : Shape) (semicolons : Bool) (hname : shape.binds = true → IsName name)
    (hquote : quote = '\x27' ∨ quote = '"') (hpath : Enclosed quote path) (hbreak : IsBreak lineBreak)
    (front back : List Char)
    (hrest : semicolons = true ∨ Follows shape.refused (upcoming (back.map glyphOf))) :
    let quoted := quote :: path ++ [quote]
    let snippet := shape.text semicolons name quoted ++ lineBreak
    let f := shape.offset semicolons name quoted (bytesOf front)
    Lands d (Utf8.encode (String.ofList (front ++ (snippet ++ back)))) (bytesOf front)
      (bytesOf snippet)
      (shape.toImport (String.ofList path) ((shape.tree semicolons).relocate f) f) := by
  intro quoted snippet f
  let source := Utf8.encode (String.ofList (front ++ (snippet ++ back)))
  have hhere : cursorAt source (bytesOf front) = here front snippet (back.map glyphOf) :=
    cursorAt_here front snippet back
  have hbehind : cursorAt source (bytesOf front + bytesOf snippet) =
      here (front ++ snippet) [] (back.map glyphOf) := by
    have hcursor := cursorAt_here (front ++ snippet) [] back
    rwa [List.nil_append, List.append_assoc, bytesOf_append] at hcursor
  refine ⟨(shape.tree semicolons).relocate f,
    here (front ++ shape.text semicolons name quoted) lineBreak (back.map glyphOf),
    lineBreak.length, ?_, ?_, ?_⟩
  · rw [hhere]
    exact shape.readStatement_text semicolons hname hquote hpath hbreak hrest front
  · have hbreaks := @trivia_break (front ++ shape.text semicolons name quoted) (back.map glyphOf) _ hbreak 0
    rw [Nat.zero_add] at hbreaks
    rw [hbreaks, trivia, hbehind, List.append_assoc]
  · refine @ofStatement_tree quote path _ f shape semicolons (fun n hstart hstop => ?_)
      fun place hplace n hstart hstop => ?_
    · cases shape with
      | default => exact text_at .default semicolons 3 rfl hstart hstop
      | named => exact text_at .named semicolons 5 rfl hstart hstop
      | wildcard => exact text_at .wildcard semicolons 5 rfl hstart hstop
      | bare => exact text_at .bare semicolons 1 rfl hstart hstop
      | required => exact text_at .required semicolons 5 rfl hstart hstop
      | loaded => exact text_at .loaded semicolons 2 rfl hstart hstop
    · cases shape with
      | required =>
          cases hplace
          exact text_at .required semicolons 3 rfl hstart hstop
      | loaded =>
          cases hplace
          exact text_at .loaded semicolons 0 rfl hstart hstop
      | default | named | wildcard | bare => cases hplace

end Shape

/-! ## Bindings -/

/-- The shape of a new import in a form of statement. -/
def Shape.of : StatementForm → Option Binding → Shape
  | .declaration, none => .bare
  | .declaration, some (.default _) => .default
  | .declaration, some (.named _) => .named
  | .declaration, some (.wildcard _) => .wildcard
  | .require, none => .loaded
  | .require, some _ => .required

/-- What a new import binds, if it binds anything. -/
def boundName : Option Binding → String
  | none => ""
  | some binding => binding.identifier

theorem isName_boundName {form : StatementForm} {binding? : Option Binding}
    (hname : ∀ binding ∈ binding?, Shape.IsName binding.identifier)
    (hbinds : (Shape.of form binding?).binds = true) : Shape.IsName (boundName binding?) := by
  cases binding? with
  | none => cases form <;> cases hbinds
  | some binding => exact hname binding rfl

def renderAll : Option Binding → String
  | none => ""
  | some binding => binding.render

theorem render_ne_empty {binding : Binding} (h : binding.identifier ≠ "") : binding.render ≠ "" := by
  cases binding with
  | default x => exact h
  | named x | wildcard x => simp [Binding.render]

theorem importStatement_toList {options : Options} {binding? : Option Binding} {path lineBreak : String}
    (hname : ∀ binding ∈ binding?, binding.identifier ≠ "")
    (hdefault : options.form = .require → ∀ binding ∈ binding?, ∃ x, binding = .default x) :
    (importStatement (renderAll binding?) path options.form options lineBreak).toList =
      (Shape.of options.form binding?).text options.semicolons (boundName binding?)
        (options.quoteMark.char :: path.toList ++ [options.quoteMark.char]) ++ lineBreak.toList := by
  have hclose : ((if options.semicolons then ";" else "") ++ lineBreak).toList =
      Piece.text (Shape.closing options.semicolons) ++ lineBreak.toList := by
    rw [String.toList_append]
    cases options.semicolons <;> rfl
  have hquoted : (quoted options path).toList =
      options.quoteMark.char :: path.toList ++ [options.quoteMark.char] := by
    simp [quoted]
  have htext (ps qs : List Piece) : Piece.text (ps ++ qs) = Piece.text ps ++ Piece.text qs :=
    List.flatMap_append
  rw [← hquoted, Shape.text, htext, List.append_assoc, ← hclose]
  cases binding? with
  | none =>
      cases options.form <;>
        simp [importStatement, renderAll, requireExpression, Shape.of, Shape.pieces, Piece.text,
          Piece.chars, Shape.wordPiece, Shape.markPiece]
  | some binding =>
      have hrender : binding.render ≠ "" := render_ne_empty (hname binding rfl)
      unfold importStatement renderAll boundName
      simp only [if_neg hrender]
      cases hform : options.form with
      | declaration =>
          cases binding <;>
            simp [Binding.render, Binding.identifier, Shape.of, Shape.pieces, Piece.text,
              Piece.chars, Shape.wordPiece, Shape.markPiece]
      | require =>
          obtain ⟨x, rfl⟩ := hdefault hform binding rfl
          simp [Binding.render, Binding.identifier, requireExpression, Shape.of, Shape.pieces,
            Piece.text, Piece.chars, Shape.wordPiece, Shape.markPiece]

/-! ## The clause of a new import -/

section

variable {source : Bytes} {statement node : Node} {path x : String}

theorem merge_default_there (h : (ImportClause.ofStatement statement).default? = some node) :
    ∃ duplicate focus, merge source statement (.default x) path = .alreadyImported duplicate focus := by
  refine ⟨.module x, Point.ofOffset source node.start, ?_⟩
  simp only [merge, h]

theorem merge_named_there (hwildcard : (ImportClause.ofStatement statement).wildcard? = none)
    (hspecifiers : (ImportClause.ofStatement statement).specifiers = [node])
    (hname : ImportClause.importedName source node = x) :
    ∃ duplicate focus, merge source statement (.named x) path = .alreadyImported duplicate focus := by
  refine ⟨.module x, Point.ofOffset source node.start, ?_⟩
  simp [merge, ImportClause.wildcardName?, hwildcard, hspecifiers, hname]

theorem merge_wildcard_there (hwildcard : (ImportClause.ofStatement statement).wildcard? = some node)
    (hname : (ImportClause.ofStatement statement).wildcardName? source = some x) (hne : x ≠ "") :
    ∃ duplicate focus, merge source statement (.wildcard x) path = .alreadyImported duplicate focus := by
  refine ⟨.whole path x, Point.ofOffset source node.start, ?_⟩
  have hwhole : (some x).filter (· ≠ "") = some x := Option.filter_some_pos (by simpa using hne)
  simp only [merge, hname, hwhole, hwildcard]

end

/-- The statement of a new binding has the binding already. -/
theorem merge_new {semicolons : Bool} {binding : Binding} (hne : binding.identifier ≠ "")
    (front back lineBreak quoted : List Char) (path : String) :
    let shape := Shape.of .declaration (some binding)
    let f := shape.offset semicolons binding.identifier quoted (bytesOf front)
    ∃ duplicate focus, merge (Utf8.encode (String.ofList
        (front ++ ((shape.text semicolons binding.identifier quoted ++ lineBreak) ++ back))))
      ((shape.tree semicolons).relocate f) binding path = .alreadyImported duplicate focus := by
  intro shape f
  cases binding with
  | default x => cases semicolons <;> exact merge_default_there rfl
  | named x =>
      have hname := @Shape.name_at x quoted lineBreak shape semicolons 2 rfl front back
      cases semicolons <;> exact merge_named_there rfl rfl hname
  | wildcard x =>
      have hname := @Shape.name_at x quoted lineBreak shape semicolons 3 rfl front back
      cases semicolons <;> exact merge_wildcard_there rfl (congrArg some hname) hne

end ImportAssist
