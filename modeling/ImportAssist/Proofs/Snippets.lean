import ImportAssist.Proofs.Forecasts
import ImportAssist.Proofs.Insertion
import ImportAssist.Synthesis.Outcome

/-!
# How new imports are read

A new import has one of few shapes, with a name and a path that are not known. Each shape is an outline,
and one evaluation of `predict` for each dialect says how all imports of that shape are read.
-/

namespace ImportAssist

open Syntax
open Utf8 (glyphOf)

/-! ## Texts -/

/-- A token of a text, with what stands in front of it. -/
structure Piece where
  gap : List Char
  token : List Char
  clue : Clue

namespace Piece

def chars (p : Piece) : List Char := p.gap ++ p.token

/-- The text of some pieces. -/
def text (ps : List Piece) : List Char := ps.flatMap chars

/-- The offset of a place in an outline of some pieces, from the offset of the first one. -/
def placeOffset (start : Nat) : List Piece → Nat → Nat
  | [], _ => start
  | _, 0 => start
  | p :: _, 1 => start + bytesOf p.gap
  | p :: ps, place + 2 => placeOffset (start + bytesOf p.chars) ps place

/-- Every piece fits its clue, with the text behind it. -/
def Fit (behind : List Glyph) : List Piece → Prop
  | [] => True
  | p :: ps => (p.gap = [] ∨ p.gap = [' ']) ∧
      p.clue.Shows p.token ((text ps).map glyphOf ++ behind) ∧ Fit behind ps

theorem Fit.append {behind : List Glyph} : ∀ {ps qs : List Piece},
    Fit ((text qs).map glyphOf ++ behind) ps → Fit behind qs → Fit behind (ps ++ qs)
  | [], _, _, hqs => hqs
  | p :: ps, qs, ⟨hgap, hshows, hps⟩, hqs => by
      refine ⟨hgap, ?_, hps.append hqs⟩
      simpa [text] using hshows

end Piece

theorem placeOffset_append {p : Piece} {more : List Piece} {place : Nat} : ∀ {done : List Piece}
    {start : Nat}, Piece.placeOffset start (done ++ p :: more) (2 * done.length + place) =
      Piece.placeOffset (start + bytesOf (Piece.text done)) (p :: more) place
  | [], start => by
      have hnil : bytesOf (Piece.text []) = 0 := by decide
      simp [hnil]
  | q :: done, start => by
      have hlength : 2 * (q :: done).length + place = 2 * done.length + place + 2 := by
        simp only [List.length_cons]
        omega
      rw [hlength, List.cons_append, Piece.placeOffset, placeOffset_append]
      simp [Piece.text, bytesOf_append, Nat.add_assoc]

theorem placeOffset_end : ∀ {ps : List Piece} {start : Nat},
    Piece.placeOffset start ps (2 * ps.length) = start + bytesOf (Piece.text ps)
  | [], start => by
      have hnil : bytesOf (Piece.text []) = 0 := by decide
      simp [Piece.placeOffset, hnil]
  | p :: ps, start => by
      have hlength : 2 * (p :: ps).length = 2 * ps.length + 2 := by
        simp only [List.length_cons]
        omega
      rw [hlength, Piece.placeOffset, placeOffset_end]
      simp [Piece.text, bytesOf_append, Nat.add_assoc]

/-- The text between the two places of a piece. -/
theorem text_piece {ps : List Piece} {p : Piece} {index : Nat} (hp : ps[index]? = some p)
    {front back : List Char} {n : Node}
    (hstart : n.start = Piece.placeOffset (bytesOf front) ps (2 * index + 1))
    (hstop : n.stop = Piece.placeOffset (bytesOf front) ps (2 * index + 2)) :
    n.text (Utf8.encode (String.ofList (front ++ (Piece.text ps ++ back)))) =
      String.ofList p.token := by
  obtain ⟨hlt, rfl⟩ := List.getElem?_eq_some_iff.mp hp
  have hps : ps = ps.take index ++ ps[index] :: ps.drop (index + 1) := by
    rw [← List.drop_eq_getElem_cons hlt, List.take_append_drop]
  have hlength : index = (ps.take index).length := by
    rw [List.length_take]
    omega
  generalize ps[index] = p, ps.take index = done, ps.drop (index + 1) = more at hps hlength
  subst hps hlength
  have hsplit : front ++ (Piece.text (done ++ p :: more) ++ back) =
      (front ++ Piece.text done ++ p.gap) ++ p.token ++ (Piece.text more ++ back) := by
    simp [Piece.text, Piece.chars]
  rw [hsplit, ← List.append_nil (Utf8.encode _)]
  refine text_here ?_ ?_
  · rw [hstart, placeOffset_append, Piece.placeOffset]
    simp [bytesOf_append, Nat.add_assoc]
  · rw [hstop, placeOffset_append]
    cases more <;> simp [Piece.placeOffset, Piece.chars, bytesOf_append, Nat.add_assoc]

/-- A text stands as the outline of its pieces and its end. -/
theorem stands_pieces {offset : Nat → Nat} {lineBreak : List Char} {rest : List Glyph}
    {ending : List Clue} : ∀ {ps : List Piece} {base : Nat} {front : List Char}, base % 2 = 0 →
      (∀ place, offset (base + place) = Piece.placeOffset (bytesOf front) ps place) →
      Piece.Fit (lineBreak.map glyphOf ++ rest) ps →
      (∀ front', bytesOf front' = offset (base + 2 * ps.length) →
        Stands offset lineBreak rest ⟨base + 2 * ps.length, ending⟩ (here front' lineBreak rest)) →
      Stands offset lineBreak rest ⟨base, ps.map Piece.clue ++ ending⟩
        (here front (Piece.text ps ++ lineBreak) rest)
  | [], base, front, _, hoffset, _, hending => by
      exact hending front (by simpa [Piece.placeOffset] using (hoffset 0).symm)
  | p :: ps, base, front, heven, hoffset, ⟨hgap, hshows, hfit⟩, hending => by
      have hbefore : before base = base + 1 := by
        unfold before
        omega
      have htext : Piece.text (p :: ps) ++ lineBreak =
          p.gap ++ (p.token ++ (Piece.text ps ++ lineBreak)) := by
        simp [Piece.text, Piece.chars]
      rw [htext]
      refine .token ?_ hgap ?_ ?_ ?_
      · simpa [Piece.placeOffset] using (hoffset 0).symm
      · rw [hbefore, hoffset 1, Piece.placeOffset, bytesOf_append]
      · simpa using hshows
      · rw [hbefore]
        refine stands_pieces (by omega) (fun place => ?_) hfit fun front' hfront' => ?_
        · have hplace := hoffset (place + 2)
          rw [Piece.placeOffset] at hplace
          rw [show base + 1 + 1 + place = base + (place + 2) by omega, hplace]
          simp [bytesOf_append, Piece.chars]
        · have hlength : base + 1 + 1 + 2 * ps.length = base + 2 * (p :: ps).length := by
            simp only [List.length_cons]
            omega
          rw [hlength] at hfront' ⊢
          exact hending front' hfront'

/-! ## Shapes -/

/-- The shapes of a new import. -/
inductive Shape where
  /-- `import name from 'path'` -/
  | default
  /-- `import { name } from 'path'` -/
  | named
  /-- `import * as name from 'path'` -/
  | wildcard
  /-- `import 'path'` -/
  | bare
  /-- `const name = require('path')` -/
  | required
  /-- `require('path')` -/
  | loaded
  deriving DecidableEq, Repr

namespace Shape

/-- Words that name no binding in some dialect, or restrict an import to types. -/
def special : List String := ["type", "enum"] ++ Dialect.javascript.reserved

/-- What is known about the name of a binding. -/
def nameClue (name : String) : Clue :=
  if name = "type" then .word "type" else .name special

def wordPiece (gap : List Char) (text : String) : Piece := ⟨gap, text.toList, .word text⟩

def markPiece (gap : List Char) (ch : Char) (nexts : List Char) : Piece := ⟨gap, [ch], .mark ch nexts⟩

/-- Whether a shape binds a name. -/
def binds : Shape → Bool
  | .bare | .loaded => false
  | _ => true

/-- The pieces of an import of a quoted path, but for its end. -/
def pieces (name : String) (path : List Char) : Shape → List Piece
  | .default =>
    [wordPiece [] "import", ⟨[' '], name.toList, nameClue name⟩, wordPiece [' '] "from",
      ⟨[' '], path, .text⟩]
  | .named =>
    [wordPiece [] "import", markPiece [' '] '\x7b' [' '], ⟨[' '], name.toList, nameClue name⟩,
      markPiece [' '] '\x7d' [' '], wordPiece [' '] "from", ⟨[' '], path, .text⟩]
  | .wildcard =>
    [wordPiece [] "import", markPiece [' '] '*' [' '], wordPiece [' '] "as",
      ⟨[' '], name.toList, nameClue name⟩, wordPiece [' '] "from", ⟨[' '], path, .text⟩]
  | .bare => [wordPiece [] "import", ⟨[' '], path, .text⟩]
  | .required =>
    [wordPiece [] "const", ⟨[' '], name.toList, nameClue name⟩, markPiece [' '] '=' [' '],
      wordPiece [' '] "require", markPiece [] '(' ['\x27', '"'], ⟨[], path, .text⟩,
      markPiece [] ')' [';', '\n', '\r']]
  | .loaded =>
    [wordPiece [] "require", markPiece [] '(' ['\x27', '"'], ⟨[], path, .text⟩,
      markPiece [] ')' [';', '\n', '\r']]

/-- The semicolon that may end an import. -/
def closing (semicolons : Bool) : List Piece :=
  if semicolons then [markPiece [] ';' ['\n', '\r']] else []

/-- What must not follow an import that ends without a semicolon. -/
def refused : Shape → Refused
  | .default | .named | .wildcard | .bare => ⟨[], ["with", "assert"]⟩
  | .required | .loaded => ⟨["(", "["], []⟩

/-- What is known about the rest of an import. -/
def ending (shape : Shape) (semicolons : Bool) : List Clue :=
  if semicolons then [] else [.close shape.refused]

/-- A new import in outline. -/
def outline (shape : Shape) (semicolons : Bool) (name : String) (path : List Char) : Outline :=
  ⟨0, (shape.pieces name path ++ closing semicolons).map Piece.clue ++ shape.ending semicolons⟩

/-- What is left of the outline behind the import. -/
def leftover (shape : Shape) (semicolons : Bool) (name : String) (path : List Char) : Outline :=
  ⟨2 * (shape.pieces name path ++ closing semicolons).length, shape.ending semicolons⟩

/-! ## Trees -/

def tokenAt (text : String) (place : Nat) : Node := .token text place (place + 1)

def leafAt (kind : Kind) (place : Nat) : Node := .leaf kind place (place + 1)

/-- A statement with the parts of an outline up to a place. -/
def statementNode (kind : Kind) (parts : List Node) (semicolons : Bool) (place : Nat) : Node :=
  if semicolons then .mk (.kind kind) none 1 (place + 2) (parts ++ [tokenAt ";" (place + 1)])
  else .mk (.kind kind) none 1 place parts

/-- The call of `require` from a place on. -/
def callAt (place : Nat) : Node :=
  .mk (.kind .callExpression) none place (place + 7)
    [(leafAt .identifier place).withRole .function,
      .mk (.kind .arguments) (some .arguments) (place + 2) (place + 7)
        [tokenAt "(" (place + 2), leafAt .string (place + 4), tokenAt ")" (place + 6)]]

/-- The clause of an import declaration and the place behind it. -/
def clause : Shape → Option (Node × Nat)
  | .default => some (.mk (.kind .importClause) none 3 4 [leafAt .identifier 3], 4)
  | .named =>
    some (.mk (.kind .importClause) none 3 8
      [.mk (.kind .namedImports) none 3 8
        [tokenAt "\x7b" 3,
          .mk (.kind .importSpecifier) none 5 6 [(leafAt .identifier 5).withRole .name],
          tokenAt "\x7d" 7]], 8)
  | .wildcard =>
    some (.mk (.kind .importClause) none 3 8
      [.mk (.kind .namespaceImport) none 3 8
        [tokenAt "*" 3, tokenAt "as" 5, leafAt .identifier 7]], 8)
  | _ => none

/-- The declarator of a require declaration. -/
def declarator : Node :=
  .mk (.kind .variableDeclarator) none 3 14
    [(leafAt .identifier 3).withRole .name, tokenAt "=" 5, (callAt 7).withRole .value]

/-- The place of the path. -/
def pathPlace : Shape → Nat
  | .default => 7
  | .named | .wildcard => 11
  | .bare => 3
  | .required => 11
  | .loaded => 5

/-- The tree of a new import, over the places of its outline. -/
def tree (shape : Shape) (semicolons : Bool) : Node :=
  match shape with
  | .required => statementNode .lexicalDeclaration [tokenAt "const" 1, declarator] semicolons 14
  | .loaded => statementNode .expressionStatement [callAt 1] semicolons 8
  | _ =>
    let path := (leafAt .string shape.pathPlace).withRole .source
    let parts := match shape.clause with
      | some (node, place) => [tokenAt "import" 1, node, tokenAt "from" (place + 1), path]
      | none => [tokenAt "import" 1, path]
    statementNode .importStatement parts semicolons (shape.pathPlace + 1)

/-- A new import is read as one statement, in every dialect. -/
theorem predict_tree (d : Dialect) (shape : Shape) (semicolons : Bool) (name : String)
    (path : List Char) :
    predict d 60 .statement Grammar.item (shape.outline semicolons name path) =
      .reads [shape.tree semicolons] (shape.leftover semicolons name path) := by
  have hclue : nameClue name = .word "type" ∨ nameClue name = .name special := by
    unfold nameClue
    split
    · exact .inl rfl
    · exact .inr rfl
  unfold outline leftover
  rcases hclue with hclue | hclue
  · cases d <;> cases shape <;> cases semicolons <;>
      simp only [pieces, hclue, wordPiece, markPiece, closing, List.map_cons, List.map_nil,
        List.cons_append, List.nil_append, List.append_nil, if_true, Bool.false_eq_true, if_false,
        List.length_cons, List.length_nil] <;> rfl
  · cases d <;> cases shape <;> cases semicolons <;>
      simp only [pieces, hclue, wordPiece, markPiece, closing, List.map_cons, List.map_nil,
        List.cons_append, List.nil_append, List.append_nil, if_true, Bool.false_eq_true, if_false,
        List.length_cons, List.length_nil] <;> rfl

/-! ## The text of a shape -/

/-- A name that can stand in an import, in every dialect. -/
structure IsName (name : String) : Prop where
  word : IsWord name.toList
  free : name = "type" ∨ name ∉ special

theorem IsName.ne_empty {name : String} (h : IsName name) : name ≠ "" := by
  rintro rfl
  obtain ⟨ch, more, hcons, -⟩ := h.word.start
  cases hcons

theorem endsWord_glyph {ch : Char} {gs : List Glyph}
    (h : (Lexeme.isWordGlyph (glyphOf ch) || ch == '\\') = false) : EndsWord (glyphOf ch :: gs) := by
  rw [Bool.or_eq_false_iff, beq_eq_false_iff_ne] at h
  exact @endsWord_cons [] _ _ h.1 h.2

theorem IsName.shows {name : String} (h : IsName name) {behind : List Glyph} (hend : EndsWord behind) :
    (nameClue name).Shows name.toList behind := by
  unfold nameClue
  split
  · rename_i heq
    exact ⟨congrArg String.toList heq, h.word, hend⟩
  · rename_i hne
    refine ⟨h.word, hend, ?_⟩
    rw [String.ofList_toList]
    exact h.free.resolve_left hne

theorem isWord_of_all {word : List Char} (h : word.all (fun ch => Lexeme.isWordGlyph (glyphOf ch)) = true)
    (hstart : word.head?.any (fun ch => !ch.isDigit) = true) : IsWord word := by
  refine ⟨by simpa using h, ?_⟩
  cases word with
  | nil => cases hstart
  | cons ch more => exact ⟨ch, more, rfl, by simpa using hstart⟩

theorem wordPiece_shows {gap : List Char} {text : String} {ch : Char} {gs : List Glyph}
    (h : text.toList.all (fun ch => Lexeme.isWordGlyph (glyphOf ch)) = true)
    (hstart : text.toList.head?.any (fun ch => !ch.isDigit) = true)
    (hend : (Lexeme.isWordGlyph (glyphOf ch) || ch == '\\') = false) :
    (wordPiece gap text).clue.Shows (wordPiece gap text).token (glyphOf ch :: gs) :=
  ⟨rfl, isWord_of_all h hstart, endsWord_glyph hend⟩

theorem markPiece_shows {gap : List Char} {ch next : Char} {nexts : List Char} {gs : List Glyph}
    (h : (!Lexeme.isBlank ch && ch != '/') = true) (hnext : next ∈ nexts) :
    (markPiece gap ch nexts).clue.Shows (markPiece gap ch nexts).token (glyphOf next :: gs) := by
  rw [Bool.and_eq_true, Bool.not_eq_true', bne_iff_ne] at h
  exact ⟨rfl, h.1, h.2, next, gs, rfl, hnext⟩

variable {name : String} {quote : Char} {path lineBreak : List Char} {rest : List Glyph}

/-- The first character of the end of an import. -/
theorem closing_head (hbreak : IsBreak lineBreak) (semicolons : Bool) :
    ∃ ch gs, (Piece.text (closing semicolons)).map glyphOf ++ (lineBreak.map glyphOf ++ rest) =
      glyphOf ch :: gs ∧ ch ∈ [';', '\n', '\r'] := by
  cases semicolons with
  | true => exact ⟨';', _, rfl, by decide⟩
  | false =>
      rcases hbreak with rfl | rfl
      · exact ⟨'\n', _, rfl, by decide⟩
      · exact ⟨'\r', _, rfl, by decide⟩

theorem closing_fit (hbreak : IsBreak lineBreak) (semicolons : Bool) :
    Piece.Fit (lineBreak.map glyphOf ++ rest) (closing semicolons) := by
  cases semicolons with
  | false => trivial
  | true =>
      refine ⟨.inl rfl, ?_, trivial⟩
      rcases hbreak with rfl | rfl
      · exact @markPiece_shows _ _ '\n' _ _ rfl (by decide)
      · exact @markPiece_shows _ _ '\r' _ _ rfl (by decide)

theorem pieces_fit (shape : Shape) (hname : shape.binds = true → IsName name)
    (hquote : quote = '\x27' ∨ quote = '"')
    (hpath : Enclosed quote path) {ch : Char} {gs : List Glyph} (hch : ch ∈ [';', '\n', '\r']) :
    Piece.Fit (glyphOf ch :: gs) (shape.pieces name (quote :: path ++ [quote])) := by
  have htext {behind : List Glyph} : Clue.text.Shows (quote :: path ++ [quote]) behind :=
    ⟨quote, path, hquote, hpath, rfl⟩
  have hspace {gs : List Glyph} : EndsWord (glyphOf ' ' :: gs) := endsWord_glyph rfl
  have hmark : quote ∈ ['\x27', '"'] := by
    rcases hquote with rfl | rfl <;> decide
  cases shape with
  | default =>
      exact ⟨.inl rfl, wordPiece_shows rfl rfl rfl, .inr rfl, (hname rfl).shows hspace,
        .inr rfl, wordPiece_shows rfl rfl rfl, .inr rfl, htext, trivial⟩
  | named =>
      exact ⟨.inl rfl, wordPiece_shows rfl rfl rfl, .inr rfl, markPiece_shows rfl (by decide),
        .inr rfl, (hname rfl).shows hspace, .inr rfl, markPiece_shows rfl (by decide),
        .inr rfl, wordPiece_shows rfl rfl rfl, .inr rfl, htext, trivial⟩
  | wildcard =>
      exact ⟨.inl rfl, wordPiece_shows rfl rfl rfl, .inr rfl, markPiece_shows rfl (by decide),
        .inr rfl, wordPiece_shows rfl rfl rfl, .inr rfl, (hname rfl).shows hspace,
        .inr rfl, wordPiece_shows rfl rfl rfl, .inr rfl, htext, trivial⟩
  | bare => exact ⟨.inl rfl, wordPiece_shows rfl rfl rfl, .inr rfl, htext, trivial⟩
  | required =>
      exact ⟨.inl rfl, wordPiece_shows rfl rfl rfl, .inr rfl, (hname rfl).shows hspace,
        .inr rfl, markPiece_shows rfl (by decide), .inr rfl, wordPiece_shows rfl rfl rfl,
        .inl rfl, markPiece_shows rfl hmark, .inl rfl, htext, .inl rfl, markPiece_shows rfl hch,
        trivial⟩
  | loaded =>
      exact ⟨.inl rfl, wordPiece_shows rfl rfl rfl, .inl rfl, markPiece_shows rfl hmark,
        .inl rfl, htext, .inl rfl, markPiece_shows rfl hch, trivial⟩

/-- The text of a new import, but for the line break. -/
def text (shape : Shape) (semicolons : Bool) (name : String) (path : List Char) : List Char :=
  Piece.text (shape.pieces name path ++ closing semicolons)

/-- The offset of a place in a new import. -/
def offset (shape : Shape) (semicolons : Bool) (name : String) (path : List Char) (start : Nat) :
    Nat → Nat :=
  Piece.placeOffset start (shape.pieces name path ++ closing semicolons)

/-- A new import stands as its outline. -/
theorem stands (shape : Shape) (semicolons : Bool) (hname : shape.binds = true → IsName name)
    (hquote : quote = '\x27' ∨ quote = '"') (hpath : Enclosed quote path) (hbreak : IsBreak lineBreak)
    (hrest : semicolons = true ∨ Follows shape.refused (upcoming rest)) (front : List Char) :
    Stands (shape.offset semicolons name (quote :: path ++ [quote]) (bytesOf front)) lineBreak rest
      (shape.outline semicolons name (quote :: path ++ [quote]))
      (here front (shape.text semicolons name (quote :: path ++ [quote]) ++ lineBreak) rest) := by
  obtain ⟨ch, gs, hbehind, hch⟩ := @closing_head lineBreak rest hbreak semicolons
  have hfit : Piece.Fit (lineBreak.map glyphOf ++ rest)
      (shape.pieces name (quote :: path ++ [quote]) ++ closing semicolons) :=
    .append (hbehind ▸ pieces_fit shape hname hquote hpath hch) (closing_fit hbreak semicolons)
  refine stands_pieces rfl (fun place => by rw [Nat.zero_add]; rfl) hfit fun front' hfront' => ?_
  unfold ending
  split
  · exact .nil hfront'
  · rename_i hsemicolons
    exact .close hfront' (by omega) hbreak (hrest.resolve_left hsemicolons)

/-! ## Reading a shape -/

variable {d : Dialect}

/-- A new import is read up to its line break. -/
theorem runs (shape : Shape) (semicolons : Bool) (hname : shape.binds = true → IsName name)
    (hquote : quote = '\x27' ∨ quote = '"') (hpath : Enclosed quote path) (hbreak : IsBreak lineBreak)
    (hrest : semicolons = true ∨ Follows shape.refused (upcoming rest)) (front : List Char) :
    let quoted := quote :: path ++ [quote]
    Runs d .statement (rest.length + 63) Grammar.item
      (here front (shape.text semicolons name quoted ++ lineBreak) rest)
      (some ([(shape.tree semicolons).relocate (shape.offset semicolons name quoted (bytesOf front))],
        here (front ++ shape.text semicolons name quoted) lineBreak rest)) := by
  intro quoted
  have hstands := shape.stands semicolons hname hquote hpath hbreak hrest front
  have hhappens := @predict_sound d _ _ _ 60 .statement Grammar.item _ _ hstands
  rw [predict_tree] at hhappens
  obtain ⟨c', hafter, hruns⟩ := hhappens
  have hend : c' = here (front ++ shape.text semicolons name quoted) lineBreak rest := by
    have hplace : shape.offset semicolons name quoted (bytesOf front)
        (2 * (shape.pieces name quoted ++ closing semicolons).length) =
          bytesOf (front ++ shape.text semicolons name quoted) := by
      rw [offset, placeOffset_end, text, bytesOf_append]
    unfold leftover ending at hafter
    split at hafter
    · cases hafter with
      | nil hoffset =>
          rw [here, here, hoffset]
          exact congrArg (Cursor.mk · _) hplace
    · cases hafter with
      | close hoffset =>
          rw [here, here, hoffset]
          exact congrArg (Cursor.mk · _) hplace
      | closed hodd => omega
      | token _ _ _ hshows => cases hshows
  rw [hend] at hruns
  exact hruns

end Shape

end ImportAssist
