import ImportAssist.Proofs.Additions
import ImportAssist.Proofs.Attendance
import ImportAssist.Proofs.NamedExports
import ImportAssist.Proofs.ReplacedLiterals

/-!
# Paths that are written

A path is written between quotes, in a new statement as in a correction, and nothing in it is escaped. So the
literal ends at the first quote of that kind: a path that has one is cut short or leaves no script at all, and
any other path reads back as it was written (`written_paths_read`).
-/

namespace ImportAssist

open Syntax
open Utf8 (glyphOf)

/-- Neither a backslash nor the end of a line is among some characters. -/
def Unescaped (chars : List Char) : Prop := ∀ ch ∈ chars, ch ≠ '\\' ∧ Lexeme.isLineEnd ch = false

instance (chars : List Char) : Decidable (Unescaped chars) :=
  decidable_of_iff ((chars.all fun ch => ch != '\\' && !Lexeme.isLineEnd ch) = true) (by simp [Unescaped])

/-- A source parses, and the literal at an offset stands for a path. -/
def ReadsAs (source : Bytes) (language : String) (offset : Nat) (path : String) : Prop :=
  ∃ tree, parse source language = some tree ∧
    ∃ literal ∈ tree.preorder, literal.start = offset ∧ literal.stringValue? source = some path

section

variable {quote : Char} {chars front path inner back : List Char}

theorem quotable_iff : Quotable quote chars ↔ quote ∉ chars ∧ Unescaped chars := by
  constructor
  · exact fun h => ⟨fun hmem => (h quote hmem).1 rfl, fun ch hch => (h ch hch).2⟩
  · rintro ⟨hquote, hplain⟩ ch hch
    refine ⟨?_, hplain ch hch⟩
    rintro rfl
    exact hquote hch

/-! ## What a literal stands for -/

/-- A node with something in it splits a text in three. -/
theorem node_splits {text : String} {n : Node} (h : n.Placed (Utf8.IsCut (Utf8.encode text)))
    (hlt : n.start < n.stop) : ∃ front token back, text.toList = front ++ token ++ back ∧
      n.start = bytesOf front ∧ n.stop = bytesOf (front ++ token) ∧
      n.text (Utf8.encode text) = String.ofList token := by
  have hcut (m : Nat) : Utf8.cut (Utf8.encode text) m = bytesOf (text.toList.take m) := by
    rw [Utf8.cut, Utf8.glyphs_encode_self, ← List.map_take, Utf8.width_map_glyphOf, bytesOf]
  obtain ⟨⟨m, hm⟩, ⟨k, hk⟩, -⟩ := h.ends
  rw [hcut] at hm hk
  have hle : m ≤ k := by
    by_contra hnot
    have hsplit : text.toList.take m = text.toList.take k ++ (text.toList.drop k).take (m - k) := by
      rw [← List.take_add, Nat.add_sub_cancel' (by omega)]
    rw [hsplit, bytesOf_append] at hm
    omega
  have hsplit : text.toList.take k = text.toList.take m ++ (text.toList.drop m).take (k - m) := by
    rw [← List.take_add, Nat.add_sub_cancel' hle]
  have htext : text.toList = text.toList.take m ++ (text.toList.drop m).take (k - m) ++ text.toList.drop k := by
    rw [← hsplit, List.take_append_drop]
  rw [hsplit] at hk
  refine ⟨_, _, _, htext, hm, hk, ?_⟩
  have hhere := @text_here _ (text.toList.drop k) _ n [] hm hk
  rwa [← htext, String.ofList_toList, List.append_nil] at hhere

/-- What is closed by the first quote behind it is a path if and only if the path has no such quote. -/
theorem inner_eq_iff (h : inner ++ [quote] <+: path ++ quote :: back)
    (hclosed : ∀ a b, inner = a ++ quote :: b → '\\' ∈ a) (hescape : '\\' ∉ path) :
    inner = path ↔ quote ∉ path := by
  constructor
  · rintro rfl hmem
    obtain ⟨a, b, rfl⟩ := List.append_of_mem hmem
    exact hescape (List.mem_append_left _ (hclosed a b rfl))
  · intro hquote
    obtain ⟨more, hmore⟩ := h
    rw [List.append_assoc, List.singleton_append] at hmore
    rcases List.append_eq_append_iff.mp hmore with ⟨rest, rfl, hrest⟩ | ⟨rest, rfl, hrest⟩
    · cases rest with
      | nil => rw [List.append_nil]
      | cons ch rest =>
          obtain ⟨rfl, -⟩ := List.cons.inj hrest
          exact absurd (List.mem_append_right _ (List.mem_cons_self ..)) hquote
    · cases rest with
      | nil => rw [List.append_nil]
      | cons ch rest =>
          obtain ⟨rfl, -⟩ := List.cons.inj hrest
          exact absurd (hclosed path rest rfl) hescape

/-- In whatever parses, the literal at a path in quotes stands for the path if and only if the path does not
have that quote. -/
theorem stringValue?_eq_iff {source : Bytes} {language : String} {tree literal : Node}
    (hsource : source = Utf8.encode (String.ofList (front ++ (quote :: path ++ quote :: back))))
    (htree : parse source language = some tree) (hmem : literal ∈ tree.preorder)
    (hkind : literal.hasKind .string = true) (hstart : literal.start = bytesOf front) (hescape : '\\' ∉ path) :
    literal.stringValue? source = some (String.ofList path) ↔ quote ∉ path := by
  subst hsource
  obtain ⟨-, mark, -, hquoted⟩ := parse_quoted htree literal hmem hkind
  obtain ⟨hplaced, -⟩ := (parse_placed htree).1.preorder_inside hmem
  obtain ⟨front', token, back', hsplit, hstart', -, htext⟩ :=
    node_splits hplaced (Node.start_lt_stop hquoted.head?)
  obtain ⟨inner, hinner, hclosed⟩ := hquoted
  rw [htext, String.toList_ofList] at hinner
  rw [String.toList_ofList, List.append_assoc] at hsplit
  obtain rfl := front_eq_of_bytesOf hsplit (hstart.symm.trans hstart')
  have hbehind := List.append_cancel_left hsplit
  rw [hinner, List.cons_append, List.cons_append, List.cons_append] at hbehind
  obtain ⟨rfl, hbehind⟩ := List.cons.inj hbehind
  rw [stringValue?_quoted hkind (htext.trans (congrArg String.ofList hinner)), Option.some.injEq,
    ← inner_eq_iff ⟨back', hbehind.symm⟩ hclosed hescape]
  exact ⟨String.ofList_injective, congrArg String.ofList⟩

/-- Nothing is read back from behind a path with its quote in it. -/
theorem ReadsAs.quote_free {source : Bytes} {language : String}
    (hsource : source = Utf8.encode (String.ofList (front ++ (quote :: path ++ quote :: back))))
    (hescape : '\\' ∉ path) (h : ReadsAs source language (bytesOf front) (String.ofList path)) :
    quote ∉ path := by
  obtain ⟨tree, htree, literal, hmem, hstart, hvalue⟩ := h
  exact (stringValue?_eq_iff hsource htree hmem (Node.hasKind_of_stringValue? hvalue) hstart hescape).mp hvalue

theorem Unescaped.backslash (h : Unescaped path) : '\\' ∉ path := fun hmem => (h _ hmem).1 rfl

end

/-! ## New statements -/

namespace Shape

variable {d : Dialect} {name : String} {quote : Char} {path lineBreak : List Char}

/-- How many pieces of a new import stand in front of its path. -/
def pathIndex : Shape → Nat
  | .default => 3
  | .named | .wildcard | .required => 5
  | .bare => 1
  | .loaded => 2

def pathGap : Shape → List Char
  | .required | .loaded => []
  | _ => [' ']

/-- The text in front of the path of a new import. -/
def front (shape : Shape) (name : String) : List Char :=
  Piece.text ((shape.pieces name []).take shape.pathIndex) ++ shape.pathGap

/-- The text behind it. -/
def back (shape : Shape) (semicolons : Bool) (name : String) : List Char :=
  Piece.text ((shape.pieces name []).drop (shape.pathIndex + 1) ++ closing semicolons)

theorem pieces_path (shape : Shape) (name : String) (path : List Char) :
    shape.pieces name path = (shape.pieces name []).take shape.pathIndex ++
      ⟨shape.pathGap, path, .text⟩ :: (shape.pieces name []).drop (shape.pathIndex + 1) := by
  cases shape <;> rfl

theorem text_path (shape : Shape) (semicolons : Bool) (name : String) (path : List Char) :
    shape.text semicolons name path = shape.front name ++ (path ++ shape.back semicolons name) := by
  rw [text, pieces_path, front, back]
  simp [Piece.text, Piece.chars]

theorem offset_path (shape : Shape) (semicolons : Bool) (name : String) (path : List Char) (start : Nat) :
    shape.offset semicolons name path start shape.pathPlace = start + bytesOf (shape.front name) := by
  have hplace : shape.pathPlace = 2 * ((shape.pieces name []).take shape.pathIndex).length + 1 := by
    cases shape <;> rfl
  rw [offset, pieces_path, hplace, List.append_assoc, List.cons_append, placeOffset_append, Piece.placeOffset,
    front, bytesOf_append, Nat.add_assoc]

/-- A new import by itself is a script of one statement. -/
theorem parse_text (shape : Shape) (semicolons : Bool) (hname : shape.binds = true → IsName name)
    (hquote : quote = '\x27' ∨ quote = '"') (hpath : Enclosed quote path) (hbreak : IsBreak lineBreak)
    (language : String) :
    let quoted := quote :: path ++ [quote]
    let source := Utf8.encode (String.ofList (shape.text semicolons name quoted ++ lineBreak))
    parse source language = some (.mk (.kind .program) none 0 source.length
      [(shape.tree semicolons).relocate (shape.offset semicolons name quoted 0)]) := by
  intro quoted source
  have hstart : Cursor.start source = here [] (shape.text semicolons name quoted ++ lineBreak) [] := by
    rw [Cursor.start, Utf8.glyphs_encode_self, String.toList_ofList, here, List.append_nil]
    rfl
  have hbang : readHashBang (Cursor.start source) = ([], Cursor.start source) := by
    have hnone : Lexeme.hashBang (Cursor.start source).rest = none := by
      rw [hstart]
      cases shape <;> rfl
    rw [readHashBang, hnone]
  have hdialect (d : Dialect) : parseAs d source = some (.mk (.kind .program) none 0 source.length
      [(shape.tree semicolons).relocate (shape.offset semicolons name quoted 0)]) := by
    have hfollows : Follows shape.refused (upcoming []) := by
      cases shape <;> exact ⟨rfl, by decide, by decide⟩
    have hread := @readStatement_text d name quote path lineBreak shape semicolons [] hname hquote hpath hbreak
      (.inr hfollows) []
    have hbreaks := @trivia_break ([] ++ shape.text semicolons name quoted) [] _ hbreak 0
    have hrest : readBody d (here ([] ++ shape.text semicolons name quoted) lineBreak []) =
        ([], here ([] ++ shape.text semicolons name quoted ++ lineBreak) [] []) := by
      rw [readBody_skip (0 + lineBreak.length), hbreaks, trivia]
      have hnone : readStatement d (here ([] ++ shape.text semicolons name quoted ++ lineBreak) [] []) = none := by
        by_contra hsome
        obtain ⟨r, hr⟩ := Option.ne_none_iff_exists'.mp hsome
        exact absurd (readStatement_shorter hr) (Nat.not_lt_zero _)
      rw [readBody_stop hnone]
      rfl
    rw [parseAs, hbang]
    dsimp only
    rw [hstart, readBody_step hread, hrest]
    rfl
  unfold parse Dialect.forLanguage
  split <;> rw [List.findSome?_cons, hdialect]

theorem exists_literal (shape : Shape) (semicolons : Bool) :
    ∃ literal ∈ (shape.tree semicolons).preorder,
      literal.hasKind .string = true ∧ literal.start = shape.pathPlace := by
  have hany : ((shape.tree semicolons).preorder.any fun n =>
      n.hasKind .string && n.start == shape.pathPlace) = true := by
    cases shape <;> cases semicolons <;> rfl
  obtain ⟨literal, hmem, hliteral⟩ := List.any_eq_true.mp hany
  rw [Bool.and_eq_true, beq_iff_eq] at hliteral
  exact ⟨literal, hmem, hliteral⟩

/-- The path of a new import reads back if and only if it does not have the quote it is written in. -/
theorem readsAs_iff (shape : Shape) (semicolons : Bool) (hname : shape.binds = true → IsName name)
    (hquote : quote = '\x27' ∨ quote = '"') (hpath : Unescaped path) (hbreak : IsBreak lineBreak)
    (language : String) :
    ReadsAs
      (Utf8.encode (String.ofList (shape.text semicolons name (quote :: path ++ [quote]) ++ lineBreak)))
      language (bytesOf (shape.front name)) (String.ofList path) ↔ quote ∉ path := by
  have hsplit : shape.text semicolons name (quote :: path ++ [quote]) ++ lineBreak =
      shape.front name ++ (quote :: path ++ quote :: (shape.back semicolons name ++ lineBreak)) := by
    rw [text_path]
    simp
  have hsource := congrArg (fun chars => Utf8.encode (String.ofList chars)) hsplit
  refine ⟨ReadsAs.quote_free hsource hpath.backslash, fun hfree => ?_⟩
  have hparse := shape.parse_text semicolons hname hquote
    (quotable_iff.mpr ⟨hfree, hpath⟩).enclosed hbreak language
  obtain ⟨literal, hmem, hkind, hplace⟩ := shape.exists_literal semicolons
  let f := shape.offset semicolons name (quote :: path ++ [quote]) 0
  have hmem' (stop : Nat) :
      literal.relocate f ∈ (Node.mk (.kind .program) none 0 stop [(shape.tree semicolons).relocate f]).preorder :=
    Node.mem_preorder.mpr (.inr ⟨_, List.mem_singleton_self _, Node.mem_preorder_relocate hmem⟩)
  have hstart : (literal.relocate f).start = bytesOf (shape.front name) := by
    rw [Node.relocate_start, hplace]
    exact (shape.offset_path ..).trans (Nat.zero_add _)
  have hkind' : (literal.relocate f).hasKind .string = true := by rw [Node.relocate_hasKind, hkind]
  exact ⟨_, hparse, _, hmem' _, hstart,
    (stringValue?_eq_iff hsource hparse (hmem' _) hkind' hstart hpath.backslash).mpr hfree⟩

end Shape

/-! ## Corrections -/

theorem applyEdits_middle {front middle back : Bytes} {start stop : Nat} (hstart : start = front.length)
    (hstop : stop = start + middle.length) (text : String) :
    applyEdits (front ++ middle ++ back) [⟨start, stop, text⟩] = front ++ Utf8.encode text ++ back := by
  subst hstart hstop
  rw [applyEdits, List.mergeSort_singleton, List.foldl_cons, List.foldl_nil, Edit.apply, slicePosition_natCast,
    slicePosition_natCast, ← List.length_append, Nat.min_eq_left (by simp), Nat.min_eq_left (by simp),
    List.drop_left, List.append_assoc front middle, List.take_left]

/-- The text of a document in front of an offset. -/
def Document.before (d : Document) (offset : Nat) : List Char :=
  (Utf8.decodeLossy (d.source.take offset)).toList

section

variable {d : Document} {i : RelativeImport}

/-- Where a relative import stands in a document. -/
structure RelativeImport.StandsIn (i : RelativeImport) (d : Document) (back : List Char) : Prop where
  text : d.text.toList = d.before i.start ++ (i.quote :: i.path.toList ++ i.quote :: back)
  start : i.start = bytesOf (d.before i.start)
  stop : i.stop = i.start + bytesOf (i.quote :: i.path.toList ++ [i.quote])
  isQuote : i.quote = '\x27' ∨ i.quote = '"'
  /-- A quote in the path is escaped. -/
  closed : ∀ a b, i.path.toList = a ++ i.quote :: b → '\\' ∈ a
  literal : ∃ tree, parse d.source d.language = some tree ∧
    ∃ literal ∈ tree.preorder, literal.hasKind .string = true ∧ literal.start = i.start

theorem Document.before_eq {front back : List Char} (h : d.text.toList = front ++ back) :
    d.before (bytesOf front) = front := by
  have hsource : d.source = Utf8.encode (String.ofList front) ++ Utf8.encode (String.ofList back) := by
    rw [Document.source, ← Utf8.encode_append, ← String.ofList_append, ← h, String.ofList_toList]
  rw [Document.before, hsource, bytesOf, List.take_left, Utf8.decodeLossy_encode, String.toList_ofList]

theorem RelativeImport.value_of_literal {source : Bytes} {literal : Node}
    (h : RelativeImport.ofLiteral? source literal = some i) : literal.stringValue? source = some i.path := by
  obtain ⟨path, hpath, rfl⟩ := Option.map_eq_some_iff.mp h
  exact (Option.filter_eq_some_iff.mp hpath).1

theorem relativeImport_stands (hi : i ∈ relativeImports d) : ∃ back, i.StandsIn d back := by
  unfold relativeImports at hi
  split at hi
  · cases hi
  rename_i tree htree
  obtain ⟨literal, hliteral, hof⟩ := List.mem_filterMap.mp hi
  have hmem := mem_preorder_of_pathLiteral ((List.mergeSort_perm _ _).mem_iff.mp hliteral)
  obtain ⟨hkind, hstart, hstop, hquote⟩ := RelativeImport.ofLiteral?_spec hof
  obtain ⟨-, mark, hmark, hquoted⟩ := parse_quoted htree literal hmem hkind
  obtain ⟨hplaced, -⟩ := (parse_placed htree).1.preorder_inside hmem
  obtain ⟨front, token, back, hsplit, hfront, htoken, htext⟩ :=
    node_splits hplaced (Node.start_lt_stop hquoted.head?)
  obtain ⟨inner, hinner, hclosed⟩ := hquoted
  have hmarked : i.quote = mark := by
    rw [hquote, hinner]
    rcases List.mem_cons.mp hmark with rfl | hmark
    · rfl
    · rw [List.mem_singleton.mp hmark]
      rfl
  change literal.text d.source = _ at htext
  rw [htext, String.toList_ofList] at hinner
  have hpath : i.path = String.ofList inner := by
    have hvalue := stringValue?_quoted hkind (htext.trans (congrArg String.ofList hinner))
    exact Option.some.inj ((RelativeImport.value_of_literal hof).symm.trans hvalue)
  have hbefore : d.before i.start = front := by
    rw [hstart, hfront, Document.before_eq (hsplit.trans (List.append_assoc ..))]
  refine ⟨back, ?_, ?_, ?_, ?_, ?_, tree, htree, literal, hmem, hkind, hstart.symm⟩
  · rw [hbefore, hsplit, hinner, hpath, hmarked, String.toList_ofList]
    simp
  · rw [hbefore, hstart, hfront]
  · rw [hstop, hstart, htoken, hfront, bytesOf_append, hinner, hpath, hmarked, String.toList_ofList]
  · rw [hmarked]
    simpa using hmark
  · rwa [hpath, hmarked, String.toList_ofList]

namespace RelativeImport.StandsIn

variable {back : List Char} {path : String}

theorem quotable (h : i.StandsIn d back) (hplain : Unescaped i.path.toList) : Quotable i.quote i.path.toList := by
  refine quotable_iff.mpr ⟨fun hmem => ?_, hplain⟩
  obtain ⟨a, b, hsplit⟩ := List.append_of_mem hmem
  refine hplain.backslash ?_
  rw [hsplit]
  exact List.mem_append_left _ (h.closed a b hsplit)

/-- The literal of the import with another path in it. -/
def replacement (h : i.StandsIn d back) (hplain : Unescaped i.path.toList) (hpath : Quotable i.quote path.toList) :
    Replacement :=
  ⟨d.before i.start, i.quote, i.path.toList, path.toList, Utf8.encode (String.ofList back), h.isQuote,
    h.quotable hplain, hpath⟩

theorem source_old (h : i.StandsIn d back) (hplain : Unescaped i.path.toList)
    (hpath : Quotable i.quote path.toList) : (h.replacement hplain hpath).source i.path.toList = d.source := by
  rw [Document.source, ← String.ofList_toList (s := d.text), h.text]
  simp [replacement, Replacement.source, Replacement.literal, ← Utf8.encode_append, ← String.ofList_append]

theorem source_new (h : i.StandsIn d back) (hplain : Unescaped i.path.toList)
    (hpath : Quotable i.quote path.toList) : (h.replacement hplain hpath).source path.toList =
      Utf8.encode (String.ofList (d.before i.start ++ (i.quote :: path.toList ++ i.quote :: back))) := by
  simp [replacement, Replacement.source, Replacement.literal, ← Utf8.encode_append, ← String.ofList_append]

/-- The source with the literal of the import rewritten. -/
theorem applyEdits_eq (h : i.StandsIn d back) (text : String) :
    applyEdits d.source [⟨i.start, i.stop, text⟩] =
      Utf8.encode (String.ofList (d.before i.start ++ (text.toList ++ back))) := by
  have hsource : d.source = Utf8.encode (String.ofList (d.before i.start)) ++
      Utf8.encode (String.ofList (i.quote :: i.path.toList ++ [i.quote])) ++ Utf8.encode (String.ofList back) := by
    rw [← Utf8.encode_append, ← Utf8.encode_append, ← String.ofList_append, ← String.ofList_append,
      Document.source, ← String.ofList_toList (s := d.text), h.text]
    simp
  rw [hsource, applyEdits_middle h.start h.stop, ← String.ofList_toList (s := text), ← Utf8.encode_append,
    ← Utf8.encode_append, ← String.ofList_append, ← String.ofList_append, String.toList_ofList,
    List.append_assoc]

end RelativeImport.StandsIn

/-- The corrected path of an import reads back if and only if it does not have the quote that the import is written
in. -/
theorem correction_readsAs_iff {r : Repairer} {c : FileCandidate} (hi : i ∈ relativeImports d)
    (hlead : ∀ dialect ∈ Dialect.forLanguage d.language, ClearFront dialect (d.before i.start))
    (hplain : Unescaped i.path.toList)
    (hpath : Unescaped (c.pathFrom r.disk.cwd d.directory).toList) :
    ReadsAs (applyEdits d.source [r.correction d i c]) d.language i.start (c.pathFrom r.disk.cwd d.directory) ↔
      i.quote ∉ (c.pathFrom r.disk.cwd d.directory).toList := by
  obtain ⟨back, hstands⟩ := relativeImport_stands hi
  generalize hnew : c.pathFrom r.disk.cwd d.directory = path at *
  have hsource : applyEdits d.source [r.correction d i c] = Utf8.encode (String.ofList
      (d.before i.start ++ (i.quote :: path.toList ++ i.quote :: back))) := by
    rw [Repairer.correction, hnew, hstands.applyEdits_eq]
    simp
  constructor
  · intro hreads
    refine ReadsAs.quote_free hsource hpath.backslash (?_ : ReadsAs _ d.language _ _)
    rwa [String.ofList_toList, ← hstands.start]
  · intro hfree
    obtain ⟨tree, htree, literal, hmem, hkind, hstart⟩ := hstands.literal
    have hquotable := quotable_iff.mpr ⟨hfree, hpath⟩
    let replacement := hstands.replacement hplain hquotable
    have hparse : parse (applyEdits d.source [r.correction d i c]) d.language =
        some (tree.relocate replacement.moved) := by
      have hold : replacement.source replacement.old = d.source := hstands.source_old hplain hquotable
      have hnew : replacement.source replacement.new = applyEdits d.source [r.correction d i c] :=
        (hstands.source_new hplain hquotable).trans hsource.symm
      rw [← hnew, replacement.parse_eq hlead, hold, htree, Option.map_some]
    have hmem' := @Node.mem_preorder_relocate replacement.moved _ _ hmem
    have hstart' : (literal.relocate replacement.moved).start = bytesOf (d.before i.start) := by
      rw [Node.relocate_start, hstart, ← hstands.start]
      exact replacement.moved_front (Nat.le_of_eq hstands.start)
    have hkind' : (literal.relocate replacement.moved).hasKind .string = true := by
      rw [Node.relocate_hasKind, hkind]
    refine ⟨_, hparse, _, hmem', hstart'.trans hstands.start.symm, ?_⟩
    rw [← String.ofList_toList (s := path)]
    exact (stringValue?_eq_iff hsource hparse hmem' hkind' hstart' hpath.backslash).mpr hfree

end

/-! ## Both writers -/

/-- A path without backslashes and line breaks, written in a new statement or as the correction of an import whose
front is read alike whatever its path is, leaves a source that parses and reads back as it is, if and only if it does
not have the quote it is written in. -/
theorem written_paths_read {path : String} (hpath : Unescaped path.toList) :
    (∀ (options : Options) (binding? : Option Binding) (lineBreak language : String),
      (∀ binding ∈ binding?, Shape.IsName binding.identifier) →
      (options.form = .require → ∀ binding ∈ binding?, ∃ x, binding = .default x) →
      IsBreak lineBreak.toList →
      (ReadsAs (Utf8.encode (importStatement (renderAll binding?) path options.form options lineBreak)) language
        (bytesOf ((Shape.of options.form binding?).front (boundName binding?))) path ↔
        options.quoteMark.char ∉ path.toList)) ∧
    ∀ (r : Repairer) (d : Document) (c : FileCandidate), c.pathFrom r.disk.cwd d.directory = path →
      ∀ i ∈ relativeImports d,
        (∀ dialect ∈ Dialect.forLanguage d.language, ClearFront dialect (d.before i.start)) → Unescaped i.path.toList →
        (ReadsAs (applyEdits d.source [r.correction d i c]) d.language i.start path ↔
          i.quote ∉ path.toList) := by
  constructor
  · intro options binding? lineBreak language hname hdefault hbreak
    have htext := @importStatement_toList options binding? path lineBreak
      (fun binding hmem => (hname binding hmem).ne_empty) hdefault
    have hreads := (Shape.of options.form binding?).readsAs_iff options.semicolons (isName_boundName hname)
      (mem_quotes options.quoteMark) hpath hbreak language
    rwa [← htext, String.ofList_toList, String.ofList_toList] at hreads
  · rintro r d c rfl i hi hlead hplain
    exact correction_readsAs_iff hi hlead hplain hpath

/-- Words and marks are plain. -/
theorem plain_of_ordinary {chars : List Char} (h : (chars.all fun ch => isOrdinary ch && ch != '-') = true) :
    Plain chars := by
  induction chars with
  | nil => exact .nil
  | cons ch chars ih =>
      simp only [List.all_cons, Bool.and_eq_true, bne_iff_ne] at h
      obtain ⟨⟨hordinary, hdash⟩, hmore⟩ := h
      exact .ordinary hordinary (fun hprefix => hdash (List.cons_prefix_cons.mp hprefix).1.symm) (ih hmore)

/-- A template in front of the statement is no obstacle. -/
example : ClearFront .tsx "const text = `it's $\x7b1 / 2\x7d`\nimport b from ".toList :=
  @ClearFront.behind .tsx "const text = `it's $\x7b1 / 2\x7d`\n".toList " b from ".toList "import" (by decide +kernel)
    (isOpener_importWords "import" (by decide)) (plain_of_ordinary (by decide)) (by rintro _ ⟨⟩; decide)

/-- A new import of a file, and the correction of an import to it. -/
theorem lone_path_reads :
    let d := loneDocument
    let r := loneRepairer "b.js"
    let c := (loneIndex {} "b.js").candidate "/ws" "/ws/lib/b.js"
    Unescaped "./lib/b".toList ∧ Shape.IsName "b" ∧ IsBreak "\n".toList ∧
      c.pathFrom r.disk.cwd d.directory = "./lib/b" ∧ loneImport ∈ relativeImports d ∧
      (∀ dialect ∈ Dialect.forLanguage d.language, ClearFront dialect (d.before loneImport.start)) ∧
      Unescaped loneImport.path.toList ∧
      ReadsAs (Utf8.encode "import b from './lib/b'\n") d.language 14 "./lib/b" ∧
      ReadsAs (applyEdits d.source [r.correction d loneImport c]) d.language 14 "./lib/b" := by
  intro d r c
  have hname : Shape.IsName "b" := ⟨Shape.isWord_of_all (by decide) (by decide), .inr (by decide)⟩
  have hpath : c.pathFrom r.disk.cwd d.directory = "./lib/b" := by decide +kernel
  have himport : loneImport ∈ relativeImports d := by
    rw [loneDocument_imports]
    exact List.mem_singleton_self _
  have hlead : ∀ dialect ∈ Dialect.forLanguage d.language, ClearFront dialect (d.before loneImport.start) := by
    intro dialect _
    have hbefore : d.before loneImport.start = "import b from ".toList := by decide +kernel
    rw [hbefore]
    exact .plain (.script (plain_of_ordinary (by decide)) (by decide))
  obtain ⟨hwritten, hcorrected⟩ := @written_paths_read "./lib/b" (by decide)
  refine ⟨by decide, hname, .inl rfl, hpath, himport, hlead, by decide, ?_, ?_⟩
  · exact (hwritten {} (some (.default "b")) "\n" d.language (fun _ h => Option.some.inj h ▸ hname) nofun
      (.inl rfl)).mpr (by decide)
  · exact (hcorrected r d c hpath loneImport himport hlead (by decide)).mpr (by decide)

/-- The apostrophe in the name of a directory ends the literal. -/
theorem apostrophe_not_read :
    let s : Synthesizer := ⟨{ cwd := "/ws", entries := [(["ws"], .directory), (["ws", "it's"], .directory),
      (["ws", "it's", "x.js"], .file (Utf8.encode "export default 1;"))] }, {}, false⟩
    let c := s.candidateAt "/ws/it's/x.js"
    let statement := importStatement "x" "./it's/x" .declaration s.options emptyDocument.lineBreak
    Unescaped "./it's/x".toList ∧ c.pathFrom s.disk.cwd emptyDocument.directory = "./it's/x" ∧
      (s.add emptyDocument (.file c)).Plays [] (.ok (.inserted [.insert 0 statement])) ∧
      statement = "import x from './it's/x'\n" ∧
      parse (Utf8.encode statement) emptyDocument.language = none :=
  ⟨by decide, by decide +kernel, Dialogue.plays_of_replay (by decide +kernel), by decide +kernel,
    by decide +kernel⟩

end ImportAssist
