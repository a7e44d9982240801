import ImportAssist.Proofs.Additions
import ImportAssist.Proofs.ImportsInFront
import ImportAssist.Proofs.MergedDeclarations

/-!
# What a merged statement is read as

A binding that is merged into an import statement is bound by the statement when the edited document is read
again, next to the names that were bound before (`merged_names_bound`). The layout of the statement does not matter,
but one thing does: the text that is put in must not run into a word (`Edit.HasRoom`). In `import{a}from'./x'` a
default name does (`crammed_import_lost`).

The statement is found again where it was, provided that reading comes to it again (`StartKept`). That is so if
nothing but comments and other imports stand in front of it (`startKept_of_imports`), and behind every other text that
is read in the same way whatever stands behind it (`startKept_of_front`).
-/

namespace ImportAssist

open Syntax
open Utf8 (glyphOf)

/-! ## Edits of a text -/

/-- What an edit puts in does not run into a word in front of it or behind it. -/
structure Edit.HasRoom (source : Bytes) (e : Edit) : Prop where
  front : meets (Utf8.glyphs (source.take e.start.toNat)) (Utf8.glyphs (Utf8.encode e.text)) = false
  back : meets (Utf8.glyphs (Utf8.encode e.text)) (Utf8.glyphs (source.drop e.stop.toNat)) = false

namespace Syntax.Change

variable {change : Change} {front back : List Char}

/-- The bytes of a text around a change. -/
theorem encode_split (change : Change) (front back : List Char) :
    let source := Utf8.encode (String.ofList (front ++ (change.before ++ back)))
    source.take (bytesOf (front ++ change.lead)) = Utf8.encode (String.ofList (front ++ change.lead)) ∧
      source.drop (bytesOf (front ++ (change.lead ++ change.old))) =
        Utf8.encode (String.ofList (change.rest ++ back)) := by
  intro source
  have hfront : source = Utf8.encode (String.ofList (front ++ change.lead)) ++
      Utf8.encode (String.ofList (change.old ++ (change.rest ++ back))) := by
    rw [← Utf8.encode_append, ← String.ofList_append]
    simp [source, before]
  have hback : source = Utf8.encode (String.ofList (front ++ (change.lead ++ change.old))) ++
      Utf8.encode (String.ofList (change.rest ++ back)) := by
    rw [← Utf8.encode_append, ← String.ofList_append]
    simp [source, before]
  refine ⟨?_, ?_⟩
  · rw [hfront, bytesOf, List.take_left]
  · rw [hback, bytesOf, List.drop_left]

theorem applyEdits_edit (change : Change) (front back : List Char) :
    applyEdits (Utf8.encode (String.ofList (front ++ (change.before ++ back)))) [change.edit front] =
      Utf8.encode (String.ofList (front ++ (change.after ++ back))) := by
  obtain ⟨hfront, hback⟩ := change.encode_split front back
  have hlength : bytesOf (front ++ change.lead) ≤
        (Utf8.encode (String.ofList (front ++ (change.before ++ back)))).length ∧
      bytesOf (front ++ (change.lead ++ change.old)) ≤
        (Utf8.encode (String.ofList (front ++ (change.before ++ back)))).length := by
    change _ ≤ bytesOf (front ++ (change.before ++ back)) ∧ _ ≤ bytesOf (front ++ (change.before ++ back))
    simp only [before, bytesOf_append]
    omega
  simp only [applyEdits, List.mergeSort_singleton, List.foldl_cons, List.foldl_nil, Edit.apply, edit,
    slicePosition_natCast, Nat.min_eq_left hlength.1, Nat.min_eq_left hlength.2, hfront, hback]
  rw [← Utf8.encode_append, ← Utf8.encode_append, ← String.ofList_append, ← String.ofList_append]
  simp [after]

theorem hasRoom_edit
    (h : (change.edit front).HasRoom (Utf8.encode (String.ofList (front ++ (change.before ++ back))))) :
    change.HasRoom back := by
  obtain ⟨hfront, hback⟩ := change.encode_split front back
  obtain ⟨hroom, hroom'⟩ := h
  simp only [edit, Int.toNat_natCast, hfront, hback, Utf8.glyphs_encode_self, String.toList_ofList] at hroom hroom'
  refine ⟨?_, hroom'⟩
  rw [Bool.eq_false_iff]
  intro hmeets
  rw [List.map_append, meets_append hmeets] at hroom
  cases hroom

end Syntax.Change

/-! ## Places of statements -/

/-- Where a declaration of a document stands, and what is read there. -/
structure Placement (d : Document) (i : Import) where
  dialect : Dialect
  refusing : List Dialect
  others : List Dialect
  tree : Node
  front : List Char
  text : List Char
  after : Cursor
  literal : Node
  value : String
  dialects : Dialect.forLanguage d.language = refusing ++ dialect :: others
  refuse : ∀ dialect ∈ refusing, parseAs dialect d.source = none
  parses : parseAs dialect d.source = some tree
  listed : i.node ∈ tree.children
  source_eq : d.source = Utf8.encode (String.ofList (front ++ text))
  start_eq : i.node.start = bytesOf front
  starts : Starts (text.map glyphOf)
  reads : readStatement dialect ⟨bytesOf front, text.map glyphOf⟩ = some ([i.node], after)
  ends : (readBody dialect after).2.rest = []
  kind : i.node.hasKind .importStatement = true
  child : i.node.child? .source = some literal
  path : literal.stringValue? d.source = some value
  import_eq : i = ⟨.declaration, trimSlash value, i.node, i.node⟩

theorem cursorAt_text (front text : List Char) :
    cursorAt (Utf8.encode (String.ofList (front ++ text))) (bytesOf front) = ⟨bytesOf front, text.map glyphOf⟩ := by
  have hhere := Shape.cursorAt_here front text []
  rw [List.append_nil] at hhere
  rw [hhere, here, List.map_nil, List.append_nil]

theorem Node.isAside_of_import {n : Node} (h : n.hasKind .importStatement = true) : n.isAside = false := by
  rw [hasKind, beq_iff_eq] at h
  simp [isAside, hasKind, h]

theorem exists_placement {d : Document} {i : Import} (hi : i ∈ d.imports) (hform : i.form = .declaration) :
    Nonempty (Placement d i) := by
  obtain ⟨tree, htree, hlisted⟩ := Document.read_of_import hi
  rw [hlisted] at hi
  obtain ⟨hstatement, literal, value, hliteral, hvalue, himport⟩ := Import.declaration_eq hi hform
  obtain ⟨hmem, hkind⟩ := List.mem_filter.mp hstatement
  obtain ⟨front, back, hchildren⟩ := List.append_of_mem hmem
  obtain ⟨refusing, dialect, others, hdialects, hdialect, hrefuse⟩ := List.findSome?_eq_some_iff.mp htree
  obtain ⟨ns, before, after, -, -, -, hhere, hcut, hread, hrest⟩ :=
    parseAs_statement hdialect hchildren (Node.isAside_of_import hkind)
  have hsettled : (cursorAt d.source i.node.start).Settled := hhere ▸ trivia_settled (Nat.le_refl _)
  obtain ⟨front, back, htext, hoffset⟩ := Utf8.encode_split hcut
  have hsource : d.source = Utf8.encode (String.ofList (front.toList ++ back.toList)) := by
    rw [Document.source, htext, ← String.toList_append, String.ofList_toList]
  have hstart : i.node.start = bytesOf front.toList := by rw [hoffset, bytesOf, String.ofList_toList]
  have hcursor : cursorAt d.source i.node.start = ⟨bytesOf front.toList, back.toList.map glyphOf⟩ := by
    rw [hsource, hstart, cursorAt_text]
  rw [hcursor] at hread hsettled
  exact ⟨⟨dialect, refusing, others, tree, front.toList, back.toList, after, literal, value, hdialects, hrefuse,
    hdialect, hmem, hsource, hstart, starts_of_settled hsettled, hread, hrest, hkind, hliteral, hvalue, himport⟩⟩

/-! ## Reading again -/

/-- The default name of a declaration. -/
theorem default_declaration {d : Dialect} {decl : Declaration d} {tail : Part} {front back text : List Char}
    (htail : tail.IsPlain) (htext : text = front ++ (decl.before ++ (decl.path ++ back))) :
    ((ImportClause.ofStatement (decl.node tail (bytesOf front))).default?.map fun n =>
      n.text (Utf8.encode (String.ofList text))) = decl.default?.map String.ofList := by
  have hclause := @childrenOfKind_clause d decl tail htail (bytesOf front)
  unfold Declaration.before at htext
  cases hwhat : decl.what? with
  | none =>
      rw [hwhat, Option.toList_none, List.map_nil] at hclause
      rw [ofStatement_no_clause hclause, Declaration.default?, hwhat]
      rfl
  | some what =>
      obtain ⟨gap, clause, between⟩ := what
      rw [hwhat] at hclause htext
      dsimp only at htext
      rw [ofStatement_clause hclause, ← bytesOf_append, Declaration.default?, hwhat]
      refine @default_text d clause (front ++ decl.lead) gap
        ((between ++ ("from".toList ++ decl.gap)) ++ (decl.path ++ back)) text ?_
      rw [htext]
      simp

section

variable {d : Document} {i : Import} {binding : Binding} {path : String} {e : Edit}

/-- A declaration as a dialect reads it in its place. -/
theorem Placement.declaration (p : Placement d i) {dialect : Dialect} {after : Cursor}
    (hreads : readStatement dialect ⟨bytesOf p.front, p.text.map glyphOf⟩ = some ([i.node], after)) :
    ∃ (decl : Declaration dialect) (tail : Part) (middle rest : List Char),
      Spans decl.row p.text middle ∧ readText dialect .statement importEnd middle = some (tail, rest) ∧
        i.node = decl.node tail (bytesOf p.front) ∧ after.rest = rest.map glyphOf :=
  readStatement_declaration_inv p.starts hreads p.kind (by simp [p.child])

theorem Placement.startsImport (p : Placement d i) : StartsImport p.text := by
  obtain ⟨decl, tail, middle, rest, ⟨htext, hfits⟩, -⟩ := p.declaration p.reads
  rw [htext]
  exact Declaration.startsImport hfits

/-- A declaration that is merged into is read again with the binding, in every dialect that reads it in its place. -/
theorem Placement.reread (p : Placement d i) {dialect : Dialect} {after : Cursor}
    (hreads : readStatement dialect ⟨bytesOf p.front, p.text.map glyphOf⟩ = some ([i.node], after))
    (hname : Shape.IsName binding.identifier) (hmerge : merge d.source i.node binding path = .merged e)
    (hroom : e.HasRoom d.source) :
    ∃ text' n after', applyEdits d.source [e] = Utf8.encode (String.ofList (p.front ++ text')) ∧ StartsImport text' ∧
      readStatement dialect ⟨bytesOf p.front, text'.map glyphOf⟩ = some ([n], after') ∧
      after'.rest = after.rest ∧ n.start = i.node.start ∧
      Import.ofStatement (applyEdits d.source [e]) n = [⟨.declaration, i.path, n, n⟩] ∧
      (ImportClause.ofStatement n).localNames (applyEdits d.source [e]) =
        binding.joined ((ImportClause.ofStatement i.node).default?.map fun name => name.text d.source)
          (i.names d.source) := by
  obtain ⟨decl, tail, middle, rest, ⟨htext, hfits⟩, hend, hnode, hafter⟩ := p.declaration hreads
  have htail := importEnd_isPlain hend
  have hsource := p.source_eq
  rw [htext] at hsource
  have hwhole : p.front ++ (textOf decl.row ++ middle) = p.front ++ (decl.before ++ (decl.path ++ middle)) := by
    rw [decl.row_text, List.append_assoc]
  rw [hnode, hsource] at hmerge
  obtain ⟨change, decl', hjoined, rfl⟩ := merge_joins htail hname (Declaration.names_ne_nil hfits) hwhole hmerge
  rw [hsource, hjoined.rewrites.text_eq] at hroom
  have hfits' : Syntax.Fits middle decl'.row := hjoined.rewrites.fits hfits (Change.hasRoom_edit hroom)
  obtain ⟨after', hread', hafter'⟩ :=
    @readStatement_declaration dialect (bytesOf p.front) decl' tail middle rest hfits' hend
  have hwhole' : p.front ++ (textOf decl'.row ++ middle) = p.front ++ (decl'.before ++ (decl'.path ++ middle)) := by
    rw [decl'.row_text, List.append_assoc]
  have hedited : applyEdits d.source [change.edit p.front] =
      Utf8.encode (String.ofList (p.front ++ (textOf decl'.row ++ middle))) := by
    rw [hsource, hjoined.rewrites.text_eq, hjoined.rewrites.new_text_eq, change.applyEdits_edit]
  have hpath := @path_eq dialect decl tail p.front middle _ hwhole
  have hpath' := @path_eq dialect decl' tail p.front middle _ hwhole'
  have hliteral := p.child
  have hvalue := p.path
  rw [hnode] at hliteral
  rw [hsource] at hvalue
  rw [hliteral, Option.bind_some, hvalue] at hpath
  rw [hjoined.path_eq, ← hpath] at hpath'
  obtain ⟨literal', hliteral', hvalue'⟩ := Option.bind_eq_some_iff.mp hpath'
  rw [hedited]
  refine ⟨_, decl'.node tail (bytesOf p.front), after', rfl, Declaration.startsImport hfits', hread',
    hafter'.trans hafter.symm, p.start_eq.symm, ?_, ?_⟩
  · rw [show i.path = trimSlash p.value from congrArg Import.path p.import_eq]
    exact ofStatement_declaration rfl hliteral' hvalue'
  · have hnames : i.names d.source = (ImportClause.ofStatement i.node).localNames d.source := by rw [p.import_eq]; rfl
    rw [hnames, hnode, hsource, localNames_declaration htail (Declaration.names_ne_nil hfits') hwhole',
      hjoined.names_eq, default_declaration htail hwhole,
      localNames_declaration htail (Declaration.names_ne_nil hfits) hwhole]

/-- The dialect that accepts a source comes to the offset `i` in another one, and no dialect that was tried in vain
accepts that. -/
structure StartKept (source source' : Bytes) (i : Nat) (language : String) : Prop where
  refused : ∀ dialect ∈ (Dialect.forLanguage language).takeWhile fun dialect => (parseAs dialect source).isNone,
    parseAs dialect source' = none
  reached : ∀ dialect, (Dialect.forLanguage language).find? (fun dialect => (parseAs dialect source).isSome) =
    some dialect → ComesTo dialect source' i

theorem Placement.accepts (p : Placement d i) :
    (Dialect.forLanguage d.language).find? (fun dialect => (parseAs dialect d.source).isSome) = some p.dialect := by
  rw [p.dialects, List.find?_append]
  have hnone : p.refusing.find? (fun dialect => (parseAs dialect d.source).isSome) = none := by
    refine List.find?_eq_none.mpr fun dialect hdialect => ?_
    rw [p.refuse dialect hdialect]
    exact nofun
  rw [hnone, Option.none_or, List.find?_cons_of_pos (by simp [p.parses])]

/-- The dialect that accepted the source is tried again. -/
theorem Placement.parse_eq (p : Placement d i) {source' : Bytes} {tree' : Node}
    (h : StartKept d.source source' i.node.start d.language) (htree' : parseAs p.dialect source' = some tree') :
    parse source' d.language = some tree' := by
  have htried : (Dialect.forLanguage d.language).takeWhile (fun dialect => (parseAs dialect d.source).isNone) =
      p.refusing := by
    rw [p.dialects, List.takeWhile_append_of_pos fun dialect hdialect => by rw [p.refuse dialect hdialect]; rfl,
      List.takeWhile_cons_of_neg (by simp [p.parses]), List.append_nil]
  exact List.findSome?_eq_some_iff.mpr ⟨p.refusing, p.dialect, p.others, p.dialects, htree',
    fun dialect hdialect => h.refused dialect (htried ▸ hdialect)⟩

/-- The text of an edited document, if the edit is one of its bytes. -/
theorem Document.apply_eq {text : String} {edits : List Edit} (h : applyEdits d.source edits = Utf8.encode text) :
    d.apply edits = .ok { d with text := text } := by
  rw [Document.apply, h, Utf8.decode?_encode]

/-! ## Behind other imports -/

/-- Reading comes again to a statement that comments and other imports stand in front of, if the first dialect
accepts the document. -/
theorem startKept_of_imports {d' : Document} {dialect : Dialect} {others : List Dialect} {tree : Node}
    (hi : i ∈ d.imports) (hform : i.form = .declaration) (hname : Shape.IsName binding.identifier)
    (hmerge : merge d.source i.node binding path = .merged e) (hroom : e.HasRoom d.source)
    (happly : d.apply [e] = .ok d') (hdialects : Dialect.forLanguage d.language = dialect :: others)
    (htree : parseAs dialect d.source = some tree)
    (hfront : ∀ m ∈ tree.children, m.start < i.node.start → m.mayLead = true) :
    StartKept d.source d'.source i.node.start d.language where
  refused := by
    rw [hdialects, List.takeWhile_cons_of_neg (by simp [htree])]
    exact nofun
  reached := by
    rw [hdialects, List.find?_cons_of_pos (by simp [htree])]
    rintro _ ⟨⟩
    obtain ⟨p⟩ := exists_placement hi hform
    obtain rfl : p.dialect = dialect := by
      have haccepts := p.accepts
      rw [hdialects, List.find?_cons_of_pos (by simp [htree])] at haccepts
      exact (Option.some.inj haccepts).symm
    obtain rfl : p.tree = tree := Option.some.inj (p.parses.symm.trans htree)
    obtain ⟨front, back, hchildren⟩ := List.append_of_mem p.listed
    obtain ⟨text', -, -, hedited, htext', -⟩ := p.reread p.reads hname hmerge hroom
    obtain rfl : _ = d' := Except.ok.inj ((Document.apply_eq hedited).symm.trans happly)
    obtain ⟨ns, before, -, hsteps, hns, hstart, -⟩ :=
      parseAs_statement htree hchildren (Node.isAside_of_import p.kind)
    have hlead : ∀ n ∈ ns, n.mayLead = true := by
      intro n hn
      cases haside : n.isAside with
      | true => rw [Node.mayLead, haside, Bool.true_or]
      | false =>
          have hlt := hsteps.start_lt n hn haside
          have hle := offset_le_trivia before.rest.length before
          exact hfront n (by simp [hchildren, hns n hn]) (by omega)
    rw [p.source_eq] at hsteps
    rw [p.start_eq] at hstart ⊢
    exact comesTo_behind_imports p.startsImport htext' hsteps hstart.symm hlead

/-! ## Behind other statements -/

theorem Syntax.StartsImport.opens {text : List Char} (h : StartsImport text) : Opens ["import"] (text.map glyphOf) :=
  StartsWord.opens h (isOpener_importWords "import" (by decide)) (List.mem_singleton_self _)

theorem Placement.text_eq (p : Placement d i) : d.text.toList = p.front ++ p.text := by
  have hdecoded := congrArg Utf8.decodeLossy p.source_eq
  rw [Document.source, Utf8.decodeLossy_encode, Utf8.decodeLossy_encode] at hdecoded
  rw [hdecoded, String.toList_ofList]

/-- A dialect that read the declaration and refused the document refuses it again. -/
theorem Placement.refuse_again (p : Placement d i) {dialect : Dialect} {after : Cursor} {ns : List Node}
    (hreads : readStatement dialect ⟨bytesOf p.front, p.text.map glyphOf⟩ = some ([i.node], after))
    (hname : Shape.IsName binding.identifier) (hmerge : merge d.source i.node binding path = .merged e)
    (hroom : e.HasRoom d.source) (hfront : readFront dialect ["import"] p.front = some (some ns))
    (hrefuse : parseAs dialect d.source = none) : parseAs dialect (applyEdits d.source [e]) = none := by
  obtain ⟨text', n, after', hedited, htext', hreads', hrest, -⟩ := p.reread hreads hname hmerge hroom
  have hbody {text : List Char} {m : Node} {last : Cursor} (htext : StartsImport text)
      (hreads : readStatement dialect ⟨bytesOf p.front, text.map glyphOf⟩ = some ([m], last)) :
      (readBody dialect (readHashBang (Cursor.start (Utf8.encode (String.ofList (p.front ++ text))))).2).2.rest =
        (readBody dialect last).2.rest := by
    rw [start_text, List.map_append, readFront_body htext.opens hfront, readBody_step hreads]
  rw [hedited]
  rw [p.source_eq] at hrefuse
  unfold parseAs at hrefuse ⊢
  dsimp only at hrefuse ⊢
  rw [hbody p.startsImport hreads] at hrefuse
  rw [hbody htext' hreads', readBody_rest hrest]
  split at hrefuse
  · cases hrefuse
  · rename_i hleft
    exact if_neg hleft

/-- Reading comes again to a statement behind a text whose reading depends on nothing behind it, in all dialects that
were tried. Those that refused the document got stuck in this text, or read the statement and were refused later. -/
theorem startKept_of_front {d' : Document} {front text : List Char} (hi : i ∈ d.imports) (hform : i.form = .declaration)
    (hname : Shape.IsName binding.identifier) (hmerge : merge d.source i.node binding path = .merged e)
    (hroom : e.HasRoom d.source) (happly : d.apply [e] = .ok d') (htext : d.text.toList = front ++ text)
    (hstart : i.node.start = bytesOf front)
    (hfront : ∀ dialect ∈ Dialect.forLanguage d.language, (readFront dialect ["import"] front).isSome = true)
    (htried : ∀ dialect ∈ (Dialect.forLanguage d.language).takeWhile fun dialect => (parseAs dialect d.source).isNone,
      readFront dialect ["import"] front = some none ∨
        ∃ after, readStatement dialect (cursorAt d.source i.node.start) = some ([i.node], after)) :
    StartKept d.source d'.source i.node.start d.language := by
  obtain ⟨p⟩ := exists_placement hi hform
  obtain rfl : front = p.front := front_eq_of_bytesOf (htext.symm.trans p.text_eq) (hstart.symm.trans p.start_eq)
  obtain ⟨text', -, -, hedited, htext', -⟩ := p.reread p.reads hname hmerge hroom
  have hnew : d'.source = Utf8.encode (String.ofList (p.front ++ text')) := by
    obtain rfl := Except.ok.inj ((Document.apply_eq hedited).symm.trans happly)
    rfl
  have hbegin {more : List Char} : Cursor.start (Utf8.encode (String.ofList (p.front ++ more))) =
      ⟨0, p.front.map glyphOf ++ more.map glyphOf⟩ := by rw [start_text, List.map_append]
  refine ⟨fun dialect hdialect => ?_, fun dialect hdialect => ?_⟩
  · have hrefuse : parseAs dialect d.source = none := by
      have hnone := List.mem_takeWhile_imp hdialect
      rwa [Option.isNone_iff_eq_none] at hnone
    rcases hread : readFront dialect ["import"] p.front with _ | _ | ns
    · have hsome := hfront dialect ((List.takeWhile_prefix _).subset hdialect)
      rw [hread] at hsome
      cases hsome
    · rw [hnew]
      exact readFront_refused htext'.opens hbegin hread
    · rcases htried dialect hdialect with hstuck | ⟨after, hreads⟩
      · rw [hread] at hstuck
        cases hstuck
      · rw [p.source_eq, p.start_eq, cursorAt_text] at hreads
        rw [hnew, ← hedited]
        exact p.refuse_again hreads hname hmerge hroom hread hrefuse
  · obtain rfl : p.dialect = dialect := Option.some.inj (p.accepts.symm.trans hdialect)
    rcases hread : readFront p.dialect ["import"] p.front with _ | _ | ns
    · have hsome := hfront p.dialect (List.mem_of_find?_eq_some hdialect)
      rw [hread] at hsome
      cases hsome
    · have hnone := readFront_refused p.startsImport.opens hbegin hread
      rw [← p.source_eq, p.parses] at hnone
      cases hnone
    · rw [hnew, p.start_eq]
      exact readFront_comesTo htext'.opens hbegin hread

/-! ## Merging -/

/-- A binding that is merged into an import statement, with room for it, is bound by the statement next to the
names that were bound before, and the path of the statement is the same. -/
theorem merged_names_bound (hi : i ∈ d.imports) (hform : i.form = .declaration)
    (hname : Shape.IsName binding.identifier) (hmerge : merge d.source i.node binding path = .merged e)
    (hroom : e.HasRoom d.source) :
    ∃ d', d.apply [e] = .ok d' ∧ (StartKept d.source d'.source i.node.start d.language →
      (parse d'.source d'.language).isSome = true ∧
      ∃ j ∈ d'.imports, j.form = .declaration ∧ j.node.start = i.node.start ∧ j.path = i.path ∧
        j.names d'.source = binding.joined
          ((ImportClause.ofStatement i.node).default?.map fun name => name.text d.source) (i.names d.source)) := by
  obtain ⟨p⟩ := exists_placement hi hform
  obtain ⟨text', n, after', hedited, -, hread', hrest', hn, hjoined, hnames⟩ := p.reread p.reads hname hmerge hroom
  rw [hedited] at hjoined hnames
  let d' : Document := { d with text := String.ofList (p.front ++ text') }
  refine ⟨d', Document.apply_eq hedited, fun hkept => ?_⟩
  have hcursor' : cursorAt d'.source i.node.start = ⟨bytesOf p.front, text'.map glyphOf⟩ := by
    rw [p.start_eq]
    exact cursorAt_text _ _
  obtain ⟨tree', htree', hmem'⟩ := parseAs_reread (hkept.reached p.dialect p.accepts) (hcursor' ▸ hread')
    ((readBody_rest hrest').trans p.ends)
  have hparse : parse d'.source d'.language = some tree' := p.parse_eq hkept htree'
  refine ⟨Option.isSome_of_eq_some hparse, ⟨.declaration, i.path, n, n⟩, ?_, rfl, hn, rfl, hnames⟩
  rw [Document.imports, hparse]
  exact List.mem_flatMap.mpr ⟨n, hmem', by rw [Document.source, hjoined]; exact List.mem_singleton_self _⟩

end

/-- A script with an import between comments and a trailing comma, and another one in front. -/
def crowdedScript : Document :=
  ⟨"/ws/a.js", "#!/bin/node\n// Tools\nimport './a'\nimport d,\x7ba as b,/* c */\x7dfrom'./x'\nrun()", "javascript", 0⟩

/-- The new name goes in front of the trailing comma. -/
theorem crowded_import_reread :
    ∃ i ∈ crowdedScript.imports, merge crowdedScript.source i.node (.named "c") "./x" = .merged (.insert 50 ", c") ∧
      (Edit.insert 50 ", c").HasRoom crowdedScript.source ∧
      ∃ d', crowdedScript.apply [.insert 50 ", c"] = .ok d' ∧
        StartKept crowdedScript.source d'.source i.node.start crowdedScript.language ∧
        (parse d'.source d'.language).isSome = true ∧
        ∃ j ∈ d'.imports, j.node.start = 34 ∧ j.path = "./x" ∧ j.names d'.source = ["d", "b", "c"] := by
  have hrun : (crowdedScript.imports.map fun i => ((i.form, i.path, i.node.start),
      merge crowdedScript.source i.node (.named "c") "./x",
      (ImportClause.ofStatement i.node).default?.map fun name => name.text crowdedScript.source,
      i.names crowdedScript.source))[1]? =
        some ((.declaration, "./x", 34), .merged (.insert 50 ", c"), some "d", ["d", "b"]) := by decide +kernel
  rw [List.getElem?_map] at hrun
  obtain ⟨i, hat, hfound⟩ := Option.map_eq_some_iff.mp hrun
  simp only [Prod.mk.injEq] at hfound
  obtain ⟨⟨hform, hpath, hstart⟩, hmerge, hdefault, hnames⟩ := hfound
  have hi : i ∈ crowdedScript.imports := List.mem_of_getElem? hat
  have hname : Shape.IsName (Binding.named "c").identifier :=
    ⟨Shape.isWord_of_all (by decide +kernel) (by decide +kernel), .inr (by decide +kernel)⟩
  have hroom : (Edit.insert 50 ", c").HasRoom crowdedScript.source := ⟨by decide +kernel, by decide +kernel⟩
  have hparses : (parseAs .tsx crowdedScript.source).map (fun tree => tree.children.all fun m =>
      decide (34 ≤ m.start) || m.mayLead) = some true := by decide +kernel
  obtain ⟨tree, htree, hall⟩ := Option.map_eq_some_iff.mp hparses
  obtain ⟨d', happly, hreread⟩ := merged_names_bound hi hform hname hmerge hroom
  have hkept : StartKept crowdedScript.source d'.source i.node.start crowdedScript.language := by
    have hdialects : Dialect.forLanguage crowdedScript.language = .tsx :: [.javascript] := rfl
    refine startKept_of_imports hi hform hname hmerge hroom happly hdialects htree fun m hm hlt => ?_
    have hlead := List.all_eq_true.mp hall m hm
    rw [Bool.or_eq_true, decide_eq_true_eq] at hlead
    exact hlead.resolve_left (by omega)
  obtain ⟨hparses', j, hj, -, hjstart, hjpath, hjnames⟩ := hreread hkept
  refine ⟨i, hi, hmerge, hroom, d', happly, hkept, hparses', j, hj, hjstart.trans hstart, hjpath.trans hpath, ?_⟩
  rw [hjnames, hdefault, hnames]
  rfl

/-! ## No room for a name -/

/-- A script with an import that has no space in it. -/
def crammedScript : Document := ⟨"/ws/a.js", "import\x7ba\x7dfrom'./x'\n", "javascript", 0⟩

/-- A default name goes directly behind the word `import`, and nothing parses any more. -/
theorem crammed_import_lost :
    (parse crammedScript.source crammedScript.language).isSome = true ∧
      Shape.IsName (Binding.default "x").identifier ∧ ¬(Edit.insert 6 "x, ").HasRoom crammedScript.source ∧
      (∃ i ∈ crammedScript.imports, i.form = .declaration ∧ i.names crammedScript.source = ["a"] ∧
        merge crammedScript.source i.node (.default "x") "./x" = .merged (.insert 6 "x, ")) ∧
      (defaultSynthesizer.add crammedScript (.file namingCandidate)).Plays [] (.ok (.merged (.insert 6 "x, "))) ∧
      ∃ d', crammedScript.apply [.insert 6 "x, "] = .ok d' ∧ parse d'.source d'.language = none ∧ d'.imports = [] := by
  have hrun : (crammedScript.imports.map fun i => (i.form, i.names crammedScript.source,
      merge crammedScript.source i.node (.default "x") "./x")) =
        [(.declaration, ["a"], .merged (.insert 6 "x, "))] := by decide +kernel
  obtain ⟨i, himports, hfound⟩ := List.map_eq_singleton_iff.mp hrun
  simp only [Prod.mk.injEq] at hfound
  obtain ⟨hparses, hplays, hnone⟩ : (parse crammedScript.source crammedScript.language).isSome = true ∧
      (defaultSynthesizer.add crammedScript (.file namingCandidate)).replay [] = some (.merged (.insert 6 "x, ")) ∧
      (parse (Utf8.encode "importx, \x7ba\x7dfrom'./x'\n") "javascript").isNone = true := by decide +kernel
  rw [Option.isNone_iff_eq_none] at hnone
  have hname : Shape.IsName (Binding.default "x").identifier :=
    ⟨Shape.isWord_of_all (by decide +kernel) (by decide +kernel), .inr (by decide +kernel)⟩
  have hmeets : ¬(Edit.insert 6 "x, ").HasRoom crammedScript.source := by
    intro hroom
    have hfront := hroom.front
    have hmet : meets (Utf8.glyphs (crammedScript.source.take 6)) (Utf8.glyphs (Utf8.encode "x, ")) = true := by
      decide +kernel
    cases hmet.symm.trans hfront
  refine ⟨hparses, hname, hmeets, ⟨i, by simp [himports], hfound⟩, Dialogue.plays_of_replay hplays,
    ⟨"/ws/a.js", "importx, \x7ba\x7dfrom'./x'\n", "javascript", 0⟩, by decide +kernel, hnone, ?_⟩
  rw [Document.imports, Document.source, hnone]
  rfl

end ImportAssist
