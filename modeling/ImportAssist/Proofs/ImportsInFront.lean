import ImportAssist.Proofs.PlainText
import ImportAssist.Proofs.StatementStarts

/-!
# Imports in front of an import

Declarations and comments that stand in front of an import statement are read in the same way whatever the statement
says, as long as it starts with the word `import` (`Leads.steps`): it can be seen from this word whether a declaration
in front of it has ended without a semicolon (`Gap.endsLine`).

A declaration with attributes is left out. The braces of these hold expressions of any kind.
-/

namespace ImportAssist

open Utf8 (glyphOf)

/-- An import of a path, without attributes. -/
def Node.isPlainImport (n : Node) : Bool :=
  n.hasKind .importStatement && (n.child? .source).isSome && (n.childrenOfKind .importAttribute).isEmpty

/-- What an import may stand behind, to be come to whatever it says. -/
def Node.mayLead (n : Node) : Bool := n.isAside || n.isPlainImport

theorem Node.isPlainImport_of_mayLead {n : Node} (h : n.mayLead = true) (haside : n.isAside = false) :
    n.hasKind .importStatement = true ∧ n.child? .source ≠ none ∧ n.childrenOfKind .importAttribute = [] := by
  rw [mayLead, haside, Bool.false_or, isPlainImport, Bool.and_eq_true, Bool.and_eq_true, List.isEmpty_iff,
    Option.isSome_iff_ne_none] at h
  exact ⟨h.1.1, h.1.2, h.2⟩

namespace Syntax

open Grammar (Production)

variable {d : Dialect} {p : Place} {gap text : List Char} {ch : Char} {gs : List Glyph} {offset fuel : Nat}

/-! ## The word `import` -/

/-- Texts that start with the word `import`. -/
def StartsImport (text : List Char) : Prop :=
  ∃ behind, text = "import".toList ++ behind ∧ EndsWord (behind.map glyphOf)

namespace StartsImport

theorem starts (h : StartsImport text) : Starts (text.map glyphOf) := by
  obtain ⟨behind, rfl, hends⟩ := h
  exact starts_cons rfl (by decide)

theorem mayStart (h : StartsImport text) : mayStartStatement (text.map glyphOf) = true := by
  obtain ⟨behind, rfl, hends⟩ := h
  have hword : Lexeme.word (("import".toList ++ behind).map glyphOf) = 6 :=
    Segment.Stands.word_eq (s := .word _) ⟨⟨by decide, by decide⟩, hends⟩
  have hi : mayStartStatement (("import".toList ++ behind).map glyphOf) =
      let n := Lexeme.word (("import".toList ++ behind).map glyphOf)
      !((n == 2 && Lexeme.literal "in".toList (("import".toList ++ behind).map glyphOf)) ||
        (n == 10 && Lexeme.literal "instanceof".toList (("import".toList ++ behind).map glyphOf))) := rfl
  rw [hi, hword]
  rfl

end StartsImport

theorem Declaration.startsImport {decl : Declaration d} {behind : List Char} (h : Fits behind decl.row) :
    StartsImport (textOf decl.row ++ behind) := by
  refine ⟨_, textOf_cons_append, h.2.1.2⟩

/-! ## Ends of lines -/

/-- A line on which nothing but the next character decides. -/
theorem lineEnd_here {endsLine : Char → Bool} (hch : (Lexeme.isBlank ch && !endsLine ch) = false) :
    lineEnd endsLine (fuel + 1) ⟨offset, glyphOf ch :: gs⟩ =
      if ch == '\x7d' then some ([], ⟨offset, glyphOf ch :: gs⟩)
      else if endsLine ch then
        if mayStartStatement (trivia fuel ⟨0, gs⟩).2.rest then some ([], ⟨offset, glyphOf ch :: gs⟩) else none
      else
        match Lexeme.comment (glyphOf ch :: gs) with
        | some n =>
          let after := (Cursor.mk offset (glyphOf ch :: gs)).advance n
          (lineEnd endsLine fuel after).map fun r => (Node.leaf .comment offset after.offset :: r.1, r.2)
        | none => none := by
  have hzero : Lexeme.runLength (fun ch => Lexeme.isBlank ch && !endsLine ch) (glyphOf ch :: gs) = 0 := by
    simp only [Lexeme.runLength, glyphOf, hch, Bool.and_false, Bool.false_eq_true, if_false]
  exact @lineEnd_blanks ch endsLine [] gs fuel offset hzero

/-- A blank is left where it is, if the line ends there. -/
theorem lineEnd_blank {endsLine : Char → Bool} (hch : (Lexeme.isBlank ch && !endsLine ch) = true) :
    lineEnd endsLine (fuel + 1) ⟨offset, glyphOf ch :: gs⟩ =
      (lineEnd endsLine (fuel + 1) ⟨offset + bytesOf [ch], gs⟩).map fun r =>
        if r.1.isEmpty then ([], ⟨offset, glyphOf ch :: gs⟩) else r := by
  have hlength : Lexeme.runLength (fun ch => Lexeme.isBlank ch && !endsLine ch) (glyphOf ch :: gs) =
      Lexeme.runLength (fun ch => Lexeme.isBlank ch && !endsLine ch) gs + 1 := by
    rw [Lexeme.runLength]
    simp [glyphOf, hch]
  have hadvance (n : Nat) : (Cursor.mk offset (glyphOf ch :: gs)).advance (n + 1) =
      (Cursor.mk (offset + bytesOf [ch]) gs).advance n := by
    have hone : (Cursor.mk offset ([ch].map glyphOf ++ gs)).advance 1 = ⟨offset + bytesOf [ch], gs⟩ :=
      @advance_glyphs [ch] gs offset
    rw [Nat.add_comm, ← Cursor.advance_advance, ← hone]
    rfl
  rw [lineEnd, lineEnd]
  simp only [hlength, List.drop_succ_cons, hadvance]
  split
  · rfl
  · split
    · rfl
    · split
      · split <;> rfl
      · split
        · rw [Option.map_map]
          rfl
        · rfl

/-- What is read of a gap where a statement may end in front of the word `import`, and what is left of the gap. -/
structure EndsLine (d : Dialect) (gap : List Char) (found : Option (Part × List Char)) : Prop where
  split : ∀ r ∈ found, gap = r.1.chars ++ r.2
  empty : ∀ r ∈ found, ∀ offset, (r.1.nodes offset).isEmpty = r.1.chars.isEmpty
  line : ∀ {text : List Char} {offset fuel : Nat}, StartsImport text → gap.length < fuel →
    lineEnd d.endsLine fuel ⟨offset, (gap ++ text).map glyphOf⟩ =
      found.map fun r => (r.1.nodes offset, ⟨offset + bytesOf r.1.chars, (r.2 ++ text).map glyphOf⟩)

/-- A comment on the line belongs to the statement in front. -/
theorem EndsLine.comment {comment more : List Char} {found : Option (Part × List Char)}
    (hslash : comment.head? = some '/')
    (hcomment : ∀ gs, Lexeme.comment (comment.map glyphOf ++ (more.map glyphOf ++ gs)) = some comment.length)
    (h : EndsLine d more found) :
    EndsLine d (comment ++ more) (found.map fun r => (⟨comment ++ r.1.chars, fun offset =>
      Node.leaf .comment offset (offset + bytesOf comment) :: r.1.nodes (offset + bytesOf comment)⟩, r.2)) where
  split := by
    intro found hfound
    obtain ⟨r, hr, rfl⟩ := Option.map_eq_some_iff.mp hfound
    rw [h.split r hr]
    simp
  empty := by
    intro found hfound
    obtain ⟨r, hr, rfl⟩ := Option.map_eq_some_iff.mp hfound
    cases comment with
    | nil => cases hslash
    | cons => exact fun _ => rfl
  line {text offset fuel} htext hfuel := by
    obtain ⟨tail, rfl⟩ : ∃ tail, comment = '/' :: tail := by
      cases comment with
      | nil => cases hslash
      | cons ch tail =>
          cases hslash
          exact ⟨tail, rfl⟩
    rw [List.length_append, List.length_cons] at hfuel
    obtain ⟨fuel, rfl⟩ : ∃ n, fuel = n + 1 := ⟨fuel - 1, by omega⟩
    have hscan := hcomment (text.map glyphOf)
    have hadvance : (Cursor.mk offset (('/' :: tail).map glyphOf ++ (more.map glyphOf ++ text.map glyphOf))).advance
        ('/' :: tail).length = ⟨offset + bytesOf ('/' :: tail), (more ++ text).map glyphOf⟩ := by
      rw [advance_glyphs, List.map_append]
    have hline : d.endsLine '/' = false := by cases d <;> rfl
    rw [List.map_append, List.map_append, List.append_assoc, List.map_cons, List.cons_append,
      lineEnd_here (by simp [hline, show Lexeme.isBlank '/' = false from rfl])]
    rw [List.map_cons, List.cons_append] at hscan hadvance
    rw [hline, hscan]
    simp only [show ('/' == '\x7d') = false from rfl, Bool.false_eq_true, if_false]
    rw [hadvance, h.line htext (by omega)]
    cases found with
    | none => rfl
    | some r => simp only [Option.map_some, bytesOf_append, Nat.add_assoc]

/-- A blank that does not end the line goes with a comment behind it. -/
theorem EndsLine.blank {more : List Char} {found : Option (Part × List Char)} (hblank : Lexeme.isBlank ch = true)
    (hline : d.endsLine ch = false) (h : EndsLine d more found) :
    EndsLine d (ch :: more) (found.map fun r => if r.1.chars.isEmpty then (.nil, ch :: more)
      else (⟨ch :: r.1.chars, fun offset => r.1.nodes (offset + bytesOf [ch])⟩, r.2)) where
  split := by
    intro found hfound
    obtain ⟨r, hr, rfl⟩ := Option.map_eq_some_iff.mp hfound
    split
    · rfl
    · rw [h.split r hr]
      rfl
  empty := by
    intro found hfound offset
    obtain ⟨r, hr, rfl⟩ := Option.map_eq_some_iff.mp hfound
    split
    · rfl
    · rename_i hempty
      rw [Bool.not_eq_true] at hempty
      rw [h.empty r hr, hempty]
      rfl
  line {text offset fuel} htext hfuel := by
    rw [List.length_cons] at hfuel
    obtain ⟨fuel, rfl⟩ : ∃ n, fuel = n + 1 := ⟨fuel - 1, by omega⟩
    rw [List.cons_append, List.map_cons, lineEnd_blank (by simp [hblank, hline]), h.line htext (by omega)]
    cases found with
    | none => rfl
    | some r =>
        have hempty := h.empty r rfl (offset + bytesOf [ch])
        rw [Option.map_some, Option.map_some, Option.map_some]
        dsimp only
        rw [hempty]
        split
        · rfl
        · have hbytes : bytesOf (ch :: r.1.chars) = bytesOf [ch] + bytesOf r.1.chars := bytesOf_append [ch] r.1.chars
          rw [Option.map_some, hbytes, Nat.add_assoc]

/-- A line break ends the statement in front of an import. -/
theorem endsLine_break {more : List Char} (hline : d.endsLine ch = true) (hgap : Gap more) :
    EndsLine d (ch :: more) (some (.nil, ch :: more)) where
  split := by
    rintro r hr
    cases hr
    rfl
  empty := by
    rintro r hr
    cases hr
    exact fun _ => rfl
  line {text offset fuel} htext hfuel := by
    rw [List.length_cons] at hfuel
    obtain ⟨fuel, rfl⟩ : ∃ n, fuel = n + 1 := ⟨fuel - 1, by omega⟩
    have hbrace : (ch == '\x7d') = false := by
      rw [Bool.eq_false_iff]
      intro heq
      rw [beq_iff_eq] at heq
      rw [heq] at hline
      exact absurd (isLineEnd_of_endsLine hline) (by decide)
    have hnext : (trivia fuel ⟨0, (more ++ text).map glyphOf⟩).2.rest = text.map glyphOf := by
      rw [List.map_append, hgap.passable htext.starts (by omega)]
    rw [List.cons_append, List.map_cons, lineEnd_here (by simp [hline]), hbrace, hline, hnext, htext.mayStart]
    rfl

/-- A gap in front of the word `import` ends a statement or it does not, whatever follows. -/
theorem Gap.endsLine (h : Gap gap) : ∃ found, EndsLine d gap found := by
  induction h with
  | nil =>
      refine ⟨none, nofun, nofun, fun {text offset fuel} htext hfuel => ?_⟩
      obtain ⟨fuel, rfl⟩ : ∃ n, fuel = n + 1 := ⟨fuel - 1, by simp at hfuel; omega⟩
      obtain ⟨behind, rfl, -⟩ := htext
      have hline : d.endsLine 'i' = false := by cases d <;> rfl
      have hcomment (gs : List Glyph) : Lexeme.comment (glyphOf 'i' :: gs) = none := comment_other (by decide)
      change lineEnd d.endsLine (fuel + 1) ⟨offset, glyphOf 'i' :: ("mport".toList ++ behind).map glyphOf⟩ = none
      rw [lineEnd_here (by simp [hline, show Lexeme.isBlank 'i' = false from rfl]), hline, hcomment]
      rfl
  | @blank ch more hblank hgap ih =>
      cases hline : d.endsLine ch with
      | true => exact ⟨_, endsLine_break hline hgap⟩
      | false =>
          obtain ⟨found, hfound⟩ := ih
          exact ⟨_, hfound.blank hblank hline⟩
  | @line text more ch htext hch _ ih =>
      obtain ⟨found, hfound⟩ := ih
      refine ⟨_, EndsLine.comment (show ('/' :: '/' :: text).head? = some '/' from rfl) (fun gs => ?_) hfound⟩
      rw [← List.append_assoc, ← List.map_append]
      exact comment_line htext hch
  | @block text more htext _ ih =>
      obtain ⟨found, hfound⟩ := ih
      have hsplit : '/' :: '*' :: text ++ '*' :: '/' :: more = ('/' :: '*' :: (text ++ ['*', '/'])) ++ more := by simp
      rw [hsplit]
      refine ⟨_, hfound.comment rfl fun gs => ?_⟩
      rw [← List.append_assoc, ← List.map_append, ← hsplit, comment_block htext]
      simp

/-! ## Ends of declarations -/

theorem readText_semicolon (hgap : Gap gap) : ∃ found : Option (Part × List Char), ∀ {text : List Char},
    StartsImport text → readText d p .semicolon (gap ++ text) = found.map fun r => (r.1, r.2 ++ text) := by
  obtain ⟨found, hfound⟩ := @Gap.endsLine d gap hgap
  refine ⟨found, fun {text} htext => Result.eq rfl ?_⟩
  have hline (offset : Nat) : Runs d p (gap.length + 2) .semicolon ⟨offset, (gap ++ text).map glyphOf⟩ _ :=
    runs_succ fun fuel (hfuel : gap.length + 1 ≤ fuel) => hfound.line htext hfuel
  cases found with
  | none => exact ⟨_, hline⟩
  | some r =>
      have hsplit : gap ++ text = r.1.chars ++ (r.2 ++ text) := by
        rw [← List.append_assoc, ← hfound.split r rfl]
      refine ⟨hsplit, gap.length + 2, fun offset => ?_⟩
      rw [← List.map_append, ← hsplit]
      exact hline offset

theorem readText_joined (text : List Char) :
    readText d p .joined text = none ∨ readText d p .joined text = some (.nil, text) := by
  have hpart : (⟨text.take (text.length - (text.map glyphOf).length), fun offset => [].map (Node.shift offset)⟩,
      text.drop (text.length - (text.map glyphOf).length)) = (Part.nil, text) := by
    rw [List.length_map, Nat.sub_self]
    rfl
  unfold readText
  generalize enoughFuel .joined text = fuel
  cases fuel with
  | zero => exact .inl rfl
  | succ fuel =>
      rw [Rule.run]
      split
      · split
        · exact .inl rfl
        · exact .inr (congrArg some hpart)
      · exact .inr (congrArg some hpart)

/-- A token refuses what starts with another character. -/
theorem readText_token_none {rule : Production} {scan : List Glyph → Option Nat} (hscan : rule.scan? = some scan)
    (hraw : rule.isRaw = false) (hgap : Gap gap) (hstarts : Starts (text.map glyphOf))
    (hnone : scan (text.map glyphOf) = none) : readText d p rule (gap ++ text) = none := by
  rw [readText_token hscan hraw hgap hstarts, hnone]
  rfl

theorem readText_keyword_other {keyword : String} {t : Char} {ts more : List Char} (hkeyword : keyword.toList = t :: ts)
    (hstarts : Starts ((ch :: more).map glyphOf)) (hne : ch ≠ t) :
    readText d p (.keyword keyword) (ch :: more) = none := by
  rw [← List.nil_append (ch :: more)]
  refine readText_token_none rfl rfl .nil hstarts ?_
  rw [hkeyword, List.map_cons, literal_other hne]
  rfl

theorem readText_attribute_none {more : List Char} (hgap : Gap gap) (hstarts : Starts ((ch :: more).map glyphOf))
    (hwith : ch ≠ 'w') (hassert : ch ≠ 'a') : readText d p Grammar.importAttribute (gap ++ ch :: more) = none := by
  have hbounded : IsBounded (.seq [.joined, Grammar.words ["with", "assert"], .call .object]) := rfl
  have hwords : readText d p (Grammar.words ["with", "assert"]) (ch :: more) = none := by
    have halt : IsBounded (.alt [.keyword "with", .keyword "assert"]) := rfl
    change readText d p (.alt [.keyword "with", .keyword "assert"]) (ch :: more) = none
    rw [readText_alt_cons halt, readText_alt_cons halt.alt.2, readText_alt_nil,
      readText_keyword_other (show "with".toList = 'w' :: _ from rfl) hstarts hwith,
      readText_keyword_other (show "assert".toList = 'a' :: _ from rfl) hstarts hassert]
    rfl
  have hrules : readText d p (.seq [Grammar.words ["with", "assert"], .call .object]) (ch :: more) = none := by
    rw [readText_seq_cons hbounded.seq.2, hwords]
    rfl
  rw [Grammar.importAttribute, readText_node hbounded hgap hstarts, readText_seq_cons hbounded]
  rcases @readText_joined d p (ch :: more) with hnone | hsome
  · rw [hnone]
    rfl
  · rw [hsome, Option.bind_some, hrules]
    rfl

theorem readText_importEnd_eq (hnone : readText d p Grammar.importAttribute text = none) :
    readText d p importEnd text =
      (readText d p (Grammar.sign ";") text).or (readText d p .semicolon text) := by
  have hbounded := isBounded_importEnd
  have halt : IsBounded (.alt [Grammar.sign ";", .semicolon]) := rfl
  have hterminator : readText d p Grammar.terminator text =
      (readText d p (Grammar.sign ";") text).or (readText d p .semicolon text) := by
    rw [Grammar.terminator, readText_alt_cons halt, readText_alt_cons halt.alt.2, readText_alt_nil, Option.or_none]
  rw [importEnd] at hbounded ⊢
  rw [readText_seq_cons hbounded, readText_opt rfl, hnone, Option.getD_none, Option.bind_some,
    readText_seq_last hbounded.seq.2, hterminator]
  simp

theorem starts_semicolon (more : List Char) : Starts ((';' :: more).map glyphOf) := starts_cons rfl (by decide)

/-- A semicolon ends a declaration. -/
theorem readText_importEnd_mark (hgap : Gap gap) (more : List Char) :
    readText d p importEnd (gap ++ ';' :: more) = some (.token gap [';'] (Node.token ";"), more) := by
  have hnext (gs : List Glyph) : Lexeme.nextIn [] gs = false := by
    cases gs <;> simp [Lexeme.nextIn]
  have hsign : readText d p (Grammar.sign ";") (gap ++ ';' :: more) =
      some (.token gap [';'] (Node.token ";"), more) := by
    rw [Grammar.sign, readText_token rfl rfl hgap (starts_semicolon more)]
    simp [hnext, Lexeme.literal, glyphOf, Part.token, Rule.tokenNodes]
  rw [readText_importEnd_eq (readText_attribute_none hgap (starts_semicolon more) (by decide) (by decide)), hsign,
    Option.some_or]

/-- Whether a declaration ends without a semicolon in front of an import does not depend on the import. -/
theorem readText_importEnd_gap (hgap : Gap gap) : ∃ found : Option (Part × List Char), ∀ {text : List Char},
    StartsImport text → readText d p importEnd (gap ++ text) = found.map fun r => (r.1, r.2 ++ text) := by
  obtain ⟨found, hfound⟩ := @readText_semicolon d p gap hgap
  refine ⟨found, fun {text} htext => ?_⟩
  have hstarts := htext.starts
  obtain ⟨behind, rfl, hends⟩ := id htext
  change Starts (('i' :: ("mport".toList ++ behind)).map glyphOf) at hstarts
  have hsign : readText d p (Grammar.sign ";") (gap ++ 'i' :: ("mport".toList ++ behind)) = none := by
    refine readText_token_none rfl rfl hgap hstarts ?_
    rw [show ";".toList = [';'] from rfl, List.map_cons, literal_other (by decide)]
    rfl
  have hend := readText_importEnd_eq (readText_attribute_none (d := d) (p := p) hgap hstarts (by decide) (by decide))
  rw [hsign, Option.none_or] at hend
  exact hend.trans (hfound htext)

/-- What has been read as the end of a declaration without attributes is a semicolon or the end of a line. -/
theorem readText_importEnd_inv {a : Part} {rest : List Char} (h : readText d p importEnd text = some (a, rest))
    (hnone : ofKind .importAttribute (a.nodes offset) = []) :
    (∃ gap, Gap gap ∧ text = gap ++ ';' :: rest) ∨ readText d p .semicolon text = some (a, rest) := by
  have hbounded := isBounded_importEnd
  cases hattribute : readText d p Grammar.importAttribute text with
  | some r =>
      obtain ⟨gap, more, b, -, -, -, -, hr⟩ := readText_node_inv (by rfl) (by rfl) hattribute
      rw [importEnd] at hbounded h
      rw [readText_seq_cons hbounded, readText_opt rfl, hattribute, Option.getD_some, Option.bind_some] at h
      obtain ⟨last, -, heq⟩ := Option.map_eq_some_iff.mp h
      obtain ⟨rfl, -⟩ := Prod.mk.inj heq
      rw [Part.nodes_append, ofKind_append, hr, ofKind_node (by decide), if_pos rfl] at hnone
      cases hnone
  | none =>
      rw [readText_importEnd_eq hattribute] at h
      rcases Option.or_eq_some_iff.mp h with hsign | ⟨-, hline⟩
      · obtain ⟨gap, more, n, rfl, hgap, hstarts, hn, rfl⟩ := readText_token_inv rfl rfl rfl hsign
        refine .inl ⟨gap, hgap, ?_⟩
        simp only [Option.ite_none_right_eq_some, Bool.and_eq_true, Option.some.injEq] at hn
        obtain ⟨⟨hliteral, -⟩, rfl⟩ := hn
        obtain ⟨behind, rfl⟩ := literal_split hliteral
        rfl
      · exact .inr hline

/-! ## Declarations in front -/

/-- A text in front of an import: white space and comments, and declarations that end there whatever the import
says. -/
inductive Leads (d : Dialect) : List Char → Prop where
  | gap {gap : List Char} : Gap gap → Leads d gap
  | declaration {decl : Declaration d} {gap last more : List Char} : Gap gap → (∀ behind, Fits behind decl.row) →
      (∀ {text}, StartsImport text → ∃ tail,
        readText d .statement importEnd (last ++ (more ++ text)) = some (tail, more ++ text)) →
      Leads d more → Leads d (gap ++ (textOf decl.row ++ (last ++ more)))

section

variable {front text last rest : List Char} {tail : Part}

/-- The next token is the word `import`, of the import or of a declaration in front of it. -/
theorem Leads.next (h : Leads d front) : ∃ gap, Gap gap ∧ ∃ next : List Char → List Char, ∀ {text : List Char},
    StartsImport text → front ++ text = gap ++ next text ∧ StartsImport (next text) := by
  cases h with
  | gap hgap => exact ⟨front, hgap, id, fun htext => ⟨rfl, htext⟩⟩
  | @declaration decl gap last more hgap hfits =>
      refine ⟨gap, hgap, fun text => textOf decl.row ++ (last ++ (more ++ text)), fun htext => ⟨by simp, ?_⟩⟩
      exact Declaration.startsImport (hfits _)

/-- Where reading stops in a text. -/
theorem stops_at {after : Cursor} {n : Nat} (h : after = (Cursor.mk offset (text.map glyphOf)).advance n)
    (hrest : after.rest = rest.map glyphOf) :
    ∃ read, text = read ++ rest ∧ after = ⟨offset + bytesOf read, rest.map glyphOf⟩ := by
  rw [advance_text] at h
  subst h
  obtain rfl : text.drop n = rest := glyphOf_injective.list_map hrest
  exact ⟨text.take n, (List.take_append_drop n text).symm, rfl⟩

theorem Gap.trivia_eq (h : Gap gap) (hstarts : Starts (text.map glyphOf)) (offset : Nat) :
    trivia ((gap ++ text).map glyphOf).length ⟨offset, (gap ++ text).map glyphOf⟩ =
      (commentsOf offset gap, ⟨offset + bytesOf gap, text.map glyphOf⟩) := by
  rw [List.map_append]
  exact h.passable hstarts (by simp)

theorem Gap.upcoming_eq (h : Gap gap) (hstarts : Starts (text.map glyphOf)) :
    upcoming ((gap ++ text).map glyphOf) = text.map glyphOf :=
  congrArg (fun r : Reading => r.2.rest) (h.trivia_eq hstarts 0)

theorem upcoming_of_comes {n : Nat} {c : Cursor} (h : Comes n ⟨0, gs⟩ c) : upcoming gs = c.rest := by
  rw [← upcoming_eq (Nat.le_max_right n gs.length), h _ (Nat.le_max_left ..)]

/-- Reading comes to the import. -/
theorem Leads.steps (h : Leads d front) : ∀ {text : List Char} {offset : Nat}, StartsImport text →
    ∃ ns before, Steps d ⟨offset, (front ++ text).map glyphOf⟩ ns before ∧
      (trivia before.rest.length before).2.offset = offset + bytesOf front := by
  induction h with
  | gap hgap =>
      intro text offset htext
      exact ⟨[], _, .refl _, by rw [hgap.trivia_eq htext.starts]⟩
  | @declaration decl gap last more hgap hfits hend _ ih =>
      intro text offset htext
      obtain ⟨tail, hend⟩ := hend htext
      obtain ⟨after, hread, hafter⟩ := @readStatement_declaration d (offset + bytesOf gap) decl tail
        (last ++ (more ++ text)) (more ++ text) (hfits _) hend
      obtain ⟨n, hn⟩ := readStatement_forward hread
      obtain ⟨read, hsplit, rfl⟩ := stops_at hn hafter
      obtain rfl : textOf decl.row ++ last = read := by
        rw [← List.append_assoc] at hsplit
        exact List.append_cancel_right hsplit
      have hstarts : Starts ((textOf decl.row ++ (last ++ (more ++ text))).map glyphOf) :=
        (Declaration.startsImport (hfits _)).starts
      have hfirst := readStatement_skip (d := d) (gap ++ (textOf decl.row ++ (last ++ (more ++ text)))).length
        ⟨offset, (gap ++ (textOf decl.row ++ (last ++ (more ++ text)))).map glyphOf⟩
      obtain ⟨ns, before, hsteps, hoffset⟩ := @ih text (offset + bytesOf gap + bytesOf (textOf decl.row ++ last)) htext
      have hpassed := hgap.trivia_eq hstarts offset
      rw [List.length_map] at hpassed
      rw [hpassed, hread, Option.map_some] at hfirst
      have hall := Steps.step hfirst hsteps
      simp only [List.append_assoc, bytesOf_append] at hall hoffset ⊢
      exact ⟨_, before, hall, by omega⟩

/-! ## Readings that lead to an import -/

theorem upcoming_trivia (n : Nat) (c : Cursor) : upcoming (trivia n c).2.rest = upcoming c.rest := by
  have hresume := congrArg (fun r : Reading => r.2.rest) (trivia_resume n c)
  rw [upcoming_eq (Nat.le_refl _), upcoming_eq (Nat.le_refl _)] at hresume
  exact hresume.symm

theorem upcoming_blanks {test : Char → Bool} (htest : ∀ ch, test ch = true → Lexeme.isBlank ch = true) :
    ∀ gs : List Glyph, upcoming (gs.drop (Lexeme.runLength test gs)) = upcoming gs
  | [] => rfl
  | g :: gs => by
      rw [Lexeme.runLength]
      split
      · rename_i hblank
        rw [Bool.and_eq_true] at hblank
        have hskip : (trivia 1 ⟨0, g :: gs⟩).2.rest = gs := by
          simp [trivia, hblank.1, htest _ hblank.2, Cursor.advance]
        rw [List.drop_succ_cons, upcoming_blanks htest gs, ← upcoming_trivia 1 ⟨0, g :: gs⟩, hskip]
      · rfl

theorem upcoming_comment {n : Nat} (h : Lexeme.comment gs = some n) : upcoming (gs.drop n) = upcoming gs := by
  have hskip : (trivia 1 ⟨0, gs⟩).2.rest = gs.drop n := by
    cases gs with
    | nil => cases h
    | cons g gs =>
        have hblank : (g.valid && Lexeme.isBlank g.char) = false := by
          rw [Bool.eq_false_iff]
          intro hblank
          rw [Bool.and_eq_true] at hblank
          have hslash : g.char = '/' := by
            unfold Lexeme.comment at h
            split at h
            · rename_i a b rest hgs
              obtain ⟨rfl, -⟩ := List.cons.inj hgs
              simp only [Bool.and_eq_true, beq_iff_eq] at h
              split at h
              · rename_i hline
                exact hline.1
              · split at h
                · rename_i hblock
                  exact hblock.1
                · cases h
            · cases h
          rw [hslash] at hblank
          exact absurd hblank.2 (by decide)
        simp [trivia, hblank, h, Cursor.advance_eq]
  rw [← hskip, upcoming_trivia]

/-- Where a line ends, the same token comes next as in front of the end. -/
theorem upcoming_lineEnd {endsLine : Char → Bool} : ∀ {fuel : Nat} {c : Cursor} {r : Reading},
    lineEnd endsLine fuel c = some r → upcoming r.2.rest = upcoming c.rest
  | 0, _, _, h => nomatch h
  | fuel + 1, c, r, h => by
      have hblanks := @upcoming_blanks (fun ch => Lexeme.isBlank ch && !endsLine ch)
        (fun ch hch => (Bool.and_eq_true _ _ ▸ hch).1) c.rest
      rw [lineEnd] at h
      dsimp only at h
      split at h
      · cases h
        rfl
      · rename_i g rest hrest
        split at h
        · cases h
          rfl
        · split at h
          · split at h
            · cases h
              rfl
            · cases h
          · split at h
            · rename_i n hn
              obtain ⟨more, hmore, rfl⟩ := Option.map_eq_some_iff.mp h
              have hlater := upcoming_lineEnd hmore
              rw [Cursor.advance_eq, Cursor.advance_eq, hrest, upcoming_comment hn, ← hrest, hblanks] at hlater
              exact hlater
            · cases h

theorem readText_semicolon_upcoming {a : Part} (h : readText d p .semicolon text = some (a, rest)) :
    upcoming (rest.map glyphOf) = upcoming (text.map glyphOf) := by
  have hresult := result_readText (d := d) (p := p) (show IsBounded .semicolon from rfl) text
  rw [h] at hresult
  obtain ⟨rfl, k, hk⟩ := hresult
  have hline := hk 0 (k + 1) (Nat.le_succ k)
  rw [List.map_append]
  exact upcoming_lineEnd hline

/-- The end of a declaration in front of an import is the same in front of another import. -/
theorem Leads.importEnd (h : Leads d front) (htext : StartsImport text)
    (hend : readText d .statement importEnd (last ++ (front ++ text)) = some (tail, front ++ text))
    (hnone : ofKind .importAttribute (tail.nodes offset) = []) {text' : List Char} (htext' : StartsImport text') :
    ∃ tail, readText d .statement importEnd (last ++ (front ++ text')) = some (tail, front ++ text') := by
  rcases readText_importEnd_inv hend hnone with ⟨gap, hgap, hsplit⟩ | hline
  · obtain rfl : last = gap ++ [';'] := by
      rw [show gap ++ ';' :: (front ++ text) = gap ++ [';'] ++ (front ++ text) by simp] at hsplit
      exact List.append_cancel_right hsplit
    have hmark := @readText_importEnd_mark d .statement gap hgap (front ++ text')
    exact ⟨_, by rw [List.append_assoc]; exact hmark⟩
  · obtain ⟨gap, hgap, next, hnext⟩ := h.next
    obtain ⟨hsplit, hstarts⟩ := hnext htext
    obtain ⟨hsplit', hstarts'⟩ := hnext htext'
    -- what stands between the path and the next import is skipped
    have hskipped : Gap (last ++ gap) := by
      obtain ⟨between, more, hmiddle, -, hcomes, hbetween⟩ := exists_gap (last ++ (front ++ text))
      have hmore : more = next text := by
        have hhere := upcoming_of_comes (hcomes 0)
        rw [← readText_semicolon_upcoming hline, hsplit, hgap.upcoming_eq hstarts.starts] at hhere
        exact glyphOf_injective.list_map hhere.symm
      subst hmore
      rw [hsplit, ← List.append_assoc] at hmiddle
      rw [List.append_cancel_right hmiddle]
      refine hbetween.resolve_left ?_
      obtain ⟨behind, hbehind, -⟩ := hstarts
      rw [hbehind]
      exact nofun
    obtain ⟨found, hfound⟩ := @readText_importEnd_gap d .statement _ hskipped
    have hhere := hfound hstarts
    have hthere := hfound hstarts'
    rw [List.append_assoc, ← hsplit, hend] at hhere
    rw [List.append_assoc, ← hsplit'] at hthere
    obtain ⟨r, rfl, hr⟩ := Option.map_eq_some_iff.mp hhere.symm
    obtain ⟨rfl, hrest⟩ := Prod.mk.inj hr
    rw [hsplit] at hrest
    refine ⟨r.1, ?_⟩
    rw [hthere, Option.map_some, List.append_cancel_right hrest, ← hsplit']

/-- What stands behind a declaration does not matter, since it ends with a string. -/
theorem Declaration.fits_any {decl : Declaration d} {behind : List Char} (h : Fits behind decl.row)
    (behind' : List Char) : Fits behind' decl.row := by
  have hrow : decl.row = (([], .word "import".toList) :: (decl.typesRow ++ decl.whatRow)) ++
      [(decl.gap, .quoted decl.path)] := by simp [Declaration.row]
  rw [hrow] at h ⊢
  obtain ⟨hfront, hpath⟩ := fits_append.mp h
  refine fits_append.mpr ⟨hfront.exchange fun hends => ?_, hpath.1, hpath.2.1, trivial⟩
  rw [textOf_cons_append, List.map_append] at hends ⊢
  refine hpath.1.endsWord fun hnil => Segment.Stands.endsWord hpath.2.1 ?_
  rw [hnil] at hends
  exact hends

theorem ofKind_attributes {decl : Declaration d} (h : (decl.node tail offset).childrenOfKind .importAttribute = []) :
    ∃ offset, ofKind .importAttribute (tail.nodes offset) = [] := by
  have hchildren : ofKind .importAttribute ((decl.inner tail).nodes (offset + bytesOf [])) = [] := h
  rw [Declaration.inner, Part.nodes_append, Part.nodes_append, ofKind_append, ofKind_append,
    List.append_eq_nil_iff, List.append_eq_nil_iff] at hchildren
  exact ⟨_, hchildren.2.2⟩

/-- Characters read no further than a text begins stand in front of it. -/
theorem split_within {front text read rest : List Char} (h : front ++ text = read ++ rest)
    (hle : bytesOf read ≤ bytesOf front) : ∃ more, front = read ++ more ∧ rest = more ++ text := by
  rcases List.append_eq_append_iff.mp h with ⟨past, rfl, rfl⟩ | ⟨past, rfl, rfl⟩
  · rw [bytesOf_append] at hle
    obtain rfl : past = [] := by
      by_contra hne
      have hpos := bytesOf_pos hne
      omega
    exact ⟨[], by simp, by simp⟩
  · exact ⟨past, rfl, rfl⟩

theorem gap_length_le {text gap more : List Char} (h : text = gap ++ more) :
    gap.length ≤ (text.map glyphOf).length := by
  rw [List.length_map, h, List.length_append]
  omega

/-- Steps that come to an import behind comments and other imports have read a text that leads there. -/
theorem leads_of_steps {c before : Cursor} {ns : List Node} (h : Steps d c ns before) :
    ∀ {front text : List Char} {offset : Nat}, c = ⟨offset, (front ++ text).map glyphOf⟩ → StartsImport text →
      (trivia before.rest.length before).2.offset = offset + bytesOf front →
      (∀ n ∈ ns, n.mayLead = true) → Leads d front := by
  induction h with
  | refl c =>
      rintro front text offset rfl htext hoffset -
      obtain ⟨gap, more, hsplit, -, hcomes, hgap⟩ := exists_gap (front ++ text)
      rw [hcomes offset _ (gap_length_le hsplit)] at hoffset
      obtain rfl := front_eq_of_bytesOf hsplit (Nat.add_left_cancel hoffset).symm
      refine .gap (hgap.resolve_left ?_)
      rw [← List.append_cancel_left hsplit]
      obtain ⟨behind, rfl, -⟩ := htext
      exact nofun
  | @step c r ns last hread hsteps ih =>
      rintro front text offset rfl htext hoffset hns
      obtain ⟨gap, more, hsplit, hstarts, hcomes, hgap⟩ := exists_gap (front ++ text)
      obtain ⟨n, hr, -, haside⟩ := readStatement_eq hread
      obtain ⟨hkind, hsource, hattributes⟩ :=
        Node.isPlainImport_of_mayLead (hns n (List.mem_append_left _ (by simp [hr]))) haside
      have hsettled := readStatement_settled (hread.trans (congrArg some (Prod.ext hr rfl)))
      rw [hcomes offset _ (gap_length_le hsplit)] at hsettled
      obtain ⟨decl, tail, middle, rest, ⟨rfl, hfits⟩, hend, rfl, hafter⟩ :=
        readStatement_declaration_inv hstarts hsettled hkind hsource
      obtain ⟨k, hk⟩ := readStatement_forward hread
      obtain ⟨read, hsplit', hcursor⟩ := stops_at hk hafter
      -- the statement ends in front of the import
      have hle : bytesOf read ≤ bytesOf front := by
        have hforward := offset_le_trivia last.rest.length last
        obtain ⟨m, hm⟩ := hsteps.forward
        have hlast := Cursor.offset_le_advance m r.2
        rw [hoffset] at hforward
        rw [← hm, hcursor] at hlast
        simp only at hlast
        omega
      obtain ⟨front', rfl, rfl⟩ := split_within hsplit' hle
      have hleads : Leads d front' := by
        refine ih hcursor htext ?_ fun m hm => hns m (List.mem_append_right _ hm)
        rw [hoffset, bytesOf_append, Nat.add_assoc]
      obtain ⟨_, hnone⟩ := ofKind_attributes hattributes
      obtain rfl := readText_append isBounded_importEnd hend
      have hfront : read ++ front' = gap ++ (textOf decl.row ++ (tail.chars ++ front')) := by
        have hboth : read ++ front' ++ text = gap ++ (textOf decl.row ++ (tail.chars ++ front')) ++ text := by
          rw [hsplit]
          simp
        exact List.append_cancel_right hboth
      rw [hfront]
      refine .declaration (hgap.resolve_left ?_) (Declaration.fits_any hfits)
        (fun htext' => hleads.importEnd htext hend hnone htext') hleads
      exact nofun

/-! ## The interpreter line -/

/-- The characters of a line. -/
def inLine (ch : Char) : Bool := ch != '\n' && ch != '\r'

/-- A line that ends in the text in front. -/
theorem inLine_append {front : List Char} (h : ¬∀ ch ∈ front, inLine ch = true) (text : List Char) :
    (front ++ text).takeWhile inLine = front.takeWhile inLine ∧
      (front ++ text).dropWhile inLine = front.dropWhile inLine ++ text := by
  have hshort : (front.takeWhile inLine).length ≠ front.length := fun heq =>
    h (List.takeWhile_eq_self_iff.mp ((List.takeWhile_prefix inLine).eq_of_length heq))
  constructor
  · rw [List.takeWhile_append, if_neg hshort]
  · rw [List.dropWhile_append, if_neg]
    intro hempty
    rw [List.isEmpty_iff, List.dropWhile_eq_nil_iff] at hempty
    exact h hempty

theorem readHashBang_text (text : List Char) : (readHashBang ⟨0, text.map glyphOf⟩).2 =
    if Lexeme.literal "#!".toList (text.map glyphOf) then
      ⟨bytesOf (text.takeWhile inLine), (text.dropWhile inLine).map glyphOf⟩
    else ⟨0, text.map glyphOf⟩ := by
  have hline : (text.map glyphOf).takeWhile (fun g => g.char != '\n' && g.char != '\r') =
      (text.takeWhile inLine).map glyphOf := List.takeWhile_map ..
  rw [readHashBang, Lexeme.hashBang, hline, List.length_map]
  dsimp only
  split
  · rename_i n hn
    rw [Option.ite_none_right_eq_some] at hn
    obtain ⟨hmark, hlength⟩ := hn
    have hdrop : (text.takeWhile inLine ++ text.dropWhile inLine).drop (text.takeWhile inLine).length =
        text.dropWhile inLine := List.drop_left
    rw [List.takeWhile_append_dropWhile] at hdrop
    have hadvance := advance_text text 0 (text.takeWhile inLine).length
    rw [← List.prefix_iff_eq_take.mp (List.takeWhile_prefix inLine), Nat.zero_add] at hadvance
    rw [if_pos hmark, token, ← Option.some.inj hlength, hadvance, hdrop]
  · rename_i hnone
    rw [if_neg]
    intro hmark
    rw [if_pos hmark] at hnone
    cases hnone

/-- An interpreter line in front of an import is the same in front of another one. -/
theorem readHashBang_front {front text : List Char} (htext : StartsImport text)
    (hle : (readHashBang ⟨0, (front ++ text).map glyphOf⟩).2.offset ≤ bytesOf front) :
    ∃ bang rest, front = bang ++ rest ∧ ∀ {text' : List Char}, StartsImport text' →
      (readHashBang ⟨0, (front ++ text').map glyphOf⟩).2 = ⟨bytesOf bang, (rest ++ text').map glyphOf⟩ := by
  have hmark {text' : List Char} (htext' : StartsImport text') :
      Lexeme.literal "#!".toList ((front ++ text').map glyphOf) =
        Lexeme.literal "#!".toList ((front ++ ['i']).map glyphOf) := by
    obtain ⟨behind, rfl, -⟩ := htext'
    rcases front with _ | ⟨a, _ | ⟨b, front⟩⟩ <;> simp [Lexeme.literal, glyphOf]
  cases hbang : Lexeme.literal "#!".toList ((front ++ ['i']).map glyphOf) with
  | false =>
      refine ⟨[], front, rfl, fun htext' => ?_⟩
      rw [readHashBang_text, hmark htext', hbang, if_neg Bool.false_ne_true]
      rfl
  | true =>
      rw [readHashBang_text, hmark htext, hbang, if_pos rfl] at hle
      by_cases hall : ∀ ch ∈ front, inLine ch = true
      · -- the line would go on into the import
        obtain ⟨behind, rfl, -⟩ := htext
        have hover : (front ++ ("import".toList ++ behind)).takeWhile inLine =
            front ++ 'i' :: ("mport".toList ++ behind).takeWhile inLine := List.takeWhile_append_of_pos hall
        have hpos := @bytesOf_pos ('i' :: ("mport".toList ++ behind).takeWhile inLine) (List.cons_ne_nil _ _)
        simp only [hover, bytesOf_append] at hle
        omega
      · refine ⟨front.takeWhile inLine, front.dropWhile inLine, (List.takeWhile_append_dropWhile ..).symm,
          fun {text'} htext' => ?_⟩
        obtain ⟨htake, hdrop⟩ := inLine_append hall text'
        rw [readHashBang_text, hmark htext', hbang, if_pos rfl, htake, hdrop]

theorem start_text (text : List Char) :
    Cursor.start (Utf8.encode (String.ofList text)) = ⟨0, text.map glyphOf⟩ := by
  rw [Cursor.start, Utf8.glyphs_encode_self, String.toList_ofList]

/-- Reading that has come to an import behind comments and other imports comes to any other import in its place. -/
theorem comesTo_behind_imports {before : Cursor} {ns : List Node} {front text text' : List Char}
    (htext : StartsImport text) (htext' : StartsImport text')
    (hsteps : Steps d (readHashBang (Cursor.start (Utf8.encode (String.ofList (front ++ text))))).2 ns before)
    (hoffset : (trivia before.rest.length before).2.offset = bytesOf front)
    (hns : ∀ n ∈ ns, n.mayLead = true) :
    ComesTo d (Utf8.encode (String.ofList (front ++ text'))) (bytesOf front) := by
  rw [start_text] at hsteps
  have hle : (readHashBang ⟨0, (front ++ text).map glyphOf⟩).2.offset ≤ bytesOf front := by
    obtain ⟨m, hm⟩ := hsteps.forward
    have hforward := offset_le_trivia before.rest.length before
    have hlast := Cursor.offset_le_advance m (readHashBang ⟨0, (front ++ text).map glyphOf⟩).2
    rw [← hm] at hlast
    omega
  obtain ⟨bang, rest, rfl, hbang⟩ := readHashBang_front htext hle
  rw [bytesOf_append] at hoffset ⊢
  have hleads := leads_of_steps hsteps (hbang htext) htext hoffset hns
  obtain ⟨ns', before', hsteps', hoffset'⟩ := @Leads.steps d rest hleads text' (bytesOf bang) htext'
  refine ⟨ns', before', ?_, hoffset'⟩
  rw [start_text, hbang htext']
  exact hsteps'

end

end Syntax

end ImportAssist
