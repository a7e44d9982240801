import ImportAssist.Proofs.LockStep
import ImportAssist.Proofs.Parts

/-!
# Plain text

A text is plain if it is made of words, numbers and marks, of strings without escapes and of comments: no
template, markup, regular expression or division is in it. Between two of these parts nothing that is read
looks past a quote. So of a plain text in front of a literal it is known how much is skipped (`Plain.skip`),
where a word ends (`Plain.word`) and whether a line does (`Plain.ending`), whatever the literal says and
whatever follows it.
-/

namespace ImportAssist

open Syntax
open Utf8 (glyphOf)

/-- A character that opens no string, template, comment, regular expression or markup, and that escapes
nothing. -/
def isOrdinary (ch : Char) : Bool := !"\x27\"\x60/<\\".toList.contains ch

/-- Characters that a quote encloses as they are: neither the quote nor a backslash nor a line break. -/
def Quotable (quote : Char) (chars : List Char) : Prop :=
  ∀ ch ∈ chars, ch ≠ quote ∧ ch ≠ '\\' ∧ Lexeme.isLineEnd ch = false

/-- Words, numbers and marks, strings without escapes, and comments. -/
inductive Plain : List Char → Prop
  | nil : Plain []
  | ordinary {ch : Char} {more : List Char} : isOrdinary ch = true → ¬['-', '-', '>'] <+: ch :: more →
      Plain more → Plain (ch :: more)
  | quoted {quote : Char} {text more : List Char} : quote = '\x27' ∨ quote = '"' → Quotable quote text →
      Plain more → Plain (quote :: text ++ quote :: more)
  | line {text more : List Char} {ch : Char} : (∀ x ∈ text, Lexeme.isLineEnd x = false) →
      Lexeme.isLineEnd ch = true → Plain (ch :: more) → Plain ('/' :: '/' :: text ++ ch :: more)
  | block {text more : List Char} :
      Lexeme.toBlockEnd ((text ++ ['*', '/']).map glyphOf) = some (text.length + 2) → Plain more →
      Plain ('/' :: '*' :: text ++ '*' :: '/' :: more)

/-- Glyphs that start with a quote. -/
def StartsWith (quote : Char) (gs : List Glyph) : Prop := ∃ rest, gs = glyphOf quote :: rest

section

variable {quote ch : Char} {gap more text : List Char} {gs : List Glyph}

theorem isOrdinary_ne (h : isOrdinary ch = true) :
    ch ≠ '\x27' ∧ ch ≠ '"' ∧ ch ≠ '\x60' ∧ ch ≠ '/' ∧ ch ≠ '<' ∧ ch ≠ '\\' := by
  simp [isOrdinary] at h
  exact h

/-- A character that starts no string and no comment stands for itself. -/
theorem Plain.tail (h : Plain (ch :: more)) (hquote : ch ≠ '\x27' ∧ ch ≠ '"') (hslash : ch ≠ '/') :
    isOrdinary ch = true ∧ ¬['-', '-', '>'] <+: ch :: more ∧ Plain more := by
  cases h with
  | ordinary hch hmark hmore => exact ⟨hch, hmark, hmore⟩
  | quoted hmark => rcases hmark with rfl | rfl <;> simp at hquote
  | line => contradiction
  | block => contradiction

/-- A comment in front of other text. -/
theorem comment_line (htext : ∀ x ∈ text, Lexeme.isLineEnd x = false) (hch : Lexeme.isLineEnd ch = true) :
    Lexeme.comment (('/' :: '/' :: text ++ ch :: more).map glyphOf ++ gs) = some (text.length + 2) := by
  have hrest := @restOfLine_append text (more.map glyphOf ++ gs) ch htext hch
  simp only [List.map_append, List.map_cons, List.cons_append, List.append_assoc]
  simp [Lexeme.comment, glyphOf] at hrest ⊢
  exact hrest

theorem comment_block
    (htext : Lexeme.toBlockEnd ((text ++ ['*', '/']).map glyphOf) = some (text.length + 2)) :
    Lexeme.comment (('/' :: '*' :: text ++ '*' :: '/' :: more).map glyphOf ++ gs) =
      some (text.length + 4) := by
  have hrest := toBlockEnd_append (more.map glyphOf ++ gs) htext
  simp only [List.map_append, List.map_cons, List.cons_append, List.append_assoc, List.map_nil,
    List.nil_append] at hrest ⊢
  simp [Lexeme.comment, glyphOf] at hrest ⊢
  exact hrest

end

/-! ## Up to the next token -/

section

variable {quote ch : Char} {gap more token : List Char} {T : List Glyph}

/-- Nothing is to be skipped. -/
def AtToken (text : List Char) : Prop := ∀ ch ∈ text.head?, Lexeme.isBlank ch = false ∧ ch ≠ '/'

theorem quote_not_blank (hquote : quote = '\x27' ∨ quote = '"') :
    Lexeme.isBlank quote = false ∧ quote ≠ '/' := by
  rcases hquote with rfl | rfl <;> decide

theorem AtToken.starts (h : AtToken token) (hquote : quote = '\x27' ∨ quote = '"')
    (hT : StartsWith quote T) : Starts (token.map glyphOf ++ T) := by
  cases token with
  | nil =>
      obtain ⟨rest, rfl⟩ := hT
      exact starts_cons (quote_not_blank hquote).1 (quote_not_blank hquote).2
  | cons ch more =>
      obtain ⟨hblank, hslash⟩ := h ch rfl
      exact starts_cons hblank hslash

/-- White space and comments, and then a token. -/
theorem Plain.skip (h : Plain gap) :
    ∃ blank token, gap = blank ++ token ∧ Gap blank ∧ Plain token ∧ AtToken token := by
  induction h with
  | nil => exact ⟨[], [], rfl, .nil, .nil, nofun⟩
  | @ordinary ch more hch hmark hmore ih =>
      cases hblank : Lexeme.isBlank ch with
      | true =>
          obtain ⟨blank, token, rfl, hgap, hplain, hat⟩ := ih
          exact ⟨ch :: blank, token, rfl, .blank hblank hgap, hplain, hat⟩
      | false =>
          refine ⟨[], ch :: more, rfl, .nil, .ordinary hch hmark hmore, ?_⟩
          rintro _ ⟨⟩
          exact ⟨hblank, (isOrdinary_ne hch).2.2.2.1⟩
  | @quoted quote text more hquote htext hmore _ =>
      refine ⟨[], _, rfl, .nil, .quoted hquote htext hmore, ?_⟩
      rintro _ ⟨⟩
      exact quote_not_blank hquote
  | @line text more ch htext hch _ ih =>
      obtain ⟨blank, token, hsplit, hgap, hplain, hat⟩ := ih
      cases blank with
      | nil =>
          obtain rfl : ch :: more = token := hsplit
          exact absurd (isBlank_of_isLineEnd hch) (by simp [(hat ch rfl).1])
      | cons b blank =>
          obtain ⟨rfl, rfl⟩ := List.cons.inj hsplit
          exact ⟨'/' :: '/' :: text ++ ch :: blank, token, by simp, .line htext hch hgap, hplain, hat⟩
  | @block text more htext _ ih =>
      obtain ⟨blank, token, rfl, hgap, hplain, hat⟩ := ih
      exact ⟨'/' :: '*' :: text ++ '*' :: '/' :: blank, token, by simp, .block htext hgap, hplain, hat⟩

/-! ## Marks and words -/

/-- A measure of what is ahead takes a part of a plain text, whatever stands behind the text. -/
structure Takes (quote : Char) (measure : List Glyph → Nat) (gap token more : List Char) : Prop where
  split : gap = token ++ more
  plain : Plain more
  eq : ∀ {T}, StartsWith quote T → measure (gap.map glyphOf ++ T) = token.length

/-- A literal is there, up to a place in the text, or there is none, whatever stands behind the text. -/
def Scans (quote : Char) (scan : List Glyph → Option Nat) (gap : List Char) : Prop :=
  (∃ token more, gap = token ++ more ∧ Plain more ∧
    ∀ {T}, StartsWith quote T → scan (gap.map glyphOf ++ T) = some token.length) ∨
  ∀ {T}, StartsWith quote T → scan (gap.map glyphOf ++ T) = none

theorem nextIn_plain {chars : List Char} (more : List Char) {T T' : List Glyph} (hT : StartsWith quote T)
    (hT' : StartsWith quote T') :
    Lexeme.nextIn chars (more.map glyphOf ++ T) = Lexeme.nextIn chars (more.map glyphOf ++ T') := by
  obtain ⟨rest, rfl⟩ := hT
  obtain ⟨rest', rfl⟩ := hT'
  cases more <;> rfl

/-- Neither a quote nor a slash is among some characters. -/
def unmarked (chars : List Char) : Bool := chars.all fun ch => ch != '\x27' && ch != '"' && ch != '/'

theorem unmarked_cons {chars : List Char} :
    unmarked (ch :: chars) = true ↔ (ch ≠ '\x27' ∧ ch ≠ '"' ∧ ch ≠ '/') ∧ unmarked chars = true := by
  simp [unmarked, and_assoc]

/-- Characters without a quote or a slash stand ahead in the text or not at all. -/
theorem Plain.literal (hquote : quote = '\x27' ∨ quote = '"') : ∀ {chars gap : List Char},
    unmarked chars = true → Plain gap →
      (∃ more, gap = chars ++ more ∧ Plain more) ∨
        ∀ {T}, StartsWith quote T → Lexeme.literal chars (gap.map glyphOf ++ T) = false
  | [], gap, _, h => .inl ⟨gap, rfl, h⟩
  | ch :: chars, [], hchars, _ => by
      refine .inr fun hT => ?_
      obtain ⟨rest, rfl⟩ := hT
      obtain ⟨⟨hsingle, hdouble, -⟩, -⟩ := unmarked_cons.mp hchars
      refine literal_other ?_ rest
      rcases hquote with rfl | rfl
      · exact hsingle.symm
      · exact hdouble.symm
  | ch :: chars, x :: gap, hchars, h => by
      by_cases hne : x = ch
      · subst hne
        obtain ⟨⟨hsingle, hdouble, hslash⟩, hrest⟩ := unmarked_cons.mp hchars
        have hmore := (h.tail ⟨hsingle, hdouble⟩ hslash).2.2
        rcases Plain.literal hquote hrest hmore with
          ⟨more, rfl, hplain⟩ | hnot
        · exact .inl ⟨more, rfl, hplain⟩
        · refine .inr fun hT => ?_
          rw [List.map_cons, List.cons_append, Lexeme.literal, hnot hT, Bool.and_false]
      · exact .inr fun hT => literal_other hne _

/-- A word of a plain text ends in it. -/
theorem Plain.wordFrom (h : Plain gap) (hquote : quote = '\x27' ∨ quote = '"') :
    ∃ token more, Takes quote (Lexeme.wordFrom 0) gap token more := by
  have hends {ch : Char} {rest : List Glyph} (hch : Lexeme.isWordGlyph (glyphOf ch) = false)
      (hescape : ch ≠ '\\') : Lexeme.wordFrom 0 (glyphOf ch :: rest) = 0 :=
    @endsWord_cons [] rest ch hch hescape
  have hmark : Lexeme.isWordGlyph (glyphOf quote) = false ∧ quote ≠ '\\' := by
    rcases hquote with rfl | rfl <;> decide
  induction h with
  | nil =>
      refine ⟨[], [], rfl, .nil, fun hT => ?_⟩
      obtain ⟨rest, rfl⟩ := hT
      exact hends hmark.1 hmark.2
  | @ordinary ch more hch hmark hmore ih =>
      cases hword : Lexeme.isWordGlyph (glyphOf ch) with
      | true =>
          obtain ⟨token, rest, rfl, hplain, heq⟩ := ih
          refine ⟨ch :: token, rest, rfl, hplain, fun hT => ?_⟩
          rw [List.map_cons, List.cons_append, Lexeme.wordFrom, if_pos hword, heq hT, List.length_cons]
      | false =>
          exact ⟨[], ch :: more, rfl, .ordinary hch hmark hmore, fun _ =>
            hends hword (isOrdinary_ne hch).2.2.2.2.2⟩
  | @quoted q text more hq htext hmore _ =>
      refine ⟨[], _, rfl, .quoted hq htext hmore, fun _ => ?_⟩
      rcases hq with rfl | rfl
      · exact hends rfl (by decide)
      · exact hends rfl (by decide)
  | line htext hch hmore _ =>
      exact ⟨[], _, rfl, .line htext hch hmore, fun _ => hends rfl (by decide)⟩
  | block htext hmore _ =>
      exact ⟨[], _, rfl, .block htext hmore, fun _ => hends rfl (by decide)⟩

theorem Plain.word (h : Plain gap) (hquote : quote = '\x27' ∨ quote = '"') :
    ∃ token more, Takes quote Lexeme.word gap token more := by
  obtain ⟨token, more, hsplit, hplain, heq⟩ := h.wordFrom hquote
  cases gap with
  | nil =>
      refine ⟨token, more, hsplit, hplain, fun {T} hT => ?_⟩
      rw [← heq hT]
      obtain ⟨rest, rfl⟩ := hT
      have hdigit : quote.isDigit = false := by rcases hquote with rfl | rfl <;> rfl
      simp [Lexeme.word, glyphOf, hdigit]
  | cons ch gap =>
      cases hdigit : ch.isDigit with
      | true =>
          refine ⟨[], ch :: gap, rfl, h, fun _ => ?_⟩
          simp [Lexeme.word, glyphOf, hdigit]
      | false =>
          refine ⟨token, more, hsplit, hplain, fun {T} hT => ?_⟩
          rw [← heq hT]
          simp [Lexeme.word, glyphOf, hdigit]

/-! ## Ends of lines -/

/-- Whether a statement may go on with a text is known from the text. -/
theorem Plain.mayStartStatement (h : Plain gap) (hquote : quote = '\x27' ∨ quote = '"') {T T' : List Glyph}
    (hT : StartsWith quote T) (hT' : StartsWith quote T') :
    mayStartStatement (gap.map glyphOf ++ T) = mayStartStatement (gap.map glyphOf ++ T') := by
  cases gap with
  | nil =>
      obtain ⟨rest, rfl⟩ := hT
      obtain ⟨rest', rfl⟩ := hT'
      rcases hquote with rfl | rfl <;> rfl
  | cons ch more =>
      have hword : Lexeme.word ((ch :: more).map glyphOf ++ T) = Lexeme.word ((ch :: more).map glyphOf ++ T') := by
        obtain ⟨token, rest, htoken⟩ := h.word hquote
        rw [htoken.eq hT, htoken.eq hT']
      have hliteral {text : List Char} (htext : unmarked text = true) :
          Lexeme.literal text ((ch :: more).map glyphOf ++ T) =
            Lexeme.literal text ((ch :: more).map glyphOf ++ T') := by
        rcases h.literal hquote htext with ⟨rest, heq, -⟩ | hnot
        · rw [heq, List.map_append, List.append_assoc, List.append_assoc, literal_here, literal_here]
        · rw [hnot hT, hnot hT']
      have hin := @hliteral "in".toList (by decide)
      have hinstanceof := @hliteral "instanceof".toList (by decide)
      rw [List.map_cons, List.cons_append, List.cons_append] at hword hin hinstanceof ⊢
      simp only [Syntax.mayStartStatement, hword, hin, hinstanceof, nextIn_plain more hT hT']

theorem comment_other {ch : Char} {gs : List Glyph} (hch : ch ≠ '/') :
    Lexeme.comment (glyphOf ch :: gs) = none := by
  unfold Lexeme.comment
  split
  · rename_i a b more hcons
    obtain rfl : glyphOf ch = a := by simpa using congrArg List.head? hcons
    simp [glyphOf, hch]
  · rfl

/-- A comment of a plain text ends in it. -/
theorem Plain.comment (h : Plain gap) (hquote : quote = '\x27' ∨ quote = '"') :
    Scans quote Lexeme.comment gap := by
  cases h with
  | nil =>
      refine .inr fun hT => ?_
      obtain ⟨rest, rfl⟩ := hT
      exact comment_other (quote_not_blank hquote).2
  | ordinary hch => exact .inr fun _ => comment_other (isOrdinary_ne hch).2.2.2.1
  | quoted hq => exact .inr fun _ => comment_other (quote_not_blank hq).2
  | @line text more ch htext hch hmore =>
      exact .inl ⟨'/' :: '/' :: text, ch :: more, rfl, hmore, fun _ => comment_line htext hch⟩
  | @block text more htext hmore =>
      refine .inl ⟨'/' :: '*' :: text ++ ['*', '/'], more, by simp, hmore, fun _ => ?_⟩
      rw [comment_block htext, List.length_append, List.length_cons, List.length_cons]
      rfl

/-- Blanks of a plain text. -/
theorem Plain.blanks (h : Plain gap) (hquote : quote = '\x27' ∨ quote = '"') {test : Char → Bool}
    (htest : ∀ ch, test ch = true → Lexeme.isBlank ch = true) :
    ∃ token more, Takes quote (Lexeme.runLength test) gap token more := by
  have hstop {ch : Char} {gs : List Glyph} (hch : test ch = false) :
      Lexeme.runLength test (glyphOf ch :: gs) = 0 := by
    simp [Lexeme.runLength, glyphOf, hch]
  have hmark (ch : Char) (hch : Lexeme.isBlank ch = false) : test ch = false :=
    Bool.eq_false_iff.mpr fun heq => by simp [htest ch heq] at hch
  induction h with
  | nil =>
      refine ⟨[], [], rfl, .nil, fun hT => ?_⟩
      obtain ⟨rest, rfl⟩ := hT
      exact hstop (hmark quote (quote_not_blank hquote).1)
  | @ordinary ch more hch hprefix hmore ih =>
      cases hblank : test ch with
      | true =>
          obtain ⟨token, rest, rfl, hrest, heq⟩ := ih
          refine ⟨ch :: token, rest, rfl, hrest, fun hT => ?_⟩
          rw [List.map_cons, List.cons_append, Lexeme.runLength, heq hT]
          simp [glyphOf, hblank]
      | false => exact ⟨[], ch :: more, rfl, .ordinary hch hprefix hmore, fun _ => hstop hblank⟩
  | quoted hq htext hmore _ =>
      exact ⟨[], _, rfl, .quoted hq htext hmore, fun _ => hstop (hmark _ (quote_not_blank hq).1)⟩
  | line htext hch hmore _ => exact ⟨[], _, rfl, .line htext hch hmore, fun _ => hstop (hmark '/' rfl)⟩
  | block htext hmore _ => exact ⟨[], _, rfl, .block htext hmore, fun _ => hstop (hmark '/' rfl)⟩

theorem Plain.behind_line (h : Plain (ch :: more)) (hch : Lexeme.isLineEnd ch = true) : Plain more := by
  refine (h.tail ⟨?_, ?_⟩ ?_).2.2 <;> rintro rfl <;> cases hch

/-- The end of a line is found in a plain text, with some comments in front of it, or it is not there. -/
def Ending (quote : Char) (endsLine : Char → Bool) (fuel : Nat) (gap : List Char) : Prop :=
  (∀ {T}, StartsWith quote T → ∀ offset, lineEnd endsLine fuel ⟨offset, gap.map glyphOf ++ T⟩ = none) ∨
    ∃ token more, ∃ comments : Nat → List Node, gap = token ++ more ∧ Plain more ∧
      ∀ {T}, StartsWith quote T → ∀ offset,
        lineEnd endsLine fuel ⟨offset, gap.map glyphOf ++ T⟩ =
          some (comments offset, ⟨offset + bytesOf token, more.map glyphOf ++ T⟩)

theorem Plain.mayStart_skip (h : Plain gap) (hquote : quote = '\x27' ∨ quote = '"') {fuel : Nat}
    (hfuel : gap.length ≤ fuel) : ∃ may, ∀ {T}, StartsWith quote T →
      Syntax.mayStartStatement (trivia fuel ⟨0, gap.map glyphOf ++ T⟩).2.rest = may := by
  obtain ⟨blank, token, rfl, hgap, hplain, hat⟩ := h.skip
  have hstarts : StartsWith quote [glyphOf quote] := ⟨[], rfl⟩
  refine ⟨Syntax.mayStartStatement (token.map glyphOf ++ [glyphOf quote]), fun {T} hT => ?_⟩
  rw [List.length_append] at hfuel
  rw [List.map_append, List.append_assoc, hgap.passable (hat.starts hquote hT) (by omega)]
  exact hplain.mayStartStatement hquote hT hstarts

theorem Ending.here {endsLine : Char → Bool} {fuel : Nat} (h : Plain gap)
    (hhere : ∀ {T}, StartsWith quote T → ∀ offset, lineEnd endsLine fuel ⟨offset, gap.map glyphOf ++ T⟩ =
      some ([], ⟨offset, gap.map glyphOf ++ T⟩)) : Ending quote endsLine fuel gap :=
  .inr ⟨[], gap, fun _ => [], rfl, h, hhere⟩

/-- A comment on the line, and then the rest of the line. -/
theorem Ending.comment {endsLine : Char → Bool} {fuel fuel' : Nat} {blanks : List Char}
    (hfront : ∀ {T}, StartsWith quote T → ∀ offset,
      lineEnd endsLine fuel' ⟨offset, (blanks ++ (token ++ more)).map glyphOf ++ T⟩ =
        (lineEnd endsLine fuel ⟨offset + bytesOf blanks + bytesOf token, more.map glyphOf ++ T⟩).map fun r =>
          (Node.leaf .comment (offset + bytesOf blanks) (offset + bytesOf blanks + bytesOf token) :: r.1, r.2))
    (h : Ending quote endsLine fuel more) : Ending quote endsLine fuel' (blanks ++ (token ++ more)) := by
  rcases h with hnone | ⟨token', rest, comments, rfl, hrest, heq⟩
  · refine .inl fun hT offset => ?_
    rw [hfront hT, hnone hT]
    rfl
  · refine .inr ⟨blanks ++ (token ++ token'), rest, fun offset =>
      Node.leaf .comment (offset + bytesOf blanks) (offset + bytesOf blanks + bytesOf token) ::
        comments (offset + bytesOf blanks + bytesOf token), by simp, hrest, fun hT offset => ?_⟩
    rw [hfront hT, heq hT, bytesOf_append, bytesOf_append, ← Nat.add_assoc, ← Nat.add_assoc]
    rfl

/-- What stands behind the blanks of a line decides. -/
theorem lineEnd_blanks {endsLine : Char → Bool} {blanks : List Char} {rest : List Glyph} (fuel offset : Nat)
    (hblanks : Lexeme.runLength (fun ch => Lexeme.isBlank ch && !endsLine ch)
      (blanks.map glyphOf ++ glyphOf ch :: rest) = blanks.length) :
    lineEnd endsLine (fuel + 1) ⟨offset, blanks.map glyphOf ++ glyphOf ch :: rest⟩ =
      if ch == '\x7d' then some ([], ⟨offset, blanks.map glyphOf ++ glyphOf ch :: rest⟩)
      else if endsLine ch then
        if Syntax.mayStartStatement (trivia fuel ⟨0, rest⟩).2.rest then
          some ([], ⟨offset, blanks.map glyphOf ++ glyphOf ch :: rest⟩)
        else none
      else
        match Lexeme.comment (glyphOf ch :: rest) with
        | some n =>
          let after := (Cursor.mk (offset + bytesOf blanks) (glyphOf ch :: rest)).advance n
          (lineEnd endsLine fuel after).map fun r =>
            (Node.leaf .comment (offset + bytesOf blanks) after.offset :: r.1, r.2)
        | none => none := by
  have hadvance : (Cursor.mk offset (blanks.map glyphOf ++ glyphOf ch :: rest)).advance blanks.length =
      ⟨offset + bytesOf blanks, glyphOf ch :: rest⟩ := advance_glyphs
  have hdrop : (blanks.map glyphOf ++ glyphOf ch :: rest).drop blanks.length = glyphOf ch :: rest :=
    List.drop_left' (by simp)
  rw [Syntax.lineEnd]
  simp only [hblanks, hdrop, hadvance]
  rfl

theorem Plain.ending (hquote : quote = '\x27' ∨ quote = '"') {endsLine : Char → Bool}
    (hends : ∀ ch, endsLine ch = true → Lexeme.isLineEnd ch = true) : ∀ {fuel : Nat} {gap : List Char},
    Plain gap → gap.length < fuel → Ending quote endsLine fuel gap
  | 0, _, _, hfuel => absurd hfuel (Nat.not_lt_zero _)
  | fuel + 1, gap, h, hfuel => by
      obtain ⟨blanks, more, rfl, hmore, hblanks⟩ := @Plain.blanks _ _ h hquote
        (fun ch => Lexeme.isBlank ch && !endsLine ch) fun ch hch => (Bool.and_eq_true _ _ ▸ hch).1
      have hmark : (quote == '\x7d') = false ∧ endsLine quote = false := by
        constructor
        · rcases hquote with rfl | rfl <;> rfl
        · refine Bool.eq_false_iff.mpr fun hend => ?_
          have hblank := isBlank_of_isLineEnd (hends quote hend)
          simp [(quote_not_blank hquote).1] at hblank
      cases more with
      | nil =>
          refine .inl fun hT offset => ?_
          have hlength := hblanks hT
          obtain ⟨rest, rfl⟩ := hT
          rw [List.append_nil] at hlength ⊢
          rw [lineEnd_blanks fuel offset hlength, hmark.1, hmark.2, if_neg Bool.false_ne_true,
            if_neg Bool.false_ne_true, comment_other (quote_not_blank hquote).2]
      | cons ch more =>
          have hsplit (T : List Glyph) : (blanks ++ ch :: more).map glyphOf ++ T =
              blanks.map glyphOf ++ glyphOf ch :: (more.map glyphOf ++ T) := by simp
          have hstep {T : List Glyph} (hT : StartsWith quote T) (offset : Nat) :=
            lineEnd_blanks fuel offset (hsplit T ▸ hblanks hT)
          rw [List.length_append, List.length_cons] at hfuel
          by_cases hbrace : (ch == '\x7d') = true
          · refine .here h fun hT offset => ?_
            rw [hsplit, hstep hT, if_pos hbrace]
          by_cases hend : endsLine ch = true
          · obtain ⟨may, hmay⟩ := (hmore.behind_line (hends ch hend)).mayStart_skip hquote
              (show more.length ≤ fuel by omega)
            cases may with
            | true =>
                refine .here h fun hT offset => ?_
                rw [hsplit, hstep hT, if_neg hbrace, if_pos hend, hmay hT, if_pos rfl]
            | false =>
                refine .inl fun hT offset => ?_
                rw [hsplit, hstep hT, if_neg hbrace, if_pos hend, hmay hT, if_neg Bool.false_ne_true]
          rcases hmore.comment hquote with ⟨token, rest, heq, hrest, hcomment⟩ | hnone
          · have hpos : 0 < token.length := comment_pos (hcomment ⟨[], rfl⟩)
            have hlength := congrArg List.length heq
            rw [List.length_append, List.length_cons] at hlength
            have hnext := Plain.ending hquote hends hrest (show rest.length < fuel by omega)
            rw [heq]
            refine hnext.comment fun {T} hT offset => ?_
            have hadvance (offset : Nat) : (Cursor.mk offset (glyphOf ch :: (more.map glyphOf ++ T))).advance
                token.length = ⟨offset + bytesOf token, rest.map glyphOf ++ T⟩ := by
              rw [← List.cons_append, ← List.map_cons, heq, List.map_append, List.append_assoc]
              exact advance_glyphs
            have hscan := hcomment hT
            rw [List.map_cons, List.cons_append] at hscan
            rw [← heq, hsplit, hstep hT, if_neg hbrace, if_neg hend, hscan]
            dsimp only
            rw [hadvance]
          · refine .inl fun hT offset => ?_
            have hscan := hnone hT
            rw [List.map_cons, List.cons_append] at hscan
            rw [hsplit, hstep hT, if_neg hbrace, if_neg hend, hscan]

end

end ImportAssist
