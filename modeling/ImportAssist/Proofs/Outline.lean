import ImportAssist.Proofs.Recognition

/-!
# Reading a text that is only known in outline

Of a statement that is to be written, the words and marks are known but not the name and the path in
it. An outline is such a text: a list of clues, one for each token. `predict` follows a rule along an
outline as `Rule.run` follows it along a source. Where the clues do not decide, it abstains.

The tree it builds has places in the outline for offsets: between two tokens there are two places, one
behind the first and one before the second. `predict_sound` says that a definite forecast is what
happens on every text that the outline fits, once each place is moved to its offset.

So one evaluation of `predict` settles how all statements of one form are read.
-/

namespace ImportAssist

/-- Whether a literal of a class may start with a character. -/
def Lexeme.Class.starts : Lexeme.Class → Char → Bool
  | .string, ch | .markupString, ch => ch == '\x27' || ch == '"'
  | .number, ch => ch.isDigit || ch == '.'
  | .regex, ch => ch == '/'
  | .characterReference, ch => ch == '&'
  | .privateName, ch => ch == '#'
  | .markupComment, ch => ch == '<' || ch == '-'
  | .dashedName, _ | .templateText, _ | .markupText, _ => true

namespace Syntax

open Grammar (Production)
open Utf8 (glyphOf)

/-! ## Clues -/

/-- Marks and words that do not come next. -/
structure Refused where
  marks : List String
  words : List String

/-- What is known about a token. -/
inductive Clue where
  | word (text : String)
  /-- A word that is none of some words. -/
  | name (no : List String)
  /-- A mark, and the characters of which one follows. -/
  | mark (ch : Char) (nexts : List Char)
  /-- A string. -/
  | text
  /-- The end of a line, behind which a statement may start that does not start with one of some
  marks and words. -/
  | close (no : Refused)

namespace Clue

/-- Marks that cannot start a statement on a new line. -/
def refusedAtStart (notBefore : List Char) : List Char → Bool
  | [] => false
  | [t] => ",.;*%><=?^|&/:".toList.contains t || ((t == '+' || t == '-') && notBefore.contains t)
  | t :: u :: _ =>
    ",.;*%><=?^|&/:".toList.contains t || ((t == '+' || t == '-') && u != t) ||
      (t == '!' && u == '=')

/-- Whether a mark stands here, as far as the clue tells. -/
def mark? (text : String) (notBefore : List Char) (clue : Clue) : Option Bool :=
  match clue, text.toList with
  | .close no, chars =>
    if no.marks.contains text || refusedAtStart notBefore chars then some false else none
  | _, [] => none
  | .word _, t :: _ | .name _, t :: _ => if Lexeme.isPunctuation t then some false else none
  | .text, t :: _ => if t == '\x27' || t == '"' then none else some false
  | .mark ch nexts, [t] =>
    if t != ch then some false
    else if nexts.all fun next => !notBefore.contains next then some true
    else none
  | .mark ch nexts, t :: u :: _ => if t != ch || !nexts.contains u then some false else none

def keyword? (text : String) (clue : Clue) : Option Bool :=
  match clue, text.toList with
  | .word w, _ => some (w == text)
  | .name no, _ => if no.contains text then some false else none
  | .close no, _ =>
    if text == "in" || text == "instanceof" || no.words.contains text then some false else none
  | .mark ch _, t :: _ => if t == ch then none else some false
  | .text, t :: _ => if t == '\x27' || t == '"' then none else some false
  | _, [] => none

def name? (except : List String) : Clue → Option Bool
  | .word w => some (!except.contains w)
  | .name no => if except.all no.contains then some true else none
  | .mark ch _ => if Lexeme.isWordGlyph (glyphOf ch) || ch == '\\' then none else some false
  | .text => some false
  | .close _ => none

def lexeme? (literal : Lexeme.Class) : Clue → Option Bool
  | .word _ | .name _ =>
    match literal with
    | .dashedName | .templateText | .markupText => none
    | _ => some false
  | .mark ch nexts =>
    if !literal.starts ch then some false
    else if literal = .privateName &&
        nexts.all fun next => !Lexeme.isWordGlyph (glyphOf next) && next != '\\' then some false
    else none
  | .text =>
    if literal = .string then some true
    else if literal.starts '\x27' || literal.starts '"' then none
    else some false
  | .close _ => none

end Clue

/-! ## Outlines -/

/-- What is ahead of a place in an outline. An even place is behind a token or at the front, an odd
one before a token. -/
structure Outline where
  place : Nat
  clues : List Clue

/-- The place before the next token. -/
def before (place : Nat) : Nat := place + (place + 1) % 2

namespace Outline

/-- The outline before its next token. -/
def settle (o : Outline) : Outline := ⟨before o.place, o.clues⟩

/-- Whether the offset of the place is known. Behind the end of a line it is not. -/
def known (o : Outline) : Bool :=
  match o.clues with
  | .close _ :: _ => o.place % 2 == 0
  | _ => true

/-- Whether a statement may end here without a semicolon. -/
def ends? (o : Outline) : Option Bool :=
  match o.clues with
  | [] => none
  | .close _ :: _ => if o.place % 2 == 0 then some true else none
  | .mark ch _ :: _ => some (ch == '\x7d')
  | _ :: _ => some false

end Outline

/-! ## Forecasts -/

/-- What a rule does with an outline. -/
inductive Forecast where
  | refuses
  | reads (ns : List Node) (after : Outline)
  | unknown

/-- A token is read by its clue. -/
def Outline.token (test : Clue → Option Bool) (make : Nat → Nat → Node) (o : Outline) : Forecast :=
  match o.clues with
  | [] => .unknown
  | clue :: clues =>
    let start := before o.place
    match test clue with
    | some true => .reads [make start (start + 1)] ⟨start + 1, clues⟩
    | some false => .refuses
    | none => .unknown

def isJoined : Production → Bool
  | .joined => true
  | _ => false

/-- What rules do one after the other. What would have to be joined to a statement is refused without
knowing whether the statement ends. -/
def predictSeq (predict : Production → Outline → Forecast) : List Production → Outline → Forecast
  | [], o => .reads [] o
  | rule :: rules, o =>
    match predict rule o with
    | .refuses => .refuses
    | .reads ns after =>
      match predictSeq predict rules after with
      | .refuses => .refuses
      | .reads ms last => .reads (ns ++ ms) last
      | .unknown => .unknown
    | .unknown =>
      match predictSeq predict rules o with
      | .refuses => if isJoined rule then .refuses else .unknown
      | _ => .unknown

def predictAlt (predict : Production → Outline → Forecast) : List Production → Outline → Forecast
  | [], _ => .refuses
  | rule :: rules, o =>
    match predict rule o with
    | .refuses => predictAlt predict rules o
    | .reads ns after => .reads ns after
    | .unknown => .unknown

/-- The first link that goes on after `left`; `some none` if none does. -/
def predictLinks (predict : Production → Outline → Forecast) (left : Node) :
    List (Link Symbol) → Outline → Option (Option (Node × Outline))
  | [], _ => some none
  | .mk kind role onto tail :: links, o =>
    if onto.isEmpty || onto.any left.hasKind then
      match predict tail o with
      | .refuses => predictLinks predict left links o
      | .reads ns after =>
        let operand := match role with
          | some r => left.withRole r
          | none => left
        if after.known then
          some (some (.mk (.kind kind) none left.start after.place (operand :: ns), after))
        else none
      | .unknown => none
    else predictLinks predict left links o

def predictChain (predict : Production → Outline → Forecast) (links : List (Link Symbol)) :
    Nat → Node → Outline → Option (Node × Outline)
  | 0, _, _ => none
  | limit + 1, left, o =>
    match predictLinks predict left links o with
    | some none => some (left, o)
    | some (some (node, after)) => predictChain predict links limit node after
    | none => none

/-- What a rule does with an outline, in at most `depth` steps down. -/
def predict (d : Dialect) : Nat → Place → Production → Outline → Forecast
  | 0, _, _, _ => .unknown
  | _ + 1, _, _, ⟨_, []⟩ => .unknown
  | depth + 1, place, rule, o =>
    match rule with
    | .mark text notBefore => o.token (Clue.mark? text notBefore) (Node.token text)
    | .keyword text => o.token (Clue.keyword? text) (Node.token text)
    | .name kind except => o.token (Clue.name? except) (Node.leaf kind)
    | .lexeme kind raw literal =>
      if raw then .unknown else o.token (Clue.lexeme? literal) (Node.leaf kind)
    | .seq rules => predictSeq (predict d depth place) rules o
    | .alt rules => predictAlt (predict d depth place) rules o
    | .opt rule =>
      match predict d depth place rule o with
      | .refuses => .reads [] o
      | .reads ns after => .reads ns after
      | _ => .unknown
    | .many rule =>
      match predict d depth place rule o with
      | .refuses => .reads [] o
      | _ => .unknown
    | .ahead rule =>
      match predict d depth place rule o with
      | .refuses => .refuses
      | .reads _ _ => .reads [] o
      | _ => .unknown
    | .notAhead rule =>
      match predict d depth place rule o with
      | .refuses => .reads [] o
      | .reads _ _ => .refuses
      | _ => .unknown
    | .node kind rule =>
      match predict d depth place rule o.settle with
      | .refuses => .refuses
      | .reads ns after =>
        if o.settle.known && after.known then
          .reads [.mk (.kind kind) none o.settle.place after.place ns] after
        else .unknown
      | _ => .unknown
    | .role part rule =>
      match predict d depth place rule o with
      | .refuses => .refuses
      | .reads ns after => .reads (assignRole part ns) after
      | _ => .unknown
    | .call symbol => predict d depth place (grammar d symbol) o
    | .chain base links =>
      match predict d depth place base o with
      | .refuses => .refuses
      | .reads [left] after =>
        match predictChain (predict d depth place) links depth left after with
        | some (whole, last) => .reads [whole] last
        | none => .unknown
      | _ => .unknown
    | .fresh rule =>
      match predict d depth place rule o.settle with
      | .refuses => .refuses
      | .reads ns after => if o.settle.known then .reads ns after else .unknown
      | _ => .unknown
    | .inside inner rule => predict d depth inner rule o
    | .outside other => if place = other then .refuses else .reads [] o
    | .semicolon =>
      match o.ends? with
      | some true => .reads [] o
      | some false => .refuses
      | none => .unknown
    | .joined =>
      if place = .statement then
        match o.ends? with
        | some true => .refuses
        | some false => .reads [] o
        | none => .unknown
      else .reads [] o
    | .group => .unknown

/-! ## Texts that a clue fits -/

/-- A statement may start with these glyphs on a new line, and no refused mark or word stands there. -/
structure Follows (no : Refused) (gs : List Glyph) : Prop where
  mayStart : mayStartStatement gs = true
  marks : ∀ text ∈ no.marks, Lexeme.literal text.toList gs = false
  words : ∀ text ∈ no.words,
    (Lexeme.literal text.toList gs && Lexeme.word gs == text.toList.length) = false

namespace Clue

/-- The characters of a token and what follows them fit a clue. -/
def Shows (chars : List Char) (behind : List Glyph) : Clue → Prop
  | .word w => chars = w.toList ∧ IsWord chars ∧ EndsWord behind
  | .name no => IsWord chars ∧ EndsWord behind ∧ String.ofList chars ∉ no
  | .mark ch nexts => chars = [ch] ∧ Lexeme.isBlank ch = false ∧ ch ≠ '/' ∧
      ∃ next gs, behind = glyphOf next :: gs ∧ next ∈ nexts
  | .text => ∃ quote path, (quote = '\x27' ∨ quote = '"') ∧ Enclosed quote path ∧
      chars = quote :: path ++ [quote]
  | .close _ => False

/-- The glyphs ahead fit a clue. -/
def Ahead (gs : List Glyph) : Clue → Prop
  | .close no => Follows no gs
  | clue => ∃ chars behind, gs = chars.map glyphOf ++ behind ∧ clue.Shows chars behind

variable {clue : Clue} {chars : List Char} {behind gs : List Glyph} {text : String}

theorem Shows.ahead (h : clue.Shows chars behind) : clue.Ahead (chars.map glyphOf ++ behind) := by
  cases clue with
  | close no => cases h
  | _ => exact ⟨chars, behind, rfl, h⟩

/-- The first character of a token. -/
theorem Shows.head (h : clue.Shows chars behind) :
    ∃ ch more, chars = ch :: more ∧ Lexeme.isBlank ch = false ∧ ch ≠ '/' := by
  cases clue with
  | word w =>
      obtain ⟨ch, more, rfl, -⟩ := h.2.1.start
      exact ⟨ch, more, rfl, h.2.1.head_not_blank, h.2.1.head_ne rfl⟩
  | name no =>
      obtain ⟨ch, more, rfl, -⟩ := h.1.start
      exact ⟨ch, more, rfl, h.1.head_not_blank, h.1.head_ne rfl⟩
  | mark ch nexts => exact ⟨ch, [], h.1, h.2.1, h.2.2.1⟩
  | text =>
      obtain ⟨quote, path, hquote, -, rfl⟩ := h
      refine ⟨quote, path ++ [quote], rfl, ?_⟩
      rcases hquote with rfl | rfl <;> decide
  | close no => cases h

theorem Shows.settled {front back : List Char} {rest : List Glyph}
    (h : clue.Shows chars (back.map glyphOf ++ rest)) :
    (here front (chars ++ back) rest).Settled := by
  obtain ⟨ch, more, rfl, hblank, hslash⟩ := h.head
  exact settled_here hblank hslash

/-! ## Marks -/

theorem literal_mark {t : Char} {ts : List Char} {g : Glyph} (hne : g.char ≠ t) :
    Lexeme.literal (t :: ts) (g :: gs) = false := by
  simp [Lexeme.literal, hne]

/-- A sign that comes twice is no sign by itself, and starts no other mark. -/
theorem doubled_refuses {t : Char} {notBefore : List Char} (hnext : Lexeme.nextIn [t] gs = true) :
    (notBefore.contains t = true → Lexeme.nextIn notBefore gs = true) ∧
      ∀ u ts, u ≠ t → Lexeme.literal (u :: ts) gs = false := by
  cases gs with
  | nil => cases hnext
  | cons g gs =>
      simp only [Lexeme.nextIn, Bool.and_eq_true, List.contains_cons, List.contains_nil,
        Bool.or_false, beq_iff_eq] at hnext ⊢
      obtain ⟨hvalid, rfl⟩ := hnext
      exact ⟨fun hin => ⟨hvalid, hin⟩, fun u ts hne => literal_mark (Ne.symm hne)⟩

theorem refusedAtStart_sound {notBefore : List Char} (hmay : mayStartStatement gs = true)
    (h : refusedAtStart notBefore chars = true) :
    (Lexeme.literal chars gs && !Lexeme.nextIn notBefore (gs.drop chars.length)) = false := by
  cases gs with
  | nil => cases chars <;> simp_all [refusedAtStart, Lexeme.literal]
  | cons g gs =>
      cases chars with
      | nil => cases h
      | cons t ts =>
          by_cases hchar : ",.;*%><=?^|&/:".toList.contains t = true
          · rw [literal_of_mayStart hmay hchar, Bool.false_and]
          · by_cases hne : g.char = t
            · subst hne
              rw [mayStartStatement, if_neg hchar] at hmay
              have hdouble : g.char = '+' ∨ g.char = '-' → Lexeme.nextIn [g.char] gs = true := by
                rintro (hsign | hsign) <;> simpa [hsign] using hmay
              cases ts with
              | nil =>
                  rw [refusedAtStart, Bool.eq_false_iff.mpr hchar, Bool.false_or] at h
                  have hsign : (g.char = '+' ∨ g.char = '-') ∧ notBefore.contains g.char = true := by
                    simpa using h
                  have hin := (doubled_refuses (hdouble hsign.1)).1 hsign.2
                  simp [hin]
              | cons u ts =>
                  rw [refusedAtStart, Bool.eq_false_iff.mpr hchar, Bool.false_or] at h
                  have hsign : (g.char = '+' ∨ g.char = '-') ∧ u ≠ g.char ∨
                      g.char = '!' ∧ u = '=' := by
                    simpa using h
                  have hfalse : Lexeme.literal (u :: ts) gs = false := by
                    rcases hsign with ⟨hsign, hu⟩ | ⟨hsign, rfl⟩
                    · exact (@doubled_refuses _ _ [] (hdouble hsign)).2 u ts hu
                    · have hnext : Lexeme.nextIn ['='] gs = false := by simpa [hsign] using hmay
                      cases gs with
                      | nil => rfl
                      | cons g gs => simp_all [Lexeme.nextIn, Lexeme.literal]
                  rw [Lexeme.literal, hfalse, Bool.and_false, Bool.false_and]
            · rw [literal_mark hne, Bool.false_and]

/-- No mark starts as a word does. -/
theorem word_not_mark {word : List Char} (hword : IsWord word) {t : Char} {ts : List Char}
    (ht : Lexeme.isPunctuation t = true) :
    Lexeme.literal (t :: ts) (word.map glyphOf ++ behind) = false := by
  obtain ⟨ch, more, rfl, -⟩ := hword.start
  exact literal_other (hword.head_ne ht) _

theorem mark?_false {notBefore : List Char} (h : clue.mark? text notBefore = some false)
    (hahead : clue.Ahead gs) :
    (Lexeme.literal text.toList gs && !Lexeme.nextIn notBefore (gs.drop text.toList.length)) =
      false := by
  unfold mark? at h
  split at h
  · rename_i marks
    simp only [Option.ite_none_right_eq_some, and_true, Bool.or_eq_true,
      List.contains_iff_mem] at h
    rcases h with hmem | hstart
    · rw [hahead.marks text hmem, Bool.false_and]
    · exact refusedAtStart_sound hahead.mayStart hstart
  · cases h
  · rename_i w t ts htext
    obtain ⟨chars, behind, rfl, -, hword, -⟩ := hahead
    rw [htext, word_not_mark hword (by simpa using h), Bool.false_and]
  · rename_i no t ts htext
    obtain ⟨chars, behind, rfl, hword, -⟩ := hahead
    rw [htext, word_not_mark hword (by simpa using h), Bool.false_and]
  · rename_i t ts htext
    obtain ⟨chars, behind, rfl, quote, path, hquote, -, rfl⟩ := hahead
    have hne : quote ≠ t := by
      rintro rfl
      rcases hquote with rfl | rfl <;> simp at h
    rw [htext]
    exact Bool.and_eq_false_iff.mpr (.inl (literal_other hne _))
  · rename_i ch nexts t htext
    obtain ⟨chars, behind, rfl, rfl, -⟩ := hahead
    have hne : ch ≠ t := by
      rintro rfl
      simp at h
    rw [htext]
    exact Bool.and_eq_false_iff.mpr (.inl (literal_other hne _))
  · rename_i ch nexts t u ts htext
    obtain ⟨chars, behind, rfl, rfl, -, -, next, gs, rfl, hnext⟩ := hahead
    have hne : ch ≠ t ∨ next ≠ u := by
      by_cases hch : ch = t
      · refine .inr ?_
        rintro rfl
        simp [hch, hnext] at h
      · exact .inl hch
    rw [htext]
    refine Bool.and_eq_false_iff.mpr (.inl ?_)
    rcases hne with hne | hne <;> simp [Lexeme.literal, glyphOf, hne]

theorem mark?_true {notBefore : List Char} (h : clue.mark? text notBefore = some true)
    (hshows : clue.Shows chars behind) :
    text.toList = chars ∧ Lexeme.nextIn notBefore behind = false := by
  unfold mark? at h
  split at h
  case h_6 =>
    rename_i ch nexts t htext
    obtain ⟨rfl, -, -, next, gs, rfl, hnext⟩ := hshows
    split at h
    · cases h
    · rename_i heq
      obtain rfl : t = ch := by simpa using heq
      have hall : ∀ next ∈ nexts, next ∉ notBefore := by simpa using h
      exact ⟨htext, by simpa [Lexeme.nextIn, glyphOf] using hall next hnext⟩
  all_goals
    first
    | cases h
    | (split at h <;> cases h)

/-! ## Words -/

/-- A word is no keyword but itself. -/
theorem word_not_keyword {word : List Char} (hword : IsWord word) (hend : EndsWord behind)
    (hne : String.ofList word ≠ text) :
    (Lexeme.literal text.toList (word.map glyphOf ++ behind) &&
      Lexeme.word (word.map glyphOf ++ behind) == text.toList.length) = false := by
  rw [hword.word_eq hend, Bool.and_eq_false_iff]
  by_cases hlength : word.length = text.toList.length
  · refine .inl (Bool.eq_false_iff.mpr fun hliteral => hne ?_)
    rw [literal_eq hliteral hlength, String.ofList_toList]
  · exact .inr (by simpa using hlength)

/-- The operators that are words start no statement. -/
theorem operator_not_ahead (hmay : mayStartStatement gs = true)
    (htext : text = "in" ∨ text = "instanceof") :
    (Lexeme.literal text.toList gs && Lexeme.word gs == text.toList.length) = false := by
  cases gs with
  | nil => rcases htext with rfl | rfl <;> rfl
  | cons g gs =>
      by_cases hi : g.char = 'i'
      · have hnone : ((Lexeme.word (g :: gs) == 2 && Lexeme.literal "in".toList (g :: gs)) ||
            (Lexeme.word (g :: gs) == 10 && Lexeme.literal "instanceof".toList (g :: gs))) =
              false := by
          rw [mayStartStatement, hi] at hmay
          exact Bool.not_eq_true' _ ▸ hmay
        rw [Bool.or_eq_false_iff] at hnone
        rw [Bool.and_comm]
        rcases htext with rfl | rfl
        · exact hnone.1
        · exact hnone.2
      · rcases htext with rfl | rfl
        all_goals exact Bool.and_eq_false_iff.mpr (.inl (literal_mark hi))

theorem keyword?_false (h : clue.keyword? text = some false) (hahead : clue.Ahead gs) :
    (Lexeme.literal text.toList gs && Lexeme.word gs == text.toList.length) = false := by
  unfold keyword? at h
  split at h
  · rename_i w
    obtain ⟨chars, behind, rfl, rfl, hword, hend⟩ := hahead
    exact word_not_keyword hword hend (by simpa using h)
  · rename_i no
    obtain ⟨chars, behind, rfl, hword, hend, hno⟩ := hahead
    refine word_not_keyword hword hend ?_
    rintro rfl
    simp [hno] at h
  · rename_i marks
    simp only [Option.ite_none_right_eq_some, and_true, Bool.or_eq_true, beq_iff_eq,
      List.contains_iff_mem] at h
    rcases h with hoperator | hmem
    · exact operator_not_ahead hahead.mayStart hoperator
    · exact hahead.words text hmem
  · rename_i ch nexts t ts htext
    obtain ⟨chars, behind, rfl, rfl, -⟩ := hahead
    have hne : ch ≠ t := by
      rintro rfl
      simp at h
    rw [htext]
    exact Bool.and_eq_false_iff.mpr (.inl (literal_other hne _))
  · rename_i t ts htext
    obtain ⟨chars, behind, rfl, quote, path, hquote, -, rfl⟩ := hahead
    have hne : quote ≠ t := by
      rintro rfl
      rcases hquote with rfl | rfl <;> simp at h
    rw [htext]
    exact Bool.and_eq_false_iff.mpr (.inl (literal_other hne _))
  · cases h

theorem keyword?_true (h : clue.keyword? text = some true) (hshows : clue.Shows chars behind) :
    text.toList = chars ∧ IsWord chars ∧ EndsWord behind := by
  unfold keyword? at h
  split at h
  case h_1 =>
    rename_i w
    obtain rfl : w = text := by simpa using h
    exact ⟨hshows.1.symm, hshows.2⟩
  all_goals
    first
    | cases h
    | (split at h <;> cases h)

/-- No word starts with a mark. -/
theorem not_word {ch : Char} (hglyph : Lexeme.isWordGlyph (glyphOf ch) = false) (hescape : ch ≠ '\\') :
    Lexeme.word (glyphOf ch :: gs) = 0 := by
  have hend : EndsWord ((ch :: []).map glyphOf ++ gs) := endsWord_cons hglyph hescape
  rw [Lexeme.word]
  split
  · rfl
  · exact hend

theorem name?_false {except : List String} (h : clue.name? except = some false)
    (hahead : clue.Ahead gs) :
    Lexeme.word gs = 0 ∨
      String.ofList ((gs.take (Lexeme.word gs)).map Glyph.char) ∈ except := by
  cases clue with
  | word w =>
      obtain ⟨chars, behind, rfl, rfl, hword, hend⟩ := hahead
      refine .inr ?_
      rw [hword.word_eq hend, List.take_left' (by simp), List.map_map]
      simpa [name?, Function.comp_def, glyphOf] using h
  | name no =>
      simp only [name?] at h
      split at h <;> cases h
  | mark ch nexts =>
      obtain ⟨chars, behind, rfl, rfl, -⟩ := hahead
      have hch : Lexeme.isWordGlyph (glyphOf ch) = false ∧ ch ≠ '\\' := by simpa [name?] using h
      exact .inl (not_word hch.1 hch.2)
  | text =>
      obtain ⟨chars, behind, rfl, quote, path, hquote, -, rfl⟩ := hahead
      rcases hquote with rfl | rfl
      · exact .inl (not_word rfl (by decide))
      · exact .inl (not_word rfl (by decide))
  | close no => cases h

theorem name?_true {except : List String} (h : clue.name? except = some true)
    (hshows : clue.Shows chars behind) :
    IsWord chars ∧ EndsWord behind ∧ String.ofList chars ∉ except := by
  cases clue with
  | word w =>
      obtain ⟨rfl, hword, hend⟩ := hshows
      exact ⟨hword, hend, by simpa [name?] using h⟩
  | name no =>
      obtain ⟨hword, hend, hno⟩ := hshows
      have hall : ∀ x ∈ except, x ∈ no := by simpa [name?] using h
      exact ⟨hword, hend, fun hmem => hno (hall _ hmem)⟩
  | mark ch nexts =>
      simp only [name?] at h
      split at h <;> cases h
  | text => cases h
  | close no => cases h

/-! ## Literals -/

theorem scan_none {literal : Lexeme.Class} {g : Glyph} (h : literal.starts g.char = false) :
    literal.scan (g :: gs) = none := by
  cases literal with
  | string =>
      simp only [Lexeme.Class.starts] at h
      simp [Lexeme.Class.scan, Lexeme.string, h]
  | markupString =>
      simp only [Lexeme.Class.starts] at h
      simp [Lexeme.Class.scan, Lexeme.markupString, h]
  | number =>
      simp only [Lexeme.Class.starts, Bool.or_eq_false_iff, beq_eq_false_iff_ne] at h
      have hzero : g.char ≠ '0' := by
        intro heq
        rw [heq] at h
        exact absurd h.1 (by decide)
      have hradix : Lexeme.radix (g :: gs) = none := by
        cases gs <;> simp [Lexeme.radix, hzero]
      have hdigits : Lexeme.digits Char.isDigit (g :: gs) = 0 := by
        simp [Lexeme.digits, Lexeme.digitsFrom, h.1]
      simp [Lexeme.Class.scan, Lexeme.number, hradix, Lexeme.decimal, hdigits, Lexeme.nextIn, h.2]
  | regex =>
      simp only [Lexeme.Class.starts] at h
      simp [Lexeme.Class.scan, Lexeme.regex, h]
  | characterReference =>
      simp only [Lexeme.Class.starts] at h
      simp [Lexeme.Class.scan, Lexeme.characterReference, h]
  | privateName =>
      simp only [Lexeme.Class.starts] at h
      simp [Lexeme.Class.scan, Lexeme.privateName, h]
  | markupComment =>
      simp only [Lexeme.Class.starts, Bool.or_eq_false_iff, beq_eq_false_iff_ne] at h
      have hopen : Lexeme.literal "<!--".toList (g :: gs) = false := literal_mark h.1
      have hclose : Lexeme.literal "-->".toList (g :: gs) = false := literal_mark h.2
      simp only [Lexeme.Class.scan, Lexeme.markupComment, hopen, hclose, Bool.or_self,
        Bool.false_eq_true, if_false]
  | dashedName => cases h
  | templateText => cases h
  | markupText => cases h

/-- Literals start with a mark or a digit, and words do not. -/
theorem word_not_literal {word : List Char} (hword : IsWord word) {literal : Lexeme.Class}
    (h : (Clue.name []).lexeme? literal = some false) :
    literal.scan (word.map glyphOf ++ behind) = none := by
  obtain ⟨ch, more, rfl, hdigit⟩ := hword.start
  have hne : ∀ t, Lexeme.isPunctuation t = true → (ch == t) = false :=
    fun t ht => beq_eq_false_iff_ne.mpr (hword.head_ne ht)
  refine scan_none ?_
  rw [glyphOf]
  cases literal with
  | number => rw [Lexeme.Class.starts, hdigit, hne _ rfl]; rfl
  | dashedName => cases h
  | templateText => cases h
  | markupText => cases h
  | _ =>
    simp only [Lexeme.Class.starts]
    simp only [hne '\x27' rfl, hne '"' rfl, hne '/' rfl, hne '&' rfl, hne '#' rfl, hne '<' rfl,
      hne '-' rfl, Bool.or_self]

theorem lexeme?_false {literal : Lexeme.Class} (h : clue.lexeme? literal = some false)
    (hahead : clue.Ahead gs) : literal.scan gs = none := by
  cases clue with
  | word w =>
      obtain ⟨chars, behind, rfl, rfl, hword, -⟩ := hahead
      exact word_not_literal hword h
  | name no =>
      obtain ⟨chars, behind, rfl, hword, -⟩ := hahead
      exact word_not_literal hword h
  | mark ch nexts =>
      obtain ⟨chars, behind, rfl, rfl, -, -, next, gs, rfl, hnext⟩ := hahead
      simp only [lexeme?] at h
      split at h
      · rename_i hstarts
        exact scan_none (by simpa [glyphOf] using hstarts)
      · split at h
        · rename_i hprivate
          simp only [Bool.and_eq_true, decide_eq_true_eq, List.all_eq_true] at hprivate
          obtain ⟨rfl, hall⟩ := hprivate
          have hch := hall next hnext
          have hword : Lexeme.word (glyphOf next :: gs) = 0 :=
            not_word (by simpa using hch.1) (by simpa using hch.2)
          simp [Lexeme.Class.scan, Lexeme.privateName, hword]
        · cases h
  | text =>
      obtain ⟨chars, behind, rfl, quote, path, hquote, -, rfl⟩ := hahead
      simp only [lexeme?] at h
      split at h
      · cases h
      · split at h
        · cases h
        · rename_i hstarts
          rw [Bool.not_eq_true, Bool.or_eq_false_iff] at hstarts
          rcases hquote with rfl | rfl
          · exact scan_none hstarts.1
          · exact scan_none hstarts.2
  | close no => cases h

theorem lexeme?_true {literal : Lexeme.Class} (h : clue.lexeme? literal = some true)
    (hshows : clue.Shows chars behind) :
    literal = .string ∧ ∃ quote path, (quote = '\x27' ∨ quote = '"') ∧ Enclosed quote path ∧
      chars = quote :: path ++ [quote] := by
  cases clue with
  | text =>
      simp only [lexeme?] at h
      split at h
      · rename_i hstring
        exact ⟨hstring, hshows⟩
      · split at h <;> cases h
  | close no => cases hshows
  | mark ch nexts =>
      simp only [lexeme?] at h
      split at h
      · cases h
      · split at h <;> cases h
  | word w => cases literal <;> cases h
  | name no => cases literal <;> cases h

end Clue

/-! ## Texts that an outline fits -/

/-- The cursor stands at the place of an outline in a text that the outline fits and that a line break
and `rest` follow; `offset` tells where each place of the outline is. -/
inductive Stands (offset : Nat → Nat) (lineBreak : List Char) (rest : List Glyph) :
    Outline → Cursor → Prop where
  | nil {place : Nat} {front : List Char} (hplace : bytesOf front = offset place) :
      Stands offset lineBreak rest ⟨place, []⟩ (here front lineBreak rest)
  | token {place : Nat} {clue : Clue} {clues : List Clue} {front gap chars back : List Char}
      (hplace : bytesOf front = offset place) (hgap : gap = [] ∨ gap = [' '])
      (hbefore : bytesOf (front ++ gap) = offset (before place))
      (hshows : clue.Shows chars (back.map glyphOf ++ rest))
      (hmore : Stands offset lineBreak rest ⟨before place + 1, clues⟩ (here (front ++ gap ++ chars) back rest)) :
      Stands offset lineBreak rest ⟨place, clue :: clues⟩ (here front (gap ++ (chars ++ back)) rest)
  | close {place : Nat} {no : Refused} {front : List Char}
      (hplace : bytesOf front = offset place) (heven : place % 2 = 0) (hbreak : IsBreak lineBreak)
      (hfollows : Follows no (upcoming rest)) :
      Stands offset lineBreak rest ⟨place, [.close no]⟩ (here front lineBreak rest)
  | closed {place : Nat} {no : Refused} {c : Cursor} (hodd : place % 2 = 1)
      (hsettled : c.Settled) (hfollows : Follows no c.rest) :
      Stands offset lineBreak rest ⟨place, [.close no]⟩ c

section

variable {offset : Nat → Nat} {lineBreak : List Char} {rest : List Glyph} {o : Outline} {c : Cursor}

theorem before_before (place : Nat) : before (before place) = before place := by
  unfold before
  omega

theorem Stands.offset_eq (h : Stands offset lineBreak rest o c) (hknown : o.known = true) :
    c.offset = offset o.place := by
  cases h with
  | nil hplace => exact hplace
  | token hplace => exact hplace
  | close hplace => exact hplace
  | closed hodd => simp [Outline.known, hodd] at hknown

theorem skips_gap (front : List Char) {gap chars back : List Char} (hgap : gap = [] ∨ gap = [' '])
    (h : (here (front ++ gap) (chars ++ back) rest).Settled) :
    Skips 1 (here front (gap ++ (chars ++ back)) rest) (here (front ++ gap) (chars ++ back) rest) := by
  rcases hgap with rfl | rfl
  · rw [List.append_nil] at h ⊢
    exact skips_settled h
  · exact skips_blank rfl h (Nat.le_refl 1)

/-- The cursor before the next token. -/
theorem Stands.settle (h : Stands offset lineBreak rest o c) (hne : o.clues ≠ []) :
    ∃ c', Comes (rest.length + 2) c c' ∧ Stands offset lineBreak rest o.settle c' ∧
      (o.settle.known = true → Skips (rest.length + 2) c c') := by
  cases h with
  | nil => exact absurd rfl hne
  | @token place clue clues front gap chars back hplace hgap hbefore hshows hmore =>
      have hskips := (skips_gap front hgap hshows.settled).mono (show 1 ≤ rest.length + 2 by omega)
      refine ⟨here (front ++ gap) ([] ++ (chars ++ back)) rest, hskips.comes, ?_, fun _ => hskips⟩
      refine .token hbefore (.inl rfl) ?_ hshows ?_
      · rw [before_before, List.append_nil, hbefore]
      · rw [before_before, List.append_nil]
        exact hmore
  | @close place no front hplace heven hbreak hfollows =>
      obtain ⟨c', hcomes, hsettled, hrest⟩ := comes_break front rest hbreak
      have hodd : before place % 2 = 1 := by
        unfold before
        omega
      refine ⟨c', hcomes, .closed hodd hsettled (hrest ▸ hfollows), fun hknown => ?_⟩
      simp [Outline.known, Outline.settle, hodd] at hknown
  | @closed place no c hodd hsettled hfollows =>
      have hskips : Skips (rest.length + 2) c c := skips_settled hsettled
      have hodd' : before place % 2 = 1 := by
        unfold before
        omega
      exact ⟨c, hskips.comes, .closed hodd' hsettled hfollows, fun _ => hskips⟩

end

end Syntax

end ImportAssist
