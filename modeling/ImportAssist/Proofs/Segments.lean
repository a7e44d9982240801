import ImportAssist.Proofs.WholeTokens

/-!
# Texts of known tokens

A text that is known as a row of tokens, with a gap in front of each, is read token by token. How a token is
read depends on what follows it in one way only: a word must not go on (`Segment.Stands`). So the text
behind a row may be exchanged, as long as it does not go on with a word where the old one did not
(`Fits.exchange`).

A rule for one token is a test of tokens (`ReadsToken`). It reads the tokens that pass, in a row or in the
text that it has read.
-/

namespace ImportAssist

namespace Syntax

open Grammar (Production)
open Utf8 (glyphOf)

/-! ## Segments -/

/-- A token without the gap in front of it. -/
inductive Segment where
  | word (chars : List Char)
  | mark (ch : Char)
  | quoted (chars : List Char)
  deriving DecidableEq

namespace Segment

def chars : Segment → List Char
  | word chars | quoted chars => chars
  | mark ch => [ch]

/-- The marks of an import declaration. -/
def marks : List Char := ['\x7b', '\x7d', ',', '*']

/-- A token in front of a text. -/
def Stands (behind : List Char) : Segment → Prop
  | word chars => IsWhole chars ∧ EndsWord (behind.map glyphOf)
  | mark ch => ch ∈ marks
  | quoted chars => IsString chars

/-- The characters that a token may start with. -/
def MayStart (ch : Char) : Segment → Prop
  | word _ => Lexeme.isWordGlyph (glyphOf ch) = true ∨ ch = '\\'
  | mark ch' => ch = ch'
  | quoted _ => ch = '\x27' ∨ ch = '"'

/-- How long the word ahead is, if the token is one. -/
def wordLength : Segment → Nat
  | word chars => chars.length
  | _ => 0

/-- How long the string ahead is, if the token is one. -/
def stringLength? : Segment → Option Nat
  | quoted chars => some chars.length
  | _ => none

variable {s : Segment} {behind behind' : List Char} {ch : Char}

theorem mem_marks (h : ch ∈ marks) : ch = '\x7b' ∨ ch = '\x7d' ∨ ch = ',' ∨ ch = '*' := by
  simpa [marks] using h

theorem Stands.head (h : s.Stands behind) : ∃ ch more, s.chars = ch :: more ∧ s.MayStart ch := by
  cases s with
  | word chars =>
      obtain ⟨ch, more, rfl⟩ := List.exists_cons_of_ne_nil h.1.1
      exact ⟨ch, more, rfl, h.1.head⟩
  | mark ch => exact ⟨ch, [], rfl, rfl⟩
  | quoted chars =>
      obtain ⟨ch, more, rfl, hquote⟩ := IsString.head h
      exact ⟨ch, more, rfl, hquote⟩

theorem Stands.starts (h : s.Stands behind) : Starts ((s.chars ++ behind).map glyphOf) := by
  cases s with
  | word chars =>
      obtain ⟨hword, -⟩ := h
      obtain ⟨ch, more, rfl⟩ := List.exists_cons_of_ne_nil hword.1
      refine starts_cons ?_ ?_
      · rcases hword.head with hglyph | rfl
        · simp only [Lexeme.isWordGlyph, glyphOf, Bool.and_eq_true, Bool.not_eq_true'] at hglyph
          exact hglyph.1.2
        · rfl
      · rintro rfl
        exact absurd hword.head (by decide)
  | mark ch =>
      have hmark : Lexeme.isBlank ch = false ∧ ch ≠ '/' := by
        rcases mem_marks h with rfl | rfl | rfl | rfl <;> decide
      exact starts_cons hmark.1 hmark.2
  | quoted chars =>
      obtain ⟨ch, more, rfl, rfl | rfl⟩ := IsString.head h
      · exact starts_cons rfl (by decide)
      · exact starts_cons rfl (by decide)

/-- A word goes on in front of another word only. -/
theorem Stands.endsWord (h : s.Stands behind)
    (hends : EndsWord ((s.chars ++ behind).map glyphOf)) : EndsWord ((s.chars ++ behind').map glyphOf) := by
  rw [List.map_append] at hends ⊢
  cases s with
  | word chars =>
      exact absurd hends (h.1.not_endsWord h.2)
  | mark ch =>
      have hmark : Lexeme.isWordGlyph (glyphOf ch) = false ∧ ch ≠ '\\' := by
        rcases mem_marks h with rfl | rfl | rfl | rfl <;> decide
      exact endsWord_cons hmark.1 hmark.2
  | quoted chars =>
      obtain ⟨ch, more, rfl, rfl | rfl⟩ := IsString.head h
      · exact endsWord_cons rfl (by decide)
      · exact endsWord_cons rfl (by decide)

theorem Stands.word_eq (h : s.Stands behind) :
    Lexeme.word ((s.chars ++ behind).map glyphOf) = s.wordLength := by
  cases s with
  | word word =>
      rw [List.map_append]
      exact h.1.word_eq h.2
  | mark ch =>
      have hnone (hglyph : Lexeme.isWordGlyph (glyphOf ch) = false) (hescape : ch ≠ '\\') :
          Lexeme.word (((mark ch).chars ++ behind).map glyphOf) = 0 := Clue.not_word hglyph hescape
      rcases mem_marks h with rfl | rfl | rfl | rfl <;> exact hnone rfl (by decide)
  | quoted chars =>
      obtain ⟨ch, more, rfl, hquote⟩ := IsString.head h
      have hnone (hglyph : Lexeme.isWordGlyph (glyphOf ch) = false) (hescape : ch ≠ '\\') :
          Lexeme.word (((quoted (ch :: more)).chars ++ behind).map glyphOf) = 0 :=
        Clue.not_word hglyph hescape
      rcases hquote with rfl | rfl <;> exact hnone rfl (by decide)

theorem Stands.string_eq (h : s.Stands behind) :
    Lexeme.string ((s.chars ++ behind).map glyphOf) = s.stringLength? := by
  have hnone {ch : Char} {more : List Char} (hchars : s.chars = ch :: more)
      (hch : Lexeme.Class.string.starts ch = false) :
      Lexeme.string ((s.chars ++ behind).map glyphOf) = none := by
    rw [hchars]
    exact @Clue.scan_none _ .string _ hch
  cases s with
  | word word =>
      obtain ⟨ch, more, hchars, hhead⟩ := h.head
      refine hnone hchars ?_
      rcases hhead with hglyph | rfl
      · have hne (t : Char) (ht : Lexeme.isPunctuation t = true) : ch ≠ t := by
          rintro rfl
          simp [Lexeme.isWordGlyph, glyphOf, ht] at hglyph
        simp [Lexeme.Class.starts, hne '\x27' rfl, hne '"' rfl]
      · rfl
  | mark ch => rcases mem_marks h with rfl | rfl | rfl | rfl <;> exact hnone rfl rfl
  | quoted chars =>
      rw [List.map_append]
      exact IsString.string_eq h

end Segment

/-! ## Rows -/

/-- Tokens with the gaps in front of them. -/
abbrev Spaced := List (List Char × Segment)

def textOf (tokens : Spaced) : List Char := tokens.flatMap fun token => token.1 ++ token.2.chars

/-- Each of the tokens stands in front of the others and of a text behind them. -/
def Fits (behind : List Char) : Spaced → Prop
  | [] => True
  | (gap, s) :: tokens => Gap gap ∧ s.Stands (textOf tokens ++ behind) ∧ Fits behind tokens

section

variable {gap : List Char} {s : Segment} {tokens more : Spaced} {behind behind' : List Char}

@[simp] theorem textOf_nil : textOf [] = [] := rfl

@[simp] theorem textOf_cons : textOf ((gap, s) :: tokens) = gap ++ (s.chars ++ textOf tokens) := by
  simp [textOf]

@[simp] theorem textOf_append : textOf (tokens ++ more) = textOf tokens ++ textOf more :=
  List.flatMap_append

/-- A token of a row in front of a text. -/
theorem textOf_cons_append :
    textOf ((gap, s) :: tokens) ++ behind = gap ++ (s.chars ++ (textOf tokens ++ behind)) := by
  simp

theorem fits_append : Fits behind (tokens ++ more) ↔
    Fits (textOf more ++ behind) tokens ∧ Fits behind more := by
  induction tokens with
  | nil => simp [Fits]
  | cons token tokens ih => simp [Fits, ih, and_assoc]

/-- A word ends in front of a row whatever stands behind the row, if it ends there at all. -/
theorem endsWord_textOf (h : Fits behind tokens)
    (hends : EndsWord (behind.map glyphOf) → EndsWord (behind'.map glyphOf))
    (hhere : EndsWord ((textOf tokens ++ behind).map glyphOf)) :
    EndsWord ((textOf tokens ++ behind').map glyphOf) := by
  cases tokens with
  | nil => exact hends hhere
  | cons token tokens =>
      obtain ⟨gap, s⟩ := token
      obtain ⟨hgap, hs, -⟩ := h
      rw [textOf_cons_append, List.map_append] at hhere ⊢
      refine hgap.endsWord fun hnil => hs.endsWord ?_
      subst hnil
      exact hhere

/-- A row stands at the front of a text. -/
def Spans (tokens : Spaced) (text rest : List Char) : Prop := text = textOf tokens ++ rest ∧ Fits rest tokens

theorem spans_nil (text : List Char) : Spans [] text text := ⟨rfl, trivial⟩

theorem spans_singleton (hgap : Gap gap) (hs : s.Stands behind) :
    Spans [(gap, s)] (gap ++ (s.chars ++ behind)) behind := ⟨by simp, hgap, hs, trivial⟩

theorem Spans.append {text middle rest : List Char} (h : Spans tokens text middle)
    (hmore : Spans more middle rest) : Spans (tokens ++ more) text rest := by
  obtain ⟨rfl, hfits⟩ := h
  obtain ⟨rfl, hfitsmore⟩ := hmore
  exact ⟨by simp, fits_append.mpr ⟨hfits, hfitsmore⟩⟩

/-- A gap in front of a row is one of its first token. -/
theorem Spans.behind_gap {text rest first : List Char} (h : Spans ((first, s) :: tokens) text rest)
    (hgap : Gap gap) : Spans ((gap ++ first, s) :: tokens) (gap ++ text) rest := by
  obtain ⟨rfl, hfits⟩ := h
  exact ⟨by simp, hgap.append hfits.1, hfits.2⟩

/-- The text behind a row may be exchanged. -/
theorem Fits.exchange (h : Fits behind tokens)
    (hends : EndsWord (behind.map glyphOf) → EndsWord (behind'.map glyphOf)) : Fits behind' tokens := by
  induction tokens with
  | nil => trivial
  | cons token tokens ih =>
      obtain ⟨gap, s⟩ := token
      obtain ⟨hgap, hs, htokens⟩ := h
      refine ⟨hgap, ?_, ih htokens⟩
      cases s with
      | word chars => exact ⟨hs.1, endsWord_textOf htokens hends hs.2⟩
      | _ => exact hs

end

/-! ## Reading a token -/

section

variable {d : Dialect} {p : Place} {rule : Production} {gap behind : List Char} {s : Segment}
  {tokens : Spaced}

/-- A token is read by a rule, or refused. -/
theorem readText_segment {scan : List Glyph → Option Nat} (hscan : rule.scan? = some scan)
    (hraw : rule.isRaw = false) (hfits : Fits behind ((gap, s) :: tokens)) (reads : Bool)
    (h : scan ((s.chars ++ (textOf tokens ++ behind)).map glyphOf) =
      if reads then some s.chars.length else none) :
    readText d p rule (textOf ((gap, s) :: tokens) ++ behind) =
      if reads then some (⟨gap ++ s.chars, fun offset => commentsOf offset gap ++
        rule.tokenNodes (offset + bytesOf gap) (offset + bytesOf gap + bytesOf s.chars)⟩,
          textOf tokens ++ behind)
      else none := by
  rw [textOf_cons_append, readText_token hscan hraw hfits.1 hfits.2.1.starts, h]
  cases reads with
  | false => rfl
  | true => simp

/-- A rule for a word reads that word and nothing else. -/
theorem readText_keyword {text : String} (htext : text ≠ "") (hfits : Fits behind ((gap, s) :: tokens)) :
    readText d p (.keyword text) (textOf ((gap, s) :: tokens) ++ behind) =
      if s = .word text.toList then
        some (.token gap text.toList (Node.token text), textOf tokens ++ behind)
      else none := by
  have hs := hfits.2.1
  by_cases heq : s = .word text.toList
  · subst heq
    rw [if_pos rfl]
    refine readText_segment rfl rfl hfits true ?_
    have hliteral : Lexeme.literal text.toList
        (((Segment.word text.toList).chars ++ (textOf tokens ++ behind)).map glyphOf) = true := by
      rw [List.map_append]
      exact literal_here _ _
    simp only [hs.word_eq, hliteral, Segment.wordLength, beq_self_eq_true, Bool.and_self]
    rfl
  · rw [if_neg heq]
    have hnot : (Lexeme.literal text.toList ((s.chars ++ (textOf tokens ++ behind)).map glyphOf) &&
        s.wordLength == text.toList.length) = false := by
      rw [Bool.and_eq_false_iff]
      by_cases hlength : s.wordLength = text.toList.length
      · refine .inl (Bool.eq_false_iff.mpr fun hliteral => heq ?_)
        cases s with
        | word word =>
            rw [List.map_append] at hliteral
            exact congrArg Segment.word (literal_eq hliteral hlength)
        | _ => exact absurd hlength.symm (by simpa [Segment.wordLength] using htext)
      · exact .inr (by simpa using hlength)
    refine readText_segment rfl rfl hfits false ?_
    simp only [hs.word_eq, hnot, Bool.false_eq_true, if_false]

/-- A rule for names reads words. -/
theorem readText_name {kind : Kind} {except : List String} (hfits : Fits behind ((gap, s) :: tokens)) :
    readText d p (.name kind except) (textOf ((gap, s) :: tokens) ++ behind) =
      match s with
      | .word word =>
        if String.ofList word ∈ except then none
        else some (.token gap word (Node.leaf kind), textOf tokens ++ behind)
      | _ => none := by
  have hs := hfits.2.1
  have hword := hs.word_eq
  cases s with
  | word word =>
      have hpos : (word.length == 0) = false := by simpa using hs.1.1
      have htake : ((((Segment.word word).chars ++ (textOf tokens ++ behind)).map glyphOf).take
          word.length).map Glyph.char = word := by
        rw [List.map_append, List.take_left' (by simp [Segment.chars]), List.map_map]
        simp [Segment.chars, Function.comp_def, glyphOf]
      have hcontains : except.contains (String.ofList word) = decide (String.ofList word ∈ except) := by
        simp
      by_cases hmem : String.ofList word ∈ except
      · dsimp only
        rw [if_pos hmem]
        refine readText_segment rfl rfl hfits false ?_
        simp only [hword, Segment.wordLength, htake, hcontains, hmem, decide_true, Bool.or_true,
          Bool.false_eq_true, if_true, if_false]
      · dsimp only
        rw [if_neg hmem]
        refine readText_segment rfl rfl hfits true ?_
        simp only [hword, Segment.wordLength, htake, hcontains, hpos, hmem, decide_false, Bool.or_self]
        rfl
  | mark ch | quoted chars =>
      refine readText_segment rfl rfl hfits false ?_
      simp only [hword, Segment.wordLength]
      rfl

/-- A rule for strings reads strings. -/
theorem readText_string (hfits : Fits behind ((gap, s) :: tokens)) :
    readText d p Grammar.string (textOf ((gap, s) :: tokens) ++ behind) =
      match s with
      | .quoted chars => some (.token gap chars (Node.leaf .string), textOf tokens ++ behind)
      | _ => none := by
  have hstring := hfits.2.1.string_eq
  cases s with
  | quoted chars => exact readText_segment rfl rfl hfits true hstring
  | word word => exact readText_segment rfl rfl hfits false hstring
  | mark ch => exact readText_segment rfl rfl hfits false hstring

/-- A rule for a mark refuses what starts with another character. -/
theorem readText_mark_none {text : String} {notBefore : List Char} {t : Char} {ts : List Char}
    (htext : text.toList = t :: ts) (ht : Lexeme.isPunctuation t = true) (hquote : t ∉ ['\x27', '"', '\\'])
    (hfits : Fits behind ((gap, s) :: tokens)) (hne : s ≠ .mark t) :
    readText d p (.mark text notBefore) (textOf ((gap, s) :: tokens) ++ behind) = none := by
  obtain ⟨ch, more, hchars, hhead⟩ := hfits.2.1.head
  have hother : ch ≠ t := by
    rintro rfl
    cases s with
    | word word =>
        rcases hhead with hglyph | rfl
        · simp [Lexeme.isWordGlyph, glyphOf, ht] at hglyph
        · simp at hquote
    | mark ch' => exact hne (congrArg Segment.mark hhead.symm)
    | quoted chars => rcases hhead with rfl | rfl <;> simp at hquote
  have hliteral : Lexeme.literal text.toList ((s.chars ++ (textOf tokens ++ behind)).map glyphOf) = false := by
    rw [htext, hchars]
    exact literal_other hother _
  refine readText_segment rfl rfl hfits false ?_
  simp only [hliteral, Bool.false_and, Bool.false_eq_true, if_false]

/-- A rule for a mark reads that mark and nothing else. -/
theorem readText_sign {text : String} {ch : Char} (htext : text.toList = [ch]) (hch : ch ∈ Segment.marks)
    (hfits : Fits behind ((gap, s) :: tokens)) :
    readText d p (Grammar.sign text) (textOf ((gap, s) :: tokens) ++ behind) =
      if s = .mark ch then some (.token gap [ch] (Node.token text), textOf tokens ++ behind) else none := by
  by_cases heq : s = .mark ch
  · subst heq
    rw [if_pos rfl]
    refine readText_segment rfl rfl hfits true ?_
    have hnext (gs : List Glyph) : Lexeme.nextIn [] gs = false := by
      cases gs <;> simp [Lexeme.nextIn]
    simp [htext, hnext, Segment.chars, Lexeme.literal, glyphOf]
  · have hmark : Lexeme.isPunctuation ch = true ∧ ch ∉ ['\x27', '"', '\\'] := by
      rcases Segment.mem_marks hch with rfl | rfl | rfl | rfl <;> decide
    rw [if_neg heq]
    exact readText_mark_none htext hmark.1 hmark.2 hfits heq

/-- The gap in front of a node is none of its first token. -/
theorem readText_node_row {kind : Kind} (hbounded : IsBounded rule) (hfits : Fits behind ((gap, s) :: tokens)) :
    readText d p (.node kind rule) (textOf ((gap, s) :: tokens) ++ behind) =
      (readText d p rule (textOf (([], s) :: tokens) ++ behind)).map fun r =>
        (Part.node kind gap r.1, r.2) := by
  rw [textOf_cons_append, textOf_cons_append, List.nil_append, readText_node hbounded hfits.1 hfits.2.1.starts]

theorem Fits.without_gap (h : Fits behind ((gap, s) :: tokens)) : Fits behind (([], s) :: tokens) :=
  ⟨.nil, h.2⟩

end

/-! ## Tokens that were read -/

section

variable {d : Dialect} {p : Place} {a : Part} {text rest : List Char} {name : String}

theorem readText_keyword_inv (hname : name ≠ "") (h : readText d p (.keyword name) text = some (a, rest)) :
    ∃ gap, Spans [(gap, .word name.toList)] text rest := by
  have hne : name.toList ≠ [] := by simpa using hname
  obtain ⟨gap, more, n, rfl, hgap, -, hscan, rfl⟩ := readText_token_inv rfl rfl (by simpa [Rule.bites] using hname) h
  simp only [Option.ite_none_right_eq_some, Option.some.injEq, Bool.and_eq_true, beq_iff_eq] at hscan
  obtain ⟨⟨hliteral, hword⟩, rfl⟩ := hscan
  obtain ⟨behind, rfl⟩ := literal_split hliteral
  rw [List.map_append] at hword
  rw [List.drop_left' rfl]
  exact ⟨gap, @spans_singleton gap (.word name.toList) behind hgap (isWhole_of_word hne hword)⟩

theorem readText_name_inv {kind : Kind} {except : List String}
    (h : readText d p (.name kind except) text = some (a, rest)) :
    ∃ gap word, Spans [(gap, .word word)] text rest ∧ String.ofList word ∉ except := by
  obtain ⟨gap, more, n, rfl, hgap, -, hscan, rfl⟩ := readText_token_inv rfl rfl rfl h
  dsimp only at hscan
  split at hscan
  · cases hscan
  · rename_i hnot
    obtain rfl := Option.some.inj hscan
    rw [Bool.or_eq_true, not_or] at hnot
    generalize hn : Lexeme.word (more.map glyphOf) = n at hnot ⊢
    have hle : n ≤ more.length := by
      rw [← hn]
      simpa using @word_le_length (more.map glyphOf)
    have hlength : (more.take n).length = n := by rw [List.length_take, Nat.min_eq_left hle]
    have hchars : ((more.map glyphOf).take n).map Glyph.char = more.take n := by
      rw [← List.map_take, List.map_map]
      simp [Function.comp_def, glyphOf]
    refine ⟨gap, more.take n, ⟨by simp [Segment.chars], hgap, ?_, trivial⟩, ?_⟩
    · have hne : more.take n ≠ [] := by
        intro hnil
        rw [hnil] at hlength
        exact hnot.1 (by simp [← hlength])
      refine isWhole_of_word hne ?_
      rw [textOf_nil, List.nil_append, ← List.map_append, List.take_append_drop, hn, hlength]
    · simpa [hchars] using hnot.2

theorem readText_sign_inv {ch : Char} (hname : name.toList = [ch]) (hch : ch ∈ Segment.marks)
    (h : readText d p (Grammar.sign name) text = some (a, rest)) :
    ∃ gap, Spans [(gap, .mark ch)] text rest := by
  obtain ⟨gap, more, n, rfl, hgap, -, hscan, rfl⟩ :=
    readText_token_inv rfl rfl (by simp [Grammar.sign, Rule.bites, hname]) h
  simp only [Option.ite_none_right_eq_some, Option.some.injEq, Bool.and_eq_true] at hscan
  obtain ⟨⟨hliteral, -⟩, rfl⟩ := hscan
  obtain ⟨behind, rfl⟩ := literal_split hliteral
  rw [List.drop_left' rfl, hname]
  exact ⟨gap, @spans_singleton gap (.mark ch) behind hgap hch⟩

theorem readText_string_inv (h : readText d p Grammar.string text = some (a, rest)) :
    ∃ gap chars, Spans [(gap, .quoted chars)] text rest := by
  obtain ⟨gap, more, n, rfl, hgap, -, hscan, rfl⟩ := readText_token_inv rfl rfl rfl h
  have hle : n ≤ more.length := by
    rw [Lexeme.Class.scan, Lexeme.string.eq_def] at hscan
    split at hscan
    · rename_i g gs hcons
      split at hscan
      · obtain ⟨m, hm, rfl⟩ := Option.map_eq_some_iff.mp hscan
        have hbounds := (toQuote_bounds hm).2
        have hlength := congrArg List.length hcons
        simp only [List.length_map, List.length_cons] at hlength
        omega
      · cases hscan
    · cases hscan
  refine ⟨gap, more.take n, by simp [Segment.chars], hgap, ?_, trivial⟩
  refine @isString_of_string ((more.drop n).map glyphOf) _ ?_
  rw [← List.map_append, List.take_append_drop, List.length_take, Nat.min_eq_left hle]
  exact hscan

end

/-! ## Rules for one token -/

/-- What a token behind a gap is read as, if it passes a test. -/
abbrev TokenTest := Segment → Option (List Char → Part)

/-- A rule that reads one token, which passes a test. -/
structure ReadsToken (d : Dialect) (p : Place) (rule : Production) (test : TokenTest) : Prop where
  bounded : IsBounded rule
  reads : ∀ {gap behind : List Char} {s : Segment} {tokens : Spaced}, Fits behind ((gap, s) :: tokens) →
    readText d p rule (textOf ((gap, s) :: tokens) ++ behind) =
      (test s).map fun part => (part gap, textOf tokens ++ behind)
  taken : ∀ {text rest : List Char} {a : Part}, readText d p rule text = some (a, rest) →
    ∃ gap s, Spans [(gap, s)] text rest ∧ (test s).isSome = true

/-- A word. -/
def wordTest (text : String) : TokenTest := fun s =>
  if s = .word text.toList then some fun gap => .token gap text.toList (Node.token text) else none

/-- A mark. -/
def markTest (text : String) (ch : Char) : TokenTest := fun s =>
  if s = .mark ch then some fun gap => .token gap [ch] (Node.token text) else none

/-- A word that is none of some words. -/
def nameTest (except : List String) : TokenTest
  | .word word =>
    if String.ofList word ∈ except then none else some fun gap => .token gap word (Node.leaf .identifier)
  | _ => none

/-- A string. -/
def stringTest : TokenTest
  | .quoted chars => some fun gap => .token gap chars (Node.leaf .string)
  | _ => none

/-- A token in a role. -/
def TokenTest.withRole (test : TokenTest) (role : Role) : TokenTest := fun s =>
  (test s).map fun part gap => (part gap).withRole role

/-- A token that passes one of two tests. -/
def TokenTest.or (test other : TokenTest) : TokenTest := fun s => (test s).or (other s)

section

variable {d : Dialect} {p : Place} {rule other : Production} {test otherTest : TokenTest}

theorem readsToken_keyword {text : String} (htext : text ≠ "") :
    ReadsToken d p (.keyword text) (wordTest text) where
  bounded := rfl
  reads hfits := by
    rw [readText_keyword htext hfits, wordTest]
    split <;> rfl
  taken h := by
    obtain ⟨gap, hspans⟩ := readText_keyword_inv htext h
    exact ⟨gap, _, hspans, by simp [wordTest]⟩

theorem readsToken_sign {text : String} {ch : Char} (htext : text.toList = [ch]) (hch : ch ∈ Segment.marks) :
    ReadsToken d p (Grammar.sign text) (markTest text ch) where
  bounded := rfl
  reads hfits := by
    rw [readText_sign htext hch hfits, markTest]
    split <;> rfl
  taken h := by
    obtain ⟨gap, hspans⟩ := readText_sign_inv htext hch h
    exact ⟨gap, _, hspans, by simp [markTest]⟩

theorem readsToken_name (except : List String) :
    ReadsToken d p (.name .identifier except) (nameTest except) where
  bounded := rfl
  reads {_ _ s _} hfits := by
    rw [readText_name hfits]
    cases s with
    | word word =>
        simp only [nameTest]
        split <;> rfl
    | _ => rfl
  taken h := by
    obtain ⟨gap, word, hspans, hexcept⟩ := readText_name_inv h
    exact ⟨gap, .word word, hspans, by simp [nameTest, hexcept]⟩

theorem readsToken_string : ReadsToken d p Grammar.string stringTest where
  bounded := rfl
  reads {_ _ s _} hfits := by
    rw [readText_string hfits]
    cases s <;> rfl
  taken h := by
    obtain ⟨gap, chars, hspans⟩ := readText_string_inv h
    exact ⟨gap, .quoted chars, hspans, rfl⟩

theorem readsToken_never : ReadsToken d p Grammar.never fun _ => none where
  bounded := rfl
  reads _ := readText_alt_nil
  taken h := by
    rw [Grammar.never, readText_alt_nil] at h
    cases h

theorem ReadsToken.role (h : ReadsToken d p rule test) (role : Role) :
    ReadsToken d p (.role role rule) (test.withRole role) where
  bounded := h.bounded
  reads {_ _ s _} hfits := by
    rw [readText_role h.bounded, h.reads hfits, TokenTest.withRole]
    cases test s <;> rfl
  taken hread := by
    obtain ⟨b, hb⟩ := readText_role_inv h.bounded hread
    obtain ⟨gap, s, hspans, htest⟩ := h.taken hb
    exact ⟨gap, s, hspans, by simpa [TokenTest.withRole] using htest⟩

theorem ReadsToken.alt (h : ReadsToken d p rule test) (hother : ReadsToken d p other otherTest)
    (hbounded : IsBounded (.alt [rule, other])) :
    ReadsToken d p (.alt [rule, other]) (test.or otherTest) where
  bounded := hbounded
  reads {_ _ s _} hfits := by
    rw [readText_alt_cons hbounded, readText_alt_cons hbounded.alt.2, readText_alt_nil, Option.or_none,
      h.reads hfits, hother.reads hfits, TokenTest.or]
    cases test s <;> rfl
  taken {text rest a} hread := by
    obtain ⟨choice, hchoice, hchosen⟩ := readText_alt_inv hbounded hread
    rcases List.mem_pair.mp hchoice with heq | heq
    · obtain ⟨gap, s, hspans, htest⟩ := h.taken (heq ▸ hchosen)
      exact ⟨gap, s, hspans, by simp [TokenTest.or, htest]⟩
    · obtain ⟨gap, s, hspans, htest⟩ := hother.taken (heq ▸ hchosen)
      exact ⟨gap, s, hspans, by simp [TokenTest.or, htest]⟩

variable {rules : List Production} {gap behind : List Char} {s : Segment} {tokens : Spaced}

/-- A row of rules reads the first token and goes on behind it. -/
theorem ReadsToken.seq (h : ReadsToken d p rule test) (hbounded : IsBounded (.seq (rule :: rules)))
    (hfits : Fits behind ((gap, s) :: tokens)) :
    readText d p (.seq (rule :: rules)) (textOf ((gap, s) :: tokens) ++ behind) =
      (test s).bind fun part => (readText d p (.seq rules) (textOf tokens ++ behind)).map fun more =>
        (part gap ++ more.1, more.2) := by
  rw [readText_seq_cons hbounded, h.reads hfits]
  cases test s <;> rfl

end

end Syntax

end ImportAssist
