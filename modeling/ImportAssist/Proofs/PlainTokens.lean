import ImportAssist.Proofs.PlainText

/-!
# Tokens of plain text

Of a plain text and a literal behind it every token is scanned in the same way, whatever the literal says and
whatever follows it (`Plain.tameToken`). Most tokens end in the text (`Plain.literal`, `Plain.word`,
`Plain.number`). A string may be the literal itself (`Plain.string`), and a group of brackets passes over it
(`Plain.group`).
-/

namespace ImportAssist

open Syntax
open Utf8 (glyphOf)

section

variable {quote ch : Char} {gap more token : List Char} {T : List Glyph}

/-! ## Numbers -/

/-- Whether a character is a digit, or an underscore in front of one, is known from the text. -/
theorem digitsFrom_cons {test : Char → Bool} (hmark : test quote = false) (start : Bool) (ch : Char)
    (more : List Char) (hT : StartsWith quote T) :
    Lexeme.digitsFrom test start ((ch :: more).map glyphOf ++ T) =
      if test ch || (ch == '_' && !start && more.head?.any test) then
        Lexeme.digitsFrom test false (more.map glyphOf ++ T) + 1
      else 0 := by
  obtain ⟨rest, rfl⟩ := hT
  rw [List.map_cons, List.cons_append, Lexeme.digitsFrom.eq_def]
  cases more with
  | nil =>
      by_cases hdigit : test ch <;> simp [glyphOf, hdigit, hmark]
  | cons next more =>
      by_cases hdigit : test ch <;> simp [glyphOf, hdigit]

/-- Digits of a plain text. -/
theorem Plain.digitsFrom (h : Plain gap) (hquote : quote = '\x27' ∨ quote = '"') {test : Char → Bool}
    (htest : ∀ ch, test ch = true → isOrdinary ch = true) :
    ∀ start, ∃ token more, Takes quote (Lexeme.digitsFrom test start) gap token more := by
  have hnot {ch : Char} (hch : isOrdinary ch = false) : test ch = false :=
    Bool.eq_false_iff.mpr fun heq => by simp [htest ch heq] at hch
  have hends {ch : Char} {rest : List Glyph} (start : Bool) (hch : isOrdinary ch = false) :
      Lexeme.digitsFrom test start (glyphOf ch :: rest) = 0 := by
    have hline : ch ≠ '_' := by
      rintro rfl
      cases hch
    unfold Lexeme.digitsFrom
    simp [glyphOf, hnot hch, hline]
  have hmark : isOrdinary quote = false := by rcases hquote with rfl | rfl <;> rfl
  induction h with
  | nil =>
      refine fun start => ⟨[], [], rfl, .nil, fun hT => ?_⟩
      obtain ⟨rest, rfl⟩ := hT
      exact hends start hmark
  | @ordinary ch more hch hprefix hmore ih =>
      intro start
      obtain ⟨token, rest, rfl, hplain, heq⟩ := ih false
      by_cases hdigit : (test ch || (ch == '_' && !start && (token ++ rest).head?.any test)) = true
      · refine ⟨ch :: token, rest, rfl, hplain, fun hT => ?_⟩
        rw [digitsFrom_cons (hnot hmark) start ch _ hT, if_pos hdigit, heq hT, List.length_cons]
      · refine ⟨[], ch :: (token ++ rest), rfl, .ordinary hch hprefix hmore, fun hT => ?_⟩
        rw [digitsFrom_cons (hnot hmark) start ch _ hT, if_neg hdigit, List.length_nil]
  | @quoted q text more hq htext hmore _ =>
      refine fun start => ⟨[], _, rfl, .quoted hq htext hmore, fun _ => hends start ?_⟩
      rcases hq with rfl | rfl <;> rfl
  | line htext hch hmore _ =>
      exact fun start => ⟨[], _, rfl, .line htext hch hmore, fun _ => hends start rfl⟩
  | block htext hmore _ =>
      exact fun start => ⟨[], _, rfl, .block htext hmore, fun _ => hends start rfl⟩

theorem ordinary_of_test {test : Char → Bool}
    (h : ("\x27\"\x60/<\\".toList.all fun ch => !test ch) = true) (ch : Char) (hch : test ch = true) :
    isOrdinary ch = true := by
  cases hord : isOrdinary ch with
  | true => rfl
  | false =>
      rw [isOrdinary, Bool.not_eq_false', List.contains_iff_mem] at hord
      have hnot := List.all_eq_true.mp h ch hord
      simp [hch] at hnot

theorem drop_token (token more : List Char) (T : List Glyph) :
    ((token ++ more).map glyphOf ++ T).drop token.length = more.map glyphOf ++ T := by
  rw [List.map_append, List.append_assoc, List.drop_left' (by simp)]

/-- Something is ahead: a quote, at least. -/
theorem ahead_cons (gap : List Char) (hT : StartsWith quote T) :
    ∃ ch rest, gap.map glyphOf ++ T = glyphOf ch :: rest := by
  cases gap with
  | nil =>
      obtain ⟨rest, rfl⟩ := hT
      exact ⟨quote, rest, rfl⟩
  | cons ch gap => exact ⟨ch, _, rfl⟩

/-- One of some characters is next, or none of them is. -/
theorem Plain.next (h : Plain gap) (hquote : quote = '\x27' ∨ quote = '"') {chars : List Char}
    (hchars : unmarked chars = true) :
    (∃ ch more, gap = ch :: more ∧ chars.contains ch = true ∧ Plain more ∧
      ∀ T, Lexeme.nextIn chars (gap.map glyphOf ++ T) = true) ∨
    ∀ {T}, StartsWith quote T → Lexeme.nextIn chars (gap.map glyphOf ++ T) = false := by
  have hne {ch : Char} (hch : chars.contains ch = true) : ch ≠ '\x27' ∧ ch ≠ '"' ∧ ch ≠ '/' := by
    have hmem := List.all_eq_true.mp hchars ch (List.contains_iff_mem.mp hch)
    simpa [and_assoc] using hmem
  cases gap with
  | nil =>
      refine .inr fun hT => ?_
      obtain ⟨rest, rfl⟩ := hT
      refine Bool.eq_false_iff.mpr fun hnext => ?_
      obtain ⟨hsingle, hdouble, -⟩ := hne (show chars.contains quote = true from hnext)
      rcases hquote with rfl | rfl <;> contradiction
  | cons ch more =>
      cases hch : chars.contains ch with
      | true =>
          obtain ⟨hsingle, hdouble, hslash⟩ := hne hch
          exact .inl ⟨ch, more, rfl, hch, (h.tail ⟨hsingle, hdouble⟩ hslash).2.2, fun _ => hch⟩
      | false => exact .inr fun _ => hch

theorem Plain.bigSuffix (h : Plain gap) (hquote : quote = '\x27' ∨ quote = '"') :
    ∃ token more, Takes quote Lexeme.bigSuffix gap token more := by
  rcases @Plain.next _ _ h hquote ['n'] (by decide) with ⟨ch, more, rfl, -, hmore, hnext⟩ | hnot
  · exact ⟨[ch], more, rfl, hmore, fun {T} _ => by rw [Lexeme.bigSuffix, hnext T]; rfl⟩
  · exact ⟨[], gap, rfl, h, fun hT => by rw [Lexeme.bigSuffix, hnot hT]; rfl⟩

theorem Plain.digits (h : Plain gap) (hquote : quote = '\x27' ∨ quote = '"') {test : Char → Bool}
    (htest : ("\x27\"\x60/<\\".toList.all fun ch => !test ch) = true) :
    ∃ token more, Takes quote (Lexeme.digits test) gap token more :=
  h.digitsFrom hquote (ordinary_of_test htest) true

/-- The sign in front of an exponent. -/
theorem Plain.sign (h : Plain gap) (hquote : quote = '\x27' ∨ quote = '"') :
    ∃ token more, Takes quote (fun gs => if Lexeme.nextIn ['+', '-'] gs then 1 else 0) gap token more := by
  rcases @Plain.next _ _ h hquote ['+', '-'] (by decide) with ⟨ch, more, rfl, -, hmore, hnext⟩ | hnot
  · exact ⟨[ch], more, rfl, hmore, fun {T} _ => by rw [hnext T]; rfl⟩
  · exact ⟨[], gap, rfl, h, fun hT => by rw [hnot hT]; rfl⟩

theorem Plain.exponent (h : Plain gap) (hquote : quote = '\x27' ∨ quote = '"') :
    ∃ token more, Takes quote Lexeme.exponent gap token more := by
  rcases @Plain.next _ _ h hquote ['e', 'E'] (by decide) with ⟨ch, rest, rfl, hch, hrest, -⟩ | hnot
  · obtain ⟨sign, more, rfl, hmore, hsign⟩ := hrest.sign hquote
    obtain ⟨token, behind, rfl, hbehind, heq⟩ : ∃ token behind,
        Takes quote (Lexeme.digits Char.isDigit) more token behind := hmore.digits hquote (by decide)
    have hvalue {T : List Glyph} (hT : StartsWith quote T) :
        Lexeme.exponent ((ch :: (sign ++ (token ++ behind))).map glyphOf ++ T) =
          if 0 < token.length then token.length + sign.length + 1 else 0 := by
      have hchar : ((glyphOf ch).char == 'e' || (glyphOf ch).char == 'E') = true := by
        simpa [glyphOf] using hch
      have hsigned := hsign hT
      rw [List.map_cons, List.cons_append, Lexeme.exponent, if_pos hchar]
      dsimp only
      rw [hsigned, drop_token, heq hT]
    cases token with
    | nil => exact ⟨[], _, rfl, h, fun hT => hvalue hT⟩
    | cons digit token =>
        refine ⟨ch :: (sign ++ digit :: token), behind, by simp, hbehind, fun hT => ?_⟩
        rw [hvalue hT, List.length_cons, if_pos (Nat.succ_pos _)]
        simp
        omega
  · refine ⟨[], gap, rfl, h, fun hT => ?_⟩
    obtain ⟨ch, rest, heq⟩ := ahead_cons gap hT
    have hnext := hnot hT
    have hchar : ((glyphOf ch).char == 'e' || (glyphOf ch).char == 'E') = false := by
      rw [heq] at hnext
      simpa [Lexeme.nextIn, glyphOf] using hnext
    simp only [heq, Lexeme.exponent, hchar, Bool.false_eq_true, if_false, List.length_nil]

theorem Plain.decimal (h : Plain gap) (hquote : quote = '\x27' ∨ quote = '"') :
    Scans quote Lexeme.decimal gap := by
  obtain ⟨whole, more, rfl, hmore, hwhole⟩ : ∃ whole more,
      Takes quote (Lexeme.digits Char.isDigit) gap whole more := h.digits hquote (by decide)
  rcases @Plain.next _ _ hmore hquote ['.'] (by decide) with ⟨dot, more, rfl, -, hmore, hdot⟩ | hnot
  · obtain ⟨fraction, behind, rfl, hbehind, hfraction⟩ : ∃ fraction behind,
        Takes quote (Lexeme.digits Char.isDigit) more fraction behind := hmore.digits hquote (by decide)
    obtain ⟨power, rest, rfl, hrest, hpower⟩ := hbehind.exponent hquote
    have hvalue {T : List Glyph} (hT : StartsWith quote T) :
        Lexeme.decimal ((whole ++ dot :: (fraction ++ (power ++ rest))).map glyphOf ++ T) =
          if 0 < whole.length + fraction.length then
            some (whole.length + 1 + fraction.length + power.length)
          else none := by
      have hpast : ((dot :: (fraction ++ (power ++ rest))).map glyphOf ++ T).drop (fraction.length + 1) =
          (power ++ rest).map glyphOf ++ T := drop_token (dot :: fraction) (power ++ rest) T
      have hdrop : ((dot :: (fraction ++ (power ++ rest))).map glyphOf ++ T).drop 1 =
          (fraction ++ (power ++ rest)).map glyphOf ++ T := rfl
      rw [Lexeme.decimal]
      dsimp only
      rw [hwhole hT, drop_token, hdot T, if_pos rfl, hdrop, hfraction hT, hpast, hpower hT]
    by_cases hpos : 0 < whole.length + fraction.length
    · refine .inl ⟨whole ++ dot :: (fraction ++ power), rest, by simp, hrest, fun hT => ?_⟩
      rw [hvalue hT, if_pos hpos]
      simp
      omega
    · refine .inr fun hT => ?_
      rw [hvalue hT, if_neg hpos]
  · obtain ⟨power, rest, hpowered⟩ := hmore.exponent hquote
    obtain ⟨suffix, rest', hsuffixed⟩ := hmore.bigSuffix hquote
    have hvalue {T : List Glyph} (hT : StartsWith quote T) :
        Lexeme.decimal ((whole ++ more).map glyphOf ++ T) =
          if 0 < whole.length then
            if 0 < power.length then some (whole.length + power.length)
            else some (whole.length + suffix.length)
          else none := by
      rw [Lexeme.decimal]
      dsimp only
      rw [hwhole hT, drop_token, hnot hT, if_neg Bool.false_ne_true, hpowered.eq hT, hsuffixed.eq hT]
    by_cases hpos : 0 < whole.length
    · by_cases hpower : 0 < power.length
      · refine .inl ⟨whole ++ power, rest, ?_, hpowered.plain, fun hT => ?_⟩
        · rw [hpowered.split, List.append_assoc]
        · rw [hvalue hT, if_pos hpos, if_pos hpower, List.length_append]
      · refine .inl ⟨whole ++ suffix, rest', ?_, hsuffixed.plain, fun hT => ?_⟩
        · rw [hsuffixed.split, List.append_assoc]
        · rw [hvalue hT, if_pos hpos, if_neg hpower, List.length_append]
    · refine .inr fun hT => ?_
      rw [hvalue hT, if_neg hpos]

/-- The digits of a base are those that a test knows. -/
theorem radix_base {x : Char} (h : "xXoObB".toList.contains x = true) :
    ∃ test : Char → Bool, ("\x27\"\x60/<\\".toList.all fun ch => !test ch) = true ∧
      ∀ gs, Lexeme.radix (glyphOf '0' :: glyphOf x :: gs) =
        if 0 < Lexeme.digits test gs then some (Lexeme.digits test gs + 2) else none := by
  have hx : x = 'x' ∨ x = 'X' ∨ x = 'o' ∨ x = 'O' ∨ x = 'b' ∨ x = 'B' := by simpa using h
  rcases hx with rfl | rfl | rfl | rfl | rfl | rfl
  · exact ⟨Lexeme.isHexDigit, by decide, fun _ => rfl⟩
  · exact ⟨Lexeme.isHexDigit, by decide, fun _ => rfl⟩
  · exact ⟨fun c => '0' ≤ c && c ≤ '7', by decide, fun _ => rfl⟩
  · exact ⟨fun c => '0' ≤ c && c ≤ '7', by decide, fun _ => rfl⟩
  · exact ⟨fun c => c == '0' || c == '1', by decide, fun _ => rfl⟩
  · exact ⟨fun c => c == '0' || c == '1', by decide, fun _ => rfl⟩

theorem radix_none {z x : Char} {gs : List Glyph}
    (h : z ≠ '0' ∨ "xXoObB".toList.contains x = false) : Lexeme.radix (glyphOf z :: glyphOf x :: gs) = none := by
  rcases h with h | h
  · simp [Lexeme.radix, glyphOf, h]
  · have hx : x ≠ 'x' ∧ x ≠ 'X' ∧ x ≠ 'o' ∧ x ≠ 'O' ∧ x ≠ 'b' ∧ x ≠ 'B' := by simpa using h
    simp [Lexeme.radix, glyphOf, hx]

theorem Plain.radix (h : Plain gap) (hquote : quote = '\x27' ∨ quote = '"') :
    Scans quote Lexeme.radix gap := by
  rcases @Plain.next _ _ h hquote ['0'] (by decide) with ⟨zero, more, rfl, hzero, hmore, -⟩ | hnot
  · obtain rfl : zero = '0' := by simpa using hzero
    rcases @Plain.next _ _ hmore hquote "xXoObB".toList (by decide) with ⟨x, more, rfl, hx, hmore, -⟩ | hnot
    · obtain ⟨test, htest, heq⟩ := radix_base hx
      obtain ⟨token, rest, rfl, hrest, hdigits⟩ := hmore.digits hquote htest
      have hvalue {T : List Glyph} (hT : StartsWith quote T) :
          Lexeme.radix (('0' :: x :: (token ++ rest)).map glyphOf ++ T) =
            if 0 < token.length then some (token.length + 2) else none := by
        rw [List.map_cons, List.map_cons, List.cons_append, List.cons_append, heq, hdigits hT]
      by_cases hpos : 0 < token.length
      · refine .inl ⟨'0' :: x :: token, rest, rfl, hrest, fun hT => ?_⟩
        rw [hvalue hT, if_pos hpos]
        rfl
      · refine .inr fun hT => ?_
        rw [hvalue hT, if_neg hpos]
    · refine .inr fun hT => ?_
      obtain ⟨x, rest, heq⟩ := ahead_cons more hT
      have hx := hnot hT
      rw [heq] at hx
      rw [List.map_cons, List.cons_append, heq]
      exact radix_none (.inr hx)
  · refine .inr fun hT => ?_
    obtain ⟨z, rest, heq⟩ := ahead_cons gap hT
    have hz := hnot hT
    rw [heq] at hz ⊢
    cases rest with
    | nil => rfl
    | cons g rest =>
        have hne : z ≠ '0' := by
          rintro rfl
          cases hz
        simp [Lexeme.radix, glyphOf, hne]

theorem Plain.number (h : Plain gap) (hquote : quote = '\x27' ∨ quote = '"') :
    Scans quote Lexeme.number gap := by
  rcases h.radix hquote with ⟨token, more, rfl, hmore, heq⟩ | hnone
  · obtain ⟨suffix, rest, rfl, hrest, hsuffix⟩ := hmore.bigSuffix hquote
    refine .inl ⟨token ++ suffix, rest, by rw [List.append_assoc], hrest, fun hT => ?_⟩
    simp only [Lexeme.number, heq hT]
    rw [drop_token, hsuffix hT, List.length_append]
  · rcases h.decimal hquote with ⟨token, more, rfl, hmore, heq⟩ | hnot
    · refine .inl ⟨token, more, rfl, hmore, fun hT => ?_⟩
      simp only [Lexeme.number, hnone hT]
      exact heq hT
    · refine .inr fun hT => ?_
      simp only [Lexeme.number, hnone hT]
      exact hnot hT

/-! ## Other tokens -/

theorem Plain.privateName (h : Plain gap) (hquote : quote = '\x27' ∨ quote = '"') :
    Scans quote Lexeme.privateName gap := by
  rcases @Plain.next _ _ h hquote ['#'] (by decide) with ⟨hash, more, rfl, hhash, hmore, -⟩ | hnot
  · obtain rfl : hash = '#' := by simpa using hhash
    obtain ⟨token, rest, rfl, hrest, hword⟩ := hmore.word hquote
    have hvalue {T : List Glyph} (hT : StartsWith quote T) :
        Lexeme.privateName (('#' :: (token ++ rest)).map glyphOf ++ T) =
          if 0 < token.length then some (token.length + 1) else none := by
      rw [List.map_cons, List.cons_append, Lexeme.privateName, hword hT]
      simp [glyphOf]
    by_cases hpos : 0 < token.length
    · refine .inl ⟨'#' :: token, rest, rfl, hrest, fun hT => ?_⟩
      rw [hvalue hT, if_pos hpos]
      rfl
    · refine .inr fun hT => ?_
      rw [hvalue hT, if_neg hpos]
  · refine .inr fun hT => ?_
    obtain ⟨ch, rest, heq⟩ := ahead_cons gap hT
    have hch := hnot hT
    rw [heq] at hch ⊢
    have hne : ch ≠ '#' := by
      rintro rfl
      cases hch
    simp [Lexeme.privateName, glyphOf, hne]

/-- A slash in front of a token starts a comment. -/
theorem AtToken.regex (h : AtToken gap) (hquote : quote = '\x27' ∨ quote = '"') (hT : StartsWith quote T) :
    Lexeme.regex (gap.map glyphOf ++ T) = none := by
  have hnot {ch : Char} {rest : List Glyph} (hne : ch ≠ '/') : Lexeme.regex (glyphOf ch :: rest) = none := by
    simp [Lexeme.regex, glyphOf, hne]
  cases gap with
  | nil =>
      obtain ⟨rest, rfl⟩ := hT
      exact hnot (quote_not_blank hquote).2
  | cons ch more => exact hnot (h ch rfl).2

theorem Plain.markupComment (h : Plain gap) (hquote : quote = '\x27' ∨ quote = '"')
    (hT : StartsWith quote T) : Lexeme.markupComment (gap.map glyphOf ++ T) = none := by
  have hopen : Lexeme.literal "<!--".toList (gap.map glyphOf ++ T) = false := by
    rcases @Plain.literal _ hquote "<!--".toList gap (by decide) h with ⟨more, rfl, -⟩ | hnot
    · exact absurd (h.tail (by decide) (by decide)).1 (by decide)
    · exact hnot hT
  have hclose : Lexeme.literal "-->".toList (gap.map glyphOf ++ T) = false := by
    rcases @Plain.literal _ hquote "-->".toList gap (by decide) h with ⟨more, rfl, -⟩ | hnot
    · exact absurd (List.prefix_append _ _) (h.tail (by decide) (by decide)).2.1
    · exact hnot hT
  rw [Lexeme.markupComment, hopen, hclose]
  rfl

/-! ## Tokens with a literal in them -/

/-- Of a plain text and a literal behind it, what is scanned goes on behind the literal, and what the literal
says does not matter. -/
def Crosses (quote : Char) (scan : List Glyph → Option Nat) (gap : List Char) : Prop :=
  ∃ onward : List Glyph → Option Nat, ∀ {text back}, Quotable quote text →
    scan (gap.map glyphOf ++ ((quote :: text ++ [quote]).map glyphOf ++ back)) =
      (onward back).map (· + (gap.length + (text.length + 2)))

theorem Quotable.enclosed {text : List Char} (h : Quotable quote text) : Enclosed quote text := by
  induction text with
  | nil => simp [Enclosed, Lexeme.toQuote, glyphOf]
  | cons ch text ih =>
      obtain ⟨hquote, hescape, hline⟩ := h ch (List.mem_cons_self ..)
      have hmore : Enclosed quote text := ih fun x hx => h x (List.mem_cons_of_mem _ hx)
      have hbreaks : ch ≠ '\n' ∧ ch ≠ '\r' := by
        constructor <;> rintro rfl <;> cases hline
      rw [Enclosed] at hmore ⊢
      rw [List.cons_append, List.map_cons, Lexeme.toQuote, hmore]
      simp [glyphOf, hquote, hescape, hbreaks]

theorem string_other {ch : Char} {gs : List Glyph} (hch : ch ≠ '\x27' ∧ ch ≠ '"') :
    Lexeme.string (glyphOf ch :: gs) = none := by
  simp [Lexeme.string, glyphOf, hch]

theorem Plain.string (h : Plain gap) (hquote : quote = '\x27' ∨ quote = '"') :
    Scans quote Lexeme.string gap ∨ Crosses quote Lexeme.string gap := by
  cases h with
  | nil => exact .inr ⟨fun _ => some 0, fun htext => by simpa using string_here hquote htext.enclosed⟩
  | ordinary hch =>
      exact .inl (.inr fun _ => string_other ⟨(isOrdinary_ne hch).1, (isOrdinary_ne hch).2.1⟩)
  | @quoted q text more hq htext hmore =>
      refine .inl (.inl ⟨q :: text ++ [q], more, by simp, hmore, fun {T} _ => ?_⟩)
      have hscan := @string_here q text (more.map glyphOf ++ T) hq htext.enclosed
      simpa using hscan
  | line => exact .inl (.inr fun _ => string_other (by decide))
  | block => exact .inl (.inr fun _ => string_other (by decide))

/-! ## Groups -/

open Lexeme (Frame groupFrom)

/-- No template is open. -/
def Bracketed (frames : List Frame) : Prop := ∀ frame ∈ frames, ∃ close, frame = .bracket close

variable {frames outer : List Frame} {gs : List Glyph} {text : List Char}

theorem Bracketed.eq_nil_or_cons (h : Bracketed frames) :
    frames = [] ∨ ∃ close outer, frames = .bracket close :: outer ∧ Bracketed outer := by
  cases frames with
  | nil => exact .inl rfl
  | cons frame outer =>
      obtain ⟨close, rfl⟩ := h frame (List.mem_cons_self ..)
      exact .inr ⟨close, outer, rfl, fun other hother => h other (List.mem_cons_of_mem _ hother)⟩

theorem Bracketed.cons (close : Char) (h : Bracketed frames) : Bracketed (.bracket close :: frames) := by
  rintro frame (_ | ⟨_, hmem⟩)
  · exact ⟨close, rfl⟩
  · exact h frame hmem

theorem map_add_add (n? : Option Nat) (m n : Nat) : (n?.map (· + m)).map (· + n) = n?.map (· + (m + n)) := by
  rw [Option.map_map]
  exact congrArg (Option.map · n?) (funext fun k => Nat.add_assoc k m n)

/-- A string is passed over. -/
theorem groupFrom_quoted (hframes : Bracketed frames) (hquote : quote = '\x27' ∨ quote = '"')
    (htext : Quotable quote text) (gs : List Glyph) :
    groupFrom frames .code ((quote :: text ++ [quote]).map glyphOf ++ gs) =
      (groupFrom frames .code gs).map (· + (text.length + 2)) := by
  have hinside : groupFrom frames (.quoted quote false) ((text ++ [quote]).map glyphOf ++ gs) =
      (groupFrom frames .code gs).map (· + (text.length + 1)) := by
    induction text with
    | nil => simp [groupFrom, glyphOf]
    | cons ch text ih =>
        obtain ⟨hne, hescape, hline⟩ := htext ch (List.mem_cons_self ..)
        have hstep (gs : List Glyph) : groupFrom frames (.quoted quote false) (glyphOf ch :: gs) =
            (groupFrom frames (.quoted quote false) gs).map (· + 1) := by
          simp [groupFrom, glyphOf, hne, hescape, hline]
        rw [List.cons_append, List.map_cons, List.cons_append, hstep,
          ih fun x hx => htext x (List.mem_cons_of_mem _ hx), map_add_add]
        rfl
  have hopen (gs : List Glyph) : groupFrom frames .code (glyphOf quote :: gs) =
      (groupFrom frames (.quoted quote false) gs).map (· + 1) := by
    obtain rfl | ⟨close, outer, rfl, -⟩ := hframes.eq_nil_or_cons <;> rcases hquote with rfl | rfl <;> rfl
  rw [List.cons_append, List.map_cons, List.cons_append, hopen, hinside, map_add_add]

/-- So is the comment at the end of a line. -/
theorem groupFrom_line (hframes : Bracketed frames) (htext : ∀ x ∈ text, Lexeme.isLineEnd x = false)
    (hch : Lexeme.isLineEnd ch = true) (gs : List Glyph) :
    groupFrom frames .code (('/' :: '/' :: text).map glyphOf ++ glyphOf ch :: gs) =
      (groupFrom frames .code (glyphOf ch :: gs)).map (· + (text.length + 2)) := by
  have hcode : groupFrom frames .line (glyphOf ch :: gs) = groupFrom frames .code (glyphOf ch :: gs) := by
    simp only [Lexeme.isLineEnd, Bool.or_eq_true, decide_eq_true_eq] at hch
    obtain rfl | ⟨close, outer, rfl, -⟩ := hframes.eq_nil_or_cons <;>
      rcases hch with ((rfl | rfl) | rfl) | rfl <;> rfl
  have hinside : groupFrom frames .line (text.map glyphOf ++ glyphOf ch :: gs) =
      (groupFrom frames .code (glyphOf ch :: gs)).map (· + text.length) := by
    induction text with
    | nil => simpa using hcode
    | cons x text ih =>
        have hx := htext x (List.mem_cons_self ..)
        have hstep (gs : List Glyph) : groupFrom frames .line (glyphOf x :: gs) =
            (groupFrom frames .line gs).map (· + 1) := by
          simp [groupFrom, glyphOf, hx]
        rw [List.map_cons, List.cons_append, hstep, ih fun y hy => htext y (List.mem_cons_of_mem _ hy),
          map_add_add]
        rfl
  have hopen (gs : List Glyph) : groupFrom frames .code (glyphOf '/' :: glyphOf '/' :: gs) =
      (groupFrom frames .line gs).map (· + 2) := by
    obtain rfl | ⟨close, outer, rfl, -⟩ := hframes.eq_nil_or_cons <;>
      exact map_add_add _ 1 1
  rw [List.map_cons, List.map_cons, List.cons_append, List.cons_append, hopen, hinside, map_add_add]

/-- And a comment that is not confused with its own end. -/
theorem groupFrom_block (hframes : Bracketed frames)
    (htext : Lexeme.toBlockEnd ((text ++ ['*', '/']).map glyphOf) = some (text.length + 2))
    (hhead : text.head? ≠ some '/') (gs : List Glyph) :
    groupFrom frames .code (('/' :: '*' :: text ++ ['*', '/']).map glyphOf ++ gs) =
      (groupFrom frames .code gs).map (· + (text.length + 4)) := by
  have hinside : groupFrom frames .block ((text ++ ['*', '/']).map glyphOf ++ gs) =
      (groupFrom frames .code gs).map (· + (text.length + 2)) := by
    clear hhead
    induction text with
    | nil => exact map_add_add _ 1 1
    | cons x text ih =>
        have hends : ((glyphOf x).char == '*' &&
            Lexeme.nextIn ['/'] ((text ++ ['*', '/']).map glyphOf)) = false := by
          refine Bool.eq_false_iff.mpr fun hend => ?_
          rw [List.cons_append, List.map_cons, Lexeme.toBlockEnd, if_pos hend, List.length_cons] at htext
          cases htext
        have hmore : Lexeme.toBlockEnd ((text ++ ['*', '/']).map glyphOf) = some (text.length + 2) := by
          rw [List.cons_append, List.map_cons, Lexeme.toBlockEnd, hends, if_neg Bool.false_ne_true,
            Option.map_eq_some_iff] at htext
          obtain ⟨n, hn, heq⟩ := htext
          rw [hn]
          simp at heq ⊢
          omega
        have hnext : Lexeme.nextIn ['/'] ((text ++ ['*', '/']).map glyphOf ++ gs) =
            Lexeme.nextIn ['/'] ((text ++ ['*', '/']).map glyphOf) := by
          cases text <;> rfl
        rw [List.cons_append, List.map_cons, List.cons_append, groupFrom, hnext, hends,
          if_neg Bool.false_ne_true]
        dsimp only
        rw [ih hmore, map_add_add]
        rfl
  have hopen {gs : List Glyph} (hnext : Lexeme.nextIn ['/'] gs = false) :
      groupFrom frames .code (glyphOf '/' :: glyphOf '*' :: gs) = (groupFrom frames .block gs).map (· + 2) := by
    have hmark : Lexeme.literal "/*/".toList (glyphOf '/' :: glyphOf '*' :: gs) = false := by
      cases gs with
      | nil => rfl
      | cons g gs => simpa [Lexeme.literal, Lexeme.nextIn, glyphOf] using hnext
    have hblock : groupFrom frames .block (glyphOf '*' :: gs) = (groupFrom frames .block gs).map (· + 1) := by
      rw [groupFrom, hnext, Bool.and_false, if_neg Bool.false_ne_true]
    have hcode {more : List Glyph} (hline : Lexeme.nextIn ['/'] more = false)
        (hstar : Lexeme.nextIn ['*'] more = true)
        (hmark : Lexeme.literal "/*/".toList (glyphOf '/' :: more) = false) :
        groupFrom frames .code (glyphOf '/' :: more) = (groupFrom frames .block more).map (· + 1) := by
      obtain rfl | ⟨close, outer, rfl, -⟩ := hframes.eq_nil_or_cons <;>
        simp only [groupFrom, hline, hstar, hmark, Bool.and_false, Bool.and_true, Bool.false_eq_true, if_false] <;>
        rfl
    rw [hcode rfl rfl hmark, hblock, map_add_add]
  have hnext : Lexeme.nextIn ['/'] ((text ++ ['*', '/']).map glyphOf ++ gs) = false := by
    cases text with
    | nil => rfl
    | cons x text =>
        have hx : x ≠ '/' := by simpa using hhead
        simp [Lexeme.nextIn, glyphOf, hx]
  rw [List.cons_append, List.cons_append, List.map_cons, List.map_cons, List.cons_append, List.cons_append,
    hopen hnext, hinside, map_add_add]

/-- One that is, ends the group. -/
theorem groupFrom_confused (hframes : Bracketed frames) (gs : List Glyph) :
    groupFrom frames .code (glyphOf '/' :: glyphOf '*' :: glyphOf '/' :: gs) = none := by
  obtain rfl | ⟨close, outer, rfl, -⟩ := hframes.eq_nil_or_cons <;> rfl

/-- A character for itself opens or closes a bracket, or neither. -/
theorem groupFrom_ordinary (hframes : Bracketed frames) (hch : isOrdinary ch = true) :
    (∃ frames', Bracketed frames' ∧
      ∀ gs, groupFrom frames .code (glyphOf ch :: gs) = (groupFrom frames' .code gs).map (· + 1)) ∨
    (∀ gs, groupFrom frames .code (glyphOf ch :: gs) = some 1) ∨
    ∀ gs, groupFrom frames .code (glyphOf ch :: gs) = none := by
  obtain ⟨hsingle, hdouble, htick, hslash, -⟩ := isOrdinary_ne hch
  have hmarks : ((glyphOf ch).char == '\x27') = false ∧ ((glyphOf ch).char == '"') = false ∧
      ((glyphOf ch).char == '\x60') = false ∧ ((glyphOf ch).char == '/') = false := by
    simp [glyphOf, hsingle, hdouble, htick, hslash]
  have hstep (gs : List Glyph) := Lexeme.groupFrom.eq_def frames .code (glyphOf ch :: gs)
  cases hclose : Lexeme.closer (glyphOf ch).char with
  | some close =>
      refine .inl ⟨.bracket close :: frames, hframes.cons close, fun gs => ?_⟩
      obtain rfl | ⟨_, _, rfl, -⟩ := hframes.eq_nil_or_cons <;>
        simp only [hmarks, hclose, Bool.false_and, Bool.or_false, Bool.false_eq_true,
          if_false] at hstep <;>
        exact hstep gs
  | none =>
      by_cases hend :
          ((glyphOf ch).char == ')' || (glyphOf ch).char == ']' || (glyphOf ch).char == '\x7d') = true
      · obtain rfl | ⟨close, outer, rfl, houter⟩ := hframes.eq_nil_or_cons
        · simp only [hmarks, hclose, hend, Bool.false_and, Bool.or_false, Bool.false_eq_true, if_false,
            if_true] at hstep
          exact .inr (.inr hstep)
        · simp only [hmarks, hclose, hend, Bool.false_and, Bool.or_false, Bool.false_eq_true, if_false,
            if_true] at hstep
          by_cases hsame : ((glyphOf ch).char == close) = true
          · simp only [if_pos hsame] at hstep
            by_cases hempty : outer.isEmpty = true
            · simp only [if_pos hempty] at hstep
              exact .inr (.inl hstep)
            · simp only [if_neg hempty] at hstep
              exact .inl ⟨outer, houter, hstep⟩
          · simp only [if_neg hsame] at hstep
            exact .inr (.inr hstep)
      · refine .inl ⟨frames, hframes, fun gs => ?_⟩
        obtain rfl | ⟨_, _, rfl, -⟩ := hframes.eq_nil_or_cons <;>
          simp only [hmarks, hclose, hend, Bool.false_and, Bool.or_false, Bool.false_eq_true,
            if_false] at hstep <;>
          exact hstep gs

/-- Of a plain text either nothing is left when its brackets have been matched, or some brackets are open at
its end. -/
def Matches (quote : Char) (frames : List Frame) (gap : List Char) : Prop :=
  Scans quote (groupFrom frames .code) gap ∨ ∃ frames', Bracketed frames' ∧ ∀ gs,
    groupFrom frames .code (gap.map glyphOf ++ gs) = (groupFrom frames' .code gs).map (· + gap.length)

theorem Matches.front {frames' : List Frame}
    (hfront : ∀ gs, groupFrom frames .code (token.map glyphOf ++ (more.map glyphOf ++ gs)) =
      (groupFrom frames' .code (more.map glyphOf ++ gs)).map (· + token.length))
    (h : Matches quote frames' more) : Matches quote frames (token ++ more) := by
  have happend (gs : List Glyph) : groupFrom frames .code ((token ++ more).map glyphOf ++ gs) =
      (groupFrom frames' .code (more.map glyphOf ++ gs)).map (· + token.length) := by
    rw [List.map_append, List.append_assoc, hfront]
  rcases h with (⟨inner, rest, rfl, hrest, heq⟩ | hnone) | ⟨open', hopen, heq⟩
  · refine .inl (.inl ⟨token ++ inner, rest, by rw [List.append_assoc], hrest, fun hT => ?_⟩)
    rw [happend, heq hT, Option.map_some, List.length_append, Nat.add_comm]
  · refine .inl (.inr fun hT => ?_)
    rw [happend, hnone hT, Option.map_none]
  · refine .inr ⟨open', hopen, fun gs => ?_⟩
    rw [happend, heq, map_add_add, List.length_append, Nat.add_comm more.length]

theorem Plain.matches (h : Plain gap) : ∀ {frames : List Frame}, Bracketed frames →
    Matches quote frames gap := by
  induction h with
  | nil => exact fun hframes => .inr ⟨_, hframes, fun gs => by simp⟩
  | @ordinary ch more hch hmark hmore ih =>
      intro frames hframes
      rcases groupFrom_ordinary hframes hch with ⟨frames', hframes', heq⟩ | hone | hnone
      · exact @Matches.front _ more [ch] _ _ (fun gs => heq _) (ih hframes')
      · exact .inl (.inl ⟨[ch], more, rfl, hmore, fun _ => hone _⟩)
      · exact .inl (.inr fun _ => hnone _)
  | @quoted q text more hq htext _ ih =>
      intro frames hframes
      have hsplit : q :: text ++ q :: more = (q :: text ++ [q]) ++ more := by simp
      rw [hsplit]
      refine Matches.front (fun gs => ?_) (ih hframes)
      rw [groupFrom_quoted hframes hq htext, List.length_append, List.length_cons]
      rfl
  | @line text more ch htext hch hmore ih =>
      intro frames hframes
      refine Matches.front (fun gs => ?_) (ih hframes)
      exact groupFrom_line hframes htext hch _
  | @block text more htext _ ih =>
      intro frames hframes
      have hsplit : '/' :: '*' :: text ++ '*' :: '/' :: more = ('/' :: '*' :: text ++ ['*', '/']) ++ more := by
        simp
      by_cases hhead : text.head? = some '/'
      · refine .inl (.inr fun {T} _ => ?_)
        cases text with
        | nil => cases hhead
        | cons ch text =>
            cases hhead
            exact groupFrom_confused hframes _
      · rw [hsplit]
        refine Matches.front (fun gs => ?_) (ih hframes)
        rw [groupFrom_block hframes htext hhead, List.length_append, List.length_cons, List.length_cons]
        rfl

/-- A group ends in a plain text, or behind the literal that follows it. -/
theorem Plain.group (h : Plain gap) (hquote : quote = '\x27' ∨ quote = '"') :
    Scans quote Lexeme.group gap ∨ Crosses quote Lexeme.group gap := by
  have hnone {ch : Char} {rest : List Glyph} (hch : Lexeme.closer ch = none) :
      Lexeme.group (glyphOf ch :: rest) = none := by
    simp [Lexeme.group, glyphOf, hch]
  cases gap with
  | nil =>
      refine .inl (.inr fun hT => ?_)
      obtain ⟨rest, rfl⟩ := hT
      rcases hquote with rfl | rfl
      · exact hnone rfl
      · exact hnone rfl
  | cons ch more =>
      cases hclose : Lexeme.closer ch with
      | none => exact .inl (.inr fun _ => hnone hclose)
      | some close =>
          have hopens (gs : List Glyph) : Lexeme.group ((ch :: more).map glyphOf ++ gs) =
              (groupFrom [.bracket close] .code (more.map glyphOf ++ gs)).map (· + 1) := by
            simp [Lexeme.group, glyphOf, hclose]
          have hframes : Bracketed [.bracket close] := Bracketed.cons close fun _ h => absurd h List.not_mem_nil
          have hmore : Plain more := by
            have hne : (ch ≠ '\x27' ∧ ch ≠ '"') ∧ ch ≠ '/' := by
              refine ⟨⟨?_, ?_⟩, ?_⟩ <;> rintro rfl <;> cases hclose
            exact (h.tail hne.1 hne.2).2.2
          rcases @Plain.matches quote _ hmore _ hframes with
            (⟨token, rest, rfl, hrest, heq⟩ | hnot) | ⟨frames, hopen, heq⟩
          · refine .inl (.inl ⟨ch :: token, rest, rfl, hrest, fun hT => ?_⟩)
            rw [hopens, heq hT]
            rfl
          · refine .inl (.inr fun hT => ?_)
            rw [hopens, hnot hT]
            rfl
          · refine .inr ⟨groupFrom frames .code, fun {text back} htext => ?_⟩
            rw [hopens, heq, groupFrom_quoted hopen hquote htext, map_add_add, map_add_add, List.length_cons,
              Nat.add_comm (text.length + 2), Nat.add_right_comm]

/-! ## All tokens -/

/-- A mark stands ahead in the text or not at all: a slash at its start would start a comment. -/
theorem Plain.tameMark {text : String} (h : Plain gap) (hat : AtToken gap)
    (hquote : quote = '\x27' ∨ quote = '"') (htame : isTameMark text = true) :
    (∃ more, gap = text.toList ++ more ∧ Plain more) ∨
      ∀ {T}, StartsWith quote T → Lexeme.literal text.toList (gap.map glyphOf ++ T) = false := by
  rw [isTameMark, Bool.and_eq_true, Bool.not_eq_true', List.all_eq_true] at htame
  obtain ⟨hquotes, htail⟩ := htame
  by_cases hhead : text.toList.head? = some '/'
  · refine .inr fun {T} hT => ?_
    obtain ⟨chars, hchars⟩ : ∃ chars, text.toList = '/' :: chars := List.head?_eq_some_iff.mp hhead
    rw [hchars]
    cases gap with
    | nil =>
        obtain ⟨rest, rfl⟩ := hT
        exact literal_other (quote_not_blank hquote).2 rest
    | cons ch more => exact literal_other (hat ch rfl).2 _
  · refine h.literal hquote (List.all_eq_true.mpr fun ch hmem => ?_)
    have hne := hquotes ch hmem
    rw [hne, Bool.true_and, bne_iff_ne]
    rintro rfl
    generalize text.toList = chars at hmem htail hhead
    cases chars with
    | nil => cases hmem
    | cons x chars =>
        rcases List.mem_cons.mp hmem with rfl | hmem
        · exact hhead rfl
        · simp [hmem] at htail

theorem Scans.of_test {test : List Glyph → Bool} {b : Bool} (h : Plain more)
    (htest : ∀ {T}, StartsWith quote T → test ((token ++ more).map glyphOf ++ T) = b) :
    Scans quote (fun gs => if test gs = true then some token.length else none) (token ++ more) := by
  cases b with
  | true => exact .inl ⟨token, more, rfl, h, fun hT => if_pos (htest hT)⟩
  | false => exact .inr fun hT => if_neg (by rw [htest hT]; exact Bool.false_ne_true)

theorem Scans.of_false {test : List Glyph → Bool} {n : Nat}
    (htest : ∀ {T}, StartsWith quote T → test (gap.map glyphOf ++ T) = false) :
    Scans quote (fun gs => if test gs = true then some n else none) gap :=
  .inr fun hT => if_neg (by rw [htest hT]; exact Bool.false_ne_true)

/-- A token of a plain text ends in it, or behind the literal that follows it. -/
theorem Plain.tameToken {σ : Type} {rule : Rule σ} {scan : List Glyph → Option Nat} (h : Plain gap)
    (hat : AtToken gap) (hquote : quote = '\x27' ∨ quote = '"') (hscan : rule.scan? = some scan)
    (htame : rule.isTame = true) : Scans quote scan gap ∨ Crosses quote scan gap := by
  have hstarts : StartsWith quote [glyphOf quote] := ⟨[], rfl⟩
  have hword (more : List Char) (chars : List Char) (T : List Glyph) :
      Lexeme.literal chars ((chars ++ more).map glyphOf ++ T) = true := by
    rw [List.map_append, List.append_assoc, literal_here]
  cases rule with
  | mark text notBefore =>
      cases hscan
      rcases h.tameMark hat hquote htame with ⟨more, rfl, hmore⟩ | hnot
      · let refused := Lexeme.nextIn notBefore (more.map glyphOf ++ [glyphOf quote])
        refine .inl (.of_test (b := !refused) hmore fun hT => ?_)
        rw [hword, drop_token, nextIn_plain more hT hstarts, Bool.true_and]
      · refine .inl (.of_false fun hT => ?_)
        rw [hnot hT, Bool.false_and]
  | keyword text =>
      cases hscan
      rcases h.tameMark hat hquote htame with ⟨more, rfl, hmore⟩ | hnot
      · obtain ⟨token, rest, htoken⟩ := h.word hquote
        refine .inl (.of_test (b := token.length == text.toList.length) hmore fun hT => ?_)
        rw [hword, htoken.eq hT, Bool.true_and]
      · refine .inl (.of_false fun hT => ?_)
        rw [hnot hT, Bool.false_and]
  | name kind except =>
      cases hscan
      obtain ⟨word, rest, rfl, hrest, heq⟩ := h.word hquote
      have htake (T : List Glyph) :
          (((word ++ rest).map glyphOf ++ T).take word.length).map Glyph.char = word := by
        rw [List.map_append, List.append_assoc, List.take_left' (by simp), List.map_map]
        exact List.map_id'' (fun _ => rfl) word
      cases hrefused : word.length == 0 || except.contains (String.ofList word) with
      | true => exact .inl (.inr fun {T} hT => by simp only [heq hT, htake, hrefused, if_true])
      | false =>
          refine .inl (.inl ⟨word, rest, rfl, hrest, fun {T} hT => ?_⟩)
          simp only [heq hT, htake, hrefused, Bool.false_eq_true, if_false]
  | lexeme kind raw literal =>
      cases hscan
      rw [Rule.isTame, Bool.and_eq_true] at htame
      cases literal with
      | string => exact h.string hquote
      | number => exact .inl (h.number hquote)
      | regex => exact .inl (.inr fun hT => hat.regex hquote hT)
      | privateName => exact .inl (h.privateName hquote)
      | markupComment => exact .inl (.inr fun hT => h.markupComment hquote hT)
      | _ => cases htame.2
  | group =>
      cases hscan
      exact h.group hquote
  | _ => cases hscan

/-- No template and no markup opens in a plain text. -/
theorem Plain.opening {σ : Type} {rule : Rule σ} {scan : List Glyph → Option Nat} (h : Plain gap)
    (hquote : quote = '\x27' ∨ quote = '"') (hopening : rule.isOpening = true)
    (hscan : rule.scan? = some scan) (hT : StartsWith quote T) : scan (gap.map glyphOf ++ T) = none := by
  cases rule with
  | mark text notBefore =>
      cases hscan
      rw [Rule.isOpening] at hopening
      generalize text.toList = chars at hopening ⊢
      cases chars with
      | nil => cases hopening
      | cons t chars =>
          have ht : t = '\x60' ∨ t = '<' := by simpa using hopening
          have hnot : Lexeme.literal (t :: chars) (gap.map glyphOf ++ T) = false := by
            cases gap with
            | nil =>
                obtain ⟨rest, rfl⟩ := hT
                refine literal_other ?_ rest
                rcases hquote with rfl | rfl <;> rcases ht with rfl | rfl <;> decide
            | cons ch more =>
                refine literal_other ?_ _
                rintro rfl
                rcases ht with rfl | rfl
                · cases (h.tail (by decide) (by decide)).1
                · cases (h.tail (by decide) (by decide)).1
          exact if_neg (by rw [hnot, Bool.false_and]; exact Bool.false_ne_true)
  | _ => cases hopening

end

end ImportAssist
