import ImportAssist.Proofs.TextReadings

/-!
# Words and strings by themselves

A word or a string of a text is one by itself: the glyphs that are read decide (`wordFrom_split`,
`toQuote_take`). What follows matters to a word only, which must not go on, and to a string not at all
(`IsWhole.word_eq`, `IsString.string_eq`).
-/

namespace ImportAssist

namespace Syntax

open Utf8 (glyphOf)

/-! ## Words -/

section

variable {gs more : List Glyph} {test : Char → Bool} {n skip : Nat}

theorem runLength_take : ∀ {gs : List Glyph} {n : Nat}, Lexeme.runLength test gs < n →
    Lexeme.runLength test (gs.take n) = Lexeme.runLength test gs
  | [], _, _ => by rw [List.take_nil]
  | _, 0, h => absurd h (Nat.not_lt_zero _)
  | g :: gs, n + 1, h => by
      rw [List.take_succ_cons, Lexeme.runLength, Lexeme.runLength]
      rw [Lexeme.runLength] at h
      split
      · rename_i htest
        rw [if_pos htest] at h
        rw [runLength_take (by omega)]
      · rfl

theorem runLength_le_length : ∀ gs : List Glyph, Lexeme.runLength test gs ≤ gs.length
  | [] => Nat.le_refl _
  | g :: gs => by
      have hle := runLength_le_length gs
      rw [Lexeme.runLength, List.length_cons]
      split <;> omega

theorem length_pos_of_nextIn {chars : List Char} (h : Lexeme.nextIn chars gs = true) : 0 < gs.length := by
  cases gs with
  | nil => cases h
  | cons => exact Nat.zero_lt_succ _

theorem wordEscape_cons (b u g : Glyph) (gs : List Glyph) : Lexeme.wordEscape (b :: u :: g :: gs) =
    if b.char == '\\' && u.char == 'u' then
      if g.char == '\x7b' then
        if 0 < Lexeme.runLength Lexeme.isHexDigit gs &&
            Lexeme.nextIn ['\x7d'] (gs.drop (Lexeme.runLength Lexeme.isHexDigit gs)) then
          some (Lexeme.runLength Lexeme.isHexDigit gs + 4)
        else none
      else if 4 ≤ Lexeme.runLength Lexeme.isHexDigit ((g :: gs).take 4) then some 6 else none
    else none := rfl

/-- An escape in a word is known from its own glyphs. -/
theorem wordEscape_take (h : Lexeme.wordEscape gs = some n) :
    n ≤ gs.length ∧ ∀ more, Lexeme.wordEscape (gs.take n ++ more) = some n := by
  obtain ⟨b, u, g, gs, rfl⟩ : ∃ b u g gs', gs = b :: u :: g :: gs' := by
    unfold Lexeme.wordEscape at h
    grind
  rw [wordEscape_cons] at h
  split at h
  · rename_i hescape
    split at h
    · rename_i hbrace
      split at h
      · rename_i hdigits
        cases h
        have hpair := hdigits
        rw [Bool.and_eq_true] at hpair
        have hlength := length_pos_of_nextIn hpair.2
        rw [List.length_drop] at hlength
        refine ⟨by simp only [List.length_cons]; omega, fun more => ?_⟩
        generalize hk : Lexeme.runLength Lexeme.isHexDigit gs = k at *
        have htake : (gs.take (k + 1)).length = k + 1 := by
          rw [List.length_take]
          omega
        have hrun : Lexeme.runLength Lexeme.isHexDigit (gs.take (k + 1)) = k := by
          rw [runLength_take (by omega), hk]
        have hrun' : Lexeme.runLength Lexeme.isHexDigit (gs.take (k + 1) ++ more) = k := by
          rw [runLength_append (by omega), hrun]
        have hnext : Lexeme.nextIn ['\x7d'] ((gs.take (k + 1) ++ more).drop k) =
            Lexeme.nextIn ['\x7d'] (gs.drop k) := by
          have hone : (gs.take (k + 1)).drop k = (gs.drop k).take 1 := by
            rw [List.drop_take, Nat.add_sub_cancel_left]
          obtain ⟨x, xs, hx⟩ := List.exists_cons_of_length_pos (length_pos_of_nextIn hpair.2)
          rw [List.drop_append_of_le_length (by omega), hone, hx]
          rfl
        rw [List.take_succ_cons, List.take_succ_cons, List.take_succ_cons, List.cons_append,
          List.cons_append, List.cons_append, wordEscape_cons, if_pos hescape, if_pos hbrace, hrun', hnext,
          if_pos hdigits]
      · cases h
    · rename_i hbrace
      split at h
      · rename_i hdigits
        cases h
        have hlength : ((g :: gs).take 4).length = 4 := by
          have hle := @runLength_le_length Lexeme.isHexDigit ((g :: gs).take 4)
          rw [List.length_take] at hle ⊢
          omega
        have hfour (more : List Glyph) : (g :: (gs.take 3 ++ more)).take 4 = (g :: gs).take 4 := by
          rw [← List.cons_append, ← List.take_succ_cons, List.take_left' hlength]
        refine ⟨by rw [List.length_take] at hlength; simp only [List.length_cons] at hlength ⊢; omega,
          fun more => ?_⟩
        rw [List.take_succ_cons, List.take_succ_cons, List.take_succ_cons, List.cons_append,
          List.cons_append, List.cons_append, wordEscape_cons, if_pos hescape, if_neg hbrace, hfour,
          if_pos hdigits]
      · cases h
  · cases h

theorem wordEscape_append (h : Lexeme.wordEscape gs = some n) (more : List Glyph) :
    Lexeme.wordEscape (gs ++ more) = some n := by
  rw [← List.take_append_drop n gs, List.append_assoc]
  exact (wordEscape_take h).2 _

theorem wordEscape_pos (h : Lexeme.wordEscape gs = some n) : 0 < n := by
  unfold Lexeme.wordEscape at h
  grind

theorem skip_le_wordFrom : ∀ {gs : List Glyph} {skip : Nat}, skip ≤ gs.length →
    skip ≤ Lexeme.wordFrom skip gs
  | _, 0, _ => Nat.zero_le _
  | [], _ + 1, h => absurd h (Nat.not_succ_le_zero _)
  | g :: gs, skip + 1, h => by
      rw [Lexeme.wordFrom]
      exact Nat.succ_le_succ (skip_le_wordFrom (Nat.le_of_succ_le_succ h))

theorem wordFrom_append : ∀ {gs : List Glyph} {skip : Nat}, skip ≤ gs.length →
    Lexeme.wordFrom skip gs = gs.length → EndsWord more → Lexeme.wordFrom skip (gs ++ more) = gs.length
  | [], 0, _, _, hmore => hmore
  | g :: gs, skip + 1, hskip, h, hmore => by
      rw [Lexeme.wordFrom] at h
      rw [List.cons_append, Lexeme.wordFrom,
        wordFrom_append (Nat.le_of_succ_le_succ hskip) (Nat.succ.inj h) hmore, List.length_cons]
  | g :: gs, 0, _, h, hmore => by
      rw [Lexeme.wordFrom] at h
      rw [List.cons_append, Lexeme.wordFrom, List.length_cons]
      split at h
      · rename_i hglyph
        rw [if_pos hglyph, wordFrom_append (Nat.zero_le _) (Nat.succ.inj h) hmore]
      · rename_i hglyph
        rw [if_neg hglyph]
        split at h
        · rename_i n hescape
          have hlength := (wordEscape_take hescape).1
          rw [List.length_cons] at hlength
          rw [← List.cons_append, wordEscape_append hescape]
          dsimp only
          rw [wordFrom_append (by omega) (Nat.succ.inj h) hmore]
        · cases h

/-- A word that ends where it is told to is a word by itself. -/
theorem wordFrom_split : ∀ {gs : List Glyph} {skip : Nat}, skip ≤ gs.length →
    Lexeme.wordFrom skip (gs ++ more) = gs.length → Lexeme.wordFrom skip gs = gs.length ∧ EndsWord more
  | [], 0, _, h => ⟨rfl, h⟩
  | g :: gs, skip + 1, hskip, h => by
      rw [List.cons_append, Lexeme.wordFrom] at h
      obtain ⟨hword, hmore⟩ := wordFrom_split (Nat.le_of_succ_le_succ hskip) (Nat.succ.inj h)
      exact ⟨by rw [Lexeme.wordFrom, hword, List.length_cons], hmore⟩
  | g :: gs, 0, _, h => by
      rw [List.cons_append, Lexeme.wordFrom] at h
      rw [Lexeme.wordFrom, List.length_cons]
      split at h
      · rename_i hglyph
        obtain ⟨hword, hmore⟩ := wordFrom_split (Nat.zero_le _) (Nat.succ.inj h)
        exact ⟨by rw [if_pos hglyph, hword], hmore⟩
      · rename_i hglyph
        split at h
        · rename_i n hescape
          obtain ⟨hlength, htake⟩ := wordEscape_take hescape
          rw [List.length_cons] at hlength
          have hle := @skip_le_wordFrom (gs ++ more) (n - 1) (by omega)
          rw [Nat.succ.inj h] at hle
          obtain ⟨hword, hmore⟩ := wordFrom_split hle (Nat.succ.inj h)
          have hpos := wordEscape_pos hescape
          have hhere : Lexeme.wordEscape (g :: gs) = some n := by
            have hwithin : n ≤ (g :: gs).length := by
              rw [List.length_cons]
              omega
            rw [← List.cons_append, List.take_append_of_le_length hwithin] at htake
            rw [← List.take_append_drop n (g :: gs)]
            exact htake _
          refine ⟨?_, hmore⟩
          rw [if_neg hglyph, hhere]
          dsimp only
          rw [hword]
        · cases h

/-- A word by itself, perhaps with escapes in it. -/
def IsWhole (word : List Char) : Prop := word ≠ [] ∧ Lexeme.word (word.map glyphOf) = word.length

variable {word behind behind' : List Char}

theorem word_eq_wordFrom {ch : Char} (h : Lexeme.word (glyphOf ch :: gs) ≠ 0) :
    Lexeme.word (glyphOf ch :: gs) = Lexeme.wordFrom 0 (glyphOf ch :: gs) := by
  rw [Lexeme.word] at h ⊢
  split at h
  · exact absurd rfl h
  · rename_i hdigit
    rw [if_neg hdigit]

theorem IsWhole.word_eq (h : IsWhole word) (hends : EndsWord gs) :
    Lexeme.word (word.map glyphOf ++ gs) = word.length := by
  obtain ⟨hne, hword⟩ := h
  obtain ⟨ch, more, rfl⟩ := List.exists_cons_of_ne_nil hne
  have hfrom := hword
  rw [List.map_cons, word_eq_wordFrom (by rw [← List.map_cons, hword]; simp), ← List.map_cons] at hfrom
  have hlonger := wordFrom_append (Nat.zero_le _) (by rw [hfrom, List.length_map]) hends
  rw [List.map_cons, List.cons_append, Lexeme.word] at *
  split at hword
  · simp at hword
  · rename_i hdigit
    rw [if_neg hdigit, hlonger]
    simp

/-- A word in a text is whole, and does not go on. -/
theorem isWhole_of_word (hne : word ≠ []) (h : Lexeme.word (word.map glyphOf ++ gs) = word.length) :
    IsWhole word ∧ EndsWord gs := by
  obtain ⟨ch, more, rfl⟩ := List.exists_cons_of_ne_nil hne
  have hfrom := h
  rw [List.map_cons, List.cons_append, word_eq_wordFrom (by rw [← List.cons_append, ← List.map_cons, h]; simp),
    ← List.cons_append, ← List.map_cons] at hfrom
  obtain ⟨hhere, hends⟩ := wordFrom_split (Nat.zero_le _) (by rw [hfrom, List.length_map])
  refine ⟨⟨hne, ?_⟩, hends⟩
  rw [List.map_cons, List.cons_append, Lexeme.word] at h
  rw [List.map_cons, Lexeme.word]
  split at h
  · simp at h
  · rename_i hdigit
    rw [if_neg hdigit, ← List.map_cons, hhere, List.length_map]

theorem IsWord.isWhole (h : IsWord word) : IsWhole word := by
  refine ⟨?_, by simpa using @IsWord.word_eq [] _ h rfl⟩
  rintro rfl
  obtain ⟨_, _, hcons, -⟩ := h.start
  cases hcons

theorem IsWhole.not_endsWord (h : IsWhole word) (hends : EndsWord gs) :
    ¬EndsWord (word.map glyphOf ++ gs) := by
  intro hnone
  have hword := h.word_eq hends
  obtain ⟨ch, more, rfl⟩ := List.exists_cons_of_ne_nil h.1
  rw [List.map_cons, List.cons_append] at hnone hword
  rw [word_eq_wordFrom (by rw [hword]; simp), hnone] at hword
  simp at hword

/-- A word starts with a character of a word or with an escape. -/
theorem IsWhole.head {ch : Char} {more : List Char} (h : IsWhole (ch :: more)) :
    Lexeme.isWordGlyph (glyphOf ch) = true ∨ ch = '\\' := by
  by_contra hnot
  rw [not_or, Bool.not_eq_true] at hnot
  have hword := h.2
  rw [List.map_cons, Clue.not_word hnot.1 hnot.2] at hword
  simp at hword

end

/-! ## Strings -/

section

variable {gs : List Glyph} {n skip : Nat} {quote : Char}

theorem nextIn_take {chars : List Char} : Lexeme.nextIn chars (gs.take (n + 1)) = Lexeme.nextIn chars gs := by
  cases gs <;> rfl

/-- What a backslash stands before is known from its own glyphs and the one behind them. -/
theorem escapeTail_take (h : Lexeme.escapeTail gs = some n) :
    Lexeme.escapeTail (gs.take (n + 1)) = some n := by
  cases gs with
  | nil => cases h
  | cons g rest =>
      rw [List.take_succ_cons]
      simp only [Lexeme.escapeTail] at h ⊢
      split at h
      · rename_i hx
        rw [if_pos hx]
        split at h
        · rename_i hdigits
          cases h
          rw [List.take_take, if_pos (by simpa using hdigits)]
        · cases h
      · rename_i hx
        rw [if_neg hx]
        split at h
        · rename_i hu
          rw [if_pos hu]
          split at h
          · rename_i hbrace
            split at h
            · rename_i hdigits
              cases h
              generalize hk : Lexeme.runLength Lexeme.isHexDigit (rest.drop 1) = k at *
              have hrun : Lexeme.runLength Lexeme.isHexDigit ((rest.take (k + 3)).drop 1) = k := by
                rw [List.drop_take, show k + 3 - 1 = k + 2 by omega, runLength_take (by omega), hk]
              have hclose : Lexeme.nextIn ['\x7d'] ((rest.take (k + 3)).drop (k + 1)) =
                  Lexeme.nextIn ['\x7d'] (rest.drop (k + 1)) := by
                rw [List.drop_take, show k + 3 - (k + 1) = 1 + 1 by omega, nextIn_take]
              rw [nextIn_take, if_pos hbrace, hrun, hclose, if_pos hdigits]
            · cases h
          · rename_i hbrace
            split at h
            · rename_i hdigits
              cases h
              rw [nextIn_take, if_neg hbrace, List.take_take, if_pos (by simpa using hdigits)]
            · cases h
        · rename_i hu
          rw [if_neg hu]
          split at h
          · rename_i hbreak
            cases h
            rw [nextIn_take, if_pos hbreak]
          · rename_i hbreak
            cases h
            rw [nextIn_take, if_neg hbreak]

theorem toQuote_bounds : ∀ {gs : List Glyph} {skip n : Nat}, Lexeme.toQuote quote skip gs = some n →
    skip < n ∧ n ≤ gs.length
  | [], skip, n, h => by cases skip <;> cases h
  | g :: rest, skip + 1, n, h => by
      obtain ⟨m, hm, rfl⟩ := Option.map_eq_some_iff.mp h
      have hbounds := toQuote_bounds hm
      rw [List.length_cons]
      omega
  | g :: rest, 0, n, h => by
      rw [List.length_cons]
      rw [Lexeme.toQuote] at h
      split at h
      · cases h
        omega
      · split at h
        · cases h
        · split at h
          · split at h
            · obtain ⟨m, hm, rfl⟩ := Option.map_eq_some_iff.mp h
              have hbounds := toQuote_bounds hm
              omega
            · cases h
          · obtain ⟨m, hm, rfl⟩ := Option.map_eq_some_iff.mp h
            have hbounds := toQuote_bounds hm
            omega

/-- Nothing behind the closing quote belongs to a string. -/
theorem toQuote_take : ∀ {gs : List Glyph} {skip n : Nat}, Lexeme.toQuote quote skip gs = some n →
    Lexeme.toQuote quote skip (gs.take n) = some n
  | [], skip, n, h => by cases skip <;> cases h
  | g :: rest, skip + 1, n, h => by
      obtain ⟨m, hm, rfl⟩ := Option.map_eq_some_iff.mp h
      rw [List.take_succ_cons, Lexeme.toQuote, toQuote_take hm]
      rfl
  | g :: rest, 0, n, h => by
      rw [Lexeme.toQuote] at h
      split at h
      · rename_i hquote
        cases h
        rw [List.take_succ_cons, Lexeme.toQuote, if_pos hquote]
      · rename_i hquote
        split at h
        · cases h
        · rename_i hbreak
          split at h
          · rename_i hescape
            split at h
            · rename_i k hk
              obtain ⟨m, hm, rfl⟩ := Option.map_eq_some_iff.mp h
              obtain ⟨hlt, hle⟩ := toQuote_bounds hm
              have hhere : Lexeme.escapeTail (rest.take m) = some k := by
                have hsplit : rest.take m = rest.take (k + 1) ++ (rest.take m).drop (k + 1) := by
                  have htake : rest.take (k + 1) = (rest.take m).take (k + 1) := by
                    rw [List.take_take, Nat.min_eq_left hlt]
                  rw [htake, List.take_append_drop]
                rw [hsplit]
                exact escapeTail_append (escapeTail_take hk) (by rw [List.length_take]; omega)
              rw [List.take_succ_cons, Lexeme.toQuote, if_neg hquote, if_neg hbreak, if_pos hescape, hhere]
              dsimp only
              rw [toQuote_take hm]
              rfl
            · cases h
          · rename_i hescape
            obtain ⟨m, hm, rfl⟩ := Option.map_eq_some_iff.mp h
            rw [List.take_succ_cons, Lexeme.toQuote, if_neg hquote, if_neg hbreak, if_neg hescape,
              toQuote_take hm]
            rfl

/-- A string literal by itself. -/
def IsString (chars : List Char) : Prop := Lexeme.string (chars.map glyphOf) = some chars.length

variable {chars : List Char}

theorem IsString.head (h : IsString chars) :
    ∃ ch more, chars = ch :: more ∧ (ch = '\x27' ∨ ch = '"') := by
  cases chars with
  | nil => cases h
  | cons ch more =>
      rw [IsString, List.map_cons, Lexeme.string] at h
      split at h
      · rename_i hquote
        exact ⟨ch, more, rfl, by simpa [glyphOf] using hquote⟩
      · cases h

theorem IsString.string_eq (h : IsString chars) : Lexeme.string (chars.map glyphOf ++ gs) = some chars.length := by
  obtain ⟨ch, more, rfl, -⟩ := h.head
  rw [IsString, List.map_cons, Lexeme.string] at h
  rw [List.map_cons, List.cons_append, Lexeme.string]
  split at h
  · rename_i hquote
    obtain ⟨m, hm, hlength⟩ := Option.map_eq_some_iff.mp h
    rw [if_pos hquote, toQuote_append hm, Option.map_some, hlength]
  · cases h

theorem isString_of_string (h : Lexeme.string (chars.map glyphOf ++ gs) = some chars.length) :
    IsString chars := by
  cases chars with
  | nil =>
      rw [Lexeme.string.eq_def] at h
      split at h
      · split at h
        · obtain ⟨m, -, hlength⟩ := Option.map_eq_some_iff.mp h
          cases hlength
        · cases h
      · cases h
  | cons ch more =>
      rw [List.map_cons, List.cons_append, Lexeme.string] at h
      rw [IsString, List.map_cons, Lexeme.string]
      split at h
      · rename_i hquote
        obtain ⟨m, hm, hlength⟩ := Option.map_eq_some_iff.mp h
        obtain rfl : m = more.length := Nat.succ.inj hlength
        have htake := toQuote_take hm
        rw [List.take_left' (by simp)] at htake
        rw [if_pos hquote, htake]
        rfl
      · cases h

end

/-! ## Texts taken apart -/

theorem Gap.append {gap more : List Char} (h : Gap gap) (hmore : Gap more) : Gap (gap ++ more) := by
  induction h with
  | nil => exact hmore
  | blank hblank _ ih => exact .blank hblank ih
  | @line text behind ch htext hch _ ih =>
      have hline := Gap.line htext hch ih
      simpa using hline
  | @block text behind htext _ ih =>
      have hblock := Gap.block htext ih
      simpa using hblock

theorem literal_split : ∀ {token chars : List Char}, Lexeme.literal token (chars.map glyphOf) = true →
    ∃ behind, chars = token ++ behind
  | [], chars, _ => ⟨chars, rfl⟩
  | t :: token, [], h => nomatch h
  | t :: token, ch :: chars, h => by
      simp only [List.map_cons, Lexeme.literal, glyphOf, Bool.true_and, Bool.and_eq_true, beq_iff_eq] at h
      obtain ⟨rfl, h⟩ := h
      obtain ⟨behind, rfl⟩ := literal_split h
      exact ⟨behind, rfl⟩

theorem wordFrom_le_length : ∀ {gs : List Glyph} {skip : Nat}, Lexeme.wordFrom skip gs ≤ gs.length
  | [], _ => by simp [Lexeme.wordFrom]
  | g :: gs, skip + 1 => Nat.succ_le_succ wordFrom_le_length
  | g :: gs, 0 => by
      rw [Lexeme.wordFrom, List.length_cons]
      split
      · exact Nat.succ_le_succ wordFrom_le_length
      · split
        · exact Nat.succ_le_succ wordFrom_le_length
        · exact Nat.zero_le _

theorem word_le_length {gs : List Glyph} : Lexeme.word gs ≤ gs.length := by
  rw [Lexeme.word.eq_def]
  split
  · split
    · exact Nat.zero_le _
    · exact wordFrom_le_length
  · exact Nat.zero_le _

end Syntax

end ImportAssist
