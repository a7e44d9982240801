import Mathlib.Data.List.TakeWhile
import ImportAssist.Proofs.ReadingDepth
import ImportAssist.Proofs.WholeTokens

/-!
# Tokens that a known text decides

Where only the front of a text is known, a token is decided if the same is scanned whatever stands behind the
front. Words, numbers, marks and regular expressions end with their line at the latest, so they are decided as
soon as the known text has a line break ahead. Strings, templates, comments of several lines and groups in
brackets end with a mark of their own, and are decided once that mark is known.
-/

namespace ImportAssist

namespace Syntax

/-- A line ends in the text that is known. -/
def HasBreak (gs : List Glyph) : Prop := ∃ g ∈ gs, g.char = '\n'

instance (gs : List Glyph) : Decidable (HasBreak gs) := inferInstanceAs (Decidable (∃ g ∈ gs, _))

section

variable {g : Glyph} {gs more : List Glyph} {test : Char → Bool} {n skip : Nat}

theorem HasBreak.tail (h : HasBreak (g :: gs)) (hg : g.char ≠ '\n') : HasBreak gs := by
  obtain ⟨x, hx, hbreak⟩ := h
  rcases List.mem_cons.mp hx with rfl | hx
  · exact absurd hbreak hg
  · exact ⟨x, hx, hbreak⟩

theorem HasBreak.ne_nil (h : HasBreak gs) : gs ≠ [] := by
  obtain ⟨x, hx, -⟩ := h
  exact List.ne_nil_of_mem hx

theorem HasBreak.drop_append (h : HasBreak (gs.drop n)) : (gs ++ more).drop n = gs.drop n ++ more := by
  have hlength := List.length_pos_iff.mpr h.ne_nil
  rw [List.length_drop] at hlength
  exact List.drop_append_of_le_length (by omega)

theorem HasBreak.nextIn {chars : List Char} (h : HasBreak gs) :
    Lexeme.nextIn chars (gs ++ more) = Lexeme.nextIn chars gs := nextIn_append h.ne_nil

/-- What is not a line break stands in front of one. -/
theorem HasBreak.drop_one {chars : List Char} (h : HasBreak gs) (hnext : Lexeme.nextIn chars gs = true)
    (hchars : chars.contains '\n' = false) : HasBreak (gs.drop 1) := by
  cases gs with
  | nil => cases hnext
  | cons g gs =>
      refine h.tail fun hg => ?_
      rw [Lexeme.nextIn, hg, hchars, Bool.and_false] at hnext
      cases hnext

/-! ## Runs -/

theorem HasBreak.drop_run (htest : test '\n' = false) : ∀ {gs : List Glyph}, HasBreak gs →
    HasBreak (gs.drop (Lexeme.runLength test gs))
  | [], h => absurd rfl h.ne_nil
  | g :: gs, h => by
      rw [Lexeme.runLength]
      split
      · rename_i hg
        refine HasBreak.drop_run htest (h.tail fun hbreak => ?_)
        rw [hbreak, htest, Bool.and_false] at hg
        cases hg
      · exact h

theorem HasBreak.runLength (h : HasBreak gs) (htest : test '\n' = false) :
    Lexeme.runLength test (gs ++ more) = Lexeme.runLength test gs := by
  have hlength := List.length_pos_iff.mpr (h.drop_run htest).ne_nil
  rw [List.length_drop] at hlength
  exact runLength_append (by omega)

theorem HasBreak.runLength_take (htest : test '\n' = false) : ∀ {gs : List Glyph} {n : Nat}, HasBreak gs →
    Lexeme.runLength test ((gs ++ more).take n) = Lexeme.runLength test (gs.take n)
  | [], _, h => absurd rfl h.ne_nil
  | _, 0, _ => rfl
  | g :: gs, n + 1, h => by
      rw [List.cons_append, List.take_succ_cons, List.take_succ_cons, Lexeme.runLength, Lexeme.runLength]
      split
      · rename_i hg
        rw [HasBreak.runLength_take htest (h.tail fun hbreak => ?_)]
        rw [hbreak, htest, Bool.and_false] at hg
        cases hg
      · rfl

theorem HasBreak.drop_take (htest : test '\n' = false) : ∀ {gs : List Glyph} {n : Nat}, HasBreak gs →
    n ≤ Lexeme.runLength test (gs.take n) → HasBreak (gs.drop n)
  | [], _, h, _ => absurd rfl h.ne_nil
  | _ :: _, 0, h, _ => h
  | g :: gs, n + 1, h, hn => by
      rw [List.take_succ_cons, Lexeme.runLength] at hn
      split at hn
      · rename_i hg
        have hgs : HasBreak gs := h.tail fun hbreak => by
          rw [hbreak, htest, Bool.and_false] at hg
          cases hg
        have hdrop : HasBreak (gs.drop n) := HasBreak.drop_take htest hgs (Nat.le_of_succ_le_succ hn)
        exact hdrop
      · exact absurd hn (Nat.not_succ_le_zero _)

theorem HasBreak.literal : ∀ {chars : List Char} {gs : List Glyph}, '\n' ∉ chars → HasBreak gs →
    Lexeme.literal chars (gs ++ more) = Lexeme.literal chars gs ∧
      (Lexeme.literal chars gs = true → HasBreak (gs.drop chars.length))
  | [], _, _, h => ⟨rfl, fun _ => h⟩
  | _ :: _, [], _, h => absurd rfl h.ne_nil
  | ch :: chars, g :: gs, hchars, h => by
      rw [List.mem_cons, not_or] at hchars
      rw [List.cons_append, Lexeme.literal, Lexeme.literal]
      by_cases hg : g.char = ch
      · obtain ⟨heq, hdrop⟩ := HasBreak.literal hchars.2 (h.tail fun hbreak => hchars.1 (hbreak.symm.trans hg))
        rw [heq, Bool.and_eq_true]
        exact ⟨rfl, fun hliteral => hdrop hliteral.2⟩
      · have hne : (g.char == ch) = false := beq_eq_false_iff_ne.mpr hg
        simp [hne]

/-! ## Words -/

theorem HasBreak.wordEscape (h : HasBreak gs) :
    Lexeme.wordEscape (gs ++ more) = Lexeme.wordEscape gs ∧
      ∀ n, Lexeme.wordEscape gs = some n → HasBreak (gs.drop n) := by
  match gs, h with
  | [], h => exact absurd rfl h.ne_nil
  | [b], h =>
      obtain ⟨x, hx, hbreak⟩ := h
      rw [List.mem_singleton] at hx
      subst hx
      refine ⟨?_, nofun⟩
      rw [List.singleton_append]
      unfold Lexeme.wordEscape
      split
      · rename_i b u rest heq
        obtain ⟨rfl, -⟩ := List.cons.inj heq
        simp [hbreak]
      · rfl
  | b :: u :: gs, h =>
      by_cases hescape : (b.char == '\\' && u.char == 'u') = true
      · have hgs : HasBreak gs := by
          rw [Bool.and_eq_true, beq_iff_eq, beq_iff_eq] at hescape
          refine (h.tail ?_).tail ?_
          · rw [hescape.1]
            decide
          · rw [hescape.2]
            decide
        obtain ⟨g, gs, rfl⟩ := List.exists_cons_of_ne_nil hgs.ne_nil
        rw [List.cons_append, List.cons_append, List.cons_append, wordEscape_cons, wordEscape_cons,
          if_pos hescape, if_pos hescape]
        by_cases hbrace : (g.char == '\x7b') = true
        · have hmore : HasBreak gs := hgs.tail fun hbreak => by
            rw [hbreak] at hbrace
            cases hbrace
          have hend : HasBreak (gs.drop (Lexeme.runLength Lexeme.isHexDigit gs)) := hmore.drop_run rfl
          rw [if_pos hbrace, if_pos hbrace, hmore.runLength rfl, hend.drop_append, hend.nextIn]
          refine ⟨rfl, fun n hn => ?_⟩
          split at hn
          · rename_i hdigits
            cases hn
            rw [Bool.and_eq_true] at hdigits
            have hlast := hend.drop_one hdigits.2 rfl
            rw [List.drop_drop] at hlast
            exact hlast
          · cases hn
        · rw [if_neg hbrace, if_neg hbrace, ← List.cons_append, hgs.runLength_take rfl]
          refine ⟨rfl, fun n hn => ?_⟩
          split at hn
          · rename_i hdigits
            cases hn
            exact hgs.drop_take rfl hdigits
          · cases hn
      · have hnone (rest : List Glyph) : Lexeme.wordEscape (b :: u :: rest) = none := by
          unfold Lexeme.wordEscape
          dsimp only
          rw [if_neg hescape]
        exact ⟨(hnone _).trans (hnone _).symm, fun n hn => by rw [hnone] at hn; cases hn⟩

theorem HasBreak.wordFrom : ∀ {gs : List Glyph} {skip : Nat}, HasBreak (gs.drop skip) →
    Lexeme.wordFrom skip (gs ++ more) = Lexeme.wordFrom skip gs ∧
      HasBreak (gs.drop (Lexeme.wordFrom skip gs))
  | [], _, h => by
      rw [List.drop_nil] at h
      exact absurd rfl h.ne_nil
  | g :: gs, skip + 1, h => by
      obtain ⟨heq, hdrop⟩ := @HasBreak.wordFrom gs skip h
      rw [List.cons_append, Lexeme.wordFrom, Lexeme.wordFrom, heq]
      exact ⟨rfl, hdrop⟩
  | g :: gs, 0, h => by
      rw [List.cons_append, Lexeme.wordFrom, Lexeme.wordFrom]
      split
      · rename_i hglyph
        have hgs : HasBreak gs := HasBreak.tail h fun hbreak => by
          rw [Lexeme.isWordGlyph, hbreak] at hglyph
          simp [Lexeme.isBlank] at hglyph
        obtain ⟨heq, hdrop⟩ := @HasBreak.wordFrom gs 0 hgs
        rw [heq]
        exact ⟨rfl, hdrop⟩
      · obtain ⟨hescape, hbehind⟩ := @HasBreak.wordEscape (g :: gs) more h
        rw [List.cons_append] at hescape
        rw [hescape]
        cases hn : Lexeme.wordEscape (g :: gs) with
        | none => exact ⟨rfl, h⟩
        | some n =>
            have hrest := hbehind n hn
            obtain ⟨k, rfl⟩ : ∃ k, n = k + 1 := ⟨n - 1, by have := wordEscape_pos hn; omega⟩
            obtain ⟨heq, hdrop⟩ := @HasBreak.wordFrom gs k hrest
            dsimp only
            rw [Nat.add_sub_cancel, heq]
            exact ⟨rfl, hdrop⟩

theorem HasBreak.word (h : HasBreak gs) : Lexeme.word (gs ++ more) = Lexeme.word gs ∧
    HasBreak (gs.drop (Lexeme.word gs)) := by
  obtain ⟨g, gs, rfl⟩ := List.exists_cons_of_ne_nil h.ne_nil
  rw [List.cons_append, Lexeme.word, Lexeme.word]
  split
  · exact ⟨rfl, h⟩
  · exact @HasBreak.wordFrom more (g :: gs) 0 h

theorem HasBreak.dashedName (h : HasBreak gs) : Lexeme.dashedName (gs ++ more) = Lexeme.dashedName gs := by
  obtain ⟨g, gs, rfl⟩ := List.exists_cons_of_ne_nil h.ne_nil
  have hend : HasBreak ((g :: gs).drop (Lexeme.runLength (fun c => c.isAlphanum || c == '_' || c == '$') (g :: gs))) :=
    h.drop_run rfl
  have hrun : Lexeme.runLength (fun c => c.isAlphanum || c == '_' || c == '$') (g :: gs ++ more) =
      Lexeme.runLength (fun c => c.isAlphanum || c == '_' || c == '$') (g :: gs) := h.runLength rfl
  rw [List.cons_append] at hrun ⊢
  simp only [Lexeme.dashedName, hrun]
  rw [← List.cons_append, hend.drop_append, hend.nextIn, hend.runLength rfl]

/-! ## Lines -/

theorem HasBreak.restOfLine : ∀ {gs : List Glyph}, HasBreak gs →
    Lexeme.restOfLine (gs ++ more) = Lexeme.restOfLine gs
  | [], h => absurd rfl h.ne_nil
  | g :: gs, h => by
      rw [List.cons_append, Lexeme.restOfLine, Lexeme.restOfLine]
      split
      · rfl
      · rename_i hg
        rw [HasBreak.restOfLine (h.tail fun hbreak => hg (by rw [hbreak]; rfl))]

theorem HasBreak.regexFrom : ∀ {gs : List Glyph} {inClass : Bool} {skip : Nat}, HasBreak gs →
    Lexeme.regexFrom inClass skip (gs ++ more) = Lexeme.regexFrom inClass skip gs ∧
      ∀ n, Lexeme.regexFrom inClass skip gs = some n → HasBreak (gs.drop (n + 1))
  | [], _, _, h => absurd rfl h.ne_nil
  | g :: gs, inClass, skip, h => by
      rw [List.cons_append, Lexeme.regexFrom, Lexeme.regexFrom]
      by_cases hline : Lexeme.isLineEnd g.char = true
      · rw [if_pos hline, if_pos hline]
        exact ⟨rfl, nofun⟩
      · have hgs : HasBreak gs := h.tail fun hbreak => hline (by rw [hbreak]; rfl)
        have hmore (inClass : Bool) (skip : Nat) :
            (Lexeme.regexFrom inClass skip (gs ++ more)).map (· + 1) =
                (Lexeme.regexFrom inClass skip gs).map (· + 1) ∧
              ∀ n, (Lexeme.regexFrom inClass skip gs).map (· + 1) = some n → HasBreak ((g :: gs).drop (n + 1)) := by
          obtain ⟨heq, hbehind⟩ := @HasBreak.regexFrom gs inClass skip hgs
          refine ⟨by rw [heq], fun n hn => ?_⟩
          obtain ⟨m, hm, rfl⟩ := Option.map_eq_some_iff.mp hn
          exact hbehind m hm
        rw [if_neg hline, if_neg hline]
        repeat' split
        all_goals first | exact hmore _ _ | skip
        exact ⟨rfl, fun n hn => by cases hn; exact hgs⟩

theorem HasBreak.regex (h : HasBreak gs) : Lexeme.regex (gs ++ more) = Lexeme.regex gs := by
  obtain ⟨g, gs, rfl⟩ := List.exists_cons_of_ne_nil h.ne_nil
  rw [List.cons_append, Lexeme.regex, Lexeme.regex]
  split
  · rename_i hslash
    have hgs : HasBreak gs := h.tail fun hbreak => by
      rw [hbreak] at hslash
      cases hslash
    obtain ⟨heq, hbehind⟩ := @HasBreak.regexFrom more gs false 0 hgs
    rw [heq]
    cases hn : Lexeme.regexFrom false 0 gs with
    | none => rfl
    | some n =>
        cases n with
        | zero => rfl
        | succ n =>
            have hend := hbehind _ hn
            dsimp only
            rw [hend.drop_append, hend.runLength rfl]
  · rfl

theorem HasBreak.markupComment (h : HasBreak gs) : Lexeme.markupComment (gs ++ more) = Lexeme.markupComment gs := by
  rw [Lexeme.markupComment, Lexeme.markupComment, (HasBreak.literal (by decide) h).1,
    (HasBreak.literal (by decide) h).1, h.restOfLine]

theorem HasBreak.privateName (h : HasBreak gs) : Lexeme.privateName (gs ++ more) = Lexeme.privateName gs := by
  obtain ⟨g, gs, rfl⟩ := List.exists_cons_of_ne_nil h.ne_nil
  rw [List.cons_append, Lexeme.privateName, Lexeme.privateName]
  by_cases hg : g.char = '#'
  · have hgs : HasBreak gs := h.tail (by rw [hg]; decide)
    rw [hgs.word.1]
  · simp [hg]

/-! ## Numbers -/

theorem HasBreak.digitsFrom (htest : test '\n' = false) : ∀ {gs : List Glyph} {start : Bool}, HasBreak gs →
    Lexeme.digitsFrom test start (gs ++ more) = Lexeme.digitsFrom test start gs ∧
      HasBreak (gs.drop (Lexeme.digitsFrom test start gs))
  | [], _, h => absurd rfl h.ne_nil
  | g :: gs, start, h => by
      by_cases hbreak : g.char = '\n'
      · simpa [Lexeme.digitsFrom, hbreak, htest] using h
      · have hgs := h.tail hbreak
        obtain ⟨x, xs, rfl⟩ := List.exists_cons_of_ne_nil hgs.ne_nil
        obtain ⟨heq, hdrop⟩ := @HasBreak.digitsFrom htest (x :: xs) false hgs
        rw [List.cons_append] at heq
        rw [List.cons_append, List.cons_append, Lexeme.digitsFrom, Lexeme.digitsFrom, heq]
        split
        · exact ⟨rfl, hdrop⟩
        · split
          · exact ⟨rfl, hdrop⟩
          · exact ⟨rfl, h⟩

theorem HasBreak.digits (htest : test '\n' = false) (h : HasBreak gs) :
    Lexeme.digits test (gs ++ more) = Lexeme.digits test gs ∧ HasBreak (gs.drop (Lexeme.digits test gs)) :=
  HasBreak.digitsFrom htest h

theorem HasBreak.exponent (h : HasBreak gs) : Lexeme.exponent (gs ++ more) = Lexeme.exponent gs := by
  obtain ⟨g, gs, rfl⟩ := List.exists_cons_of_ne_nil h.ne_nil
  rw [List.cons_append, Lexeme.exponent, Lexeme.exponent]
  split
  · rename_i hmark
    have hgs : HasBreak gs := h.tail fun hbreak => by
      rw [hbreak] at hmark
      cases hmark
    rw [hgs.nextIn]
    have hsigned : HasBreak (gs.drop (if Lexeme.nextIn ['+', '-'] gs = true then 1 else 0)) := by
      split
      · rename_i hsign
        exact hgs.drop_one hsign rfl
      · exact hgs
    dsimp only
    rw [hsigned.drop_append, (hsigned.digits rfl).1]
  · rfl

theorem HasBreak.bigSuffix (h : HasBreak gs) : Lexeme.bigSuffix (gs ++ more) = Lexeme.bigSuffix gs := by
  rw [Lexeme.bigSuffix, Lexeme.bigSuffix, h.nextIn]

theorem HasBreak.decimal (h : HasBreak gs) : Lexeme.decimal (gs ++ more) = Lexeme.decimal gs := by
  obtain ⟨hwhole, hrest⟩ := @HasBreak.digits gs more Char.isDigit rfl h
  simp only [Lexeme.decimal]
  rw [hwhole, hrest.drop_append, hrest.nextIn]
  split
  · rename_i hpoint
    have hfraction := hrest.drop_one hpoint rfl
    obtain ⟨heq, hend⟩ := @HasBreak.digits _ more Char.isDigit rfl hfraction
    rw [List.drop_drop, Nat.add_comm 1] at hend
    rw [hfraction.drop_append, heq, hend.drop_append, hend.exponent]
  · rw [hrest.exponent, hrest.bigSuffix]

/-- The mark of a base in front of the digits of the base. -/
theorem radix_cases (z x : Glyph) : (∀ gs, Lexeme.radix (z :: x :: gs) = none) ∨
    z.char ≠ '\n' ∧ x.char ≠ '\n' ∧ ∃ test : Char → Bool, test '\n' = false ∧
      ∀ gs, Lexeme.radix (z :: x :: gs) =
        if 0 < Lexeme.digits test gs then some (Lexeme.digits test gs + 2) else none := by
  by_cases hzero : (z.char == '0') = true
  · have hz : z.char ≠ '\n' := by
      rw [beq_iff_eq.mp hzero]
      decide
    simp only [Lexeme.radix, if_pos hzero]
    by_cases hx : (x.char == 'x' || x.char == 'X') = true
    · refine .inr ⟨hz, fun hbreak => ?_, Lexeme.isHexDigit, rfl, fun gs => by rw [if_pos hx]⟩
      rw [hbreak] at hx
      cases hx
    · by_cases ho : (x.char == 'o' || x.char == 'O') = true
      · refine .inr ⟨hz, fun hbreak => ?_, _, ?_, fun gs => by rw [if_neg hx, if_pos ho]⟩
        · rw [hbreak] at ho
          cases ho
        · rfl
      · by_cases hb : (x.char == 'b' || x.char == 'B') = true
        · refine .inr ⟨hz, fun hbreak => ?_, _, ?_, fun gs => by rw [if_neg hx, if_neg ho, if_pos hb]⟩
          · rw [hbreak] at hb
            cases hb
          · rfl
        · exact .inl fun gs => by rw [if_neg hx, if_neg ho, if_neg hb]
  · exact .inl fun gs => by rw [Lexeme.radix, if_neg hzero]

theorem HasBreak.radix (h : HasBreak gs) : Lexeme.radix (gs ++ more) = Lexeme.radix gs ∧
    ∀ n, Lexeme.radix gs = some n → HasBreak (gs.drop n) := by
  match gs, h with
  | [], h => exact absurd rfl h.ne_nil
  | [z], h =>
      obtain ⟨g, hg, hbreak⟩ := h
      rw [List.mem_singleton] at hg
      subst hg
      refine ⟨?_, nofun⟩
      cases more with
      | nil => rfl
      | cons x more => simp [Lexeme.radix, hbreak]
  | z :: x :: gs, h =>
      rcases radix_cases z x with hnone | ⟨hz, hx, test, htest, heq⟩
      · exact ⟨(hnone _).trans (hnone _).symm, fun n hn => by rw [hnone] at hn; cases hn⟩
      · obtain ⟨hdigits, hbehind⟩ := @HasBreak.digits gs more test htest ((h.tail hz).tail hx)
        refine ⟨by rw [List.cons_append, List.cons_append, heq, heq, hdigits], fun n hn => ?_⟩
        rw [heq] at hn
        split at hn
        · cases hn
          exact hbehind
        · cases hn

theorem HasBreak.number (h : HasBreak gs) : Lexeme.number (gs ++ more) = Lexeme.number gs := by
  obtain ⟨heq, hbehind⟩ := @HasBreak.radix gs more h
  rw [Lexeme.number, Lexeme.number, heq]
  cases hn : Lexeme.radix gs with
  | none => exact h.decimal
  | some n =>
      have hend := hbehind n hn
      dsimp only
      rw [hend.drop_append, hend.bigSuffix]

/-! ## Ends of statements -/

theorem HasBreak.mayStartStatement (h : HasBreak gs) :
    mayStartStatement (gs ++ more) = mayStartStatement gs := by
  obtain ⟨g, gs, rfl⟩ := List.exists_cons_of_ne_nil h.ne_nil
  have hnext {ch : Char} {chars : List Char} (hch : (g.char == ch) = true) (hline : ch ≠ '\n') :
      Lexeme.nextIn chars (gs ++ more) = Lexeme.nextIn chars gs :=
    (h.tail fun hbreak => hline (by rw [← beq_iff_eq.mp hch, hbreak])).nextIn
  have hword := (@HasBreak.word _ more h).1
  have hin := (@HasBreak.literal more "in".toList _ (by decide) h).1
  have hof := (@HasBreak.literal more "instanceof".toList _ (by decide) h).1
  rw [List.cons_append] at hword hin hof ⊢
  rw [Syntax.mayStartStatement, Syntax.mayStartStatement, hword, hin, hof]
  split
  · rfl
  · split
    · rename_i hplus
      exact hnext hplus (by decide)
    · split
      · rename_i hminus
        exact hnext hminus (by decide)
      · split
        · rename_i hnot
          rw [hnext hnot (by decide)]
        · rfl

end

/-! ## Tokens with an end of their own -/

section

variable {g : Glyph} {gs more : List Glyph} {n skip : Nat}

theorem string_append (h : Lexeme.string gs = some n) : Lexeme.string (gs ++ more) = some n := by
  cases gs with
  | nil => cases h
  | cons g gs =>
      rw [List.cons_append, Lexeme.string]
      rw [Lexeme.string] at h
      split at h
      · rename_i hquote
        obtain ⟨m, hm, rfl⟩ := Option.map_eq_some_iff.mp h
        rw [if_pos hquote, toQuote_append hm]
        rfl
      · cases h

theorem markupString_append (h : Lexeme.markupString gs = some n) : Lexeme.markupString (gs ++ more) = some n := by
  cases gs with
  | nil => cases h
  | cons g gs =>
      rw [List.cons_append, Lexeme.markupString]
      rw [Lexeme.markupString] at h
      split at h
      · rename_i hquote
        dsimp only at h
        split at h
        · rename_i hclosed
          have hlength := length_pos_of_nextIn hclosed
          rw [List.length_drop] at hlength
          have hrest := List.ne_nil_of_length_pos (length_pos_of_nextIn hclosed)
          dsimp only
          rw [if_pos hquote, runLength_append (by omega), List.drop_append_of_le_length (by omega),
            nextIn_append hrest, if_pos hclosed]
          exact h
        · cases h
      · cases h

theorem lt_length_of_templateFrom : ∀ {gs : List Glyph} {skip n : Nat},
    Lexeme.templateFrom skip gs = some n → skip < gs.length
  | [], skip, n, h => by cases skip <;> cases h
  | g :: gs, 0, n, _ => Nat.zero_lt_succ _
  | g :: gs, skip + 1, n, h => by
      rw [Lexeme.templateFrom, Option.map_eq_some_iff] at h
      obtain ⟨m, hm, -⟩ := h
      have := lt_length_of_templateFrom hm
      rw [List.length_cons]
      omega

theorem templateFrom_append : ∀ {gs : List Glyph} {skip n : Nat},
    Lexeme.templateFrom skip gs = some n → Lexeme.templateFrom skip (gs ++ more) = some n
  | [], skip, n, h => by cases skip <;> cases h
  | g :: gs, skip + 1, n, h => by
      rw [Lexeme.templateFrom, Option.map_eq_some_iff] at h
      obtain ⟨m, hm, rfl⟩ := h
      rw [List.cons_append, Lexeme.templateFrom, templateFrom_append hm]
      rfl
  | g :: gs, 0, n, h => by
      rw [List.cons_append, Lexeme.templateFrom]
      rw [Lexeme.templateFrom] at h
      split at h
      · rename_i hend
        rw [if_pos hend, h]
      · rename_i hend
        have hgs : gs ≠ [] := by
          rintro rfl
          simp [Lexeme.nextIn, Lexeme.escapeTail, Lexeme.templateFrom] at h
        rw [if_neg hend, nextIn_append hgs]
        split at h
        · rename_i hopens
          rw [if_pos hopens, h]
        · rename_i hopens
          rw [if_neg hopens]
          split at h
          · rename_i hescape
            rw [if_pos hescape]
            split at h
            · rename_i k hk
              obtain ⟨m, hm, rfl⟩ := Option.map_eq_some_iff.mp h
              rw [escapeTail_append hk (lt_length_of_templateFrom hm)]
              dsimp only
              rw [templateFrom_append hm]
              rfl
            · cases h
          · rename_i hescape
            obtain ⟨m, hm, rfl⟩ := Option.map_eq_some_iff.mp h
            rw [if_neg hescape, templateFrom_append hm]
            rfl

theorem templateText_append (h : (Lexeme.templateFrom 0 gs).isSome = true) :
    Lexeme.templateText (gs ++ more) = Lexeme.templateText gs := by
  obtain ⟨n, hn⟩ := Option.isSome_iff_exists.mp h
  rw [Lexeme.templateText, Lexeme.templateText, hn, templateFrom_append hn]

theorem markupText_append
    (h : (gs.any fun g => ['<', '>', '\x7b', '\x7d', '&'].contains g.char) = true) :
    Lexeme.markupText (gs ++ more) = Lexeme.markupText gs := by
  have htake : (gs ++ more).takeWhile (fun g => !(['<', '>', '\x7b', '\x7d', '&'].contains g.char)) =
      gs.takeWhile fun g => !(['<', '>', '\x7b', '\x7d', '&'].contains g.char) := by
    rw [List.takeWhile_append, if_neg]
    intro hall
    obtain ⟨g, hg, hends⟩ := List.any_eq_true.mp h
    have hlength := (List.takeWhile_prefix _).eq_of_length hall
    rw [List.takeWhile_eq_self_iff] at hlength
    have hnot := hlength g hg
    rw [hends] at hnot
    cases hnot
  rw [Lexeme.markupText, Lexeme.markupText, htake]

/-- Whether a comment starts here that may run over several lines. -/
def opensBlock : List Glyph → Bool
  | a :: b :: _ => a.char == '/' && b.char == '*'
  | _ => false

/-- Whether a known text decides the comment ahead. -/
def commentDecided (gs : List Glyph) : Bool :=
  if opensBlock gs then (Lexeme.comment gs).isSome else decide (HasBreak gs)

theorem comment_append (h : commentDecided gs = true) : Lexeme.comment (gs ++ more) = Lexeme.comment gs := by
  match gs, h with
  | [], h =>
      have hbreak : HasBreak [] := of_decide_eq_true h
      exact absurd rfl hbreak.ne_nil
  | [a], h =>
      have hbreak : HasBreak [a] := of_decide_eq_true h
      obtain ⟨g, hg, hbreak⟩ := hbreak
      rw [List.mem_singleton] at hg
      subst hg
      cases more with
      | nil => rfl
      | cons b more => simp [Lexeme.comment, hbreak]
  | a :: b :: gs, h =>
      rw [commentDecided, opensBlock] at h
      rw [List.cons_append, List.cons_append]
      split at h
      · rename_i hstar
        obtain ⟨n, hn⟩ := Option.isSome_iff_exists.mp h
        have hline : ¬(a.char == '/' && b.char == '/') = true := by
          rw [Bool.and_eq_true, beq_iff_eq, beq_iff_eq] at hstar
          rw [hstar.2]
          simp
        rw [Lexeme.comment, if_neg hline, if_pos hstar] at hn
        obtain ⟨m, hm, -⟩ := Option.map_eq_some_iff.mp hn
        rw [Lexeme.comment, Lexeme.comment, if_neg hline, if_neg hline, if_pos hstar, if_pos hstar, hm,
          toBlockEnd_append _ hm]
      · rename_i hstar
        rw [Lexeme.comment, Lexeme.comment, if_neg hstar, if_neg hstar]
        split
        · rename_i hline
          rw [Bool.and_eq_true, beq_iff_eq, beq_iff_eq] at hline
          have hgs : HasBreak gs := ((of_decide_eq_true h).tail (by rw [hline.1]; decide)).tail
            (by rw [hline.2]; decide)
          rw [hgs.restOfLine]
        · rfl

/-- A group that ends with the one glyph that is known ends with a closing bracket. -/
theorem groupFrom_last {g : Glyph} {frames : List Lexeme.Frame} {mode : Lexeme.Mode} {n : Nat}
    (h : Lexeme.groupFrom frames mode [g] = some n) : Lexeme.groupFrom frames mode (g :: more) = some n := by
  have hnone (frames : List Lexeme.Frame) (mode : Lexeme.Mode) : Lexeme.groupFrom frames mode [] = none := by
    unfold Lexeme.groupFrom
    rfl
  obtain ⟨close, rfl, rfl, hcloses, rfl, rfl⟩ : ∃ close, mode = .code ∧ frames = [.bracket close] ∧
      (g.char == ')' || g.char == ']' || g.char == '\x7d') = true ∧ g.char = close ∧ n = 1 := by
    unfold Lexeme.groupFrom at h
    simp only [hnone, Option.map_none] at h
    repeat' split at h
    all_goals cases h
    rename_i hcloses _ close outer _ hclose hlast
    exact ⟨close, rfl, by rw [List.isEmpty_iff.mp hlast], hcloses, beq_iff_eq.mp hclose, rfl⟩
  have hchar : g.char = ')' ∨ g.char = ']' ∨ g.char = '\x7d' := by simpa [or_assoc] using hcloses
  unfold Lexeme.groupFrom
  rcases hchar with hg | hg | hg <;> simp [hg, Lexeme.closer]

theorem groupFrom_append : ∀ {gs : List Glyph} {frames : List Lexeme.Frame} {mode : Lexeme.Mode} {n : Nat},
    Lexeme.groupFrom frames mode gs = some n → Lexeme.groupFrom frames mode (gs ++ more) = some n
  | [], _, _, _, h => by
      unfold Lexeme.groupFrom at h
      cases h
  | [g], _, _, _, h => groupFrom_last h
  | g :: x :: gs, frames, mode, n, h => by
      have hstep {frames : List Lexeme.Frame} {mode : Lexeme.Mode}
          (h : (Lexeme.groupFrom frames mode (x :: gs)).map (· + 1) = some n) :
          (Lexeme.groupFrom frames mode (x :: gs ++ more)).map (· + 1) = some n := by
        obtain ⟨m, hm, rfl⟩ := Option.map_eq_some_iff.mp h
        rw [groupFrom_append hm]
        rfl
      have hif {c : Prop} [Decidable c] {a b a' b' : Option Nat} (ha : a = some n → a' = some n)
          (hb : b = some n → b' = some n) (h : (if c then a else b) = some n) : (if c then a' else b') = some n := by
        split at h
        · rw [if_pos ‹c›, ha h]
        · rw [if_neg ‹¬c›, hb h]
      -- the mark that looks like both ends of a comment takes three glyphs
      have hblock {frames : List Lexeme.Frame} (h : (if Lexeme.literal "/*/".toList (g :: x :: gs) then none
          else (Lexeme.groupFrom frames .block (x :: gs)).map (· + 1)) = some n) :
          (if Lexeme.literal "/*/".toList (g :: x :: gs ++ more) then none
          else (Lexeme.groupFrom frames .block (x :: gs ++ more)).map (· + 1)) = some n := by
        cases gs with
        | nil =>
            unfold Lexeme.groupFrom at h
            simp [Lexeme.groupFrom, Lexeme.nextIn] at h
        | cons y gs => exact hif id hstep h
      unfold Lexeme.groupFrom at h ⊢
      cases mode with
      | skip => exact hstep h
      | line => exact hif hstep hstep h
      | block => exact hif hstep hstep h
      | quoted q escaped =>
          cases escaped with
          | true => exact hstep h
          | false => exact hif hstep (hif hstep (hif id hstep)) h
      | code =>
          cases frames with
          | nil =>
              refine hif hstep (hif hblock (hif hstep (hif hstep fun h => ?_))) h
              cases hclose : Lexeme.closer g.char with
              | none =>
                  rw [hclose] at h
                  exact hif id hstep h
              | some close =>
                  rw [hclose] at h
                  exact hstep h
          | cons frame outer =>
              cases frame with
              | template => exact hif hstep (hif hstep (hif hstep hstep)) h
              | bracket close =>
                  refine hif hstep (hif hblock (hif hstep (hif hstep fun h => ?_))) h
                  cases hclose : Lexeme.closer g.char with
                  | none =>
                      rw [hclose] at h
                      exact hif (hif (hif id hstep) id) hstep h
                  | some close =>
                      rw [hclose] at h
                      exact hstep h
theorem group_append (h : Lexeme.group gs = some n) : Lexeme.group (gs ++ more) = some n := by
  cases gs with
  | nil => cases h
  | cons g gs =>
      rw [List.cons_append, Lexeme.group]
      rw [Lexeme.group] at h
      cases hclose : Lexeme.closer g.char with
      | none =>
          rw [hclose] at h
          cases h
      | some close =>
          rw [hclose] at h
          obtain ⟨m, hm, rfl⟩ := Option.map_eq_some_iff.mp h
          dsimp only
          rw [groupFrom_append hm]
          rfl

end

end Syntax

open Syntax

/-! ## Decided tokens -/

/-- Whether a known text decides the literal of a class. -/
def Lexeme.Class.isDecided (literal : Lexeme.Class) (gs : List Glyph) : Bool :=
  match literal with
  | .number | .regex | .privateName | .dashedName | .markupComment => decide (HasBreak gs)
  | .string | .markupString => (literal.scan gs).isSome || gs.head?.any fun g => g.char != '\x27' && g.char != '"'
  | .templateText => (Lexeme.templateFrom 0 gs).isSome
  | .markupText => gs.any fun g => ['<', '>', '\x7b', '\x7d', '&'].contains g.char
  | .characterReference => gs.head?.any fun g => g.char != '&'

/-- Whether a known text decides what a rule for a token reads. -/
def Rule.isDecided {σ : Type} (rule : Rule σ) (gs : List Glyph) : Bool :=
  match rule with
  | .mark text _ | .keyword text => !text.toList.contains '\n' && decide (HasBreak gs)
  | .name .. => decide (HasBreak gs)
  | .lexeme _ _ literal => literal.isDecided gs
  | .group => (Lexeme.group gs).isSome || gs.head?.any fun g => (Lexeme.closer g.char).isNone
  | _ => false

theorem exists_head {test : Glyph → Bool} {gs : List Glyph} (h : gs.head?.any test = true) :
    ∃ g rest, gs = g :: rest ∧ test g = true := by
  cases gs with
  | nil => cases h
  | cons g rest => exact ⟨g, rest, rfl, h⟩

theorem Lexeme.Class.scan_append {literal : Lexeme.Class} {gs more : List Glyph} (h : literal.isDecided gs = true) :
    literal.scan (gs ++ more) = literal.scan gs := by
  cases literal with
  | string =>
      simp only [isDecided, Bool.or_eq_true] at h
      rcases h with h | h
      · obtain ⟨n, hn⟩ := Option.isSome_iff_exists.mp h
        rw [hn]
        exact string_append hn
      · obtain ⟨g, gs, rfl, hg⟩ := exists_head h
        have hquote : (g.char == '\x27' || g.char == '"') = false := by simpa using hg
        simp [scan, Lexeme.string, hquote]
  | markupString =>
      simp only [isDecided, Bool.or_eq_true] at h
      rcases h with h | h
      · obtain ⟨n, hn⟩ := Option.isSome_iff_exists.mp h
        rw [hn]
        exact markupString_append hn
      · obtain ⟨g, gs, rfl, hg⟩ := exists_head h
        have hquote : (g.char == '\x27' || g.char == '"') = false := by simpa using hg
        simp [scan, Lexeme.markupString, hquote]
  | templateText => exact templateText_append h
  | number => exact (of_decide_eq_true h).number
  | regex => exact (of_decide_eq_true h).regex
  | markupText => exact markupText_append h
  | characterReference =>
      obtain ⟨g, gs, rfl, hg⟩ := exists_head h
      have hmark : (g.char == '&') = false := by simpa using hg
      simp [scan, Lexeme.characterReference, hmark]
  | privateName => exact (of_decide_eq_true h).privateName
  | dashedName => 
      have hname : Lexeme.dashedName (gs ++ more) = Lexeme.dashedName gs := (of_decide_eq_true h).dashedName
      simp only [scan, hname]
  | markupComment => exact (of_decide_eq_true h).markupComment

/-- What stands behind a known text does not matter to a token that the text decides. -/
theorem Rule.scan_append {σ : Type} {rule : Rule σ} {scan : List Glyph → Option Nat} {gs more : List Glyph}
    (hscan : rule.scan? = some scan) (h : rule.isDecided gs = true) : scan (gs ++ more) = scan gs := by
  cases rule with
  | mark text notBefore =>
      cases hscan
      obtain ⟨hchars, hbreak⟩ := Bool.and_eq_true_iff.mp h
      obtain ⟨hliteral, hbehind⟩ := @HasBreak.literal more _ _ (by simpa using hchars)
        (of_decide_eq_true hbreak)
      dsimp only
      rw [hliteral]
      cases htext : Lexeme.literal text.toList gs with
      | false => rfl
      | true => rw [(hbehind htext).drop_append, (hbehind htext).nextIn]
  | keyword text =>
      cases hscan
      obtain ⟨hchars, hbreak⟩ := Bool.and_eq_true_iff.mp h
      dsimp only
      rw [(HasBreak.literal (by simpa using hchars) (of_decide_eq_true hbreak)).1,
        (of_decide_eq_true hbreak).word.1]
  | name kind except =>
      cases hscan
      obtain ⟨hword, hbehind⟩ := @HasBreak.word _ more (of_decide_eq_true h)
      have hlength := List.length_pos_iff.mpr hbehind.ne_nil
      rw [List.length_drop] at hlength
      dsimp only
      rw [hword, List.take_append_of_le_length (by omega)]
  | lexeme kind raw literal =>
      cases hscan
      exact Lexeme.Class.scan_append h
  | group =>
      cases hscan
      simp only [isDecided, Bool.or_eq_true] at h
      rcases h with h | h
      · obtain ⟨n, hn⟩ := Option.isSome_iff_exists.mp h
        rw [hn]
        exact group_append hn
      · obtain ⟨g, gs, rfl, hg⟩ := exists_head h
        rw [List.cons_append, Lexeme.group, Lexeme.group, Option.isNone_iff_eq_none.mp hg]
  | _ => cases hscan

end ImportAssist
