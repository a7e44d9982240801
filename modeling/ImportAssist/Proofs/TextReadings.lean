import Mathlib.Data.List.Basic
import ImportAssist.Proofs.LockStep
import ImportAssist.Proofs.Parts

/-!
# What a rule reads of a text

Given enough fuel, a rule reads a part of a text or refuses it, and which of the two depends neither on
the fuel nor on where the text stands (`result_readText`, `Result.eq`). So a rule is a function from texts to
parts of them, `readText`, and for each form of rule an equation says what that function is. A rule is taken
apart with these equations as well as it is put together.

The equations hold for the rules of which it is known how much fuel is enough; that is decided by
evaluation.
-/

namespace ImportAssist

namespace Syntax

open Grammar (Production)
open Utf8 (glyphOf)

variable {d : Dialect} {p : Place} {rule : Production} {rules : List Production} {a b : Part}
  {text rest : List Char}

/-! ## Parts -/

theorem Part.eq_of (hchars : a.chars = b.chars) (hnodes : ∀ offset, a.nodes offset = b.nodes offset) :
    a = b := by
  obtain ⟨chars, nodes⟩ := a
  obtain ⟨chars', nodes'⟩ := b
  obtain rfl : chars = chars' := hchars
  rw [show nodes = nodes' from funext hnodes]

@[simp] theorem Part.append_nil (a : Part) : a ++ nil = a :=
  eq_of (List.append_nil _) fun _ => List.append_nil _

@[simp] theorem Part.nil_append (a : Part) : nil ++ a = a :=
  eq_of rfl fun offset => by
    have hnil : bytesOf nil.chars = 0 := rfl
    change [] ++ a.nodes (offset + bytesOf nil.chars) = a.nodes offset
    rw [hnil, List.nil_append, Nat.add_zero]

theorem glyphOf_injective : Function.Injective glyphOf := fun _ _ h => congrArg Glyph.char h

/-! ## Results -/

/-- Whether it is known how much fuel is enough for a rule. -/
abbrev IsBounded (rule : Production) : Prop := rule.bounded Symbol.rank 400 = true

/-- What a rule makes of a text, if there is enough fuel: it reads a part and leaves the rest, or it
refuses the text. -/
def Result (d : Dialect) (p : Place) (rule : Production) (text : List Char) :
    Option (Part × List Char) → Prop
  | some (a, rest) => text = a.chars ++ rest ∧ ∃ k, a.ReadBy d p k rule (rest.map glyphOf)
  | none => ∃ k, RefusedBy d p k rule (text.map glyphOf)

/-- Enough fuel for a rule in front of a text. -/
def enoughFuel (rule : Production) (text : List Char) : Nat := rule.depth Symbol.rank + 400 * text.length

/-- What a rule reads of a text, and what is left of it. -/
def readText (d : Dialect) (p : Place) (rule : Production) (text : List Char) : Option (Part × List Char) :=
  (rule.run (grammar d) d.endsLine (enoughFuel rule text) p ⟨0, text.map glyphOf⟩).map fun r =>
    let n := text.length - r.2.rest.length
    (⟨text.take n, fun offset => r.1.map (Node.shift offset)⟩, text.drop n)

theorem RefusedBy.mono {k l : Nat} {gs : List Glyph} (h : RefusedBy d p k rule gs) (hk : k ≤ l) :
    RefusedBy d p l rule gs := fun offset => (h offset).mono hk

/-- There is one result. -/
theorem Result.unique {x y : Option (Part × List Char)} (hx : Result d p rule text x)
    (hy : Result d p rule text y) : x = y := by
  cases x with
  | none =>
      obtain ⟨k, hk⟩ := hx
      cases y with
      | none => rfl
      | some y =>
          obtain ⟨rfl, l, hl⟩ := hy
          have hnone := hk 0 (max k l) (Nat.le_max_left k l)
          have hread := hl 0 (max k l) (Nat.le_max_right k l)
          rw [List.map_append, hread] at hnone
          cases hnone
  | some x =>
      obtain ⟨rfl, k, hk⟩ := hx
      cases y with
      | none =>
          obtain ⟨l, hl⟩ := hy
          have hread := hk 0 (max k l) (Nat.le_max_left k l)
          have hnone := hl 0 (max k l) (Nat.le_max_right k l)
          rw [List.map_append, hread] at hnone
          cases hnone
      | some y =>
          obtain ⟨a, rest⟩ := x
          obtain ⟨b, rest'⟩ := y
          obtain ⟨htext, l, hl⟩ := hy
          have hsame : a.chars.map glyphOf ++ rest.map glyphOf =
              b.chars.map glyphOf ++ rest'.map glyphOf := by
            rw [← List.map_append, htext, List.map_append]
          have hboth (offset : Nat) := (hk offset (max k l) (Nat.le_max_left k l)).symm.trans
            (hsame ▸ hl offset (max k l) (Nat.le_max_right k l))
          have hrest : rest = rest' := by
            have hcursor := congrArg (fun r => r.2.rest) (Option.some.inj (hboth 0))
            exact glyphOf_injective.list_map hcursor
          subst hrest
          have hparts : a = b := Part.eq_of (List.append_cancel_right htext) fun offset =>
            congrArg Prod.fst (Option.some.inj (hboth offset))
          rw [hparts]

/-- What is read at the front of a source is read wherever the text stands. -/
theorem result_readText (hrule : IsBounded rule) (text : List Char) :
    Result d p rule text (readText d p rule text) := by
  have hfits {fuel : Nat} (hfuel : enoughFuel rule text ≤ fuel) :
      rule.Fits Symbol.rank 400 fuel ⟨0, text.map glyphOf⟩ := ⟨hrule, by rwa [List.length_map]⟩
  have hruns (offset : Nat) {fuel : Nat} (hfuel : enoughFuel rule text ≤ fuel) :
      rule.run (grammar d) d.endsLine fuel p ⟨offset, text.map glyphOf⟩ =
        (rule.run (grammar d) d.endsLine (enoughFuel rule text) p ⟨0, text.map glyphOf⟩).map
          (Reading.shift offset) := by
    have henough := Rule.run_enough (graded_grammar d) (tame_grammar d) d.endsLine p (hfits hfuel)
      (hfits (Nat.le_refl _))
    have hshift := Rule.run_shift (k := offset) (grammar d) d.endsLine fuel p rule ⟨0, text.map glyphOf⟩
    rwa [Cursor.shift, Nat.zero_add, henough] at hshift
  unfold readText
  cases hresult : rule.run (grammar d) d.endsLine (enoughFuel rule text) p ⟨0, text.map glyphOf⟩ with
  | none =>
      refine ⟨enoughFuel rule text, fun offset fuel hfuel => ?_⟩
      rw [hruns offset hfuel, hresult, Option.map_none]
  | some r =>
      obtain ⟨n, hn⟩ := Rule.run_forward hresult
      have hlength : text.take (text.length - r.2.rest.length) = text.take n ∧
          text.drop (text.length - r.2.rest.length) = text.drop n := by
        rw [hn, Cursor.length_advance, List.length_map]
        rcases Nat.le_total n text.length with hle | hle
        · rw [show text.length - (text.length - n) = n by omega]
          exact ⟨rfl, rfl⟩
        · rw [show text.length - (text.length - n) = text.length by omega, List.take_length,
            List.drop_length, List.take_of_length_le hle, List.drop_of_length_le hle]
          exact ⟨rfl, rfl⟩
      have hcursor : r.2 = ⟨bytesOf (text.take n), (text.drop n).map glyphOf⟩ := by
        rw [hn, advance_text, Nat.zero_add]
      rw [Option.map_some]
      dsimp only
      rw [hlength.1, hlength.2]
      refine ⟨(List.take_append_drop n text).symm, enoughFuel rule text, fun offset fuel hfuel => ?_⟩
      rw [← List.map_append, List.take_append_drop, hruns offset hfuel, hresult, Option.map_some,
        Reading.shift, hcursor, Cursor.shift, Nat.add_comm]

theorem Result.eq {x : Option (Part × List Char)} (hrule : IsBounded rule) (h : Result d p rule text x) :
    readText d p rule text = x := (result_readText hrule text).unique h

theorem readText_append (hrule : IsBounded rule) (h : readText d p rule text = some (a, rest)) :
    text = a.chars ++ rest := by
  have hresult := result_readText (d := d) (p := p) hrule text
  rw [h] at hresult
  exact hresult.1

/-- A rule that bites takes a character whenever it reads something. -/
theorem length_readText_lt (hrule : IsBounded rule) (hbites : rule.bites = true)
    (h : readText d p rule text = some (a, rest)) : rest.length < text.length := by
  have hresult := result_readText (d := d) (p := p) hrule text
  rw [h] at hresult
  obtain ⟨rfl, k, hk⟩ := hresult
  have hrun := hk 0 k (Nat.le_refl k)
  have hlength := Rule.bites_run (graded_grammar d).bites hbites hrun
  simpa using hlength

theorem readText_nil (hrule : IsBounded rule) (hbites : rule.bites = true) : readText d p rule [] = none := by
  cases h : readText d p rule [] with
  | none => rfl
  | some r => exact absurd (length_readText_lt hrule hbites h) (Nat.not_lt_zero _)

/-! ## Lists of rules -/

theorem IsBounded.seq (h : IsBounded (.seq (rule :: rules))) : IsBounded rule ∧ IsBounded (.seq rules) := by
  simp only [IsBounded, Rule.bounded, allBounded, Bool.and_eq_true] at h
  exact ⟨h.1.1, h.2⟩

theorem IsBounded.alt (h : IsBounded (.alt (rule :: rules))) : IsBounded rule ∧ IsBounded (.alt rules) := by
  simp only [IsBounded, Rule.bounded, allBounded, Bool.and_eq_true] at h
  exact ⟨h.1.1, h.2⟩

theorem IsBounded.of_mem : ∀ {rules : List Production}, IsBounded (.alt rules) → rule ∈ rules → IsBounded rule
  | _ :: _, h, hmem => by
      rcases List.mem_cons.mp hmem with rfl | hmem
      · exact h.alt.1
      · exact h.alt.2.of_mem hmem

theorem readText_seq_nil : readText d p (.seq []) text = some (.nil, text) :=
  Result.eq rfl ⟨rfl, 1, Part.readByAll_nil.seq⟩

theorem readText_seq_cons (hbounded : IsBounded (.seq (rule :: rules))) :
    readText d p (.seq (rule :: rules)) text = (readText d p rule text).bind fun first =>
      (readText d p (.seq rules) first.2).map fun more => (first.1 ++ more.1, more.2) := by
  refine Result.eq hbounded ?_
  have hfirst := result_readText (d := d) (p := p) hbounded.seq.1 text
  cases hf : readText d p rule text with
  | none =>
      rw [hf] at hfirst
      obtain ⟨k, hk⟩ := hfirst
      exact ⟨k + 1, fun offset => .seq (.head (hk offset))⟩
  | some first =>
      obtain ⟨a, rest⟩ := first
      rw [hf] at hfirst
      obtain ⟨rfl, k, hk⟩ := hfirst
      rw [Option.bind_some]
      have hmore := result_readText (d := d) (p := p) hbounded.seq.2 rest
      cases hm : readText d p (.seq rules) rest with
      | none =>
          rw [hm] at hmore
          obtain ⟨l, hl⟩ := hmore
          refine ⟨max k l + 1, fun offset => ?_⟩
          have hrules : RunsAll d p (max k l) rules ⟨offset + bytesOf a.chars, rest.map glyphOf⟩ none :=
            fun fuel hfuel => hl _ (fuel + 1) (by omega)
          rw [List.map_append]
          exact .seq (.tail ((hk offset).mono (Nat.le_max_left k l)) hrules)
      | some more =>
          obtain ⟨b, last⟩ := more
          rw [hm] at hmore
          obtain ⟨rfl, l, hl⟩ := hmore
          have hrules : b.ReadByAll d p (max k l) rules (last.map glyphOf) :=
            fun offset fuel hfuel => hl offset (fuel + 1) (by omega)
          rw [List.map_append] at hk
          exact ⟨(List.append_assoc ..).symm, max k l + 1, ((hk.mono (Nat.le_max_left k l)).cons hrules).seq⟩

theorem readText_seq_last (hbounded : IsBounded (.seq [rule])) :
    readText d p (.seq [rule]) text = readText d p rule text := by
  rw [readText_seq_cons hbounded]
  simp only [readText_seq_nil, Option.map_some, Part.append_nil]
  cases readText d p rule text <;> rfl

theorem readText_alt_nil : readText d p (.alt []) text = none :=
  Result.eq rfl ⟨1, fun _ => .alt .nil⟩

/-- The first rule that reads something. -/
theorem readText_alt_cons (hbounded : IsBounded (.alt (rule :: rules))) :
    readText d p (.alt (rule :: rules)) text =
      (readText d p rule text).or (readText d p (.alt rules) text) := by
  refine Result.eq hbounded ?_
  have hfirst := result_readText (d := d) (p := p) hbounded.alt.1 text
  cases hf : readText d p rule text with
  | some first =>
      obtain ⟨a, rest⟩ := first
      rw [hf] at hfirst
      obtain ⟨rfl, k, hk⟩ := hfirst
      exact ⟨rfl, k + 1, fun offset => .alt (.here (hk offset))⟩
  | none =>
      rw [hf] at hfirst
      obtain ⟨k, hk⟩ := hfirst
      rw [Option.none_or]
      have hmore := result_readText (d := d) (p := p) hbounded.alt.2 text
      cases hm : readText d p (.alt rules) text with
      | none =>
          rw [hm] at hmore
          obtain ⟨l, hl⟩ := hmore
          exact ⟨max k l + 1, fun offset => .alt (.there ((hk offset).mono (Nat.le_max_left k l))
            fun fuel hfuel => hl offset (fuel + 1) (by omega))⟩
      | some more =>
          obtain ⟨b, rest⟩ := more
          rw [hm] at hmore
          obtain ⟨rfl, l, hl⟩ := hmore
          rw [List.map_append] at hk
          exact ⟨rfl, max k l + 1, fun offset => .alt (.there ((hk offset).mono (Nat.le_max_left k l))
            fun fuel hfuel => hl offset (fuel + 1) (by omega))⟩

/-! ## What may be missing, and what is only looked at -/

theorem readText_opt (hbounded : IsBounded rule) :
    readText d p (.opt rule) text = some ((readText d p rule text).getD (.nil, text)) := by
  refine Result.eq hbounded ?_
  have hinner := result_readText (d := d) (p := p) hbounded text
  cases h : readText d p rule text with
  | none =>
      rw [h] at hinner
      obtain ⟨k, hk⟩ := hinner
      exact ⟨rfl, k + 1, Part.readBy_opt_nil hk⟩
  | some r =>
      rw [h] at hinner
      obtain ⟨htext, k, hk⟩ := hinner
      exact ⟨htext, k + 1, hk.opt⟩

theorem readText_ahead (hbounded : IsBounded rule) :
    readText d p (.ahead rule) text = (readText d p rule text).map fun _ => (.nil, text) := by
  refine Result.eq hbounded ?_
  have hinner := result_readText (d := d) (p := p) hbounded text
  cases h : readText d p rule text with
  | none =>
      rw [h] at hinner
      obtain ⟨k, hk⟩ := hinner
      refine ⟨k + 1, fun offset => runs_succ fun fuel hfuel => ?_⟩
      simp only [Rule.run, hk offset fuel hfuel, Option.map_none]
  | some r =>
      rw [h] at hinner
      obtain ⟨rfl, k, hk⟩ := hinner
      refine ⟨rfl, k + 1, fun offset => ?_⟩
      have hahead := Runs.ahead (hk offset)
      rwa [← List.map_append] at hahead

/-! ## Rules around a rule -/

theorem readText_role {part : Role} (hbounded : IsBounded rule) :
    readText d p (.role part rule) text =
      (readText d p rule text).map fun r => (r.1.withRole part, r.2) := by
  refine Result.eq hbounded ?_
  have hinner := result_readText (d := d) (p := p) hbounded text
  cases h : readText d p rule text with
  | none =>
      rw [h] at hinner
      obtain ⟨k, hk⟩ := hinner
      exact ⟨k + 1, fun offset => (hk offset).role_none⟩
  | some r =>
      rw [h] at hinner
      obtain ⟨htext, k, hk⟩ := hinner
      exact ⟨htext, k + 1, hk.role⟩

theorem readText_inside {place : Place} (hbounded : IsBounded rule) :
    readText d p (.inside place rule) text = readText d place rule text := by
  refine Result.eq hbounded ?_
  have hinner := result_readText (d := d) (p := place) hbounded text
  cases h : readText d place rule text with
  | none =>
      rw [h] at hinner
      obtain ⟨k, hk⟩ := hinner
      exact ⟨k + 1, fun offset => (hk offset).inside⟩
  | some r =>
      rw [h] at hinner
      obtain ⟨htext, k, hk⟩ := hinner
      exact ⟨htext, k + 1, hk.inside⟩

theorem isBounded_grammar (symbol : Symbol) : IsBounded (grammar d symbol) := (graded_grammar d).bounded symbol

theorem readText_call {symbol : Symbol} :
    readText d p (.call symbol) text = readText d p (grammar d symbol) text := by
  refine Result.eq rfl ?_
  have hinner := @result_readText d p _ (isBounded_grammar (d := d) symbol) text
  cases h : readText d p (grammar d symbol) text with
  | none =>
      rw [h] at hinner
      obtain ⟨k, hk⟩ := hinner
      exact ⟨k + 1, fun offset => (hk offset).call⟩
  | some r =>
      rw [h] at hinner
      obtain ⟨htext, k, hk⟩ := hinner
      exact ⟨htext, k + 1, fun offset => (hk offset).call⟩

/-! ## Repetitions -/

section

variable {read : Cursor → Option Reading}

theorem repeatRun_done : ∀ (limit : Nat) (done : List (List Node)) (c : Cursor),
    repeatRun read limit done c =
      (done.reverse.flatten ++ (repeatRun read limit [] c).1, (repeatRun read limit [] c).2)
  | 0, done, c => by simp [repeatRun]
  | limit + 1, done, c => by
      rw [repeatRun, repeatRun]
      split
      · simp
      · rename_i ns after _
        split
        · simp
        · rw [repeatRun_done limit (ns :: done), repeatRun_done limit [ns]]
          simp

/-- A reader that takes something is repeated no more often than there are glyphs. -/
theorem repeatRun_agree (hread : ∀ {c r}, read c = some r → r.2.rest.length < c.rest.length) :
    ∀ {limit limit' : Nat} {done : List (List Node)} {c : Cursor}, c.rest.length ≤ limit →
      c.rest.length ≤ limit' → repeatRun read limit done c = repeatRun read limit' done c
  | 0, 0, _, _, _, _ => rfl
  | 0, limit' + 1, done, c, h, _ => by
      rw [repeatRun, repeatRun]
      split
      · rfl
      · rename_i hr
        have := hread hr
        omega
  | limit + 1, 0, done, c, _, h => by
      rw [repeatRun, repeatRun]
      split
      · rfl
      · rename_i hr
        have := hread hr
        omega
  | limit + 1, limit' + 1, done, c, h, h' => by
      rw [repeatRun, repeatRun]
      split
      · rfl
      · rename_i hr
        have := hread hr
        split
        · rfl
        · exact repeatRun_agree hread (by dsimp only at this; omega) (by dsimp only at this; omega)

end

theorem run_many (fuel : Nat) (c : Cursor) :
    (Rule.many rule).run (grammar d) d.endsLine (fuel + 1) p c =
      some (repeatRun (rule.run (grammar d) d.endsLine fuel p) fuel [] c) := rfl

theorem readText_many (hbounded : IsBounded rule) (hbites : rule.bites = true) :
    readText d p (.many rule) text = match readText d p rule text with
      | none => some (.nil, text)
      | some (a, rest) => (readText d p (.many rule) rest).map fun more => (a ++ more.1, more.2) := by
  have hmany : IsBounded (.many rule) := hbounded
  refine Result.eq hmany ?_
  have hfirst := result_readText (d := d) (p := p) hbounded text
  cases hf : readText d p rule text with
  | none =>
      rw [hf] at hfirst
      obtain ⟨k, hk⟩ := hfirst
      exact ⟨rfl, k + 1, fun offset => .many_none (hk offset)⟩
  | some first =>
      obtain ⟨a, rest⟩ := first
      have hne : a.chars ≠ [] := by
        intro hnil
        have htext := readText_append hbounded hf
        have hlength := length_readText_lt hbounded hbites hf
        rw [htext, hnil] at hlength
        exact absurd hlength (Nat.lt_irrefl _)
      rw [hf] at hfirst
      obtain ⟨rfl, k, hk⟩ := hfirst
      have hmore := result_readText (d := d) (p := p) hmany rest
      dsimp only
      cases hm : readText d p (.many rule) rest with
      | none =>
          rw [hm] at hmore
          obtain ⟨l, hl⟩ := hmore
          cases hl 0 (l + 1) (Nat.le_succ l)
      | some more =>
          obtain ⟨b, last⟩ := more
          rw [hm] at hmore
          obtain ⟨rfl, l, hl⟩ := hmore
          refine ⟨(List.append_assoc ..).symm, k + l + (b.chars ++ last).length + 2, fun offset fuel hfuel => ?_⟩
          obtain ⟨n, rfl⟩ : ∃ n, fuel = n + 2 := ⟨fuel - 2, by omega⟩
          have hread {c : Cursor} {r : Reading} (hr : rule.run (grammar d) d.endsLine (n + 1) p c = some r) :
              r.2.rest.length < c.rest.length := Rule.bites_run (graded_grammar d).bites hbites hr
          have hstep := hk offset (n + 1) (by omega)
          have hagain := hl (offset + bytesOf a.chars) (n + 2) (by omega)
          have hlimit : (Cursor.mk (offset + bytesOf a.chars)
              ((b.chars ++ last).map glyphOf)).rest.length ≤ n := by
            rw [List.length_map]
            omega
          have hpos := bytesOf_pos hne
          have hchars : (a ++ b).chars = a.chars ++ b.chars := rfl
          rw [hchars, List.map_append, List.append_assoc, ← List.map_append]
          rw [← List.map_append, run_many] at hagain
          rw [run_many, repeatRun, hstep]
          dsimp only
          rw [if_neg (by omega), repeatRun_done, repeatRun_agree hread hlimit (Nat.le_succ_of_le hlimit),
            Option.some.inj hagain, bytesOf_append, ← Nat.add_assoc]
          simp only [List.reverse_singleton, List.flatten_singleton]
          rfl

/-! ## Gaps -/

theorem not_starts_blank {ch : Char} {gs : List Glyph} (h : Lexeme.isBlank ch = true) :
    ¬Starts (glyphOf ch :: gs) := by
  intro hstarts
  have hsettled := hstarts 0 1
  rw [trivia_blank h, trivia] at hsettled
  have hlength := congrArg (fun r => r.2.rest.length) hsettled
  simp at hlength

theorem restOfLine_split : ∀ text : List Char, ∃ line behind, text = line ++ behind ∧
    Lexeme.restOfLine (text.map glyphOf) = line.length ∧ (∀ x ∈ line, Lexeme.isLineEnd x = false) ∧
      ∀ ch ∈ behind.head?, Lexeme.isLineEnd ch = true
  | [] => ⟨[], [], rfl, rfl, nofun, nofun⟩
  | ch :: text => by
      cases hend : Lexeme.isLineEnd ch with
      | true => exact ⟨[], ch :: text, rfl, by simp [Lexeme.restOfLine, glyphOf, hend], nofun, by simpa⟩
      | false =>
          obtain ⟨line, behind, rfl, hlength, hline, hbehind⟩ := restOfLine_split text
          refine ⟨ch :: line, behind, rfl, ?_, by simpa [hend] using hline, hbehind⟩
          simp only [List.map_cons, Lexeme.restOfLine, hlength, List.length_cons]
          simp [glyphOf, hend]

/-- The end of a block comment. -/
theorem toBlockEnd_split : ∀ {text : List Char} {n : Nat}, Lexeme.toBlockEnd (text.map glyphOf) = some n →
    ∃ inner behind, text = inner ++ '*' :: '/' :: behind ∧ n = inner.length + 2 ∧
      Lexeme.toBlockEnd ((inner ++ ['*', '/']).map glyphOf) = some (inner.length + 2)
  | [], _, h => nomatch h
  | ch :: text, n, h => by
      rw [List.map_cons, Lexeme.toBlockEnd] at h
      split at h
      · rename_i hend
        simp only [glyphOf, Bool.and_eq_true, beq_iff_eq] at hend
        obtain ⟨rfl, hnext⟩ := hend
        cases text with
        | nil => cases hnext
        | cons slash behind =>
            obtain rfl : slash = '/' := by simpa [Lexeme.nextIn, glyphOf] using hnext
            cases h
            exact ⟨[], behind, rfl, rfl, rfl⟩
      · rename_i hend
        obtain ⟨m, hm, rfl⟩ := Option.map_eq_some_iff.mp h
        obtain ⟨inner, behind, rfl, rfl, hinner⟩ := toBlockEnd_split hm
        refine ⟨ch :: inner, behind, rfl, rfl, ?_⟩
        -- the two characters next are the same, whatever follows them
        have hnext : Lexeme.nextIn ['/'] ((inner ++ ['*', '/']).map glyphOf) =
            Lexeme.nextIn ['/'] ((inner ++ '*' :: '/' :: behind).map glyphOf) := by
          cases inner <;> rfl
        rw [List.cons_append, List.map_cons, Lexeme.toBlockEnd, hnext, if_neg hend, hinner]
        rfl

/-- A comment in front of a text, and what is to be shown of the rest for the comment to be in a gap. -/
theorem comment_split {n : Nat} (h : Lexeme.comment (text.map glyphOf) = some n) :
    ∃ comment behind, text = comment ++ behind ∧ n = comment.length ∧ comment.head? = some '/' ∧
      ∀ {gap more : List Char}, behind = gap ++ more → Starts (more.map glyphOf) → more = [] ∨ Gap gap →
        more = [] ∨ Gap (comment ++ gap) := by
  match text, h with
  | a :: b :: text, h =>
    simp only [List.map_cons, Lexeme.comment, glyphOf, Bool.and_eq_true, beq_iff_eq] at h
    split at h
    · rename_i hslashes
      obtain ⟨rfl, rfl⟩ := hslashes
      obtain ⟨line, behind, rfl, hlength, hline, hends⟩ := restOfLine_split text
      rw [hlength] at h
      cases h
      refine ⟨'/' :: '/' :: line, behind, rfl, rfl, rfl, ?_⟩
      rintro gap more rfl hstarts hgap
      cases gap with
      | nil =>
          cases more with
          | nil => exact .inl rfl
          | cons ch more => exact absurd hstarts (not_starts_blank (isBlank_of_isLineEnd (hends ch rfl)))
      | cons ch gap => exact hgap.imp_right (.line hline (hends ch rfl))
    · split at h
      · rename_i hblock
        obtain ⟨rfl, rfl⟩ := hblock
        obtain ⟨m, hm, rfl⟩ := Option.map_eq_some_iff.mp h
        obtain ⟨inner, behind, rfl, rfl, hinner⟩ := toBlockEnd_split hm
        refine ⟨'/' :: '*' :: inner ++ ['*', '/'], behind, by simp, by simp, rfl, ?_⟩
        rintro gap more rfl hstarts hgap
        refine hgap.imp_right fun hgap => ?_
        have hcomment := Gap.block hinner hgap
        simpa using hcomment
      · cases h

/-- Every text starts with what is skipped. That is a gap, unless a comment goes on to the end. -/
theorem exists_gap (text : List Char) : ∃ gap more, text = gap ++ more ∧ Starts (more.map glyphOf) ∧
    (∀ offset, Comes gap.length ⟨offset, text.map glyphOf⟩ ⟨offset + bytesOf gap, more.map glyphOf⟩) ∧
    (more = [] ∨ Gap gap) := by
  match text with
  | [] => exact ⟨[], [], rfl, starts_nil, fun offset fuel _ => congrArg Prod.snd (starts_nil offset fuel), .inl rfl⟩
  | ch :: text =>
    cases hblank : Lexeme.isBlank ch with
    | true =>
        obtain ⟨gap, more, rfl, hstarts, hcomes, hgap⟩ := exists_gap text
        refine ⟨ch :: gap, more, rfl, hstarts, fun offset => ?_, hgap.imp_right (.blank hblank)⟩
        intro fuel hfuel
        obtain ⟨fuel, rfl⟩ : ∃ k, fuel = k + 1 := ⟨fuel - 1, by simp at hfuel; omega⟩
        have hbytes : bytesOf (ch :: gap) = bytesOf [ch] + bytesOf gap := bytesOf_append [ch] gap
        rw [List.map_cons, trivia_blank hblank, hcomes _ fuel (by simpa using hfuel), hbytes, Nat.add_assoc]
    | false =>
        cases hcomment : Lexeme.comment ((ch :: text).map glyphOf) with
        | none =>
            have hsettled : Starts ((ch :: text).map glyphOf) :=
              fun _ => settled_cons (by simp [glyphOf, hblank]) hcomment
            exact ⟨[], ch :: text, rfl, hsettled, fun offset fuel _ => congrArg Prod.snd (hsettled offset fuel),
              .inr .nil⟩
        | some n =>
            obtain ⟨comment, behind, htext, rfl, hslash, hclosed⟩ := comment_split hcomment
            have hpos : 0 < comment.length := List.length_pos_of_mem (List.mem_of_mem_head? hslash)
            have hlt : behind.length < (ch :: text).length := by
              rw [htext, List.length_append]
              omega
            have hle : behind.length ≤ text.length := Nat.le_of_lt_succ hlt
            obtain ⟨gap, more, hbehind, hstarts, hcomes, hgap⟩ := exists_gap behind
            refine ⟨comment ++ gap, more, by rw [htext, hbehind, List.append_assoc], hstarts,
              fun offset => ?_, hclosed hbehind hstarts hgap⟩
            intro fuel hfuel
            rw [List.length_append] at hfuel
            obtain ⟨fuel, rfl⟩ : ∃ k, fuel = k + 1 := ⟨fuel - 1, by omega⟩
            rw [htext, List.map_append] at hcomment ⊢
            rw [trivia_comment hslash hcomment, hcomes _ fuel (by omega), bytesOf_append, Nat.add_assoc]
termination_by text.length

/-! ## Rules that skip a gap -/

section

variable {gap : List Char}

theorem readText_node {kind : Kind} (hbounded : IsBounded rule) (hgap : Gap gap)
    (hstarts : Starts (text.map glyphOf)) : readText d p (.node kind rule) (gap ++ text) =
      (readText d p rule text).map fun r => (Part.node kind gap r.1, r.2) := by
  refine Result.eq hbounded ?_
  have hinner := result_readText (d := d) (p := p) hbounded text
  cases h : readText d p rule text with
  | none =>
      rw [h] at hinner
      obtain ⟨k, hk⟩ := hinner
      refine ⟨max k gap.length + 1, fun offset => ?_⟩
      have hcomes : Comes (max k gap.length) ⟨offset, gap.map glyphOf ++ text.map glyphOf⟩
          ⟨offset + bytesOf gap, text.map glyphOf⟩ := fun fuel hfuel => by
        rw [hgap.passable hstarts (by omega)]
      rw [List.map_append]
      exact .node_none hcomes ((hk _).mono (Nat.le_max_left ..))
  | some r =>
      rw [h] at hinner
      obtain ⟨rfl, k, hk⟩ := hinner
      rw [List.map_append] at hstarts
      exact ⟨(List.append_assoc ..).symm, max k gap.length + 1,
        (hk.mono (Nat.le_max_left ..)).node hgap (Nat.le_max_right ..) hstarts⟩

theorem readText_fresh (hbounded : IsBounded rule) (hstarts : Starts (text.map glyphOf)) :
    readText d p (.fresh rule) text = readText d p rule text := by
  refine Result.eq hbounded ?_
  have hinner := result_readText (d := d) (p := p) hbounded text
  cases h : readText d p rule text with
  | none =>
      rw [h] at hinner
      obtain ⟨k, hk⟩ := hinner
      exact ⟨k + 1, fun offset => .fresh_none (skips_settled (hstarts offset)).comes (hk offset)⟩
  | some r =>
      rw [h] at hinner
      obtain ⟨rfl, k, hk⟩ := hinner
      rw [List.map_append] at hstarts
      exact ⟨rfl, k + 1, fun offset => .fresh (skips_settled (hstarts offset)) (hk offset)⟩

/-- A node takes a gap and what stands behind it. -/
theorem readText_node_inv {kind : Kind} (hbounded : IsBounded rule) (hbites : rule.bites = true)
    (h : readText d p (.node kind rule) text = some (a, rest)) :
    ∃ gap more b, text = gap ++ more ∧ Gap gap ∧ Starts (more.map glyphOf) ∧
      readText d p rule more = some (b, rest) ∧ a = Part.node kind gap b := by
  obtain ⟨gap, more, htext, hstarts, hcomes, hgap | hgap⟩ := exists_gap text
  · -- nothing is left for the rule
    subst hgap
    have hnone := result_readText (d := d) (p := p) hbounded []
    rw [readText_nil hbounded hbites] at hnone
    obtain ⟨k, hk⟩ := hnone
    have hrefuses : readText d p (.node kind rule) text = none :=
      Result.eq hbounded ⟨max k gap.length + 1, fun offset =>
        .node_none ((hcomes offset).mono (Nat.le_max_right ..)) ((hk _).mono (Nat.le_max_left ..))⟩
    rw [hrefuses] at h
    cases h
  · subst htext
    rw [readText_node hbounded hgap hstarts] at h
    obtain ⟨r, hr, heq⟩ := Option.map_eq_some_iff.mp h
    cases heq
    exact ⟨gap, more, r.1, rfl, hgap, hstarts, hr, rfl⟩

/-- The gap in front of a token, and the token. -/
theorem readText_token {scan : List Glyph → Option Nat} (hscan : rule.scan? = some scan)
    (hraw : rule.isRaw = false) (hgap : Gap gap) (hstarts : Starts (text.map glyphOf)) :
    readText d p rule (gap ++ text) = (scan (text.map glyphOf)).map fun n =>
      (⟨gap ++ text.take n, fun offset => commentsOf offset gap ++
        rule.tokenNodes (offset + bytesOf gap) (offset + bytesOf gap + bytesOf (text.take n))⟩,
        text.drop n) := by
  have hbounded : IsBounded rule := by
    cases rule with
    | mark | keyword | name | lexeme | group => rfl
    | _ => cases hscan
  have hrun (offset : Nat) {fuel : Nat} (hfuel : gap.length ≤ fuel) :
      rule.run (grammar d) d.endsLine (fuel + 1) p ⟨offset, (gap ++ text).map glyphOf⟩ =
        (scan (text.map glyphOf)).map fun n => (commentsOf offset gap ++
          rule.tokenNodes (offset + bytesOf gap) (offset + bytesOf gap + bytesOf (text.take n)),
          ⟨offset + bytesOf gap + bytesOf (text.take n), (text.drop n).map glyphOf⟩) := by
    have hskipped : rule.skipped fuel ⟨offset, (gap ++ text).map glyphOf⟩ =
        (commentsOf offset gap, ⟨offset + bytesOf gap, text.map glyphOf⟩) := by
      rw [Rule.skipped, hraw, List.map_append, hgap.passable hstarts hfuel]
      rfl
    rw [Rule.run_token hscan, hskipped]
    simp only [advance_text]
  refine Result.eq hbounded ?_
  cases hn : scan (text.map glyphOf) with
  | none =>
      refine ⟨gap.length + 1, fun offset => runs_succ fun fuel hfuel => ?_⟩
      rw [hrun offset hfuel, hn, Option.map_none]
  | some n =>
      rw [Option.map_some]
      refine ⟨by rw [List.append_assoc, List.take_append_drop], gap.length + 1,
        fun offset => runs_succ fun fuel hfuel => ?_⟩
      have hbytes := bytesOf_append gap (text.take n)
      have hrest : (gap ++ text.take n).map glyphOf ++ (text.drop n).map glyphOf =
          (gap ++ text).map glyphOf := by
        rw [← List.map_append, List.append_assoc, List.take_append_drop]
      dsimp only
      rw [hrest, hrun offset hfuel, hn, Option.map_some, hbytes, Nat.add_assoc]

/-- A token and the gap in front of it. -/
theorem readText_token_inv {scan : List Glyph → Option Nat} (hscan : rule.scan? = some scan)
    (hraw : rule.isRaw = false) (hbites : rule.bites = true)
    (h : readText d p rule text = some (a, rest)) :
    ∃ gap more n, text = gap ++ more ∧ Gap gap ∧ Starts (more.map glyphOf) ∧
      scan (more.map glyphOf) = some n ∧ rest = more.drop n := by
  obtain ⟨gap, more, htext, hstarts, hcomes, hgap | hgap⟩ := exists_gap text
  · -- nothing is left for the token
    subst hgap
    have hbounded : IsBounded rule := by
      cases rule with
      | mark | keyword | name | lexeme | group => rfl
      | _ => cases hscan
    have hresult := result_readText (d := d) (p := p) hbounded text
    rw [h] at hresult
    obtain ⟨htext', k, hk⟩ := hresult
    have hrun := hk 0 (max k gap.length + 1) (by omega)
    rw [Rule.run_token hscan, Rule.skipped, hraw, ← List.map_append, ← htext'] at hrun
    obtain ⟨n, hn, -⟩ := Option.map_eq_some_iff.mp hrun
    have hend : (trivia (max k gap.length) ⟨0, text.map glyphOf⟩).2.rest = [] := by
      rw [hcomes 0 _ (Nat.le_max_right ..)]
      rfl
    exact absurd hend (Rule.scan_pos hscan hbites hn).2
  · subst htext
    rw [readText_token hscan hraw hgap hstarts] at h
    obtain ⟨n, hn, heq⟩ := Option.map_eq_some_iff.mp h
    cases heq
    exact ⟨gap, more, n, rfl, hgap, hstarts, hn, rfl⟩

end

/-! ## Taking a reading apart -/

theorem readText_seq_inv (hbounded : IsBounded (.seq (rule :: rules)))
    (h : readText d p (.seq (rule :: rules)) text = some (a, rest)) :
    ∃ b middle c, readText d p rule text = some (b, middle) ∧
      readText d p (.seq rules) middle = some (c, rest) := by
  rw [readText_seq_cons hbounded] at h
  obtain ⟨⟨b, middle⟩, hb, hmore⟩ := Option.bind_eq_some_iff.mp h
  obtain ⟨⟨c, last⟩, hc, heq⟩ := Option.map_eq_some_iff.mp hmore
  cases heq
  exact ⟨b, middle, c, hb, hc⟩

theorem readText_alt_inv : ∀ {rules : List Production}, IsBounded (.alt rules) →
    readText d p (.alt rules) text = some (a, rest) → ∃ rule ∈ rules, readText d p rule text = some (a, rest)
  | [], _, h => by
      rw [readText_alt_nil] at h
      cases h
  | rule :: rules, hbounded, h => by
      rw [readText_alt_cons hbounded] at h
      rcases Option.or_eq_some_iff.mp h with hhere | ⟨-, hmore⟩
      · exact ⟨rule, List.mem_cons_self, hhere⟩
      · obtain ⟨other, hmem, hother⟩ := readText_alt_inv hbounded.alt.2 hmore
        exact ⟨other, List.mem_cons_of_mem _ hmem, hother⟩

theorem readText_opt_inv (hbounded : IsBounded rule) (h : readText d p (.opt rule) text = some (a, rest)) :
    readText d p rule text = some (a, rest) ∨ rest = text := by
  rw [readText_opt hbounded] at h
  cases hinner : readText d p rule text with
  | none =>
      rw [hinner] at h
      cases h
      exact .inr rfl
  | some r =>
      rw [hinner] at h
      exact .inl h

theorem readText_ahead_inv (hbounded : IsBounded rule) (h : readText d p (.ahead rule) text = some (a, rest)) :
    rest = text ∧ ∃ r, readText d p rule text = some r := by
  rw [readText_ahead hbounded] at h
  obtain ⟨r, hr, heq⟩ := Option.map_eq_some_iff.mp h
  cases heq
  exact ⟨rfl, r, hr⟩

theorem readText_role_inv {part : Role} (hbounded : IsBounded rule)
    (h : readText d p (.role part rule) text = some (a, rest)) : ∃ b, readText d p rule text = some (b, rest) := by
  rw [readText_role hbounded] at h
  obtain ⟨r, hr, heq⟩ := Option.map_eq_some_iff.mp h
  cases heq
  exact ⟨r.1, hr⟩

theorem readText_many_inv (hbounded : IsBounded rule) (hbites : rule.bites = true)
    (h : readText d p (.many rule) text = some (a, rest)) :
    rest = text ∨ ∃ b middle c, readText d p rule text = some (b, middle) ∧
      readText d p (.many rule) middle = some (c, rest) := by
  rw [readText_many hbounded hbites] at h
  cases hfirst : readText d p rule text with
  | none =>
      rw [hfirst] at h
      cases h
      exact .inl rfl
  | some first =>
      rw [hfirst] at h
      obtain ⟨⟨c, last⟩, hc, heq⟩ := Option.map_eq_some_iff.mp h
      cases heq
      exact .inr ⟨first.1, first.2, c, rfl, hc⟩

end Syntax

end ImportAssist
