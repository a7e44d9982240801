import ImportAssist.Proofs.Foresight
import ImportAssist.Proofs.ImportsInFront
import ImportAssist.Proofs.LockStep

/-!
# Statements in front of a place

`readFront` reads the statements of a known text. If they take the whole text, then reading comes to what stands
behind it (`readFront_steps`), and if reading gets stuck in the text then no source that starts with the text is
accepted (`readFront_refused`). Both hold for everything that may stand behind the text, so the imports in front of a
place are the same for all of that, too (`frontKept_of_importFree`).
-/

namespace ImportAssist

open Syntax
open Grammar (Production)
open Utf8 (glyphOf)

namespace Syntax

/-! ## Words in front of a statement -/

/-- A text that starts with a word. -/
def StartsWord (w : String) (text : List Char) : Prop :=
  ∃ behind, text = w.toList ++ behind ∧ EndsWord (behind.map glyphOf)

instance (w : String) (text : List Char) : Decidable (StartsWord w text) :=
  decidable_of_iff (w.toList <+: text ∧ Lexeme.wordFrom 0 ((text.drop w.toList.length).map glyphOf) = 0) (by
    constructor
    · rintro ⟨⟨behind, rfl⟩, hends⟩
      rw [List.drop_left] at hends
      exact ⟨behind, rfl, hends⟩
    · rintro ⟨behind, rfl, hends⟩
      rw [List.drop_left]
      exact ⟨List.prefix_append .., hends⟩)

/-- A word that a statement may start with: it is no operator. -/
structure IsOpener (w : String) : Prop where
  isWord : IsWord w.toList
  not_operator : w ≠ "in" ∧ w ≠ "instanceof"

section

variable {openers : List String} {gs : List Glyph} {w : String}

theorem IsOpener.mayStartStatement (h : IsOpener w) (hends : EndsWord gs) :
    mayStartStatement (w.toList.map glyphOf ++ gs) = true := by
  have hword := h.isWord.word_eq hends
  have hoperator {text : String} (hne : w ≠ text) (hlength : w.toList.length = text.toList.length) :
      Lexeme.literal text.toList (w.toList.map glyphOf ++ gs) = false := by
    rw [Bool.eq_false_iff]
    intro hliteral
    exact hne (String.toList_injective (literal_eq hliteral hlength))
  obtain ⟨ch, more, hw, -⟩ := h.isWord.start
  have hmark {t : Char} (ht : Lexeme.isPunctuation t = true) : ch ≠ t := (hw ▸ h.isWord).head_ne ht
  rw [hw, List.map_cons, List.cons_append] at hword hoperator ⊢
  unfold Syntax.mayStartStatement
  dsimp only
  rw [if_neg, if_neg, if_neg, if_neg]
  · split
    · rw [hword, Bool.not_eq_true', Bool.or_eq_false_iff]
      constructor
      · cases hlength : (ch :: more).length == 2 with
        | false => rfl
        | true => exact hoperator h.not_operator.1 (eq_of_beq hlength)
      · cases hlength : (ch :: more).length == 10 with
        | false => rfl
        | true => exact hoperator h.not_operator.2 (eq_of_beq hlength)
    · rfl
  · simpa [glyphOf] using hmark (t := '!') rfl
  · simpa [glyphOf] using hmark (t := '-') rfl
  · simpa [glyphOf] using hmark (t := '+') rfl
  · intro hcontains
    obtain ⟨t, ht, heq⟩ := List.contains_iff_exists_mem_beq.mp hcontains
    have hmarks : (",.;*%><=?^|&/:".toList.all Lexeme.isPunctuation) = true := by decide
    exact hmark (List.all_eq_true.mp hmarks t ht) (eq_of_beq heq)

theorem IsOpener.opens (h : IsOpener w) (hmem : w ∈ openers) (hends : EndsWord gs) :
    Opens openers (w.toList.map glyphOf ++ gs) :=
  ⟨h.mayStartStatement hends, w, hmem, _, gs, rfl, rfl, h.isWord, hends⟩

theorem StartsWord.opens {text : List Char} (h : StartsWord w text) (hw : IsOpener w) (hmem : w ∈ openers) :
    Opens openers (text.map glyphOf) := by
  obtain ⟨behind, rfl, hends⟩ := h
  rw [List.map_append]
  exact hw.opens hmem hends

end

/-! ## Reading a known text -/

/-- Reads the statements of a known text, and the comments behind them: gives them if they take the whole text, or
`none` if reading gets stuck in it. -/
def foreseeStatements (d : Dialect) (openers : List String) : Nat → Cursor → Option (Option (List Node))
  | 0, _ => none
  | limit + 1, c =>
    (knownTrivia (c.rest.length + 1) c).bind fun skipped =>
      if skipped.2.rest.isEmpty then some (some skipped.1)
      else
        andThen (foresee d openers (readingDepth skipped.2.rest.length) .statement Grammar.item skipped.2) fun r =>
          if r.2.offset ≤ skipped.2.offset then some none
          else (foreseeStatements d openers limit r.2).map fun ns? => ns?.map fun ns => skipped.1 ++ r.1 ++ ns

/-- The statements of the text in front of a place, behind an interpreter line if there is one. -/
def readFront (d : Dialect) (openers : List String) (front : List Char) : Option (Option (List Node)) :=
  let start : Cursor := ⟨0, front.map glyphOf⟩
  if Lexeme.literal "#!".toList start.rest && !decide (HasBreak start.rest) then none
  else foreseeStatements d openers (front.length + 1) (readHashBang start).2

section

variable {d : Dialect} {openers : List String} {gs : List Glyph} {c c' : Cursor} {cs ns : List Node}

theorem Opens.ne_nil (h : Opens openers gs) : gs ≠ [] := by
  obtain ⟨ch, more, rfl, -⟩ := h.head
  exact List.cons_ne_nil _ _

theorem Opens.trivia_eq (hgs : Opens openers gs) (h : knownTrivia (c.rest.length + 1) c = some (cs, c')) :
    trivia (c.followed gs).rest.length (c.followed gs) = (cs, c'.followed gs) := by
  refine knownTrivia_passes hgs.starts h _ ?_
  have hpos := List.length_pos_iff.mpr hgs.ne_nil
  simp only [Cursor.followed, List.length_append]
  omega

/-- A statement of a known text. -/
theorem Opens.readStatement_eq (hgs : Opens openers gs) {r? : Option Reading}
    (hskipped : knownTrivia (c.rest.length + 1) c = some (cs, c'))
    (h : foresee d openers (readingDepth c'.rest.length) .statement Grammar.item c' = some r?) :
    readStatement d (c.followed gs) =
      r?.bind fun r => if r.2.offset ≤ c'.offset then none else some (cs ++ r.1, r.2.followed gs) := by
  have hread := foresee_sound hgs _ h (readingDepth (c'.followed gs).rest.length) (by
    simp only [readingDepth, Cursor.followed, List.length_append]
    omega)
  rw [readStatement, hgs.trivia_eq hskipped]
  dsimp only
  rw [hread]
  cases r? <;> rfl

/-- The statements of a known text are read in front of everything that starts with one of the openers. -/
theorem Opens.steps (hgs : Opens openers gs) : ∀ {limit : Nat} {c : Cursor} {ns : List Node},
    foreseeStatements d openers limit c = some (some ns) →
      ∃ ms before, Steps d (c.followed gs) ms before ∧ (trivia before.rest.length before).2.rest = gs ∧
        ns = ms ++ (trivia before.rest.length before).1
  | 0, _, _, h => by cases h
  | limit + 1, c, ns, h => by
      obtain ⟨⟨cs, c'⟩, hskipped, h⟩ := Option.bind_eq_some_iff.mp h
      dsimp only at h
      split at h
      · rename_i hempty
        cases h
        refine ⟨[], _, .refl _, ?_, ?_⟩
        · rw [hgs.trivia_eq hskipped]
          exact congrArg (· ++ gs) (List.isEmpty_iff.mp hempty)
        · rw [hgs.trivia_eq hskipped, List.nil_append]
      · rcases andThen_eq h with ⟨-, hnone⟩ | ⟨r, hread, h⟩
        · cases hnone
        · split at h
          · cases h
          · rename_i hlt
            obtain ⟨ns?, hns, hmap⟩ := Option.map_eq_some_iff.mp h
            obtain ⟨ns, rfl, rfl⟩ := Option.map_eq_some_iff.mp hmap
            obtain ⟨ms, before, hsteps, hrest, rfl⟩ := hgs.steps hns
            have hstatement := hgs.readStatement_eq hskipped hread
            rw [Option.bind_some, if_neg hlt] at hstatement
            exact ⟨_, before, .step hstatement hsteps, hrest, (List.append_assoc ..).symm⟩

/-- Where reading gets stuck in a known text, it does so in front of everything that starts with one of the
openers. -/
theorem Opens.stuck (hgs : Opens openers gs) : ∀ {limit : Nat} {c : Cursor},
    foreseeStatements d openers limit c = some none →
      ∃ ns last more, Steps d (c.followed gs) ns last ∧ readStatement d last = none ∧
        (trivia last.rest.length last).2.rest = more ++ gs ∧ more ≠ []
  | 0, _, h => by cases h
  | limit + 1, c, h => by
      obtain ⟨⟨cs, c'⟩, hskipped, h⟩ := Option.bind_eq_some_iff.mp h
      dsimp only at h
      split at h
      · cases h
      · rename_i hmore
        have hhere {r? : Option Reading}
            (hread : foresee d openers (readingDepth c'.rest.length) .statement Grammar.item c' = some r?)
            (hnone : (r?.bind fun r => if r.2.offset ≤ c'.offset then none
              else some (cs ++ r.1, r.2.followed gs)) = none) :
            ∃ ns last more, Steps d (c.followed gs) ns last ∧ readStatement d last = none ∧
              (trivia last.rest.length last).2.rest = more ++ gs ∧ more ≠ [] := by
          refine ⟨[], _, c'.rest, .refl _, (hgs.readStatement_eq hskipped hread).trans hnone, ?_, ?_⟩
          · rw [hgs.trivia_eq hskipped]
            rfl
          · intro hnil
            rw [hnil] at hmore
            exact hmore rfl
        rcases andThen_eq h with ⟨hread, -⟩ | ⟨r, hread, h⟩
        · exact hhere hread rfl
        · split at h
          · rename_i hle
            exact hhere hread (if_pos hle)
          · rename_i hlt
            obtain ⟨ns?, hns, hmap⟩ := Option.map_eq_some_iff.mp h
            obtain rfl := Option.map_eq_none_iff.mp hmap
            obtain ⟨ms, last, more, hsteps, hnone, hrest, hne⟩ := hgs.stuck hns
            have hstatement := hgs.readStatement_eq hskipped hread
            rw [Option.bind_some, if_neg hlt] at hstatement
            exact ⟨_, last, more, .step hstatement hsteps, hnone, hrest, hne⟩

/-! ## The interpreter line -/

/-- An interpreter line ends in the known text. -/
theorem Opens.readHashBang_eq (hgs : Opens openers gs)
    (h : (Lexeme.literal "#!".toList c.rest && !decide (HasBreak c.rest)) = false) :
    readHashBang (c.followed gs) = Reading.followed gs (readHashBang c) := by
  obtain ⟨ch, more, hhead, -, hmark⟩ := hgs.head
  have hliteral : Lexeme.literal "#!".toList (c.rest ++ gs) = Lexeme.literal "#!".toList c.rest := by
    have hhash : ch ≠ '#' := Opens.ne hmark rfl
    have hbang : ch ≠ '!' := Opens.ne hmark rfl
    rw [hhead]
    rcases c.rest with _ | ⟨a, _ | ⟨b, rest⟩⟩ <;> simp [Lexeme.literal, glyphOf, hhash, hbang]
  let inLine : Glyph → Bool := fun g => g.char != '\n' && g.char != '\r'
  have hscan : Lexeme.hashBang (c.rest ++ gs) = Lexeme.hashBang c.rest := by
    unfold Lexeme.hashBang
    rw [hliteral]
    split
    · rename_i hbang
      have hbreak : HasBreak c.rest := by
        rw [hbang, Bool.true_and] at h
        simpa using h
      have hshort : (c.rest.takeWhile inLine).length ≠ c.rest.length := by
        intro heq
        obtain ⟨g, hg, hfeed⟩ := hbreak
        have hall := List.takeWhile_eq_self_iff.mp ((List.takeWhile_prefix inLine).eq_of_length heq) g hg
        simp [inLine, hfeed] at hall
      rw [List.takeWhile_append, if_neg hshort]
    · rfl
  rw [readHashBang, readHashBang, Cursor.followed, hscan]
  cases hbang : Lexeme.hashBang c.rest with
  | none => rfl
  | some n =>
      have hle : n ≤ c.rest.length := by
        unfold Lexeme.hashBang at hbang
        obtain ⟨-, hlength⟩ := Option.ite_none_right_eq_some.mp hbang
        rw [← Option.some.inj hlength]
        exact (List.takeWhile_prefix inLine).length_le
      have hadvance := @followed_advance gs c n hle
      rw [Cursor.followed] at hadvance
      dsimp only
      rw [token, token, hadvance]
      rfl

/-! ## Places in a known text -/

/-- Characters that are left of a known text stand in it. -/
theorem place_known {front : List Char} {more : List Glyph} {n : Nat} (hgs : gs ≠ [])
    (h : ((Cursor.mk 0 (front.map glyphOf ++ gs)).advance n).rest = more ++ gs) :
    ∃ read rest, front = read ++ rest ∧ more = rest.map glyphOf ∧
      (Cursor.mk 0 (front.map glyphOf ++ gs)).advance n = ⟨bytesOf read, more ++ gs⟩ := by
  have hle : n ≤ front.length := by
    have hlength := congrArg List.length h
    have hpos := List.length_pos_iff.mpr hgs
    simp only [Cursor.advance_eq, List.length_drop, List.length_append, List.length_map] at hlength
    omega
  have hadvance := @advance_glyphs (front.take n) ((front.drop n).map glyphOf ++ gs) 0
  rw [← List.append_assoc, ← List.map_append, List.take_append_drop, List.length_take, Nat.min_eq_left hle,
    Nat.zero_add] at hadvance
  rw [hadvance] at h ⊢
  exact ⟨front.take n, front.drop n, (List.take_append_drop ..).symm, List.append_cancel_right h.symm,
    congrArg (Cursor.mk _) h⟩

end

end Syntax

section

variable {d : Dialect} {openers : List String} {gs : List Glyph} {c : Cursor} {ns ms : List Node} {front : List Char}
  {source : Bytes}

theorem Steps.advance {before : Cursor} (h : Steps d (readHashBang c).2 ms before) (k : Nat) :
    ∃ n, (trivia k before).2 = c.advance n := by
  obtain ⟨n, hn⟩ := readHashBang_forward c
  obtain ⟨l, hl⟩ := h.forward
  obtain ⟨m, hm⟩ := trivia_forward k before
  exact ⟨n + (l + m), by rw [hm, hl, hn, Cursor.advance_advance, Cursor.advance_advance]⟩

/-- The interpreter line is in the known text. -/
theorem readFront_start (hgs : Opens openers gs) {ns? : Option (List Node)} (h : readFront d openers front = some ns?) :
    readHashBang ⟨0, front.map glyphOf ++ gs⟩ = Reading.followed gs (readHashBang ⟨0, front.map glyphOf⟩) ∧
      foreseeStatements d openers (front.length + 1) (readHashBang ⟨0, front.map glyphOf⟩).2 = some ns? := by
  unfold readFront at h
  dsimp only at h
  split at h
  · cases h
  · rename_i hbang
    exact ⟨@Opens.readHashBang_eq openers gs ⟨0, front.map glyphOf⟩ hgs (Bool.eq_false_iff.mpr hbang), h⟩

/-- Reading the statements of a known text comes to what stands behind it. -/
theorem readFront_steps (hgs : Opens openers gs) (h : readFront d openers front = some (some ns)) :
    ∃ ms before, Steps d (readHashBang ⟨0, front.map glyphOf ++ gs⟩).2 ms before ∧
      (trivia before.rest.length before).2 = ⟨bytesOf front, gs⟩ ∧
      ns = ms ++ (trivia before.rest.length before).1 := by
  obtain ⟨hbang, h⟩ := readFront_start hgs h
  obtain ⟨ms, before, hsteps, hrest, hns⟩ := hgs.steps h
  have hstart : (readHashBang ⟨0, front.map glyphOf ++ gs⟩).2 = (readHashBang ⟨0, front.map glyphOf⟩).2.followed gs :=
    congrArg Prod.snd hbang
  rw [← hstart] at hsteps
  obtain ⟨n, hn⟩ := hsteps.advance before.rest.length
  rw [hn, ← List.nil_append gs] at hrest
  obtain ⟨read, rest, rfl, hnil, hplace⟩ := place_known hgs.ne_nil hrest
  obtain rfl := List.map_eq_nil_iff.mp hnil.symm
  exact ⟨ms, before, hsteps, by rw [hn, hplace, List.append_nil, List.nil_append], hns⟩

/-- Where reading gets stuck in a known text, something of it is left. -/
theorem readFront_stuck (hgs : Opens openers gs) (h : readFront d openers front = some none) :
    ∃ ms last, Steps d (readHashBang ⟨0, front.map glyphOf ++ gs⟩).2 ms last ∧ readStatement d last = none ∧
      (trivia last.rest.length last).2.offset < bytesOf front ∧ (trivia last.rest.length last).2.rest ≠ [] := by
  obtain ⟨hbang, h⟩ := readFront_start hgs h
  obtain ⟨ms, last, more, hsteps, hnone, hrest, hmore⟩ := hgs.stuck h
  have hstart : (readHashBang ⟨0, front.map glyphOf ++ gs⟩).2 = (readHashBang ⟨0, front.map glyphOf⟩).2.followed gs :=
    congrArg Prod.snd hbang
  rw [← hstart] at hsteps
  obtain ⟨n, hn⟩ := hsteps.advance last.rest.length
  rw [hn] at hrest
  obtain ⟨read, rest, rfl, rfl, hplace⟩ := place_known hgs.ne_nil hrest
  refine ⟨ms, last, hsteps, hnone, ?_, fun hnil => hmore (List.append_eq_nil_iff.mp (hrest ▸ hn ▸ hnil)).1⟩
  have hpos := @bytesOf_pos rest (by rintro rfl; exact hmore rfl)
  rw [hn, hplace, bytesOf_append]
  dsimp only
  omega

/-- The body of a source behind a known text. -/
theorem readFront_body (hgs : Opens openers gs) (h : readFront d openers front = some (some ns)) :
    readBody d (readHashBang ⟨0, front.map glyphOf ++ gs⟩).2 =
      (ns ++ (readBody d ⟨bytesOf front, gs⟩).1, (readBody d ⟨bytesOf front, gs⟩).2) := by
  obtain ⟨ms, before, hsteps, hplace, rfl⟩ := readFront_steps hgs h
  rw [hsteps.readBody_eq, readBody_skip before.rest.length before, hplace, List.append_assoc]

theorem trivia_le (n : Nat) (c : Cursor) : (trivia n c).2.offset ≤ (trivia c.rest.length c).2.offset := by
  rw [trivia_resume n c]
  exact offset_le_trivia _ _

/-- Reading goes no further than the place where it gets stuck. -/
theorem Steps.le_stuck {before last : Cursor} (h : Steps d c ns before) (h' : Steps d c ms last)
    (hnone : readStatement d last = none) (n : Nat) :
    (trivia n before).2.offset ≤ (trivia last.rest.length last).2.offset := by
  induction h generalizing ms with
  | refl c =>
      cases h' with
      | refl => exact trivia_le n last
      | @step _ r _ _ hread hmore =>
          have hlt : (trivia c.rest.length c).2.offset < r.2.offset := readStatement_offset hread
          obtain ⟨k, hk⟩ := hmore.forward
          have hle := Cursor.offset_le_advance k r.2
          rw [← hk] at hle
          have hhere := trivia_le n c
          have hlast := offset_le_trivia last.rest.length last
          omega
  | step hread _ ih =>
      cases h' with
      | refl =>
          rw [hnone] at hread
          cases hread
      | step hread' hmore =>
          rw [hread] at hread'
          cases hread'
          exact ih hmore

/-! ## Sources that start with a known text -/

theorem readFront_refused (hgs : Opens openers gs) (hsource : Cursor.start source = ⟨0, front.map glyphOf ++ gs⟩)
    (h : readFront d openers front = some none) : parseAs d source = none := by
  obtain ⟨ms, last, hsteps, hnone, -, hrest⟩ := readFront_stuck hgs h
  have hbody : (readBody d (readHashBang (Cursor.start source)).2).2.rest ≠ [] := by
    rw [hsource, hsteps.readBody_eq, readBody_stop hnone]
    exact hrest
  unfold parseAs
  dsimp only
  exact if_neg fun hempty => hbody (List.isEmpty_iff.mp hempty)

theorem readFront_not_arrives (hgs : Opens openers gs) (hsource : Cursor.start source = ⟨0, front.map glyphOf ++ gs⟩)
    (h : readFront d openers front = some none) : ¬Arrives d source (bytesOf front) := by
  obtain ⟨ms, last, hsteps, hnone, hlt, -⟩ := readFront_stuck hgs h
  rintro ⟨ns, before, n, hsteps', -, hoffset⟩
  rw [hsource] at hsteps'
  have hle := hsteps'.le_stuck hsteps hnone n
  omega

theorem readFront_comesTo (hgs : Opens openers gs) (hsource : Cursor.start source = ⟨0, front.map glyphOf ++ gs⟩)
    (h : readFront d openers front = some (some ns)) : ComesTo d source (bytesOf front) := by
  obtain ⟨ms, before, hsteps, hplace, -⟩ := readFront_steps hgs h
  exact ⟨ms, before, hsource ▸ hsteps, congrArg Cursor.offset hplace⟩

end

/-! ## Imports in a known text -/

namespace Node

/-- Nodes that stop at a bound keep below it. -/
theorem Row.below {ok : Nat → Prop} {bound : Nat} : ∀ {ns : List Node} {lo hi : Nat}, Row ok lo hi ns → hi ≤ bound →
    Row (· ≤ bound) lo hi ns
  | [], _, _, h, _ => row_nil.mpr h.le
  | mk _ _ start stop cs :: ns, _, _, h, hle => by
      simp only [Row, Placed, Node.start, Node.stop] at h ⊢
      obtain ⟨hlo, ⟨-, -, hcs⟩, hns⟩ := h
      have hstop : stop ≤ bound := Nat.le_trans hns.le hle
      exact ⟨hlo, ⟨Nat.le_trans hcs.le hstop, hstop, hcs.below hstop⟩, hns.below hle⟩

end Node

section

variable {d : Dialect} {openers : List String} {c last : Cursor} {ns : List Node} {front : List Char}
  {source source' more : Bytes} {ok : Nat → Prop}

theorem Steps.reads (h : Steps d c ns last) : Syntax.Reads (fun _ => True) c (ns, last) := by
  induction h with
  | refl c => exact .nil c
  | step hread _ ih => exact (readStatement_reads (fun _ => trivial) hread).append ih

/-- Nodes in front of a place have the same texts whatever stands behind it. -/
theorem sameTexts_front (front more : Bytes) : SameTexts front (front ++ more) id (· ≤ front.length) := by
  intro n hn
  obtain ⟨hstart, hstop, -⟩ := hn.ends
  rw [Node.relocate_id, Node.text, Node.text, Node.bytes, Node.bytes, List.drop_append_of_le_length hstart,
    List.take_append_of_le_length (by rw [List.length_drop]; omega)]

theorem Import.relocate_id (i : Import) : i.relocate id = i := by
  rw [Import.relocate, Node.relocate_id, Node.relocate_id]

/-- The same statements make the same imports. -/
theorem importsAmong_same (hsame : SameTexts source source' id ok) (hns : ∀ n ∈ ns, n.Placed ok) :
    importsAmong source' ns = importsAmong source ns := by
  refine List.flatMap_congr fun n hn => ?_
  have hmoved := ofStatement_relocate hsame (hns n hn)
  rwa [Node.relocate_id, List.map_id'' Import.relocate_id] at hmoved

/-- Whether reading a text comes to its end without an import or gets stuck in it, whatever stands behind it. -/
def importFree (d : Dialect) (openers : List String) (front : List Char) : Bool :=
  match readFront d openers front with
  | none => false
  | some none => true
  | some (some ns) => (importsAmong (Utf8.encode (String.ofList front)) ns).isEmpty

theorem start_front (front : List Char) (more : Bytes) :
    Cursor.start (Utf8.encode (String.ofList front) ++ more) = ⟨0, front.map glyphOf ++ Utf8.glyphs more⟩ := by
  rw [Cursor.start, Utf8.glyphs_encode, String.toList_ofList]

/-- Reading arrives behind a text without imports. -/
theorem readFront_arrives (hmore : Opens openers (Utf8.glyphs more)) (h : readFront d openers front = some (some ns))
    (hnone : importsAmong (Utf8.encode (String.ofList front)) ns = []) :
    Arrives d (Utf8.encode (String.ofList front) ++ more) (bytesOf front) := by
  obtain ⟨ms, before, hsteps, hplace, rfl⟩ := readFront_steps hmore h
  rw [← start_front] at hsteps
  refine ⟨ms, before, before.rest.length, hsteps, ?_, congrArg Cursor.offset hplace⟩
  have hle : before.offset ≤ bytesOf front := by
    have hforward := offset_le_trivia before.rest.length before
    rwa [hplace] at hforward
  have hrow := (hsteps.reads.2.below hle).mem
  rw [importsAmong_same (sameTexts_front _ more) fun n hn => (hrow n hn).2.2]
  rw [importsAmong_append, List.append_eq_nil_iff] at hnone
  exact hnone.1

/-- Behind a text without imports one statement is come to if another one is. -/
theorem frontKept_of_importFree {more' : Bytes} (h : importFree d openers front = true)
    (hmore : Opens openers (Utf8.glyphs more)) (hmore' : Opens openers (Utf8.glyphs more')) :
    FrontKept (Utf8.encode (String.ofList front) ++ more) (Utf8.encode (String.ofList front) ++ more')
      (bytesOf front) d := by
  unfold importFree at h
  split at h
  · cases h
  · rename_i hstuck
    have hnot := readFront_not_arrives hmore (start_front front more) hstuck
    exact ⟨fun harrives => absurd harrives hnot,
      fun _ => readFront_refused hmore' (start_front front more') hstuck⟩
  · rename_i ns hread
    have hnone := List.isEmpty_iff.mp h
    exact ⟨fun _ => readFront_arrives hmore' hread hnone,
      fun hnot => absurd (readFront_arrives hmore hread hnone) hnot⟩

end

end ImportAssist
