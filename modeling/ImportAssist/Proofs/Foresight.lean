import ImportAssist.Proofs.Forecasts
import ImportAssist.Proofs.KnownTokens
import ImportAssist.Proofs.PlainText

/-!
# What reading makes of a known text

Of a source only the text in front of some place may be known, and of what stands behind it no more than that a
statement may start there with one of some words (`Opens`). `foresee` reads the known text by a rule as far as that
goes: it tells what the rule reads, or that it refuses, or that this depends on what stands behind the text. What it
tells is what happens in front of everything that may stand there (`foresee_sound`).
-/

namespace ImportAssist

namespace Syntax

open Grammar (Production)
open Utf8 (glyphOf)

/-! ## Behind the known text -/

/-- A statement may start with these glyphs, and the first ones are one of some words. -/
structure Opens (openers : List String) (gs : List Glyph) : Prop where
  mayStart : mayStartStatement gs = true
  word : ∃ w ∈ openers, (Clue.word w).Ahead gs

/-- The cursor with more glyphs behind the known ones. -/
def Cursor.followed (gs : List Glyph) (c : Cursor) : Cursor := ⟨c.offset, c.rest ++ gs⟩

/-- What was read of the known glyphs, with more behind them. -/
def Reading.followed (gs : List Glyph) (r : Reading) : Reading := (r.1, r.2.followed gs)

section

variable {openers : List String} {gs : List Glyph} {c : Cursor} {n : Nat}

theorem Opens.head (h : Opens openers gs) : ∃ ch more, gs = glyphOf ch :: more ∧ Lexeme.isBlank ch = false ∧
    Lexeme.isPunctuation ch = false := by
  obtain ⟨-, w, -, chars, behind, rfl, -, hword, -⟩ := h
  obtain ⟨ch, more, rfl, -⟩ := hword.start
  refine ⟨ch, more.map glyphOf ++ behind, rfl, hword.head_not_blank, ?_⟩
  rw [Bool.eq_false_iff]
  exact fun hmark => hword.head_ne hmark rfl

theorem Opens.ne (h : Lexeme.isPunctuation ch = false) {t : Char} (ht : Lexeme.isPunctuation t = true) : ch ≠ t := by
  rintro rfl
  rw [h] at ht
  cases ht

theorem Opens.comment_eq_none (h : Opens openers gs) : Lexeme.comment gs = none := by
  obtain ⟨ch, more, rfl, -, hmark⟩ := h.head
  exact comment_other (Opens.ne hmark rfl)

theorem Opens.starts (h : Opens openers gs) : Starts gs := by
  obtain ⟨ch, more, rfl, hblank, hmark⟩ := h.head
  exact starts_cons hblank (Opens.ne hmark rfl)

theorem followed_advance (h : n ≤ c.rest.length) : (c.followed gs).advance n = (c.advance n).followed gs := by
  rw [Cursor.advance_eq, Cursor.advance_eq, Cursor.followed, Cursor.followed]
  simp only [List.take_append_of_le_length h, List.drop_append_of_le_length h]

end

/-! ## Tokens -/

/-- What a scanner does in front of the known glyphs, if they decide it. -/
def decidedScan (decided : Bool) (scan : List Glyph → Option Nat) (gs : List Glyph) : Option (Option Nat) :=
  if decided && (scan gs).all (· ≤ gs.length) then some (scan gs) else none

/-- The comment ahead. -/
def knownComment (gs : List Glyph) : Option (Option Nat) :=
  decidedScan (commentDecided gs) Lexeme.comment gs

/-- Skips white space and comments. -/
def knownTrivia : Nat → Cursor → Option Reading
  | 0, _ => none
  | fuel + 1, c =>
    match c.rest with
    | [] => some ([], c)
    | g :: _ =>
      if g.valid && Lexeme.isBlank g.char then knownTrivia fuel (c.advance 1)
      else
        match knownComment c.rest with
        | none => none
        | some none => some ([], c)
        | some (some n) =>
          (knownTrivia fuel (c.advance n)).map fun more =>
            (Node.leaf .comment c.offset (c.advance n).offset :: more.1, more.2)

/-- Whether a statement may start behind a line, as far as the known glyphs tell. -/
def knownStart (fuel : Nat) (gs : List Glyph) : Option Bool :=
  (knownTrivia fuel ⟨0, gs⟩).bind fun r =>
    if r.2.rest.isEmpty then some true
    else if HasBreak r.2.rest then some (mayStartStatement r.2.rest)
    else none

/-- The rest of a line in front of the next token. -/
def knownEnd (endsLine : Char → Bool) : Nat → Cursor → Option (Option Reading)
  | 0, _ => none
  | fuel + 1, c =>
    let blanks := Lexeme.runLength (fun ch => Lexeme.isBlank ch && !endsLine ch) c.rest
    match c.rest.drop blanks with
    | [] => some none
    | g :: rest =>
      if g.char == '\x7d' then some (some ([], c))
      else if endsLine g.char then
        (knownStart fuel rest).map fun may => if may then some ([], c) else none
      else
        match knownComment (g :: rest) with
        | none => none
        | some none => some none
        | some (some n) =>
          let before := c.advance blanks
          let after := before.advance n
          (knownEnd endsLine fuel after).map fun more? => more?.map fun more =>
            (Node.leaf .comment before.offset after.offset :: more.1, more.2)

/-- Whether a rule for a token reads none of some words. -/
def refusesOpeners (openers : List String) (rule : Production) : Bool :=
  openers.all fun w =>
    match rule with
    | .mark text notBefore => (Clue.word w).mark? text notBefore == some false
    | .keyword text => (Clue.word w).keyword? text == some false
    | .name _ except => (Clue.word w).name? except == some false
    | .lexeme _ _ literal => (Clue.word w).lexeme? literal == some false
    | .group => true
    | _ => false

/-- Reads a token. Behind the known glyphs only the openers stand. -/
def knownToken (openers : List String) (rule : Production) (scan : List Glyph → Option Nat) (c : Cursor) :
    Option (Option Reading) :=
  if c.rest.isEmpty then if refusesOpeners openers rule then some none else none
  else
    (decidedScan (rule.isDecided c.rest) scan c.rest).map fun n? => n?.map fun n =>
      (rule.tokenNodes c.offset (c.advance n).offset, c.advance n)

/-! ## Rules -/

/-- Goes on with a result that is known. -/
def andThen {α β : Type} (result : Option (Option α)) (next : α → Option (Option β)) : Option (Option β) :=
  match result with
  | none => none
  | some none => some none
  | some (some a) => next a

/-- Reads some comments in front. -/
def behind (cs : List Node) (result : Option (Option Reading)) : Option (Option Reading) :=
  result.map fun r? => r?.map fun r => (cs ++ r.1, r.2)

def foreseeSeq (read : Production → Cursor → Option (Option Reading)) :
    List Production → Cursor → Option (Option Reading)
  | [], c => some (some ([], c))
  | rule :: rules, c => andThen (read rule c) fun r => behind r.1 (foreseeSeq read rules r.2)

def foreseeAlt (read : Production → Cursor → Option (Option Reading)) :
    List Production → Cursor → Option (Option Reading)
  | [], _ => some none
  | rule :: rules, c =>
    match read rule c with
    | none => none
    | some none => foreseeAlt read rules c
    | some (some r) => some (some r)

def foreseeMany (read : Cursor → Option (Option Reading)) : Nat → List (List Node) → Cursor → Option Reading
  | 0, _, _ => none
  | limit + 1, done, c =>
    match read c with
    | none => none
    | some none => some (done.reverse.flatten, c)
    | some (some (ns, after)) =>
      if after.offset ≤ c.offset then some (done.reverse.flatten, c)
      else foreseeMany read limit (ns :: done) after

def foreseeLinks (read : Production → Cursor → Option (Option Reading)) (left : Node) :
    List (Link Symbol) → Cursor → Option (Option (Node × Cursor))
  | [], _ => some none
  | .mk kind role onto tail :: links, c =>
    if onto.isEmpty || onto.any left.hasKind then
      match read tail c with
      | none => none
      | some none => foreseeLinks read left links c
      | some (some (ns, after)) =>
        some (some (.mk (.kind kind) none left.start after.offset (inRole role left :: ns), after))
    else foreseeLinks read left links c

def foreseeChain (read : Production → Cursor → Option (Option Reading)) (links : List (Link Symbol)) :
    Nat → Node → Cursor → Option (Node × Cursor)
  | 0, _, _ => none
  | limit + 1, left, c =>
    match foreseeLinks read left links c with
    | none => none
    | some none => some (left, c)
    | some (some (node, after)) => foreseeChain read links limit node after

/-- What a rule makes of a known text, if that does not depend on what stands behind it. -/
def foresee (d : Dialect) (openers : List String) : Nat → Place → Production → Cursor → Option (Option Reading)
  | 0, _, _, _ => none
  | depth + 1, p, rule, c =>
    match rule.scan? with
    | some scan =>
      (if rule.isRaw then some ([], c) else knownTrivia depth c).bind fun skipped =>
        behind skipped.1 (knownToken openers rule scan skipped.2)
    | none =>
      match rule with
      | .seq rules => foreseeSeq (foresee d openers depth p) rules c
      | .alt rules => foreseeAlt (foresee d openers depth p) rules c
      | .opt rule =>
        (foresee d openers depth p rule c).map fun r? => some (r?.getD ([], c))
      | .many rule => (foreseeMany (foresee d openers depth p rule) depth [] c).map some
      | .ahead rule => (foresee d openers depth p rule c).map fun r? => r?.map fun _ => ([], c)
      | .notAhead rule =>
        (foresee d openers depth p rule c).map fun r? => if r?.isSome then none else some ([], c)
      | .node kind rule =>
        (knownTrivia depth c).bind fun skipped =>
          (foresee d openers depth p rule skipped.2).map fun r? => r?.map fun r =>
            (skipped.1 ++ [.mk (.kind kind) none skipped.2.offset r.2.offset r.1], r.2)
      | .role part rule =>
        (foresee d openers depth p rule c).map fun r? => r?.map fun r => (assignRole part r.1, r.2)
      | .call symbol => foresee d openers depth p (grammar d symbol) c
      | .chain base links =>
        andThen (foresee d openers depth p base c) fun r =>
          match r.1.getLast? with
          | none => some (some r)
          | some left =>
            (foreseeChain (foresee d openers depth p) links depth left r.2).map fun whole =>
              some (r.1.dropLast ++ [whole.1], whole.2)
      | .fresh rule =>
        (knownTrivia depth c).bind fun skipped => behind skipped.1 (foresee d openers depth p rule skipped.2)
      | .inside place rule => foresee d openers depth place rule c
      | .outside place => some (if p = place then none else some ([], c))
      | .semicolon => knownEnd d.endsLine depth c
      | .joined =>
        if p = .statement then
          (knownEnd d.endsLine depth c).map fun ends => if ends.isSome then none else some ([], c)
        else some (some ([], c))
      | _ => none

/-! ## What is skipped -/

variable {openers : List String} {gs : List Glyph} {c c' : Cursor} {cs : List Node}

theorem decidedScan_eq {decided : Bool} {scan : List Glyph → Option Nat} {n? : Option Nat}
    (h : decidedScan decided scan gs = some n?) : decided = true ∧ scan gs = n? ∧ ∀ n ∈ n?, n ≤ gs.length := by
  rw [decidedScan, Option.ite_none_right_eq_some] at h
  obtain ⟨htest, hscan⟩ := h
  obtain ⟨hdecided, hall⟩ := Bool.and_eq_true_iff.mp htest
  cases hscan
  exact ⟨hdecided, rfl, by simpa [Option.all_eq_true] using hall⟩

theorem knownComment_sound {n? : Option Nat} (h : knownComment gs = some n?) (more : List Glyph) :
    Lexeme.comment (gs ++ more) = n? ∧ ∀ n ∈ n?, n ≤ gs.length := by
  obtain ⟨hdecided, rfl, hlength⟩ := decidedScan_eq h
  exact ⟨comment_append hdecided, hlength⟩

theorem knownTrivia_passes (hgs : Starts gs) : ∀ {fuel : Nat} {c c' : Cursor} {cs : List Node},
    knownTrivia fuel c = some (cs, c') → Passes fuel (c.followed gs) cs (c'.followed gs)
  | 0, _, _, _, h => by cases h
  | k + 1, ⟨offset, rest⟩, c', cs, h => by
      intro fuel hfuel
      obtain ⟨fuel, rfl⟩ : ∃ n, fuel = n + 1 := ⟨fuel - 1, by omega⟩
      have hmore {fuel' : Nat} (hfuel' : k ≤ fuel') {c : Cursor} {cs : List Node}
          (h : knownTrivia k c = some (cs, c')) :
          trivia fuel' (c.followed gs) = (cs, c'.followed gs) := knownTrivia_passes hgs h fuel' hfuel'
      rw [knownTrivia] at h
      cases rest with
      | nil =>
          cases h
          exact hgs offset (fuel + 1)
      | cons g rest =>
          dsimp only at h
          have hadvance {n : Nat} (hn : n ≤ (g :: rest).length) := @followed_advance gs ⟨offset, g :: rest⟩ n hn
          rw [Cursor.followed, List.cons_append, trivia]
          dsimp only
          split at h
          · rename_i hblank
            rw [if_pos hblank]
            exact (congrArg (trivia fuel) (hadvance (Nat.succ_le_succ (Nat.zero_le _)))).trans
              (hmore (Nat.le_of_succ_le_succ hfuel) h)
          · rename_i hblank
            rw [if_neg hblank]
            cases hcomment : knownComment (g :: rest) with
            | none =>
                rw [hcomment] at h
                cases h
            | some n? =>
                rw [hcomment] at h
                obtain ⟨hscan, hlength⟩ := knownComment_sound hcomment gs
                rw [List.cons_append] at hscan
                rw [hscan]
                cases n? with
                | none =>
                    cases h
                    rfl
                | some n =>
                    obtain ⟨more, hread, heq⟩ := Option.map_eq_some_iff.mp h
                    cases heq
                    have hhere := hadvance (hlength n rfl)
                    rw [Cursor.followed, List.cons_append] at hhere
                    dsimp only
                    rw [hhere, hmore (Nat.le_of_succ_le_succ hfuel) hread]
                    rfl

/-! ## Ends of statements -/

theorem knownStart_sound (hgs : Opens openers gs) {k fuel : Nat} {rest : List Glyph} {may : Bool}
    (h : knownStart k rest = some may) (hfuel : k ≤ fuel) :
    mayStartStatement (trivia fuel ⟨0, rest ++ gs⟩).2.rest = may := by
  obtain ⟨⟨cs, c'⟩, hskipped, hmay⟩ := Option.bind_eq_some_iff.mp h
  have hpasses : trivia fuel ⟨0, rest ++ gs⟩ = (cs, c'.followed gs) :=
    knownTrivia_passes hgs.starts hskipped fuel hfuel
  rw [hpasses]
  change mayStartStatement (c'.rest ++ gs) = may
  split at hmay
  · rename_i hempty
    cases hmay
    rw [List.isEmpty_iff.mp hempty]
    exact hgs.mayStart
  · split at hmay
    · rename_i hbreak
      cases hmay
      exact hbreak.mayStartStatement
    · cases hmay

theorem runLength_all {test : Char → Bool} : ∀ {front : List Glyph}, front.length ≤ Lexeme.runLength test front →
    Lexeme.runLength test (front ++ gs) = front.length + Lexeme.runLength test gs
  | [], _ => by simp
  | g :: front, h => by
      rw [Lexeme.runLength] at h
      rw [List.cons_append, Lexeme.runLength]
      split at h
      · rename_i hg
        rw [if_pos hg, runLength_all (Nat.le_of_succ_le_succ h), List.length_cons]
        omega
      · exact absurd h (Nat.not_succ_le_zero _)

/-- No statement ends on a line on which an opener stands. -/
theorem lineEnd_opener {endsLine : Char → Bool} (hends : ∀ ch, endsLine ch = true → Lexeme.isBlank ch = true)
    (hgs : Opens openers gs) (fuel : Nat)
    (h : c.rest.length ≤ Lexeme.runLength (fun ch => Lexeme.isBlank ch && !endsLine ch) c.rest) :
    lineEnd endsLine (fuel + 1) (c.followed gs) = none := by
  obtain ⟨ch, more, rfl, hblank, hmark⟩ := hgs.head
  have hnone : Lexeme.comment (glyphOf ch :: more) = none := hgs.comment_eq_none
  have hstop : Lexeme.runLength (fun ch => Lexeme.isBlank ch && !endsLine ch) (glyphOf ch :: more) = 0 := by
    simp [Lexeme.runLength, glyphOf, hblank]
  have hline : endsLine (glyphOf ch).char = false := by
    rw [Bool.eq_false_iff]
    intro hline
    rw [show Lexeme.isBlank ch = true from hends ch hline] at hblank
    cases hblank
  have hbrace : ((glyphOf ch).char == '\x7d') = false := beq_eq_false_iff_ne.mpr (Opens.ne hmark rfl)
  rw [lineEnd]
  dsimp only [Cursor.followed]
  rw [runLength_all h, hstop, Nat.add_zero, List.drop_left]
  dsimp only
  rw [hbrace, hline, hnone]
  rfl

/-- A line on which something is known decides by what stands behind its blanks. -/
theorem lineEnd_followed {endsLine : Char → Bool} {fuel : Nat} {g : Glyph} {rest : List Glyph}
    (h : c.rest.drop (Lexeme.runLength (fun ch => Lexeme.isBlank ch && !endsLine ch) c.rest) = g :: rest) :
    lineEnd endsLine (fuel + 1) (c.followed gs) =
      if g.char == '\x7d' then some ([], c.followed gs)
      else if endsLine g.char then
        if mayStartStatement (trivia fuel ⟨0, rest ++ gs⟩).2.rest then some ([], c.followed gs) else none
      else
        match Lexeme.comment (g :: rest ++ gs) with
        | some n =>
          let before := (c.followed gs).advance
            (Lexeme.runLength (fun ch => Lexeme.isBlank ch && !endsLine ch) c.rest)
          let after := before.advance n
          (lineEnd endsLine fuel after).map fun r =>
            (Node.leaf .comment before.offset after.offset :: r.1, r.2)
        | none => none := by
  have hlength := congrArg List.length h
  rw [List.length_drop, List.length_cons] at hlength
  have hrun : Lexeme.runLength (fun ch => Lexeme.isBlank ch && !endsLine ch) (c.followed gs).rest =
      Lexeme.runLength (fun ch => Lexeme.isBlank ch && !endsLine ch) c.rest := runLength_append (by omega)
  have hhere : (c.followed gs).rest.drop (Lexeme.runLength (fun ch => Lexeme.isBlank ch && !endsLine ch) c.rest) =
      g :: (rest ++ gs) := by
    rw [Cursor.followed, List.drop_append_of_le_length (by omega), h, List.cons_append]
  rw [lineEnd]
  dsimp only
  rw [hrun, hhere]
  rfl

theorem knownEnd_sound {endsLine : Char → Bool} (hends : ∀ ch, endsLine ch = true → Lexeme.isBlank ch = true)
    (hgs : Opens openers gs) : ∀ {k fuel : Nat} {c : Cursor} {r? : Option Reading},
      knownEnd endsLine k c = some r? → k ≤ fuel →
        lineEnd endsLine fuel (c.followed gs) = r?.map (Reading.followed gs)
  | 0, _, _, _, h, _ => by cases h
  | k + 1, 0, _, _, _, hfuel => absurd hfuel (Nat.not_succ_le_zero _)
  | k + 1, fuel + 1, c, r?, h, hfuel => by
      rw [knownEnd] at h
      dsimp only at h
      cases hdrop : c.rest.drop (Lexeme.runLength (fun ch => Lexeme.isBlank ch && !endsLine ch) c.rest) with
      | nil =>
          rw [hdrop] at h
          cases h
          exact lineEnd_opener hends hgs fuel (List.drop_eq_nil_iff.mp hdrop)
      | cons g rest =>
          rw [hdrop] at h
          dsimp only at h
          rw [lineEnd_followed hdrop]
          split at h
          · rename_i hbrace
            cases h
            rw [if_pos hbrace]
            rfl
          · rename_i hbrace
            rw [if_neg hbrace]
            split at h
            · rename_i hline
              obtain ⟨may, hmay, rfl⟩ := Option.map_eq_some_iff.mp h
              rw [if_pos hline, knownStart_sound hgs hmay (Nat.le_of_succ_le_succ hfuel)]
              cases may <;> rfl
            · rename_i hline
              rw [if_neg hline]
              cases hcomment : knownComment (g :: rest) with
              | none =>
                  rw [hcomment] at h
                  cases h
              | some n? =>
                  rw [hcomment] at h
                  obtain ⟨hscan, hle⟩ := knownComment_sound hcomment gs
                  rw [hscan]
                  cases n? with
                  | none =>
                      cases h
                      rfl
                  | some n =>
                      obtain ⟨more?, hread, rfl⟩ := Option.map_eq_some_iff.mp h
                      have hmore := knownEnd_sound hends hgs hread (Nat.le_of_succ_le_succ hfuel)
                      have hlength := congrArg List.length hdrop
                      rw [List.length_drop, List.length_cons] at hlength
                      dsimp only
                      rw [followed_advance (by omega), followed_advance, hmore]
                      · cases more? <;> rfl
                      · rw [Cursor.advance_eq]
                        dsimp only
                        rw [hdrop]
                        exact hle n rfl

/-! ## Tokens that are read -/

theorem refusesOpeners_sound {rule : Production} {scan : List Glyph → Option Nat} (hgs : Opens openers gs)
    (hscan : rule.scan? = some scan) (h : refusesOpeners openers rule = true) : scan gs = none := by
  obtain ⟨ch, more, hhead, -, hmark⟩ := hgs.head
  obtain ⟨-, w, hw, hahead⟩ := hgs
  have htest := List.all_eq_true.mp h w hw
  cases rule with
  | mark text notBefore =>
      cases hscan
      exact if_neg (by rw [Clue.mark?_false (beq_iff_eq.mp htest) hahead]; exact Bool.false_ne_true)
  | keyword text =>
      cases hscan
      exact if_neg (by rw [Clue.keyword?_false (beq_iff_eq.mp htest) hahead]; exact Bool.false_ne_true)
  | name kind except =>
      cases hscan
      rcases Clue.name?_false (beq_iff_eq.mp htest) hahead with hnone | hexcept
      · simp [hnone]
      · exact if_pos (by rw [List.contains_iff_mem.2 hexcept, Bool.or_true])
  | lexeme kind raw literal =>
      cases hscan
      exact Clue.lexeme?_false (beq_iff_eq.mp htest) hahead
  | group =>
      cases hscan
      rw [hhead]
      have hcloser : Lexeme.closer (glyphOf ch).char = none := by
        have h1 : ch ≠ '(' := Opens.ne hmark rfl
        have h2 : ch ≠ '[' := Opens.ne hmark rfl
        have h3 : ch ≠ '\x7b' := Opens.ne hmark rfl
        simp [Lexeme.closer, glyphOf, h1, h2, h3]
      rw [Lexeme.group, hcloser]
  | _ => cases hscan

theorem knownToken_sound {rule : Production} {scan : List Glyph → Option Nat} {r? : Option Reading}
    (hgs : Opens openers gs) (hscan : rule.scan? = some scan) (h : knownToken openers rule scan c = some r?) :
    (scan (c.rest ++ gs)).map (fun n => (rule.tokenNodes c.offset ((c.followed gs).advance n).offset,
      (c.followed gs).advance n)) = r?.map (Reading.followed gs) := by
  unfold knownToken at h
  split at h
  · rename_i hempty
    rw [List.isEmpty_iff.mp hempty, List.nil_append]
    split at h
    · rename_i hrefuses
      cases h
      rw [refusesOpeners_sound hgs hscan hrefuses]
      rfl
    · cases h
  · obtain ⟨n?, hdecided, rfl⟩ := Option.map_eq_some_iff.mp h
    obtain ⟨hdecided, hn, hle⟩ := decidedScan_eq hdecided
    rw [Rule.scan_append hscan hdecided, hn]
    cases n? with
    | none => rfl
    | some n =>
        simp only [Option.map_some, followed_advance (hle n rfl)]
        rfl

/-! ## Rules that are read -/

variable {d : Dialect} {p : Place} {k : Nat} {rule : Production}

/-- What a reader tells of a rule happens from the depth `k` on. -/
def Foretells (d : Dialect) (p : Place) (k : Nat) (gs : List Glyph)
    (read : Production → Cursor → Option (Option Reading)) : Prop :=
  ∀ {rule : Production} {c : Cursor} {r? : Option Reading}, read rule c = some r? →
    Runs d p k rule (c.followed gs) (r?.map (Reading.followed gs))

/-- The links that go on after an operand give a node and a cursor. -/
def Linked.followed (gs : List Glyph) (r : Node × Cursor) : Node × Cursor := (r.1, r.2.followed gs)

theorem andThen_eq {α β : Type} {result : Option (Option α)} {next : α → Option (Option β)} {b? : Option β}
    (h : andThen result next = some b?) : result = some none ∧ b? = none ∨
      ∃ a, result = some (some a) ∧ next a = some b? := by
  match result, h with
  | some none, h =>
      cases h
      exact .inl ⟨rfl, rfl⟩
  | some (some a), h => exact .inr ⟨a, rfl, h⟩

section

variable {read : Production → Cursor → Option (Option Reading)}

theorem foreseeSeq_sound (hread : Foretells d p k gs read) : ∀ {rules : List Production} {c : Cursor}
    {r? : Option Reading}, foreseeSeq read rules c = some r? →
      RunsAll d p k rules (c.followed gs) (r?.map (Reading.followed gs))
  | [], _, _, h => by
      cases h
      exact .nil
  | rule :: rules, c, r?, h => by
      rcases andThen_eq h with ⟨hhead, rfl⟩ | ⟨r, hhead, h⟩
      · exact .head (hread hhead)
      · obtain ⟨last?, htail, rfl⟩ := Option.map_eq_some_iff.mp h
        have hrules := foreseeSeq_sound hread htail
        cases last? with
        | none => exact .tail (hread hhead) hrules
        | some last => exact .cons (hread hhead) hrules

theorem foreseeAlt_sound (hread : Foretells d p k gs read) {r? : Option Reading} : ∀ {rules : List Production},
    foreseeAlt read rules c = some r? → RunsFirst d p k rules (c.followed gs) (r?.map (Reading.followed gs))
  | [], h => by
      cases h
      exact .nil
  | rule :: rules, h => by
      rw [foreseeAlt] at h
      cases hhead : read rule c with
      | none =>
          rw [hhead] at h
          cases h
      | some first? =>
          rw [hhead] at h
          cases first? with
          | none => exact .there (hread hhead) (foreseeAlt_sound hread h)
          | some first =>
              cases h
              exact .here (hread hhead)

theorem foreseeLinks_sound (hread : Foretells d p k gs read) (left : Node) {r? : Option (Node × Cursor)} :
    ∀ {links : List (Link Symbol)}, foreseeLinks read left links c = some r? →
      RunsLinks d p k left links (c.followed gs) (r?.map (Linked.followed gs))
  | [], h => by
      cases h
      exact fun _ _ => rfl
  | .mk kind role onto tail :: links, h => by
      rw [foreseeLinks] at h
      split at h
      · rename_i honto
        cases hhead : read tail c with
        | none =>
            rw [hhead] at h
            cases h
        | some first? =>
            rw [hhead] at h
            cases first? with
            | none => exact .tail (hread hhead) (foreseeLinks_sound hread left h)
            | some first =>
                cases h
                exact .fits honto (hread hhead)
      · rename_i honto
        exact .misfits (Bool.eq_false_iff.mpr honto) (foreseeLinks_sound hread left h)

theorem foreseeChain_sound (hread : Foretells d p k gs read) {links : List (Link Symbol)} {whole : Node × Cursor} :
    ∀ {limit : Nat} {left : Node} {c : Cursor}, foreseeChain read links limit left c = some whole →
      RunsChain d p k limit left links (c.followed gs) (Linked.followed gs whole)
  | 0, _, _, h => by cases h
  | limit + 1, left, c, h => by
      rw [foreseeChain] at h
      cases hlinks : foreseeLinks read left links c with
      | none =>
          rw [hlinks] at h
          cases h
      | some next? =>
          rw [hlinks] at h
          cases next? with
          | none =>
              cases h
              exact .stop (foreseeLinks_sound hread left hlinks)
          | some next => exact .step (foreseeLinks_sound hread left hlinks) (foreseeChain_sound hread h)

theorem foreseeMany_sound {rule : Production} (hread : Foretells d p k gs read) {r : Reading} :
    ∀ {limit : Nat} {done : List (List Node)} {c : Cursor}, foreseeMany (read rule) limit done c = some r →
      ∀ fuel limit', k ≤ fuel → limit ≤ limit' →
        repeatRun (rule.run (grammar d) d.endsLine fuel p) limit' done (c.followed gs) = r.followed gs
  | 0, _, _, h => by cases h
  | limit + 1, done, c, h => by
      intro fuel limit' hfuel hlimit
      obtain ⟨limit', rfl⟩ : ∃ n, limit' = n + 1 := ⟨limit' - 1, by omega⟩
      rw [foreseeMany] at h
      cases hhead : read rule c with
      | none =>
          rw [hhead] at h
          cases h
      | some first? =>
          rw [hhead] at h
          rw [repeatRun, hread hhead fuel hfuel]
          cases first? with
          | none =>
              cases h
              rfl
          | some first =>
              obtain ⟨ns, after⟩ := first
              dsimp only at h
              split at h
              · rename_i hle
                cases h
                exact if_pos hle
              · rename_i hlt
                have hmore := foreseeMany_sound hread h fuel limit' hfuel (Nat.le_of_succ_le_succ hlimit)
                exact (if_neg hlt).trans hmore

end

theorem Runs.chain_last {base : Production} {links : List (Link Symbol)} {ns : List Node} {left whole : Node}
    {c' last : Cursor} {m : Nat} (h : Runs d p k base c (some (ns, c'))) (hleft : ns.getLast? = some left)
    (hs : RunsChain d p k m left links c' (whole, last)) (hm : m ≤ k) :
    Runs d p (k + 1) (.chain base links) c (some (ns.dropLast ++ [whole], last)) :=
  runs_succ fun fuel hfuel => by
    simp only [Rule.run, h fuel hfuel, hleft, hs fuel fuel hfuel (Nat.le_trans hm hfuel)]

theorem Runs.chain_nil {base : Production} {links : List (Link Symbol)} {ns : List Node} {last : Cursor}
    (h : Runs d p k base c (some (ns, last))) (hnil : ns.getLast? = none) :
    Runs d p (k + 1) (.chain base links) c (some (ns, last)) :=
  runs_succ fun fuel hfuel => by simp only [Rule.run, h fuel hfuel, hnil]

/-- A token that is foreseen is read. -/
theorem foresee_token_sound (hgs : Opens openers gs) {depth : Nat} {p : Place} {rule : Production} {c : Cursor}
    {scan : List Glyph → Option Nat} {r? : Option Reading} (hscan : rule.scan? = some scan)
    (h : foresee d openers (depth + 1) p rule c = some r?) :
    Runs d p (depth + 1) rule (c.followed gs) (r?.map (Reading.followed gs)) := by
  unfold foresee at h
  rw [hscan] at h
  obtain ⟨⟨cs, c'⟩, hskipped, h⟩ := Option.bind_eq_some_iff.mp h
  obtain ⟨token?, htoken, rfl⟩ := Option.map_eq_some_iff.mp h
  refine runs_succ fun fuel hfuel => ?_
  have hhere : rule.skipped fuel (c.followed gs) = (cs, c'.followed gs) := by
    rw [Rule.skipped]
    split at hskipped
    · rename_i hraw
      cases hskipped
      rw [if_pos hraw]
    · rename_i hraw
      rw [if_neg hraw]
      exact knownTrivia_passes hgs.starts hskipped fuel hfuel
  have hread := knownToken_sound hgs hscan htoken
  rw [Rule.run_token hscan, hhere]
  have hall := congrArg (Option.map fun r : Reading => (cs ++ r.1, r.2)) hread
  rw [Option.map_map] at hall
  refine hall.trans ?_
  cases token? <;> rfl

/-- What is foreseen happens in front of everything that starts with one of the openers. -/
theorem foresee_sound (hgs : Opens openers gs) : ∀ (depth : Nat) {p : Place} {rule : Production} {c : Cursor}
    {r? : Option Reading}, foresee d openers depth p rule c = some r? →
      Runs d p depth rule (c.followed gs) (r?.map (Reading.followed gs))
  | 0, _, _, _, _, h => by cases h
  | depth + 1, p, rule, c, r?, h => by
      have ih {q : Place} : Foretells d q depth gs (foresee d openers depth q) := fun h => foresee_sound hgs depth h
      cases rule with
      | mark | keyword | name | lexeme | group => exact foresee_token_sound hgs rfl h
      | seq rules => exact .seq (foreseeSeq_sound ih h)
      | alt rules => exact .alt (foreseeAlt_sound ih h)
      | opt rule =>
          simp only [foresee, Rule.scan?] at h
          obtain ⟨r?, hrule, rfl⟩ := Option.map_eq_some_iff.mp h
          cases r? with
          | none => exact .opt_none (ih hrule)
          | some r => exact .opt (ih hrule)
      | many rule =>
          simp only [foresee, Rule.scan?] at h
          obtain ⟨r, hrule, rfl⟩ := Option.map_eq_some_iff.mp h
          exact runs_succ fun fuel hfuel =>
            congrArg some (foreseeMany_sound ih hrule fuel fuel hfuel hfuel)
      | ahead rule =>
          simp only [foresee, Rule.scan?] at h
          obtain ⟨r?, hrule, rfl⟩ := Option.map_eq_some_iff.mp h
          cases r? with
          | none => exact .ahead_none (ih hrule)
          | some r => exact .ahead (ih hrule)
      | notAhead rule =>
          simp only [foresee, Rule.scan?] at h
          obtain ⟨r?, hrule, rfl⟩ := Option.map_eq_some_iff.mp h
          cases r? with
          | none => exact .notAhead_none (ih hrule)
          | some r => exact .notAhead (ih hrule)
      | node kind rule =>
          simp only [foresee, Rule.scan?] at h
          obtain ⟨⟨cs, c'⟩, hskipped, h⟩ := Option.bind_eq_some_iff.mp h
          obtain ⟨r?, hrule, rfl⟩ := Option.map_eq_some_iff.mp h
          have hpasses := knownTrivia_passes hgs.starts hskipped
          cases r? with
          | none => exact .node_none hpasses.comes (ih hrule)
          | some r => exact .node hpasses (ih hrule)
      | role part rule =>
          simp only [foresee, Rule.scan?] at h
          obtain ⟨r?, hrule, rfl⟩ := Option.map_eq_some_iff.mp h
          cases r? with
          | none => exact .role_none (ih hrule)
          | some r => exact .role (ih hrule)
      | call symbol => exact .call (ih h)
      | chain base links =>
          simp only [foresee, Rule.scan?] at h
          rcases andThen_eq h with ⟨hbase, rfl⟩ | ⟨r, hbase, h⟩
          · exact .chain_none (ih hbase)
          · cases hlast : r.1.getLast? with
            | none =>
                rw [hlast] at h
                cases h
                exact .chain_nil (ih hbase) hlast
            | some left =>
                rw [hlast] at h
                obtain ⟨whole, hchain, rfl⟩ := Option.map_eq_some_iff.mp h
                exact .chain_last (ih hbase) hlast (foreseeChain_sound ih hchain) (Nat.le_refl _)
      | fresh rule =>
          simp only [foresee, Rule.scan?] at h
          obtain ⟨⟨cs, c'⟩, hskipped, h⟩ := Option.bind_eq_some_iff.mp h
          obtain ⟨r?, hrule, rfl⟩ := Option.map_eq_some_iff.mp h
          have hpasses := knownTrivia_passes hgs.starts hskipped
          cases r? with
          | none => exact .fresh_none hpasses.comes (ih hrule)
          | some r => exact .fresh hpasses (ih hrule)
      | inside place rule => exact .inside (ih h)
      | outside place =>
          cases h
          refine runs_succ fun fuel _ => ?_
          simp only [Rule.run]
          split <;> rfl
      | semicolon =>
          refine .of_lineEnd fun fuel hfuel => knownEnd_sound (fun ch hch => ?_) hgs h hfuel
          exact isBlank_of_isLineEnd (isLineEnd_of_endsLine hch)
      | joined =>
          simp only [foresee, Rule.scan?] at h
          split at h
          · rename_i hplace
            subst hplace
            obtain ⟨ends?, hends, rfl⟩ := Option.map_eq_some_iff.mp h
            have hruns := @Runs.joined d depth _ _ fun fuel hfuel =>
              knownEnd_sound (fun _ hch => isBlank_of_isLineEnd (isLineEnd_of_endsLine hch)) hgs hends hfuel
            cases ends? with
            | none => exact hruns
            | some ends => exact hruns
          · rename_i hplace
            cases h
            exact runs_succ fun fuel _ => if_neg hplace

end Syntax

end ImportAssist
