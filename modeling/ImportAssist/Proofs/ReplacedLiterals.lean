import ImportAssist.Proofs.KnownFronts
import ImportAssist.Proofs.PlainTokens
import ImportAssist.Proofs.Preorder

/-!
# A literal replaced

A string literal of a source gets another text. If what stands in front of the literal is plain, the two
sources are read in lockstep (`Replacement.lockStep`): in front of the literal nothing looks past a quote,
and behind it the same glyphs are ahead. So the one source parses if the other one does, and their trees
differ in nothing but the offsets behind the literal (`Replacement.parse_eq`). Only the statement with the literal has
to be plain up to there: what stands in front of the statement may be anything that decides its own reading
(`ClearFront`).
-/

namespace ImportAssist

open Syntax
open Utf8 (glyphOf)

namespace Node

mutual

theorem relocate_relocate (f g : Nat → Nat) : ∀ n : Node, (n.relocate g).relocate f = n.relocate (f ∘ g)
  | .mk label role start stop children => by
      rw [relocate, relocate, relocate, relocateAll_relocateAll f g children]
      rfl

theorem relocateAll_relocateAll (f g : Nat → Nat) : ∀ ns : List Node,
    relocateAll f (relocateAll g ns) = relocateAll (f ∘ g) ns
  | [] => rfl
  | n :: ns => by
      rw [relocateAll, relocateAll, relocateAll, relocate_relocate f g n, relocateAll_relocateAll f g ns]

end

theorem mem_preorder_relocate {f : Nat → Nat} {m n : Node} (h : m ∈ n.preorder) :
    m.relocate f ∈ (n.relocate f).preorder := by
  rcases mem_preorder.mp h with rfl | ⟨c, hc, hm⟩
  · exact mem_preorder_self _
  · have hlt := size_lt_of_child hc
    refine mem_preorder.mpr (.inr ⟨c.relocate f, ?_, mem_preorder_relocate hm⟩)
    rw [relocate_children]
    exact List.mem_map_of_mem hc
termination_by n.size

section

variable {f : Nat → Nat} {bound : Nat}

mutual

/-- A tree up to a place where nothing moves stays where it is. -/
theorem relocate_placed (hf : ∀ x ≤ bound, f x = x) : ∀ {n : Node}, n.Placed (· ≤ bound) → n.relocate f = n
  | .mk label role start stop children, h => by
      rw [Placed] at h
      rw [relocate, hf start h.1, hf stop h.2.1, relocateAll_row hf h.2.2]

theorem relocateAll_row (hf : ∀ x ≤ bound, f x = x) : ∀ {ns : List Node} {lo hi : Nat},
    Row (· ≤ bound) lo hi ns → relocateAll f ns = ns
  | [], _, _, _ => rfl
  | n :: ns, _, _, h => by
      rw [row_cons] at h
      rw [relocateAll, relocate_placed hf h.2.1, relocateAll_row hf h.2.2]

end

theorem relocate_row {ok : Nat → Prop} {lo hi : Nat} {ns : List Node} (hf : ∀ x ≤ bound, f x = x)
    (h : Row ok lo hi ns) (hhi : hi ≤ bound) : ns.map (relocate f) = ns := by
  rw [← relocateAll_eq_map]
  exact relocateAll_row hf (h.below hhi)

end

end Node

/-- Nodes that stay where they are come in front. -/
theorem Syntax.Reading.Moved.prepend {f : Nat → Nat} {R : Cursor → Cursor → Prop} {reading reading' : Reading}
    {ns : List Node} (h : reading.Moved f R reading') (hns : ns.map (Node.relocate f) = ns) :
    Reading.Moved f R (ns ++ reading.1, reading.2) (ns ++ reading'.1, reading'.2) :=
  ⟨by rw [List.map_append, hns, h.1], h.2⟩

/-- A text in front of a literal, the literal and another text for it, and what follows. -/
structure Replacement where
  front : List Char
  quote : Char
  old : List Char
  new : List Char
  back : Bytes
  isQuote : quote = '\x27' ∨ quote = '"'
  quotable_old : Quotable quote old
  quotable_new : Quotable quote new

namespace Replacement

variable (r : Replacement)

def literal (text : List Char) : List Char := r.quote :: text ++ [r.quote]

/-- Where the literal starts. -/
def start : Nat := bytesOf r.front

/-- The source with one text or the other in the literal. -/
def source (text : List Char) : Bytes := Utf8.encode (String.ofList (r.front ++ r.literal text)) ++ r.back

/-- What follows the text in front. -/
def ahead (text : List Char) : List Glyph := (r.literal text).map glyphOf ++ Utf8.glyphs r.back

/-- Where an offset of the old source is found in the new one. -/
def moved (offset : Nat) : Nat :=
  if offset ≤ r.start then offset else offset - bytesOf (r.literal r.old) + bytesOf (r.literal r.new)

/-- Cursors at the same place, in front of the literal or behind it. -/
inductive Across : Cursor → Cursor → Prop
  | before {done gap : List Char} : r.front = done ++ gap → Plain gap →
      Across ⟨bytesOf done, gap.map glyphOf ++ r.ahead r.old⟩ ⟨bytesOf done, gap.map glyphOf ++ r.ahead r.new⟩
  | behind (k : Nat) (rest : List Glyph) :
      Across ⟨k + (r.start + bytesOf (r.literal r.old)), rest⟩
        ⟨k + (r.start + bytesOf (r.literal r.new)), rest⟩

/-! ## Offsets -/

theorem bytesOf_literal_pos (text : List Char) : 0 < bytesOf (r.literal text) := by
  have hquote : bytesOf [r.quote] = 1 := by
    rcases r.isQuote with h | h <;> rw [h] <;> rfl
  have hsplit : bytesOf (r.literal text) = bytesOf [r.quote] + bytesOf (text ++ [r.quote]) :=
    bytesOf_append [r.quote] (text ++ [r.quote])
  omega

theorem moved_front {x : Nat} (h : x ≤ r.start) : r.moved x = x := if_pos h

theorem moved_behind (k : Nat) :
    r.moved (k + (r.start + bytesOf (r.literal r.old))) = k + (r.start + bytesOf (r.literal r.new)) := by
  have hpos := r.bytesOf_literal_pos r.old
  rw [moved, if_neg (by omega)]
  omega

variable {r} {c c' : Cursor}

theorem Across.offset (h : r.Across c c') : c'.offset = r.moved c.offset := by
  cases h with
  | @before done gap hfront =>
      refine (r.moved_front ?_).symm
      rw [start, hfront, bytesOf_append]
      exact Nat.le_add_right _ _
  | behind k => exact (r.moved_behind k).symm

theorem Across.order {e e' : Cursor} (h : r.Across c c') (he : r.Across e e') :
    e.offset ≤ c.offset ↔ e'.offset ≤ c'.offset := by
  have hpos := r.bytesOf_literal_pos r.old
  have hpos' := r.bytesOf_literal_pos r.new
  have hfront {done gap : List Char} (hsplit : r.front = done ++ gap) : bytesOf done ≤ r.start := by
    rw [start, hsplit, bytesOf_append]
    exact Nat.le_add_right _ _
  cases h with
  | before hsplit =>
      have hle := hfront hsplit
      cases he with
      | before => exact Iff.rfl
      | behind k => dsimp only; omega
  | behind k =>
      cases he with
      | before hsplit =>
          have hle := hfront hsplit
          dsimp only
          omega
      | behind l => dsimp only; omega

theorem startsWith_ahead (text : List Char) : StartsWith r.quote (r.ahead text) :=
  ⟨(text ++ [r.quote]).map glyphOf ++ Utf8.glyphs r.back, rfl⟩

theorem Across.finished (h : r.Across c c') : c.rest.isEmpty = c'.rest.isEmpty := by
  cases h with
  | @before done gap =>
      cases gap with
      | nil => rfl
      | cons => rfl
  | behind => rfl

/-- What is read behind the literal moves on. -/
theorem moved_shift (reading : Reading) :
    Reading.Moved r.moved r.Across (reading.shift (r.start + bytesOf (r.literal r.old)))
      (reading.shift (r.start + bytesOf (r.literal r.new))) := by
  refine ⟨?_, .behind reading.2.offset reading.2.rest⟩
  rw [Reading.shift, Reading.shift, List.map_map]
  refine List.map_congr_left fun n _ => ?_
  rw [Function.comp_apply, Node.shift, Node.shift, Node.relocate_relocate]
  refine congrArg (n.relocate ·) (funext fun x => ?_)
  rw [Function.comp_apply, r.moved_behind]

/-- What is read in front of the literal stays where it is. -/
theorem moved_before {ns : List Node} {done gap : List Char} {gs : List Glyph} (hfront : r.front = done ++ gap)
    (hreads : Syntax.Reads (fun _ => True) c (ns, ⟨bytesOf done, gs⟩)) : ns.map (Node.relocate r.moved) = ns := by
  refine Node.relocate_row (fun x hx => r.moved_front hx) hreads.2 ?_
  rw [start, hfront, bytesOf_append]
  exact Nat.le_add_right _ _

/-! ## In front of the literal -/

section

variable {done gap blank : List Char}

theorem before_append {token : List Char} (hfront : r.front = done ++ (token ++ gap)) (hplain : Plain gap) :
    r.Across ⟨bytesOf done + bytesOf token, gap.map glyphOf ++ r.ahead r.old⟩
      ⟨bytesOf done + bytesOf token, gap.map glyphOf ++ r.ahead r.new⟩ := by
  rw [← bytesOf_append]
  exact .before (by rw [hfront, List.append_assoc]) hplain

theorem trivia_before {text token : List Char} (hblank : Gap blank) (hat : AtToken token) (fuel : Nat)
    (hfuel : blank.length ≤ fuel) (offset : Nat) :
    trivia fuel ⟨offset, (blank ++ token).map glyphOf ++ r.ahead text⟩ =
      (commentsOf offset blank, ⟨offset + bytesOf blank, token.map glyphOf ++ r.ahead text⟩) := by
  rw [List.map_append, List.append_assoc]
  exact hblank.passable (hat.starts r.isQuote (startsWith_ahead text)) hfuel

theorem Across.skip (h : r.Across c c') :
    Reading.Moved r.moved r.Across (trivia c.rest.length c) (trivia c'.rest.length c') := by
  cases h with
  | @before done gap hfront hplain =>
      obtain ⟨blank, token, rfl, hblank, htoken, hat⟩ := hplain.skip
      have hlength (text : List Char) :
          blank.length ≤ ((blank ++ token).map glyphOf ++ r.ahead text).length := by
        simp
      have hreads := @trivia_reads (fun _ => True) blank.length
        ⟨bytesOf done, (blank ++ token).map glyphOf ++ r.ahead r.old⟩ fun _ => trivial
      rw [trivia_before hblank hat _ (Nat.le_refl _), ← bytesOf_append] at hreads
      rw [trivia_before hblank hat _ (hlength r.old), trivia_before hblank hat _ (hlength r.new)]
      have hsplit : r.front = (done ++ blank) ++ token := by rw [hfront, List.append_assoc]
      exact ⟨(moved_before hsplit hreads).symm, before_append hfront htoken⟩
  | behind k rest =>
      have hold := trivia_shift (k := r.start + bytesOf (r.literal r.old)) rest.length ⟨k, rest⟩
      have hnew := trivia_shift (k := r.start + bytesOf (r.literal r.new)) rest.length ⟨k, rest⟩
      rw [Cursor.shift] at hold hnew
      rw [hold, hnew]
      exact moved_shift _

theorem Across.skip_front (h : r.Across c c') (hfront : c.offset < r.start + 1) :
    (trivia c.rest.length c).2.offset < r.start + 1 := by
  cases h with
  | @before done gap hsplit hplain =>
      obtain ⟨blank, token, rfl, hblank, -, hat⟩ := hplain.skip
      rw [trivia_before hblank hat _ (by simp)]
      dsimp only
      rw [start, hsplit, bytesOf_append, bytesOf_append]
      omega
  | behind k rest =>
      have hpos := r.bytesOf_literal_pos r.old
      dsimp only at hfront
      omega

theorem Across.ends {endsLine : Char → Bool} (hends : ∀ ch, endsLine ch = true → Lexeme.isLineEnd ch = true)
    (h : r.Across c c') :
    Agree r.moved r.Across (lineEnd endsLine (c.rest.length + 1) c) (lineEnd endsLine (c'.rest.length + 1) c') := by
  cases h with
  | @before done gap hfront hplain =>
      -- The fuel differs, but there is one that is enough for both.
      obtain ⟨fuel, hold, hnew⟩ : ∃ fuel, (gap.map glyphOf ++ r.ahead r.old).length < fuel ∧
          (gap.map glyphOf ++ r.ahead r.new).length < fuel :=
        ⟨_, Nat.lt_succ_of_le (Nat.le_max_left _ _), Nat.lt_succ_of_le (Nat.le_max_right _ _)⟩
      have hgap : gap.length < fuel := by
        rw [List.length_append, List.length_map] at hold
        omega
      rw [lineEnd_agree endsLine (Nat.lt_succ_self _) hold, lineEnd_agree endsLine (Nat.lt_succ_self _) hnew]
      rcases hplain.ending r.isQuote hends hgap with hnone | ⟨token, more, comments, rfl, hmore, heq⟩
      · rw [hnone (startsWith_ahead _), hnone (startsWith_ahead _)]
        exact .none
      · have hsome := heq (startsWith_ahead r.old) (bytesOf done)
        have hreads := @lineEnd_reads (fun _ => True) endsLine fuel _ _ (fun _ => trivial) hsome
        have hsplit : r.front = (done ++ token) ++ more := by rw [hfront, List.append_assoc]
        rw [hsome, heq (startsWith_ahead r.new)]
        rw [← bytesOf_append] at hreads
        exact .some ⟨(moved_before hsplit hreads).symm, before_append hfront hmore⟩
  | behind k rest =>
      have hold := lineEnd_shift (k := r.start + bytesOf (r.literal r.old)) endsLine (rest.length + 1) ⟨k, rest⟩
      have hnew := lineEnd_shift (k := r.start + bytesOf (r.literal r.new)) endsLine (rest.length + 1) ⟨k, rest⟩
      rw [Cursor.shift] at hold hnew
      rw [hold, hnew]
      cases lineEnd endsLine (rest.length + 1) ⟨k, rest⟩ with
      | none => exact .none
      | some reading => exact .some (moved_shift reading)

/-- Where nothing is skipped in front of the literal, a token starts. -/
theorem atToken_of_settled {text : List Char} (hplain : Plain gap)
    (h : (Cursor.mk (bytesOf done) (gap.map glyphOf ++ r.ahead text)).Settled) : AtToken gap := by
  obtain ⟨blank, token, rfl, hblank, -, hat⟩ := hplain.skip
  have hskip := @trivia_before r _ text token hblank hat blank.length (Nat.le_refl _) (bytesOf done)
  rw [h blank.length] at hskip
  have hlength := congrArg (fun reading : Reading => reading.2.rest.length) hskip
  have hnil : blank = [] := by simpa using hlength
  rwa [hnil]

/-- Past the literal. -/
theorem advance_across {text : List Char} (hfront : r.front = done ++ gap) (n : Nat) :
    (Cursor.mk (bytesOf done) (gap.map glyphOf ++ r.ahead text)).advance (n + (gap.length + (text.length + 2))) =
      ⟨Utf8.width ((Utf8.glyphs r.back).take n) + (r.start + bytesOf (r.literal text)),
        (Utf8.glyphs r.back).drop n⟩ := by
  have hlength : gap.length + (text.length + 2) = (gap ++ r.literal text).length := by simp [literal]
  have hahead : gap.map glyphOf ++ r.ahead text = (gap ++ r.literal text).map glyphOf ++ Utf8.glyphs r.back := by
    rw [ahead, List.map_append, List.append_assoc]
  rw [Nat.add_comm n, ← Cursor.advance_advance, hlength, hahead, advance_glyphs, Cursor.advance_eq, start, hfront,
    bytesOf_append, bytesOf_append, ← Nat.add_assoc, Nat.add_comm]

theorem Across.token {σ : Type} {rule : Rule σ} {scan : List Glyph → Option Nat} (h : r.Across c c')
    (hscan : rule.scan? = some scan) (hsettled : rule.isRaw = false → c.Settled)
    (htame : c.offset < r.start + 1 → rule.isTame = true) :
    Option.Rel (fun n n' => r.Across (c.advance n) (c'.advance n')) (scan c.rest) (scan c'.rest) := by
  cases h with
  | @before done gap hfront hplain =>
      have htame : rule.isTame = true := htame (by
        dsimp only
        rw [start, hfront, bytesOf_append]
        omega)
      have hraw : rule.isRaw = false := by
        cases rule with
        | lexeme kind raw literal =>
            rw [Rule.isTame, Bool.and_eq_true, Bool.not_eq_true'] at htame
            exact htame.1
        | _ => rfl
      have hat := atToken_of_settled hplain (hsettled hraw)
      rcases hplain.tameToken hat r.isQuote hscan htame with
        (⟨token, more, rfl, hmore, heq⟩ | hnone) | ⟨onward, heq⟩
      · rw [heq (startsWith_ahead r.old), heq (startsWith_ahead r.new)]
        refine .some ?_
        rw [List.map_append, List.append_assoc, List.append_assoc, advance_glyphs, advance_glyphs]
        exact before_append hfront hmore
      · rw [hnone (startsWith_ahead r.old), hnone (startsWith_ahead r.new)]
        exact .none
      · rw [ahead, ahead, literal, literal, heq r.quotable_old, heq r.quotable_new]
        cases onward (Utf8.glyphs r.back) with
        | none => exact .none
        | some n =>
            refine .some ?_
            have hold := @advance_across r done gap r.old hfront n
            have hnew := @advance_across r done gap r.new hfront n
            rw [ahead, literal] at hold hnew
            rw [hold, hnew]
            exact .behind _ _
  | behind k rest =>
      dsimp only
      cases scan rest with
      | none => exact .none
      | some n =>
          have hadvance (x : Nat) : (Cursor.mk (k + x) rest).advance n =
              ⟨k + Utf8.width (rest.take n) + x, rest.drop n⟩ := by
            rw [Cursor.advance_eq, Nat.add_right_comm]
          refine .some ?_
          rw [hadvance, hadvance]
          exact .behind _ _

theorem Across.opening {σ : Type} {rule : Rule σ} {scan : List Glyph → Option Nat} (h : r.Across c c')
    (hfront : c.offset < r.start + 1) (hopening : rule.isOpening = true) (hscan : rule.scan? = some scan) :
    scan c.rest = none := by
  cases h with
  | before hsplit hplain => exact hplain.opening r.isQuote hopening hscan (startsWith_ahead r.old)
  | behind k rest =>
      have hpos := r.bytesOf_literal_pos r.old
      dsimp only at hfront
      omega

end

/-! ## The two sources -/

/-- The two sources are read in lockstep. -/
theorem lockStep (r : Replacement) (d : Dialect) : LockStep Symbol d.endsLine r.moved (r.start + 1) r.Across where
  order := Across.order
  offset := Across.offset
  finished := Across.finished
  skip := Across.skip
  skip_front := Across.skip_front
  ends := Across.ends fun _ => isLineEnd_of_endsLine
  token := Across.token
  opening h hfront _ hopening hscan := h.opening hfront hopening hscan

end Replacement

/-- A plain text that a script may start with, behind an interpreter line if there is one. -/
inductive PlainFront : List Char → Prop
  | script {gap : List Char} : Plain gap → ¬['#', '!'] <+: gap → PlainFront gap
  | interpreter {line gap : List Char} {ch : Char} : (∀ x ∈ line, x ≠ '\n' ∧ x ≠ '\r') →
      ch = '\n' ∨ ch = '\r' → Plain (ch :: gap) → PlainFront ('#' :: '!' :: line ++ ch :: gap)

namespace Replacement

variable {r : Replacement}

theorem start_source (text : List Char) :
    Cursor.start (r.source text) = ⟨0, r.front.map glyphOf ++ r.ahead text⟩ := by
  rw [Cursor.start, source, Utf8.glyphs_encode, String.toList_ofList, List.map_append, List.append_assoc, ahead]

theorem hashBang_line {line : List Char} {ch : Char} {gs : List Glyph}
    (hline : ∀ x ∈ line, x ≠ '\n' ∧ x ≠ '\r') (hch : ch = '\n' ∨ ch = '\r') :
    Lexeme.hashBang (('#' :: '!' :: line).map glyphOf ++ glyphOf ch :: gs) = some (line.length + 2) := by
  have hbody : (line.map glyphOf ++ glyphOf ch :: gs).takeWhile (fun g => g.char != '\n' && g.char != '\r') =
      line.map glyphOf := by
    rw [List.takeWhile_append_of_pos (by simpa [glyphOf] using hline), List.takeWhile_cons_of_neg (by
      rcases hch with rfl | rfl <;> simp [glyphOf]), List.append_nil]
  rw [Lexeme.hashBang, if_pos (by rfl), List.map_cons, List.map_cons, List.cons_append, List.cons_append,
    List.takeWhile_cons_of_pos (by rfl), List.takeWhile_cons_of_pos (by rfl), hbody]
  simp

/-- The interpreter line is the same. -/
theorem readHashBang_moved (h : PlainFront r.front) :
    Reading.Moved r.moved r.Across (readHashBang (Cursor.start (r.source r.old)))
      (readHashBang (Cursor.start (r.source r.new))) := by
  rw [start_source, start_source]
  generalize hfront : r.front = front at h
  cases h with
  | @script gap hplain hmark =>
      have hnone (text : List Char) : Lexeme.hashBang (front.map glyphOf ++ r.ahead text) = none := by
        rcases @Plain.literal _ r.isQuote "#!".toList front (by decide) hplain with ⟨more, rfl, -⟩ | hnot
        · exact absurd (List.prefix_append _ _) hmark
        · exact if_neg (by rw [hnot (startsWith_ahead text)]; exact Bool.false_ne_true)
      rw [readHashBang, readHashBang, hnone, hnone]
      exact ⟨rfl, @Across.before r [] front hfront hplain⟩
  | @interpreter line gap ch hline hch hplain =>
      have hread (text : List Char) :
          readHashBang ⟨0, ('#' :: '!' :: line ++ ch :: gap).map glyphOf ++ r.ahead text⟩ =
            ([Node.leaf .hashBang 0 (bytesOf ('#' :: '!' :: line))],
              ⟨bytesOf ('#' :: '!' :: line), (ch :: gap).map glyphOf ++ r.ahead text⟩) := by
        have hbang := @hashBang_line line ch (gap.map glyphOf ++ r.ahead text) hline hch
        have hadvance := @advance_glyphs ('#' :: '!' :: line) ((ch :: gap).map glyphOf ++ r.ahead text) 0
        rw [Nat.zero_add] at hadvance
        rw [← List.cons_append, ← List.map_cons] at hbang
        rw [List.map_append, List.append_assoc, readHashBang, hbang]
        exact congrArg (fun after : Cursor => ([Node.leaf .hashBang 0 after.offset], after)) hadvance
      have hle : bytesOf ('#' :: '!' :: line) ≤ r.start := by
        rw [start, hfront, bytesOf_append]
        exact Nat.le_add_right _ _
      rw [hread, hread]
      refine ⟨?_, .before hfront hplain⟩
      rw [List.map_singleton, Node.leaf, Node.relocate_mk, r.moved_front (Nat.zero_le _), r.moved_front hle]
      rfl

theorem length_source (r : Replacement) (text : List Char) :
    (r.source text).length = r.start + bytesOf (r.literal text) + r.back.length := by
  rw [source, List.length_append, start, ← bytesOf_append]
  rfl

/-- Bodies that are read in lockstep make trees that differ in their offsets only. -/
theorem parseAs_moved {d : Dialect}
    (hbang : (readHashBang (Cursor.start (r.source r.new))).1 =
      (readHashBang (Cursor.start (r.source r.old))).1.map (Node.relocate r.moved))
    (hbody : Reading.Moved r.moved r.Across (readBody d (readHashBang (Cursor.start (r.source r.old))).2)
      (readBody d (readHashBang (Cursor.start (r.source r.new))).2)) :
    parseAs d (r.source r.new) = (parseAs d (r.source r.old)).map (Node.relocate r.moved) := by
  have hstop : r.moved (r.source r.old).length = (r.source r.new).length := by
    have hmoved := r.moved_behind r.back.length
    rwa [length_source, length_source, Nat.add_comm, Nat.add_comm _ r.back.length]
  simp only [parseAs]
  rw [← hbody.2.finished]
  split
  · rw [Option.map_some, Node.relocate_mk, r.moved_front (Nat.zero_le _), hstop, hbang, hbody.1, List.map_append]
  · rfl

end Replacement

/-- A text in front of a literal that is read alike whatever the literal says: a plain text, or a text that decides
its own reading and behind it the word of a statement and more of a plain text. -/
inductive ClearFront (d : Dialect) : List Char → Prop
  | plain {front : List Char} : PlainFront front → ClearFront d front
  | behind {lead more : List Char} {word : String} : (readFront d [word] lead).isSome = true → IsOpener word →
      Plain (word.toList ++ more) → (∀ ch ∈ more.head?, Lexeme.isWordGlyph (glyphOf ch) = false ∧ ch ≠ '\\') →
      ClearFront d (lead ++ (word.toList ++ more))

namespace Replacement

variable {r : Replacement} {d : Dialect} {lead more : List Char} {word : String}

/-- The word in front of the literal opens the statement whatever the literal says. -/
theorem opens_ahead (hword : IsOpener word)
    (hmore : ∀ ch ∈ more.head?, Lexeme.isWordGlyph (glyphOf ch) = false ∧ ch ≠ '\\') (text : List Char) :
    Opens [word] ((word.toList ++ more).map glyphOf ++ r.ahead text) := by
  rw [List.map_append, List.append_assoc]
  refine hword.opens (List.mem_singleton_self _) ?_
  cases more with
  | nil =>
      have hquote : Lexeme.isWordGlyph (glyphOf r.quote) = false ∧ r.quote ≠ '\\' := by
        rcases r.isQuote with h | h <;> rw [h] <;> decide
      exact @endsWord_cons (text ++ [r.quote]) (Utf8.glyphs r.back) r.quote hquote.1 hquote.2
  | cons ch more =>
      obtain ⟨hglyph, hescape⟩ := hmore ch rfl
      exact endsWord_cons hglyph hescape

/-- Behind a text that decides its own reading. -/
theorem parseAs_behind (hfront : r.front = lead ++ (word.toList ++ more))
    (hlead : (readFront d [word] lead).isSome = true) (hword : IsOpener word) (hplain : Plain (word.toList ++ more))
    (hmore : ∀ ch ∈ more.head?, Lexeme.isWordGlyph (glyphOf ch) = false ∧ ch ≠ '\\') :
    parseAs d (r.source r.new) = (parseAs d (r.source r.old)).map (Node.relocate r.moved) := by
  have hstart (text : List Char) : Cursor.start (r.source text) =
      ⟨0, lead.map glyphOf ++ ((word.toList ++ more).map glyphOf ++ r.ahead text)⟩ := by
    rw [start_source, hfront, List.map_append, List.append_assoc]
  have hopens := opens_ahead (r := r) hword hmore
  obtain ⟨ns?, hread⟩ := Option.isSome_iff_exists.mp hlead
  cases ns? with
  | none =>
      rw [readFront_refused (hopens r.new) (hstart r.new) hread, readFront_refused (hopens r.old) (hstart r.old) hread]
      rfl
  | some ns =>
      have hbang (text : List Char) : (readHashBang (Cursor.start (r.source text))).1 =
          (readHashBang ⟨0, lead.map glyphOf⟩).1 := by
        rw [hstart, (readFront_start (hopens text) hread).1]
        rfl
      have hbody (text : List Char) := readFront_body (hopens text) hread
      have hlock := readBody_lockstep (r.lockStep d) (.before hfront hplain)
      -- what stands in front of the statement stays where it is
      obtain ⟨ms, before, hsteps, hplace, hns⟩ := readFront_steps (hopens r.old) hread
      rw [← hstart] at hsteps
      have hreads := ((readHashBang_reads fun _ => trivial).append hsteps.reads).append
        (trivia_reads before.rest.length fun _ => trivial)
      dsimp only at hreads
      rw [hplace, List.append_assoc, ← hns] at hreads
      have hkept := moved_before hfront hreads
      rw [List.map_append] at hkept
      obtain ⟨hkeptBang, hkeptBody⟩ := List.append_inj hkept (List.length_map _)
      refine parseAs_moved ?_ ?_
      · rw [hkeptBang, hbang, hbang]
      · rw [hstart, hstart, hbody, hbody]
        exact hlock.prepend hkeptBody

theorem parseAs_eq (h : ClearFront d r.front) :
    parseAs d (r.source r.new) = (parseAs d (r.source r.old)).map (Node.relocate r.moved) := by
  generalize hfront : r.front = front at h
  cases h with
  | plain hplain =>
      have hbang := readHashBang_moved (hfront ▸ hplain)
      exact parseAs_moved hbang.1 (readBody_lockstep (r.lockStep d) hbang.2)
  | behind hlead hword hplain hmore => exact parseAs_behind hfront hlead hword hplain hmore

/-- The new source parses if and only if the old one does, and its tree is that of the old one, moved. -/
theorem parse_eq {language : String} (h : ∀ dialect ∈ Dialect.forLanguage language, ClearFront dialect r.front) :
    parse (r.source r.new) language = (parse (r.source r.old) language).map (Node.relocate r.moved) := by
  unfold parse
  generalize Dialect.forLanguage language = dialects at h ⊢
  induction dialects with
  | nil => rfl
  | cons dialect others ih =>
      rw [List.findSome?_cons, List.findSome?_cons, parseAs_eq (h dialect (List.mem_cons_self ..))]
      cases parseAs dialect (r.source r.old) with
      | none => exact ih fun other hother => h other (List.mem_cons_of_mem _ hother)
      | some tree => rfl

end Replacement

end ImportAssist
