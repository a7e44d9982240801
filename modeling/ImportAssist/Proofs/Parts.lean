import ImportAssist.Proofs.Outline

/-!
# Texts with gaps

Between two tokens a gap may stand, of white space and comments. A part is a text with the nodes that it
is read as: parts are put together as rules are, so that what a rule reads of a text is found from the
parts of the text (`Reads`).
-/

namespace ImportAssist

namespace Syntax

open Grammar (Production)
open Utf8 (glyphOf)

/-! ## Gaps -/

/-- A character that ends a line is white space. -/
theorem isBlank_of_isLineEnd {ch : Char} (h : Lexeme.isLineEnd ch = true) : Lexeme.isBlank ch = true := by
  simp only [Lexeme.isLineEnd, Bool.or_eq_true, decide_eq_true_eq] at h
  rcases h with ((rfl | rfl) | rfl) | rfl <;> rfl

theorem isLineEnd_of_endsLine {d : Dialect} {ch : Char} (h : d.endsLine ch = true) : Lexeme.isLineEnd ch = true := by
  cases d <;> simp only [Dialect.endsLine, Lexeme.isLineEnd] at h ⊢ <;> grind

/-- White space and comments. -/
inductive Gap : List Char → Prop where
  | nil : Gap []
  | blank {ch : Char} {more : List Char} : Lexeme.isBlank ch = true → Gap more → Gap (ch :: more)
  /-- The rest of a line is a comment; the line break follows. -/
  | line {text more : List Char} {ch : Char} : (∀ x ∈ text, Lexeme.isLineEnd x = false) →
      Lexeme.isLineEnd ch = true → Gap (ch :: more) → Gap ('/' :: '/' :: text ++ ch :: more)
  | block {text more : List Char} :
      Lexeme.toBlockEnd ((text ++ ['*', '/']).map glyphOf) = some (text.length + 2) → Gap more →
      Gap ('/' :: '*' :: text ++ '*' :: '/' :: more)

/-- The comments in a gap. -/
def commentsOf (offset : Nat) (gap : List Char) : List Node :=
  (trivia gap.length ⟨offset, gap.map glyphOf⟩).1

/-- Glyphs in front of which there is nothing to skip. -/
def Starts (gs : List Glyph) : Prop := ∀ offset, (Cursor.mk offset gs).Settled

variable {gap text chars : List Char} {gs : List Glyph} {offset k : Nat} {ch : Char}

theorem advance_glyphs : (Cursor.mk offset (chars.map glyphOf ++ gs)).advance chars.length =
    ⟨offset + bytesOf chars, gs⟩ := by
  rw [Cursor.advance_eq]
  simp only [Cursor.mk.injEq]
  rw [List.take_left' (by simp), List.drop_left' (by simp), Utf8.width_map_glyphOf]
  exact ⟨rfl, rfl⟩

theorem advance_text (text : List Char) (offset n : Nat) : (Cursor.mk offset (text.map glyphOf)).advance n =
    ⟨offset + bytesOf (text.take n), (text.drop n).map glyphOf⟩ := by
  rw [Cursor.advance_eq]
  simp only [← List.map_take, ← List.map_drop, Utf8.width_map_glyphOf]
  rfl

theorem restOfLine_append (h : ∀ x ∈ text, Lexeme.isLineEnd x = false)
    (hch : Lexeme.isLineEnd ch = true) :
    Lexeme.restOfLine (text.map glyphOf ++ glyphOf ch :: gs) = text.length := by
  induction text with
  | nil => simp [Lexeme.restOfLine, glyphOf, hch]
  | cons x text ih =>
      have hx : Lexeme.isLineEnd x = false := h x (List.mem_cons_self ..)
      rw [List.map_cons, List.cons_append, Lexeme.restOfLine,
        ih fun y hy => h y (List.mem_cons_of_mem _ hy)]
      simp [glyphOf, hx]

theorem toBlockEnd_append : ∀ {gs : List Glyph} {n : Nat} (more : List Glyph),
    Lexeme.toBlockEnd gs = some n → Lexeme.toBlockEnd (gs ++ more) = some n
  | [], n, more, h => by cases h
  | g :: gs, n, more, h => by
      rw [List.cons_append]
      rw [Lexeme.toBlockEnd] at h ⊢
      cases gs with
      | nil =>
          have hnone : Lexeme.nextIn ['/'] [] = false := rfl
          rw [hnone, Bool.and_false, if_neg Bool.false_ne_true] at h
          cases h
      | cons g' gs =>
          have hnext : Lexeme.nextIn ['/'] (g' :: gs ++ more) = Lexeme.nextIn ['/'] (g' :: gs) := rfl
          rw [hnext]
          split at h
          · rename_i hend
            rw [if_pos hend, h]
          · rename_i hend
            rw [if_neg hend]
            rw [Option.map_eq_some_iff] at h ⊢
            obtain ⟨m, hm, rfl⟩ := h
            exact ⟨m, toBlockEnd_append more hm, rfl⟩

/-- One more blank or comment in front. -/
theorem trivia_blank {fuel : Nat} (h : Lexeme.isBlank ch = true) :
    trivia (fuel + 1) ⟨offset, glyphOf ch :: gs⟩ = trivia fuel ⟨offset + bytesOf [ch], gs⟩ := by
  have hadvance : (Cursor.mk offset (glyphOf ch :: gs)).advance 1 = ⟨offset + bytesOf [ch], gs⟩ :=
    @advance_glyphs [ch] gs offset
  rw [trivia]
  simp only [glyphOf, h, Bool.and_self, if_true]
  exact congrArg (trivia fuel) hadvance

theorem trivia_comment {fuel : Nat} {comment : List Char} (hslash : comment.head? = some '/')
    (h : Lexeme.comment (comment.map glyphOf ++ gs) = some comment.length) :
    trivia (fuel + 1) ⟨offset, comment.map glyphOf ++ gs⟩ =
      (Node.leaf .comment offset (offset + bytesOf comment) ::
          (trivia fuel ⟨offset + bytesOf comment, gs⟩).1,
        (trivia fuel ⟨offset + bytesOf comment, gs⟩).2) := by
  obtain ⟨more, rfl⟩ : ∃ more, comment = '/' :: more := by
    cases comment with
    | nil => cases hslash
    | cons ch more =>
        cases hslash
        exact ⟨more, rfl⟩
  have hblank : ((glyphOf '/').valid && Lexeme.isBlank (glyphOf '/').char) = false := rfl
  have hadvance := @advance_glyphs ('/' :: more) gs offset
  rw [trivia]
  simp only [List.map_cons, List.cons_append] at h hadvance ⊢
  simp only [hblank, Bool.false_eq_true, if_false, h, hadvance]

/-- A gap is passed, and its comments are kept. -/
def Passable (gap : List Char) : Prop := ∀ {gs : List Glyph} {offset fuel : Nat}, Starts gs →
  gap.length ≤ fuel → trivia fuel ⟨offset, gap.map glyphOf ++ gs⟩ =
    (commentsOf offset gap, ⟨offset + bytesOf gap, gs⟩)

theorem starts_nil : Starts [] := fun offset => settled_nil offset

theorem Passable.comment {comment more : List Char} (hslash : comment.head? = some '/')
    (hcomment : ∀ gs, Lexeme.comment (comment.map glyphOf ++ (more.map glyphOf ++ gs)) =
      some comment.length) (ih : Passable more) : Passable (comment ++ more) := by
  intro gs offset fuel hstarts hfuel
  have hpos : 0 < comment.length := by
    cases comment with
    | nil => cases hslash
    | cons => simp
  rw [List.length_append] at hfuel
  have hcomments : commentsOf offset (comment ++ more) =
      Node.leaf .comment offset (offset + bytesOf comment) ::
        commentsOf (offset + bytesOf comment) more := by
    obtain ⟨n, hn⟩ : ∃ n, (comment ++ more).length = n + 1 :=
      ⟨comment.length + more.length - 1, by rw [List.length_append]; omega⟩
    have hmore : more.length ≤ n := by
      rw [List.length_append] at hn
      omega
    have hnone := hcomment []
    have hpasses := @ih [] (offset + bytesOf comment) n starts_nil hmore
    rw [List.append_nil] at hnone hpasses
    rw [commentsOf, hn, List.map_append, trivia_comment hslash hnone, hpasses]
  obtain ⟨n, rfl⟩ : ∃ n, fuel = n + 1 := ⟨fuel - 1, by omega⟩
  rw [List.map_append, List.append_assoc, trivia_comment hslash (hcomment gs),
    ih hstarts (by omega), hcomments, bytesOf_append, Nat.add_assoc]

theorem Gap.passable (h : Gap gap) : Passable gap := by
  induction h with
  | nil =>
      intro gs offset fuel hstarts _
      exact hstarts offset fuel
  | @blank ch more hblank _ ih =>
      intro gs offset fuel hstarts hfuel
      obtain ⟨fuel, rfl⟩ : ∃ n, fuel = n + 1 := ⟨fuel - 1, by simp at hfuel; omega⟩
      have hcomments : commentsOf offset (ch :: more) = commentsOf (offset + bytesOf [ch]) more := by
        rw [commentsOf, List.length_cons, List.map_cons, trivia_blank hblank]
        rfl
      have hbytes : bytesOf (ch :: more) = bytesOf [ch] + bytesOf more := bytesOf_append [ch] more
      rw [List.map_cons, List.cons_append, trivia_blank hblank,
        ih hstarts (by simpa using hfuel), hcomments, hbytes, Nat.add_assoc]
  | @line text more ch htext hch _ ih =>
      refine @Passable.comment ('/' :: '/' :: text) (ch :: more) rfl (fun gs => ?_) ih
      have hrest := @restOfLine_append text (more.map glyphOf ++ gs) ch htext hch
      change some (Lexeme.restOfLine (text.map glyphOf ++ glyphOf ch :: (more.map glyphOf ++ gs)) + 2) = _
      rw [hrest]
      rfl
  | @block text more htext _ ih =>
      have hsplit : '/' :: '*' :: text ++ '*' :: '/' :: more =
          ('/' :: '*' :: (text ++ ['*', '/'])) ++ more := by simp
      rw [hsplit]
      refine @Passable.comment _ more rfl (fun gs => ?_) ih
      have hrest := toBlockEnd_append (more.map glyphOf ++ gs) htext
      change (Lexeme.toBlockEnd ((text ++ ['*', '/']).map glyphOf ++ (more.map glyphOf ++ gs))).map
        (· + 2) = _
      rw [hrest]
      simp

/-! ## Starts of tokens -/

theorem starts_cons (hblank : Lexeme.isBlank ch = false) (hslash : ch ≠ '/') :
    Starts (glyphOf ch :: gs) := by
  intro offset
  refine settled_cons (by simp [glyphOf, hblank]) ?_
  unfold Lexeme.comment
  split
  · rename_i a b more hcons
    obtain rfl : glyphOf ch = a := by simpa using congrArg List.head? hcons
    simp [glyphOf, hslash]
  · rfl

theorem IsWord.starts {word : List Char} (h : IsWord word) : Starts (word.map glyphOf ++ gs) := by
  obtain ⟨ch, more, rfl, -⟩ := h.start
  exact starts_cons h.head_not_blank (h.head_ne rfl)

/-- A gap that is not empty ends a word. -/
theorem Gap.endsWord (h : Gap gap) (hnext : gap = [] → EndsWord gs) :
    EndsWord (gap.map glyphOf ++ gs) := by
  cases h with
  | nil => exact hnext rfl
  | @blank ch more hblank _ =>
      refine endsWord_cons ?_ ?_
      · simp [Lexeme.isWordGlyph, glyphOf, hblank]
      · rintro rfl
        cases hblank
  | line => exact @endsWord_cons _ _ '/' rfl (by decide)
  | block => exact @endsWord_cons _ _ '/' rfl (by decide)

/-! ## Parts -/

/-- A text and the nodes that it is read as, from the offset where it starts. -/
structure Part where
  chars : List Char
  nodes : Nat → List Node

namespace Part

def nil : Part := ⟨[], fun _ => []⟩

def append (a b : Part) : Part :=
  ⟨a.chars ++ b.chars, fun offset => a.nodes offset ++ b.nodes (offset + bytesOf a.chars)⟩

instance : Append Part := ⟨append⟩

/-- A gap and a token. -/
def token (gap chars : List Char) (make : Nat → Nat → Node) : Part :=
  ⟨gap ++ chars, fun offset => commentsOf offset gap ++
    [make (offset + bytesOf gap) (offset + bytesOf gap + bytesOf chars)]⟩

/-- A gap and what makes one node. -/
def node (kind : Kind) (gap : List Char) (inner : Part) : Part :=
  ⟨gap ++ inner.chars, fun offset => commentsOf offset gap ++
    [.mk (.kind kind) none (offset + bytesOf gap) (offset + bytesOf gap + bytesOf inner.chars)
      (inner.nodes (offset + bytesOf gap))]⟩

def withRole (role : Role) (a : Part) : Part :=
  ⟨a.chars, fun offset => assignRole role (a.nodes offset)⟩

variable {d : Dialect} {p : Place} {l : Nat} {rule : Production} {rules : List Production}
  {a b inner : Part}

/-- A rule reads a part in front of some glyphs, and nothing else. -/
def ReadBy (d : Dialect) (p : Place) (k : Nat) (rule : Production) (a : Part) (gs : List Glyph) : Prop :=
  ∀ offset, Runs d p k rule ⟨offset, a.chars.map glyphOf ++ gs⟩
    (some (a.nodes offset, ⟨offset + bytesOf a.chars, gs⟩))

def ReadByAll (d : Dialect) (p : Place) (k : Nat) (rules : List Production) (a : Part)
    (gs : List Glyph) : Prop :=
  ∀ offset, RunsAll d p k rules ⟨offset, a.chars.map glyphOf ++ gs⟩
    (some (a.nodes offset, ⟨offset + bytesOf a.chars, gs⟩))

end Part

/-- A rule refuses some glyphs. -/
def RefusedBy (d : Dialect) (p : Place) (k : Nat) (rule : Production) (gs : List Glyph) : Prop :=
  ∀ offset, Runs d p k rule ⟨offset, gs⟩ none

namespace Part

variable {d : Dialect} {p : Place} {l : Nat} {rule : Production} {rules : List Production}
  {a b inner : Part}

theorem chars_append : (a ++ b).chars = a.chars ++ b.chars := rfl

theorem ReadBy.mono (h : a.ReadBy d p k rule gs) (hk : k ≤ l) : a.ReadBy d p l rule gs :=
  fun offset => (h offset).mono hk

theorem readByAll_nil : nil.ReadByAll d p k [] gs := fun _ => RunsAll.nil

theorem ReadBy.cons (h : a.ReadBy d p k rule (b.chars.map glyphOf ++ gs))
    (hs : b.ReadByAll d p k rules gs) : (a ++ b).ReadByAll d p k (rule :: rules) gs := by
  intro offset
  have hboth := RunsAll.cons (h offset) (hs (offset + bytesOf a.chars))
  rw [chars_append, List.map_append, List.append_assoc, bytesOf_append, ← Nat.add_assoc]
  exact hboth

theorem ReadBy.last (h : a.ReadBy d p k rule gs) : a.ReadByAll d p k [rule] gs := by
  intro offset
  have hboth := RunsAll.cons (h offset) RunsAll.nil
  rwa [List.append_nil] at hboth

theorem ReadByAll.seq (h : a.ReadByAll d p k rules gs) : a.ReadBy d p (k + 1) (.seq rules) gs :=
  fun offset => .seq (h offset)

theorem ReadBy.node {kind : Kind} {gap : List Char} (hgap : Gap gap) (hk : gap.length ≤ k)
    (hstarts : Starts (inner.chars.map glyphOf ++ gs)) (h : inner.ReadBy d p k rule gs) :
    (node kind gap inner).ReadBy d p (k + 1) (.node kind rule) gs := by
  intro offset
  have hpasses : Passes k ⟨offset, gap.map glyphOf ++ (inner.chars.map glyphOf ++ gs)⟩
      (commentsOf offset gap) ⟨offset + bytesOf gap, inner.chars.map glyphOf ++ gs⟩ :=
    fun fuel hfuel => hgap.passable hstarts (Nat.le_trans hk hfuel)
  have hnode : Runs d p (k + 1) (.node kind rule) _ _ := Runs.node hpasses (h (offset + bytesOf gap))
  have hchars : (Part.node kind gap inner).chars = gap ++ inner.chars := rfl
  rw [hchars, List.map_append, List.append_assoc, bytesOf_append, ← Nat.add_assoc]
  exact hnode

theorem ReadBy.role {role : Role} (h : a.ReadBy d p k rule gs) :
    (a.withRole role).ReadBy d p (k + 1) (.role role rule) gs := fun offset => .role (h offset)

theorem ReadBy.opt (h : a.ReadBy d p k rule gs) : a.ReadBy d p (k + 1) (.opt rule) gs :=
  fun offset => .opt (h offset)

theorem readBy_opt_nil (h : RefusedBy d p k rule gs) : nil.ReadBy d p (k + 1) (.opt rule) gs :=
  fun offset => .opt_none (h offset)

theorem ReadBy.inside {place : Place} (h : a.ReadBy d place k rule gs) :
    a.ReadBy d p (k + 1) (.inside place rule) gs := fun offset => .inside (h offset)

end Part

end Syntax

end ImportAssist
