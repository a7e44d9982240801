import ImportAssist.Proofs.Encoding
import ImportAssist.Proofs.Shifted

/-!
# What a rule makes of a text that is partly known

`Runs` says what a rule reads at a cursor, or that it refuses to, from some depth of the reading on.
There is one lemma for each form of rule, so a reading is followed step by step along the grammar.

Of the text only the next few characters are known. `here` is the cursor between what has been read
of a text and what is to come; a token moves one of its characters after the other from the second to
the first (`advance_here`). What a rule reads then stands in the text by itself (`text_here`).
-/

namespace ImportAssist

namespace Syntax

open Grammar (Production)

/-! ## Readings from some depth on -/

/-- From the depth `k` on, a rule gives `result`. -/
def Runs (d : Dialect) (p : Place) (k : Nat) (rule : Production) (c : Cursor)
    (result : Option Reading) : Prop :=
  ∀ fuel, k ≤ fuel → rule.run (grammar d) d.endsLine fuel p c = result

/-- The rules of a list give `result` one after the other. -/
def RunsAll (d : Dialect) (p : Place) (k : Nat) (rules : List Production) (c : Cursor)
    (result : Option Reading) : Prop :=
  ∀ fuel, k ≤ fuel → runSeq (Rule.run (grammar d) d.endsLine fuel p) rules c = result

/-- The first rule of a list that reads something gives `result`. -/
def RunsFirst (d : Dialect) (p : Place) (k : Nat) (rules : List Production) (c : Cursor)
    (result : Option Reading) : Prop :=
  ∀ fuel, k ≤ fuel → runAlt (Rule.run (grammar d) d.endsLine fuel p) rules c = result

/-- The first link that goes on after an operand gives `result`. -/
def RunsLinks (d : Dialect) (p : Place) (k : Nat) (left : Node) (links : List (Link Symbol))
    (c : Cursor) (result : Option (Node × Cursor)) : Prop :=
  ∀ fuel, k ≤ fuel → runLinks (Rule.run (grammar d) d.endsLine fuel p) left links c = result

/-- The links that go on after an operand, at most `m` of them, give `result`. -/
def RunsChain (d : Dialect) (p : Place) (k m : Nat) (left : Node) (links : List (Link Symbol))
    (c : Cursor) (result : Node × Cursor) : Prop :=
  ∀ fuel limit, k ≤ fuel → m ≤ limit →
    runChain (Rule.run (grammar d) d.endsLine fuel p) links limit left c = result

/-- White space is skipped, and the comments `cs`. -/
def Passes (k : Nat) (c : Cursor) (cs : List Node) (c' : Cursor) : Prop :=
  ∀ fuel, k ≤ fuel → trivia fuel c = (cs, c')

/-- Only white space is skipped. -/
abbrev Skips (k : Nat) (c c' : Cursor) : Prop := Passes k c [] c'

/-- White space and comments are skipped. -/
def Comes (k : Nat) (c c' : Cursor) : Prop := ∀ fuel, k ≤ fuel → (trivia fuel c).2 = c'

variable {d : Dialect} {p : Place} {k l : Nat} {rule : Production} {rules : List Production}
  {c c' last : Cursor} {cs ns ms : List Node} {result : Option Reading}

theorem Runs.mono (h : Runs d p k rule c result) (hk : k ≤ l) : Runs d p l rule c result :=
  fun fuel hfuel => h fuel (Nat.le_trans hk hfuel)

theorem Passes.mono (h : Passes k c cs c') (hk : k ≤ l) : Passes l c cs c' :=
  fun fuel hfuel => h fuel (Nat.le_trans hk hfuel)

theorem Passes.comes (h : Passes k c cs c') : Comes k c c' := fun fuel hfuel => by rw [h fuel hfuel]

theorem Comes.mono (h : Comes k c c') (hk : k ≤ l) : Comes l c c' :=
  fun fuel hfuel => h fuel (Nat.le_trans hk hfuel)

/-- A rule that goes down by one has at least the depth `k` left. -/
theorem runs_succ (h : ∀ fuel, k ≤ fuel →
    rule.run (grammar d) d.endsLine (fuel + 1) p c = result) : Runs d p (k + 1) rule c result := by
  intro fuel hfuel
  obtain ⟨n, rfl⟩ : ∃ n, fuel = n + 1 := ⟨fuel - 1, by omega⟩
  exact h n (by omega)

/-! ## Lists of rules -/

theorem RunsAll.nil : RunsAll d p k [] c (some ([], c)) := fun _ _ => rfl

theorem RunsAll.cons (h : Runs d p k rule c (some (ns, c')))
    (hs : RunsAll d p k rules c' (some (ms, last))) :
    RunsAll d p k (rule :: rules) c (some (ns ++ ms, last)) := by
  intro fuel hfuel
  rw [runSeq, h fuel hfuel]
  dsimp only
  rw [hs fuel hfuel]

theorem RunsAll.head (h : Runs d p k rule c none) : RunsAll d p k (rule :: rules) c none := by
  intro fuel hfuel
  rw [runSeq, h fuel hfuel]

theorem RunsAll.tail (h : Runs d p k rule c (some (ns, c'))) (hs : RunsAll d p k rules c' none) :
    RunsAll d p k (rule :: rules) c none := by
  intro fuel hfuel
  rw [runSeq, h fuel hfuel]
  dsimp only
  rw [hs fuel hfuel]

theorem RunsFirst.nil : RunsFirst d p k [] c none := fun _ _ => rfl

theorem RunsFirst.here (h : Runs d p k rule c (some (ns, last))) :
    RunsFirst d p k (rule :: rules) c (some (ns, last)) := by
  intro fuel hfuel
  rw [runAlt, h fuel hfuel]

theorem RunsFirst.there (h : Runs d p k rule c none) (hs : RunsFirst d p k rules c result) :
    RunsFirst d p k (rule :: rules) c result := by
  intro fuel hfuel
  rw [runAlt, h fuel hfuel]
  exact hs fuel hfuel

/-- Rules that refuse may stand in front. -/
theorem RunsFirst.append {front : List Production} (h : RunsFirst d p k front c none)
    (hs : RunsFirst d p k rules c result) : RunsFirst d p k (front ++ rules) c result := by
  intro fuel hfuel
  have hfront := h fuel hfuel
  clear h
  induction front with
  | nil => exact hs fuel hfuel
  | cons rule front ih =>
      rw [runAlt] at hfront
      rw [List.cons_append, runAlt]
      split at hfront
      · cases hfront
      · exact ih hfront

theorem Runs.seq (h : RunsAll d p k rules c result) : Runs d p (k + 1) (.seq rules) c result :=
  runs_succ fun fuel hfuel => h fuel hfuel

theorem Runs.alt (h : RunsFirst d p k rules c result) : Runs d p (k + 1) (.alt rules) c result :=
  runs_succ fun fuel hfuel => h fuel hfuel

/-! ## Rules made of a rule -/

theorem Runs.opt (h : Runs d p k rule c (some (ns, last))) :
    Runs d p (k + 1) (.opt rule) c (some (ns, last)) :=
  runs_succ fun fuel hfuel => by simp only [Rule.run, h fuel hfuel]

theorem Runs.opt_none (h : Runs d p k rule c none) :
    Runs d p (k + 1) (.opt rule) c (some ([], c)) :=
  runs_succ fun fuel hfuel => by simp only [Rule.run, h fuel hfuel]

theorem Runs.many_none (h : Runs d p k rule c none) :
    Runs d p (k + 1) (.many rule) c (some ([], c)) :=
  runs_succ fun fuel hfuel => by
    simp only [Rule.run]
    cases fuel with
    | zero => rfl
    | succ fuel =>
        rw [repeatRun, h _ hfuel]
        rfl

theorem Runs.ahead (h : Runs d p k rule c (some (ns, last))) :
    Runs d p (k + 1) (.ahead rule) c (some ([], c)) :=
  runs_succ fun fuel hfuel => by simp only [Rule.run, h fuel hfuel, Option.map_some]

theorem Runs.notAhead_none (h : Runs d p k rule c none) :
    Runs d p (k + 1) (.notAhead rule) c (some ([], c)) :=
  runs_succ fun fuel hfuel => by simp only [Rule.run, h fuel hfuel]

theorem Runs.node {kind : Kind} (hskip : Passes k c cs c')
    (h : Runs d p k rule c' (some (ns, last))) :
    Runs d p (k + 1) (.node kind rule) c
      (some (cs ++ [.mk (.kind kind) none c'.offset last.offset ns], last)) :=
  runs_succ fun fuel hfuel => by
    simp only [Rule.run, hskip fuel hfuel, h fuel hfuel, Option.map_some]

theorem Runs.node_none {kind : Kind} (hskip : Comes k c c') (h : Runs d p k rule c' none) :
    Runs d p (k + 1) (.node kind rule) c none :=
  runs_succ fun fuel hfuel => by
    simp only [Rule.run, hskip fuel hfuel, h fuel hfuel, Option.map_none]

theorem Runs.role {part : Role} (h : Runs d p k rule c (some (ns, last))) :
    Runs d p (k + 1) (.role part rule) c (some (assignRole part ns, last)) :=
  runs_succ fun fuel hfuel => by simp only [Rule.run, h fuel hfuel, Option.map_some]

theorem Runs.role_none {part : Role} (h : Runs d p k rule c none) :
    Runs d p (k + 1) (.role part rule) c none :=
  runs_succ fun fuel hfuel => by simp only [Rule.run, h fuel hfuel, Option.map_none]

theorem Runs.call {symbol : Symbol} (h : Runs d p k (grammar d symbol) c result) :
    Runs d p (k + 1) (.call symbol) c result :=
  runs_succ fun fuel hfuel => h fuel hfuel

theorem Runs.fresh (hskip : Passes k c cs c') (h : Runs d p k rule c' (some (ns, last))) :
    Runs d p (k + 1) (.fresh rule) c (some (cs ++ ns, last)) :=
  runs_succ fun fuel hfuel => by
    simp only [Rule.run, hskip fuel hfuel, h fuel hfuel, Option.map_some]

theorem Runs.fresh_none (hskip : Comes k c c') (h : Runs d p k rule c' none) :
    Runs d p (k + 1) (.fresh rule) c none :=
  runs_succ fun fuel hfuel => by
    simp only [Rule.run, hskip fuel hfuel, h fuel hfuel, Option.map_none]

theorem Runs.inside {place : Place} (h : Runs d place k rule c result) :
    Runs d p (k + 1) (.inside place rule) c result :=
  runs_succ fun fuel hfuel => h fuel hfuel

/-- What would have to be joined to a statement is refused, whether the statement may go on or not. -/
theorem RunsAll.joined (h : RunsAll d p k rules c none) (hk : 0 < k) :
    RunsAll d p k (.joined :: rules) c none := by
  intro fuel hfuel
  obtain ⟨n, rfl⟩ : ∃ n, fuel = n + 1 := ⟨fuel - 1, by omega⟩
  have hjoined : Rule.run (grammar d) d.endsLine (n + 1) p .joined c = none ∨
      Rule.run (grammar d) d.endsLine (n + 1) p .joined c = some ([], c) := by
    simp only [Rule.run]
    split
    · split
      · exact .inl rfl
      · exact .inr rfl
    · exact .inr rfl
  rw [runSeq]
  rcases hjoined with hjoined | hjoined
  · rw [hjoined]
  · rw [hjoined]
    dsimp only
    rw [h (n + 1) hfuel]

/-! ## Chains -/

section

variable {left node whole : Node} {links : List (Link Symbol)} {m : Nat}

theorem RunsLinks.tail {kind : Kind} {onto : List Kind} {tail : Production} {part : Option Role}
    (h : Runs d p k tail c none) {more : Option (Node × Cursor)}
    (hs : RunsLinks d p k left links c more) :
    RunsLinks d p k left (.mk kind part onto tail :: links) c more := by
  intro fuel hfuel
  unfold runLinks
  rw [h fuel hfuel]
  simp only [hs fuel hfuel, ite_self]

theorem RunsLinks.here {kind : Kind} {part : Role} {tail : Production}
    (h : Runs d p k tail c (some (ns, last))) :
    RunsLinks d p k left (.mk kind (some part) [] tail :: links) c
      (some (.mk (.kind kind) none left.start last.offset (left.withRole part :: ns), last)) := by
  intro fuel hfuel
  unfold runLinks
  rw [h fuel hfuel]
  rfl

theorem RunsChain.stop (h : RunsLinks d p k left links c none) :
    RunsChain d p k m left links c (left, c) := by
  intro fuel limit hfuel _
  cases limit with
  | zero => rfl
  | succ limit => rw [runChain, h fuel hfuel]

theorem RunsChain.step (h : RunsLinks d p k left links c (some (node, c')))
    (hs : RunsChain d p k m node links c' (whole, last)) :
    RunsChain d p k (m + 1) left links c (whole, last) := by
  intro fuel limit hfuel hlimit
  obtain ⟨n, rfl⟩ : ∃ n, limit = n + 1 := ⟨limit - 1, by omega⟩
  rw [runChain, h fuel hfuel]
  exact hs fuel n hfuel (by omega)

theorem Runs.chain {base : Production} (h : Runs d p k base c (some ([left], c')))
    (hs : RunsChain d p k m left links c' (whole, last)) (hm : m ≤ k) :
    Runs d p (k + 1) (.chain base links) c (some ([whole], last)) :=
  runs_succ fun fuel hfuel => by
    simp only [Rule.run, h fuel hfuel, List.getLast?_singleton, List.dropLast_singleton,
      hs fuel fuel hfuel (Nat.le_trans hm hfuel), List.nil_append]

end

/-! ## Tokens -/

theorem Runs.mark {text : String} {notBefore : List Char} (hskip : Passes k c cs c')
    (htext : Lexeme.literal text.toList c'.rest = true)
    (hnext : Lexeme.nextIn notBefore (c'.rest.drop text.toList.length) = false) :
    Runs d p (k + 1) (.mark text notBefore) c
      (some (cs ++ [Node.token text c'.offset (c'.advance text.toList.length).offset],
        c'.advance text.toList.length)) :=
  runs_succ fun fuel hfuel => by
    simp only [Rule.run, hskip fuel hfuel, htext, hnext]
    rfl

theorem Runs.mark_none {text : String} {notBefore : List Char} (hskip : Comes k c c')
    (h : (Lexeme.literal text.toList c'.rest &&
      !Lexeme.nextIn notBefore (c'.rest.drop text.toList.length)) = false) :
    Runs d p (k + 1) (.mark text notBefore) c none :=
  runs_succ fun fuel hfuel => by
    simp only [Rule.run, hskip fuel hfuel, h]
    rfl

theorem Runs.keyword {text : String} (hskip : Passes k c cs c')
    (htext : Lexeme.literal text.toList c'.rest = true)
    (hword : Lexeme.word c'.rest = text.toList.length) :
    Runs d p (k + 1) (.keyword text) c
      (some (cs ++ [Node.token text c'.offset (c'.advance text.toList.length).offset],
        c'.advance text.toList.length)) :=
  runs_succ fun fuel hfuel => by
    simp only [Rule.run, hskip fuel hfuel, htext, hword, beq_self_eq_true]
    rfl

theorem Runs.keyword_none {text : String} (hskip : Comes k c c')
    (h : (Lexeme.literal text.toList c'.rest && Lexeme.word c'.rest == text.toList.length) = false) :
    Runs d p (k + 1) (.keyword text) c none :=
  runs_succ fun fuel hfuel => by
    simp only [Rule.run, hskip fuel hfuel, h]
    rfl

theorem Runs.name {kind : Kind} {except : List String} {n : Nat} (hskip : Passes k c cs c')
    (hword : Lexeme.word c'.rest = n) (hpos : 0 < n)
    (hexcept : String.ofList ((c'.rest.take n).map Glyph.char) ∉ except) :
    Runs d p (k + 1) (.name kind except) c
      (some (cs ++ [Node.leaf kind c'.offset (c'.advance n).offset], c'.advance n)) :=
  runs_succ fun fuel hfuel => by
    have hn : (n == 0) = false := by simpa using Nat.pos_iff_ne_zero.mp hpos
    have hcontains : except.contains (String.ofList ((c'.rest.take n).map Glyph.char)) = false := by
      simpa using hexcept
    simp only [Rule.run, hskip fuel hfuel, hword, hn, hcontains]
    rfl

theorem Runs.name_none {kind : Kind} {except : List String} (hskip : Comes k c c')
    (hword : Lexeme.word c'.rest = 0) : Runs d p (k + 1) (.name kind except) c none :=
  runs_succ fun fuel hfuel => by
    simp only [Rule.run, hskip fuel hfuel, hword, beq_self_eq_true, Bool.true_or, if_true]

theorem Runs.name_except {kind : Kind} {except : List String} (hskip : Comes k c c')
    (hexcept : String.ofList ((c'.rest.take (Lexeme.word c'.rest)).map Glyph.char) ∈ except) :
    Runs d p (k + 1) (.name kind except) c none :=
  runs_succ fun fuel hfuel => by
    simp only [Rule.run, hskip fuel hfuel, List.contains_iff_mem.2 hexcept, Bool.or_true, if_true]

theorem Runs.lexeme {kind : Kind} {literal : Lexeme.Class} {n : Nat} (hskip : Passes k c cs c')
    (hscan : literal.scan c'.rest = some n) :
    Runs d p (k + 1) (.lexeme kind false literal) c
      (some (cs ++ [Node.leaf kind c'.offset (c'.advance n).offset], c'.advance n)) :=
  runs_succ fun fuel hfuel => by
    simp only [Rule.run, Bool.false_eq_true, if_false, hskip fuel hfuel, hscan]
    rfl

theorem Runs.lexeme_none {kind : Kind} {literal : Lexeme.Class} (hskip : Comes k c c')
    (hscan : literal.scan c'.rest = none) : Runs d p (k + 1) (.lexeme kind false literal) c none :=
  runs_succ fun fuel hfuel => by
    simp only [Rule.run, Bool.false_eq_true, if_false, hskip fuel hfuel, hscan, Option.map_none]

/-! ## Texts partly read -/

open Utf8 (glyphOf)

/-- How many bytes some characters take. -/
def bytesOf (chars : List Char) : Nat := (Utf8.encode (String.ofList chars)).length

theorem bytesOf_append (as bs : List Char) : bytesOf (as ++ bs) = bytesOf as + bytesOf bs := by
  simp [bytesOf]

theorem bytesOf_pos {chars : List Char} (h : chars ≠ []) : 0 < bytesOf chars := by
  obtain ⟨ch, more, rfl⟩ := List.exists_cons_of_ne_nil h
  have hpos : 0 < (glyphOf ch).width := Char.utf8Size_pos ch
  rw [bytesOf, ← Utf8.width_map_glyphOf, List.map_cons, Utf8.width_cons]
  omega

/-- The same number of bytes at the front of a text are the same characters. -/
theorem front_eq_of_bytesOf {front back front' back' : List Char} (h : front ++ back = front' ++ back')
    (hbytes : bytesOf front = bytesOf front') : front = front' := by
  have hnil {more : List Char} (hmore : bytesOf more = 0) : more = [] :=
    Decidable.not_not.mp fun hne => absurd hmore (Nat.pos_iff_ne_zero.mp (bytesOf_pos hne))
  rcases List.append_eq_append_iff.mp h with ⟨more, rfl, -⟩ | ⟨more, rfl, -⟩
  · rw [bytesOf_append] at hbytes
    rw [@hnil more (by omega), List.append_nil]
  · rw [bytesOf_append] at hbytes
    rw [@hnil more (by omega), List.append_nil]

/-- The cursor in a text, behind the characters `front` and before the characters `back`, which
other glyphs follow. -/
def here (front back : List Char) (rest : List Glyph) : Cursor :=
  ⟨bytesOf front, back.map glyphOf ++ rest⟩

section

variable {front back token : List Char} {rest : List Glyph}

theorem advance_here {n : Nat} (hn : n = token.length) :
    (here front (token ++ back) rest).advance n = here (front ++ token) back rest := by
  subst hn
  rw [Cursor.advance_eq]
  simp only [here, List.map_append, List.append_assoc, Cursor.mk.injEq]
  have htake : (token.map glyphOf ++ (back.map glyphOf ++ rest)).take token.length =
      token.map glyphOf := by
    rw [List.take_left' (by simp)]
  have hdrop : (token.map glyphOf ++ (back.map glyphOf ++ rest)).drop token.length =
      back.map glyphOf ++ rest := by
    rw [List.drop_left' (by simp)]
  rw [htake, hdrop, Utf8.width_map_glyphOf]
  simp [bytesOf]

/-- A node over one part of a text. -/
theorem text_here {n : Node} {behind : Bytes}
    (hstart : n.start = bytesOf front) (hstop : n.stop = bytesOf (front ++ token)) :
    n.text (Utf8.encode (String.ofList (front ++ token ++ back)) ++ behind) =
      String.ofList token := by
  have hlength : n.stop - n.start = (Utf8.encode (String.ofList token)).length := by
    rw [hstart, hstop]
    simp [bytesOf]
  rw [Node.text, Node.bytes, hlength, hstart]
  simp only [bytesOf, String.ofList_append, Utf8.encode_append, List.append_assoc]
  rw [List.drop_left, List.take_left, Utf8.decodeLossy_encode]

theorem settled_here {ch : Char} (hblank : Lexeme.isBlank ch = false) (hslash : ch ≠ '/') :
    (here front (ch :: back) rest).Settled := by
  refine settled_cons (by simp [glyphOf, hblank]) ?_
  unfold Lexeme.comment
  split
  · rename_i a b gs hgs
    obtain rfl : glyphOf ch = a := by simpa using congrArg List.head? hgs
    simp [glyphOf, hslash]
  · rfl

theorem skips_settled (h : c.Settled) : Skips k c c := fun fuel _ => h fuel

theorem skips_blank {ch : Char} (hblank : Lexeme.isBlank ch = true)
    (h : (here (front ++ [ch]) back rest).Settled) (hk : 1 ≤ k) :
    Skips k (here front (ch :: back) rest) (here (front ++ [ch]) back rest) := by
  intro fuel hfuel
  obtain ⟨n, rfl⟩ : ∃ n, fuel = n + 1 := ⟨fuel - 1, by omega⟩
  have hadvance : (here front ([ch] ++ back) rest).advance 1 = here (front ++ [ch]) back rest :=
    advance_here rfl
  rw [trivia]
  simp only [here, List.map_cons, List.cons_append, glyphOf, hblank, Bool.and_self, if_true]
  exact (congrArg (trivia n) hadvance).trans (h n)

/-! ## Words and strings -/

theorem literal_here : ∀ (token : List Char) (gs : List Glyph),
    Lexeme.literal token (token.map glyphOf ++ gs) = true
  | [], _ => rfl
  | ch :: token, gs => by
      simp [Lexeme.literal, glyphOf, literal_here token gs]

theorem literal_other {ch t : Char} {ts : List Char} (hne : ch ≠ t) (gs : List Glyph) :
    Lexeme.literal (t :: ts) (glyphOf ch :: gs) = false := by
  simp [Lexeme.literal, glyphOf, hne]

theorem literal_eq : ∀ {token word : List Char} {gs : List Glyph},
    Lexeme.literal token (word.map glyphOf ++ gs) = true → word.length = token.length → word = token
  | [], [], _, _, _ => rfl
  | t :: token, ch :: word, gs, h, hlength => by
      simp only [List.map_cons, List.cons_append, Lexeme.literal, glyphOf, Bool.true_and,
        Bool.and_eq_true, beq_iff_eq] at h
      rw [h.1, literal_eq h.2 (by simpa using hlength)]

/-- A word and nothing else. -/
structure IsWord (word : List Char) : Prop where
  glyphs : ∀ ch ∈ word, Lexeme.isWordGlyph (glyphOf ch) = true
  start : ∃ ch more, word = ch :: more ∧ ch.isDigit = false

/-- No word goes on with these glyphs. -/
def EndsWord (gs : List Glyph) : Prop := Lexeme.wordFrom 0 gs = 0

theorem endsWord_cons {ch : Char} (hword : Lexeme.isWordGlyph (glyphOf ch) = false)
    (hescape : ch ≠ '\\') : EndsWord ((ch :: back).map glyphOf ++ rest) := by
  have hnone : Lexeme.wordEscape (glyphOf ch :: (back.map glyphOf ++ rest)) = none := by
    unfold Lexeme.wordEscape
    split
    · rename_i b u gs hgs
      obtain rfl : glyphOf ch = b := by simpa using congrArg List.head? hgs
      simp [glyphOf, hescape]
    · rfl
  rw [EndsWord, List.map_cons, List.cons_append, Lexeme.wordFrom]
  simp [hword, hnone]

theorem wordFrom_here (hrest : EndsWord rest) : ∀ {word : List Char},
    (∀ ch ∈ word, Lexeme.isWordGlyph (glyphOf ch) = true) →
    Lexeme.wordFrom 0 (word.map glyphOf ++ rest) = word.length
  | [], _ => hrest
  | ch :: word, h => by
      have hword := wordFrom_here hrest fun x hx => h x (List.mem_cons_of_mem _ hx)
      rw [List.map_cons, List.cons_append, Lexeme.wordFrom, if_pos (h ch (List.mem_cons_self ..)),
        hword, List.length_cons]

theorem IsWord.word_eq {word : List Char} (h : IsWord word) (hrest : EndsWord rest) :
    Lexeme.word (word.map glyphOf ++ rest) = word.length := by
  obtain ⟨ch, more, rfl, hdigit⟩ := h.start
  have hfrom := wordFrom_here hrest h.glyphs
  rw [List.map_cons, List.cons_append] at hfrom ⊢
  rw [Lexeme.word]
  simpa [glyphOf, hdigit] using hfrom

namespace IsWord

variable {word more : List Char} {ch : Char}

theorem head_ne (h : IsWord (ch :: more)) {t : Char} (ht : Lexeme.isPunctuation t = true) :
    ch ≠ t := by
  rintro rfl
  have := h.glyphs ch (List.mem_cons_self ..)
  simp [Lexeme.isWordGlyph, glyphOf, ht] at this

theorem head_not_blank (h : IsWord (ch :: more)) : Lexeme.isBlank ch = false := by
  have := h.glyphs ch (List.mem_cons_self ..)
  simp only [Lexeme.isWordGlyph, glyphOf, Bool.and_eq_true, Bool.not_eq_true'] at this
  exact this.1.2

theorem settled (h : IsWord (ch :: more)) : (here front (ch :: more ++ back) rest).Settled :=
  settled_here h.head_not_blank (h.head_ne rfl)

end IsWord

section

variable {gs more : List Glyph} {n : Nat}

theorem nextIn_append {chars : List Char} (h : gs ≠ []) :
    Lexeme.nextIn chars (gs ++ more) = Lexeme.nextIn chars gs := by
  cases gs with
  | nil => contradiction
  | cons g gs => rfl

theorem runLength_append {test : Char → Bool} : ∀ {gs : List Glyph},
    Lexeme.runLength test gs < gs.length →
      Lexeme.runLength test (gs ++ more) = Lexeme.runLength test gs
  | [], h => by cases h
  | g :: gs, h => by
      rw [Lexeme.runLength] at h
      rw [List.cons_append, Lexeme.runLength, Lexeme.runLength]
      split
      · rename_i htest
        rw [if_pos htest, List.length_cons] at h
        rw [runLength_append (by omega)]
      · rfl


/-- What a backslash stands before does not depend on what follows it. -/
theorem escapeTail_append (h : Lexeme.escapeTail gs = some n) (hlength : n < gs.length) :
    Lexeme.escapeTail (gs ++ more) = some n := by
  cases gs with
  | nil => cases h
  | cons g rest =>
      rw [List.length_cons] at hlength
      have hnext {chars : List Char} (hpos : 0 < rest.length) :
          Lexeme.nextIn chars (rest ++ more) = Lexeme.nextIn chars rest :=
        nextIn_append (List.ne_nil_of_length_pos hpos)
      rw [List.cons_append]
      simp only [Lexeme.escapeTail] at h ⊢
      by_cases hx : (g.char == 'x') = true
      · rw [if_pos hx] at h ⊢
        split at h
        · rename_i hdigits
          cases h
          rw [List.take_append_of_le_length (by omega), if_pos hdigits]
        · cases h
      rw [if_neg hx] at h ⊢
      by_cases hu : (g.char == 'u') = true
      · rw [if_pos hu] at h ⊢
        split at h
        · rename_i hbrace
          split at h
          · rename_i hdigits
            cases h
            have hdrop : (rest ++ more).drop 1 = rest.drop 1 ++ more :=
              List.drop_append_of_le_length (by omega)
            have hrun : Lexeme.runLength Lexeme.isHexDigit (rest.drop 1 ++ more) =
                Lexeme.runLength Lexeme.isHexDigit (rest.drop 1) :=
              runLength_append (by rw [List.length_drop]; omega)
            have hend : (rest ++ more).drop (Lexeme.runLength Lexeme.isHexDigit (rest.drop 1) + 1) =
                rest.drop (Lexeme.runLength Lexeme.isHexDigit (rest.drop 1) + 1) ++ more :=
              List.drop_append_of_le_length (by omega)
            have hrest : rest.drop (Lexeme.runLength Lexeme.isHexDigit (rest.drop 1) + 1) ≠ [] :=
              List.ne_nil_of_length_pos (by rw [List.length_drop]; omega)
            rw [hnext (by omega), if_pos hbrace, hdrop, hrun, hend, nextIn_append hrest,
              if_pos hdigits]
          · cases h
        · rename_i hbrace
          split at h
          · rename_i hdigits
            cases h
            rw [hnext (by omega), if_neg hbrace, List.take_append_of_le_length (by omega),
              if_pos hdigits]
          · cases h
      · rw [if_neg hu] at h ⊢
        split at h
        · rename_i hbreak
          cases h
          rw [hnext (by omega), if_pos hbreak]
        · rename_i hbreak
          cases h
          rw [hnext (by omega), if_neg hbreak]

theorem lt_length_of_toQuote {quote : Char} : ∀ {gs : List Glyph} {skip n : Nat},
    Lexeme.toQuote quote skip gs = some n → skip < gs.length
  | [], skip, n, h => by cases skip <;> cases h
  | g :: rest, 0, n, _ => Nat.zero_lt_succ _
  | g :: rest, skip + 1, n, h => by
      rw [Lexeme.toQuote, Option.map_eq_some_iff] at h
      obtain ⟨m, hm, -⟩ := h
      have := lt_length_of_toQuote hm
      rw [List.length_cons]
      omega

theorem toQuote_append {quote : Char} : ∀ {gs : List Glyph} {skip n : Nat},
    Lexeme.toQuote quote skip gs = some n → Lexeme.toQuote quote skip (gs ++ more) = some n
  | [], skip, n, h => by cases skip <;> cases h
  | g :: rest, skip + 1, n, h => by
      rw [Lexeme.toQuote, Option.map_eq_some_iff] at h
      obtain ⟨m, hm, rfl⟩ := h
      rw [List.cons_append, Lexeme.toQuote, toQuote_append hm]
      rfl
  | g :: rest, 0, n, h => by
      rw [List.cons_append]
      rw [Lexeme.toQuote] at h ⊢
      split at h
      · rename_i hquote
        rw [if_pos hquote, h]
      · rename_i hquote
        rw [if_neg hquote]
        split at h
        · cases h
        · rename_i hbreak
          rw [if_neg hbreak]
          split at h
          · rename_i hescape
            rw [if_pos hescape]
            split at h
            · rename_i k hk
              rw [Option.map_eq_some_iff] at h
              obtain ⟨m, hm, rfl⟩ := h
              rw [escapeTail_append hk (lt_length_of_toQuote hm)]
              dsimp only
              rw [toQuote_append hm]
              rfl
            · cases h
          · rename_i hescape
            rw [if_neg hescape]
            rw [Option.map_eq_some_iff] at h
            obtain ⟨m, hm, rfl⟩ := h
            rw [toQuote_append hm]
            rfl

end

/-- Characters that a quote encloses: the next quote that no backslash stands before is the one
behind them. -/
def Enclosed (quote : Char) (chars : List Char) : Prop :=
  Lexeme.toQuote quote 0 ((chars ++ [quote]).map glyphOf) = some (chars.length + 1)

theorem Enclosed.toQuote_eq {quote : Char} {chars : List Char} (h : Enclosed quote chars)
    (gs : List Glyph) :
    Lexeme.toQuote quote 0 (chars.map glyphOf ++ glyphOf quote :: gs) = some (chars.length + 1) := by
  have happend := @toQuote_append gs _ _ _ _ h
  simpa using happend

theorem string_here {quote : Char} {chars : List Char} {gs : List Glyph}
    (hquote : quote = '\x27' ∨ quote = '"') (h : Enclosed quote chars) :
    Lexeme.string ((quote :: chars ++ [quote]).map glyphOf ++ gs) = some (chars.length + 2) := by
  have hmark : ((glyphOf quote).char == '\x27' || (glyphOf quote).char == '"') = true := by
    rcases hquote with rfl | rfl <;> rfl
  have hscan := h.toQuote_eq gs
  simp only [List.map_cons, List.map_append, List.map_nil, List.cons_append, List.append_assoc,
    List.nil_append, Lexeme.string, hmark, if_true]
  rw [show (glyphOf quote).char = quote from rfl, hscan]
  rfl

/-! ## Tokens in a text -/

theorem Runs.mark_here {text : String} {notBefore : List Char} (htext : text.toList = token)
    (hskip : Skips k c (here front (token ++ back) rest))
    (hnext : Lexeme.nextIn notBefore (back.map glyphOf ++ rest) = false) :
    Runs d p (k + 1) (.mark text notBefore) c
      (some ([Node.token text (bytesOf front) (bytesOf (front ++ token))],
        here (front ++ token) back rest)) := by
  subst htext
  have hrest : (here front (text.toList ++ back) rest).rest =
      text.toList.map glyphOf ++ (back.map glyphOf ++ rest) := by simp [here]
  have hruns := Runs.mark (d := d) (p := p) hskip
    (by rw [hrest]; exact literal_here _ _)
    (by rw [hrest, List.drop_left' (by simp)]; exact hnext)
  rw [advance_here rfl] at hruns
  exact hruns

theorem Runs.keyword_here {text : String} (htext : text.toList = token) (hword : IsWord token)
    (hskip : Skips k c (here front (token ++ back) rest))
    (hend : EndsWord (back.map glyphOf ++ rest)) :
    Runs d p (k + 1) (.keyword text) c
      (some ([Node.token text (bytesOf front) (bytesOf (front ++ token))],
        here (front ++ token) back rest)) := by
  subst htext
  have hrest : (here front (text.toList ++ back) rest).rest =
      text.toList.map glyphOf ++ (back.map glyphOf ++ rest) := by simp [here]
  have hruns := Runs.keyword (d := d) (p := p) hskip
    (by rw [hrest]; exact literal_here _ _) (by rw [hrest]; exact hword.word_eq hend)
  rw [advance_here rfl] at hruns
  exact hruns

theorem Runs.name_here {kind : Kind} {except : List String} {word : List Char} (hword : IsWord word)
    (hskip : Skips k c (here front (word ++ back) rest))
    (hend : EndsWord (back.map glyphOf ++ rest)) (hexcept : String.ofList word ∉ except) :
    Runs d p (k + 1) (.name kind except) c
      (some ([Node.leaf kind (bytesOf front) (bytesOf (front ++ word))],
        here (front ++ word) back rest)) := by
  have hrest : (here front (word ++ back) rest).rest =
      word.map glyphOf ++ (back.map glyphOf ++ rest) := by simp [here]
  obtain ⟨ch, more, hcons, -⟩ := hword.start
  have hpos : 0 < word.length := by simp [hcons]
  have hchars : (((here front (word ++ back) rest).rest.take word.length).map Glyph.char) = word := by
    rw [hrest, List.take_left' (by simp), List.map_map]
    simp [Function.comp_def, glyphOf]
  have hruns : Runs d p (k + 1) (.name kind except) c _ := Runs.name hskip
    (by rw [hrest]; exact hword.word_eq hend) hpos (by rw [hchars]; exact hexcept)
  rw [advance_here rfl] at hruns
  exact hruns

theorem Runs.string_here {kind : Kind} {quote : Char} {chars : List Char}
    (hquote : quote = '\x27' ∨ quote = '"') (h : Enclosed quote chars)
    (hskip : Skips k c (here front ((quote :: chars ++ [quote]) ++ back) rest)) :
    Runs d p (k + 1) (.lexeme kind false .string) c
      (some ([Node.leaf kind (bytesOf front) (bytesOf (front ++ (quote :: chars ++ [quote])))],
        here (front ++ (quote :: chars ++ [quote])) back rest)) := by
  have hrest : (here front ((quote :: chars ++ [quote]) ++ back) rest).rest =
      (quote :: chars ++ [quote]).map glyphOf ++ (back.map glyphOf ++ rest) := by simp [here]
  have hruns : Runs d p (k + 1) (.lexeme kind false .string) c _ := Runs.lexeme hskip
    (by rw [hrest]; exact Syntax.string_here hquote h)
  rw [advance_here (by simp)] at hruns
  exact hruns

/-! ## Ends of lines -/

/-- What comes next, behind white space and comments. -/
def upcoming (gs : List Glyph) : List Glyph := (trivia gs.length ⟨0, gs⟩).2.rest

/-- A line break as statements are written with. -/
def IsBreak (chars : List Char) : Prop := chars = ['\n'] ∨ chars = ['\r', '\n']

theorem trivia_rest (fuel offset : Nat) (gs : List Glyph) :
    (trivia fuel ⟨offset, gs⟩).2.rest = (trivia fuel ⟨0, gs⟩).2.rest := by
  have h := trivia_shift (k := offset) fuel ⟨0, gs⟩
  rw [Cursor.shift, Nat.zero_add] at h
  rw [h]
  rfl

theorem upcoming_eq {fuel offset : Nat} {gs : List Glyph} (h : gs.length ≤ fuel) :
    (trivia fuel ⟨offset, gs⟩).2.rest = upcoming gs := by
  rw [trivia_rest, trivia_stable h]
  rfl

theorem trivia_break {lineBreak : List Char} (hbreak : IsBreak lineBreak) (fuel : Nat) :
    trivia (fuel + lineBreak.length) (here front lineBreak rest) =
      trivia fuel (here (front ++ lineBreak) [] rest) := by
  have hblank : ∀ (ch : Char) (front back : List Char) (fuel : Nat), Lexeme.isBlank ch = true →
      trivia (fuel + 1) (here front (ch :: back) rest) =
        trivia fuel (here (front ++ [ch]) back rest) := by
    intro ch front back fuel hblank
    have hadvance : (here front ([ch] ++ back) rest).advance 1 = here (front ++ [ch]) back rest :=
      advance_here rfl
    rw [trivia]
    simp only [here, List.map_cons, List.cons_append, glyphOf, hblank, Bool.and_self, if_true]
    exact congrArg (trivia fuel) hadvance
  rcases hbreak with rfl | rfl
  · exact hblank '\n' front [] fuel rfl
  · rw [List.length_cons, ← Nat.add_assoc, hblank '\r' front ['\n'] _ rfl, List.length_singleton,
      hblank '\n' _ [] fuel rfl, List.append_assoc]
    rfl

theorem comes_break (front : List Char) (rest : List Glyph) {lineBreak : List Char}
    (hbreak : IsBreak lineBreak) :
    ∃ c', Comes (rest.length + 2) (here front lineBreak rest) c' ∧ c'.Settled ∧
      c'.rest = upcoming rest := by
  refine ⟨(trivia rest.length ⟨bytesOf (front ++ lineBreak), rest⟩).2, fun fuel hfuel => ?_,
    trivia_settled (Nat.le_refl _), upcoming_eq (Nat.le_refl _)⟩
  have hlength : lineBreak.length ≤ 2 := by rcases hbreak with rfl | rfl <;> simp
  obtain ⟨n, rfl⟩ : ∃ n, fuel = n + lineBreak.length := ⟨fuel - lineBreak.length, by omega⟩
  rw [trivia_break hbreak]
  exact congrArg Prod.snd (trivia_stable (c := ⟨_, rest⟩) (show rest.length ≤ n by omega))

/-- A statement ends at a line break in front of what may start another one. -/
theorem lineEnd_break {lineBreak : List Char} (hbreak : IsBreak lineBreak)
    (hmay : mayStartStatement (upcoming rest) = true) {fuel : Nat} (hfuel : rest.length < fuel) :
    lineEnd d.endsLine fuel (here front lineBreak rest) = some ([], here front lineBreak rest) := by
  obtain ⟨n, rfl⟩ : ∃ n, fuel = n + 1 := ⟨fuel - 1, by omega⟩
  have hfeed : d.endsLine '\n' = true := by cases d <;> rfl
  have hreturn : d.endsLine '\r' = false := by cases d <;> rfl
  have hnext : mayStartStatement (trivia n ⟨0, rest⟩).2.rest = true := by
    rw [upcoming_eq (by omega), hmay]
  rcases hbreak with rfl | rfl
  · simp [lineEnd, here, Lexeme.runLength, glyphOf, hfeed, hnext]
  · have hblank : Lexeme.isBlank '\r' = true := rfl
    simp [lineEnd, here, Lexeme.runLength, glyphOf, hfeed, hreturn, hblank, hnext]

theorem literal_of_mayStart {gs : List Glyph} (hmay : mayStartStatement gs = true) {t : Char}
    {ts : List Char} (ht : ",.;*%><=?^|&/:".toList.contains t = true) :
    Lexeme.literal (t :: ts) gs = false := by
  cases gs with
  | nil => rfl
  | cons g gs =>
      rw [mayStartStatement] at hmay
      have hne : g.char ≠ t := by
        rintro rfl
        rw [if_pos ht] at hmay
        cases hmay
      simp [Lexeme.literal, hne]

end

end Syntax

end ImportAssist
