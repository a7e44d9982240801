import ImportAssist.Proofs.Outline

/-!
# What is forecast happens

A forecast is what a rule does on every text that the outline fits (`predict_sound`): it refuses, or it
reads the nodes of the forecast, with each place moved to its offset, and comes to stand at the rest of
the outline.
-/

namespace ImportAssist

namespace Syntax

open Grammar (Production)
open Utf8 (glyphOf)

variable {d : Dialect} {p : Place} {k : Nat} {offset : Nat → Nat} {lineBreak : List Char} {rest : List Glyph}
  {o : Outline}
  {c : Cursor} {rule : Production}

/-- What is forecast for a rule at a cursor happens from the depth `k` on. -/
def Forecast.Happens (forecast : Forecast) (d : Dialect) (p : Place) (k : Nat) (rule : Production)
    (offset : Nat → Nat) (lineBreak : List Char) (rest : List Glyph) (c : Cursor) : Prop :=
  match forecast with
  | .refuses => Runs d p k rule c none
  | .reads ns after => ∃ c', Stands offset lineBreak rest after c' ∧
      Runs d p k rule c (some (ns.map (Node.relocate offset), c'))
  | .unknown => True

/-! ## Tokens -/

/-- The next token, or what stands behind the end of the line, is as its clue has it. -/
theorem Stands.ahead {place : Nat} {clue : Clue} {clues : List Clue}
    (h : Stands offset lineBreak rest ⟨place, clue :: clues⟩ c) :
    ∃ c', Comes (rest.length + 2) c c' ∧ clue.Ahead c'.rest := by
  cases h with
  | @token _ _ _ front gap chars back hplace hgap hbefore hshows hmore =>
      have hskips := skips_gap front hgap hshows.settled
      refine ⟨_, (hskips.mono (by omega)).comes, ?_⟩
      simpa [here] using hshows.ahead
  | @close _ no front hplace heven hbreak hfollows =>
      obtain ⟨c', hcomes, -, hrest⟩ := comes_break front rest hbreak
      exact ⟨c', hcomes, hrest ▸ hfollows⟩
  | closed hodd hsettled hfollows => exact ⟨c, (skips_settled hsettled).comes, hfollows⟩

/-- A rule for one token that a clue decides. -/
structure TokenRule (d : Dialect) (p : Place) (rule : Production) (test : Clue → Option Bool)
    (make : Nat → Nat → Node) : Prop where
  refuses {k : Nat} {c c' : Cursor} {clue : Clue} : Comes k c c' → clue.Ahead c'.rest →
    test clue = some false → Runs d p (k + 1) rule c none
  reads {k : Nat} {c : Cursor} {clue : Clue} {front chars back : List Char} {rest : List Glyph} :
    Skips k c (here front (chars ++ back) rest) → clue.Shows chars (back.map glyphOf ++ rest) →
    test clue = some true → Runs d p (k + 1) rule c
      (some ([make (bytesOf front) (bytesOf (front ++ chars))], here (front ++ chars) back rest))
  relocates {offset : Nat → Nat} {start stop : Nat} :
    (make start stop).relocate offset = make (offset start) (offset stop)

theorem TokenRule.happens {test : Clue → Option Bool} {make : Nat → Nat → Node}
    (hrule : TokenRule d p rule test make) (hclose : ∀ no, test (.close no) ≠ some true)
    (h : Stands offset lineBreak rest o c) (hk : rest.length + 2 < k) :
    (o.token test make).Happens d p k rule offset lineBreak rest c := by
  obtain ⟨place, clues⟩ := o
  obtain ⟨k, rfl⟩ : ∃ n, k = n + 1 := ⟨k - 1, by omega⟩
  cases clues with
  | nil => trivial
  | cons clue clues =>
      unfold Outline.token
      dsimp only
      split
      · rename_i htest
        cases h with
        | @token _ _ _ front gap chars back hplace hgap hbefore hshows hmore =>
            have hskips := skips_gap front hgap hshows.settled
            have hoffset := hmore.offset_eq (by
              unfold Outline.known before
              split
              · simp; omega
              · rfl)
            refine ⟨_, hmore, ?_⟩
            have hruns := hrule.reads (hskips.mono (show 1 ≤ k by omega)) hshows htest
            rw [hbefore, show bytesOf (front ++ gap ++ chars) = offset (before place + 1) from hoffset,
              ← hrule.relocates] at hruns
            exact hruns
        | close => exact absurd htest (hclose _)
        | closed => exact absurd htest (hclose _)
      · rename_i htest
        obtain ⟨c', hcomes, hahead⟩ := h.ahead
        exact hrule.refuses (hcomes.mono (by omega)) hahead htest
      · trivial

theorem relocate_token (text : String) (start stop : Nat) :
    (Node.token text start stop).relocate offset = Node.token text (offset start) (offset stop) :=
  Node.relocate_mk ..

theorem relocate_leaf (kind : Kind) (start stop : Nat) :
    (Node.leaf kind start stop).relocate offset = Node.leaf kind (offset start) (offset stop) :=
  Node.relocate_mk ..

theorem tokenRule_mark (text : String) (notBefore : List Char) :
    TokenRule d p (.mark text notBefore) (Clue.mark? text notBefore) (Node.token text) where
  refuses hcomes hahead htest := Runs.mark_none hcomes (Clue.mark?_false htest hahead)
  reads hskips hshows htest := by
    obtain ⟨hchars, hnext⟩ := Clue.mark?_true htest hshows
    exact Runs.mark_here hchars hskips hnext
  relocates := relocate_token ..

theorem tokenRule_keyword (text : String) :
    TokenRule d p (.keyword text) (Clue.keyword? text) (Node.token text) where
  refuses hcomes hahead htest := Runs.keyword_none hcomes (Clue.keyword?_false htest hahead)
  reads hskips hshows htest := by
    obtain ⟨hchars, hword, hend⟩ := Clue.keyword?_true htest hshows
    exact Runs.keyword_here hchars hword hskips hend
  relocates := relocate_token ..

theorem tokenRule_name (kind : Kind) (except : List String) :
    TokenRule d p (.name kind except) (Clue.name? except) (Node.leaf kind) where
  refuses hcomes hahead htest := by
    rcases Clue.name?_false htest hahead with hnone | hexcept
    · exact Runs.name_none hcomes hnone
    · exact Runs.name_except hcomes hexcept
  reads hskips hshows htest := by
    obtain ⟨hword, hend, hexcept⟩ := Clue.name?_true htest hshows
    exact Runs.name_here hword hskips hend hexcept
  relocates := relocate_leaf ..

theorem tokenRule_lexeme (kind : Kind) (literal : Lexeme.Class) :
    TokenRule d p (.lexeme kind false literal) (Clue.lexeme? literal) (Node.leaf kind) where
  refuses hcomes hahead htest := Runs.lexeme_none hcomes (Clue.lexeme?_false htest hahead)
  reads hskips hshows htest := by
    obtain ⟨rfl, quote, path, hquote, hpath, rfl⟩ := Clue.lexeme?_true htest hshows
    exact Runs.string_here hquote hpath hskips
  relocates := relocate_leaf ..

/-! ## Ends of statements -/

/-- On the line of a token no statement ends in front of it, but at a closing brace. -/
theorem lineEnd_token {front gap chars back : List Char} {clue : Clue} (hgap : gap = [] ∨ gap = [' '])
    (hshows : clue.Shows chars (back.map glyphOf ++ rest)) (fuel : Nat) :
    lineEnd d.endsLine (fuel + 1) (here front (gap ++ (chars ++ back)) rest) =
      if chars.head? = some '\x7d' then some ([], here front (gap ++ (chars ++ back)) rest)
      else none := by
  obtain ⟨ch, more, rfl, hblank, hslash⟩ := hshows.head
  have hline : d.endsLine ch = false := by
    rw [Bool.eq_false_iff]
    intro hline
    have hends : ch = '\n' ∨ ch = '\u2028' ∨ ch = '\u2029' := by
      cases d <;> grind [Dialect.endsLine]
    rcases hends with rfl | rfl | rfl <;> exact absurd hblank (by decide)
  have hspace : d.endsLine ' ' = false := by cases d <;> rfl
  have hcomment : Lexeme.comment (glyphOf ch :: (more.map glyphOf ++ (back.map glyphOf ++ rest))) =
      none := by
    unfold Lexeme.comment
    split
    · rename_i a b gs hgs
      obtain rfl : glyphOf ch = a := by simpa using congrArg List.head? hgs
      simp [glyphOf, hslash]
    · rfl
  have hdrop : (here front (gap ++ (ch :: more ++ back)) rest).rest.drop
      (Lexeme.runLength (fun ch => Lexeme.isBlank ch && !d.endsLine ch)
        (here front (gap ++ (ch :: more ++ back)) rest).rest) =
      glyphOf ch :: (more.map glyphOf ++ (back.map glyphOf ++ rest)) := by
    have hstop : Lexeme.isBlank ' ' = true := rfl
    rcases hgap with rfl | rfl <;>
      simp [here, Lexeme.runLength, glyphOf, hblank, hspace, hstop]
  rw [lineEnd]
  dsimp only
  rw [hdrop]
  dsimp only
  rw [hcomment]
  simp [glyphOf, hline]

theorem Clue.Shows.head_eq_brace {clue : Clue} {chars : List Char} {behind : List Glyph}
    (h : clue.Shows chars behind) : chars.head? = some '\x7d' ↔ ∃ nexts, clue = .mark '\x7d' nexts := by
  cases clue with
  | word w =>
      obtain ⟨ch, more, rfl, -⟩ := h.2.1.start
      simpa using h.2.1.head_ne rfl
  | name no =>
      obtain ⟨ch, more, rfl, -⟩ := h.1.start
      simpa using h.1.head_ne rfl
  | mark ch nexts =>
      obtain ⟨rfl, -⟩ := h
      simp
  | text =>
      obtain ⟨quote, path, hquote, -, rfl⟩ := h
      rcases hquote with rfl | rfl <;> simp
  | close no => cases h

/-- Whether a statement may end here is as the outline has it. -/
theorem Stands.ends {ends : Bool} (h : Stands offset lineBreak rest o c) (hends : o.ends? = some ends)
    {fuel : Nat} (hfuel : rest.length < fuel) :
    lineEnd d.endsLine fuel c = if ends then some ([], c) else none := by
  obtain ⟨fuel, rfl⟩ : ∃ n, fuel = n + 1 := ⟨fuel - 1, by omega⟩
  cases h with
  | nil => cases hends
  | @token place clue clues front gap chars back hplace hgap hbefore hshows hmore =>
      have hbrace : chars.head? = some '\x7d' ↔ ends = true := by
        rw [hshows.head_eq_brace]
        cases clue with
        | mark ch nexts =>
            obtain rfl : (ch == '\x7d') = ends := by simpa [Outline.ends?] using hends
            simp
        | close => cases hshows
        | _ =>
            obtain rfl : false = ends := by simpa [Outline.ends?] using hends
            simp
      rw [lineEnd_token hgap hshows]
      simp only [hbrace]
  | @close place no front hplace heven hbreak hfollows =>
      obtain rfl : true = ends := by simpa [Outline.ends?, heven] using hends
      exact lineEnd_break hbreak hfollows.mayStart hfuel
  | @closed place no c hodd => simp [Outline.ends?, hodd] at hends

/-! ## Lists of rules and links -/

/-- Forecasts of rules at all cursors that fit happen from the depth `k` on. -/
def Trusted (d : Dialect) (p : Place) (k : Nat) (offset : Nat → Nat) (lineBreak : List Char) (rest : List Glyph)
    (forecast : Production → Outline → Forecast) : Prop :=
  ∀ {rule : Production} {o : Outline} {c : Cursor}, Stands offset lineBreak rest o c →
    (forecast rule o).Happens d p k rule offset lineBreak rest c

variable {forecast : Production → Outline → Forecast} {links : List (Link Symbol)} {left : Node}

theorem predictSeq_happens (hk : 0 < k) (hforecast : Trusted d p k offset lineBreak rest forecast) :
    ∀ (rules : List Production) {o : Outline} {c : Cursor}, Stands offset lineBreak rest o c →
      match predictSeq forecast rules o with
      | .refuses => RunsAll d p k rules c none
      | .reads ns after => ∃ c', Stands offset lineBreak rest after c' ∧
          RunsAll d p k rules c (some (ns.map (Node.relocate offset), c'))
      | .unknown => True
  | [], o, c, h => ⟨c, h, .nil⟩
  | rule :: rules, o, c, h => by
      have hrule := @hforecast rule _ _ h
      unfold predictSeq
      cases hhead : forecast rule o with
      | refuses =>
          rw [hhead] at hrule
          exact .head hrule
      | reads ns after =>
          rw [hhead] at hrule
          obtain ⟨c', hafter, hrule⟩ := hrule
          have hrules := predictSeq_happens hk hforecast rules hafter
          dsimp only
          cases htail : predictSeq forecast rules after with
          | refuses =>
              rw [htail] at hrules
              exact .tail hrule hrules
          | reads ms last =>
              rw [htail] at hrules
              obtain ⟨c'', hlast, hrules⟩ := hrules
              refine ⟨c'', hlast, ?_⟩
              rw [List.map_append]
              exact .cons hrule hrules
          | unknown => trivial
      | unknown =>
          have hrules := predictSeq_happens hk hforecast rules h
          dsimp only
          cases htail : predictSeq forecast rules o with
          | refuses =>
              rw [htail] at hrules
              cases rule with
              | joined => exact hrules.joined hk
              | _ => trivial
          | reads ms last => trivial
          | unknown => trivial

theorem predictAlt_happens (hforecast : Trusted d p k offset lineBreak rest forecast) (h : Stands offset lineBreak rest o c) :
    ∀ rules : List Production, match predictAlt forecast rules o with
      | .refuses => RunsFirst d p k rules c none
      | .reads ns after => ∃ c', Stands offset lineBreak rest after c' ∧
          RunsFirst d p k rules c (some (ns.map (Node.relocate offset), c'))
      | .unknown => True
  | [] => .nil
  | rule :: rules => by
      have hrule := @hforecast rule _ _ h
      rw [predictAlt]
      cases hhead : forecast rule o with
      | refuses =>
          rw [hhead] at hrule
          have hrules := predictAlt_happens hforecast h rules
          dsimp only
          cases htail : predictAlt forecast rules o with
          | refuses =>
              rw [htail] at hrules
              exact .there hrule hrules
          | reads ms last =>
              rw [htail] at hrules
              obtain ⟨c', hlast, hrules⟩ := hrules
              exact ⟨c', hlast, .there hrule hrules⟩
          | unknown => trivial
      | reads ns after =>
          rw [hhead] at hrule
          obtain ⟨c', hafter, hrule⟩ := hrule
          exact ⟨c', hafter, .here hrule⟩
      | unknown => trivial

/-- An operand in its role. -/
def inRole (part : Option Role) (left : Node) : Node :=
  match part with
  | some r => left.withRole r
  | none => left

theorem relocate_inRole (part : Option Role) :
    (inRole part left).relocate offset = inRole part (left.relocate offset) := by
  cases part with
  | none => rfl
  | some r => exact Node.relocate_withRole r left

theorem RunsLinks.fits {kind : Kind} {part : Option Role} {onto : List Kind} {tail : Production}
    {ns : List Node} {last : Cursor} (honto : (onto.isEmpty || onto.any left.hasKind) = true)
    (h : Runs d p k tail c (some (ns, last))) :
    RunsLinks d p k left (.mk kind part onto tail :: links) c
      (some (.mk (.kind kind) none left.start last.offset (inRole part left :: ns), last)) := by
  intro fuel hfuel
  unfold runLinks
  rw [if_pos honto, h fuel hfuel]
  rfl

theorem RunsLinks.misfits {kind : Kind} {part : Option Role} {onto : List Kind} {tail : Production}
    {result : Option (Node × Cursor)} (honto : (onto.isEmpty || onto.any left.hasKind) = false)
    (h : RunsLinks d p k left links c result) :
    RunsLinks d p k left (.mk kind part onto tail :: links) c result := by
  intro fuel hfuel
  unfold runLinks
  rw [if_neg (by simp [honto])]
  exact h fuel hfuel

theorem predictLinks_happens (left : Node) (hforecast : Trusted d p k offset lineBreak rest forecast)
    (h : Stands offset lineBreak rest o c) : ∀ links : List (Link Symbol),
      match predictLinks forecast left links o with
      | some none => RunsLinks d p k (left.relocate offset) links c none
      | some (some (node, after)) => ∃ c', Stands offset lineBreak rest after c' ∧
          RunsLinks d p k (left.relocate offset) links c (some (node.relocate offset, c'))
      | none => True
  | [] => fun _ _ => rfl
  | .mk kind part onto tail :: links => by
      have hkinds : (left.relocate offset).hasKind = left.hasKind := funext fun kind => by simp
      have htail := @hforecast tail _ _ h
      have hlinks := predictLinks_happens left hforecast h links
      unfold predictLinks
      cases honto : onto.isEmpty || onto.any left.hasKind with
      | false =>
          rw [if_neg Bool.false_ne_true]
          have honto' : (onto.isEmpty || onto.any (left.relocate offset).hasKind) = false := by
            rw [hkinds, honto]
          split at hlinks
          · exact .misfits honto' hlinks
          · obtain ⟨c', hafter, hlinks⟩ := hlinks
            exact ⟨c', hafter, .misfits honto' hlinks⟩
          · trivial
      | true =>
          rw [if_pos rfl]
          have honto' : (onto.isEmpty || onto.any (left.relocate offset).hasKind) = true := by
            rw [hkinds, honto]
          cases hpredicted : forecast tail o with
          | refuses =>
              rw [hpredicted] at htail
              dsimp only
              split at hlinks
              · exact .tail htail hlinks
              · obtain ⟨c', hafter, hlinks⟩ := hlinks
                exact ⟨c', hafter, .tail htail hlinks⟩
              · trivial
          | reads ns after =>
              rw [hpredicted] at htail
              obtain ⟨c', hafter, htail⟩ := htail
              dsimp only
              by_cases hknown : after.known = true
              · rw [if_pos hknown]
                refine ⟨c', hafter, ?_⟩
                have hruns := @RunsLinks.fits _ _ _ _ links _ kind part _ _ _ _ honto' htail
                rw [hafter.offset_eq hknown, Node.relocate_start] at hruns
                rw [Node.relocate_mk, List.map_cons]
                change RunsLinks d p k _ _ c (some (.mk _ _ _ _
                  ((inRole part left).relocate offset :: _), c'))
                rw [relocate_inRole]
                exact hruns
              · rw [if_neg hknown]
                trivial
          | unknown => trivial

theorem predictChain_happens (hforecast : Trusted d p k offset lineBreak rest forecast) :
    ∀ {limit : Nat} {left whole : Node} {o last : Outline} {c : Cursor}, Stands offset lineBreak rest o c →
      predictChain forecast links limit left o = some (whole, last) →
      ∃ c', Stands offset lineBreak rest last c' ∧
        RunsChain d p k limit (left.relocate offset) links c (whole.relocate offset, c')
  | 0, _, _, _, _, _, _, hpredict => by cases hpredict
  | limit + 1, left, whole, o, last, c, h, hpredict => by
      have hlinks := predictLinks_happens left hforecast h links
      rw [predictChain] at hpredict
      cases hstep : predictLinks forecast left links o with
      | none =>
          rw [hstep] at hpredict
          cases hpredict
      | some next =>
          rw [hstep] at hpredict hlinks
          cases next with
          | none =>
              cases hpredict
              exact ⟨c, h, .stop hlinks⟩
          | some link =>
              obtain ⟨node, after⟩ := link
              obtain ⟨c', hafter, hlinks⟩ := hlinks
              obtain ⟨c'', hlast, hchain⟩ := predictChain_happens hforecast hafter hpredict
              exact ⟨c'', hlast, .step hlinks hchain⟩

/-! ## All rules -/

/-- A rule that goes down by one to another rule at the same cursor. -/
theorem Forecast.Happens.descend {inner : Production} {q : Place} {result : Forecast}
    (hrun : ∀ {outcome : Option Reading}, Runs d q k inner c outcome → Runs d p (k + 1) rule c outcome)
    (h : result.Happens d q k inner offset lineBreak rest c) :
    result.Happens d p (k + 1) rule offset lineBreak rest c := by
  cases result with
  | refuses => exact hrun h
  | reads ns after =>
      obtain ⟨c', hafter, hruns⟩ := h
      exact ⟨c', hafter, hrun hruns⟩
  | unknown => trivial

theorem Runs.notAhead {ns : List Node} {last : Cursor} (h : Runs d p k rule c (some (ns, last))) :
    Runs d p (k + 1) (.notAhead rule) c none :=
  runs_succ fun fuel hfuel => by simp only [Rule.run, h fuel hfuel]

theorem Runs.ahead_none (h : Runs d p k rule c none) : Runs d p (k + 1) (.ahead rule) c none :=
  runs_succ fun fuel hfuel => by simp only [Rule.run, h fuel hfuel, Option.map_none]

theorem Runs.chain_none {base : Production} (h : Runs d p k base c none) :
    Runs d p (k + 1) (.chain base links) c none :=
  runs_succ fun fuel hfuel => by simp only [Rule.run, h fuel hfuel]

theorem Runs.of_lineEnd {result : Option Reading}
    (h : ∀ fuel, k ≤ fuel → lineEnd d.endsLine fuel c = result) :
    Runs d p (k + 1) .semicolon c result :=
  runs_succ fun fuel hfuel => h fuel hfuel

theorem Runs.joined {ends : Option Reading}
    (h : ∀ fuel, k ≤ fuel → lineEnd d.endsLine fuel c = ends) :
    Runs d .statement (k + 1) .joined c (if ends.isSome then none else some ([], c)) :=
  runs_succ fun fuel hfuel => by
    simp only [Rule.run, h fuel hfuel]
    cases ends <;> rfl

/-- A definite forecast is what happens on every text that the outline fits. -/
theorem predict_sound : ∀ (depth : Nat) {p : Place} {rule : Production} {o : Outline} {c : Cursor},
    Stands offset lineBreak rest o c →
    (predict d depth p rule o).Happens d p (rest.length + 3 + depth) rule offset lineBreak rest c
  | 0, _, _, _, _, _ => trivial
  | depth + 1, p, rule, ⟨place, []⟩, c, h => trivial
  | depth + 1, p, rule, ⟨place, clue :: clues⟩, c, h => by
      have hk : rest.length + 2 < rest.length + 3 + (depth + 1) := by omega
      have ih {q : Place} : Trusted d q (rest.length + 3 + depth) offset lineBreak rest (predict d depth q) :=
        fun hstands => predict_sound depth hstands
      obtain ⟨c₀, hcomes, hsettled, hskips⟩ := h.settle (List.cons_ne_nil _ _)
      have hcomes := hcomes.mono (show rest.length + 2 ≤ rest.length + 3 + depth by omega)
      cases rule with
      | mark text notBefore =>
          exact (tokenRule_mark text notBefore).happens (by simp [Clue.mark?]) h hk
      | keyword text => exact (tokenRule_keyword text).happens (by simp [Clue.keyword?]) h hk
      | name kind except => exact (tokenRule_name kind except).happens (by simp [Clue.name?]) h hk
      | lexeme kind raw literal =>
          cases raw with
          | true => trivial
          | false => exact (tokenRule_lexeme kind literal).happens (by simp [Clue.lexeme?]) h hk
      | seq rules =>
          have hrules := predictSeq_happens (by omega) (@ih p) rules h
          simp only [predict]
          cases hresult : predictSeq (predict d depth p) rules ⟨place, clue :: clues⟩ <;>
            rw [hresult] at hrules
          · exact .seq hrules
          · obtain ⟨c', hafter, hrules⟩ := hrules
            exact ⟨c', hafter, .seq hrules⟩
          · trivial
      | alt rules =>
          have hrules := predictAlt_happens (@ih p) h rules
          simp only [predict]
          cases hresult : predictAlt (predict d depth p) rules ⟨place, clue :: clues⟩ <;>
            rw [hresult] at hrules
          · exact .alt hrules
          · obtain ⟨c', hafter, hrules⟩ := hrules
            exact ⟨c', hafter, .alt hrules⟩
          · trivial
      | opt rule =>
          have hrule := @ih p rule _ _ h
          simp only [predict]
          cases hresult : predict d depth p rule ⟨place, clue :: clues⟩ <;> rw [hresult] at hrule
          · exact ⟨c, h, .opt_none hrule⟩
          · obtain ⟨c', hafter, hrule⟩ := hrule
            exact ⟨c', hafter, .opt hrule⟩
          · trivial
      | many rule =>
          have hrule := @ih p rule _ _ h
          simp only [predict]
          cases hresult : predict d depth p rule ⟨place, clue :: clues⟩ <;> rw [hresult] at hrule
          · exact ⟨c, h, .many_none hrule⟩
          · trivial
          · trivial
      | ahead rule =>
          have hrule := @ih p rule _ _ h
          simp only [predict]
          cases hresult : predict d depth p rule ⟨place, clue :: clues⟩ <;> rw [hresult] at hrule
          · exact .ahead_none hrule
          · obtain ⟨c', -, hrule⟩ := hrule
            exact ⟨c, h, .ahead hrule⟩
          · trivial
      | notAhead rule =>
          have hrule := @ih p rule _ _ h
          simp only [predict]
          cases hresult : predict d depth p rule ⟨place, clue :: clues⟩ <;> rw [hresult] at hrule
          · exact ⟨c, h, .notAhead_none hrule⟩
          · obtain ⟨c', -, hrule⟩ := hrule
            exact .notAhead hrule
          · trivial
      | node kind rule =>
          have hrule := @ih p rule _ _ hsettled
          simp only [predict]
          cases hresult : predict d depth p rule (Outline.settle ⟨place, clue :: clues⟩) <;>
            rw [hresult] at hrule
          · exact .node_none hcomes hrule
          · rename_i ns after
            obtain ⟨c', hafter, hrule⟩ := hrule
            dsimp only
            split
            · rename_i hknown
              rw [Bool.and_eq_true] at hknown
              refine ⟨c', hafter, ?_⟩
              have hnode := @Runs.node _ _ _ _ _ _ _ _ _ kind
                ((hskips hknown.1).mono (show rest.length + 2 ≤ rest.length + 3 + depth by omega)) hrule
              rw [hsettled.offset_eq hknown.1, hafter.offset_eq hknown.2, List.nil_append] at hnode
              rw [List.map_singleton, Node.relocate_mk]
              exact hnode
            · trivial
          · trivial
      | role part rule =>
          have hrule := @ih p rule _ _ h
          simp only [predict]
          cases hresult : predict d depth p rule ⟨place, clue :: clues⟩ <;> rw [hresult] at hrule
          · exact .role_none hrule
          · obtain ⟨c', hafter, hrule⟩ := hrule
            refine ⟨c', hafter, ?_⟩
            rw [← assignRole_relocate]
            exact .role hrule
          · trivial
      | call symbol => exact (ih h).descend Runs.call
      | chain base links =>
          have hbase := @ih p base _ _ h
          simp only [predict]
          split
          · rename_i hresult
            rw [hresult] at hbase
            exact .chain_none hbase
          · rename_i left after hresult
            rw [hresult] at hbase
            obtain ⟨c', hafter, hbase⟩ := hbase
            split
            · rename_i whole last hchain
              obtain ⟨c'', hlast, hlinks⟩ := predictChain_happens (@ih p) hafter hchain
              exact ⟨c'', hlast, .chain hbase hlinks (Nat.le_add_left _ _)⟩
            · trivial
          · trivial
      | fresh rule =>
          have hrule := @ih p rule _ _ hsettled
          simp only [predict]
          cases hresult : predict d depth p rule (Outline.settle ⟨place, clue :: clues⟩) <;>
            rw [hresult] at hrule
          · exact .fresh_none hcomes hrule
          · obtain ⟨c', hafter, hrule⟩ := hrule
            dsimp only
            split
            · rename_i hknown
              exact ⟨c', hafter, .fresh
                ((hskips hknown).mono (show rest.length + 2 ≤ rest.length + 3 + depth by omega)) hrule⟩
            · trivial
          · trivial
      | inside inner rule => exact (ih h).descend Runs.inside
      | outside place =>
          simp only [predict]
          split
          · rename_i heq
            exact runs_succ fun fuel _ => if_pos heq
          · rename_i hne
            exact ⟨c, h, runs_succ fun fuel _ => if_neg hne⟩
      | semicolon =>
          simp only [predict]
          cases hends : Outline.ends? ⟨place, clue :: clues⟩ with
          | none => trivial
          | some ends =>
              have hruns := @Runs.of_lineEnd d p (rest.length + 3 + depth) _ _
                fun fuel hfuel => h.ends hends
                (show rest.length < fuel by omega)
              cases ends with
              | true => exact ⟨c, h, hruns⟩
              | false => exact hruns
      | joined =>
          simp only [predict]
          split
          · rename_i heq
            subst heq
            cases hends : Outline.ends? ⟨place, clue :: clues⟩ with
            | none => trivial
            | some ends =>
                have hruns := @Runs.joined d (rest.length + 3 + depth) _ _
                  fun fuel hfuel => h.ends hends
                  (show rest.length < fuel by omega)
                cases ends with
                | true => exact hruns
                | false => exact ⟨c, h, hruns⟩
          · rename_i hne
            exact ⟨c, h, runs_succ fun fuel _ => if_neg hne⟩
      | group => trivial

end Syntax

end ImportAssist
