import ImportAssist.Proofs.ReadingDepth

/-!
# Two readings in lockstep

Two sources that differ in one place only are read in the same way, as long as their tokens are. `LockStep`
says what has to be known about tokens and about what is skipped between them; from that every rule does the
same on both sides, up to where the nodes stand (`Rule.run_lockstep`), and so do the readers of statements
(`readBody_lockstep`).

In front of the place where the sources differ there may be tokens that look further than others do: those
of a template or of markup. A rule is *tame* if it reads none of these before the mark that opens them.

That more fuel than enough changes nothing is the case of a source beside itself (`Rule.run_enough`).
-/

namespace ImportAssist

open Syntax

variable {σ : Type}

/-! ## Tame rules -/

/-- The literals that may be read anywhere. -/
def Lexeme.Class.isTame : Lexeme.Class → Bool
  | .string | .number | .regex | .privateName | .markupComment => true
  | _ => false

/-- Whether a text has no quote in it, and no slash but at its start. -/
def isTameMark (text : String) : Bool :=
  text.toList.all (fun ch => ch != '\x27' && ch != '"') && !text.toList.tail.contains '/'

/-- Whether a rule starts with the mark that opens a template or markup. -/
def Rule.isOpening : Rule σ → Bool
  | .mark text _ => text.toList.head?.any fun ch => ch == '\x60' || ch == '<'
  | _ => false

mutual

/-- Whether a rule reads what is in a template or in markup behind its opening only. -/
def Rule.isTame : Rule σ → Bool
  | .mark text _ | .keyword text => isTameMark text
  | .lexeme _ raw literal => !raw && literal.isTame
  | .seq rules => isTameSeq rules
  | .alt rules => allTame rules
  | .opt rule | .many rule | .ahead rule | .notAhead rule | .node _ rule | .role _ rule | .fresh rule
  | .inside _ rule => rule.isTame
  | .chain base links => base.isTame && linksTame links
  | .name .. | .call _ | .outside _ | .semicolon | .joined | .group => true

def isTameSeq : List (Rule σ) → Bool
  | [] => true
  | rule :: rules => rule.isTame && (rule.isOpening || isTameSeq rules)

def allTame : List (Rule σ) → Bool
  | [] => true
  | rule :: rules => rule.isTame && allTame rules

def Link.isTame : Link σ → Bool
  | .mk _ _ _ tail => tail.isTame

def linksTame : List (Link σ) → Bool
  | [] => true
  | link :: links => link.isTame && linksTame links

end

theorem tame_grammar (d : Dialect) (symbol : Symbol) : (grammar d symbol).isTame = true := by
  cases d <;> cases symbol <;> rfl

/-! ## Readings side by side -/

/-- The same nodes, but for where they stand, and cursors that correspond. -/
def Syntax.Reading.Moved (f : Nat → Nat) (R : Cursor → Cursor → Prop) (r r' : Reading) : Prop :=
  r'.1 = r.1.map (Node.relocate f) ∧ R r.2 r'.2

/-- Both readers fail, or both succeed alike. -/
def Agree (f : Nat → Nat) (R : Cursor → Cursor → Prop) : Option Reading → Option Reading → Prop :=
  Option.Rel (Reading.Moved f R)

/-- Cursors that correspond have the same tokens ahead. In front of `bound` this is known of tame tokens
only, and there no template or markup opens. -/
structure LockStep (σ : Type) (endsLine : Char → Bool) (f : Nat → Nat) (bound : Nat)
    (R : Cursor → Cursor → Prop) : Prop where
  order : ∀ {c c' e e' : Cursor}, R c c' → R e e' → (e.offset ≤ c.offset ↔ e'.offset ≤ c'.offset)
  offset : ∀ {c c' : Cursor}, R c c' → c'.offset = f c.offset
  finished : ∀ {c c' : Cursor}, R c c' → c.rest.isEmpty = c'.rest.isEmpty
  skip : ∀ {c c' : Cursor}, R c c' →
    Reading.Moved f R (trivia c.rest.length c) (trivia c'.rest.length c')
  skip_front : ∀ {c c' : Cursor}, R c c' → c.offset < bound →
    (trivia c.rest.length c).2.offset < bound
  ends : ∀ {c c' : Cursor}, R c c' →
    Agree f R (lineEnd endsLine (c.rest.length + 1) c) (lineEnd endsLine (c'.rest.length + 1) c')
  token : ∀ {c c' : Cursor} {rule : Rule σ} {scan : List Glyph → Option Nat}, R c c' →
    rule.scan? = some scan → (rule.isRaw = false → c.Settled) →
    (c.offset < bound → rule.isTame = true) →
    Option.Rel (fun n n' => R (c.advance n) (c'.advance n')) (scan c.rest) (scan c'.rest)
  opening : ∀ {c c' : Cursor} {rule : Rule σ} {scan : List Glyph → Option Nat}, R c c' →
    c.offset < bound → c.Settled → rule.isOpening = true → rule.scan? = some scan → scan c.rest = none

theorem Rule.tokenNodes_relocate (f : Nat → Nat) (start stop : Nat) (rule : Rule σ) :
    (rule.tokenNodes start stop).map (Node.relocate f) = rule.tokenNodes (f start) (f stop) := by
  cases rule <;> simp [Rule.tokenNodes, Node.relocate_mk, Node.token, Node.leaf]

theorem lineEnd_agree (endsLine : Char → Bool) : ∀ {fuel fuel' : Nat} {c : Cursor},
    c.rest.length < fuel → c.rest.length < fuel' → lineEnd endsLine fuel c = lineEnd endsLine fuel' c
  | 0, _, _, h, _ => absurd h (Nat.not_lt_zero _)
  | _, 0, _, _, h => absurd h (Nat.not_lt_zero _)
  | fuel + 1, fuel' + 1, c, h, h' => by
      rw [lineEnd, lineEnd]
      dsimp only
      split
      · rfl
      · rename_i g rest hrest
        have hlength : (g :: rest).length ≤ c.rest.length := by
          rw [← hrest, List.length_drop]
          exact Nat.sub_le _ _
        rw [List.length_cons] at hlength
        have htrivia : trivia fuel ⟨0, rest⟩ = trivia fuel' ⟨0, rest⟩ :=
          trivia_agree (by dsimp only; omega) (by dsimp only; omega)
        rw [htrivia]
        split
        · rfl
        · split
          · rfl
          · split
            · rename_i n hn
              have hpos := comment_pos hn
              have hmore (blanks : Nat) : lineEnd endsLine fuel ((c.advance blanks).advance n) =
                  lineEnd endsLine fuel' ((c.advance blanks).advance n) := by
                have hadvance := Cursor.length_advance n (c.advance blanks)
                have hblanks := Cursor.length_advance blanks c
                exact lineEnd_agree endsLine (by omega) (by omega)
              rw [hmore]
            · rfl

section

variable {grammar : σ → Rule σ} {endsLine : Char → Bool} {f : Nat → Nat} {bound : Nat}
  {R : Cursor → Cursor → Prop} {rank : σ → Nat} {worth : Nat}

/-- A token is read alike. -/
theorem run_token_lockstep (hlock : LockStep σ endsLine f bound R) {fuel fuel' : Nat} {place : Place}
    {rule : Rule σ} {scan : List Glyph → Option Nat} {c c' : Cursor} (hscan : rule.scan? = some scan)
    (hc : c.rest.length ≤ fuel) (hc' : c'.rest.length ≤ fuel') (h : R c c')
    (htame : c.offset < bound → rule.isTame = true) :
    Agree f R (rule.run grammar endsLine (fuel + 1) place c)
      (rule.run grammar endsLine (fuel' + 1) place c') := by
  have hskipped : Reading.Moved f R (rule.skipped fuel c) (rule.skipped fuel' c') ∧
      (rule.isRaw = false → (rule.skipped fuel c).2.Settled) ∧
      c.offset ≤ (rule.skipped fuel c).2.offset := by
    unfold Rule.skipped
    cases hraw : rule.isRaw with
    | true => exact ⟨⟨rfl, h⟩, nofun, Nat.le_refl _⟩
    | false =>
        simp only [Bool.false_eq_true, if_false]
        refine ⟨?_, fun _ => trivia_settled hc, offset_le_trivia fuel c⟩
        rw [trivia_stable hc, trivia_stable hc']
        exact hlock.skip h
  obtain ⟨⟨hnodes, hcursor⟩, hsettled, hle⟩ := hskipped
  rw [Rule.run_token hscan, Rule.run_token hscan]
  have htoken := hlock.token hcursor hscan hsettled fun hfront => htame (Nat.lt_of_le_of_lt hle hfront)
  generalize rule.skipped fuel c = s, rule.skipped fuel' c' = s' at hnodes hcursor htoken
  generalize scan s.2.rest = n?, scan s'.2.rest = n?' at htoken
  cases htoken with
  | none => exact .none
  | some hn =>
      refine .some ⟨?_, hn⟩
      dsimp only
      rw [List.map_append, Rule.tokenNodes_relocate, hnodes, hlock.offset hcursor, hlock.offset hn]

/-- In front of the bound nothing opens. -/
theorem run_opening_none (hlock : LockStep σ endsLine f bound R) {fuel : Nat} {place : Place} {rule : Rule σ}
    {c c' : Cursor} (hc : c.rest.length ≤ fuel) (h : R c c') (hfront : c.offset < bound)
    (hopening : rule.isOpening = true) : rule.run grammar endsLine (fuel + 1) place c = none := by
  cases rule with
  | mark text notBefore =>
      have hnone := hlock.opening (hlock.skip h).2 (hlock.skip_front h hfront) (trivia_settled (Nat.le_refl _))
        hopening rfl
      rw [Rule.run_token rfl, Rule.skipped]
      simp only [Rule.isRaw, Bool.false_eq_true, if_false]
      rw [trivia_stable hc, hnone]
      rfl
  | _ => cases hopening

/-- What a rule does with some fuel in the one source it does with other fuel in the other one, if both
are enough. -/
def Paired (grammar : σ → Rule σ) (endsLine : Char → Bool) (f : Nat → Nat) (bound : Nat)
    (R : Cursor → Cursor → Prop) (rank : σ → Nat) (worth fuel fuel' : Nat) (place : Place) : Prop :=
  ∀ {rule : Rule σ} {c c' : Cursor}, rule.Fits rank worth fuel c → rule.Fits rank worth fuel' c' → R c c' →
    (c.offset < bound → rule.isTame = true) →
    Agree f R (rule.run grammar endsLine fuel place c) (rule.run grammar endsLine fuel' place c')

variable {fuel fuel' : Nat} {place : Place} {c c' after : Cursor} {rule : Rule σ}

theorem offset_run_le {ns : List Node} (h : rule.run grammar endsLine fuel place c = some (ns, after)) :
    c.offset ≤ after.offset := by
  obtain ⟨n, hn⟩ := Rule.run_forward h
  dsimp only at hn
  rw [hn]
  exact Cursor.offset_le_advance n c

theorem opening_fails (hlock : LockStep σ endsLine f bound R) (hworth : 0 < worth) (h : R c c')
    (hfits : rule.Fits rank worth fuel c) (hfront : c.offset < bound) (hopening : rule.isOpening = true) :
    rule.run grammar endsLine fuel place c = none := by
  have hdepth : 2 ≤ rule.depth rank := by
    cases rule with
    | mark text notBefore => exact Nat.le_refl _
    | _ => cases hopening
  have henough := hfits.enough
  have hle := le_worth_mul hworth c.rest.length
  obtain ⟨k, rfl⟩ : ∃ k, fuel = k + 1 := ⟨fuel - 1, by omega⟩
  exact run_opening_none hlock (by omega) h hfront hopening

theorem runSeq_lockstep (hgrammar : Graded grammar rank worth) (hlock : LockStep σ endsLine f bound R)
    (hrun : Paired grammar endsLine f bound R rank worth fuel fuel' place) :
    ∀ {rules : List (Rule σ)} {c c' : Cursor}, FitAll rank worth fuel rules c →
      FitAll rank worth fuel' rules c' → R c c' → (c.offset < bound → isTameSeq rules = true) →
      Agree f R (runSeq (Rule.run grammar endsLine fuel place) rules c)
        (runSeq (Rule.run grammar endsLine fuel' place) rules c')
  | [], _, _, _, _, h, _ => .some ⟨rfl, h⟩
  | rule :: rules, c, c', hfit, hfit', h, htame => by
      have hhead (hfront : c.offset < bound) :
          rule.isTame = true ∧ (rule.isOpening || isTameSeq rules) = true := by
        have := htame hfront
        rwa [isTameSeq, Bool.and_eq_true] at this
      have hfirst := hrun hfit.head hfit'.head h fun hfront => (hhead hfront).1
      rw [runSeq, runSeq]
      generalize hr : rule.run grammar endsLine fuel place c = r at hfirst
      generalize hr' : rule.run grammar endsLine fuel' place c' = r' at hfirst
      cases hfirst with
      | none => exact .none
      | @some first first' hmoved =>
          have hmore := runSeq_lockstep hgrammar hlock hrun
            (hfit.tail (Rule.length_run_le hr) fun hbites => Rule.bites_run hgrammar.bites hbites hr)
            (hfit'.tail (Rule.length_run_le hr') fun hbites => Rule.bites_run hgrammar.bites hbites hr')
            hmoved.2 fun hfront => by
              have hc := Nat.lt_of_le_of_lt (offset_run_le hr) hfront
              refine (Bool.or_eq_true _ _ ▸ (hhead hc).2).resolve_left fun hopening => ?_
              have hnone : rule.run grammar endsLine fuel place c = none :=
                opening_fails hlock hgrammar.worth_pos h hfit.head hc hopening
              rw [hr] at hnone
              cases hnone
          dsimp only
          generalize runSeq (Rule.run grammar endsLine fuel place) rules first.2 = s at hmore
          generalize runSeq (Rule.run grammar endsLine fuel' place) rules first'.2 = s' at hmore
          cases hmore with
          | none => exact .none
          | some hlast =>
              refine .some ⟨?_, hlast.2⟩
              dsimp only
              rw [hmoved.1, hlast.1, List.map_append]

theorem runAlt_lockstep (hrun : Paired grammar endsLine f bound R rank worth fuel fuel' place) (h : R c c') :
    ∀ {rules : List (Rule σ)}, (∀ rule ∈ rules, rule.Fits rank worth fuel c) →
      (∀ rule ∈ rules, rule.Fits rank worth fuel' c') → (c.offset < bound → allTame rules = true) →
      Agree f R (runAlt (Rule.run grammar endsLine fuel place) rules c)
        (runAlt (Rule.run grammar endsLine fuel' place) rules c')
  | [], _, _, _ => .none
  | rule :: rules, hfit, hfit', htame => by
      have hhead (hfront : c.offset < bound) : rule.isTame = true ∧ allTame rules = true := by
        have := htame hfront
        rwa [allTame, Bool.and_eq_true] at this
      have hfirst := hrun (hfit rule (List.mem_cons_self ..)) (hfit' rule (List.mem_cons_self ..)) h
        fun hfront => (hhead hfront).1
      have hmore := runAlt_lockstep hrun h (fun other hother => hfit other (List.mem_cons_of_mem _ hother))
        (fun other hother => hfit' other (List.mem_cons_of_mem _ hother)) fun hfront => (hhead hfront).2
      rw [runAlt, runAlt]
      generalize rule.run grammar endsLine fuel place c = r at hfirst
      generalize rule.run grammar endsLine fuel' place c' = r' at hfirst
      cases hfirst with
      | none => exact hmore
      | some hmoved => exact .some hmoved

theorem length_lt_of_offset_lt (h : ∃ n, after = c.advance n) (hlt : c.offset < after.offset) :
    after.rest.length < c.rest.length := by
  obtain ⟨n, rfl⟩ := h
  rw [Cursor.advance_eq] at hlt ⊢
  have hn : n ≠ 0 := by
    rintro rfl
    simp at hlt
  have hne : c.rest.length ≠ 0 := by
    intro hnil
    simp [List.length_eq_zero_iff.mp hnil] at hlt
  rw [List.length_drop]
  omega

theorem repeatRun_lockstep (hlock : LockStep σ endsLine f bound R)
    (hrun : Paired grammar endsLine f bound R rank worth fuel fuel' place) :
    ∀ {m m' : Nat} {done : List (List Node)} {c c' : Cursor}, c.rest.length < m → c'.rest.length < m' →
      rule.Fits rank worth fuel c → rule.Fits rank worth fuel' c' → R c c' →
      (c.offset < bound → rule.isTame = true) →
      Reading.Moved f R (repeatRun (rule.run grammar endsLine fuel place) m done c)
        (repeatRun (rule.run grammar endsLine fuel' place) m' (done.map (List.map (Node.relocate f))) c')
  | 0, _, _, _, _, hm, _, _, _, _, _ => absurd hm (Nat.not_lt_zero _)
  | _, 0, _, _, _, _, hm', _, _, _, _ => absurd hm' (Nat.not_lt_zero _)
  | m + 1, m' + 1, done, c, c', hm, hm', hfit, hfit', h, htame => by
      have hstop : Reading.Moved f R (done.reverse.flatten, c)
          ((done.map (List.map (Node.relocate f))).reverse.flatten, c') :=
        ⟨by simp [List.map_flatten], h⟩
      have hfirst := hrun hfit hfit' h htame
      rw [repeatRun, repeatRun]
      generalize hr : rule.run grammar endsLine fuel place c = r at hfirst
      generalize hr' : rule.run grammar endsLine fuel' place c' = r' at hfirst
      cases hfirst with
      | none => exact hstop
      | @some first first' hmoved =>
          have horder := hlock.order h hmoved.2
          dsimp only
          split
          · rename_i hle
            rw [if_pos (horder.mp hle)]
            exact hstop
          · rename_i hlt
            have hlength := length_lt_of_offset_lt (Rule.run_forward hr) (Nat.lt_of_not_le hlt)
            have hlength' := length_lt_of_offset_lt (Rule.run_forward hr')
              (Nat.lt_of_not_le fun hle => hlt (horder.mpr hle))
            rw [if_neg fun hle => hlt (horder.mpr hle), hmoved.1]
            exact repeatRun_lockstep hlock hrun (by omega) (by omega) (hfit.mono (Nat.le_of_lt hlength))
              (hfit'.mono (Nat.le_of_lt hlength')) hmoved.2
              fun hfront => htame (Nat.lt_of_le_of_lt (offset_run_le hr) hfront)

/-- An operand with what follows it, in both sources. -/
def Grown (f : Nat → Nat) (R : Cursor → Cursor → Prop) (r r' : Node × Cursor) : Prop :=
  r'.1 = r.1.relocate f ∧ R r.2 r'.2

theorem runLinks_lockstep (hlock : LockStep σ endsLine f bound R)
    (hrun : Paired grammar endsLine f bound R rank worth fuel fuel' place) (h : R c c') (left : Node) :
    ∀ {links : List (Link σ)},
      (∀ {kind part onto tail}, .mk kind part onto tail ∈ links →
        tail.Fits rank worth fuel c ∧ tail.Fits rank worth fuel' c') →
      (c.offset < bound → linksTame links = true) →
      Option.Rel (Grown f R) (runLinks (Rule.run grammar endsLine fuel place) left links c)
        (runLinks (Rule.run grammar endsLine fuel' place) (left.relocate f) links c')
  | [], _, _ => .none
  | .mk kind part onto tail :: links, hfit, htame => by
      have hhead (hfront : c.offset < bound) : tail.isTame = true ∧ linksTame links = true := by
        have := htame hfront
        rwa [linksTame, Bool.and_eq_true] at this
      have hfirst := hrun (hfit (List.mem_cons_self ..)).1 (hfit (List.mem_cons_self ..)).2 h
        fun hfront => (hhead hfront).1
      have hmore := runLinks_lockstep hlock hrun h left
        (fun hmem => hfit (List.mem_cons_of_mem _ hmem)) fun hfront => (hhead hfront).2
      have hkind : (left.relocate f).hasKind = left.hasKind := funext fun kind => by simp
      unfold runLinks
      rw [hkind]
      split
      · generalize tail.run grammar endsLine fuel place c = r at hfirst
        generalize tail.run grammar endsLine fuel' place c' = r' at hfirst
        cases hfirst with
        | none => exact hmore
        | some hmoved =>
            refine .some ⟨?_, hmoved.2⟩
            dsimp only
            rw [Node.relocate_mk, Node.relocate_start, hmoved.1, hlock.offset hmoved.2]
            cases part with
            | none => rfl
            | some role => rw [List.map_cons, Node.relocate_withRole]
      · exact hmore

theorem runChain_lockstep (hgrammar : Graded grammar rank worth) (hlock : LockStep σ endsLine f bound R)
    (hrun : Paired grammar endsLine f bound R rank worth fuel fuel' place) {links : List (Link σ)} :
    ∀ {m m' : Nat} (left : Node) {c c' : Cursor}, c.rest.length < m → c'.rest.length < m' →
      (∀ {kind part onto tail}, .mk kind part onto tail ∈ links → tail.bites = true ∧
        tail.Fits rank worth fuel c ∧ tail.Fits rank worth fuel' c') →
      R c c' → (c.offset < bound → linksTame links = true) →
      Grown f R (runChain (Rule.run grammar endsLine fuel place) links m left c)
        (runChain (Rule.run grammar endsLine fuel' place) links m' (left.relocate f) c')
  | 0, _, _, _, _, hm, _, _, _, _ => absurd hm (Nat.not_lt_zero _)
  | _, 0, _, _, _, _, hm', _, _, _ => absurd hm' (Nat.not_lt_zero _)
  | m + 1, m' + 1, left, c, c', hm, hm', hfit, h, htame => by
      have hfirst := runLinks_lockstep hlock hrun h left (fun hmem => (hfit hmem).2) htame
      rw [runChain, runChain]
      generalize hr : runLinks (Rule.run grammar endsLine fuel place) left links c = r at hfirst
      generalize hr' : runLinks (Rule.run grammar endsLine fuel' place) (left.relocate f) links c' = r'
        at hfirst
      cases hfirst with
      | none => exact ⟨rfl, h⟩
      | @some first first' hgrown =>
          obtain ⟨_, _, _, tail, ns, hmem, htail⟩ := Rule.runLinks_tail hr
          obtain ⟨_, _, _, tail', ns', hmem', htail'⟩ := Rule.runLinks_tail hr'
          have hlength := Rule.bites_run hgrammar.bites (hfit hmem).1 htail
          have hlength' := Rule.bites_run hgrammar.bites (hfit hmem').1 htail'
          dsimp only at hlength hlength' ⊢
          rw [hgrown.1]
          refine runChain_lockstep hgrammar hlock hrun first.1 (by omega) (by omega) (fun hmem => ?_) hgrown.2
            fun hfront => htame (Nat.lt_of_le_of_lt (offset_run_le htail) hfront)
          obtain ⟨hbites, hfits, hfits'⟩ := hfit hmem
          exact ⟨hbites, hfits.mono (Nat.le_of_lt hlength), hfits'.mono (Nat.le_of_lt hlength')⟩

theorem Rule.depth_pos (rank : σ → Nat) (rule : Rule σ) : 0 < rule.depth rank := by
  cases rule <;> simp [Rule.depth]

/-- A rule that skips and then reads another one. -/
theorem skip_lockstep (hlock : LockStep σ endsLine f bound R)
    (hrun : Paired grammar endsLine f bound R rank worth fuel fuel' place)
    (hc : c.rest.length ≤ fuel) (hc' : c'.rest.length ≤ fuel') (hfit : rule.Fits rank worth fuel c)
    (hfit' : rule.Fits rank worth fuel' c') (h : R c c') (htame : c.offset < bound → rule.isTame = true) :
    Reading.Moved f R (trivia fuel c) (trivia fuel' c') ∧
      Agree f R (rule.run grammar endsLine fuel place (trivia fuel c).2)
        (rule.run grammar endsLine fuel' place (trivia fuel' c').2) := by
  have hskip : Reading.Moved f R (trivia fuel c) (trivia fuel' c') := by
    rw [trivia_stable hc, trivia_stable hc']
    exact hlock.skip h
  exact ⟨hskip, hrun (hfit.mono (length_trivia_le fuel c)) (hfit'.mono (length_trivia_le fuel' c')) hskip.2
    fun hfront => htame (Nat.lt_of_le_of_lt (offset_le_trivia fuel c) hfront)⟩

theorem ends_lockstep (hlock : LockStep σ endsLine f bound R) (hc : c.rest.length < fuel)
    (hc' : c'.rest.length < fuel') (h : R c c') :
    Agree f R (lineEnd endsLine fuel c) (lineEnd endsLine fuel' c') := by
  rw [lineEnd_agree endsLine hc (Nat.lt_succ_self _), lineEnd_agree endsLine hc' (Nat.lt_succ_self _)]
  exact hlock.ends h

/-- With enough fuel on both sides a rule does the same in both sources. -/
theorem Rule.run_lockstep (hgrammar : Graded grammar rank worth)
    (htamed : ∀ symbol, (grammar symbol).isTame = true) (hlock : LockStep σ endsLine f bound R) :
    ∀ (fuel fuel' : Nat) (place : Place), Paired grammar endsLine f bound R rank worth fuel fuel' place
  | 0, _, _, rule, _, _, hfit, _, _, _ => by
      have henough := hfit.enough
      have hpos := rule.depth_pos rank
      omega
  | _, 0, _, rule, _, _, _, hfit', _, _ => by
      have henough := hfit'.enough
      have hpos := rule.depth_pos rank
      omega
  | fuel + 1, fuel' + 1, place, rule, c, c', hfit, hfit', h, htame => by
      have ih : ∀ place, Paired grammar endsLine f bound R rank worth fuel fuel' place :=
        Rule.run_lockstep hgrammar htamed hlock fuel fuel'
      have hlengths (hdepth : 2 ≤ rule.depth rank) : c.rest.length < fuel ∧ c'.rest.length < fuel' :=
        ⟨hfit.length_lt hgrammar.worth_pos hdepth, hfit'.length_lt hgrammar.worth_pos hdepth⟩
      have htoken {scan : List Glyph → Option Nat} (hdepth : 2 ≤ rule.depth rank)
          (hscan : rule.scan? = some scan) : Agree f R (rule.run grammar endsLine (fuel + 1) place c)
            (rule.run grammar endsLine (fuel' + 1) place c') :=
        run_token_lockstep hlock hscan (Nat.le_of_lt (hlengths hdepth).1) (Nat.le_of_lt (hlengths hdepth).2)
          h htame
      cases rule with
      | mark text notBefore => exact htoken (Nat.le_refl _) rfl
      | keyword text => exact htoken (Nat.le_refl _) rfl
      | name kind except => exact htoken (Nat.le_refl _) rfl
      | lexeme kind raw literal => exact htoken (Nat.le_refl _) rfl
      | group => exact htoken (Nat.le_refl _) rfl
      | seq rules => exact runSeq_lockstep hgrammar hlock (ih place) hfit.seq hfit'.seq h htame
      | alt rules => exact runAlt_lockstep (ih place) h hfit.alt hfit'.alt htame
      | opt rule =>
          have hinner := ih place (hfit.inner rule id rfl) (hfit'.inner rule id rfl) h htame
          simp only [run]
          generalize rule.run grammar endsLine fuel place c = r at hinner
          generalize rule.run grammar endsLine fuel' place c' = r' at hinner
          cases hinner with
          | none => exact .some ⟨rfl, h⟩
          | some hmoved => exact .some hmoved
      | many rule =>
          have hpos := rule.depth_pos rank
          obtain ⟨hc, hc'⟩ := hlengths (Nat.succ_le_succ hpos)
          exact .some (repeatRun_lockstep hlock (ih place) hc hc' (hfit.inner rule id rfl) (hfit'.inner rule id rfl)
            h htame)
      | ahead rule =>
          have hinner := ih place (hfit.inner rule id rfl) (hfit'.inner rule id rfl) h htame
          simp only [run]
          generalize rule.run grammar endsLine fuel place c = r at hinner
          generalize rule.run grammar endsLine fuel' place c' = r' at hinner
          cases hinner with
          | none => exact .none
          | some _ => exact .some ⟨rfl, h⟩
      | notAhead rule =>
          have hinner := ih place (hfit.inner rule id rfl) (hfit'.inner rule id rfl) h htame
          simp only [run]
          generalize rule.run grammar endsLine fuel place c = r at hinner
          generalize rule.run grammar endsLine fuel' place c' = r' at hinner
          cases hinner with
          | none => exact .some ⟨rfl, h⟩
          | some _ => exact .none
      | node kind rule =>
          have hpos := rule.depth_pos rank
          obtain ⟨hc, hc'⟩ := hlengths (Nat.succ_le_succ hpos)
          obtain ⟨hskip, hinner⟩ := skip_lockstep hlock (ih place) (Nat.le_of_lt hc) (Nat.le_of_lt hc')
            (hfit.inner rule id rfl) (hfit'.inner rule id rfl) h htame
          simp only [run]
          generalize rule.run grammar endsLine fuel place (trivia fuel c).2 = r at hinner
          generalize rule.run grammar endsLine fuel' place (trivia fuel' c').2 = r' at hinner
          cases hinner with
          | none => exact .none
          | some hmoved =>
              refine .some ⟨?_, hmoved.2⟩
              simp [hskip.1, hmoved.1, hlock.offset hskip.2, hlock.offset hmoved.2, Node.relocate_mk]
      | role part rule =>
          have hinner := ih place (hfit.inner rule id rfl) (hfit'.inner rule id rfl) h htame
          simp only [run]
          generalize rule.run grammar endsLine fuel place c = r at hinner
          generalize rule.run grammar endsLine fuel' place c' = r' at hinner
          cases hinner with
          | none => exact .none
          | some hmoved =>
              refine .some ⟨?_, hmoved.2⟩
              dsimp only
              rw [hmoved.1, assignRole_relocate]
      | call symbol =>
          exact ih place (hfit.call hgrammar) (hfit'.call hgrammar) h fun _ => htamed symbol
      | chain base links =>
          have hbase (hbounded : (Rule.chain base links).bounded rank worth = true) :
              base.bites = true ∧ base.bounded rank worth = true := by
            rw [Rule.bounded, Bool.and_eq_true, Bool.and_eq_true] at hbounded
            exact hbounded.1
          have hparts (hfront : c.offset < bound) : base.isTame = true ∧ linksTame links = true := by
            have := htame hfront
            rwa [Rule.isTame, Bool.and_eq_true] at this
          have hpos := base.depth_pos rank
          obtain ⟨hc, hc'⟩ := hlengths (Nat.succ_le_succ hpos)
          have hfirst := ih place (hfit.inner base (fun h => (hbase h).2) rfl)
            (hfit'.inner base (fun h => (hbase h).2) rfl) h fun hfront => (hparts hfront).1
          simp only [run]
          generalize hr : base.run grammar endsLine fuel place c = r at hfirst
          generalize hr' : base.run grammar endsLine fuel' place c' = r' at hfirst
          cases hfirst with
          | none => exact .none
          | @some first first' hmoved =>
              have hlength := Rule.bites_run hgrammar.bites (hbase hfit.bounded).1 hr
              have hlength' := Rule.bites_run hgrammar.bites (hbase hfit.bounded).1 hr'
              dsimp only
              rw [hmoved.1, List.getLast?_map]
              cases first.1.getLast? with
              | none => exact .some ⟨rfl, hmoved.2⟩
              | some left =>
                  have hgrown := runChain_lockstep hgrammar hlock (ih place) left
                    (Nat.lt_trans hlength hc) (Nat.lt_trans hlength' hc')
                    (fun hmem => ⟨(hfit.link hlength hmem).1, (hfit.link hlength hmem).2,
                      (hfit'.link hlength' hmem).2⟩) hmoved.2
                    fun hfront => (hparts (Nat.lt_of_le_of_lt (offset_run_le hr) hfront)).2
                  refine .some ⟨?_, hgrown.2⟩
                  simp [hgrown.1, List.map_dropLast]
      | fresh rule =>
          have hpos := rule.depth_pos rank
          obtain ⟨hc, hc'⟩ := hlengths (Nat.succ_le_succ hpos)
          obtain ⟨hskip, hinner⟩ := skip_lockstep hlock (ih place) (Nat.le_of_lt hc) (Nat.le_of_lt hc')
            (hfit.inner rule id rfl) (hfit'.inner rule id rfl) h htame
          simp only [run]
          generalize rule.run grammar endsLine fuel place (trivia fuel c).2 = r at hinner
          generalize rule.run grammar endsLine fuel' place (trivia fuel' c').2 = r' at hinner
          cases hinner with
          | none => exact .none
          | some hmoved =>
              refine .some ⟨?_, hmoved.2⟩
              dsimp only
              rw [hskip.1, hmoved.1, List.map_append]
      | inside inner rule => exact ih inner (hfit.inner rule id rfl) (hfit'.inner rule id rfl) h htame
      | outside other =>
          simp only [run]
          split
          · exact .none
          · exact .some ⟨rfl, h⟩
      | semicolon =>
          obtain ⟨hc, hc'⟩ := hlengths (Nat.le_refl _)
          exact ends_lockstep hlock hc hc' h
      | joined =>
          obtain ⟨hc, hc'⟩ := hlengths (Nat.le_refl _)
          have hends := ends_lockstep hlock hc hc' h
          simp only [run]
          split
          · generalize lineEnd endsLine fuel c = r at hends
            generalize lineEnd endsLine fuel' c' = r' at hends
            cases hends with
            | none => exact .some ⟨rfl, h⟩
            | some _ => exact .none
          · exact .some ⟨rfl, h⟩

end

/-! ## More fuel than enough -/

mutual

theorem Node.relocate_id : ∀ n : Node, n.relocate id = n
  | .mk label role start stop children => by
      rw [Node.relocate, Node.relocateAll_id children]
      rfl

theorem Node.relocateAll_id : ∀ ns : List Node, Node.relocateAll id ns = ns
  | [] => rfl
  | n :: ns => by rw [Node.relocateAll, Node.relocate_id n, Node.relocateAll_id ns]

end

/-- A source beside itself. -/
theorem lockStep_self (endsLine : Char → Bool) : LockStep σ endsLine id 0 Eq where
  order := by
    rintro c _ e _ rfl rfl
    exact Iff.rfl
  offset := by
    rintro c _ rfl
    rfl
  finished := by
    rintro c _ rfl
    rfl
  skip := by
    rintro c _ rfl
    exact ⟨(List.map_id'' Node.relocate_id _).symm, rfl⟩
  skip_front _ hfront := absurd hfront (Nat.not_lt_zero _)
  ends := by
    rintro c _ rfl
    cases lineEnd endsLine (c.rest.length + 1) c with
    | none => exact .none
    | some r => exact .some ⟨(List.map_id'' Node.relocate_id _).symm, rfl⟩
  token := by
    rintro c _ rule scan rfl - - -
    cases scan c.rest with
    | none => exact .none
    | some n => exact .some rfl
  opening _ hfront := absurd hfront (Nat.not_lt_zero _)

/-- What is read does not depend on the fuel, if that is enough. -/
theorem Rule.run_enough {grammar : σ → Rule σ} {rank : σ → Nat} {worth : Nat}
    (hgrammar : Graded grammar rank worth) (htamed : ∀ symbol, (grammar symbol).isTame = true)
    (endsLine : Char → Bool) {fuel fuel' : Nat} (place : Place) {rule : Rule σ} {c : Cursor}
    (h : rule.Fits rank worth fuel c) (h' : rule.Fits rank worth fuel' c) :
    rule.run grammar endsLine fuel place c = rule.run grammar endsLine fuel' place c := by
  have hagree := Rule.run_lockstep hgrammar htamed (lockStep_self endsLine) fuel fuel' place h h' rfl
    fun hfront => absurd hfront (Nat.not_lt_zero _)
  generalize rule.run grammar endsLine fuel place c = r at hagree ⊢
  generalize rule.run grammar endsLine fuel' place c = r' at hagree ⊢
  cases hagree with
  | none => rfl
  | @some r r' hmoved =>
      obtain ⟨hnodes, hcursor⟩ := hmoved
      rw [List.map_id'' Node.relocate_id] at hnodes
      exact congrArg some (Prod.ext hnodes.symm hcursor)

/-! ## Statements -/

section

variable {d : Dialect} {f : Nat → Nat} {bound : Nat} {R : Cursor → Cursor → Prop} {c c' : Cursor}

theorem item_fits (c : Cursor) :
    Grammar.item.Fits Symbol.rank 400 (readingDepth c.rest.length) c := by
  refine ⟨rfl, ?_⟩
  have hdepth : Grammar.item.depth Symbol.rank = 31 := rfl
  rw [hdepth, readingDepth]
  omega

theorem readStatement_lockstep (hlock : LockStep Symbol d.endsLine f bound R) (h : R c c') :
    Agree f R (readStatement d c) (readStatement d c') := by
  have hskip := hlock.skip h
  have hitem := Rule.run_lockstep (graded_grammar d) (tame_grammar d) hlock _ _ .statement
    (item_fits (trivia c.rest.length c).2) (item_fits (trivia c'.rest.length c').2) hskip.2 fun _ => rfl
  simp only [readStatement]
  generalize Grammar.item.run (grammar d) d.endsLine (readingDepth (trivia c.rest.length c).2.rest.length)
    .statement (trivia c.rest.length c).2 = r at hitem
  generalize Grammar.item.run (grammar d) d.endsLine (readingDepth (trivia c'.rest.length c').2.rest.length)
    .statement (trivia c'.rest.length c').2 = r' at hitem
  cases hitem with
  | none => exact .none
  | @some first first' hmoved =>
      have horder := hlock.order hskip.2 hmoved.2
      dsimp only
      split
      · rename_i hle
        rw [if_pos (horder.mp hle)]
        exact .none
      · rename_i hlt
        rw [if_neg fun hle => hlt (horder.mpr hle)]
        refine .some ⟨?_, hmoved.2⟩
        dsimp only
        rw [hskip.1, hmoved.1, List.map_append]

theorem readStatements_lockstep (hlock : LockStep Symbol d.endsLine f bound R) :
    ∀ {limit limit' : Nat} {c c' : Cursor}, c.rest.length < limit → c'.rest.length < limit' → R c c' →
      Reading.Moved f R (readStatements d limit c) (readStatements d limit' c')
  | 0, _, _, _, hlimit, _, _ => absurd hlimit (Nat.not_lt_zero _)
  | _, 0, _, _, _, hlimit', _ => absurd hlimit' (Nat.not_lt_zero _)
  | limit + 1, limit' + 1, c, c', hlimit, hlimit', h => by
      have hfirst := readStatement_lockstep hlock h
      rw [readStatements, readStatements]
      generalize hr : readStatement d c = r at hfirst
      generalize hr' : readStatement d c' = r' at hfirst
      cases hfirst with
      | none => exact ⟨rfl, h⟩
      | @some first first' hmoved =>
          have hlength := readStatement_shorter hr
          have hlength' := readStatement_shorter hr'
          have hmore : Reading.Moved f R (readStatements d limit first.2) (readStatements d limit' first'.2) :=
            readStatements_lockstep hlock (by omega) (by omega) hmoved.2
          refine ⟨?_, hmore.2⟩
          dsimp only
          rw [hmoved.1, hmore.1, List.map_append]

theorem readBody_lockstep (hlock : LockStep Symbol d.endsLine f bound R) (h : R c c') :
    Reading.Moved f R (readBody d c) (readBody d c') := by
  have hstatements := readStatements_lockstep hlock (Nat.lt_succ_self _) (Nat.lt_succ_self _) h
  rw [readStatements_agree (Nat.le_succ _) (Nat.le_refl c.rest.length),
    readStatements_agree (Nat.le_succ _) (Nat.le_refl c'.rest.length)] at hstatements
  have hskip := hlock.skip hstatements.2
  refine ⟨?_, hskip.2⟩
  simp only [readBody]
  rw [hstatements.1, hskip.1, List.map_append]

end

end ImportAssist
