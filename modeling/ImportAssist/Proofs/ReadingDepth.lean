import ImportAssist.Proofs.Sequence

/-!
# How deep a reading goes

A rule is read with fuel, and a reading that is deeper than its fuel fails as if the text were at fault.
How deep it is depends on the rule. Between two glyphs no symbol is entered twice: each has a rank, and
what its rule refers to before it takes a glyph has a lower one (`graded_grammar`). A rule that takes a
glyph whenever it succeeds *bites* (`Rule.bites_run`), and behind it as much depth as a glyph is worth
may be spent anew. `Rule.Fits` says that the fuel is enough at a cursor, and has a lemma for each way in
which one rule is read inside of another.
-/

namespace ImportAssist

open Syntax

variable {σ : Type}

/-! ## Tokens -/

namespace Rule

/-- How many glyphs a token takes, for a rule that reads one. -/
def scan? : Rule σ → Option (List Glyph → Option Nat)
  | .mark text notBefore => some fun gs =>
    if Lexeme.literal text.toList gs && !Lexeme.nextIn notBefore (gs.drop text.toList.length) then
      some text.toList.length
    else none
  | .keyword text => some fun gs =>
    if Lexeme.literal text.toList gs && Lexeme.word gs == text.toList.length then some text.toList.length
    else none
  | .name _ except => some fun gs =>
    let n := Lexeme.word gs
    if n == 0 || except.contains (String.ofList ((gs.take n).map Glyph.char)) then none else some n
  | .lexeme _ _ literal => some literal.scan
  | .group => some Lexeme.group
  | _ => none

/-- The nodes that a token makes. -/
def tokenNodes (start stop : Nat) : Rule σ → List Node
  | .mark text _ | .keyword text => [.token text start stop]
  | .name kind _ | .lexeme kind _ _ => [.leaf kind start stop]
  | _ => []

/-- Whether a token is read without skipping what stands in front of it. -/
def isRaw : Rule σ → Bool
  | .lexeme _ raw _ => raw
  | _ => false

/-- What a rule reads a token behind. -/
def skipped (fuel : Nat) (rule : Rule σ) (c : Cursor) : Reading :=
  if rule.isRaw then ([], c) else trivia fuel c

theorem run_token {grammar : σ → Rule σ} {endsLine : Char → Bool} {fuel : Nat} {place : Place}
    {rule : Rule σ} {scan : List Glyph → Option Nat} {c : Cursor} (h : rule.scan? = some scan) :
    rule.run grammar endsLine (fuel + 1) place c =
      (scan (rule.skipped fuel c).2.rest).map fun n =>
        ((rule.skipped fuel c).1 ++ rule.tokenNodes (rule.skipped fuel c).2.offset
          ((rule.skipped fuel c).2.advance n).offset, (rule.skipped fuel c).2.advance n) := by
  cases rule with
  | mark text notBefore =>
      cases h
      simp only [run, skipped, isRaw, Bool.false_eq_true, if_false]
      split <;> rfl
  | keyword text =>
      cases h
      simp only [run, skipped, isRaw, Bool.false_eq_true, if_false]
      split <;> rfl
  | name kind except =>
      cases h
      simp only [run, skipped, isRaw, Bool.false_eq_true, if_false]
      split <;> rfl
  | lexeme kind raw literal =>
      cases h
      simp only [run, skipped, isRaw]
      rfl
  | group =>
      cases h
      simp only [run, skipped, isRaw, Bool.false_eq_true, if_false, tokenNodes, List.append_nil]
  | _ => cases h

end Rule

/-! ## Rules that bite -/

mutual

/-- Whether a rule takes a glyph whenever it succeeds, if every symbol does. -/
def Rule.bites : Rule σ → Bool
  | .mark text _ | .keyword text => !text.toList.isEmpty
  | .name .. | .lexeme .. | .call _ | .group => true
  | .seq rules => anyBites rules
  | .alt rules => allBite rules
  | .node _ rule | .role _ rule | .fresh rule | .inside _ rule | .chain rule _ => rule.bites
  | .opt _ | .many _ | .ahead _ | .notAhead _ | .outside _ | .semicolon | .joined => false

def anyBites : List (Rule σ) → Bool
  | [] => false
  | rule :: rules => rule.bites || anyBites rules

def allBite : List (Rule σ) → Bool
  | [] => true
  | rule :: rules => rule.bites && allBite rules

end

namespace Lexeme

variable {gs : List Glyph} {n : Nat}

theorem number_pos (h : number gs = some n) : 0 < n := by
  unfold number at h
  split at h
  · rename_i k hradix
    unfold radix at hradix
    grind
  · unfold decimal at h
    grind

theorem regex_pos (h : regex gs = some n) : 0 < n := by
  unfold regex at h
  grind

theorem markupComment_pos (h : markupComment gs = some n) : 0 < n := by
  unfold markupComment at h
  split at h
  · rename_i hmark
    obtain ⟨g, rest, rfl, hend⟩ : ∃ g rest, gs = g :: rest ∧ isLineEnd g.char = false := by
      cases gs with
      | nil => simp [literal] at hmark
      | cons g rest =>
          refine ⟨g, rest, rfl, ?_⟩
          have hchar : g.char = '<' ∨ g.char = '-' := by
            simp [literal] at hmark
            exact hmark.imp (·.1.2) (·.1.2)
          rcases hchar with hchar | hchar <;> rw [hchar] <;> rfl
    cases h
    simp [restOfLine, hend]
  · cases h

/-- A literal takes a glyph. -/
theorem Class.scan_pos {literal : Class} (h : literal.scan gs = some n) : 0 < n ∧ gs ≠ [] := by
  refine ⟨?_, ?_⟩
  · cases literal with
    | string =>
        rw [Class.scan, Lexeme.string.eq_def] at h
        grind [Option.map_eq_some_iff]
    | markupString =>
        rw [Class.scan, Lexeme.markupString.eq_def] at h
        grind
    | templateText =>
        rw [Class.scan, Lexeme.templateText] at h
        grind
    | number => exact number_pos h
    | regex => exact regex_pos h
    | markupText =>
        rw [Class.scan, Lexeme.markupText] at h
        grind
    | characterReference =>
        rw [Class.scan, Lexeme.characterReference.eq_def] at h
        grind
    | privateName =>
        rw [Class.scan, Lexeme.privateName.eq_def] at h
        grind
    | dashedName =>
        rw [Class.scan] at h
        grind
    | markupComment => exact markupComment_pos h
  · rintro rfl
    cases literal <;> cases h

end Lexeme

namespace Rule

variable {grammar : σ → Rule σ} {endsLine : Char → Bool} {fuel : Nat} {place : Place} {rule : Rule σ}
  {c : Cursor} {r : Reading}

theorem scan_pos {scan : List Glyph → Option Nat} (hscan : rule.scan? = some scan)
    (hbites : rule.bites = true) {gs : List Glyph} {n : Nat} (h : scan gs = some n) :
    0 < n ∧ gs ≠ [] := by
  have htext {text : String} (htext : (!text.toList.isEmpty) = true)
      (hliteral : Lexeme.literal text.toList gs = true) : 0 < text.toList.length ∧ gs ≠ [] := by
    cases hchars : text.toList with
    | nil =>
        rw [hchars] at htext
        cases htext
    | cons ch more =>
        refine ⟨Nat.succ_pos _, ?_⟩
        rintro rfl
        rw [hchars] at hliteral
        cases hliteral
  cases rule with
  | mark text notBefore =>
      cases hscan
      rw [Option.ite_none_right_eq_some, Bool.and_eq_true] at h
      obtain ⟨⟨hliteral, -⟩, h⟩ := h
      cases h
      exact htext hbites hliteral
  | keyword text =>
      cases hscan
      rw [Option.ite_none_right_eq_some, Bool.and_eq_true] at h
      obtain ⟨⟨hliteral, -⟩, h⟩ := h
      cases h
      exact htext hbites hliteral
  | name kind except =>
      cases hscan
      rw [Option.ite_none_left_eq_some] at h
      obtain ⟨hword, h⟩ := h
      cases h
      have hpos : Lexeme.word gs ≠ 0 := by
        intro hzero
        simp [hzero] at hword
      refine ⟨Nat.pos_of_ne_zero hpos, ?_⟩
      rintro rfl
      exact hpos rfl
  | lexeme kind raw literal =>
      cases hscan
      exact Lexeme.Class.scan_pos h
  | group =>
      cases hscan
      unfold Lexeme.group at h
      grind [Option.map_eq_some_iff]
  | _ => cases hscan

/-- A reading goes forward. -/
theorem run_forward (h : rule.run grammar endsLine fuel place c = some r) : ∃ n, r.2 = c.advance n :=
  (@run_reads σ (fun _ => True) grammar endsLine fuel place rule c r (fun _ => trivial) h).1

theorem length_run_le (h : rule.run grammar endsLine fuel place c = some r) :
    r.2.rest.length ≤ c.rest.length := by
  obtain ⟨n, hn⟩ := run_forward h
  rw [hn, Cursor.length_advance]
  exact Nat.sub_le _ _

theorem length_skipped_le (fuel : Nat) (rule : Rule σ) (c : Cursor) :
    (rule.skipped fuel c).2.rest.length ≤ c.rest.length := by
  unfold skipped
  split
  · exact Nat.le_refl _
  · exact length_trivia_le fuel c

theorem runSeq_bites {run : Rule σ → Cursor → Option Reading}
    (hle : ∀ {rule c r}, run rule c = some r → r.2.rest.length ≤ c.rest.length)
    (hrun : ∀ {rule c r}, rule.bites = true → run rule c = some r → r.2.rest.length < c.rest.length) :
    ∀ {rules : List (Rule σ)} {c : Cursor} {r : Reading}, runSeq run rules c = some r →
      r.2.rest.length ≤ c.rest.length ∧ (anyBites rules = true → r.2.rest.length < c.rest.length)
  | [], c, r, h => by
      cases h
      exact ⟨Nat.le_refl _, nofun⟩
  | rule :: rules, c, r, h => by
      obtain ⟨first, more, hfirst, hmore, rfl⟩ := runSeq_cons h
      obtain ⟨hrest, hbites⟩ := runSeq_bites hle hrun hmore
      refine ⟨Nat.le_trans hrest (hle hfirst), fun hany => ?_⟩
      rw [anyBites, Bool.or_eq_true] at hany
      rcases hany with hrule | hrules
      · exact Nat.lt_of_le_of_lt hrest (hrun hrule hfirst)
      · exact Nat.lt_of_lt_of_le (hbites hrules) (hle hfirst)

theorem runAlt_bites {run : Rule σ → Cursor → Option Reading}
    (hrun : ∀ {rule c r}, rule.bites = true → run rule c = some r → r.2.rest.length < c.rest.length) :
    ∀ {rules : List (Rule σ)} {c : Cursor} {r : Reading}, allBite rules = true →
      runAlt run rules c = some r → r.2.rest.length < c.rest.length
  | [], _, _, _, h => by cases h
  | rule :: rules, c, r, hall, h => by
      rw [allBite, Bool.and_eq_true] at hall
      rw [runAlt] at h
      split at h
      · rename_i reading hrule
        cases h
        exact hrun hall.1 hrule
      · exact runAlt_bites hrun hall.2 h

/-- What follows an operand is read by the tail of one of the links. -/
theorem runLinks_tail {run : Rule σ → Cursor → Option Reading} {left : Node} {c : Cursor} :
    ∀ {links : List (Link σ)} {whole : Node} {after : Cursor},
      runLinks run left links c = some (whole, after) →
      ∃ kind part onto tail ns, .mk kind part onto tail ∈ links ∧ run tail c = some (ns, after)
  | [], _, _, h => by cases h
  | .mk kind part onto tail :: links, whole, after, h => by
      have hmore (h : runLinks run left links c = some (whole, after)) :
          ∃ kind' part' onto' tail' ns, .mk kind' part' onto' tail' ∈ .mk kind part onto tail :: links ∧
            run tail' c = some (ns, after) := by
        obtain ⟨kind', part', onto', tail', ns, hmem, hns⟩ := runLinks_tail h
        exact ⟨kind', part', onto', tail', ns, List.mem_cons_of_mem _ hmem, hns⟩
      unfold runLinks at h
      split at h
      · split at h
        · rename_i ns last htail
          cases h
          exact ⟨kind, part, onto, tail, ns, List.mem_cons_self .., htail⟩
        · exact hmore h
      · exact hmore h

theorem length_runChain_le {run : Rule σ → Cursor → Option Reading}
    (hle : ∀ {rule c r}, run rule c = some r → r.2.rest.length ≤ c.rest.length) (links : List (Link σ)) :
    ∀ (fuel : Nat) (left : Node) (c : Cursor),
      (runChain run links fuel left c).2.rest.length ≤ c.rest.length
  | 0, _, _ => Nat.le_refl _
  | fuel + 1, left, c => by
      rw [runChain]
      split
      · exact Nat.le_refl _
      · rename_i node after hlink
        obtain ⟨_, _, _, _, ns, -, htail⟩ := runLinks_tail hlink
        exact Nat.le_trans (length_runChain_le hle links fuel node after) (hle htail)

/-- A rule that bites takes a glyph whenever it succeeds. -/
theorem bites_run (hgrammar : ∀ symbol, (grammar symbol).bites = true) :
    ∀ {fuel : Nat} {place : Place} {rule : Rule σ} {c : Cursor} {r : Reading}, rule.bites = true →
      rule.run grammar endsLine fuel place c = some r → r.2.rest.length < c.rest.length
  | 0, _, _, _, _, _, h => by cases h
  | fuel + 1, place, rule, c, r, hrule, h => by
      have ih (rule : Rule σ) {place : Place} {c : Cursor} {r : Reading} (hrule : rule.bites = true)
          (h : rule.run grammar endsLine fuel place c = some r) : r.2.rest.length < c.rest.length :=
        bites_run hgrammar hrule h
      have htoken {scan : List Glyph → Option Nat} (hscan : rule.scan? = some scan) :
          r.2.rest.length < c.rest.length := by
        rw [run_token hscan] at h
        obtain ⟨n, hn, rfl⟩ := Option.map_eq_some_iff.mp h
        obtain ⟨hpos, hne⟩ := scan_pos hscan hrule hn
        have hlength := List.length_pos_iff.mpr hne
        have hle := length_skipped_le fuel rule c
        dsimp only
        rw [Cursor.length_advance]
        omega
      cases rule with
      | mark text notBefore => exact htoken rfl
      | keyword text => exact htoken rfl
      | name kind except => exact htoken rfl
      | lexeme kind raw literal => exact htoken rfl
      | group => exact htoken rfl
      | seq rules => exact (runSeq_bites length_run_le (ih _) h).2 hrule
      | alt rules => exact runAlt_bites (ih _) hrule h
      | node kind rule =>
          simp only [run] at h
          obtain ⟨inner, hinner, rfl⟩ := Option.map_eq_some_iff.mp h
          have hlt := ih rule hrule hinner
          exact Nat.lt_of_lt_of_le hlt (length_trivia_le fuel c)
      | role part rule =>
          simp only [run] at h
          obtain ⟨inner, hinner, rfl⟩ := Option.map_eq_some_iff.mp h
          have hlt := ih rule hrule hinner
          exact hlt
      | call symbol => exact ih (grammar symbol) (hgrammar symbol) h
      | chain base links =>
          simp only [run] at h
          split at h
          · cases h
          · rename_i ns after hbase
            have hlt := ih base hrule hbase
            split at h
            · cases h
              exact hlt
            · cases h
              exact Nat.lt_of_le_of_lt (length_runChain_le length_run_le links fuel _ after) hlt
      | fresh rule =>
          simp only [run] at h
          obtain ⟨inner, hinner, rfl⟩ := Option.map_eq_some_iff.mp h
          have hlt := ih rule hrule hinner
          exact Nat.lt_of_lt_of_le hlt (length_trivia_le fuel c)
      | inside inner rule => exact ih rule hrule h
      | _ => cases hrule

end Rule

/-! ## Depth -/

mutual

/-- How deep a reading by a rule may go before it takes a glyph. -/
def Rule.depth (rank : σ → Nat) : Rule σ → Nat
  | .seq rules => depthToBite rank rules + 1
  | .alt rules => depthAmong rank rules + 1
  | .opt rule | .many rule | .ahead rule | .notAhead rule | .node _ rule | .role _ rule | .fresh rule
  | .inside _ rule | .chain rule _ => rule.depth rank + 1
  | .call symbol => rank symbol + 1
  | .mark .. | .keyword _ | .name .. | .lexeme .. | .outside _ | .semicolon | .joined | .group => 2

/-- Behind a rule that bites the depth is counted anew. -/
def depthToBite (rank : σ → Nat) : List (Rule σ) → Nat
  | [] => 0
  | rule :: rules => if rule.bites then rule.depth rank else max (rule.depth rank) (depthToBite rank rules)

def depthAmong (rank : σ → Nat) : List (Rule σ) → Nat
  | [] => 0
  | rule :: rules => max (rule.depth rank) (depthAmong rank rules)

end

mutual

/-- Whether the depth that a glyph is worth is enough wherever it is counted anew, and every loop takes a
glyph each time round. -/
def Rule.bounded (rank : σ → Nat) (worth : Nat) : Rule σ → Bool
  | .seq rules | .alt rules => allBounded rank worth rules
  | .opt rule | .many rule | .ahead rule | .notAhead rule | .node _ rule | .role _ rule | .fresh rule
  | .inside _ rule => rule.bounded rank worth
  | .chain base links => base.bites && base.bounded rank worth && linksBounded rank worth links
  | .mark .. | .keyword _ | .name .. | .lexeme .. | .call _ | .outside _ | .semicolon | .joined | .group =>
    true

def allBounded (rank : σ → Nat) (worth : Nat) : List (Rule σ) → Bool
  | [] => true
  | rule :: rules =>
    rule.bounded rank worth && decide (rule.depth rank ≤ worth) && allBounded rank worth rules

def Link.bounded (rank : σ → Nat) (worth : Nat) : Link σ → Bool
  | .mk _ _ _ tail => tail.bites && tail.bounded rank worth && decide (tail.depth rank ≤ worth)

def linksBounded (rank : σ → Nat) (worth : Nat) : List (Link σ) → Bool
  | [] => true
  | link :: links => link.bounded rank worth && linksBounded rank worth links

end

/-- Every symbol bites, and refers to symbols of a lower rank before it does. -/
structure Graded (grammar : σ → Rule σ) (rank : σ → Nat) (worth : Nat) : Prop where
  bites : ∀ symbol, (grammar symbol).bites = true
  bounded : ∀ symbol, (grammar symbol).bounded rank worth = true
  depth_le : ∀ symbol, (grammar symbol).depth rank ≤ rank symbol
  worth_pos : 0 < worth

/-- The rank of a symbol: above those that it refers to before it takes a glyph. -/
def Symbol.rank : Symbol → Nat
  | .statement => 29
  | .expressions => 23
  | .expression => 21
  | .operand => 19
  | .type => 18
  | .pattern | .typeUnion => 16
  | .suffixed => 14
  | .typeOperand => 13
  | .primary => 12
  | .declaration => 11
  | .classExpression => 9
  | .methodDefinition | .callSignature => 8
  | .functionExpression => 6
  | _ => 5

theorem graded_grammar (d : Dialect) : Graded (grammar d) Symbol.rank 400 where
  bites symbol := by cases d <;> cases symbol <;> rfl
  bounded symbol := by cases d <;> cases symbol <;> rfl
  depth_le symbol := by cases d <;> cases symbol <;> decide +kernel
  worth_pos := by decide

/-! ## Enough fuel -/

variable {rank : σ → Nat} {worth fuel : Nat} {rule : Rule σ} {rules : List (Rule σ)} {c after : Cursor}

/-- There is fuel for the depth of a rule, and for all the glyphs ahead. -/
structure Rule.Fits (rank : σ → Nat) (worth fuel : Nat) (rule : Rule σ) (c : Cursor) : Prop where
  bounded : rule.bounded rank worth = true
  enough : rule.depth rank + worth * c.rest.length ≤ fuel

/-- There is fuel for some rules in turn. -/
structure FitAll (rank : σ → Nat) (worth fuel : Nat) (rules : List (Rule σ)) (c : Cursor) : Prop where
  bounded : allBounded rank worth rules = true
  enough : depthToBite rank rules + worth * c.rest.length ≤ fuel

theorem worth_le {m n k : Nat} (h : m < n) (hk : k + worth * n ≤ fuel) : worth + worth * m ≤ fuel := by
  have hmul : worth * (m + 1) ≤ worth * n := Nat.mul_le_mul_left worth h
  rw [Nat.mul_add, Nat.mul_one] at hmul
  omega

theorem le_worth_mul (hworth : 0 < worth) (n : Nat) : n ≤ worth * n := Nat.le_mul_of_pos_left n hworth

namespace Rule.Fits

theorem length_lt (h : rule.Fits rank worth (fuel + 1) c) (hworth : 0 < worth) (hdepth : 2 ≤ rule.depth rank) :
    c.rest.length < fuel := by
  have hle := le_worth_mul hworth c.rest.length
  have henough := h.enough
  omega

theorem mono (h : rule.Fits rank worth fuel c) (hle : after.rest.length ≤ c.rest.length) :
    rule.Fits rank worth fuel after :=
  ⟨h.bounded, Nat.le_trans (Nat.add_le_add_left (Nat.mul_le_mul_left worth hle) _) h.enough⟩

/-- A rule that is read at the same place. -/
theorem inner {outer : Rule σ} (h : outer.Fits rank worth (fuel + 1) c) (rule : Rule σ)
    (hbounded : outer.bounded rank worth = true → rule.bounded rank worth = true)
    (hdepth : outer.depth rank = rule.depth rank + 1) : rule.Fits rank worth fuel c := by
  refine ⟨hbounded h.bounded, ?_⟩
  have henough := h.enough
  omega

theorem call {grammar : σ → Rule σ} {symbol : σ} (hgrammar : Graded grammar rank worth)
    (h : (Rule.call symbol).Fits rank worth (fuel + 1) c) : (grammar symbol).Fits rank worth fuel c := by
  refine ⟨hgrammar.bounded symbol, ?_⟩
  have henough := h.enough
  have hle := hgrammar.depth_le symbol
  rw [depth] at henough
  omega

theorem seq (h : (Rule.seq rules).Fits rank worth (fuel + 1) c) : FitAll rank worth fuel rules c := by
  refine ⟨h.bounded, ?_⟩
  have henough := h.enough
  rw [depth] at henough
  omega

theorem alt (h : (Rule.alt rules).Fits rank worth (fuel + 1) c) :
    ∀ rule ∈ rules, rule.Fits rank worth fuel c := by
  have henough := h.enough
  have hbounded : allBounded rank worth rules = true := h.bounded
  rw [depth] at henough
  replace henough : depthAmong rank rules + worth * c.rest.length ≤ fuel := by omega
  clear h
  induction rules with
  | nil => exact nofun
  | cons first rules ih =>
      rw [allBounded, Bool.and_eq_true, Bool.and_eq_true] at hbounded
      rw [depthAmong] at henough
      intro rule hrule
      rcases List.mem_cons.mp hrule with rfl | hrule
      · exact ⟨hbounded.1.1, by omega⟩
      · exact ih hbounded.2 (by omega) rule hrule

/-- The tail of a link, behind an operand. -/
theorem link {base : Rule σ} {links : List (Link σ)} (h : (Rule.chain base links).Fits rank worth (fuel + 1) c)
    (hlt : after.rest.length < c.rest.length) {kind : Kind} {part : Option Role} {onto : List Kind}
    {tail : Rule σ} (hmem : .mk kind part onto tail ∈ links) :
    tail.bites = true ∧ tail.Fits rank worth fuel after := by
  have henough := h.enough
  rw [depth] at henough
  have hworth : worth + worth * after.rest.length ≤ fuel :=
    worth_le hlt (show base.depth rank + worth * c.rest.length ≤ fuel by omega)
  have hbounded := h.bounded
  rw [Rule.bounded, Bool.and_eq_true] at hbounded
  obtain ⟨-, hlinks⟩ := hbounded
  clear h henough
  induction links with
  | nil => cases hmem
  | cons link links ih =>
      rw [linksBounded, Bool.and_eq_true] at hlinks
      rcases List.mem_cons.mp hmem with rfl | hmem
      · have hlink := hlinks.1
        rw [Link.bounded, Bool.and_eq_true, Bool.and_eq_true, decide_eq_true_eq] at hlink
        exact ⟨hlink.1.1, hlink.1.2, by omega⟩
      · exact ih hmem hlinks.2

end Rule.Fits

namespace FitAll

theorem head (h : FitAll rank worth fuel (rule :: rules) c) : rule.Fits rank worth fuel c := by
  have hbounded := h.bounded
  have henough := h.enough
  rw [allBounded, Bool.and_eq_true, Bool.and_eq_true] at hbounded
  rw [depthToBite] at henough
  refine ⟨hbounded.1.1, ?_⟩
  split at henough
  · exact henough
  · omega

theorem depth_le (h : allBounded rank worth rules = true) : depthToBite rank rules ≤ worth := by
  induction rules with
  | nil => exact Nat.zero_le _
  | cons rule rules ih =>
      rw [allBounded, Bool.and_eq_true, Bool.and_eq_true, decide_eq_true_eq] at h
      have hrules := ih h.2
      rw [depthToBite]
      split
      · exact h.1.2
      · exact Nat.max_le.mpr ⟨h.1.2, hrules⟩

/-- The rules behind the first one, where that has stopped. -/
theorem tail (h : FitAll rank worth fuel (rule :: rules) c) (hle : after.rest.length ≤ c.rest.length)
    (hbites : rule.bites = true → after.rest.length < c.rest.length) : FitAll rank worth fuel rules after := by
  have hbounded := h.bounded
  have henough := h.enough
  rw [allBounded, Bool.and_eq_true] at hbounded
  refine ⟨hbounded.2, ?_⟩
  rw [depthToBite] at henough
  split at henough
  · rename_i hrule
    have hworth := worth_le (hbites hrule) henough
    have hdepth := depth_le hbounded.2
    omega
  · have hmul : worth * after.rest.length ≤ worth * c.rest.length := Nat.mul_le_mul_left worth hle
    omega

end FitAll

end ImportAssist
