import ImportAssist.Proofs.ExportStatements
import ImportAssist.Proofs.Worklist

/-!
# The nodes of a tree

A walk visits the nodes of a tree in preorder (`walk_eq_preorder`). So what is said of all nodes of a
tree can be said of those in its preorder, and carried up from the children to the parent.

One thing said that way is that strings are *quoted*: each goes from one quote to the next, and has no
parts. The grammar makes strings of nothing but string literals, and `parse_quoted` says what that comes
to for the tree of a source.
-/

namespace ImportAssist

namespace Node

/-! ## Below a node -/

theorem preorder_eq (n : Node) : n.preorder = n :: preorderList n.children := by
  cases n
  rw [preorder, children]

theorem size_le_sizeList {c : Node} : ∀ {ns : List Node}, c ∈ ns → c.size ≤ sizeList ns
  | n :: ns, h => by
      rw [sizeList]
      rcases List.mem_cons.mp h with rfl | h
      · omega
      · have := size_le_sizeList h
        omega

theorem size_lt_of_child {c n : Node} (h : c ∈ n.children) : c.size < n.size := by
  have := size_le_sizeList h
  rw [n.size_eq]
  omega

theorem mem_preorderList {m : Node} : ∀ {ns : List Node},
    m ∈ preorderList ns ↔ ∃ n ∈ ns, m ∈ n.preorder
  | [] => by simp [preorderList]
  | n :: ns => by simp [preorderList, mem_preorderList]

theorem mem_preorder {m n : Node} : m ∈ n.preorder ↔ m = n ∨ ∃ c ∈ n.children, m ∈ c.preorder := by
  rw [preorder_eq, List.mem_cons, mem_preorderList]

theorem mem_preorder_self (n : Node) : n ∈ n.preorder := mem_preorder.mpr (.inl rfl)

theorem mem_preorder_trans {k m n : Node} (hm : m ∈ n.preorder) (hk : k ∈ m.preorder) :
    k ∈ n.preorder := by
  rcases mem_preorder.mp hm with rfl | ⟨c, hc, hm⟩
  · exact hk
  · have hlt := size_lt_of_child hc
    exact mem_preorder.mpr (.inr ⟨c, hc, mem_preorder_trans hm hk⟩)
termination_by n.size

/-! ## Quoted strings -/

/-- A text that goes from a quote up to the next one that no backslash stands in front of. -/
def IsQuoted (quote : Char) (text : List Char) : Prop :=
  ∃ inner, text = quote :: inner ++ [quote] ∧ ∀ front back, inner = front ++ quote :: back → '\\' ∈ front

theorem IsQuoted.head? {quote : Char} {text : List Char} (h : IsQuoted quote text) :
    text.head? = some quote := by
  obtain ⟨inner, rfl, -⟩ := h
  rfl

/-- Every string of the tree is quoted and has no parts. -/
def QuotedStrings (source : Bytes) (n : Node) : Prop :=
  ∀ m ∈ n.preorder, m.hasKind .string = true →
    m.children = [] ∧ ∃ quote ∈ ['\x27', '"'], IsQuoted quote (m.text source).toList

/-- A node whose text has a first character covers something. -/
theorem start_lt_stop {source : Bytes} {n : Node} {c : Char}
    (h : (n.text source).toList.head? = some c) : n.start < n.stop := by
  by_contra hle
  have hempty : n.bytes source = [] := by
    rw [bytes, Nat.sub_eq_zero_of_le (Nat.le_of_not_lt hle), List.take_zero]
  rw [text, hempty] at h
  cases h

namespace QuotedStrings

variable {source : Bytes} {n : Node}

theorem child {c : Node} (h : n.QuotedStrings source) (hc : c ∈ n.children) :
    c.QuotedStrings source :=
  fun m hm => h m (mem_preorder.mpr (.inr ⟨c, hc, hm⟩))

theorem own (h : n.QuotedStrings source) (hkind : n.hasKind .string = true) :
    n.children = [] ∧ n.start < n.stop := by
  obtain ⟨hleaf, quote, -, hquote⟩ := h n n.mem_preorder_self hkind
  exact ⟨hleaf, start_lt_stop hquote.head?⟩

/-- The strings of a node that is no string are those of its children. -/
theorem wrap {label : Label} {role : Option Role} {start stop : Nat} {ns : List Node}
    (hlabel : label ≠ .kind .string) (h : ∀ n ∈ ns, n.QuotedStrings source) :
    (Node.mk label role start stop ns).QuotedStrings source := by
  intro m hm hkind
  rcases mem_preorder.mp hm with rfl | ⟨c, hc, hm⟩
  · exact absurd (beq_iff_eq.mp hkind) hlabel
  · exact h c hc m hm hkind

theorem leaf {label : Label} {role : Option Role} {start stop : Nat}
    (h : label = .kind .string → ∃ quote ∈ ['\x27', '"'],
      IsQuoted quote ((Node.mk label role start stop []).text source).toList) :
    (Node.mk label role start stop []).QuotedStrings source := by
  intro m hm hkind
  rcases mem_preorder.mp hm with rfl | ⟨c, hc, -⟩
  · exact ⟨rfl, h (beq_iff_eq.mp hkind)⟩
  · cases hc

theorem comment (h : n.IsComment) : n.QuotedStrings source := by
  obtain ⟨start, stop, rfl⟩ := h
  exact leaf nofun

theorem withRole (h : n.QuotedStrings source) (role : Role) :
    (n.withRole role).QuotedStrings source := by
  obtain ⟨label, other, start, stop, cs⟩ := n
  intro m hm hkind
  rcases mem_preorder.mp hm with rfl | ⟨c, hc, hm⟩
  · exact h (.mk label other start stop cs) (mem_preorder_self _) hkind
  · exact h.child hc m hm hkind

end QuotedStrings

end Node

open Syntax

/-! ## Rules that make strings of literals -/

section

variable {σ : Type}

mutual

/-- Whether the strings that a rule makes are literals, those of the symbols apart that it refers to. -/
def Rule.readsStrings : Rule σ → Bool
  | .name kind _ => kind != .string
  | .lexeme kind _ literal => kind != .string || literal == .string || literal == .markupString
  | .node kind rule => kind != .string && rule.readsStrings
  | .seq rules | .alt rules => readsStringsAmong rules
  | .opt rule | .many rule | .role _ rule | .fresh rule | .inside _ rule => rule.readsStrings
  | .chain base links => base.readsStrings && linksReadStrings links
  | .mark .. | .keyword _ | .call _ | .ahead _ | .notAhead _ | .outside _ | .semicolon | .joined
  | .group => true

def readsStringsAmong : List (Rule σ) → Bool
  | [] => true
  | rule :: rules => rule.readsStrings && readsStringsAmong rules

def Link.readsStrings : Link σ → Bool
  | .mk kind _ _ tail => kind != .string && tail.readsStrings

def linksReadStrings : List (Link σ) → Bool
  | [] => true
  | link :: links => link.readsStrings && linksReadStrings links

end

/-- A reader for rules gives nodes with quoted strings. -/
def GivesQuoted (source : Bytes) (run : Rule σ → Cursor → Option Reading) : Prop :=
  ∀ (rule : Rule σ) (c : Cursor) (r : Reading), rule.readsStrings = true → Reached source c →
    run rule c = some r → Reached source r.2 ∧ ∀ n ∈ r.1, n.QuotedStrings source

variable {source : Bytes} {run : Rule σ → Cursor → Option Reading} {c : Cursor}

theorem quoted_append {ns ms : List Node} (h : ∀ n ∈ ns, n.QuotedStrings source)
    (h' : ∀ n ∈ ms, n.QuotedStrings source) : ∀ n ∈ ns ++ ms, n.QuotedStrings source := by
  intro n hn
  rcases List.mem_append.mp hn with hn | hn
  · exact h n hn
  · exact h' n hn

theorem quoted_trivia (fuel : Nat) (c : Cursor) : ∀ n ∈ (trivia fuel c).1, n.QuotedStrings source :=
  fun n hn => .comment (trivia_comments fuel c n hn)

theorem Reached.trivia (h : Reached source c) (fuel : Nat) :
    Reached source (Syntax.trivia fuel c).2 := by
  obtain ⟨n, hn⟩ := trivia_forward fuel c
  exact hn ▸ h.advance n

theorem runSeq_quoted (hrun : GivesQuoted source run) : ∀ {rules : List (Rule σ)} {c : Cursor}
    {r : Reading}, readsStringsAmong rules = true → Reached source c → runSeq run rules c = some r →
      Reached source r.2 ∧ ∀ n ∈ r.1, n.QuotedStrings source
  | [], c, r, _, hc, h => by
      cases h
      exact ⟨hc, nofun⟩
  | rule :: rules, c, r, hreads, hc, h => by
      rw [readsStringsAmong, Bool.and_eq_true] at hreads
      obtain ⟨first, more, hrule, hrules, rfl⟩ := runSeq_cons h
      obtain ⟨hmiddle, hfirst⟩ := hrun _ _ _ hreads.1 hc hrule
      obtain ⟨hlast, hmore⟩ := runSeq_quoted hrun hreads.2 hmiddle hrules
      exact ⟨hlast, quoted_append hfirst hmore⟩

theorem runAlt_quoted (hrun : GivesQuoted source run) (hc : Reached source c) :
    ∀ {rules : List (Rule σ)} {r : Reading}, readsStringsAmong rules = true →
      runAlt run rules c = some r → Reached source r.2 ∧ ∀ n ∈ r.1, n.QuotedStrings source
  | [], _, _, h => by cases h
  | rule :: rules, r, hreads, h => by
      rw [readsStringsAmong, Bool.and_eq_true] at hreads
      rw [runAlt] at h
      split at h
      · rename_i reading hrule
        cases h
        exact hrun _ _ _ hreads.1 hc hrule
      · exact runAlt_quoted hrun hc hreads.2 h

theorem repeatRun_quoted {read : Cursor → Option Reading}
    (hread : ∀ c r, Reached source c → read c = some r →
      Reached source r.2 ∧ ∀ n ∈ r.1, n.QuotedStrings source) :
    ∀ (fuel : Nat) {done : List (List Node)} {c : Cursor}, Reached source c →
      (∀ n ∈ done.reverse.flatten, n.QuotedStrings source) →
      Reached source (repeatRun read fuel done c).2 ∧
        ∀ n ∈ (repeatRun read fuel done c).1, n.QuotedStrings source
  | 0, _, _, hc, hdone => ⟨hc, hdone⟩
  | fuel + 1, done, c, hc, hdone => by
      rw [repeatRun]
      split
      · exact ⟨hc, hdone⟩
      · rename_i ns after hns
        split
        · exact ⟨hc, hdone⟩
        · obtain ⟨hafter, hquoted⟩ := hread _ _ hc hns
          refine repeatRun_quoted hread fuel hafter ?_
          simpa using quoted_append hdone hquoted

theorem runLinks_quoted (hrun : GivesQuoted source run) {left : Node} (hleft : left.QuotedStrings source)
    (hc : Reached source c) : ∀ {links : List (Link σ)} {node : Node} {after : Cursor},
      linksReadStrings links = true → runLinks run left links c = some (node, after) →
      Reached source after ∧ node.QuotedStrings source
  | [], _, _, _, h => by cases h
  | .mk kind role onto tail :: links, node, after, hreads, h => by
      rw [linksReadStrings, Link.readsStrings, Bool.and_eq_true, Bool.and_eq_true] at hreads
      obtain ⟨⟨hkind, htail⟩, hlinks⟩ := hreads
      unfold runLinks at h
      split at h
      · split at h
        · rename_i ns last hns
          cases h
          obtain ⟨hafter, hquoted⟩ := hrun _ _ _ htail hc hns
          refine ⟨hafter, .wrap (by simpa using hkind) fun n hn => ?_⟩
          rcases List.mem_cons.mp hn with rfl | hn
          · cases role with
            | none => exact hleft
            | some part => exact hleft.withRole part
          · exact hquoted n hn
        · exact runLinks_quoted hrun hleft hc hlinks h
      · exact runLinks_quoted hrun hleft hc hlinks h

theorem runChain_quoted (hrun : GivesQuoted source run) {links : List (Link σ)}
    (hlinks : linksReadStrings links = true) : ∀ (fuel : Nat) {left : Node} {c : Cursor},
      Reached source c → left.QuotedStrings source →
      Reached source (runChain run links fuel left c).2 ∧
        (runChain run links fuel left c).1.QuotedStrings source
  | 0, _, _, hc, hleft => ⟨hc, hleft⟩
  | fuel + 1, left, c, hc, hleft => by
      rw [runChain]
      split
      · exact ⟨hc, hleft⟩
      · rename_i node after hlink
        obtain ⟨hafter, hnode⟩ := runLinks_quoted hrun hleft hc hlinks hlink
        exact runChain_quoted hrun hlinks fuel hafter hnode

theorem quoted_assignRole {part : Role} {ns : List Node} (h : ∀ n ∈ ns, n.QuotedStrings source) :
    ∀ n ∈ assignRole part ns, n.QuotedStrings source := by
  intro n hn
  rcases mem_assignRole hn with hn | ⟨m, hm, -, rfl⟩
  · exact h n hn
  · exact (h m hm).withRole part

theorem runLength_take {test : Char → Bool} : ∀ {gs : List Glyph} (ch : Char),
    ch ∈ (gs.take (Lexeme.runLength test gs)).map Glyph.char → test ch = true
  | [], _, h => by cases h
  | g :: gs, ch, h => by
      rw [Lexeme.runLength] at h
      split at h
      · rename_i hg
        rw [List.take_succ_cons, List.map_cons] at h
        rcases List.mem_cons.mp h with rfl | h
        · exact (Bool.and_eq_true _ _ ▸ hg).2
        · exact runLength_take ch h
      · cases h

theorem nextIn_eq {chars : List Char} {gs : List Glyph} (h : Lexeme.nextIn chars gs = true) :
    ∃ g rest, gs = g :: rest ∧ g.char ∈ chars := by
  cases gs with
  | nil => cases h
  | cons g rest =>
      rw [Lexeme.nextIn, Bool.and_eq_true] at h
      exact ⟨g, rest, rfl, List.contains_iff_mem.mp h.2⟩

theorem toQuote_last {quote : Char} : ∀ {gs : List Glyph} {skip n : Nat},
    Lexeme.toQuote quote skip gs = some n → ∃ inner, (gs.take n).map Glyph.char = inner ++ [quote]
  | [], skip, _, h => by cases skip <;> cases h
  | g :: gs, skip + 1, n, h => by
      rw [Lexeme.toQuote] at h
      obtain ⟨m, hm, rfl⟩ := Option.map_eq_some_iff.mp h
      obtain ⟨inner, hinner⟩ := toQuote_last hm
      exact ⟨g.char :: inner, by simp [hinner]⟩
  | g :: gs, 0, n, h => by
      have hmore {skip m : Nat} (hm : Lexeme.toQuote quote skip gs = some m) :
          ∃ inner, ((g :: gs).take (m + 1)).map Glyph.char = inner ++ [quote] := by
        obtain ⟨inner, hinner⟩ := toQuote_last hm
        exact ⟨g.char :: inner, by simp [hinner]⟩
      rw [Lexeme.toQuote] at h
      split at h
      · rename_i hquote
        cases h
        exact ⟨[], by simpa using hquote⟩
      split at h
      · cases h
      split at h
      · split at h
        · obtain ⟨m, hm, rfl⟩ := Option.map_eq_some_iff.mp h
          exact hmore hm
        · cases h
      · obtain ⟨m, hm, rfl⟩ := Option.map_eq_some_iff.mp h
        exact hmore hm

/-- A quote in front of the closing one is escaped. -/
theorem toQuote_closed {quote : Char} (hescape : quote ≠ '\\') : ∀ {gs : List Glyph} {n : Nat} {inner : List Char},
    Lexeme.toQuote quote 0 gs = some n → (gs.take n).map Glyph.char = inner ++ [quote] →
      ∀ front back, inner = front ++ quote :: back → '\\' ∈ front
  | [], _, _, h, _, _, _, _ => by cases h
  | g :: gs, n, inner, h, hinner, front, back, hsplit => by
      rw [Lexeme.toQuote] at h
      split at h
      · cases h
        have hlength := congrArg List.length hinner
        simp [hsplit] at hlength
        omega
      rename_i hquote
      have hne : g.char ≠ quote := by simpa using hquote
      split at h
      · cases h
      obtain ⟨m, rfl⟩ : ∃ m, n = m + 1 := by
        split at h
        · split at h
          · obtain ⟨m, -, rfl⟩ := Option.map_eq_some_iff.mp h
            exact ⟨m, rfl⟩
          · cases h
        · obtain ⟨m, -, rfl⟩ := Option.map_eq_some_iff.mp h
          exact ⟨m, rfl⟩
      -- The first glyph is no quote, so it stands in front of the one in question.
      cases front with
      | nil =>
          rw [hsplit, List.take_succ_cons, List.map_cons] at hinner
          exact absurd (List.cons.inj hinner).1 hne
      | cons x front =>
          rw [hsplit, List.take_succ_cons, List.map_cons, List.cons_append, List.cons_append] at hinner
          obtain ⟨rfl, hbehind⟩ := List.cons.inj hinner
          split at h
          · rename_i hbackslash
            exact List.mem_cons.mpr (.inl (beq_iff_eq.mp hbackslash).symm)
          · obtain ⟨k, hk, hkm⟩ := Option.map_eq_some_iff.mp h
            obtain rfl := Nat.succ.inj hkm
            exact List.mem_cons_of_mem _ (toQuote_closed hescape hk hbehind front back rfl)

/-- A string literal ends with the quote that it starts with. -/
theorem quoted_of_scan {kind : Kind} {raw : Bool} {literal : Lexeme.Class} {gs : List Glyph} {n : Nat}
    (hreads : (Rule.lexeme kind raw literal : Rule σ).readsStrings = true)
    (hscan : literal.scan gs = some n) (hkind : Label.kind kind = .kind .string) :
    ∃ quote ∈ ['\x27', '"'], Node.IsQuoted quote ((gs.take n).map Glyph.char) := by
  obtain rfl := Label.kind.inj hkind
  cases literal with
  | string =>
      cases gs with
      | nil => cases hscan
      | cons g rest =>
          rw [Lexeme.Class.scan, Lexeme.string, Option.ite_none_right_eq_some] at hscan
          obtain ⟨hquote, hscan⟩ := hscan
          have hmark : g.char ∈ ['\x27', '"'] := by simpa using hquote
          have hescape : g.char ≠ '\\' := by
            intro heq
            rw [heq] at hquote
            cases hquote
          obtain ⟨m, hm, rfl⟩ := Option.map_eq_some_iff.mp hscan
          obtain ⟨inner, hinner⟩ := toQuote_last hm
          refine ⟨g.char, hmark, inner, by simp [hinner], toQuote_closed hescape hm hinner⟩
  | markupString =>
      cases gs with
      | nil => cases hscan
      | cons g rest =>
          rw [Lexeme.Class.scan, Lexeme.markupString, Option.ite_none_right_eq_some] at hscan
          obtain ⟨hquote, hscan⟩ := hscan
          have hmark : g.char ∈ ['\x27', '"'] := by simpa using hquote
          obtain ⟨hnext, hn⟩ := Option.ite_none_right_eq_some.mp hscan
          cases hn
          generalize hlength : Lexeme.runLength (fun c => c != g.char) rest = k at hnext
          obtain ⟨last, more, hdrop, hlast⟩ := nextIn_eq hnext
          have hlast : last.char = g.char := by simpa using hlast
          have htake : (g :: rest).take (k + 2) = g :: (rest.take k ++ [last]) := by
            rw [List.take_succ_cons, List.take_add, hdrop]
            rfl
          refine ⟨g.char, hmark, (rest.take k).map Glyph.char, by simp [htake, hlast], fun front back hsplit => ?_⟩
          have hmem : g.char ∈ (rest.take k).map Glyph.char := by simp [hsplit]
          rw [← hlength] at hmem
          simpa using runLength_take g.char hmem
  | _ => cases hreads

/-- The text of the glyphs between two places of a cursor. -/
theorem Reached.text_eq (hc : Reached source c) {label : Label} {role : Option Role}
    {ns : List Node} (n : Nat) :
    (Node.mk label role c.offset (c.advance n).offset ns).text source =
      String.ofList ((c.rest.take n).map Glyph.char) := by
  obtain ⟨m, rfl⟩ := hc
  have hoffset : ∀ k, ((Cursor.start source).advance k).offset = Utf8.cut source k := by
    intro k
    simp [Cursor.advance_eq, Cursor.start, Utf8.cut]
  rw [Cursor.advance_advance, hoffset, hoffset, Node.text, Node.bytes, Utf8.decodeLossy]
  simp only [Node.start, Node.stop]
  rw [Utf8.glyphs_piece, Cursor.advance_eq]
  rfl

/-- A node made of a string literal is quoted. -/
theorem quoted_lexeme {kind : Kind} {raw : Bool} {literal : Lexeme.Class} {role : Option Role}
    {n : Nat} (hreads : (Rule.lexeme kind raw literal : Rule σ).readsStrings = true)
    (hc : Reached source c) (hscan : literal.scan c.rest = some n) :
    (Node.mk (.kind kind) role c.offset (c.advance n).offset []).QuotedStrings source := by
  refine .leaf fun hkind => ?_
  rw [hc.text_eq, String.toList_ofList]
  exact quoted_of_scan hreads hscan hkind

/-- A reader for a grammar whose rules make strings of literals. -/
theorem Rule.run_quoted {grammar : σ → Rule σ} {endsLine : Char → Bool}
    (hgrammar : ∀ symbol, (grammar symbol).readsStrings = true) :
    ∀ (fuel : Nat) (place : Place), GivesQuoted source (Rule.run grammar endsLine fuel place)
  | 0, _, _, _, _, _, _, h => by simp [Rule.run] at h
  | fuel + 1, place, rule, c, r, hreads, hc, h => by
      have ih : ∀ place, GivesQuoted source (Rule.run grammar endsLine fuel place) :=
        Rule.run_quoted hgrammar fuel
      have hskip := hc.trivia fuel
      have hblank : ∀ n ∈ (trivia fuel c).1, n.QuotedStrings source := quoted_trivia fuel c
      have hsingle {n : Node} (hn : n.QuotedStrings source) :
          ∀ m ∈ (trivia fuel c).1 ++ [n], m.QuotedStrings source :=
        quoted_append hblank fun m hm => List.mem_singleton.mp hm ▸ hn
      cases rule with
      | mark text notBefore =>
          simp only [Rule.run] at h
          split at h
          · cases h
            exact ⟨hskip.advance _, hsingle (.leaf (by rintro ⟨⟩))⟩
          · cases h
      | keyword text =>
          simp only [Rule.run] at h
          split at h
          · cases h
            exact ⟨hskip.advance _, hsingle (.leaf (by rintro ⟨⟩))⟩
          · cases h
      | name kind except =>
          simp only [Rule.run] at h
          split at h
          · cases h
          · cases h
            refine ⟨hskip.advance _, hsingle (.leaf fun hkind => ?_)⟩
            rw [Label.kind.inj hkind] at hreads
            cases hreads
      | lexeme kind raw literal =>
          simp only [Rule.run] at h
          obtain ⟨n, hscan, rfl⟩ := Option.map_eq_some_iff.mp h
          cases raw with
          | true =>
              refine ⟨hc.advance n, fun m hm => ?_⟩
              rw [List.mem_singleton.mp hm]
              exact quoted_lexeme hreads hc hscan
          | false => exact ⟨hskip.advance n, hsingle (quoted_lexeme hreads hskip hscan)⟩
      | seq rules => exact runSeq_quoted (ih place) hreads hc h
      | alt rules => exact runAlt_quoted (ih place) hc hreads h
      | opt rule =>
          simp only [Rule.run] at h
          split at h
          · rename_i reading hrule
            cases h
            exact ih place rule _ _ hreads hc hrule
          · cases h
            exact ⟨hc, List.forall_mem_nil _⟩
      | many rule =>
          simp only [Rule.run] at h
          cases h
          exact repeatRun_quoted (ih place rule · · hreads) fuel hc (List.forall_mem_nil _)
      | ahead rule =>
          simp only [Rule.run] at h
          obtain ⟨_, -, rfl⟩ := Option.map_eq_some_iff.mp h
          exact ⟨hc, List.forall_mem_nil _⟩
      | notAhead rule =>
          simp only [Rule.run] at h
          split at h
          · cases h
          · cases h
            exact ⟨hc, List.forall_mem_nil _⟩
      | node kind rule =>
          simp only [Rule.run] at h
          obtain ⟨inner, hinner, rfl⟩ := Option.map_eq_some_iff.mp h
          rw [Rule.readsStrings, Bool.and_eq_true] at hreads
          obtain ⟨hafter, hquoted⟩ := ih place _ _ _ hreads.2 hskip hinner
          exact ⟨hafter, hsingle (.wrap (by simpa using hreads.1) hquoted)⟩
      | role part rule =>
          simp only [Rule.run] at h
          obtain ⟨inner, hinner, rfl⟩ := Option.map_eq_some_iff.mp h
          exact (ih place rule _ _ hreads hc hinner).imp_right quoted_assignRole
      | call symbol =>
          simp only [Rule.run] at h
          exact ih place _ _ _ (hgrammar symbol) hc h
      | chain base links =>
          rw [Rule.readsStrings, Bool.and_eq_true] at hreads
          simp only [Rule.run] at h
          split at h
          · cases h
          · rename_i ns after hbase
            obtain ⟨hafter, hns⟩ := ih place _ _ _ hreads.1 hc hbase
            split at h
            · cases h
              exact ⟨hafter, hns⟩
            · rename_i left hlast
              cases h
              obtain ⟨hend, hwhole⟩ := runChain_quoted (ih place) hreads.2 fuel hafter
                (hns left (List.mem_of_getLast? hlast))
              refine ⟨hend, quoted_append (fun n hn => hns n ((List.dropLast_sublist ns).mem hn)) ?_⟩
              exact fun n hn => List.mem_singleton.mp hn ▸ hwhole
      | fresh rule =>
          simp only [Rule.run] at h
          obtain ⟨inner, hinner, rfl⟩ := Option.map_eq_some_iff.mp h
          exact (ih place rule _ _ hreads hskip hinner).imp_right (quoted_append hblank)
      | inside inner rule =>
          simp only [Rule.run] at h
          exact ih inner rule _ _ hreads hc h
      | outside other =>
          simp only [Rule.run] at h
          split at h
          · cases h
          · cases h
            exact ⟨hc, List.forall_mem_nil _⟩
      | semicolon =>
          obtain ⟨⟨n, hn⟩, -⟩ :=
            (lineEnd_reads endsLine fuel (fun _ => trivial) h : Syntax.Reads (fun _ => True) c r)
          exact ⟨hn ▸ hc.advance n, fun m hm => .comment (lineEnd_comments endsLine fuel h m hm)⟩
      | joined =>
          simp only [Rule.run] at h
          split at h
          · split at h
            · cases h
            · cases h
              exact ⟨hc, List.forall_mem_nil _⟩
          · cases h
            exact ⟨hc, List.forall_mem_nil _⟩
      | group =>
          simp only [Rule.run] at h
          obtain ⟨n, -, rfl⟩ := Option.map_eq_some_iff.mp h
          exact ⟨hskip.advance n, hblank⟩

end

/-! ## The tree of a source -/

theorem grammar_readsStrings (d : Dialect) (symbol : Symbol) :
    (grammar d symbol).readsStrings = true := by
  cases d <;> cases symbol <;> rfl

variable {source : Bytes}

theorem readStatement_quoted {d : Dialect} {c : Cursor} {r : Reading} (hc : Reached source c)
    (h : readStatement d c = some r) : Reached source r.2 ∧ ∀ n ∈ r.1, n.QuotedStrings source := by
  simp only [readStatement] at h
  split at h
  · rename_i ns after hitem
    split at h
    · cases h
    · cases h
      exact (Rule.run_quoted (grammar_readsStrings d) _ _ _ _ _ rfl (hc.trivia _) hitem).imp_right
        (quoted_append (quoted_trivia _ c))
  · cases h

theorem readStatements_quoted {d : Dialect} : ∀ (limit : Nat) {c : Cursor}, Reached source c →
    ∀ n ∈ (readStatements d limit c).1, n.QuotedStrings source
  | 0, _, _ => List.forall_mem_nil _
  | limit + 1, c, hc => by
      rw [readStatements]
      split
      · exact List.forall_mem_nil _
      · rename_i ns after hread
        obtain ⟨hafter, hquoted⟩ := readStatement_quoted hc hread
        exact quoted_append hquoted (readStatements_quoted limit hafter)

/-- In the tree of a source, every string is quoted and has no parts. -/
theorem parse_quoted {language : String} {tree : Node} (h : parse source language = some tree) :
    tree.QuotedStrings source := by
  obtain ⟨d, -, hd⟩ := List.exists_of_findSome?_eq_some h
  unfold parseAs readBody at hd
  dsimp only at hd
  split at hd
  · cases hd
    refine .wrap nofun (quoted_append ?_ (quoted_append ?_ (quoted_trivia _ _)))
    · unfold readHashBang
      split
      · exact fun n hn => List.mem_singleton.mp hn ▸ .leaf nofun
      · exact nofun
    · obtain ⟨n, hn⟩ := readHashBang_forward (Cursor.start source)
      exact readStatements_quoted _ ⟨n, hn⟩
  · cases hd

end ImportAssist
