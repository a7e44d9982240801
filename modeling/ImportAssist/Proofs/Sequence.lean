import ImportAssist.Inventory.Imports
import ImportAssist.Proofs.Shifted

/-!
# One statement after another

A source is read as a sequence of statements. How each is read depends on what is left, so reading
may be taken up at any statement (`Steps.readBody_eq`), or in the white space and the comments before
it (`readBody_skip`).

Each statement makes one node, which starts where its text does (`readStatement_eq`). So reading comes
to the first import of a source at the offset where that starts, and no import stands before it
(`readStatements_arrives`).
-/

namespace ImportAssist

open Syntax

/-! ## Skipping in two goes -/

namespace Syntax

theorem trivia_add : ∀ (m n : Nat) (c : Cursor), trivia (m + n) c =
    ((trivia m c).1 ++ (trivia n (trivia m c).2).1, (trivia n (trivia m c).2).2)
  | 0, n, c => by simp [trivia]
  | m + 1, n, ⟨offset, []⟩ => by simp [trivia, settled_nil offset _]
  | m + 1, n, ⟨offset, g :: gs⟩ => by
      have hadd : m + 1 + n = (m + n) + 1 := by omega
      rw [hadd, trivia, trivia]
      dsimp only
      split
      · exact trivia_add m n _
      · rename_i hblank
        split
        · simp [trivia_add m n]
        · rename_i hcomment
          simp [settled_cons (Bool.eq_false_iff.mpr hblank) hcomment n]

theorem length_trivia_le (fuel : Nat) (c : Cursor) :
    (trivia fuel c).2.rest.length ≤ c.rest.length := by
  obtain ⟨n, hn⟩ := trivia_forward fuel c
  rw [hn, Cursor.length_advance]
  omega

theorem offset_le_trivia (fuel : Nat) (c : Cursor) : c.offset ≤ (trivia fuel c).2.offset := by
  obtain ⟨n, hn⟩ := trivia_forward fuel c
  rw [hn]
  exact Cursor.offset_le_advance n c

/-- All that is to be skipped, when some of it has been. -/
theorem trivia_resume (n : Nat) (c : Cursor) : trivia c.rest.length c =
    ((trivia n c).1 ++ (trivia (trivia n c).2.rest.length (trivia n c).2).1,
      (trivia (trivia n c).2.rest.length (trivia n c).2).2) := by
  rw [← trivia_stable (length_trivia_le n c), ← trivia_add, trivia_stable (Nat.le_add_left _ _)]

end Syntax

/-! ## Taking up the reading -/

variable {d : Dialect}

theorem readStatement_skip (n : Nat) (c : Cursor) : readStatement d c =
    (readStatement d (trivia n c).2).map fun r => ((trivia n c).1 ++ r.1, r.2) := by
  unfold readStatement
  rw [trivia_resume n c]
  generalize trivia (trivia n c).2.rest.length (trivia n c).2 = skipped
  dsimp only
  split
  · split
    · rfl
    · simp
  · rfl

/-- A statement takes something behind the white space and the comments in front of it. -/
theorem readStatement_offset {c : Cursor} {r : Reading} (h : readStatement d c = some r) :
    (trivia c.rest.length c).2.offset < r.2.offset := by
  simp only [readStatement] at h
  split at h
  · split at h
    · cases h
    · cases h
      dsimp only
      omega
  · cases h

theorem readStatement_shorter {c : Cursor} {r : Reading} (h : readStatement d c = some r) :
    r.2.rest.length < c.rest.length := by
  have hlt : c.offset < r.2.offset :=
    Nat.lt_of_le_of_lt (offset_le_trivia c.rest.length c) (readStatement_offset h)
  obtain ⟨n, hn⟩ := readStatement_forward h
  rw [hn] at hlt ⊢
  rw [Cursor.length_advance]
  cases n with
  | zero => exact absurd hlt (Nat.lt_irrefl _)
  | succ n =>
      obtain ⟨offset, rest⟩ := c
      cases rest with
      | nil => exact absurd hlt (Nat.lt_irrefl _)
      | cons g gs =>
          simp only [List.length_cons]
          omega

theorem readStatements_agree : ∀ {limit limit' : Nat} {c : Cursor}, c.rest.length ≤ limit →
    c.rest.length ≤ limit' → readStatements d limit c = readStatements d limit' c
  | 0, 0, _, _, _ => rfl
  | 0, limit' + 1, c, h, _ => by
      rw [readStatements, readStatements]
      split
      · rfl
      · rename_i hread
        have := readStatement_shorter hread
        omega
  | limit + 1, 0, c, _, h => by
      rw [readStatements, readStatements]
      split
      · rfl
      · rename_i hread
        have := readStatement_shorter hread
        omega
  | limit + 1, limit' + 1, c, h, h' => by
      rw [readStatements, readStatements]
      split
      · rfl
      · rename_i ns after hread
        have hlt := readStatement_shorter hread
        dsimp only at hlt ⊢
        have hmore : readStatements d limit after = readStatements d limit' after :=
          readStatements_agree (by omega) (by omega)
        rw [hmore]

/-- The body from one statement on. -/
theorem readBody_step {c : Cursor} {r : Reading} (h : readStatement d c = some r) :
    readBody d c = (r.1 ++ (readBody d r.2).1, (readBody d r.2).2) := by
  have hlt := readStatement_shorter h
  have hstep : readStatements d c.rest.length c =
      (r.1 ++ (readStatements d r.2.rest.length r.2).1, (readStatements d r.2.rest.length r.2).2) := by
    obtain ⟨n, hn⟩ : ∃ n, c.rest.length = n + 1 := ⟨c.rest.length - 1, by omega⟩
    have hmore : readStatements d n r.2 = readStatements d r.2.rest.length r.2 :=
      readStatements_agree (by omega) (Nat.le_refl _)
    rw [hn, readStatements, h]
    dsimp only
    rw [hmore]
  simp [readBody, hstep]

/-- The body where there is no further statement. -/
theorem readBody_stop {c : Cursor} (h : readStatement d c = none) :
    readBody d c = trivia c.rest.length c := by
  have hstop : readStatements d c.rest.length c = ([], c) := by
    cases c.rest.length with
    | zero => rfl
    | succ n => rw [readStatements, h]
  simp [readBody, hstop]

/-- The body when some of what is to be skipped has been. -/
theorem readBody_skip (n : Nat) (c : Cursor) : readBody d c =
    ((trivia n c).1 ++ (readBody d (trivia n c).2).1, (readBody d (trivia n c).2).2) := by
  have hskip := readStatement_skip (d := d) n c
  cases hread : readStatement d (trivia n c).2 with
  | none =>
      rw [hread] at hskip
      rw [readBody_stop hskip, readBody_stop hread, ← trivia_resume]
  | some r =>
      rw [hread] at hskip
      rw [readBody_step hskip, readBody_step hread]
      simp

/-- Reading statements comes from one cursor to another and gives some nodes. -/
inductive Steps (d : Dialect) : Cursor → List Node → Cursor → Prop where
  | refl (c : Cursor) : Steps d c [] c
  | step {c : Cursor} {r : Reading} {ns : List Node} {last : Cursor} :
      readStatement d c = some r → Steps d r.2 ns last → Steps d c (r.1 ++ ns) last

theorem Steps.readBody_eq {c last : Cursor} {ns : List Node} (h : Steps d c ns last) :
    readBody d c = (ns ++ (readBody d last).1, (readBody d last).2) := by
  induction h with
  | refl c => simp
  | step hread _ ih =>
      rw [readBody_step hread, ih]
      simp

/-! ## One node for each statement -/

/-- Comments and the interpreter line stand between statements. -/
def Kind.isAside (kind : Kind) : Bool := kind == .comment || kind == .hashBang

def Node.isAside (n : Node) : Bool := n.hasKind .comment || n.hasKind .hashBang

/-- A rule that makes one node of all that it reads. -/
inductive OneNode {σ : Type} (grammar : σ → Rule σ) : Rule σ → Prop where
  | lexeme (kind : Kind) (literal : Lexeme.Class) : kind.isAside = false →
      OneNode grammar (.lexeme kind false literal)
  | node (kind : Kind) (rule : Rule σ) : kind.isAside = false → OneNode grammar (.node kind rule)
  | alt {rules : List (Rule σ)} : (∀ rule ∈ rules, OneNode grammar rule) → OneNode grammar (.alt rules)
  | fresh {rule : Rule σ} : OneNode grammar rule → OneNode grammar (.fresh rule)
  | inside {rule : Rule σ} (place : Place) : OneNode grammar rule → OneNode grammar (.inside place rule)
  | call (symbol : σ) : OneNode grammar (grammar symbol) → OneNode grammar (.call symbol)

theorem runSeq_cons {σ : Type} {run : Rule σ → Cursor → Option Reading} {rule : Rule σ}
    {rules : List (Rule σ)} {c : Cursor} {r : Reading} (h : runSeq run (rule :: rules) c = some r) :
    ∃ first more, run rule c = some first ∧ runSeq run rules first.2 = some more ∧
      r = (first.1 ++ more.1, more.2) := by
  rw [runSeq] at h
  split at h
  · cases h
  · rename_i ns after hrule
    split at h
    · cases h
    · rename_i ms last hrules
      cases h
      exact ⟨_, _, hrule, hrules, rfl⟩

theorem runAlt_mem {σ : Type} {run : Rule σ → Cursor → Option Reading} {c : Cursor} {r : Reading} :
    ∀ {rules : List (Rule σ)}, runAlt run rules c = some r → ∃ rule ∈ rules, run rule c = some r
  | [], h => by cases h
  | rule :: rules, h => by
      rw [runAlt] at h
      split at h
      · rename_i reading hrule
        cases h
        exact ⟨rule, List.mem_cons_self .., hrule⟩
      · obtain ⟨other, hmem, hother⟩ := runAlt_mem h
        exact ⟨other, List.mem_cons_of_mem _ hmem, hother⟩

theorem OneNode.run {σ : Type} {grammar : σ → Rule σ} {endsLine : Char → Bool} {c : Cursor}
    (hc : c.Settled) {rule : Rule σ} (hrule : OneNode grammar rule) :
    ∀ {fuel : Nat} {place : Place} {r : Reading},
      Rule.run grammar endsLine fuel place rule c = some r →
        ∃ n, r.1 = [n] ∧ n.start = c.offset ∧ n.isAside = false := by
  have haside {kind : Kind} {start stop : Nat} {ns : List Node} (hkind : kind.isAside = false) :
      (Node.mk (.kind kind) none start stop ns).isAside = false := by
    simpa [Kind.isAside, Node.isAside, Node.hasKind, Node.label] using hkind
  induction hrule with
  | lexeme kind literal hkind =>
      intro fuel place r h
      cases fuel with
      | zero => cases h
      | succ fuel =>
          simp only [Rule.run, hc fuel] at h
          obtain ⟨n, -, rfl⟩ := Option.map_eq_some_iff.mp h
          exact ⟨_, rfl, rfl, haside hkind⟩
  | node kind rule hkind =>
      intro fuel place r h
      cases fuel with
      | zero => cases h
      | succ fuel =>
          simp only [Rule.run, hc fuel] at h
          obtain ⟨inner, -, rfl⟩ := Option.map_eq_some_iff.mp h
          exact ⟨_, rfl, rfl, haside hkind⟩
  | alt _ ih =>
      intro fuel place r h
      cases fuel with
      | zero => cases h
      | succ fuel =>
          obtain ⟨rule, hmem, hrule⟩ := runAlt_mem h
          exact ih rule hmem hrule
  | fresh _ ih =>
      intro fuel place r h
      cases fuel with
      | zero => cases h
      | succ fuel =>
          simp only [Rule.run, hc fuel] at h
          obtain ⟨inner, hinner, rfl⟩ := Option.map_eq_some_iff.mp h
          simpa using ih hinner
  | inside place _ ih =>
      intro fuel place r h
      cases fuel with
      | zero => cases h
      | succ fuel => exact ih h
  | call symbol _ ih =>
      intro fuel place r h
      cases fuel with
      | zero => cases h
      | succ fuel => exact ih h

theorem oneNode_onlyIf {condition : Bool} {rule : Grammar.Production}
    (h : OneNode (grammar d) rule) : OneNode (grammar d) (Grammar.onlyIf condition rule) := by
  cases condition with
  | true => exact h
  | false => exact .alt nofun

theorem oneNode_declaration : OneNode (grammar d) (Grammar.declaration d) := by
  refine .fresh (.alt ?_)
  simp only [List.forall_mem_cons, List.not_mem_nil, false_imp_iff, implies_true, and_true]
  exact ⟨.node _ _ rfl, .node _ _ rfl, .node _ _ rfl, oneNode_onlyIf (.node _ _ rfl), .node _ _ rfl,
    .node _ _ rfl, oneNode_onlyIf (.node _ _ rfl), oneNode_onlyIf (.node _ _ rfl), oneNode_onlyIf (.node _ _ rfl),
    oneNode_onlyIf (.node _ _ rfl), oneNode_onlyIf (.node _ _ rfl), oneNode_onlyIf (.node _ _ rfl),
    oneNode_onlyIf (.node _ _ rfl), oneNode_onlyIf (.call _ (.node _ _ rfl)), oneNode_onlyIf (.node _ _ rfl)⟩

theorem oneNode_statement : OneNode (grammar d) (Grammar.statement d) := by
  refine .fresh (.inside _ (.alt ?_))
  simp only [List.forall_mem_cons, List.not_mem_nil, false_imp_iff, implies_true, and_true]
  exact ⟨.node _ _ rfl, .node _ _ rfl, .call _ oneNode_declaration, .call _ (.node _ _ rfl), .node _ _ rfl,
    .node _ _ rfl, .node _ _ rfl, .node _ _ rfl, .node _ _ rfl, .node _ _ rfl, .node _ _ rfl, .node _ _ rfl,
    .node _ _ rfl, .node _ _ rfl, .node _ _ rfl, .node _ _ rfl, .node _ _ rfl, .node _ _ rfl, .node _ _ rfl,
    .node _ _ rfl⟩

theorem oneNode_item : OneNode (grammar d) Grammar.item := by
  refine .alt ?_
  simp only [List.forall_mem_cons, List.not_mem_nil, false_imp_iff, implies_true, and_true]
  exact ⟨.lexeme _ _ rfl, .call _ oneNode_statement⟩

/-- What is skipped in front of a statement, and the node it makes. -/
theorem readStatement_eq {c : Cursor} {r : Reading} (h : readStatement d c = some r) :
    ∃ n, r.1 = (trivia c.rest.length c).1 ++ [n] ∧ n.start = (trivia c.rest.length c).2.offset ∧
      n.isAside = false := by
  have hsettled := trivia_settled (Nat.le_refl c.rest.length)
  simp only [readStatement] at h
  split at h
  · rename_i ns after hitem
    split at h
    · cases h
    · cases h
      obtain ⟨n, hns, hn⟩ := oneNode_item.run hsettled hitem
      exact ⟨n, by rw [← hns], hn⟩
  · cases h

end ImportAssist
