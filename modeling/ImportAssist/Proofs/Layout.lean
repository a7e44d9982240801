import ImportAssist.Proofs.Cuts
import ImportAssist.Syntax.Parse

/-!
# How trees lie on their source

A tree is *placed* if its nodes lie inside their parents, follow each other, and start and stop
only at offsets that are allowed. `parse_placed` says that reading a source gives a tree that is
placed on the cuts of the source: no node splits a character, leaves the source, or overlaps the
node next to it.

The proof is one induction over the depth of the reading. What carries it is `Reads`: a reader
leaves the cursor at or behind where it was, and the nodes it gives lie in a row between the two.
-/

namespace ImportAssist

namespace Node

mutual

/-- A tree whose nodes start and stop at offsets that satisfy `ok`, each with its children in a row
inside it. -/
def Placed (ok : Nat → Prop) : Node → Prop
  | mk _ _ start stop children => ok start ∧ ok stop ∧ Row ok start stop children

/-- Trees that follow each other between the offsets `lo` and `hi`. -/
def Row (ok : Nat → Prop) : Nat → Nat → List Node → Prop
  | lo, hi, [] => lo ≤ hi
  | lo, hi, n :: ns => lo ≤ n.start ∧ n.Placed ok ∧ Row ok n.stop hi ns

end

/-! ## Rows -/

variable {ok : Nat → Prop} {lo mid hi : Nat}

theorem Row.le : ∀ {ns : List Node} {lo hi : Nat}, Row ok lo hi ns → lo ≤ hi
  | [], _, _, h => by simpa [Row] using h
  | mk _ _ start stop cs :: ns, _, _, h => by
      simp only [Row, Placed, Node.start, Node.stop] at h
      obtain ⟨hlo, ⟨-, -, hcs⟩, hns⟩ := h
      exact Nat.le_trans hlo (Nat.le_trans hcs.le hns.le)

theorem Placed.ends {n : Node} (h : n.Placed ok) : ok n.start ∧ ok n.stop ∧ n.start ≤ n.stop := by
  obtain ⟨label, role, start, stop, cs⟩ := n
  simp only [Placed] at h
  exact ⟨h.1, h.2.1, h.2.2.le⟩

theorem Placed.row {n : Node} (h : n.Placed ok) : Row ok n.start n.stop n.children := by
  obtain ⟨label, role, start, stop, cs⟩ := n
  simp only [Placed] at h
  exact h.2.2

theorem row_nil : Row ok lo hi [] ↔ lo ≤ hi := by simp [Row]

theorem row_cons {n : Node} {ns : List Node} :
    Row ok lo hi (n :: ns) ↔ lo ≤ n.start ∧ n.Placed ok ∧ Row ok n.stop hi ns := by simp [Row]

theorem Row.imp {ok' : Nat → Prop} (himp : ∀ k, ok k → ok' k) :
    ∀ {ns : List Node} {lo hi : Nat}, Row ok lo hi ns → Row ok' lo hi ns
  | [], _, _, h => row_nil.mpr h.le
  | mk _ _ start stop cs :: ns, _, _, h => by
      simp only [Row, Placed, Node.start, Node.stop] at h ⊢
      obtain ⟨hlo, ⟨hstart, hstop, hcs⟩, hns⟩ := h
      exact ⟨hlo, ⟨himp _ hstart, himp _ hstop, hcs.imp himp⟩, hns.imp himp⟩

theorem Placed.imp {ok' : Nat → Prop} {n : Node} (h : n.Placed ok) (himp : ∀ k, ok k → ok' k) :
    n.Placed ok' := by
  obtain ⟨label, role, start, stop, cs⟩ := n
  simp only [Placed] at h ⊢
  exact ⟨himp _ h.1, himp _ h.2.1, h.2.2.imp himp⟩

theorem Row.widen_left {lo' : Nat} (hlo : lo' ≤ lo) :
    ∀ {ns : List Node}, Row ok lo hi ns → Row ok lo' hi ns
  | [], h => row_nil.mpr (Nat.le_trans hlo h.le)
  | _ :: _, h => by
      rw [row_cons] at h ⊢
      exact ⟨Nat.le_trans hlo h.1, h.2⟩

theorem Row.append : ∀ {as : List Node} {lo : Nat} {bs : List Node},
    Row ok lo mid as → Row ok mid hi bs → Row ok lo hi (as ++ bs)
  | [], _, _, ha, hb => hb.widen_left ha.le
  | _ :: _, _, _, ha, hb => by
      rw [row_cons] at ha
      rw [List.cons_append, row_cons]
      exact ⟨ha.1, ha.2.1, ha.2.2.append hb⟩

theorem Row.single {n : Node} (h : n.Placed ok) (hlo : lo ≤ n.start) (hhi : n.stop ≤ hi) :
    Row ok lo hi [n] := by
  rw [row_cons, row_nil]
  exact ⟨hlo, h, hhi⟩

theorem Row.mem : ∀ {ns : List Node} {lo : Nat}, Row ok lo hi ns →
    ∀ n ∈ ns, lo ≤ n.start ∧ n.stop ≤ hi ∧ n.Placed ok
  | [], _, _, _, hn => (List.not_mem_nil hn).elim
  | m :: ms, lo, h, n, hn => by
      rw [row_cons] at h
      obtain ⟨hlo, hm, hms⟩ := h
      rcases List.mem_cons.mp hn with rfl | hn
      · exact ⟨hlo, hms.le, hm⟩
      · obtain ⟨h1, h2, h3⟩ := hms.mem n hn
        exact ⟨Nat.le_trans hlo (Nat.le_trans hm.ends.2.2 h1), h2, h3⟩

namespace Placed

variable {n c : Node}

theorem child (h : n.Placed ok) (hc : c ∈ n.children) : c.Placed ok := (h.row.mem c hc).2.2

theorem child? (h : n.Placed ok) {role : Role} (hc : n.child? role = some c) : c.Placed ok :=
  h.child (List.mem_of_find?_eq_some hc)

theorem named (h : n.Placed ok) (hc : c ∈ n.namedChildren) : c.Placed ok :=
  h.child (List.mem_filter.1 hc).1

theorem ofKind (h : n.Placed ok) {kind : Kind} (hc : c ∈ n.childrenOfKind kind) : c.Placed ok :=
  h.child (List.mem_filter.1 hc).1

end Placed

/-- Of two trees in a row the first stops before the second starts. -/
theorem Row.pairwise : ∀ {ns : List Node} {lo : Nat}, Row ok lo hi ns →
    ns.Pairwise fun a b => a.stop ≤ b.start
  | [], _, _ => List.Pairwise.nil
  | _ :: _, _, h => by
      rw [row_cons] at h
      exact List.Pairwise.cons (fun b hb => (h.2.2.mem b hb).1) h.2.2.pairwise

/-- A row without its last tree ends where that tree starts. -/
theorem Row.dropLast_last {ns : List Node} {last : Node} (h : Row ok lo hi ns)
    (hlast : ns.getLast? = some last) :
    Row ok lo last.start ns.dropLast ∧ last.Placed ok ∧ last.stop ≤ hi := by
  induction ns generalizing lo with
  | nil => cases hlast
  | cons n ns ih =>
      rw [row_cons] at h
      obtain ⟨hlo, hn, hns⟩ := h
      cases ns with
      | nil =>
          obtain rfl : n = last := by simpa using hlast
          exact ⟨row_nil.mpr hlo, hn, hns.le⟩
      | cons m ms =>
          rw [List.getLast?_cons_cons] at hlast
          obtain ⟨hinit, hrest⟩ := ih hns hlast
          rw [List.dropLast_cons_cons, row_cons]
          exact ⟨⟨hlo, hn, hinit⟩, hrest⟩

@[simp] theorem withRole_start (role : Role) (n : Node) : (n.withRole role).start = n.start := by
  cases n; rfl

@[simp] theorem withRole_stop (role : Role) (n : Node) : (n.withRole role).stop = n.stop := by
  cases n; rfl

theorem Placed.withRole {n : Node} (h : n.Placed ok) (role : Role) : (n.withRole role).Placed ok := by
  obtain ⟨label, _, start, stop, cs⟩ := n
  simpa only [Node.withRole, Placed] using h

theorem Row.assignRole (role : Role) : ∀ {ns : List Node} {lo : Nat},
    Row ok lo hi ns → Row ok lo hi (Syntax.assignRole role ns)
  | [], _, h => h
  | n :: ns, _, h => by
      rw [row_cons] at h
      rw [Syntax.assignRole]
      split
      · split
        · exact row_cons.mpr h
        · exact row_cons.mpr (by simpa using ⟨h.1, h.2.1.withRole role, h.2.2⟩)
      · exact row_cons.mpr ⟨h.1, h.2.1, h.2.2.assignRole role⟩

end Node

namespace Syntax

/-! ## Cursors -/

namespace Cursor

theorem advance_eq : ∀ (n : Nat) (c : Cursor),
    c.advance n = ⟨c.offset + Utf8.width (c.rest.take n), c.rest.drop n⟩
  | 0, c => by simp [advance]
  | n + 1, ⟨offset, []⟩ => by simp [advance]
  | n + 1, ⟨offset, g :: rest⟩ => by
      rw [advance, advance_eq n]
      simp [Nat.add_assoc]

theorem advance_advance (m n : Nat) (c : Cursor) : (c.advance m).advance n = c.advance (m + n) := by
  simp only [advance_eq, List.take_add, Utf8.width_append, List.drop_drop, Nat.add_assoc]

theorem offset_le_advance (n : Nat) (c : Cursor) : c.offset ≤ (c.advance n).offset := by
  rw [advance_eq]
  exact Nat.le_add_right _ _

/-- From here on the cursor stops at allowed offsets only. -/
def On (ok : Nat → Prop) (c : Cursor) : Prop := ∀ n, ok (c.advance n).offset

variable {ok : Nat → Prop} {c : Cursor}

theorem On.offset (h : c.On ok) : ok c.offset := h 0

theorem On.advance (h : c.On ok) (n : Nat) : (c.advance n).On ok := by
  intro m
  rw [advance_advance]
  exact h (n + m)

end Cursor

/-! ## What a reader gives -/

/-- Reading from `c` went forward and gave nodes in a row. -/
def Reads (ok : Nat → Prop) (c : Cursor) (reading : Reading) : Prop :=
  (∃ n, reading.2 = c.advance n) ∧ Node.Row ok c.offset reading.2.offset reading.1

variable {ok : Nat → Prop} {c : Cursor}

theorem Reads.nil (c : Cursor) : Reads ok c ([], c) :=
  ⟨⟨0, rfl⟩, Node.row_nil.mpr (Nat.le_refl _)⟩

theorem Reads.on {r : Reading} (h : Reads ok c r) (hc : c.On ok) : r.2.On ok := by
  obtain ⟨⟨n, hn⟩, -⟩ := h
  rw [hn]
  exact hc.advance n

theorem Reads.append {r s : Reading} (hr : Reads ok c r) (hs : Reads ok r.2 s) :
    Reads ok c (r.1 ++ s.1, s.2) := by
  obtain ⟨⟨m, hm⟩, hrow⟩ := hr
  obtain ⟨⟨n, hn⟩, hrow'⟩ := hs
  exact ⟨⟨m + n, by rw [hn, hm, Cursor.advance_advance]⟩, hrow.append hrow'⟩

/-- Going on without a node. -/
theorem Reads.advance {r : Reading} (h : Reads ok c r) (n : Nat) :
    Reads ok c (r.1, r.2.advance n) := by
  have := h.append (s := ([], r.2.advance n))
    ⟨⟨n, rfl⟩, Node.row_nil.mpr (Cursor.offset_le_advance n r.2)⟩
  simpa using this

/-- The nodes read become the children of one. -/
theorem Reads.wrap {r : Reading} (h : Reads ok c r) (hc : c.On ok) (label : Label)
    (role : Option Role) : Reads ok c ([.mk label role c.offset r.2.offset r.1], r.2) := by
  refine ⟨h.1, Node.Row.single ?_ (Nat.le_refl _) (Nat.le_refl _)⟩
  rw [Node.Placed]
  exact ⟨hc.offset, (h.on hc).offset, h.2⟩

theorem reads_leaf (hc : c.On ok) (label : Label) (n : Nat) :
    Reads ok c ([.mk label none c.offset (c.advance n).offset []], c.advance n) :=
  ((Reads.nil c).advance n).wrap hc label none

theorem trivia_reads : ∀ (fuel : Nat) {c : Cursor}, c.On ok → Reads ok c (trivia fuel c)
  | 0, c, _ => Reads.nil c
  | fuel + 1, c, hc => by
      rw [trivia]
      split
      · exact Reads.nil c
      · split
        · exact ((Reads.nil c).advance 1).append (trivia_reads fuel (hc.advance 1))
        · split
          · exact (reads_leaf hc (.kind .comment) _).append (trivia_reads fuel (hc.advance _))
          · exact Reads.nil c

theorem lineEnd_reads (endsLine : Char → Bool) : ∀ (fuel : Nat) {c : Cursor} {r : Reading},
    c.On ok → lineEnd endsLine fuel c = some r → Reads ok c r
  | 0, _, _, _, h => by simp [lineEnd] at h
  | fuel + 1, c, r, hc, h => by
      rw [lineEnd] at h
      split at h
      · cases h
        exact Reads.nil c
      · split at h
        · cases h
          exact Reads.nil c
        · split at h
          · split at h
            · cases h
              exact Reads.nil c
            · cases h
          · split at h
            · obtain ⟨more, hmore, rfl⟩ := Option.map_eq_some_iff.mp h
              exact ((Reads.nil c).advance _).append
                ((reads_leaf (hc.advance _) (.kind .comment) _).append
                  (lineEnd_reads endsLine fuel ((hc.advance _).advance _) hmore))
            · cases h

/-! ## Readers made of readers -/

/-- A reader for rules that keeps to allowed offsets. -/
def Orderly {σ : Type} (ok : Nat → Prop) (run : Rule σ → Cursor → Option Reading) : Prop :=
  ∀ (rule : Rule σ) (c : Cursor) (r : Reading), c.On ok → run rule c = some r → Reads ok c r

variable {σ : Type} {run : Rule σ → Cursor → Option Reading}

theorem runSeq_reads (hrun : Orderly ok run) : ∀ {rules : List (Rule σ)} {c : Cursor} {r : Reading},
    c.On ok → runSeq run rules c = some r → Reads ok c r
  | [], c, r, _, h => by
      cases h
      exact Reads.nil c
  | rule :: rules, c, r, hc, h => by
      rw [runSeq] at h
      split at h
      · cases h
      · rename_i ns after hrule
        have hfirst := hrun _ _ _ hc hrule
        split at h
        · cases h
        · rename_i ms last hrules
          cases h
          exact hfirst.append (runSeq_reads hrun (hfirst.on hc) hrules)

theorem runAlt_reads (hrun : Orderly ok run) : ∀ {rules : List (Rule σ)} {r : Reading},
    c.On ok → runAlt run rules c = some r → Reads ok c r
  | [], _, _, h => by cases h
  | rule :: rules, r, hc, h => by
      rw [runAlt] at h
      split at h
      · rename_i reading hrule
        cases h
        exact hrun _ _ _ hc hrule
      · exact runAlt_reads hrun hc h

theorem repeatRun_reads {read : Cursor → Option Reading}
    (hread : ∀ c r, c.On ok → read c = some r → Reads ok c r) :
    ∀ (fuel : Nat) {done : List (List Node)} {here : Cursor}, c.On ok →
      Reads ok c (done.reverse.flatten, here) → Reads ok c (repeatRun read fuel done here)
  | 0, _, _, _, hdone => hdone
  | fuel + 1, done, here, hc, hdone => by
      rw [repeatRun]
      split
      · exact hdone
      · rename_i ns after hns
        split
        · exact hdone
        · refine repeatRun_reads hread fuel hc ?_
          simpa using hdone.append (hread _ _ (hdone.on hc) hns)

/-- An operand that ends in front of the cursor. -/
structure Operand (ok : Nat → Prop) (left : Node) (c : Cursor) : Prop where
  placed : left.Placed ok
  stop_le : left.stop ≤ c.offset
  on : c.On ok

theorem runLinks_operand (hrun : Orderly ok run) {left : Node} (hleft : Operand ok left c) :
    ∀ {links : List (Link σ)} {whole : Node} {after : Cursor},
      runLinks run left links c = some (whole, after) →
      whole.start = left.start ∧ Operand ok whole after ∧ ∃ n, after = c.advance n
  | [], _, _, h => by cases h
  | .mk kind role onto tail :: links, whole, after, h => by
      unfold runLinks at h
      split at h
      · split at h
        · rename_i ns last htail
          cases h
          obtain ⟨hforward, hrow⟩ := hrun _ _ _ hleft.on htail
          have hlast : after.On ok := Reads.on ⟨hforward, hrow⟩ hleft.on
          refine ⟨rfl, ⟨?_, Nat.le_refl _, hlast⟩, hforward⟩
          rw [Node.Placed]
          refine ⟨hleft.placed.ends.1, hlast.offset, ?_⟩
          have hrest := hrow.widen_left hleft.stop_le
          cases role with
          | none => exact Node.row_cons.mpr ⟨Nat.le_refl _, hleft.placed, hrest⟩
          | some r =>
              exact Node.row_cons.mpr (by simpa using ⟨hleft.placed.withRole r, hrest⟩)
        · exact runLinks_operand hrun hleft h
      · exact runLinks_operand hrun hleft h

theorem runChain_operand (hrun : Orderly ok run) (links : List (Link σ)) :
    ∀ (fuel : Nat) {left : Node} {c : Cursor}, Operand ok left c →
      (runChain run links fuel left c).1.start = left.start ∧
        Operand ok (runChain run links fuel left c).1 (runChain run links fuel left c).2 ∧
        ∃ n, (runChain run links fuel left c).2 = c.advance n
  | 0, _, _, hleft => ⟨rfl, hleft, 0, rfl⟩
  | fuel + 1, left, c, hleft => by
      rw [runChain]
      split
      · exact ⟨rfl, hleft, 0, rfl⟩
      · rename_i node after hlink
        obtain ⟨hstart, hnode, m, hm⟩ := runLinks_operand hrun hleft hlink
        obtain ⟨hstart', hwhole, n, hn⟩ := runChain_operand hrun links fuel hnode
        exact ⟨hstart'.trans hstart, hwhole, m + n, by rw [hn, hm, Cursor.advance_advance]⟩

theorem chain_reads (hrun : Orderly ok run) {ns : List Node} {after : Cursor} {left : Node}
    (links : List (Link σ)) (fuel : Nat) (hc : c.On ok) (h : Reads ok c (ns, after))
    (hlast : ns.getLast? = some left) :
    Reads ok c (ns.dropLast ++ [(runChain run links fuel left after).1],
      (runChain run links fuel left after).2) := by
  obtain ⟨hinit, hplaced, hstop⟩ := h.2.dropLast_last hlast
  have hleft : Operand ok left after := ⟨hplaced, hstop, h.on hc⟩
  obtain ⟨hstart, hwhole, n, hn⟩ := runChain_operand hrun links fuel hleft
  obtain ⟨⟨m, rfl⟩, -⟩ := h
  refine ⟨⟨m + n, ?_⟩, hinit.append ?_⟩
  · rw [hn, Cursor.advance_advance]
  · exact Node.Row.single hwhole.placed (Nat.le_of_eq hstart.symm) hwhole.stop_le

theorem token_reads (fuel : Nat) (hc : c.On ok) (label : Label) (n : Nat) :
    Reads ok c (token (trivia fuel c).1 (trivia fuel c).2 n fun s e => .mk label none s e []) :=
  (trivia_reads fuel hc).append (reads_leaf ((trivia_reads fuel hc).on hc) label n)

end Syntax

open Syntax

/-- Every rule reads forward and gives its nodes in a row. -/
theorem Rule.run_reads {σ : Type} {ok : Nat → Prop} (grammar : σ → Rule σ) (endsLine : Char → Bool) :
    ∀ (fuel : Nat) (place : Place), Orderly ok (Rule.run grammar endsLine fuel place)
  | 0, _, _, _, _, _, h => by simp [Rule.run] at h
  | fuel + 1, place, rule, c, r, hc, h => by
      have ih : ∀ place, Orderly ok (Rule.run grammar endsLine fuel place) :=
        Rule.run_reads grammar endsLine fuel
      have hblank := trivia_reads fuel hc
      cases rule with
      | mark text notBefore =>
          simp only [Rule.run] at h
          split at h
          · cases h
            exact token_reads fuel hc (.token text) _
          · cases h
      | keyword text =>
          simp only [Rule.run] at h
          split at h
          · cases h
            exact token_reads fuel hc (.token text) _
          · cases h
      | name kind except =>
          simp only [Rule.run] at h
          split at h
          · cases h
          · cases h
            exact token_reads fuel hc (.kind kind) _
      | lexeme kind raw literal =>
          simp only [Rule.run] at h
          obtain ⟨n, -, rfl⟩ := Option.map_eq_some_iff.mp h
          cases raw with
          | true => exact reads_leaf hc (.kind kind) n
          | false => exact token_reads fuel hc (.kind kind) n
      | seq rules => exact runSeq_reads (ih place) hc h
      | alt rules => exact runAlt_reads (ih place) hc h
      | opt rule =>
          simp only [Rule.run] at h
          split at h
          · rename_i reading hrule
            cases h
            exact ih place _ _ _ hc hrule
          · cases h
            exact Syntax.Reads.nil c
      | many rule =>
          simp only [Rule.run] at h
          cases h
          exact repeatRun_reads (ih place rule) fuel hc (Syntax.Reads.nil c)
      | ahead rule =>
          simp only [Rule.run] at h
          obtain ⟨_, -, rfl⟩ := Option.map_eq_some_iff.mp h
          exact Syntax.Reads.nil c
      | notAhead rule =>
          simp only [Rule.run] at h
          split at h
          · cases h
          · cases h
            exact Syntax.Reads.nil c
      | node kind rule =>
          simp only [Rule.run] at h
          obtain ⟨inner, hinner, rfl⟩ := Option.map_eq_some_iff.mp h
          have hon := hblank.on hc
          exact hblank.append ((ih place _ _ _ hon hinner).wrap hon (.kind kind) none)
      | role part rule =>
          simp only [Rule.run] at h
          obtain ⟨inner, hinner, rfl⟩ := Option.map_eq_some_iff.mp h
          obtain ⟨hforward, hrow⟩ := ih place _ _ _ hc hinner
          exact ⟨hforward, hrow.assignRole part⟩
      | call symbol =>
          simp only [Rule.run] at h
          exact ih place _ _ _ hc h
      | chain base links =>
          simp only [Rule.run] at h
          split at h
          · cases h
          · rename_i ns after hbase
            have hreads := ih place _ _ _ hc hbase
            split at h
            · cases h
              exact hreads
            · rename_i left hlast
              cases h
              exact chain_reads (ih place) links fuel hc hreads hlast
      | fresh rule =>
          simp only [Rule.run] at h
          obtain ⟨inner, hinner, rfl⟩ := Option.map_eq_some_iff.mp h
          exact hblank.append (ih place _ _ _ (hblank.on hc) hinner)
      | inside inner rule =>
          simp only [Rule.run] at h
          exact ih inner _ _ _ hc h
      | outside other =>
          simp only [Rule.run] at h
          split at h
          · cases h
          · cases h
            exact Syntax.Reads.nil c
      | semicolon => exact lineEnd_reads endsLine fuel hc h
      | joined =>
          simp only [Rule.run] at h
          split at h
          · split at h
            · cases h
            · cases h
              exact Syntax.Reads.nil c
          · cases h
            exact Syntax.Reads.nil c
      | group =>
          simp only [Rule.run] at h
          obtain ⟨n, -, rfl⟩ := Option.map_eq_some_iff.mp h
          exact hblank.advance n

/-! ## Whole sources -/

namespace Syntax

theorem Cursor.start_on (source : Bytes) : (Cursor.start source).On (Utf8.IsCut source) := by
  intro n
  rw [Cursor.advance_eq]
  exact ⟨n, by simp [Cursor.start, Utf8.cut]⟩

end Syntax

theorem readStatement_reads {ok : Nat → Prop} {d : Dialect} {c : Cursor} {r : Reading}
    (hc : c.On ok) (h : readStatement d c = some r) : Syntax.Reads ok c r := by
  have hblank := trivia_reads c.rest.length hc
  simp only [readStatement] at h
  split at h
  · rename_i ns after hitem
    split at h
    · cases h
    · cases h
      exact hblank.append (Rule.run_reads (grammar d) d.endsLine _ _ _ _ _ (hblank.on hc) hitem)
  · cases h

theorem readStatements_reads {ok : Nat → Prop} (d : Dialect) : ∀ (limit : Nat) {c : Cursor},
    c.On ok → Syntax.Reads ok c (readStatements d limit c)
  | 0, c, _ => Syntax.Reads.nil c
  | limit + 1, c, hc => by
      rw [readStatements]
      split
      · exact Syntax.Reads.nil c
      · rename_i ns after hns
        have hfirst := readStatement_reads hc hns
        exact hfirst.append (readStatements_reads d limit (hfirst.on hc))

theorem readBody_reads {ok : Nat → Prop} (d : Dialect) {c : Cursor} (hc : c.On ok) :
    Syntax.Reads ok c (readBody d c) := by
  have hstatements := readStatements_reads d c.rest.length hc
  exact hstatements.append (trivia_reads _ (hstatements.on hc))

theorem readHashBang_reads {ok : Nat → Prop} {c : Cursor} (hc : c.On ok) :
    Syntax.Reads ok c (readHashBang c) := by
  unfold readHashBang
  split
  · exact reads_leaf hc (.kind .hashBang) _
  · exact Syntax.Reads.nil c

/-! ## Readers only go forward -/

theorem trivia_forward (fuel : Nat) (c : Cursor) : ∃ n, (trivia fuel c).2 = c.advance n :=
  (trivia_reads fuel (fun _ => trivial) : Syntax.Reads (fun _ => True) c _).1

theorem readStatement_forward {d : Dialect} {c : Cursor} {r : Reading}
    (h : readStatement d c = some r) : ∃ n, r.2 = c.advance n :=
  (readStatement_reads (fun _ => trivial) h : Syntax.Reads (fun _ => True) c r).1

theorem readHashBang_forward (c : Cursor) : ∃ n, (readHashBang c).2 = c.advance n :=
  (readHashBang_reads (fun _ => trivial) : Syntax.Reads (fun _ => True) c _).1

/-! ## The tree of a source -/

/-- The trees of a source lie on its cuts. -/
theorem parse_placed {source : Bytes} {language : String} {tree : Node}
    (h : parse source language = some tree) :
    tree.Placed (Utf8.IsCut source) ∧ tree.start = 0 ∧ tree.stop = source.length := by
  obtain ⟨d, -, hd⟩ := List.exists_of_findSome?_eq_some h
  have hstart := Cursor.start_on source
  have hbang := readHashBang_reads hstart
  have hall := hbang.append (readBody_reads d (hbang.on hstart))
  have hlen : Utf8.IsCut source source.length :=
    ⟨(Utf8.glyphs source).length, by simp [Utf8.cut, Utf8.width_glyphs]⟩
  unfold parseAs at hd
  dsimp only at hd
  split at hd
  · cases hd
    refine ⟨?_, rfl, rfl⟩
    rw [Node.Placed]
    refine ⟨hstart.offset, hlen, ?_⟩
    have hrest : Node.Row (Utf8.IsCut source) _ source.length [] :=
      Node.row_nil.mpr ((hall.on hstart).offset.le_length)
    simpa [Cursor.start] using hall.2.append hrest
  · cases hd

end ImportAssist
