import ImportAssist.Proofs.RereadStatements

/-!
# Coming to a statement

The statements of a source are read one after another. A statement of a tree is read where reading has come to behind
the ones in front of it (`parseAs_statement`), and what is read where reading comes to is one of the tree
(`parseAs_reread`).
-/

namespace ImportAssist

open Syntax
open Utf8 (glyphOf)

/-! ## Places between statements -/

/-- Reading comes to the offset `i` between two statements, behind white space and comments. -/
def ComesTo (d : Dialect) (source : Bytes) (i : Nat) : Prop :=
  ∃ front before, Steps d (readHashBang (Cursor.start source)).2 front before ∧
    (trivia before.rest.length before).2.offset = i

section

variable {d : Dialect} {source : Bytes} {i : Nat}

theorem ComesTo.readBody_eq (h : ComesTo d source i) : ∃ front,
    readBody d (readHashBang (Cursor.start source)).2 =
      (front ++ (readBody d (cursorAt source i)).1, (readBody d (cursorAt source i)).2) := by
  obtain ⟨front, before, hsteps, rfl⟩ := h
  refine ⟨front ++ (trivia before.rest.length before).1, ?_⟩
  rw [hsteps.readBody_eq, readBody_skip before.rest.length before, ← (hsteps.stands _).1, List.append_assoc]

theorem split_behind {xs ys front back : List Node} {n : Node} (h : xs ++ ys = front ++ n :: back) (hn : n ∉ xs) :
    ∃ more, front = xs ++ more ∧ ys = more ++ n :: back := by
  rcases List.append_eq_append_iff.mp h with ⟨more, hfront, hys⟩ | ⟨more, hxs, hback⟩
  · exact ⟨more, hfront, hys⟩
  · cases more with
    | nil => exact ⟨[], by simp [hxs], hback.symm⟩
    | cons m more =>
        obtain ⟨rfl, -⟩ := List.cons.inj hback
        exact absurd (by simp [hxs]) hn

theorem split_before {xs ys front back : List Node} {n : Node} (h : xs ++ ys = front ++ n :: back) (hn : n ∉ ys) :
    ∃ more, xs = front ++ n :: more ∧ back = more ++ ys := by
  rcases List.append_eq_append_iff.mp h with ⟨more, -, hys⟩ | ⟨more, hxs, hback⟩
  · exact absurd (by simp [hys]) hn
  · cases more with
    | nil => exact absurd (hback ▸ List.mem_cons_self : n ∈ [] ++ ys) hn
    | cons m more =>
        obtain ⟨rfl, rfl⟩ := List.cons.inj hback
        exact ⟨more, hxs, rfl⟩

theorem not_mem_trivia {n : Node} (hn : n.isAside = false) (fuel : Nat) (c : Cursor) : n ∉ (trivia fuel c).1 := by
  intro hmem
  obtain ⟨start, stop, rfl⟩ := trivia_comments _ _ n hmem
  cases hn

/-- Each statement is read where reading has come to behind the ones in front of it. -/
theorem readStatements_steps {n : Node} (hn : n.isAside = false) : ∀ {limit : Nat} {c : Cursor}
    {front back : List Node}, (readStatements d limit c).1 = front ++ n :: back →
      ∃ ns before after, Steps d c ns before ∧ front = ns ++ (trivia before.rest.length before).1 ∧
        n.start = (trivia before.rest.length before).2.offset ∧
        readStatement d before = some ((trivia before.rest.length before).1 ++ [n], after)
  | 0, _, _, _, h => by simp [readStatements] at h
  | limit + 1, c, front, back, h => by
      rw [readStatements] at h
      cases hread : readStatement d c with
      | none => simp [hread] at h
      | some r =>
          rw [hread] at h
          dsimp only at h
          obtain ⟨m, hr, hm, -⟩ := readStatement_eq hread
          rw [hr, List.append_assoc] at h
          obtain ⟨more, rfl, hmore⟩ := split_behind h (not_mem_trivia hn _ _)
          cases more with
          | nil =>
              obtain ⟨rfl, -⟩ := List.cons.inj hmore
              exact ⟨[], c, r.2, .refl c, by simp, hm, hr ▸ hread⟩
          | cons m' more =>
              obtain ⟨rfl, hrest⟩ := List.cons.inj hmore
              have hlater : (readStatements d limit r.2).1 = more ++ n :: back := hrest
              obtain ⟨ns, before, after, hsteps, rfl, hstart, hstatement⟩ := readStatements_steps hn hlater
              exact ⟨r.1 ++ ns, before, after, .step hread hsteps, by simp [hr], hstart, hstatement⟩

/-- The statements that are read start in front of the place where reading has come to. -/
theorem Steps.start_lt {c last : Cursor} {ns : List Node} (h : Steps d c ns last) :
    ∀ n ∈ ns, n.isAside = false → n.start < last.offset := by
  induction h with
  | refl => exact List.forall_mem_nil _
  | @step c r ns last hread hsteps ih =>
      intro n hn haside
      rcases List.mem_append.mp hn with hhere | hlater
      · obtain ⟨m, hr, hm, -⟩ := readStatement_eq hread
        rw [hr, List.mem_append, List.mem_singleton] at hhere
        obtain rfl := hhere.resolve_left (not_mem_trivia haside _ _)
        have hlt : (trivia c.rest.length c).2.offset < r.2.offset := readStatement_offset hread
        obtain ⟨k, hk⟩ := hsteps.forward
        have hle := Cursor.offset_le_advance k r.2
        rw [← hk] at hle
        omega
      · exact ih n hlater haside

theorem starts_of_settled {gs : List Glyph} (h : (Cursor.mk i gs).Settled) : Starts gs := by
  intro offset fuel
  have hhere := trivia_shift (k := i) fuel ⟨0, gs⟩
  have hmoved := trivia_shift (k := offset) fuel ⟨0, gs⟩
  generalize trivia fuel ⟨0, gs⟩ = r at hhere hmoved
  obtain ⟨ns, c⟩ := r
  rw [Cursor.shift, Nat.zero_add, h fuel] at hhere
  obtain ⟨hnodes, hcursor⟩ := Prod.mk.inj hhere
  obtain rfl : ns = [] := List.map_eq_nil_iff.mp hnodes.symm
  obtain ⟨start, rest⟩ := c
  obtain ⟨hoffset, rfl⟩ := Cursor.mk.inj hcursor
  obtain rfl : start = 0 := by
    simp only at hoffset
    omega
  rw [Cursor.shift, Nat.zero_add] at hmoved
  rw [hmoved, Reading.shift, Cursor.shift, Nat.zero_add]
  rfl

/-- What a statement is read as behind the white space and the comments in front of it. -/
theorem readStatement_settled {c after : Cursor} {n : Node}
    (h : readStatement d c = some ((trivia c.rest.length c).1 ++ [n], after)) :
    readStatement d (trivia c.rest.length c).2 = some ([n], after) := by
  rw [readStatement_skip c.rest.length c] at h
  obtain ⟨r, hr, heq⟩ := Option.map_eq_some_iff.mp h
  obtain ⟨hnodes, rfl⟩ := Prod.mk.inj heq
  rw [hr, ← List.append_cancel_left hnodes]

/-- A statement of a tree is the next one where it starts, and the rest of the source is read behind it. -/
theorem parseAs_statement {tree n : Node} {front back : List Node} (htree : parseAs d source = some tree)
    (hchildren : tree.children = front ++ n :: back) (hn : n.isAside = false) :
    ∃ ns before after, Steps d (readHashBang (Cursor.start source)).2 ns before ∧ (∀ m ∈ ns, m ∈ front) ∧
      n.start = (trivia before.rest.length before).2.offset ∧
      (trivia before.rest.length before).2 = cursorAt source n.start ∧ Utf8.IsCut source n.start ∧
      readStatement d (cursorAt source n.start) = some ([n], after) ∧ (readBody d after).2.rest = [] := by
  unfold parseAs at htree
  dsimp only at htree
  split at htree
  · rename_i hrest
    cases htree
    have hbang : n ∉ (readHashBang (Cursor.start source)).1 := by
      intro hmem
      unfold readHashBang at hmem
      split at hmem
      · obtain rfl := List.mem_singleton.mp hmem
        cases hn
      · cases hmem
    rw [Node.children] at hchildren
    obtain ⟨more, rfl, hbody⟩ := split_behind hchildren hbang
    obtain ⟨last, hstatements, -⟩ := split_before hbody (not_mem_trivia hn _ _)
    obtain ⟨ns, before, after, hsteps, rfl, hstart, hstatement⟩ := readStatements_steps hn hstatements
    obtain ⟨hhere, hcut⟩ := hsteps.stands before.rest.length
    rw [← hstart] at hhere hcut
    refine ⟨ns, before, after, hsteps, fun m hm => by simp [hm], hstart, hhere, hcut, ?_, ?_⟩
    · rw [← hhere]
      exact readStatement_settled hstatement
    · rw [hsteps.readBody_eq, readBody_step hstatement] at hrest
      simpa using hrest
  · cases htree

/-- What is left behind a body depends on what was left before. -/
theorem readBody_rest {c c' : Cursor} (h : c.rest = c'.rest) : (readBody d c).2.rest = (readBody d c').2.rest := by
  have hstart (c : Cursor) : (readBody d c).2.rest = (readBody d ⟨0, c.rest⟩).2.rest := by
    have hshift := readBody_shift (k := c.offset) d ⟨0, c.rest⟩
    rw [Cursor.shift, Nat.zero_add] at hshift
    have hrest := congrArg (fun r : Reading => r.2.rest) hshift
    exact hrest
  rw [hstart c, hstart c', h]

/-- A statement that is read where reading comes to is one of the tree. -/
theorem parseAs_reread {n : Node} {after : Cursor} (h : ComesTo d source i)
    (hread : readStatement d (cursorAt source i) = some ([n], after)) (hrest : (readBody d after).2.rest = []) :
    ∃ tree, parseAs d source = some tree ∧ n ∈ tree.children := by
  obtain ⟨front, hbody⟩ := h.readBody_eq
  rw [readBody_step hread] at hbody
  have htree : parseAs d source = some (.mk (.kind .program) none 0 source.length
      ((readHashBang (Cursor.start source)).1 ++ (front ++ ([n] ++ (readBody d after).1)))) := by
    simp only [parseAs, hbody, hrest]
    rfl
  exact ⟨_, htree, by simp [Node.children]⟩

end

end ImportAssist
