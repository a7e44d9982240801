import ImportAssist.Proofs.Replacements

/-!
# One declarator of several

A require declarator that shares its declaration is taken out with one of the gaps beside it: the one
behind it or, for the last declarator, the one in front. What is left is a declaration of the others, in
order, with the other gaps between them (`declarator_removed`).

The declarator is found again by the offset where it starts, so no two may start at the same one. In a
tree that was read they do not: a declarator is never empty (`Rule.Bites`), and each starts behind the
one before it (`parse_declarators`).
-/

namespace ImportAssist

open Syntax

/-! ## Nodes with gaps between them -/

/-- The bytes from one offset to another. -/
def stretch (source : Bytes) (start stop : Nat) : Bytes := (source.drop start).take (stop - start)

section

variable {source : Bytes} {a b c : Nat}

theorem stretch_append (hab : a ≤ b) (hbc : b ≤ c) :
    stretch source a b ++ stretch source b c = stretch source a c := by
  have hmid : (source.drop a).drop (b - a) = source.drop b := by
    rw [List.drop_drop, Nat.add_sub_cancel' hab]
  rw [stretch, stretch, stretch, ← hmid, ← List.take_add]
  congr 1
  omega

theorem take_append_stretch (hab : a ≤ b) : source.take a ++ stretch source a b = source.take b := by
  rw [stretch, ← List.take_add, Nat.add_sub_cancel' hab]

theorem stretch_append_drop (hab : a ≤ b) : stretch source a b ++ source.drop b = source.drop a := by
  have hmid : (source.drop a).drop (b - a) = source.drop b := by
    rw [List.drop_drop, Nat.add_sub_cancel' hab]
  rw [stretch, ← hmid, List.take_append_drop]

end

/-- Nodes in a source, each of which starts behind the one before it. -/
structure Successive (source : Bytes) (ns : List Node) : Prop where
  within : ∀ n ∈ ns, n.start ≤ n.stop ∧ n.stop ≤ source.length
  ordered : ns.Pairwise fun a b => a.start < b.start ∧ a.stop ≤ b.start

/-- What stands between neighbours. -/
def gaps (source : Bytes) : List Node → List Bytes
  | a :: b :: rest => stretch source a.stop b.start :: gaps source (b :: rest)
  | _ => []

/-- Texts with a gap behind each but the last. -/
def interleave : List Bytes → List Bytes → Bytes
  | text :: texts, gap :: gaps => text ++ gap ++ interleave texts gaps
  | texts, _ => texts.flatten

/-- The source with other bytes in place of the nodes and all that is between them. -/
def refill (source : Bytes) (ns : List Node) (inner : Bytes) : Bytes :=
  source.take ((ns.head?.map (·.start)).getD 0) ++ inner ++
    source.drop ((ns.getLast?.map (·.stop)).getD 0)

theorem eraseIdx_split {α : Type} (before after : List α) (a : α) :
    (before ++ a :: after).eraseIdx before.length = before ++ after := by
  rw [List.eraseIdx_append_of_length_le (Nat.le_refl _), Nat.sub_self, List.eraseIdx_cons_zero]

section

variable {source : Bytes} {a b : Node} {ns before after : List Node}

theorem gaps_append : ∀ before : List Node, gaps source (before ++ a :: b :: after) =
    gaps source (before ++ [a]) ++ stretch source a.stop b.start :: gaps source (b :: after)
  | [] => rfl
  | [_] => rfl
  | _ :: m :: before => by
      have hrest := gaps_append (m :: before)
      simp only [List.cons_append, gaps] at hrest ⊢
      rw [hrest]

theorem length_gaps : ∀ before : List Node, (gaps source (before ++ [a])).length = before.length
  | [] => rfl
  | [_] => rfl
  | _ :: m :: before => by
      have hrest := length_gaps (m :: before)
      simp only [List.cons_append, gaps, List.length_cons] at hrest ⊢
      rw [hrest]

theorem interleave_append {gap : Bytes} {texts' gaps' : List Bytes} :
    ∀ {texts gaps : List Bytes}, texts.length = gaps.length + 1 →
      interleave (texts ++ texts') (gaps ++ gap :: gaps') =
        interleave texts gaps ++ gap ++ interleave texts' gaps'
  | [], _, h => by simp at h
  | [text], [], _ => by simp [interleave]
  | [_], _ :: _, h => by simp at h
  | _ :: _ :: _, [], h => by simp at h
  | text :: next :: texts, first :: gaps, h => by
      have hlength : (next :: texts).length = gaps.length + 1 := by simpa using h
      simp only [List.cons_append, interleave]
      rw [← List.cons_append, interleave_append hlength]
      simp only [List.append_assoc]

theorem Successive.of_append_left (h : Successive source (before ++ after)) :
    Successive source before :=
  ⟨fun n hn => h.within n (List.mem_append_left _ hn), (List.pairwise_append.mp h.ordered).1⟩

theorem Successive.of_append_right (h : Successive source (before ++ after)) :
    Successive source after :=
  ⟨fun n hn => h.within n (List.mem_append_right _ hn), (List.pairwise_append.mp h.ordered).2.1⟩

theorem Successive.tail (h : Successive source (a :: ns)) : Successive source ns :=
  ⟨fun n hn => h.within n (List.mem_cons_of_mem _ hn), (List.pairwise_cons.mp h.ordered).2⟩

/-- The first node starts before any other one ends. -/
theorem Successive.first_le (h : Successive source (a :: ns)) (hb : b ∈ a :: ns) : a.start ≤ b.stop := by
  rcases List.mem_cons.mp hb with rfl | hmem
  · exact (h.within b List.mem_cons_self).1
  · have hlt := ((List.pairwise_cons.mp h.ordered).1 b hmem).1
    have hle := (h.within b hb).1
    omega

/-- The texts of successive nodes with the gaps between them are one stretch of the source. -/
theorem interleave_gaps : ∀ {ns : List Node} {a b : Node}, Successive source (a :: ns) →
    (a :: ns).getLast? = some b →
    interleave ((a :: ns).map (·.bytes source)) (gaps source (a :: ns)) = stretch source a.start b.stop
  | [], a, b, _, hlast => by
      obtain rfl : a = b := by simpa using hlast
      simp [interleave, gaps, Node.bytes, stretch]
  | m :: ns, a, b, h, hlast => by
      rw [List.getLast?_cons_cons] at hlast
      have hrest : Successive source (m :: ns) := h.tail
      have hin := (h.within a List.mem_cons_self).1
      have hgap : a.stop ≤ m.start := 
        ((List.pairwise_cons.mp h.ordered).1 m List.mem_cons_self).2
      have hlater : m.start ≤ b.stop := hrest.first_le (List.mem_of_getLast? hlast)
      have hmore := interleave_gaps hrest hlast
      rw [List.map_cons, gaps, interleave, hmore,
        show a.bytes source = stretch source a.start a.stop from rfl, stretch_append hin hgap,
        stretch_append (Nat.le_trans hin hgap) hlater]

theorem refill_self (h : Successive source ns) (hne : ns ≠ []) :
    refill source ns (interleave (ns.map (·.bytes source)) (gaps source ns)) = source := by
  obtain ⟨first, rest, rfl⟩ := List.exists_cons_of_ne_nil hne
  obtain ⟨last, hlast⟩ : ∃ last, (first :: rest).getLast? = some last :=
    ⟨_, List.getLast?_eq_some_getLast hne⟩
  have hle := h.first_le (List.mem_of_getLast? hlast)
  rw [refill, interleave_gaps h hlast, hlast]
  simp only [List.head?_cons, Option.map_some, Option.getD_some]
  rw [take_append_stretch hle, List.take_append_drop]

/-! ## A node and a gap less -/

/-- Without one node and the gap behind it, all that is missing is the stretch up to the next node. -/
theorem refill_followed (h : Successive source (before ++ a :: b :: after)) :
    refill source (before ++ a :: b :: after)
      (interleave (((before ++ a :: b :: after).eraseIdx before.length).map (·.bytes source))
        ((gaps source (before ++ a :: b :: after)).eraseIdx before.length)) =
      source.take a.start ++ source.drop b.start := by
  have hright : Successive source (b :: after) := h.of_append_right.tail
  obtain ⟨last, hlast⟩ : ∃ last, (b :: after).getLast? = some last :=
    ⟨_, List.getLast?_eq_some_getLast (List.cons_ne_nil b after)⟩
  have hright' := hright.first_le (List.mem_of_getLast? hlast)
  have hstop : (before ++ a :: b :: after).getLast? = some last := by
    rw [List.getLast?_append, List.getLast?_cons_cons, hlast, Option.some_or]
  rw [refill, hstop, eraseIdx_split]
  simp only [Option.map_some, Option.getD_some]
  cases before with
  | nil =>
      -- the first one: all the others stand in one stretch
      simp only [List.nil_append, List.head?_cons, List.length_nil, gaps, List.eraseIdx_cons_zero,
        Option.map_some, Option.getD_some]
      rw [interleave_gaps hright hlast, List.append_assoc, stretch_append_drop hright']
  | cons first rest =>
      obtain ⟨p, hp⟩ : ∃ p, (first :: rest).getLast? = some p :=
        ⟨_, List.getLast?_eq_some_getLast (List.cons_ne_nil first rest)⟩
      obtain ⟨front, hfront⟩ := List.getLast?_eq_some_iff.mp hp
      have hleft : Successive source (first :: rest) := h.of_append_left
      have hleft' := hleft.first_le (List.mem_of_getLast? hp)
      have hgap : p.stop ≤ a.start :=
        ((List.pairwise_append.mp h.ordered).2.2 p (List.mem_of_getLast? hp) a List.mem_cons_self).2
      -- the gaps in front, the one kept in front of the node, the one that goes, the gaps behind
      have hgaps : gaps source (first :: rest ++ a :: b :: after) =
          gaps source (first :: rest) ++ stretch source p.stop a.start ::
            stretch source a.stop b.start :: gaps source (b :: after) := by
        rw [hfront, List.append_assoc, List.singleton_append, gaps_append, gaps]
      have hlength : (first :: rest).length =
          (gaps source (first :: rest) ++ [stretch source p.stop a.start]).length := by
        rw [hfront]
        simp [length_gaps]
      have herase : (gaps source (first :: rest ++ a :: b :: after)).eraseIdx (first :: rest).length =
          gaps source (first :: rest) ++ stretch source p.stop a.start :: gaps source (b :: after) := by
        rw [hgaps, List.append_cons, hlength, eraseIdx_split, List.append_assoc,
          List.singleton_append]
      rw [herase, List.map_append, interleave_append (by rw [List.length_map, hlength]; simp),
        interleave_gaps hleft hp, interleave_gaps hright hlast]
      simp only [List.cons_append, List.head?_cons, Option.map_some, Option.getD_some]
      rw [← List.append_assoc, ← List.append_assoc, take_append_stretch hleft',
        take_append_stretch hgap, List.append_assoc, stretch_append_drop hright']

/-- Without the last node and the gap in front of it, all that is missing is the stretch from the end of
the node before. -/
theorem refill_last (h : Successive source (before ++ [a, b])) :
    refill source (before ++ [a, b])
      (interleave (((before ++ [a, b]).eraseIdx (before.length + 1)).map (·.bytes source))
        ((gaps source (before ++ [a, b])).eraseIdx before.length)) =
      source.take a.stop ++ source.drop b.stop := by
  have hothers : (before ++ [a, b]).eraseIdx (before.length + 1) = before ++ [a] := by
    have := eraseIdx_split (before ++ [a]) [] b
    rwa [List.append_nil, List.append_assoc, List.singleton_append, List.length_append,
      List.length_singleton] at this
  have hgaps : (gaps source (before ++ [a, b])).eraseIdx before.length = gaps source (before ++ [a]) := by
    rw [gaps_append, ← length_gaps before, eraseIdx_split]
    exact List.append_nil _
  obtain ⟨first, rest, hfirst⟩ := List.exists_cons_of_ne_nil
    (List.append_ne_nil_of_right_ne_nil before (List.cons_ne_nil a []))
  have hlast : (first :: rest).getLast? = some a := by rw [← hfirst, List.getLast?_concat]
  have hall : before ++ [a, b] = first :: rest ++ [b] := by
    rw [← hfirst, List.append_assoc, List.singleton_append]
  have hleft : Successive source (first :: rest) := (hall ▸ h).of_append_left
  rw [hothers, hgaps, hfirst, interleave_gaps hleft hlast, hall, refill, List.getLast?_concat]
  simp only [List.cons_append, List.head?_cons, Option.map_some, Option.getD_some]
  rw [take_append_stretch (hleft.first_le (List.mem_of_getLast? hlast))]

end

/-! ## The removal -/

/-- A node is found by its start, for no other starts there. -/
theorem findIdx_start {before after : List Node} {a : Node}
    (h : (before ++ a :: after).Pairwise fun a b => a.start < b.start ∧ a.stop ≤ b.start) :
    (before ++ a :: after).findIdx (·.start == a.start) = before.length := by
  have hbefore : before.findIdx (·.start == a.start) = before.length := by
    refine List.findIdx_eq_length_of_false fun n hn => ?_
    have := ((List.pairwise_append.mp h).2.2 n hn a List.mem_cons_self).1
    exact beq_eq_false_iff_ne.mpr (Nat.ne_of_lt this)
  rw [List.findIdx_append, hbefore, if_neg (Nat.lt_irrefl _), List.findIdx_cons, beq_self_eq_true,
    cond_true, Nat.zero_add]

section

variable {d : Document} {i : Import} {before after : List Node}

/-- A declarator goes up to the next one. -/
theorem removal_followed {next : Node} (hform : i.form = .requireDeclaration)
    (hds : i.statement.childrenOfKind .variableDeclarator = before ++ i.node :: next :: after)
    (h : Successive d.source (i.statement.childrenOfKind .variableDeclarator)) :
    removal d i = .delete i.node.start next.start := by
  rw [hds] at h
  have hmany : 1 < (before ++ i.node :: next :: after).length := by simp; omega
  have hnext : (before ++ i.node :: next :: after)[before.length + 1]? = some next := by
    simp
  simp only [removal, removalRange, hds, findIdx_start h.ordered, hform, hmany, hnext, decide_true,
    Bool.and_self, if_true]

/-- The last declarator goes from the end of the one before it. -/
theorem removal_last {previous : Node} (hform : i.form = .requireDeclaration)
    (hds : i.statement.childrenOfKind .variableDeclarator = before ++ [previous, i.node])
    (h : Successive d.source (i.statement.childrenOfKind .variableDeclarator)) :
    removal d i = .delete previous.stop i.node.stop := by
  have hsplit : before ++ [previous, i.node] = (before ++ [previous]) ++ i.node :: [] := by simp
  rw [hds, hsplit] at h
  have hfound := findIdx_start h.ordered
  rw [← hsplit, List.length_append, List.length_singleton] at hfound
  have hmany : 1 < (before ++ [previous, i.node]).length := by simp
  have hnext : (before ++ [previous, i.node])[before.length + 1 + 1]? = none :=
    List.getElem?_eq_none (by simp)
  have hprevious : (before ++ [previous, i.node])[before.length + 1 - 1]? = some previous := by
    simp
  simp only [removal, removalRange, hds, hfound, hform, hmany, hnext, hprevious, decide_true,
    Bool.and_self, if_true]

theorem applyEdits_delete {source : Bytes} {start stop : Nat} (hstart : start ≤ stop)
    (hstop : stop ≤ source.length) :
    applyEdits source [.delete start stop] = source.take start ++ source.drop stop := by
  simp [applyEdits, Edit.apply, Edit.delete, slicePosition_natCast, Utf8.encode,
    Nat.min_eq_left hstop, Nat.min_eq_left (Nat.le_trans hstart hstop)]

end

/-- The removal takes the declarator at place `k` out, and the gap at place `j` with it. -/
structure CutsOut (d : Document) (i : Import) (ds : List Node) (k j : Nat) : Prop where
  place : ds[k]? = some i.node
  covers : (removal d i).Covers i.node
  spares : ∀ other ∈ ds, other ≠ i.node → (removal d i).Spares other
  /-- What goes is the declarator and the gap, in the order in which they stand. -/
  gone : ∃ start stop gap, removal d i = .delete (start : Nat) (stop : Nat) ∧
    (gaps d.source ds)[j]? = some gap ∧ stretch d.source start stop =
      if j = k then i.node.bytes d.source ++ gap else gap ++ i.node.bytes d.source
  /-- What is left are the other declarators, with the other gaps between them. -/
  left : applyEdits d.source [removal d i] =
    refill d.source ds (interleave ((ds.eraseIdx k).map (·.bytes d.source)) ((gaps d.source ds).eraseIdx j))

theorem cutsOut_followed {d : Document} {i : Import} {before after : List Node} {next : Node}
    (hform : i.form = .requireDeclaration)
    (hds : i.statement.childrenOfKind .variableDeclarator = before ++ i.node :: next :: after)
    (h : Successive d.source (i.statement.childrenOfKind .variableDeclarator)) :
    CutsOut d i (before ++ i.node :: next :: after) before.length before.length := by
  have hremoval := removal_followed hform hds h
  rw [hds] at h
  have hright : Successive d.source (i.node :: next :: after) := h.of_append_right
  have hnode := hright.within i.node List.mem_cons_self
  have hnext := hright.within next (List.mem_cons_of_mem _ List.mem_cons_self)
  have hgap := ((List.pairwise_cons.mp hright.ordered).1 next List.mem_cons_self).2
  refine ⟨by simp, ?_, fun other hother hne => ?_, ?_, ?_⟩
  · rw [hremoval]
    simp only [Edit.Covers, Edit.delete]
    omega
  · rw [hremoval]
    simp only [Edit.Spares, Edit.delete]
    rcases List.mem_append.mp hother with hbefore | hbehind
    · have := ((List.pairwise_append.mp h.ordered).2.2 other hbefore i.node List.mem_cons_self).2
      omega
    · rcases List.mem_cons.mp hbehind with rfl | hbehind
      · exact absurd rfl hne
      · rcases List.mem_cons.mp hbehind with rfl | hlater
        · omega
        · have := ((List.pairwise_cons.mp hright.tail.ordered).1 other hlater).1
          omega
  · refine ⟨i.node.start, next.start, stretch d.source i.node.stop next.start, hremoval, ?_, ?_⟩
    · rw [gaps_append, ← length_gaps before, List.getElem?_append_right (Nat.le_refl _), Nat.sub_self,
        List.getElem?_cons_zero]
    · rw [if_pos rfl, ← stretch_append hnode.1 hgap]
      rfl
  · rw [hremoval, applyEdits_delete (by omega) (by omega), refill_followed h]

theorem cutsOut_last {d : Document} {i : Import} {before : List Node} {previous : Node}
    (hform : i.form = .requireDeclaration)
    (hds : i.statement.childrenOfKind .variableDeclarator = before ++ [previous, i.node])
    (h : Successive d.source (i.statement.childrenOfKind .variableDeclarator)) :
    CutsOut d i (before ++ [previous, i.node]) (before.length + 1) before.length := by
  have hremoval := removal_last hform hds h
  rw [hds] at h
  have hright : Successive d.source [previous, i.node] := h.of_append_right
  have hprevious := hright.within previous List.mem_cons_self
  have hnode := hright.within i.node (List.mem_cons_of_mem _ List.mem_cons_self)
  have hgap := ((List.pairwise_cons.mp hright.ordered).1 i.node List.mem_cons_self).2
  refine ⟨by simp, ?_, fun other hother hne => ?_, ?_, ?_⟩
  · rw [hremoval]
    simp only [Edit.Covers, Edit.delete]
    omega
  · rw [hremoval]
    simp only [Edit.Spares, Edit.delete]
    rcases List.mem_append.mp hother with hbefore | hbehind
    · have := ((List.pairwise_append.mp h.ordered).2.2 other hbefore previous List.mem_cons_self).2
      omega
    · rcases List.mem_cons.mp hbehind with rfl | hbehind
      · omega
      · exact absurd (List.mem_singleton.mp hbehind) hne
  · refine ⟨previous.stop, i.node.stop, stretch d.source previous.stop i.node.start, hremoval, ?_, ?_⟩
    · rw [gaps_append, ← length_gaps before, List.getElem?_append_right (Nat.le_refl _), Nat.sub_self,
        List.getElem?_cons_zero]
    · rw [if_neg (Nat.ne_of_lt (Nat.lt_succ_self _)), ← stretch_append hgap hnode.1]
      rfl
  · rw [hremoval, applyEdits_delete (by omega) (by omega), refill_last h]

/-- A require declarator is taken out of its declaration with the gap behind it, the last one with the
gap in front of it. The others stay, and so do all other gaps between them. -/
theorem declarator_removed {d : Document} {statement : Node} {i : Import}
    (hi : i ∈ Import.ofStatement d.source statement) (hform : i.form = .requireDeclaration)
    (hmany : 1 < (statement.childrenOfKind .variableDeclarator).length)
    (hordered : Successive d.source (statement.childrenOfKind .variableDeclarator)) :
    let ds := statement.childrenOfKind .variableDeclarator
    refill d.source ds (interleave (ds.map (·.bytes d.source)) (gaps d.source ds)) = d.source ∧
      ∃ k < ds.length, CutsOut d i ds k (min k (ds.length - 2)) := by
  intro ds
  obtain ⟨rfl, hnode⟩ := Import.ofStatement_spec hi
  refine ⟨refill_self hordered (List.ne_nil_of_length_pos (Nat.lt_trans Nat.zero_lt_one hmany)), ?_⟩
  obtain ⟨before, after, hds⟩ := List.append_of_mem (hnode hform)
  cases after with
  | cons next after =>
      refine ⟨before.length, by simp [ds, hds], ?_⟩
      have hmin : min before.length (ds.length - 2) = before.length := by
        simp only [ds, hds, List.length_append, List.length_cons]
        omega
      rw [hmin, show ds = before ++ i.node :: next :: after from hds]
      exact cutsOut_followed hform hds hordered
  | nil =>
      obtain ⟨previous, hprevious⟩ : ∃ previous, before.getLast? = some previous := by
        cases before with
        | nil => simp [hds] at hmany
        | cons first rest => exact ⟨_, List.getLast?_eq_some_getLast (List.cons_ne_nil first rest)⟩
      obtain ⟨front, rfl⟩ := List.getLast?_eq_some_iff.mp hprevious
      rw [List.append_assoc, List.singleton_append] at hds
      refine ⟨front.length + 1, by simp [ds, hds], ?_⟩
      have hmin : min (front.length + 1) (ds.length - 2) = front.length := by
        simp only [ds, hds, List.length_append, List.length_cons, List.length_nil]
        omega
      rw [hmin, show ds = front ++ [previous, i.node] from hds]
      exact cutsOut_last hform hds hordered

/-! ## The declarators of a source -/

/-- A rule that takes a token before it can succeed. -/
inductive Rule.Bites {σ : Type} : Rule σ → Prop
  | mark {text : String} (notBefore : List Char) : text ≠ "" → Rule.Bites (.mark text notBefore)
  | name (kind : Kind) (except : List String) : Rule.Bites (.name kind except)
  | seq {rule : Rule σ} (rules : List (Rule σ)) : rule.Bites → Rule.Bites (.seq (rule :: rules))
  | alt {rules : List (Rule σ)} : (∀ rule ∈ rules, rule.Bites) → Rule.Bites (.alt rules)
  | node (kind : Kind) {rule : Rule σ} : rule.Bites → Rule.Bites (.node kind rule)
  | role (role : Role) {rule : Rule σ} : rule.Bites → Rule.Bites (.role role rule)

variable {dialect : Dialect} {source : Bytes}

/-- A token takes up room. -/
theorem offset_lt_token {c : Cursor} (hc : Reached source c) (fuel : Nat) {n : Nat} (hn : 0 < n)
    (hrest : (trivia fuel c).2.rest ≠ []) :
    c.offset < ((trivia fuel c).2.advance n).offset :=
  Nat.lt_of_le_of_lt (offset_le_trivia fuel c) (offset_lt_advance (hc.trivia fuel) hrest hn)

theorem Rule.Bites.run {rule : Grammar.Production} (hrule : rule.Bites) :
    ∀ {fuel : Nat} {place : Place} {c : Cursor} {r : Reading}, Reached source c →
      rule.run (grammar dialect) dialect.endsLine fuel place c = some r → c.offset < r.2.offset := by
  induction hrule with
  | @mark text notBefore htext =>
      intro fuel place c r hc h
      cases fuel with
      | zero => cases h
      | succ fuel =>
          have hchars : text.toList ≠ [] := fun hnil => htext (String.toList_eq_nil_iff.mp hnil)
          simp only [Rule.run] at h
          split at h
          · rename_i hliteral
            cases h
            refine offset_lt_token hc fuel (List.length_pos_of_ne_nil hchars) fun hnil => ?_
            obtain ⟨t, ts, hts⟩ := List.exists_cons_of_ne_nil hchars
            rw [hnil, hts] at hliteral
            simp [Lexeme.literal] at hliteral
          · cases h
  | name kind except =>
      intro fuel place c r hc h
      cases fuel with
      | zero => cases h
      | succ fuel =>
          simp only [Rule.run] at h
          split at h
          · cases h
          · rename_i hword
            cases h
            rw [Bool.or_eq_true, not_or] at hword
            have hpos : Lexeme.word (trivia fuel c).2.rest ≠ 0 := by simpa using hword.1
            exact offset_lt_token hc fuel (Nat.pos_of_ne_zero hpos) fun hnil => by
              simp [hnil, Lexeme.word] at hpos
  | seq rules _ ih =>
      intro fuel place c r hc h
      cases fuel with
      | zero => cases h
      | succ fuel =>
          obtain ⟨first, more, hfirst, hmore, rfl⟩ := runSeq_cons h
          have hmore : (Rule.seq rules).run (grammar dialect) dialect.endsLine (fuel + 1) place first.2 =
              some more := hmore
          exact Nat.lt_of_lt_of_le (ih hc hfirst) (reached_run (reached_run hc hfirst).1 hmore).2
  | alt _ ih =>
      intro fuel place c r hc h
      cases fuel with
      | zero => cases h
      | succ fuel =>
          obtain ⟨rule, hmem, hrule⟩ := runAlt_mem h
          exact ih rule hmem hc hrule
  | node kind _ ih =>
      intro fuel place c r hc h
      cases fuel with
      | zero => cases h
      | succ fuel =>
          simp only [Rule.run] at h
          obtain ⟨inner, hinner, rfl⟩ := Option.map_eq_some_iff.mp h
          have hbites := ih (hc.trivia fuel) hinner
          exact Nat.lt_of_le_of_lt (offset_le_trivia fuel c) hbites
  | role role _ ih =>
      intro fuel place c r hc h
      cases fuel with
      | zero => cases h
      | succ fuel =>
          simp only [Rule.run] at h
          obtain ⟨inner, hinner, rfl⟩ := Option.map_eq_some_iff.mp h
          have hbites := ih hc hinner
          exact hbites

/-! ### Declarators -/

theorem variableDeclarator_bites (d : Dialect) (except : List String) :
    ∃ body : Grammar.Production, Grammar.variableDeclarator d except = .node .variableDeclarator body ∧
      body.Bites := by
  refine ⟨_, rfl, .seq _ (.role _ (.alt ?_))⟩
  have hname : (Grammar.identifier d except).Bites := .name _ _
  have hpattern : (Grammar.destructuring d).Bites := by
    refine .alt ?_
    simp only [List.forall_mem_cons, List.not_mem_nil, false_imp_iff, implies_true, and_true]
    exact ⟨.node _ (.seq _ (.mark _ (by decide))), .node _ (.seq _ (.mark _ (by decide)))⟩
  simp only [List.forall_mem_cons, List.not_mem_nil, false_imp_iff, implies_true, and_true]
  exact ⟨hpattern, hname⟩

def isDeclaration (label : Label) : Bool :=
  label == .kind .lexicalDeclaration || label == .kind .variableDeclaration

theorem declaration_makers (symbol : Symbol)
    (h : (symbol != .statement && symbol != .declaration) = true) :
    (grammar dialect symbol).makers isDeclaration (fun s => s != .statement && s != .declaration) = [] := by
  cases symbol with
  | statement | declaration => cases h
  | _ => cases dialect <;> rfl

/-- The declarators of a declaration at the top level come from the rule for declarators. -/
theorem declarator_made {n declarator : Node} (h : MadeIn dialect source Grammar.item n)
    (hkind : isDeclaration n.label = true) (hmem : declarator ∈ n.childrenOfKind .variableDeclarator) :
    ∃ except m, declarator.Alike m ∧ MadeIn dialect source (Grammar.variableDeclarator dialect except) m := by
  have hunnamed : Unnamed dialect (isKind .variableDeclarator) := by
    intro symbol
    cases dialect <;> cases symbol <;> rfl
  obtain ⟨part, hpart, m, hm, hmade⟩ := h.maker declaration_makers hkind
  obtain rfl : part = .call .statement := List.mem_singleton.mp hpart
  obtain ⟨part, hpart, m', hm', hmade⟩ := by
    cases hmade with
    | call hmade => exact hmade.maker declaration_makers (hm.1 ▸ hkind)
  obtain rfl : part = .call .declaration := by cases dialect <;> exact List.mem_singleton.mp hpart
  obtain ⟨part, hpart, m'', hm'', hmade⟩ := by
    cases hmade with
    | call hmade => exact hmade.maker declaration_makers (hm'.1 ▸ hm.1 ▸ hkind)
  rw [((hm.trans hm').trans hm'').childrenOfKind] at hmem
  obtain ⟨hchild, hkind⟩ := List.mem_filter.mp hmem
  have hparts : part ∈ [Grammar.lexicalDeclaration dialect, Grammar.variableDeclaration dialect] := by
    cases dialect <;> exact hpart
  simp only [List.mem_cons, List.not_mem_nil, or_false] at hparts
  rcases hparts with rfl | rfl
  · obtain ⟨rule, hrule, k, hk, hmade⟩ := (node_children hmade).maker hunnamed rfl hchild hkind
    have hrules : rule ∈ List.replicate 2 (Grammar.variableDeclarator dialect ["in", "instanceof", "of"]) ++
        List.replicate 2 (Grammar.variableDeclarator dialect ["enum"]) := by
      cases dialect <;> exact hrule
    rcases List.mem_append.mp hrules with hrule | hrule
    · exact ⟨_, k, hk, List.eq_of_mem_replicate hrule ▸ hmade⟩
    · exact ⟨_, k, hk, List.eq_of_mem_replicate hrule ▸ hmade⟩
  · obtain ⟨rule, hrule, k, hk, hmade⟩ := (node_children hmade).maker hunnamed rfl hchild hkind
    have hrules : rule ∈ List.replicate 2 (Grammar.variableDeclarator dialect []) := by
      cases dialect <;> exact hrule
    exact ⟨_, k, hk, List.eq_of_mem_replicate hrules ▸ hmade⟩

/-- A declarator is not empty. -/
theorem declarator_solid {except : List String} {n : Node}
    (h : MadeIn dialect source (Grammar.variableDeclarator dialect except) n) : n.start < n.stop := by
  obtain ⟨body, hrule, hbites⟩ := variableDeclarator_bites dialect except
  rw [hrule] at h
  cases h with
  | node hc hrun =>
      have hlt := hbites.run hc hrun
      exact hlt

/-- In a source that was read, the declarators of a declaration follow each other. -/
theorem parse_declarators {language : String} {tree statement : Node}
    (htree : parse source language = some tree) (hstatement : statement ∈ tree.children)
    (hkind : isDeclaration statement.label = true) :
    Successive source (statement.childrenOfKind .variableDeclarator) := by
  have hplaced : statement.Placed (Utf8.IsCut source) := (parse_placed htree).1.child hstatement
  have hsolid : ∀ n ∈ statement.childrenOfKind .variableDeclarator, n.start < n.stop := by
    intro n hn
    obtain ⟨dialect, ⟨start, stop, rfl⟩ | hbang | hmade⟩ := parse_makes htree hstatement
    · cases hkind
    · rw [isDeclaration, beq_iff_eq.mp hbang] at hkind
      cases hkind
    · obtain ⟨except, m, hm, hmade⟩ := declarator_made hmade hkind hn
      rw [hm.2.1, hm.2.2.1]
      exact declarator_solid hmade
  refine ⟨fun n hn => ⟨Nat.le_of_lt (hsolid n hn), (hplaced.ofKind hn).ends.2.1.le_length⟩, ?_⟩
  refine (hplaced.row.pairwise.filter _).imp_of_mem fun {a b} ha _ hab => ⟨?_, hab⟩
  have := hsolid a ha
  omega

/-- Two of three declarators load a module, and one gap has a comment in it. -/
def threeDeclarators : Document :=
  ⟨"/ws/app.js", "let a = 1, b = require('./b') /* b */,\n  c = require('./c')\n", "javascript", 0⟩

/-- The one in the middle goes with the gap behind it, the last one with that same gap. -/
theorem three_declarators_cut :
    ∃ statement middle last, Import.ofStatement threeDeclarators.source statement = [middle, last] ∧
      let ds := statement.childrenOfKind .variableDeclarator
      ds.length = 3 ∧ Successive threeDeclarators.source ds ∧
        removal threeDeclarators middle = .delete 11 41 ∧ removal threeDeclarators last = .delete 29 59 ∧
        (∃ k < 3, CutsOut threeDeclarators middle ds k (min k 1)) ∧
        ∃ k < 3, CutsOut threeDeclarators last ds k (min k 1) := by
  have hread : (parse threeDeclarators.source "javascript").map (fun tree => tree.children.map fun n =>
      (n.label, (n.childrenOfKind .variableDeclarator).length,
        (Import.ofStatement threeDeclarators.source n).map fun i =>
          (i.form, removal threeDeclarators i))) =
      some [(.kind .lexicalDeclaration, 3,
        [(.requireDeclaration, .delete 11 41), (.requireDeclaration, .delete 29 59)])] := by
    decide +kernel
  obtain ⟨tree, htree, hchildren⟩ := Option.map_eq_some_iff.mp hread
  obtain ⟨statement, hstatement, hfacts⟩ := List.map_eq_singleton_iff.mp hchildren
  simp only [Prod.mk.injEq] at hfacts
  obtain ⟨hlabel, hlength, himports⟩ := hfacts
  obtain ⟨middle, rest, himports, hmiddle, hrest⟩ := List.map_eq_cons_iff.mp himports
  obtain ⟨last, rfl, hlast⟩ := List.map_eq_singleton_iff.mp hrest
  obtain ⟨hmiddleForm, hmiddle⟩ := Prod.mk.inj hmiddle
  obtain ⟨hlastForm, hlast⟩ := Prod.mk.inj hlast
  have hordered : Successive threeDeclarators.source (statement.childrenOfKind .variableDeclarator) :=
    parse_declarators htree (by simp [hstatement]) (by rw [hlabel]; rfl)
  have hmany : 1 < (statement.childrenOfKind .variableDeclarator).length := by omega
  have hcut := fun i hi hform =>
    (declarator_removed (d := threeDeclarators) (i := i) hi hform hmany hordered).2
  simp only [hlength] at hcut
  exact ⟨statement, middle, last, himports, hlength, hordered, hmiddle, hlast,
    hcut middle (by simp [himports]) hmiddleForm, hcut last (by simp [himports]) hlastForm⟩

end ImportAssist
