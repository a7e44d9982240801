import Mathlib.Algebra.BigOperators.Group.List.Basic
import Mathlib.Algebra.Ring.Int.Defs
import ImportAssist.Proofs.Encoding
import ImportAssist.Proofs.Splice

/-!
# Batches of edits

All edits of a batch name offsets of the same source, but they are applied one after the other. Each
one finds the bytes in front of its end as they were, because the edits applied before it lie behind.
So a batch of edits that do not overlap (`Batch`) does what one pass over the source from the left
does (`splice`), in whatever order the batch is given.

Edits may touch, and an insertion may stand at the start or at the end of a replacement. Of two edits
that start at one offset, the one that ends there is the front one in the pass, so the last one to be
applied.
-/

namespace ImportAssist

/-! ## Edits from the left -/

/-- The source from `pos` on, with the span of each edit replaced in turn. -/
def splice (source : Bytes) : Int → List Edit → Bytes
  | pos, [] => source.drop pos.toNat
  | pos, e :: rest =>
    (source.drop pos.toNat).take (e.start - pos).toNat ++ Utf8.encode e.text
      ++ splice source e.stop rest

namespace Edit

/-- The lexicographic order of the spans. -/
def Before (a b : Edit) : Prop := a.start < b.start ∨ a.start = b.start ∧ a.stop < b.stop

/-- Two edits with different spans of which one ends before the other starts. -/
structure Apart (a b : Edit) : Prop where
  disjoint : a.stop ≤ b.start ∨ b.stop ≤ a.start
  distinct : (a.start, a.stop) ≠ (b.start, b.stop)

theorem Apart.symm {a b : Edit} (h : a.Apart b) : b.Apart a :=
  ⟨h.disjoint.symm, h.distinct.symm⟩

theorem before_iff {a b : Edit} :
    a.Before b ↔ later b a = true ∧ (a.start, a.stop) ≠ (b.start, b.stop) := by
  simp only [Before, later, Bool.or_eq_true, Bool.and_eq_true, beq_iff_eq, decide_eq_true_eq, ne_eq,
    Prod.mk.injEq]
  omega

theorem later_trans (a b c : Edit) : later a b → later b c → later a c := by
  simp only [later, Bool.or_eq_true, Bool.and_eq_true, beq_iff_eq, decide_eq_true_eq]
  omega

theorem later_total (a b : Edit) : (later a b || later b a) = true := by
  simp only [later, Bool.or_eq_true, Bool.and_eq_true, beq_iff_eq, decide_eq_true_eq]
  omega

end Edit

/-- Edits of one source that can be applied together. -/
structure Batch (source : Bytes) (edits : List Edit) : Prop where
  within : ∀ e ∈ edits, 0 ≤ e.start ∧ e.start ≤ e.stop ∧ e.stop ≤ source.length
  apart : edits.Pairwise Edit.Apart

theorem Batch.perm {source : Bytes} {edits others : List Edit} (h : Batch source edits)
    (hperm : others.Perm edits) : Batch source others where
  within e he := h.within e (hperm.mem_iff.mp he)
  apart := h.apart.perm hperm.symm Edit.Apart.symm

/-! ## Edits in order -/

/-- The edits of a batch in the order of their spans. -/
def inOrder (edits : List Edit) : List Edit := (edits.mergeSort Edit.later).reverse

theorem inOrder_perm (edits : List Edit) : (inOrder edits).Perm edits :=
  (List.reverse_perm _).trans (List.mergeSort_perm edits _)

theorem applyEdits_eq_foldr (source : Bytes) (edits : List Edit) :
    applyEdits source edits = (inOrder edits).foldr (fun e bytes => e.apply bytes) source := by
  rw [applyEdits, inOrder, List.foldr_reverse]

theorem Batch.before {source : Bytes} {edits : List Edit} (h : Batch source edits) :
    (inOrder edits).Pairwise Edit.Before := by
  have hsorted : (inOrder edits).Pairwise fun a b => Edit.later b a = true :=
    List.pairwise_reverse.mpr (List.pairwise_mergeSort Edit.later_trans Edit.later_total edits)
  have hapart := (h.perm (inOrder_perm edits)).apart
  exact (hsorted.and hapart).imp fun ⟨hlater, hne⟩ => Edit.before_iff.mpr ⟨hlater, hne.distinct⟩

/-- The order of the spans tells which of two edits that are apart ends first. -/
theorem Edit.Before.stop_le {a b : Edit} (h : a.Before b) (hapart : a.Apart b)
    (ha : a.start ≤ a.stop) (hb : b.start ≤ b.stop) : a.stop ≤ b.start := by
  have hne := hapart.distinct
  rcases hapart.disjoint with hle | hle
  · exact hle
  · rcases h with hlt | ⟨heq, hlt⟩
    · omega
    · omega

/-- Edits behind `pos`, none of which starts before the end of another one in front of it. -/
def InTurn (source : Bytes) : Int → List Edit → Prop
  | pos, [] => 0 ≤ pos ∧ pos ≤ source.length
  | pos, e :: rest => 0 ≤ pos ∧ pos ≤ e.start ∧ e.start ≤ e.stop ∧ InTurn source e.stop rest

theorem InTurn.bounds {source : Bytes} : ∀ {pos : Int} {edits : List Edit},
    InTurn source pos edits → 0 ≤ pos ∧ pos ≤ source.length
  | _, [], h => h
  | _, _ :: _, ⟨hpos, hstart, hstop, hrest⟩ => by
      have := hrest.bounds
      omega

theorem inTurn_of_pairwise {source : Bytes} : ∀ {edits : List Edit} {pos : Int},
    0 ≤ pos → pos ≤ source.length →
    (∀ e ∈ edits, pos ≤ e.start ∧ e.start ≤ e.stop ∧ e.stop ≤ source.length) →
    edits.Pairwise (fun a b => a.stop ≤ b.start) → InTurn source pos edits
  | [], _, hpos, hle, _, _ => ⟨hpos, hle⟩
  | e :: rest, pos, hpos, _, hwithin, hpairwise => by
      obtain ⟨hfront, hrest⟩ := List.pairwise_cons.mp hpairwise
      obtain ⟨hstart, hstop, hlength⟩ := hwithin e List.mem_cons_self
      refine ⟨hpos, hstart, hstop, inTurn_of_pairwise (by omega) hlength (fun b hb => ?_) hrest⟩
      exact ⟨hfront b hb, (hwithin b (List.mem_cons_of_mem e hb)).2⟩

theorem Batch.inTurn {source : Bytes} {edits : List Edit} (h : Batch source edits) :
    InTurn source 0 (inOrder edits) := by
  have hordered := h.perm (inOrder_perm edits)
  refine inTurn_of_pairwise (Int.le_refl 0) (Int.natCast_nonneg _) hordered.within ?_
  refine (h.before.and hordered.apart).imp_of_mem fun {a b} ha hb hab => ?_
  exact hab.1.stop_le hab.2 (hordered.within a ha).2.1 (hordered.within b hb).2.1

/-! ## One edit after the other -/

/-- An edit leaves the bytes in front of it, and finds those behind it as the later ones left them. -/
theorem Edit.apply_append (source tail : Bytes) {e : Edit} {pos : Nat}
    (hpos : (pos : Int) ≤ e.start) (hstart : e.start ≤ e.stop) (hstop : e.stop ≤ source.length) :
    e.apply (source.take e.stop.toNat ++ tail) =
      source.take pos ++ ((source.drop pos).take (e.start - pos).toNat ++ Utf8.encode e.text ++ tail) := by
  obtain ⟨start, hs⟩ := Int.eq_ofNat_of_zero_le (show 0 ≤ e.start by omega)
  obtain ⟨stop, ht⟩ := Int.eq_ofNat_of_zero_le (show 0 ≤ e.stop by omega)
  have hlength : (source.take stop).length = stop := by
    rw [List.length_take]
    omega
  have hgap : (e.start - pos).toNat = start - pos := by omega
  have hkept : source.take start = source.take pos ++ (source.drop pos).take (start - pos) := by
    rw [← List.take_add, Nat.add_sub_cancel' (by omega)]
  rw [Edit.apply, hgap, hs, ht, slicePosition_natCast, slicePosition_natCast, Int.toNat_natCast,
    List.length_append, hlength, Nat.min_eq_left (by omega), Nat.min_eq_left (by omega),
    List.take_append_of_le_length (by omega), List.take_take, Nat.min_eq_left (by omega),
    List.drop_append_of_le_length (by omega), List.drop_eq_nil_of_le (by omega), hkept]
  simp only [List.append_assoc, List.nil_append]

/-- Edits in order, applied from the last one on, do what the pass from the left does. -/
theorem InTurn.foldr_apply {source : Bytes} : ∀ {edits : List Edit} {pos : Int},
    InTurn source pos edits →
    edits.foldr (fun e bytes => e.apply bytes) source =
      source.take pos.toNat ++ splice source pos edits
  | [], pos, _ => (List.take_append_drop pos.toNat source).symm
  | e :: rest, pos, ⟨hpos, hstart, hstop, hrest⟩ => by
      obtain ⟨k, rfl⟩ := Int.eq_ofNat_of_zero_le hpos
      rw [List.foldr_cons, hrest.foldr_apply, splice, Int.toNat_natCast]
      exact Edit.apply_append source _ hstart hstop hrest.bounds.2

theorem Batch.applyEdits_eq {source : Bytes} {edits : List Edit} (h : Batch source edits) :
    applyEdits source edits = splice source 0 (inOrder edits) := by
  rw [applyEdits_eq_foldr, h.inTurn.foldr_apply]
  rfl

/-- There is one order of the spans only. -/
theorem Batch.inOrder_eq {source : Bytes} {edits ordered : List Edit} (h : Batch source edits)
    (hperm : ordered.Perm edits) (hbefore : ordered.Pairwise Edit.Before) :
    inOrder edits = ordered := by
  refine ((inOrder_perm edits).trans hperm.symm).eq_of_pairwise (fun a b _ _ hab hba => ?_) h.before hbefore
  simp only [Edit.Before] at hab hba
  omega

/-! ## What stays -/

/-- How many bytes an edit adds. -/
def Edit.growth (e : Edit) : Int := (Utf8.encode e.text).length - (e.stop - e.start)

/-- How far the edits move the byte at `pos`. -/
def shift (edits : List Edit) (pos : Int) : Int :=
  ((edits.filter fun e => e.stop ≤ pos).map Edit.growth).sum

theorem shift_perm {edits others : List Edit} (h : others.Perm edits) (pos : Int) :
    shift others pos = shift edits pos :=
  ((h.filter _).map _).sum_eq

theorem InTurn.mem {source : Bytes} : ∀ {edits : List Edit} {pos : Int}, InTurn source pos edits →
    ∀ e ∈ edits, pos ≤ e.start ∧ e.start ≤ e.stop
  | [], _, _, _, he => nomatch he
  | _ :: _, _, ⟨_, hstart, hstop, hrest⟩, e, he => by
      rcases List.mem_cons.mp he with rfl | he
      · exact ⟨hstart, hstop⟩
      · have := hrest.mem e he
        omega

/-- Nothing in front of the edits moves. -/
theorem InTurn.shift_eq_zero {source : Bytes} {edits : List Edit} {pos p : Int}
    (h : InTurn source pos edits) (hp : p < pos) : shift edits p = 0 := by
  have hnone : edits.filter (fun e => e.stop ≤ p) = [] := by
    rw [List.filter_eq_nil_iff]
    intro e he hle
    have := h.mem e he
    have := of_decide_eq_true hle
    omega
  rw [shift, hnone]
  rfl

/-- The bytes from `p` to `q`, in front of which some edits end and behind which the others start. -/
theorem InTurn.kept {source : Bytes} {p q : Nat} (hpq : p < q) : ∀ {edits : List Edit} {pos : Int},
    InTurn source pos edits → pos ≤ p → (∀ e ∈ edits, e.stop ≤ p ∨ q ≤ e.start) →
    0 ≤ p - pos + shift edits p ∧
      ((splice source pos edits).drop (p - pos + shift edits p).toNat).take (q - p) =
        (source.drop p).take (q - p)
  | [], pos, hinTurn, hle, _ => by
      have hpos : 0 ≤ pos := hinTurn.1
      refine ⟨by simp [shift]; omega, ?_⟩
      rw [splice, List.drop_drop, show shift [] (p : Int) = 0 from rfl,
        show pos.toNat + (p - pos + 0).toNat = p by omega]
  | e :: rest, pos, ⟨hpos, hstart, hstop, hrest⟩, hle, hclear => by
      have hfront := hclear e List.mem_cons_self
      have hback : ∀ b ∈ rest, b.stop ≤ p ∨ q ≤ b.start := fun b hb =>
        hclear b (List.mem_cons_of_mem e hb)
      obtain ⟨k, rfl⟩ := Int.eq_ofNat_of_zero_le hpos
      have hlength : e.stop ≤ source.length := hrest.bounds.2
      have hgap : ((source.drop k).take (e.start - k).toNat).length = (e.start - k).toNat := by
        rw [List.length_take, List.length_drop]
        omega
      rw [splice, Int.toNat_natCast]
      rcases hfront with hbefore | hbehind
      · -- the edit lies in front: the bytes are found behind its text
        obtain ⟨hnonneg, hkept⟩ := hrest.kept hpq hbefore hback
        have hshift : shift (e :: rest) p = e.growth + shift rest p := by
          rw [shift, List.filter_cons_of_pos (by simpa using hbefore)]
          rfl
        have hplace : p - k + shift (e :: rest) p =
            ((e.start - k).toNat + (Utf8.encode e.text).length : Nat) + (p - e.stop + shift rest p) := by
          rw [hshift, Edit.growth]
          push_cast
          omega
        refine ⟨by omega, ?_⟩
        rw [hplace, Int.toNat_add (by omega) hnonneg, Int.toNat_natCast, ← List.drop_drop,
          List.drop_left' (by rw [List.length_append, hgap]), hkept]
      · -- the edit lies behind, and so do the others: the bytes are found in the gap before it
        have hshift : shift (e :: rest) p = 0 := by
          rw [shift, List.filter_cons_of_neg (by simp; omega)]
          exact hrest.shift_eq_zero (by omega)
        refine ⟨by omega, ?_⟩
        rw [hshift, show (p - k + 0 : Int).toNat = p - k by omega, List.append_assoc,
          List.drop_append_of_le_length (by omega),
          List.take_append_of_le_length (by rw [List.length_drop, hgap]; omega), List.drop_take,
          List.take_take, Nat.min_eq_left (by omega), List.drop_drop, Nat.add_sub_cancel' (by omega)]

/-- Bytes between the edits of a batch stay, as far off as the edits in front of them grow. -/
theorem Batch.kept {source : Bytes} {edits : List Edit} (h : Batch source edits) {p q : Nat}
    (hclear : ∀ e ∈ edits, e.stop ≤ p ∨ q ≤ e.start) :
    ((applyEdits source edits).drop (p + shift edits p).toNat).take (q - p) =
      (source.drop p).take (q - p) := by
  rcases Nat.lt_or_ge p q with hpq | hqp
  · have hperm := inOrder_perm edits
    have hkept := (h.inTurn.kept hpq (Int.natCast_nonneg p) fun e he =>
      hclear e (hperm.mem_iff.mp he)).2
    rwa [shift_perm hperm, Int.sub_zero, ← h.applyEdits_eq] at hkept
  · simp [Nat.sub_eq_zero_of_le hqp]

/-! ## Characters stay whole -/

/-- Both ends of an edit are cuts. -/
def Edit.Cuts (source : Bytes) (e : Edit) : Prop :=
  Utf8.IsCut source e.start.toNat ∧ Utf8.IsCut source e.stop.toNat

theorem Utf8.isCut_length (bytes : Bytes) : IsCut bytes bytes.length :=
  ⟨(glyphs bytes).length, by rw [cut, List.take_length, width_glyphs]⟩

/-- Edits between the characters of a text leave a text. -/
theorem InTurn.isText {source : Bytes} (hutf8 : (Utf8.decode? source).isSome) :
    ∀ {edits : List Edit} {pos : Int}, InTurn source pos edits → Utf8.IsCut source pos.toNat →
    (∀ e ∈ edits, e.Cuts source) → ∃ text, Utf8.encode text = splice source pos edits
  | [], pos, _, hcut, _ => by
      have hpiece := Utf8.decode?_piece hutf8 hcut (Utf8.isCut_length source)
      rw [List.take_of_length_le (Nat.le_of_eq List.length_drop)] at hpiece
      exact (Utf8.isSome_decode?_iff _).mp hpiece
  | e :: rest, pos, ⟨hpos, hstart, _, hrest⟩, hcut, hcuts => by
      obtain ⟨hfirst, hlast⟩ := hcuts e List.mem_cons_self
      have hgap := Utf8.decode?_piece hutf8 hcut hfirst
      rw [show e.start.toNat - pos.toNat = (e.start - pos).toNat by omega,
        Utf8.isSome_decode?_iff] at hgap
      obtain ⟨gap, hgap⟩ := hgap
      obtain ⟨tail, htail⟩ :=
        hrest.isText hutf8 hlast fun b hb => hcuts b (List.mem_cons_of_mem e hb)
      exact ⟨gap ++ e.text ++ tail, by rw [splice, Utf8.encode_append, Utf8.encode_append, hgap, htail]⟩

/-- A batch is one pass over the source, however it is listed; between characters it leaves a text,
so that the document can be edited. -/
theorem Batch.applyEdits_spec {source : Bytes} {edits : List Edit} (h : Batch source edits) :
    ((inOrder edits).Perm edits ∧ (inOrder edits).Pairwise Edit.Before) ∧
    (∀ others : List Edit, others.Perm edits →
      applyEdits source others = splice source 0 (inOrder edits)) ∧
    ((Utf8.decode? source).isSome → (∀ e ∈ edits, e.Cuts source) →
      (∀ others : List Edit, others.Perm edits →
        (Utf8.decode? (applyEdits source others)).isSome) ∧
      ∀ d : Document, d.source = source → ∀ others : List Edit, others.Perm edits →
        ∃ text, d.apply others = .ok { d with text := text } ∧
          Utf8.encode text = splice source 0 (inOrder edits)) := by
  have hpass : ∀ others : List Edit, others.Perm edits →
      applyEdits source others = splice source 0 (inOrder edits) := by
    intro others hperm
    rw [(h.perm hperm).applyEdits_eq,
      (h.perm hperm).inOrder_eq ((inOrder_perm edits).trans hperm.symm) h.before]
  refine ⟨⟨inOrder_perm edits, h.before⟩, hpass, fun hutf8 hcuts => ?_⟩
  obtain ⟨text, htext⟩ := h.inTurn.isText hutf8 ⟨0, by simp⟩ fun e he =>
    hcuts e ((inOrder_perm edits).mem_iff.mp he)
  refine ⟨fun others hperm => ?_, fun d hd others hperm => ⟨text, ?_, htext⟩⟩
  · rw [hpass others hperm, Utf8.isSome_decode?_iff]
    exact ⟨text, htext⟩
  · rw [Document.apply, hd, hpass others hperm, ← htext, Utf8.decode?_encode]

/-- A replacement with an insertion at each end, and a deletion that starts at the same offset as
the second insertion, in no particular order. -/
def touchingEdits : List Edit := [.insert 3 "Y", ⟨1, 3, "ü"⟩, .delete 3 4, .insert 1 "X"]

theorem touchingEdits_batch : Batch (Utf8.encode "aé b") touchingEdits := by
  refine ⟨by decide, ?_⟩
  simp [touchingEdits, Edit.insert, Edit.delete]
  refine ⟨⟨?_, ?_, ?_⟩, ⟨?_, ?_⟩, ?_⟩ <;> exact ⟨by decide, by decide⟩

theorem touchingEdits_cuts : ∀ e ∈ touchingEdits, e.Cuts (Utf8.encode "aé b") := by
  have h1 : Utf8.IsCut (Utf8.encode "aé b") 1 := ⟨1, by decide⟩
  have h3 : Utf8.IsCut (Utf8.encode "aé b") 3 := ⟨2, by decide⟩
  have h4 : Utf8.IsCut (Utf8.encode "aé b") 4 := ⟨3, by decide⟩
  simp only [touchingEdits, List.forall_mem_cons]
  exact ⟨⟨h3, h3⟩, ⟨h1, h3⟩, ⟨h3, h4⟩, ⟨h1, h1⟩, nofun⟩

/-- The insertions surround the new text, and the deletion takes the space behind them. -/
theorem touching_edits_applied :
    applyEdits (Utf8.encode "aé b") touchingEdits.reverse = Utf8.encode "aXüYb" ∧
      (Document.mk "/ws/a.js" "aé b" "javascript" 0).apply touchingEdits =
        .ok ⟨"/ws/a.js", "aXüYb", "javascript", 0⟩ := by
  have hbatch := touchingEdits_batch
  have hordered : inOrder touchingEdits =
      [.insert 1 "X", ⟨1, 3, "ü"⟩, .insert 3 "Y", .delete 3 4] :=
    hbatch.inOrder_eq (by decide) (by simp [Edit.Before, Edit.insert, Edit.delete])
  have hpass : splice (Utf8.encode "aé b") 0 (inOrder touchingEdits) = Utf8.encode "aXüYb" := by
    rw [hordered]
    decide
  obtain ⟨-, hany, htext⟩ := hbatch.applyEdits_spec
  refine ⟨(hany _ (List.reverse_perm _)).trans hpass, ?_⟩
  obtain ⟨-, hdocument⟩ := htext (by decide) touchingEdits_cuts
  obtain ⟨text, happly, hbytes⟩ := hdocument ⟨"/ws/a.js", "aé b", "javascript", 0⟩ rfl _ (.refl _)
  have hread := Utf8.decode?_encode text
  rw [hbytes, hpass, Utf8.decode?_encode] at hread
  rw [happly, ← Option.some.inj hread]

end ImportAssist
