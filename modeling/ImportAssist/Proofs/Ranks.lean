import ImportAssist.Candidate
import ImportAssist.Proofs.LastUses
import Mathlib.Data.Fintype.EquivFin
import Mathlib.Data.List.Nodup

/-!
# Ranks

Ranking sorts by the place of each identity in a history; what has no place comes behind all the different
identities. In a history that has each identity once, that is behind all of it, so that ranking comes to two parts
(`rank_arranged`): the recorded identities in the order of the history, and the rest in the order that it had.

The places of a history that repeats itself go beyond the number of its different identities, and what is not
recorded comes before some that is. `recordedFirst_iff` is the exact condition.
-/

namespace ImportAssist

/-! ## Sorting by a number -/

section Sorting

variable {α : Type} {key : α → Nat} {items : List α} {p : α → Bool}

/-- Sorted by a number, ties in the order that they had. -/
def sortOn (key : α → Nat) (items : List α) : List α := items.mergeSort fun a b => key a ≤ key b

theorem sortOn_perm (key : α → Nat) (items : List α) : (sortOn key items).Perm items := List.mergeSort_perm _ _

theorem sortOn_trans (key : α → Nat) (a b c : α) :
    decide (key a ≤ key b) = true → decide (key b ≤ key c) = true → decide (key a ≤ key c) = true := by
  simp only [decide_eq_true_eq]
  exact Nat.le_trans

theorem sortOn_total (key : α → Nat) (a b : α) : (decide (key a ≤ key b) || decide (key b ≤ key a)) = true := by
  simp only [Bool.or_eq_true, decide_eq_true_eq]
  exact Nat.le_total _ _

theorem sortOn_sorted (key : α → Nat) (items : List α) : (sortOn key items).Pairwise fun a b => key a ≤ key b := by
  have hsorted := List.pairwise_mergeSort (sortOn_trans key) (sortOn_total key) items
  exact hsorted.imp of_decide_eq_true

/-- Items that come out of a sort at one key are in the order in which they went in. -/
theorem filter_sortOn {k : Nat} (hp : ∀ a ∈ items, p a → key a = k) :
    (sortOn key items).filter p = items.filter p := by
  have htied : (items.filter p).Pairwise fun a b => decide (key a ≤ key b) = true := by
    refine List.pairwise_of_forall_mem_list ?_
    intro a ha b hb
    rw [List.mem_filter] at ha hb
    rw [hp a ha.1 ha.2, hp b hb.1 hb.2]
    exact decide_eq_true (Nat.le_refl k)
  have hsublist : (items.filter p).Sublist (sortOn key items) :=
    List.sublist_mergeSort (sortOn_trans key) (sortOn_total key) htied List.filter_sublist
  have hkept : (items.filter p).Sublist ((sortOn key items).filter p) := by
    simpa [List.filter_filter] using hsublist.filter p
  exact (hkept.eq_of_length ((sortOn_perm key items).filter p).length_eq.symm).symm

/-- A list in which what has a property comes first consists of those that have it and those that do not. -/
theorem filter_append_filter_not : ∀ {items : List α}, (items.Pairwise fun a b => p b → p a) →
    items.filter p ++ items.filter (fun a => !p a) = items
  | [], _ => rfl
  | a :: rest, h => by
      rw [List.pairwise_cons] at h
      have ih := filter_append_filter_not h.2
      by_cases ha : p a
      · simpa [ha] using ih
      · have hnone : rest.filter p = [] := List.filter_eq_nil_iff.mpr fun b hb hpb => ha (h.1 b hb hpb)
        rw [hnone, List.nil_append] at ih
        simp [ha, hnone, ih]

end Sorting

/-! ## Places in a history -/

theorem idxOf_lt_of_nodup {ids : List String} (h : ids.Nodup) : ids.Pairwise fun a b => ids.idxOf a < ids.idxOf b := by
  rw [List.pairwise_iff_getElem]
  intro i j hi hj hij
  rwa [h.idxOf_getElem, h.idxOf_getElem]

theorem eraseDups_sublist {ι : Type} [DecidableEq ι] (ids : List ι) : ids.eraseDups.Sublist ids := by
  induction ids using eraseDups_induction with
  | nil => exact .slnil
  | cons a rest ih =>
      rw [List.eraseDups_cons]
      exact .cons_cons a (ih.trans List.filter_sublist)

theorem eraseDups_eq_of_nodup {ι : Type} [DecidableEq ι] {ids : List ι} (h : ids.Nodup) : ids.eraseDups = ids := by
  have hperm : ids.eraseDups.Perm ids :=
    (List.perm_ext_iff_of_nodup (nodup_eraseDups ids) h).mpr fun _ => List.mem_eraseDups
  exact (eraseDups_sublist ids).eq_of_length hperm.length_eq

theorem length_eraseDups_lt {ι : Type} [DecidableEq ι] {ids : List ι} (h : ¬ids.Nodup) :
    ids.eraseDups.length < ids.length := by
  refine Nat.lt_of_le_of_ne (eraseDups_sublist ids).length_le fun hlength => h ?_
  rw [← (eraseDups_sublist ids).eq_of_length hlength]
  exact nodup_eraseDups ids

theorem str_injective : Function.Injective Json.str := fun _ _ h => Json.str.inj h

theorem nodup_map_str {ids : List String} : (ids.map Json.str).Nodup ↔ ids.Nodup :=
  List.nodup_map_iff str_injective

theorem mem_map_str {ids : List String} {id : String} : Json.str id ∈ ids.map .str ↔ id ∈ ids :=
  List.mem_map_of_injective str_injective

theorem eraseDups_map_str (ids : List String) : (ids.map Json.str).eraseDups = ids.eraseDups.map .str := by
  induction ids using eraseDups_induction with
  | nil => rfl
  | cons a rest ih =>
      have hfilter : (rest.map Json.str).filter (fun b => !b == .str a) =
          (rest.filter fun b => !b == a).map .str := by
        rw [List.filter_map]
        rfl
      rw [List.map_cons, List.eraseDups_cons, List.eraseDups_cons, hfilter, ih, List.map_cons]

namespace Recency

section Places

variable {ids : List String} {id : String}

theorem rankIn_map_str (ids : List String) (id : String) :
    rankIn (ids.map Json.str) (.str id) = rankIn ids id := by
  have hsame : ((· == Json.str id) ∘ Json.str : String → Bool) = (· == id) := rfl
  rw [rankIn, rankIn, ← List.map_reverse, List.findIdx?_map, hsame, eraseDups_map_str, List.length_map,
    List.length_map]

theorem rankIn_of_not_mem (h : id ∉ ids) : rankIn ids id = ids.eraseDups.length := by
  have hnone : ids.reverse.findIdx? (· == id) = none := by
    rw [List.findIdx?_eq_none_iff]
    intro a ha
    exact beq_eq_false_iff_ne.mpr fun haid => h (haid ▸ List.mem_reverse.mp ha)
  rw [rankIn, hnone]

/-- In a history that has each identity once, the rank is the position, and what has none is behind all of it. -/
theorem rankIn_of_nodup (h : ids.Nodup) (id : String) : rankIn ids id = ids.idxOf id := by
  by_cases hid : id ∈ ids
  · have hsome : (ids.reverse.findIdx? (· == id)).isSome := by
      rw [List.findIdx?_isSome, List.any_eq_true]
      exact ⟨id, List.mem_reverse.mpr hid, beq_self_eq_true id⟩
    obtain ⟨back, hback⟩ := Option.isSome_iff_exists.mp hsome
    obtain ⟨hlt, hthere, -⟩ := List.findIdx?_eq_some_iff_getElem.mp hback
    rw [List.getElem_reverse] at hthere
    rw [rankIn, hback, ← beq_iff_eq.mp hthere, h.idxOf_getElem]
  · rw [rankIn_of_not_mem hid, eraseDups_eq_of_nodup h, List.idxOf_eq_length hid]

/-- The last entry has the last place, however often the history repeats itself. -/
theorem rankIn_getLast (h : ids ≠ []) : rankIn ids (ids.getLast h) = ids.length - 1 := by
  obtain hnil | ⟨front, last, hids⟩ := List.eq_nil_or_concat ids
  · exact absurd hnil h
  · rw [List.concat_eq_append] at hids
    subst hids
    rw [rankIn, List.getLast_append_singleton, List.reverse_append, List.reverse_singleton,
      List.singleton_append, List.findIdx?_cons, beq_self_eq_true]
    rfl

end Places

/-! ## Candidates by their rank -/

section Ranking

variable {α : Type} {r : Recency Json} {language : String} {ids : List String}

theorem rankStored_eq (h : r.recent language = ids.map .str) (id : α → String) (items : List α) :
    r.rankStored language (fun a => .str (id a)) items = .ok (sortOn (fun a => rankIn ids (id a)) items) := by
  rw [rankStored]
  split
  case isTrue hnone =>
    have hempty : ids = [] := by simpa [has, h] using hnone
    -- Nothing is recorded, and all identities rank alike.
    have htied : items.Pairwise fun a b => decide (rankIn ids (id a) ≤ rankIn ids (id b)) = true := by
      refine List.pairwise_of_forall fun a b => ?_
      rw [hempty]
      exact decide_eq_true (Nat.le_refl _)
    rw [sortOn, List.mergeSort_of_pairwise htied]
  case isFalse hsome =>
    have hkeys : ((r.recent language).all isKey && items.all fun a => isKey (.str (id a))) = true := by
      rw [h, List.all_map, Bool.and_eq_true, List.all_eq_true, List.all_eq_true]
      exact ⟨fun _ _ => rfl, fun _ _ => rfl⟩
    have hhas : r.has language = true := by simpa using hsome
    rw [if_pos hkeys, rank, if_pos hhas]
    simp only [h, rankIn_map_str, sortOn]

/-- By a history that has each identity once, what is recorded comes out in the order of the history. -/
theorem recorded_sortOn_idxOf (hids : ids.Nodup) {id : α → String} {items : List α} (hitems : (items.map id).Nodup) :
    ((sortOn (fun a => ids.idxOf (id a)) items).filter fun a => id a ∈ ids).map id =
      ids.filter fun i => i ∈ items.map id := by
  have hperm := (sortOn_perm (fun a => ids.idxOf (id a)) items).map id
  have hsorted := sortOn_sorted (fun a => ids.idxOf (id a)) items
  have hrecorded : ((sortOn (fun a => ids.idxOf (id a)) items).filter fun a => id a ∈ ids).map id =
      ((sortOn (fun a => ids.idxOf (id a)) items).map id).filter (· ∈ ids) := by
    rw [List.filter_map]
    rfl
  rw [hrecorded]
  -- Both lists are in the order of the history, and have the same members.
  have hleft : (((sortOn (fun a => ids.idxOf (id a)) items).map id).filter (· ∈ ids)).Pairwise
      fun a b => ids.idxOf a ≤ ids.idxOf b :=
    List.Pairwise.filter _ (List.pairwise_map.mpr hsorted)
  have hright : (ids.filter (· ∈ items.map id)).Pairwise fun a b => ids.idxOf a ≤ ids.idxOf b :=
    ((idxOf_lt_of_nodup hids).imp Nat.le_of_lt).filter _
  refine List.Perm.eq_of_pairwise ?_ hleft hright ?_
  · intro a b ha _ hab hba
    exact (List.idxOf_inj (by simpa using (List.mem_filter.mp ha).2)).mp (Nat.le_antisymm hab hba)
  · have hnodup := hperm.nodup_iff.mpr hitems
    refine (List.perm_ext_iff_of_nodup (hnodup.filter _) (hids.filter _)).mpr fun i => ?_
    rw [List.mem_filter, List.mem_filter, decide_eq_true_eq, decide_eq_true_eq, hperm.mem_iff, and_comm]

/-- Ranked by a history that has each identity once: first the recorded ones in the order of the history, then the
others in the order that they had. -/
theorem rank_arranged (h : r.recent language = ids.map .str) (hids : ids.Nodup) {id : α → String} {items : List α}
    (hitems : (items.map id).Nodup) :
    ∃ recorded, r.rankStored language (fun a => .str (id a)) items =
        .ok (recorded ++ items.filter fun a => id a ∉ ids) ∧
      (recorded ++ items.filter fun a => id a ∉ ids).Perm items ∧
      recorded.map id = ids.filter fun i => i ∈ items.map id := by
  have hkey : (fun a => rankIn ids (id a)) = fun a => ids.idxOf (id a) :=
    funext fun a => rankIn_of_nodup hids (id a)
  have hfirst : (sortOn (fun a => ids.idxOf (id a)) items).Pairwise fun a b =>
      decide (id b ∈ ids) = true → decide (id a ∈ ids) = true := by
    refine (sortOn_sorted _ items).imp fun hle hb => ?_
    rw [decide_eq_true_eq, ← List.idxOf_lt_length_iff] at hb ⊢
    exact Nat.lt_of_le_of_lt hle hb
  have hrest : (sortOn (fun a => ids.idxOf (id a)) items).filter (fun a => !decide (id a ∈ ids)) =
      items.filter fun a => id a ∉ ids := by
    rw [filter_sortOn (k := ids.length)]
    · simp
    · intro a _ ha
      exact List.idxOf_eq_length (by simpa using ha)
  have hparts : ((sortOn (fun a => ids.idxOf (id a)) items).filter fun a => id a ∈ ids) ++
      (items.filter fun a => id a ∉ ids) = sortOn (fun a => ids.idxOf (id a)) items := by
    rw [← hrest, filter_append_filter_not hfirst]
  refine ⟨_, ?_, ?_, recorded_sortOn_idxOf hids hitems⟩
  · rw [rankStored_eq h, hkey, hparts]
  · rw [hparts]
    exact sortOn_perm _ items

end Ranking

/-! ## Recorded candidates first -/

/-- Ranking never fails, and puts every recorded candidate before every other one. -/
def RecordedFirst (r : Recency Json) (language : String) : Prop :=
  ∀ items : List Candidate, ∃ ranked, r.rankStored language (fun c => .str c.id) items = .ok ranked ∧
    ranked.Pairwise fun a b => .str b.id ∈ r.recent language → .str a.id ∈ r.recent language

theorem exists_unrecorded (ids : List String) : ∃ id, id ∉ ids := by
  have : Infinite String := Infinite.of_injective String.ofList fun _ _ h => String.ofList_injective h
  obtain ⟨id, hid⟩ := Infinite.exists_notMem_finset ids.toFinset
  exact ⟨id, fun hmem => hid (List.mem_toFinset.mpr hmem)⟩

/-- The exact condition: the history has each identity once. -/
theorem recordedFirst_iff {r : Recency Json} {language : String} {ids : List String}
    (h : r.recent language = ids.map .str) : r.RecordedFirst language ↔ ids.Nodup := by
  constructor
  case mp =>
    intro hfirst
    by_contra hids
    have hne : ids ≠ [] := fun hnil => hids (hnil ▸ .nil)
    obtain ⟨unrecorded, hunrecorded⟩ := exists_unrecorded ids
    let item (path : String) : Candidate := .file ⟨path, "", {}, .javascript⟩
    -- The last entry ranks no less than what is not recorded, which therefore stays in front of it.
    have hrank : rankIn ids unrecorded ≤ rankIn ids (ids.getLast hne) := by
      have hlength := length_eraseDups_lt hids
      rw [rankIn_of_not_mem hunrecorded, rankIn_getLast hne]
      omega
    obtain ⟨ranked, hranked, horder⟩ := hfirst [item unrecorded, item (ids.getLast hne)]
    rw [rankStored_eq h (fun c : Candidate => c.id), sortOn, List.mergeSort_of_pairwise] at hranked
    · rw [← Except.ok.inj hranked, List.pairwise_pair, h, mem_map_str, mem_map_str] at horder
      exact hunrecorded (horder (List.getLast_mem hne))
    · rw [List.pairwise_pair]
      exact decide_eq_true hrank
  case mpr =>
    intro hids items
    refine ⟨_, rankStored_eq h (fun c : Candidate => c.id) items, ?_⟩
    refine (sortOn_sorted _ items).imp fun {a b} hle hb => ?_
    rw [h, mem_map_str] at hb ⊢
    rw [rankIn_of_nodup hids, rankIn_of_nodup hids] at hle
    rw [← List.idxOf_lt_length_iff] at hb ⊢
    exact Nat.lt_of_le_of_lt hle hb

end Recency

end ImportAssist
