import Mathlib.Data.List.Nodup
import Std.Data.TreeSet.Lemmas
import ImportAssist.Syntax.Tree

/-!
# Walks by worklist

A walk keeps the nodes to come on a worklist and the identities of those that it has seen. Whatever
these identities are, it comes to an end (`run_ends`) and visits none of them twice (`run_once`).

If they tell the nodes of the tree apart, the walk is the recursion: with each step it visits the next
node of the preorder, up to the last one (`run_visited`, `run_pending_iff`). The invariant is `InTurn`:
the nodes visited so far, and behind them the trees of the pending nodes, are the preorder of the
whole tree. So no node is met again.

Two nodes of a tree may be equal and are not the same for that. What is the same is told by the path
from the root: `occurrences` lists the nodes of a tree with their paths, and what it lists are the
ends of all paths (`mem_occurrences`), each one once (`nodup_paths`).
-/

namespace ImportAssist

namespace Node

/-! ## Sizes -/

theorem size_pos (n : Node) : 0 < n.size := by
  cases n
  rw [size]
  omega

theorem sizeList_append : ∀ ns ms : List Node, sizeList (ns ++ ms) = sizeList ns + sizeList ms
  | [], ms => by simp [sizeList]
  | n :: ns, ms => by
      rw [List.cons_append, sizeList, sizeList, sizeList_append ns ms]
      omega

theorem size_eq (n : Node) : n.size = 1 + sizeList n.children := by
  cases n
  rw [size, children]

/-! ## Paths -/

/-- The node at the end of a path from the root. The number of the last child comes first. -/
def at? (root : Node) : List Nat → Option Node
  | [] => some root
  | k :: path => (root.at? path).bind fun n => n.children[k]?

theorem at?_append (root : Node) (path : List Nat) : ∀ rest : List Nat,
    root.at? (rest ++ path) = (root.at? path).bind fun n => n.at? rest
  | [] => by simp [at?]
  | k :: rest => by
      rw [List.cons_append, at?, at?_append root path rest, Option.bind_assoc]
      rfl

theorem at?_concat (root : Node) (rest : List Nat) (k : Nat) :
    root.at? (rest ++ [k]) = root.children[k]?.bind fun c => c.at? rest := by
  rw [at?_append]
  rfl

end Node

/-- The node stands in the tree, at the end of its path. -/
def Occurrence.IsIn (o : Occurrence) (root : Node) : Prop := root.at? o.path = some o.node

/-- The path tells which node it is. -/
theorem Occurrence.IsIn.eq {a b : Occurrence} {root : Node} (ha : a.IsIn root) (hb : b.IsIn root)
    (h : a.path = b.path) : a = b := by
  obtain ⟨path, n⟩ := a
  obtain ⟨path', m⟩ := b
  obtain rfl : path = path' := h
  obtain rfl : n = m := Option.some.inj (ha.symm.trans hb)
  rfl

namespace Node

/-! ## The nodes with their paths -/

mutual

/-- A node that stands at the end of a path, then the nodes below it, in preorder. -/
def occurrencesAt : List Nat → Node → List Occurrence
  | path, n@(mk _ _ _ _ cs) => ⟨path, n⟩ :: occurrencesFrom path 0 cs

/-- The same of siblings: they are the children from number `k` on of the node at the end of the path. -/
def occurrencesFrom : List Nat → Nat → List Node → List Occurrence
  | _, _, [] => []
  | path, k, n :: ns => n.occurrencesAt (k :: path) ++ occurrencesFrom path (k + 1) ns

end

/-- The nodes of a tree with their paths, in preorder. -/
def occurrences (root : Node) : List Occurrence := root.occurrencesAt []

mutual

theorem map_occurrencesAt : ∀ (path : List Nat) (n : Node),
    (n.occurrencesAt path).map (·.node) = n.preorder
  | path, mk _ _ _ _ cs => by
      rw [occurrencesAt, preorder, List.map_cons, map_occurrencesFrom path 0 cs]

theorem map_occurrencesFrom : ∀ (path : List Nat) (k : Nat) (ns : List Node),
    (occurrencesFrom path k ns).map (·.node) = preorderList ns
  | _, _, [] => rfl
  | path, k, n :: ns => by
      rw [occurrencesFrom, preorderList, List.map_append, map_occurrencesAt (k :: path) n,
        map_occurrencesFrom path (k + 1) ns]

end

theorem map_occurrences (root : Node) : root.occurrences.map (·.node) = root.preorder :=
  map_occurrencesAt [] root

mutual

theorem length_occurrencesAt : ∀ (path : List Nat) (n : Node), (n.occurrencesAt path).length = n.size
  | path, mk _ _ _ _ cs => by
      rw [occurrencesAt, size, List.length_cons, length_occurrencesFrom path 0 cs, Nat.add_comm]

theorem length_occurrencesFrom : ∀ (path : List Nat) (k : Nat) (ns : List Node),
    (occurrencesFrom path k ns).length = sizeList ns
  | _, _, [] => rfl
  | path, k, n :: ns => by
      rw [occurrencesFrom, sizeList, List.length_append, length_occurrencesAt (k :: path) n,
        length_occurrencesFrom path (k + 1) ns]

end

theorem length_occurrences (root : Node) : root.occurrences.length = root.size :=
  length_occurrencesAt [] root

section

variable {o : Occurrence}

mutual

theorem mem_occurrencesAt : ∀ (path : List Nat) (n : Node), o ∈ n.occurrencesAt path ↔
    ∃ rest, o.path = rest ++ path ∧ n.at? rest = some o.node
  | path, mk _ _ _ _ cs => by
      rw [occurrencesAt, List.mem_cons, mem_occurrencesFrom path 0 cs]
      constructor
      · rintro (rfl | ⟨j, c, rest, hc, hpath, hat⟩)
        · exact ⟨[], rfl, rfl⟩
        · refine ⟨rest ++ [j], by simpa using hpath, ?_⟩
          rw [at?_concat, children, hc]
          exact hat
      · rintro ⟨rest, hpath, hat⟩
        rcases List.eq_nil_or_concat' rest with rfl | ⟨rest, j, rfl⟩
        · obtain ⟨_, _⟩ := o
          cases hat
          exact .inl (congrArg (Occurrence.mk · _) hpath)
        · rw [at?_concat, children] at hat
          obtain ⟨c, hc, hat⟩ := Option.bind_eq_some_iff.mp hat
          exact .inr ⟨j, c, rest, hc, by simpa using hpath, hat⟩

theorem mem_occurrencesFrom : ∀ (path : List Nat) (k : Nat) (ns : List Node),
    o ∈ occurrencesFrom path k ns ↔
      ∃ j n rest, ns[j]? = some n ∧ o.path = rest ++ (k + j) :: path ∧ n.at? rest = some o.node
  | _, _, [] => by simp [occurrencesFrom]
  | path, k, n :: ns => by
      rw [occurrencesFrom, List.mem_append, mem_occurrencesAt (k :: path) n,
        mem_occurrencesFrom path (k + 1) ns]
      constructor
      · rintro (⟨rest, hpath, hat⟩ | ⟨j, m, rest, hm, hpath, hat⟩)
        · exact ⟨0, n, rest, rfl, hpath, hat⟩
        · exact ⟨j + 1, m, rest, hm, by rw [hpath, Nat.add_right_comm, Nat.add_assoc], hat⟩
      · rintro ⟨j, m, rest, hm, hpath, hat⟩
        cases j with
        | zero =>
            obtain rfl : n = m := Option.some.inj hm
            exact .inl ⟨rest, hpath, hat⟩
        | succ j => exact .inr ⟨j, m, rest, hm, by rw [hpath, Nat.add_right_comm, Nat.add_assoc], hat⟩

end

/-- The nodes that are listed are those of the tree. -/
theorem mem_occurrences {root : Node} : o ∈ root.occurrences ↔ o.IsIn root := by
  simp [occurrences, mem_occurrencesAt, Occurrence.IsIn]

end

mutual

theorem nodup_pathsAt : ∀ (path : List Nat) (n : Node),
    ((n.occurrencesAt path).map (·.path)).Nodup
  | path, mk _ _ _ _ cs => by
      rw [occurrencesAt, List.map_cons, List.nodup_cons]
      refine ⟨fun hmem => ?_, nodup_pathsFrom path 0 cs⟩
      obtain ⟨o, ho, hpath⟩ : ∃ o ∈ occurrencesFrom path 0 cs, o.path = path := List.mem_map.mp hmem
      obtain ⟨j, c, rest, -, hbelow, -⟩ := (mem_occurrencesFrom path 0 cs).mp ho
      have hlength := congrArg List.length (hpath.symm.trans hbelow)
      rw [List.length_append, List.length_cons] at hlength
      omega

theorem nodup_pathsFrom : ∀ (path : List Nat) (k : Nat) (ns : List Node),
    ((occurrencesFrom path k ns).map (·.path)).Nodup
  | _, _, [] => List.nodup_nil
  | path, k, n :: ns => by
      rw [occurrencesFrom, List.map_append, List.nodup_append']
      refine ⟨nodup_pathsAt (k :: path) n, nodup_pathsFrom path (k + 1) ns, ?_⟩
      -- Both paths lead to the parent and there branch to children of different numbers.
      intro p hp hp'
      obtain ⟨o, ho, rfl⟩ := List.mem_map.mp hp
      obtain ⟨o', ho', hsame⟩ := List.mem_map.mp hp'
      obtain ⟨rest, hpath, -⟩ := (mem_occurrencesAt (k :: path) n).mp ho
      obtain ⟨j, c, rest', -, hpath', -⟩ := (mem_occurrencesFrom path (k + 1) ns).mp ho'
      have hbranch := (List.append_inj' (hpath'.symm.trans (hsame.trans hpath)) rfl).2
      have hnumber := (List.cons.inj hbranch).1
      omega

end

/-- No node is listed twice. -/
theorem nodup_paths (root : Node) : (root.occurrences.map (·.path)).Nodup := nodup_pathsAt [] root

end Node

namespace Occurrence

/-- The nodes of the tree below an occurrence and this itself, in preorder. -/
def subtree (o : Occurrence) : List Occurrence := o.node.occurrencesAt o.path

theorem occurrencesFrom_eq (path : List Nat) : ∀ (k : Nat) (ns : List Node),
    Node.occurrencesFrom path k ns =
      ((ns.zipIdx k).map fun (c, i) => Occurrence.mk (i :: path) c).flatMap subtree
  | _, [] => rfl
  | k, n :: ns => by
      rw [Node.occurrencesFrom, occurrencesFrom_eq path (k + 1) ns]
      rfl

/-- A tree is its root and then the trees of the children. -/
theorem subtree_eq (o : Occurrence) : o.subtree = o :: o.children.flatMap subtree := by
  obtain ⟨path, label, role, start, stop, cs⟩ := o
  rw [subtree, Node.occurrencesAt, occurrencesFrom_eq]
  rfl

theorem map_children (o : Occurrence) : o.children.map (·.node) = o.node.children := by
  simp [children, Function.comp_def, List.zipIdx_map_fst]

theorem IsIn.child {o c : Occurrence} {root : Node} (h : o.IsIn root) (hc : c ∈ o.children) :
    c.IsIn root := by
  obtain ⟨⟨n, k⟩, hn, rfl⟩ := List.mem_map.mp hc
  rw [IsIn, Node.at?, h, Option.bind_some]
  exact List.mem_zipIdx_iff_getElem?.mp hn

end Occurrence

namespace Worklist

variable {ι : Type} [Ord ι] {identity : Occurrence → ι} {root : Node} {w w' : Worklist ι}

/-! ## Steps -/

/-- Children that are pushed from right to left come from left to right. -/
theorem push_reverse (ns pending : List Occurrence) : push ns.reverse pending = ns ++ pending := by
  simp [push]

theorem step_eq_none : w.step identity = none ↔ w.pending = [] := by
  unfold step
  split
  · simp_all
  · split <;> simp_all

/-- A step passes over the next node or visits it. -/
theorem step_cases (h : w.step identity = some w') : ∃ n rest, w.pending = n :: rest ∧
    ((identity n ∈ w.seen ∧ w' = ⟨rest, w.seen, w.visited⟩) ∨
      (identity n ∉ w.seen ∧ w' = ⟨n.children ++ rest, w.seen.insert (identity n), n :: w.visited⟩)) := by
  unfold step at h
  split at h
  · cases h
  rename_i n rest hpending
  refine ⟨n, rest, hpending, ?_⟩
  split at h
  · rename_i hseen
    exact .inl ⟨hseen, (Option.some.inj h).symm⟩
  · rename_i hnew
    rw [push_reverse] at h
    exact .inr ⟨hnew, (Option.some.inj h).symm⟩

/-- What every step keeps, a run keeps. -/
theorem run_keeps {P : Worklist ι → Prop}
    (hstep : ∀ {w w' : Worklist ι}, P w → w.step identity = some w' → P w') :
    ∀ (limit : Nat) {w : Worklist ι}, P w → P (w.run identity limit)
  | 0, _, h => h
  | limit + 1, w, h => by
      rw [run]
      split
      · exact h
      · rename_i next hnext
        exact run_keeps hstep limit (hstep h hnext)

/-! ## Walks with any identities -/

/-- A walk ends: each step takes a node off, and puts on no more than was below it. -/
theorem run_ends : ∀ {limit : Nat} {w : Worklist ι}, Node.sizeList (w.pending.map (·.node)) ≤ limit →
    (w.run identity limit).pending = []
  | 0, w, h => by
      cases hpending : w.pending with
      | nil => rw [run, hpending]
      | cons n rest =>
          have := n.node.size_pos
          rw [hpending, List.map_cons, Node.sizeList] at h
          omega
  | limit + 1, w, h => by
      rw [run]
      split
      · rename_i hnone
        exact step_eq_none.mp hnone
      · rename_i next hnext
        refine run_ends ?_
        obtain ⟨n, rest, hpending, ⟨-, rfl⟩ | ⟨-, rfl⟩⟩ := step_cases hnext
        · have := n.node.size_pos
          rw [hpending, List.map_cons, Node.sizeList] at h
          simp only
          omega
        · rw [hpending, List.map_cons, Node.sizeList, Node.size_eq] at h
          simp only [List.map_append, Occurrence.map_children, Node.sizeList_append]
          omega

/-- The identities seen are those of the nodes visited, and these have different ones. -/
structure Records (identity : Occurrence → ι) (w : Worklist ι) : Prop where
  seen : ∀ i, i ∈ w.seen ↔ i ∈ w.visited.map identity
  once : (w.visited.map identity).Nodup

theorem Records.start : Records identity (start root) where
  seen i := by simp [Worklist.start]
  once := List.nodup_nil

section

variable [Std.TransOrd ι] [Std.LawfulEqOrd ι]

theorem Records.step (h : Records identity w) (hstep : w.step identity = some w') :
    Records identity w' := by
  obtain ⟨n, rest, -, ⟨-, rfl⟩ | ⟨hnew, rfl⟩⟩ := step_cases hstep
  · exact ⟨h.seen, h.once⟩
  · refine ⟨fun i => ?_, List.nodup_cons.mpr ⟨fun hmem => hnew ((h.seen _).mpr hmem), h.once⟩⟩
    rw [Std.TreeSet.mem_insert, Std.LawfulEqCmp.compare_eq_iff_eq, h.seen, List.map_cons, List.mem_cons,
      eq_comm]

/-- A walk visits no identity twice. -/
theorem run_once (limit : Nat) : (((start root).run identity limit).visited.map identity).Nodup :=
  (run_keeps Records.step limit Records.start).once

end

/-! ## Walks with identities that tell the nodes apart -/

/-- No two nodes of the tree have the same identity. -/
def TellsApart (identity : Occurrence → ι) (root : Node) : Prop :=
  ∀ a b : Occurrence, a.IsIn root → b.IsIn root → identity a = identity b → a = b

theorem tellsApart_path (root : Node) : TellsApart Occurrence.path root := fun _ _ ha hb h => ha.eq hb h

/-- The nodes visited, and then the trees of the nodes to come, are the preorder of the tree. -/
structure InTurn (identity : Occurrence → ι) (root : Node) (w : Worklist ι) : Prop
    extends Records identity w where
  order : w.visited.reverse ++ w.pending.flatMap Occurrence.subtree = root.occurrences

theorem InTurn.start : InTurn identity root (start root) where
  toRecords := .start
  order := List.append_nil _

variable [Std.TransOrd ι] [Std.LawfulEqOrd ι]

/-- Every step visits the next node. -/
theorem InTurn.step (htells : TellsApart identity root) (h : InTurn identity root w)
    (hstep : w.step identity = some w') :
    InTurn identity root w' ∧ w'.visited.length = w.visited.length + 1 := by
  have hrecords := h.toRecords.step hstep
  obtain ⟨n, rest, hpending, hcases⟩ := step_cases hstep
  have horder : w.visited.reverse ++ n :: (n.children ++ rest).flatMap Occurrence.subtree =
      root.occurrences := by
    rw [← h.order, hpending, List.flatMap_cons, n.subtree_eq, List.flatMap_append, List.cons_append]
  have hin : ∀ o ∈ n :: w.visited, o.IsIn root := fun o ho => by
    rw [← Node.mem_occurrences, ← horder]
    simp only [List.mem_cons, List.mem_append, List.mem_reverse] at ho ⊢
    tauto
  -- The node is not among those in front of it in the preorder, so its identity is a new one.
  have hnew : identity n ∉ w.seen := by
    rw [h.seen]
    intro hmem
    obtain ⟨o, ho, hsame⟩ := List.mem_map.mp hmem
    obtain rfl := htells o n (hin o (List.mem_cons_of_mem _ ho)) (hin n List.mem_cons_self) hsame
    have hpaths := root.nodup_paths
    rw [← horder] at hpaths
    exact List.disjoint_of_nodup_append (.of_map _ hpaths) (List.mem_reverse.mpr ho) List.mem_cons_self
  obtain ⟨hseen, -⟩ | ⟨-, rfl⟩ := hcases
  · exact absurd hseen hnew
  · refine ⟨⟨hrecords, ?_⟩, List.length_cons⟩
    rw [List.reverse_cons, List.append_assoc]
    exact horder

theorem InTurn.run (htells : TellsApart identity root) : ∀ (limit : Nat) {w : Worklist ι},
    InTurn identity root w →
      (w.run identity limit).visited.reverse = root.occurrences.take (w.visited.length + limit)
  | 0, w, h => by
      rw [Worklist.run, ← h.order, Nat.add_zero, List.take_left' List.length_reverse]
  | limit + 1, w, h => by
      rw [Worklist.run]
      split
      · rename_i hnone
        have horder := h.order
        rw [step_eq_none.mp hnone, List.flatMap_nil, List.append_nil] at horder
        rw [← horder, List.take_of_length_le]
        rw [List.length_reverse]
        omega
      · rename_i next hnext
        obtain ⟨hturn, hlength⟩ := h.step htells hnext
        rw [InTurn.run htells limit hturn, hlength]
        congr 1
        omega

/-- After some steps the walk has visited as many nodes, the first ones of the preorder. -/
theorem run_visited (htells : TellsApart identity root) (limit : Nat) :
    ((start root).run identity limit).visited.reverse = root.occurrences.take limit := by
  rw [InTurn.start.run htells]
  exact congrArg (root.occurrences.take ·) (Nat.zero_add limit)

/-- The walk ends with the last node of the tree, and not before. -/
theorem run_pending_iff (htells : TellsApart identity root) {limit : Nat} :
    ((start root).run identity limit).pending = [] ↔ root.size ≤ limit := by
  constructor
  · intro hend
    have hturn : InTurn identity root ((start root).run identity limit) :=
      run_keeps (fun h hstep => (InTurn.step htells h hstep).1) limit .start
    have horder := hturn.order
    rw [hend, List.flatMap_nil, List.append_nil, run_visited htells] at horder
    have hlength := congrArg List.length horder
    rw [List.length_take, root.length_occurrences] at hlength
    omega
  · intro hlimit
    refine run_ends ?_
    simpa [start, Node.sizeList] using hlimit

end Worklist

namespace Node

theorem walk_eq_occurrences (root : Node) : root.walk = root.occurrences.map (·.node) := by
  rw [walk, Worklist.run_visited (Worklist.tellsApart_path root), ← root.length_occurrences,
    List.take_length]

theorem walk_eq_preorder (root : Node) : root.walk = root.preorder := by
  rw [walk_eq_occurrences, map_occurrences]

end Node

end ImportAssist
