import ImportAssist.Inventory.Imports
import ImportAssist.Proofs.Worklist
import ImportAssist.Syntax.Parse

/-!
# What is found on a walk

A walk comes to every node of a tree once, in preorder, and ends (`walked_in_preorder`). So the calls of
`require` that are found are those of the tree, in preorder, wherever they stand: in the callee of
another call, among its arguments, or at any depth below. Their literals are different nodes, also where
the calls are equal, since a literal stands two steps below its call. And the first node that passes a
test is the first one of the preorder.
-/

namespace ImportAssist

/-! ## Calls of `require` -/

namespace Node

variable {source : Bytes} {n literal : Node}

theorem requireLiteral?_eq_some_iff : n.requireLiteral? source = some literal ↔
    n.hasKind .callExpression = true ∧
      (∃ callee, n.child? .function = some callee ∧ callee.hasKind .identifier = true ∧
        callee.text source = "require") ∧
      (∃ args, n.child? .arguments = some args ∧ args.hasKind .arguments = true ∧
        args.namedChildren = [literal]) ∧
      (literal.stringValue? source).isSome = true := by
  constructor
  · intro h
    rw [requireLiteral?, Option.ite_none_right_eq_some] at h
    obtain ⟨hcall, h⟩ := h
    split at h
    case h_2 => cases h
    case h_1 callee args hcallee hargs =>
      simp only [Option.ite_none_right_eq_some, Bool.and_eq_true, beq_iff_eq] at h
      obtain ⟨⟨⟨hkind, htext⟩, hbrackets⟩, h⟩ := h
      split at h
      case h_2 => cases h
      case h_1 only hnamed =>
        obtain ⟨hvalue, rfl⟩ := Option.ite_none_right_eq_some.mp h |>.imp_right Option.some.inj
        exact ⟨hcall, ⟨callee, hcallee, hkind, htext⟩, ⟨args, hargs, hbrackets, hnamed⟩, hvalue⟩
  · rintro ⟨hcall, ⟨callee, hcallee, hkind, htext⟩, ⟨args, hargs, hbrackets, hnamed⟩, hvalue⟩
    simp [requireLiteral?, hcall, hcallee, hargs, hkind, htext, hbrackets, hnamed, hvalue]

end Node

namespace Occurrence

variable {source : Bytes} {root : Node} {call literal : Occurrence} {path : String}

/-- The first child with a role. -/
def child? (o : Occurrence) (role : Role) : Option Occurrence :=
  o.children.find? fun c => c.node.role == some role

def namedChildren (o : Occurrence) : List Occurrence := o.children.filter fun c => c.node.isNamed

theorem map_child? (o : Occurrence) (role : Role) :
    (o.child? role).map (·.node) = o.node.child? role := by
  rw [Node.child?, ← o.map_children, List.find?_map]
  rfl

theorem map_namedChildren (o : Occurrence) : o.namedChildren.map (·.node) = o.node.namedChildren := by
  rw [Node.namedChildren, ← o.map_children, List.filter_map]
  rfl

/-- A child stands one step below. -/
theorem path_of_mem_children {o c : Occurrence} (h : c ∈ o.children) : ∃ k, c.path = k :: o.path := by
  obtain ⟨⟨n, k⟩, -, rfl⟩ := List.mem_map.mp h
  exact ⟨k, rfl⟩

/-- The call is `require('path')`: it calls the identifier `require`, and all there is between its
brackets, comments included, is the literal. -/
structure IsRequire (source : Bytes) (call literal : Occurrence) (path : String) : Prop where
  isCall : call.node.hasKind .callExpression = true
  callee : ∃ callee, call.child? .function = some callee ∧ callee.node.hasKind .identifier = true ∧
    callee.node.text source = "require"
  argument : ∃ args, call.child? .arguments = some args ∧ args.node.hasKind .arguments = true ∧
    args.namedChildren = [literal]
  value : literal.node.stringValue? source = some path

theorem exists_isRequire {n : Node} (h : call.node.requireLiteral? source = some n)
    (hvalue : n.stringValue? source = some path) :
    ∃ literal, literal.node = n ∧ IsRequire source call literal path := by
  obtain ⟨hcall, ⟨_, hfunction, hname⟩, ⟨_, harguments, hbrackets, hnamed⟩, -⟩ :=
    Node.requireLiteral?_eq_some_iff.mp h
  rw [← map_child?] at hfunction harguments
  obtain ⟨callee, hcallee, rfl⟩ := Option.map_eq_some_iff.mp hfunction
  obtain ⟨args, hargs, rfl⟩ := Option.map_eq_some_iff.mp harguments
  rw [← map_namedChildren] at hnamed
  obtain ⟨literal, hliteral, rfl⟩ := List.map_eq_singleton_iff.mp hnamed
  exact ⟨literal, rfl, hcall, ⟨callee, hcallee, hname⟩, ⟨args, hargs, hbrackets, hliteral⟩, hvalue⟩

namespace IsRequire

theorem requireLiteral? (h : IsRequire source call literal path) :
    call.node.requireLiteral? source = some literal.node := by
  obtain ⟨callee, hcallee, hname⟩ := h.callee
  obtain ⟨args, hargs, hbrackets, hnamed⟩ := h.argument
  refine Node.requireLiteral?_eq_some_iff.mpr ⟨h.isCall, ⟨callee.node, ?_, hname⟩,
    ⟨args.node, ?_, hbrackets, ?_⟩, Option.isSome_iff_exists.mpr ⟨path, h.value⟩⟩
  · rw [← map_child?, hcallee, Option.map_some]
  · rw [← map_child?, hargs, Option.map_some]
  · rw [← map_namedChildren, hnamed, List.map_singleton]

/-- A call has one literal. -/
theorem unique {literal' : Occurrence} {path' : String} (h : IsRequire source call literal path)
    (h' : IsRequire source call literal' path') : literal = literal' ∧ path = path' := by
  obtain ⟨args, hargs, -, hnamed⟩ := h.argument
  obtain ⟨args', hargs', -, hnamed'⟩ := h'.argument
  obtain rfl := Option.some.inj (hargs.symm.trans hargs')
  obtain rfl := List.singleton_inj.mp (hnamed.symm.trans hnamed')
  exact ⟨rfl, Option.some.inj (h.value.symm.trans h'.value)⟩

/-- The literal stands two steps below the call. -/
theorem below (h : IsRequire source call literal path) :
    ∃ args ∈ call.children, literal ∈ args.children := by
  obtain ⟨args, hargs, -, hnamed⟩ := h.argument
  have hmem : literal ∈ args.namedChildren := by simp [hnamed]
  exact ⟨args, List.mem_of_find?_eq_some hargs, (List.mem_filter.mp hmem).1⟩

theorem literal_isIn (h : IsRequire source call literal path) (hcall : call.IsIn root) :
    literal.IsIn root := by
  obtain ⟨args, hargs, hliteral⟩ := h.below
  exact (hcall.child hargs).child hliteral

theorem literal_path (h : IsRequire source call literal path) :
    ∃ i j, literal.path = j :: i :: call.path := by
  obtain ⟨args, hargs, hliteral⟩ := h.below
  obtain ⟨i, hi⟩ := path_of_mem_children hargs
  obtain ⟨j, hj⟩ := path_of_mem_children hliteral
  exact ⟨i, j, by rw [hj, hi]⟩

end IsRequire

end Occurrence

open Occurrence Worklist

/-- A call of `require` where it stands in a tree. -/
structure RequireCall where
  call : Occurrence
  literal : Occurrence
  path : String

/-- The calls that are found among some nodes, each where it stands. -/
theorem exists_requireCalls (source : Bytes) : ∀ os : List Occurrence, ∃ found : List RequireCall,
    (os.filterMap fun o => (o.node.requireLiteral? source).bind fun literal =>
      (literal.stringValue? source).map fun path => (literal, path)) =
        found.map (fun r => (r.literal.node, r.path)) ∧
      (found.map (·.call)).Sublist os ∧
      ∀ r, r ∈ found ↔ r.call ∈ os ∧ IsRequire source r.call r.literal r.path
  | [] => ⟨[], rfl, .slnil, by simp⟩
  | o :: os => by
      obtain ⟨found, hfound, hsublist, hmem⟩ := exists_requireCalls source os
      rw [List.filterMap_cons]
      split
      · rename_i hnone
        have hno : ∀ literal path, ¬IsRequire source o literal path := fun literal path h => by
          simp [h.requireLiteral?, h.value] at hnone
        refine ⟨found, hfound, hsublist.cons o, fun r => (hmem r).trans ?_⟩
        rw [List.mem_cons, or_and_right, or_iff_right]
        rintro ⟨heq, h⟩
        exact hno _ _ (heq ▸ h)
      · rename_i entry hsome
        obtain ⟨n, hn, hentry⟩ := Option.bind_eq_some_iff.mp hsome
        obtain ⟨path, hpath, rfl⟩ := Option.map_eq_some_iff.mp hentry
        obtain ⟨literal, rfl, h⟩ := exists_isRequire hn hpath
        refine ⟨⟨o, literal, path⟩ :: found, by rw [hfound, List.map_cons], hsublist.cons_cons o,
          fun r => ?_⟩
        rw [List.mem_cons, hmem, List.mem_cons, or_and_right]
        refine or_congr_left ⟨?_, ?_⟩
        · rintro rfl
          exact ⟨rfl, h⟩
        · obtain ⟨call, literal', path'⟩ := r
          rintro ⟨rfl, h'⟩
          obtain ⟨rfl, rfl⟩ := h.unique h'
          rfl

/-! ## The walk and what it finds -/

variable {ι : Type} {identity : Occurrence → ι} {root : Node}

/-- A walk is the recursion. -/
structure Visits [Ord ι] (identity : Occurrence → ι) (root : Node) : Prop where
  /-- With each step a node is visited, the first ones of the preorder one after the other. -/
  inOrder : ∀ steps,
    ((start root).run identity steps).visited.reverse = root.occurrences.take steps
  /-- After as many steps as there are nodes the walk ends. -/
  ends : ∀ steps, ((start root).run identity steps).pending = [] ↔ root.size ≤ steps
  whole : ((start root).run identity root.size).visited.reverse = root.occurrences
  /-- The preorder has every node of the tree. -/
  every : ∀ o, o ∈ root.occurrences ↔ o.IsIn root
  once : (root.occurrences.map identity).Nodup
  nodes : root.occurrences.map (·.node) = root.preorder
  /-- It does not matter which identities there are. -/
  walk : root.walk = ((start root).run identity root.size).visited.reverse.map (·.node)

/-- The calls of `require` that are found are those of the tree, in preorder, and no two of them share
a literal. -/
structure FindsCalls (identity : Occurrence → ι) (source : Bytes) (root : Node)
    (found : List RequireCall) : Prop where
  returned : requireCalls source root = found.map fun r => (r.literal.node, r.path)
  inOrder : (found.map (·.call)).Sublist root.occurrences
  exactly : ∀ r, r ∈ found ↔ r.call.IsIn root ∧ IsRequire source r.call r.literal r.path
  distinct : (found.map fun r => identity r.literal).Nodup

/-- What is found is the first node in preorder that passes a test, if any does. -/
structure FindsFirst (root : Node) (test : Node → Bool) : Prop where
  first : ∀ n, root.find? test = some n ↔ ∃ before o after, root.occurrences = before ++ o :: after ∧
    o.node = n ∧ test n = true ∧ ∀ earlier ∈ before, test earlier.node = false
  missing : root.find? test = none ↔ ∀ o : Occurrence, o.IsIn root → test o.node = false

theorem Worklist.TellsApart.visits [Ord ι] [Std.TransOrd ι] [Std.LawfulEqOrd ι]
    (htells : TellsApart identity root) : Visits identity root := by
  have hwhole : ((start root).run identity root.size).visited.reverse = root.occurrences := by
    rw [run_visited htells, ← root.length_occurrences, List.take_length]
  refine ⟨run_visited htells, fun _ => run_pending_iff htells, hwhole, fun _ => Node.mem_occurrences, ?_,
    root.map_occurrences, ?_⟩
  · rw [← hwhole, List.map_reverse, List.nodup_reverse]
    exact run_once root.size
  · rw [hwhole, root.walk_eq_occurrences]

theorem Worklist.TellsApart.findsCalls (htells : TellsApart identity root) (source : Bytes) :
    ∃ found, FindsCalls identity source root found := by
  obtain ⟨found, hfound, hsublist, hmem⟩ := exists_requireCalls source root.occurrences
  have hexactly (r : RequireCall) :
      r ∈ found ↔ r.call.IsIn root ∧ IsRequire source r.call r.literal r.path := by
    rw [hmem, Node.mem_occurrences]
  refine ⟨found, ?_, hsublist, hexactly, ?_⟩
  · rw [requireCalls, root.walk_eq_occurrences, List.filterMap_map]
    exact hfound
  · have hpaths : ((found.map (·.call)).map (·.path)).Nodup := root.nodup_paths.sublist (hsublist.map _)
    rw [List.Nodup, List.pairwise_map, List.pairwise_map] at hpaths
    rw [List.Nodup, List.pairwise_map]
    -- A literal has its own identity, and its path goes through the call.
    refine hpaths.imp_of_mem fun {r r'} hr hr' hcalls hsame => hcalls ?_
    obtain ⟨hcall, hrequire⟩ := (hexactly r).mp hr
    obtain ⟨hcall', hrequire'⟩ := (hexactly r').mp hr'
    have hliteral : r.literal = r'.literal :=
      htells _ _ (hrequire.literal_isIn hcall) (hrequire'.literal_isIn hcall') hsame
    obtain ⟨i, j, hpath⟩ := hrequire.literal_path
    obtain ⟨i', j', hpath'⟩ := hrequire'.literal_path
    rw [hliteral] at hpath
    exact (List.cons.inj (List.cons.inj (hpath.symm.trans hpath')).2).2

theorem findsFirst (root : Node) (test : Node → Bool) : FindsFirst root test := by
  have hfind : root.find? test = (root.occurrences.find? fun o => test o.node).map (·.node) := by
    rw [Node.find?, root.walk_eq_occurrences, List.find?_map]
    rfl
  refine ⟨fun n => ?_, ?_⟩
  · rw [hfind, Option.map_eq_some_iff]
    simp only [List.find?_eq_some_iff_append, Bool.not_eq_eq_eq_not, Bool.not_true]
    constructor
    · rintro ⟨o, ⟨htest, before, after, hsplit, hbefore⟩, rfl⟩
      exact ⟨before, o, after, hsplit, rfl, htest, hbefore⟩
    · rintro ⟨before, o, after, hsplit, rfl, htest, hbefore⟩
      exact ⟨o, ⟨htest, before, after, hsplit, hbefore⟩, rfl⟩
  · rw [hfind, Option.map_eq_none_iff, List.find?_eq_none]
    simp only [Node.mem_occurrences, Bool.not_eq_true]

/-- Where the identities tell the nodes of a tree apart, a walk visits every node once, in preorder, and
ends. So what is found on it are all calls of `require` in the tree, each with a literal of its own, in
preorder, and the first node that passes a test. -/
theorem walked_in_preorder [Ord ι] [Std.TransOrd ι] [Std.LawfulEqOrd ι]
    (htells : TellsApart identity root) :
    Visits identity root ∧ (∀ source, ∃ found, FindsCalls identity source root found) ∧
      ∀ test, FindsFirst root test :=
  ⟨htells.visits, htells.findsCalls, findsFirst root⟩

/-- Calls in the type arguments of a call that stands in the callee of another one, and among the
arguments of both. -/
def nestedCalls : Bytes :=
  Utf8.encode "require<typeof require('./t')>('./a').run(() => require('./b'))(require('./a'));"

/-- A path as one number. -/
def pathNumber (o : Occurrence) : Nat := o.path.foldr (fun k number => 32 * number + k + 1) 0

/-- The literal of a call is found before those of the calls in its type arguments, although it stands
behind them, and of equal calls each is found. -/
theorem nested_calls_walked : ∃ root, parse nestedCalls "typescript" = some root ∧
    TellsApart pathNumber root ∧ Visits pathNumber root ∧
      (∃ found, FindsCalls pathNumber nestedCalls root found) ∧
      ((requireCalls nestedCalls root).map fun (literal, path) => (literal.start, path)) =
        [(31, "./a"), (23, "./t"), (56, "./b"), (72, "./a")] ∧
      FindsFirst root (·.hasKind .string) ∧ (root.find? (·.hasKind .string)).map (·.start) = some 23 := by
  have hfacts : (parse nestedCalls "typescript").map (fun root =>
      (decide (root.occurrences.map pathNumber).Nodup,
        (requireCalls nestedCalls root).map fun (literal, path) => (literal.start, path),
        (root.find? (·.hasKind .string)).map (·.start))) =
      some (true, [(31, "./a"), (23, "./t"), (56, "./b"), (72, "./a")], some 23) := by
    decide +kernel
  obtain ⟨root, hparse, hroot⟩ := Option.map_eq_some_iff.mp hfacts
  obtain ⟨hnodup, hcalls, hstring⟩ := by simpa only [Prod.mk.injEq] using hroot
  have htells : TellsApart pathNumber root := fun a b ha hb h =>
    List.inj_on_of_nodup_map (of_decide_eq_true hnodup) (Node.mem_occurrences.mpr ha)
      (Node.mem_occurrences.mpr hb) h
  obtain ⟨hvisits, hfinds, hfirst⟩ := walked_in_preorder htells
  exact ⟨root, hparse, htells, hvisits, hfinds _, hcalls, hfirst _, hstring⟩

end ImportAssist
