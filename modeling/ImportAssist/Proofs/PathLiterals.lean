import Mathlib.Data.List.Pairwise
import ImportAssist.Proofs.Preorder
import ImportAssist.Proofs.RequireCalls
import ImportAssist.Repair

/-!
# The path literals of a document

Path literals come from two sources, the statements at the top level and the calls of `require` at any
depth, and a literal of the one may stand in front of one of the other. No two of them are the same
place of the source: a literal has no parts, so no other one stands inside it, and those of different
nodes lie apart (`pathLiterals_apart`). Sorted by where they start, each therefore ends before the next
one starts (`relativeImports_ordered`), and an edit of one leaves the others as they are.
-/

namespace ImportAssist

namespace Node

/-! ## Nodes that lie apart -/

/-- One of the two stops before the other one starts. -/
def Apart (a b : Node) : Prop := a.stop ≤ b.start ∨ b.stop ≤ a.start

theorem Apart.symm {a b : Node} (h : a.Apart b) : b.Apart a := Or.symm h

/-- What lies inside of one node is apart from what lies inside of the other. -/
theorem Apart.inside {a b a' b' : Node} (h : a.Apart b) (ha : a.start ≤ a'.start ∧ a'.stop ≤ a.stop)
    (hb : b.start ≤ b'.start ∧ b'.stop ≤ b.stop) : a'.Apart b' := by
  unfold Apart at h ⊢
  omega

variable {ok : Nat → Prop}

theorem Row.apart {lo hi : Nat} {ns : List Node} (h : Row ok lo hi ns) {a b : Node} (ha : a ∈ ns) (hb : b ∈ ns) :
    a = b ∨ a.Apart b := by
  have hpairwise : ns.Pairwise fun a b => a = b ∨ a.Apart b := h.pairwise.imp fun h => .inr (.inl h)
  have : Std.Symm fun a b : Node => a = b ∨ a.Apart b := ⟨fun _ _ h => h.imp Eq.symm Apart.symm⟩
  exact hpairwise.forall_of_forall (fun _ _ => .inl rfl) ha hb

theorem Placed.inside {n c : Node} (h : n.Placed ok) (hc : c ∈ n.children) :
    n.start ≤ c.start ∧ c.stop ≤ n.stop :=
  ⟨(h.row.mem c hc).1, (h.row.mem c hc).2.1⟩

/-! ## Literals of calls -/

variable {source : Bytes}

/-- Only a literal has a value. -/
theorem hasKind_of_stringValue? {n : Node} {value : String} (h : n.stringValue? source = some value) :
    n.hasKind .string = true := by
  unfold stringValue? at h
  split at h
  case isTrue hkind => exact hkind
  case isFalse => cases h

/-- The literal of a call is the argument between its brackets. -/
theorem requireLiteral?_spec {n literal : Node} (h : n.requireLiteral? source = some literal) :
    n.hasKind .callExpression = true ∧ literal.hasKind .string = true ∧
      (literal.stringValue? source).isSome ∧
      ∃ args ∈ n.children, args.hasKind .arguments = true ∧ literal ∈ args.children := by
  obtain ⟨hcall, -, ⟨args, hargs, hbrackets, hnamed⟩, hvalue⟩ := requireLiteral?_eq_some_iff.mp h
  obtain ⟨value, hsome⟩ := Option.isSome_iff_exists.mp hvalue
  have hmem : literal ∈ args.namedChildren := by simp [hnamed]
  exact ⟨hcall, hasKind_of_stringValue? hsome, hvalue, args, List.mem_of_find?_eq_some hargs, hbrackets,
    (List.mem_filter.mp hmem).1⟩

/-- The literals of the calls among some nodes. -/
def callLiterals (source : Bytes) (ns : List Node) : List Node :=
  ns.filterMap fun n => n.requireLiteral? source

theorem map_requireCalls (source : Bytes) (root : Node) :
    (requireCalls source root).map (·.1) = callLiterals source root.preorder := by
  rw [requireCalls, walk_eq_preorder, callLiterals, List.map_filterMap]
  refine List.filterMap_congr fun n _ => ?_
  cases hliteral : n.requireLiteral? source with
  | none => rfl
  | some literal =>
      obtain ⟨path, hpath⟩ := Option.isSome_iff_exists.mp (requireLiteral?_spec hliteral).2.2.1
      simp [hpath]

/-- A literal below a node that is no call is one below a child. -/
theorem mem_callLiterals_of_not_call {n literal : Node} (hcall : n.hasKind .callExpression = false)
    (h : literal ∈ callLiterals source n.preorder) :
    ∃ c ∈ n.children, literal ∈ callLiterals source c.preorder := by
  obtain ⟨m, hm, hliteral⟩ := List.mem_filterMap.mp h
  rcases mem_preorder.mp hm with rfl | ⟨c, hc, hm⟩
  · rw [(requireLiteral?_spec hliteral).1] at hcall
    cases hcall
  · exact ⟨c, hc, List.mem_filterMap.mpr ⟨m, hm, hliteral⟩⟩

theorem Placed.preorder_inside {n m : Node} (h : n.Placed ok) (hm : m ∈ n.preorder) :
    m.Placed ok ∧ n.start ≤ m.start ∧ m.stop ≤ n.stop := by
  rcases mem_preorder.mp hm with rfl | ⟨c, hc, hm⟩
  · exact ⟨h, Nat.le_refl _, Nat.le_refl _⟩
  · have hinside := h.inside hc
    have hlt := size_lt_of_child hc
    obtain ⟨hplaced, hstart, hstop⟩ := (h.child hc).preorder_inside hm
    exact ⟨hplaced, Nat.le_trans hinside.1 hstart, Nat.le_trans hstop hinside.2⟩
termination_by n.size

theorem Placed.literal_inside {n literal : Node} (h : n.Placed ok)
    (hliteral : literal ∈ callLiterals source n.preorder) :
    n.start ≤ literal.start ∧ literal.stop ≤ n.stop := by
  obtain ⟨m, hm, hliteral⟩ := List.mem_filterMap.mp hliteral
  obtain ⟨-, -, -, args, hargs, -, hmem⟩ := requireLiteral?_spec hliteral
  obtain ⟨hplaced, hstart, hstop⟩ := h.preorder_inside hm
  have houter := hplaced.inside hargs
  have hinner := (hplaced.child hargs).inside hmem
  exact ⟨Nat.le_trans hstart (Nat.le_trans houter.1 hinner.1),
    Nat.le_trans hinner.2 (Nat.le_trans houter.2 hstop)⟩

/-- No call stands inside a string. -/
theorem QuotedStrings.no_literal {n literal : Node} (h : n.QuotedStrings source)
    (hkind : n.hasKind .string = true) : literal ∉ callLiterals source n.preorder := by
  intro hmem
  have hcall : n.hasKind .callExpression = false := by
    rw [hasKind, beq_iff_eq] at hkind
    rw [hasKind, hkind]
    rfl
  obtain ⟨c, hc, -⟩ := mem_callLiterals_of_not_call hcall hmem
  rw [(h.own hkind).1] at hc
  cases hc

/-- A string is apart from every call's literal below a node that it is a child of, if that node is
no call. -/
theorem apart_of_child {n string literal : Node} (h : n.Placed ok) (hquoted : n.QuotedStrings source)
    (hcall : n.hasKind .callExpression = false) (hmem : string ∈ n.children)
    (hkind : string.hasKind .string = true) (hliteral : literal ∈ callLiterals source n.preorder) :
    string.Apart literal := by
  obtain ⟨c, hc, hliteral⟩ := mem_callLiterals_of_not_call hcall hliteral
  rcases h.row.apart hmem hc with rfl | hapart
  · exact absurd hliteral ((hquoted.child hc).no_literal hkind)
  · exact hapart.inside ⟨Nat.le_refl _, Nat.le_refl _⟩ ((h.child hc).literal_inside hliteral)

mutual

/-- The literals of the calls in a tree lie apart from each other. -/
theorem callLiterals_apart : ∀ (n : Node), n.Placed ok → n.QuotedStrings source →
    (callLiterals source n.preorder).Pairwise Apart
  | mk label role start stop cs, h, hquoted => by
      have hchildren : (callLiterals source (preorderList cs)).Pairwise Apart :=
        callLiterals_apart_row cs h.row fun c hc => hquoted.child hc
      rw [preorder, callLiterals, List.filterMap_cons]
      split
      · exact hchildren
      · rename_i literal hliteral
        refine List.Pairwise.cons (fun other hother => ?_) hchildren
        obtain ⟨-, hkind, -, args, hargs, hbrackets, hmem⟩ := requireLiteral?_spec hliteral
        obtain ⟨m, hm, hother⟩ := List.mem_filterMap.mp hother
        obtain ⟨c, hc, hm⟩ := mem_preorderList.mp hm
        have hother : other ∈ callLiterals source c.preorder := List.mem_filterMap.mpr ⟨m, hm, hother⟩
        have hargs' := h.child hargs
        rcases h.row.apart hargs hc with rfl | hapart
        · refine apart_of_child hargs' (hquoted.child hargs) ?_ hmem hkind hother
          rw [hasKind, beq_iff_eq] at hbrackets
          rw [hasKind, hbrackets]
          rfl
        · exact hapart.inside (hargs'.inside hmem) ((h.child hc).literal_inside hother)

theorem callLiterals_apart_row : ∀ (ns : List Node) {lo hi : Nat}, Row ok lo hi ns →
    (∀ n ∈ ns, n.QuotedStrings source) → (callLiterals source (preorderList ns)).Pairwise Apart
  | [], _, _, _, _ => List.Pairwise.nil
  | n :: ns, lo, hi, h, hquoted => by
      rw [row_cons] at h
      obtain ⟨-, hn, hns⟩ := h
      rw [preorderList, callLiterals, List.filterMap_append, List.pairwise_append]
      refine ⟨callLiterals_apart n hn (hquoted n (List.mem_cons_self ..)),
        callLiterals_apart_row ns hns fun m hm => hquoted m (List.mem_cons_of_mem _ hm), ?_⟩
      intro a ha b hb
      obtain ⟨m, hm, hb⟩ := List.mem_filterMap.mp hb
      obtain ⟨c, hc, hm⟩ := mem_preorderList.mp hm
      have hc' := hns.mem c hc
      have hb' := hc'.2.2.literal_inside (List.mem_filterMap.mpr ⟨m, hm, hb⟩)
      have ha' := hn.literal_inside ha
      exact .inl (Nat.le_trans ha'.2 (Nat.le_trans hc'.1 hb'.1))

end

end Node

open Node

/-! ## All path literals -/

variable {source : Bytes}

/-- The path literals of a tree that are strings lie apart. -/
theorem pathLiterals_apart {ok : Nat → Prop} {root : Node} (h : root.Placed ok)
    (hquoted : root.QuotedStrings source) (hroot : root.hasKind .callExpression = false) :
    (pathLiterals source root).Pairwise fun a b =>
      a.hasKind .string = true → b.hasKind .string = true → a.Apart b := by
  have hstatements := (h.row.pairwise.filter fun s =>
    s.hasKind .importStatement || s.hasKind .exportStatement)
  have hsource : ∀ {s literal : Node}, s ∈ root.children → s.child? .source = some literal →
      s.start ≤ literal.start ∧ literal.stop ≤ s.stop := fun hs hliteral =>
    (h.child hs).inside (List.mem_of_find?_eq_some hliteral)
  unfold pathLiterals
  rw [map_requireCalls, List.pairwise_append]
  refine ⟨?_, (callLiterals_apart root h hquoted).imp fun hapart _ _ => hapart, ?_⟩
  · rw [List.pairwise_filterMap]
    refine hstatements.imp_of_mem fun {s t} hs ht hle a ha b hb _ _ => ?_
    have ha' := hsource (List.mem_filter.mp hs).1 ha
    have hb' := hsource (List.mem_filter.mp ht).1 hb
    exact .inl (Nat.le_trans ha'.2 (Nat.le_trans hle hb'.1))
  · intro a ha b hb hstring _
    obtain ⟨s, hs, ha⟩ := List.mem_filterMap.mp ha
    obtain ⟨hs, hkind⟩ := List.mem_filter.mp hs
    obtain ⟨t, ht, hb⟩ := mem_callLiterals_of_not_call hroot hb
    rcases h.row.apart hs ht with rfl | hapart
    · refine apart_of_child (h.child hs) (hquoted.child hs) ?_ (List.mem_of_find?_eq_some ha) hstring hb
      rcases Bool.or_eq_true_iff.mp hkind with hkind | hkind <;>
        rw [hasKind, beq_iff_eq] at hkind <;> rw [hasKind, hkind] <;> rfl
    · exact hapart.inside (hsource hs ha) ((h.child ht).literal_inside hb)

/-- A path literal is a node of the tree. -/
theorem mem_preorder_of_pathLiteral {root literal : Node} (h : literal ∈ pathLiterals source root) :
    literal ∈ root.preorder := by
  have hchild : ∀ {n c : Node}, n ∈ root.preorder → c ∈ n.children → c ∈ root.preorder := by
    intro n c hn hc
    exact mem_preorder_trans hn (mem_preorder.mpr (.inr ⟨c, hc, c.mem_preorder_self⟩))
  unfold pathLiterals at h
  rw [map_requireCalls] at h
  rcases List.mem_append.mp h with h | h
  · obtain ⟨s, hs, hliteral⟩ := List.mem_filterMap.mp h
    exact hchild (hchild root.mem_preorder_self (List.mem_filter.mp hs).1)
      (List.mem_of_find?_eq_some hliteral)
  · obtain ⟨n, hn, hliteral⟩ := List.mem_filterMap.mp h
    obtain ⟨-, -, -, args, hargs, -, hmem⟩ := requireLiteral?_spec hliteral
    exact hchild (hchild hn hargs) hmem

/-! ## Relative imports -/

theorem parse_hasKind {language : String} {tree : Node} (h : parse source language = some tree) :
    tree.hasKind .program = true := by
  obtain ⟨d, -, hd⟩ := List.exists_of_findSome?_eq_some h
  unfold parseAs at hd
  dsimp only at hd
  split at hd
  · cases hd
    rfl
  · cases hd

/-- A relative import covers its literal, and keeps the quote that this is written in. -/
theorem RelativeImport.ofLiteral?_spec {literal : Node} {i : RelativeImport}
    (h : RelativeImport.ofLiteral? source literal = some i) :
    literal.hasKind .string = true ∧ i.start = literal.start ∧ i.stop = literal.stop ∧
      i.quote = if (literal.text source).toList.head? == some '\x27' then '\x27' else '"' := by
  unfold RelativeImport.ofLiteral? at h
  obtain ⟨path, hpath, rfl⟩ := Option.map_eq_some_iff.mp h
  have hvalue := (Option.filter_eq_some_iff.mp hpath).1
  exact ⟨hasKind_of_stringValue? hvalue, rfl, rfl, rfl⟩

/-- The source between the ends of a relative import. -/
def RelativeImport.text (source : Bytes) (i : RelativeImport) : String :=
  Utf8.decodeLossy ((source.drop i.start).take (i.stop - i.start))

/-- The literals of the relative imports follow each other in the source: each ends before the next
one starts, none is empty, and each starts with its own quote. -/
theorem relativeImports_ordered (d : Document) :
    (relativeImports d).Pairwise (fun i j => i.stop ≤ j.start) ∧
      ∀ i ∈ relativeImports d, i.start < i.stop ∧ (i.text d.source).toList.head? = some i.quote := by
  unfold relativeImports
  split
  · exact ⟨List.Pairwise.nil, fun _ hi => absurd hi List.not_mem_nil⟩
  rename_i tree htree
  dsimp only
  have hquoted := parse_quoted htree
  have hroot : tree.hasKind .callExpression = false := by
    have hkind := parse_hasKind htree
    rw [hasKind, beq_iff_eq] at hkind
    rw [hasKind, hkind]
    rfl
  have hperm := List.mergeSort_perm (pathLiterals d.source tree) fun a b => a.start ≤ b.start
  -- The order of the literals does not matter for being apart.
  have hapart := (hperm.pairwise_iff fun {a b} h hb ha => (h ha hb).symm).mpr
    (pathLiterals_apart (parse_placed htree).1 hquoted hroot)
  have hsorted : ((pathLiterals d.source tree).mergeSort fun a b => a.start ≤ b.start).Pairwise
      fun a b => decide (a.start ≤ b.start) := by
    refine List.pairwise_mergeSort ?_ ?_ _
    · simpa using fun a b c => Nat.le_trans
    · simpa using fun a b => Nat.le_total _ _
  have hstring : ∀ literal ∈ (pathLiterals d.source tree).mergeSort fun a b => a.start ≤ b.start,
      literal.hasKind .string = true →
        literal.start < literal.stop ∧
          ∃ quote ∈ ['\x27', '"'], (literal.text d.source).toList.head? = some quote := by
    intro literal hmem hkind
    obtain ⟨-, quote, hmem', hquote⟩ :=
      hquoted literal (mem_preorder_of_pathLiteral (hperm.mem_iff.mp hmem)) hkind
    exact ⟨start_lt_stop hquote.head?, quote, hmem', hquote.head?⟩
  refine ⟨?_, ?_⟩
  · rw [List.pairwise_filterMap]
    refine (hapart.and hsorted).imp_of_mem fun {a b} ha hb hab i hi j hj => ?_
    obtain ⟨hkind, hstart, hstop, -⟩ := RelativeImport.ofLiteral?_spec hi
    obtain ⟨hkind', hstart', hstop', -⟩ := RelativeImport.ofLiteral?_spec hj
    have hlt := (hstring a ha hkind).1
    have hlt' := (hstring b hb hkind').1
    have hle : a.start ≤ b.start := by simpa using hab.2
    rcases hab.1 hkind hkind' with hbefore | hafter
    · rwa [hstop, hstart']
    · omega
  · intro i hi
    obtain ⟨literal, hmem, hliteral⟩ := List.mem_filterMap.mp hi
    obtain ⟨hkind, hstart, hstop, hquote⟩ := RelativeImport.ofLiteral?_spec hliteral
    obtain ⟨hlt, quote, hmem', hhead⟩ := hstring literal hmem hkind
    have htext : i.text d.source = literal.text d.source := by
      rw [RelativeImport.text, hstart, hstop]
      rfl
    refine ⟨by rwa [hstart, hstop], ?_⟩
    rw [htext, hquote, hhead]
    rcases List.mem_cons.mp hmem' with rfl | hmem'
    · rfl
    · rw [List.mem_singleton.mp hmem']
      rfl

/-- Literals that stand in order are not moved. -/
theorem relativeImports_of_sorted {d : Document} (starts : List Nat) (imports : List RelativeImport)
    (h : ((parse d.source d.language).map fun tree =>
      ((pathLiterals d.source tree).map (·.start),
        (pathLiterals d.source tree).filterMap (RelativeImport.ofLiteral? d.source))) =
      some (starts, imports))
    (hsorted : starts.Pairwise (· ≤ ·)) : relativeImports d = imports := by
  obtain ⟨tree, htree, heq⟩ := Option.map_eq_some_iff.mp h
  obtain ⟨rfl, rfl⟩ := Prod.mk.inj heq
  rw [relativeImports, htree]
  dsimp only
  rw [List.mergeSort_of_pairwise]
  exact (List.pairwise_map.mp hsorted).imp decide_eq_true

end ImportAssist
