import ImportAssist.Proofs.Layout
import ImportAssist.Proofs.RootedPaths

/-!
# Names that can be decoded

The nodes of a tree start and stop between characters of the source (`parse_placed`), so in a
source that is UTF-8 every node covers UTF-8 as well. Listing what a file adds to the names of a
module therefore never fails on a disk whose files are UTF-8 (`contributions_succeeds`).
-/

namespace ImportAssist

/-- A computation that gives a value. -/
def Succeeds {ε α : Type} (x : Except ε α) : Prop := ∃ a, x = .ok a

namespace Succeeds

variable {ε α β : Type}

theorem ok (a : α) : Succeeds (.ok a : Except ε α) := ⟨a, rfl⟩

theorem bind {x : Except ε α} {f : α → Except ε β} (hx : Succeeds x)
    (hf : ∀ a, Succeeds (f a)) : Succeeds (x >>= f) := by
  obtain ⟨a, rfl⟩ := hx
  exact hf a

theorem map {x : Except ε α} (f : α → β) (hx : Succeeds x) : Succeeds (f <$> x) := by
  obtain ⟨a, rfl⟩ := hx
  exact ⟨f a, rfl⟩

theorem mapM {f : α → Except ε β} : ∀ {l : List α}, (∀ a ∈ l, Succeeds (f a)) →
    Succeeds (l.mapM f)
  | [], _ => by
      rw [List.mapM_nil]
      exact ok []
  | a :: l, h => by
      rw [List.mapM_cons]
      refine (h a (by simp)).bind fun b => ?_
      exact (mapM fun x hx => h x (by simp [hx])).bind fun bs => ok (b :: bs)

theorem foldlM {f : β → α → Except ε β} : ∀ {l : List α} {b : β},
    (∀ a ∈ l, ∀ b, Succeeds (f b a)) → Succeeds (l.foldlM f b)
  | [], b, _ => by
      rw [List.foldlM_nil]
      exact ok b
  | a :: l, b, h => by
      rw [List.foldlM_cons]
      exact (h a (by simp) b).bind fun _ => foldlM fun x hx => h x (by simp [hx])

end Succeeds

/-! ## Statements on a source -/

section Statements

variable {source : Bytes} (hutf8 : (Utf8.decode? source).isSome)

include hutf8

theorem checkedText_succeeds {node : Node} (h : node.Placed (Utf8.IsCut source)) :
    Succeeds (node.checkedText source) := by
  have hbytes := Utf8.decode?_piece hutf8 h.ends.1 h.ends.2.1
  obtain ⟨text, htext⟩ := Option.isSome_iff_exists.1 hbytes
  refine ⟨text, ?_⟩
  rw [Node.checkedText, Node.bytes, htext]

theorem checkedString_succeeds {node? : Option Node} (h : ∀ n, node? = some n → n.Placed (Utf8.IsCut source)) :
    Succeeds (checkedString source node?) := by
  cases node? with
  | none => exact .ok none
  | some node =>
      rw [checkedString]
      split
      · exact (checkedText_succeeds hutf8 (h node rfl)).bind fun _ => .ok _
      · exact .ok none

theorem wildcardName?_succeeds {statement : Node} (h : statement.Placed (Utf8.IsCut source)) :
    Succeeds (ExportStatement.wildcardName? source statement) := by
  unfold ExportStatement.wildcardName?
  split
  · exact .ok none
  · next name hname =>
      obtain ⟨w, hw, hfind⟩ := List.exists_of_findSome?_eq_some hname
      have hn := (h.ofKind hw).named (List.mem_of_find?_eq_some hfind)
      refine (checkedText_succeeds hutf8 hn).bind fun text => ?_
      split
      · exact .ok _
      · exact .ok _

theorem specifiers_succeeds {statement : Node} (h : statement.Placed (Utf8.IsCut source)) :
    Succeeds (ExportStatement.specifiers source statement) := by
  refine (Succeeds.mapM fun node hnode => ?_).bind fun pairs => .ok _
  obtain ⟨clause, hclause, hspec⟩ := List.mem_flatMap.1 hnode
  have hn := (h.ofKind hclause).ofKind hspec
  unfold ExportStatement.specifier?
  split
  · exact .ok none
  · next inner hinner =>
      refine (checkedText_succeeds hutf8 (hn.child? hinner)).bind fun _ => ?_
      split
      · exact .ok _
      · next outer houter => exact (checkedText_succeeds hutf8 (hn.child? houter)).bind fun _ => .ok _

theorem declaredNames_succeeds {declaration : Node} (h : declaration.Placed (Utf8.IsCut source)) :
    Succeeds (ExportStatement.declaredNames source declaration) := by
  refine Succeeds.mapM fun node hnode => ?_
  refine checkedText_succeeds hutf8 ?_
  have hname : ∀ d : Node, d.Placed (Utf8.IsCut source) → node ∈ (d.child? .name).toList →
      node.Placed (Utf8.IsCut source) := fun d hd hn => hd.child? (Option.mem_toList.1 hn)
  have hdeclarator : (node ∈ (declaration.childrenOfKind .variableDeclarator).flatMap fun d =>
      (d.child? .name).toList.filter fun n => n.hasKind .identifier) →
      node.Placed (Utf8.IsCut source) := by
    intro hn
    obtain ⟨d, hd, hn⟩ := List.mem_flatMap.1 hn
    exact hname d (h.ofKind hd) (List.mem_filter.1 hn).1
  dsimp only at hnode
  split at hnode
  case h_8 | h_9 => exact hdeclarator hnode
  case h_10 => cases hnode
  all_goals exact hname declaration h hnode

theorem entryNames_succeeds {object : Node} (h : object.Placed (Utf8.IsCut source)) :
    Succeeds (ExportAssignment.entryNames source object) := by
  refine (Succeeds.mapM fun entry hentry => ?_).bind fun names => .ok _
  have he := h.named hentry
  unfold ExportAssignment.entryName?
  split
  · exact (checkedText_succeeds hutf8 he).map _
  split
  · split
    · exact .ok none
    · next key hkey =>
        have hk := he.child? hkey
        split
        · exact checkedString_succeeds hutf8 fun n hn => Option.some.inj hn ▸ hk
        split
        · exact (checkedText_succeeds hutf8 hk).map _
        · exact .ok none
  split
  · split
    · exact .ok none
    · next name hname => exact (checkedText_succeeds hutf8 (he.child? hname)).map _
  · exact .ok none

omit hutf8 in
theorem assignment?_placed {statement assignment : Node}
    (h : statement.Placed (Utf8.IsCut source))
    (ha : ExportAssignment.assignment? statement = some assignment) :
    assignment.Placed (Utf8.IsCut source) := by
  unfold ExportAssignment.assignment? at ha
  split at ha
  · split at ha
    · next expression hnamed =>
        split at ha
        · cases ha
          exact h.named (by simp [hnamed])
        · cases ha
    · cases ha
  · cases ha

theorem contribution_succeeds (disk : Disk) (file : String) {statement : Node}
    (h : statement.Placed (Utf8.IsCut source)) :
    Succeeds (contribution disk file source statement) := by
  unfold contribution
  split
  · unfold exportContribution
    split
    · next declaration hd =>
        have hd := (Option.filter_eq_some_iff.1 hd).1
        exact (declaredNames_succeeds hutf8 (h.child? hd)).bind fun _ => .ok _
    · refine (wildcardName?_succeeds hutf8 h).bind fun name? => ?_
      split
      · exact .ok _
      · refine (checkedString_succeeds hutf8 fun n hn => h.child? hn).bind fun path? => ?_
        split
        · split <;> exact .ok _
        · exact (specifiers_succeeds hutf8 h).bind fun _ => .ok _
  split
  · unfold assignmentContribution
    split
    · next assignment ha =>
        split
        · next object ho =>
            have ha := (Option.filter_eq_some_iff.1 ha).1
            have hplaced := assignment?_placed h ha
            have ho := (Option.filter_eq_some_iff.1 ho).1
            exact (entryNames_succeeds hutf8 (hplaced.child? ho)).bind fun _ => .ok _
        · exact .ok _
    · exact .ok _
  · exact .ok _

end Statements

/-! ## Disks -/

/-- A disk whose files are UTF-8. -/
def Disk.IsUtf8 (disk : Disk) : Prop :=
  ∀ place content, (place, Entry.file content) ∈ disk.entries → (Utf8.decode? content).isSome

theorem Disk.IsUtf8.read {disk : Disk} (h : disk.IsUtf8) {path : String} {content : Bytes}
    (hread : disk.read path = .ok content) : (Utf8.decode? content).isSome := by
  obtain ⟨place, -, hat⟩ := Disk.locate_of_read hread
  exact h place content (Disk.mem_entries_of_at? hat)

/-- The tree of a file lies on its source. -/
theorem readModule_spec {disk : Disk} {file : String} {source : Bytes} {tree : Node}
    (h : readModule disk file = some (source, tree)) :
    disk.read file = .ok source ∧ tree.Placed (Utf8.IsCut source) := by
  unfold readModule at h
  split at h
  · cases h
  · next content hread =>
      obtain ⟨tree', hparse, he⟩ := Option.map_eq_some_iff.1 h
      cases he
      exact ⟨hread, (parse_placed hparse).1⟩

theorem contributions_succeeds {disk : Disk} (h : disk.IsUtf8) (file : String) :
    Succeeds (contributions disk file) := by
  unfold contributions
  split
  · exact .ok none
  · next source tree hmodule =>
      obtain ⟨hread, hplaced⟩ := readModule_spec hmodule
      refine (Succeeds.mapM fun statement hs => ?_).bind fun _ => .ok _
      exact contribution_succeeds (h.read hread) disk file (hplaced.named hs)

end ImportAssist
