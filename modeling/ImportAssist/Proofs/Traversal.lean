import Mathlib.Logic.Relation
import ImportAssist.Proofs.Listing

/-!
# Exported names by reachability

`Inlines` is the plain traversal of star exports: statements in order, another file's names in the
place of its star export, and nothing for a file that was reached before. `listNames` keeps the
names of files it has listed and gives them again, and inside a cycle it keeps lists that are not
complete. `exportedNames_eq_inlined` says that none of this shows: the names of a module are those
of the plain traversal, each once, and so those of all files it reaches.

The invariant is `Agrees`: whatever is kept about a file has been given before, so giving it again
adds nothing to the list.
-/

namespace ImportAssist

/-- A file re-exports all of another one. -/
def Reexports (parts : String → List Contribution) (v w : String) : Prop := .star w ∈ parts v

/-- A file is reached by star exports. -/
def Reaches (parts : String → List Contribution) : String → String → Prop :=
  Relation.ReflTransGen (Reexports parts)

/-- A file exports a name by itself. -/
def Declares (parts : String → List Contribution) (v name : String) : Prop :=
  ∃ names, .names names ∈ parts v ∧ name ∈ names

/-- Contributions give names and add files to those that were reached, which stand in the order in
which they were reached first. -/
inductive Inlines (parts : String → List Contribution) :
    List String → List Contribution → List String → List String → Prop where
  | nil (seen : List String) : Inlines parts seen [] [] seen
  | names {seen seen' xs more : List String} {rest : List Contribution}
      (hrest : Inlines parts seen rest more seen') :
      Inlines parts seen (.names xs :: rest) (xs ++ more) seen'
  | again {seen seen' more : List String} {file : String} {rest : List Contribution}
      (hseen : file ∈ seen) (hrest : Inlines parts seen rest more seen') :
      Inlines parts seen (.star file :: rest) more seen'
  | expand {seen mid seen' ns more : List String} {file : String} {rest : List Contribution}
      (hnew : file ∉ seen) (hinner : Inlines parts (seen ++ [file]) (parts file) ns mid)
      (hrest : Inlines parts mid rest more seen') :
      Inlines parts seen (.star file :: rest) (ns ++ more) seen'

namespace Inlines

variable {ps : String → List Contribution} {seen seen' : List String} {cs : List Contribution}
  {raw : List String}

/-- The traversal has one result. -/
theorem unique {raw' seen'' : List String} (h : Inlines ps seen cs raw seen')
    (h' : Inlines ps seen cs raw' seen'') : raw' = raw ∧ seen'' = seen' := by
  induction h generalizing raw' seen'' with
  | nil =>
      cases h'
      exact ⟨rfl, rfl⟩
  | names _ ih =>
      cases h' with
      | names hrest =>
          obtain ⟨rfl, rfl⟩ := ih hrest
          exact ⟨rfl, rfl⟩
  | again hseen _ ih =>
      cases h' with
      | again _ hrest => exact ih hrest
      | expand hnew _ _ => exact absurd hseen hnew
  | expand hnew _ _ ihinner ihrest =>
      cases h' with
      | again hseen _ => exact absurd hseen hnew
      | expand _ hinner hrest =>
          obtain ⟨rfl, rfl⟩ := ihinner hinner
          obtain ⟨rfl, rfl⟩ := ihrest hrest
          exact ⟨rfl, rfl⟩

/-- A name that is given stands in a contribution or in a file that a contribution leads to. -/
theorem mem_sound (h : Inlines ps seen cs raw seen') {name : String} (hname : name ∈ raw) :
    (∃ xs, .names xs ∈ cs ∧ name ∈ xs) ∨
      ∃ file v, .star file ∈ cs ∧ Reaches ps file v ∧ Declares ps v name := by
  induction h with
  | nil => cases hname
  | names _ ih =>
      rcases List.mem_append.1 hname with hname | hname
      · exact .inl ⟨_, by simp, hname⟩
      · rcases ih hname with ⟨xs, hxs, hx⟩ | ⟨file, v, hfile, hv⟩
        · exact .inl ⟨xs, by simp [hxs], hx⟩
        · exact .inr ⟨file, v, by simp [hfile], hv⟩
  | again _ _ ih =>
      rcases ih hname with ⟨xs, hxs, hx⟩ | ⟨file, v, hfile, hv⟩
      · exact .inl ⟨xs, by simp [hxs], hx⟩
      · exact .inr ⟨file, v, by simp [hfile], hv⟩
  | @expand _ _ _ _ _ file _ _ _ _ ihinner ihrest =>
      rcases List.mem_append.1 hname with hname | hname
      · refine .inr ?_
        rcases ihinner hname with ⟨xs, hxs, hx⟩ | ⟨target, v, htarget, hv, hd⟩
        · exact ⟨file, file, by simp, .refl, xs, hxs, hx⟩
        · exact ⟨file, v, by simp, .head htarget hv, hd⟩
      · rcases ihrest hname with ⟨xs, hxs, hx⟩ | ⟨target, v, htarget, hv⟩
        · exact .inl ⟨xs, by simp [hxs], hx⟩
        · exact .inr ⟨target, v, by simp [htarget], hv⟩

/-- What the traversal has done when it ends: nothing that was reached is forgotten, every
contribution has been followed, and so has every statement of a file that is new. -/
structure Done (ps : String → List Contribution) (seen : List String) (cs : List Contribution)
    (raw seen' : List String) : Prop where
  keeps : ∀ v ∈ seen, v ∈ seen'
  gives : ∀ xs, .names xs ∈ cs → ∀ name ∈ xs, name ∈ raw
  reaches : ∀ file, .star file ∈ cs → file ∈ seen'
  declared : ∀ v ∈ seen', v ∉ seen → ∀ name, Declares ps v name → name ∈ raw
  closed : ∀ v ∈ seen', v ∉ seen → ∀ w, Reexports ps v w → w ∈ seen'

theorem done (h : Inlines ps seen cs raw seen') : Done ps seen cs raw seen' := by
  induction h with
  | nil seen => constructor <;> simp_all
  | @names seen seen' xs more rest _ ih =>
      refine ⟨ih.keeps, ?_, ?_, fun v hv hnew name hd => ?_, ih.closed⟩
      · intro ys hys name hname
        rcases List.mem_cons.1 hys with he | hys
        · cases he
          simp [hname]
        · simp [ih.gives ys hys name hname]
      · intro file hfile
        exact ih.reaches file (by simpa using hfile)
      · simp [ih.declared v hv hnew name hd]
  | @again seen seen' more file rest hseen _ ih =>
      refine ⟨ih.keeps, ?_, ?_, ih.declared, ih.closed⟩
      · intro ys hys
        exact ih.gives ys (by simpa using hys)
      · intro target htarget
        rcases List.mem_cons.1 htarget with he | htarget
        · cases he
          exact ih.keeps file hseen
        · exact ih.reaches target htarget
  | @expand seen mid seen' ns more file rest hnew _ _ ihinner ihrest =>
      have hfile : file ∈ mid := ihinner.keeps file (by simp)
      refine ⟨?_, ?_, ?_, ?_, ?_⟩
      · intro v hv
        exact ihrest.keeps v (ihinner.keeps v (by simp [hv]))
      · intro ys hys name hname
        simp [ihrest.gives ys (by simpa using hys) name hname]
      · intro target htarget
        rcases List.mem_cons.1 htarget with he | htarget
        · cases he
          exact ihrest.keeps file hfile
        · exact ihrest.reaches target htarget
      · intro v hv hvnew name hd
        by_cases hmid : v ∈ mid
        · by_cases hvf : v = file
          · obtain ⟨xs, hxs, hx⟩ := hd
            rw [hvf] at hxs
            simp [ihinner.gives xs hxs name hx]
          · simp [ihinner.declared v hmid (by simp [hvnew, hvf]) name hd]
        · simp [ihrest.declared v hv hmid name hd]
      · intro v hv hvnew w hw
        by_cases hmid : v ∈ mid
        · refine ihrest.keeps w ?_
          by_cases hvf : v = file
          · exact ihinner.reaches w (hvf ▸ hw)
          · exact ihinner.closed v hmid (by simp [hvnew, hvf]) w hw
        · exact ihrest.closed v hv hmid w hw

/-- From nothing, all files are seen that a file leads to. -/
theorem Done.mem_of_reaches {order : List String} (h : Done ps [] cs raw order) {v w : String}
    (hv : v ∈ order) (hw : Reaches ps v w) : w ∈ order := by
  induction hw with
  | refl => exact hv
  | tail _ hstep ih => exact h.closed _ ih (by simp) _ hstep

/-- From nothing, exactly the names of the files that are reached are given. -/
theorem mem_iff {file name : String} (h : Inlines ps [] [.star file] raw seen') :
    name ∈ raw ↔ ∃ v, Reaches ps file v ∧ Declares ps v name := by
  constructor
  · intro hname
    rcases h.mem_sound hname with ⟨xs, hxs, -⟩ | ⟨target, v, htarget, hv, hd⟩
    · simp at hxs
    · simp only [List.mem_singleton, Contribution.star.injEq] at htarget
      exact ⟨v, htarget ▸ hv, hd⟩
  · rintro ⟨v, hv, hd⟩
    have hseen : v ∈ seen' := h.done.mem_of_reaches (h.done.reaches file (by simp)) hv
    exact h.done.declared v hseen (by simp) name hd

end Inlines

/-! ## Kept names have been given before -/

theorem Listing.names?_enter (l : Listing) (file other : String) :
    (l.enter file).names? other = l.names? other := rfl

theorem Listing.names?_leave (l : Listing) (file other : String) (ns : List String) :
    (l.leave file ns).names? other = if other = file then some ns else l.names? other := by
  by_cases h : other = file
  · simp [Listing.names?, Listing.leave, h]
  · have hne : (file == other) = false := by simpa using fun e => h e.symm
    simp [Listing.names?, Listing.leave, h, hne]

theorem Listing.mem_leave_visiting {l : Listing} {file v : String} {ns : List String} :
    v ∈ (l.leave file ns).visiting ↔ v ∈ l.visiting ∧ v ≠ file := by
  simp [Listing.leave]

/-- A listing next to the plain traversal: the same files were reached, and what is kept about a
file is on offer among the names given so far. -/
structure Agrees (l : Listing) (seen given : List String) : Prop where
  seen_iff : ∀ v, v ∈ seen ↔ (l.names? v).isSome ∨ v ∈ l.visiting
  kept : ∀ v ns, l.names? v = some ns → ∀ name ∈ ns, name ∈ offered given

theorem Agrees.enter {l : Listing} {seen given : List String} (h : Agrees l seen given)
    (file : String) : Agrees (l.enter file) (seen ++ [file]) given := by
  refine ⟨fun v => ?_, h.kept⟩
  rw [List.mem_append, h.seen_iff, Listing.names?_enter, Listing.enter]
  simp only [List.mem_cons]
  tauto

theorem Agrees.leave {l : Listing} {seen given ns : List String} (h : Agrees l seen given)
    {file : String} (hfile : file ∈ l.visiting) (hns : ∀ name ∈ ns, name ∈ offered given) :
    Agrees (l.leave file ns) seen given := by
  refine ⟨fun v => ?_, fun v names hv => ?_⟩
  · rw [h.seen_iff, Listing.names?_leave, Listing.mem_leave_visiting]
    by_cases hv : v = file <;> simp [hv, hfile]
  · rw [Listing.names?_leave] at hv
    split at hv
    · cases hv
      exact hns
    · exact h.kept v names hv

/-- Listing and the plain traversal go side by side, and offer the same. -/
theorem Lists.inlines {ps : String → List Contribution} {l l' : Listing}
    {cs : List Contribution} {ns seen seen' given : List String}
    (h : Lists ps l seen cs ns l' seen') (hagrees : Agrees l seen given) :
    ∃ raw, Inlines ps seen cs raw seen' ∧ Agrees l' seen' (given ++ raw) ∧
      offered (given ++ ns) = offered (given ++ raw) := by
  induction h generalizing given with
  | nil l => exact ⟨[], .nil _, by simpa using hagrees, rfl⟩
  | @names l l' seen seen' xs more rest _ ih =>
      have hxs : Agrees l seen (given ++ xs) :=
        ⟨hagrees.seen_iff, fun v ns hv name hname => by
          have := mem_offered.1 (hagrees.kept v ns hv name hname)
          exact mem_offered.2 ⟨by simp [this.1], this.2⟩⟩
      obtain ⟨raw, hraw, hl', he⟩ := ih hxs
      refine ⟨xs ++ raw, .names hraw, ?_, ?_⟩
      · rwa [← List.append_assoc]
      · rwa [← List.append_assoc, ← List.append_assoc]
  | @known l l' seen seen' ns more file rest hknown _ ih =>
      obtain ⟨raw, hraw, hl', he⟩ := ih hagrees
      have hseen : file ∈ seen := (hagrees.seen_iff file).2 (.inl (by simp [hknown]))
      have hadds : offered (given ++ ns) = offered given :=
        offered_append_of_subset (hagrees.kept file ns hknown)
      refine ⟨raw, .again hseen hraw, hl', ?_⟩
      rw [← List.append_assoc, offered_append_congr hadds, he]
  | @opened l l' seen seen' more file rest _ hopen _ ih =>
      obtain ⟨raw, hraw, hl', he⟩ := ih hagrees
      have hseen : file ∈ seen := (hagrees.seen_iff file).2 (.inr hopen)
      exact ⟨raw, .again hseen hraw, hl', he⟩
  | @enter l mid l' seen seen₁ seen' ns more file rest hnew hclosed hinner _ ihinner ihrest =>
      have hfresh : file ∉ seen := by
        rw [hagrees.seen_iff]
        simp [hnew, hclosed]
      obtain ⟨raw, hraw, hmid, he⟩ := ihinner (hagrees.enter file)
      have hfile : file ∈ mid.visiting := by
        rw [hinner.visiting_eq]
        exact List.mem_cons_self
      have hns : offered (given ++ offered ns) = offered (given ++ raw) := by
        rw [offered_append_offered, he]
      have hleave : Agrees (mid.leave file (offered ns)) seen₁ (given ++ raw) := by
        refine hmid.leave hfile fun name hname => ?_
        rw [← hns]
        exact mem_offered.2 ⟨by simp [hname], (mem_offered.1 hname).2⟩
      obtain ⟨raw', hraw', hl', he'⟩ := ihrest hleave
      refine ⟨raw ++ raw', .expand hfresh hraw hraw', ?_, ?_⟩
      · rwa [← List.append_assoc]
      · rw [← List.append_assoc, ← List.append_assoc, offered_append_congr hns, he']

theorem agrees_fresh : Agrees .fresh [] [] := by
  constructor <;> simp [Listing.fresh, Listing.names?]

/-! ## The names of a module -/

/-- A single file gives names that are on offer as they are. -/
theorem Lists.offered_eq {ps : String → List Contribution} {l' : Listing} {file : String}
    {ns seen seen' : List String} (h : Lists ps .fresh seen [.star file] ns l' seen') :
    offered ns = ns := by
  cases h with
  | known hknown _ => cases hknown
  | opened _ hopen _ => cases hopen
  | enter _ _ _ hnil =>
      cases hnil
      rw [List.append_nil]
      exact offered_append_offered [] _

theorem fits_nil {disk : Disk} {k fuel : Nat} (hfuel : listingDepth disk ≤ fuel) :
    Fits disk k fuel [] :=
  ⟨List.nodup_nil, by simp, hfuel⟩

/-- Listing a rooted file from nothing gives what the plain traversal offers. -/
theorem listNames_fresh {disk : Disk} {k fuel : Nat} (hk : k = 1 ∨ k = 2)
    (hfuel : listingDepth disk ≤ fuel) {file : String} (hfile : Path.Rooted k file)
    {ns : List String} {l : Listing} (h : listNames disk fuel file .fresh = .ok (ns, l)) :
    ∃ raw order, Inlines (parts disk) [] [.star file] raw order ∧ ns = offered raw := by
  obtain ⟨order, hlists⟩ := lists_of_listNames hk [] (.inl hfile) (fits_nil hfuel) h
  obtain ⟨raw, hraw, -, he⟩ := hlists.inlines agrees_fresh
  refine ⟨raw, order, hraw, ?_⟩
  rw [← hlists.offered_eq]
  simpa using he

/-- The names of a module are those of the plain traversal, which has exactly one result, each
once and without the default export: the names of all files that the module reaches. However much
deeper the files may be visited, they are the same. -/
theorem exportedNames_eq_inlined {disk : Disk} (hutf8 : disk.IsUtf8) {file : String}
    (habs : Path.isAbsolute file = true) :
    ∃ raw order,
      (∀ raw' order', Inlines (parts disk) [] [.star (Path.normalize file)] raw' order' ↔
        raw' = raw ∧ order' = order) ∧
      exportedNames disk file = .ok ((raw.filter isImportable).eraseDups) ∧
      (∀ fuel, listingDepth disk ≤ fuel → ∃ l, listNames disk fuel (Path.normalize file) .fresh
        = .ok ((raw.filter isImportable).eraseDups, l)) ∧
      ∀ name, name ∈ (raw.filter isImportable).eraseDups ↔ isImportable name = true ∧
        ∃ v, Reaches (parts disk) (Path.normalize file) v ∧ Declares (parts disk) v name := by
  have hk := Path.leadingSlashes_of_isAbsolute habs
  have hfile := Path.normalize_rooted habs
  obtain ⟨⟨ns, l⟩, hlist⟩ := listNames_succeeds hutf8 (listingDepth disk) (Path.normalize file) .fresh
  obtain ⟨raw, order, hraw, rfl⟩ := listNames_fresh hk (Nat.le_refl _) hfile hlist
  have hoffered : offered raw = (raw.filter isImportable).eraseDups := unique_eq_eraseDups _
  rw [hoffered] at hlist
  refine ⟨raw, order, fun raw' order' => ⟨hraw.unique, ?_⟩, ?_, fun fuel hfuel => ?_, fun name => ?_⟩
  · rintro ⟨rfl, rfl⟩
    exact hraw
  · rw [exportedNames, hlist]
    rfl
  · obtain ⟨⟨ns', l'⟩, hlist'⟩ := listNames_succeeds hutf8 fuel (Path.normalize file) .fresh
    obtain ⟨raw', order', hraw', rfl⟩ := listNames_fresh hk hfuel hfile hlist'
    obtain ⟨rfl, -⟩ := hraw.unique hraw'
    exact ⟨l', by rw [hlist', hoffered]⟩
  · rw [← hoffered, mem_offered, hraw.mem_iff, and_comm]

/-- Three files on two cycles, one of which also re-exports itself. -/
def crossedStars : Disk where
  cwd := "/"
  entries := [(["a.js"], .file (Utf8.encode "export * from './b';export * from './c';export let p")),
    (["b.js"], .file (Utf8.encode "export * from './a';export let q")),
    (["c.js"], .file (Utf8.encode "export * from './b';export * from './c';export {p, r}"))]

/-- Each file of the two cycles adds its names once. -/
theorem crossedStars_inlined :
    crossedStars.IsUtf8 ∧ Path.isAbsolute "/a.js" = true ∧
      ∃ raw order, Inlines (parts crossedStars) [] [.star (Path.normalize "/a.js")] raw order ∧
        exportedNames crossedStars "/a.js" = .ok ((raw.filter isImportable).eraseDups) ∧
        (raw.filter isImportable).eraseDups = ["q", "p", "r"] := by
  have hutf8 : crossedStars.IsUtf8 := by
    intro place content h
    simp only [crossedStars, List.mem_cons, Prod.mk.injEq, Entry.file.injEq, List.not_mem_nil,
      or_false] at h
    rcases h with ⟨-, rfl⟩ | ⟨-, rfl⟩ | ⟨-, rfl⟩ <;> decide +kernel
  have habs : Path.isAbsolute "/a.js" = true := by decide +kernel
  obtain ⟨raw, order, hiff, hnames, -, -⟩ := exportedNames_eq_inlined hutf8 habs
  refine ⟨hutf8, habs, raw, order, (hiff raw order).2 ⟨rfl, rfl⟩, hnames, ?_⟩
  have hrun : (exportedNames crossedStars "/a.js").toOption = some ["q", "p", "r"] := by
    decide +kernel
  rw [hnames] at hrun
  exact Option.some.inj hrun

end ImportAssist
