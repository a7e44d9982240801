import Mathlib.Data.List.Induction
import Mathlib.Data.List.Nodup
import Mathlib.Data.List.Perm.Subperm
import ImportAssist.Proofs.Decoding

/-!
# The listing as a relation

`Lists` describes how names are collected over files that re-export each other, without a bound on
how deep the files are visited. `lists_of_listNames` says that the bound of `listNames` is never
reached: the files being visited are all on the disk, under different rooted paths, so there are no
more of them than entries.
-/

namespace ImportAssist

/-! ## Each name once -/

/-- A name added to names that are different. -/
def addName (seen : List String) (name : String) : List String :=
  if seen.contains name then seen else seen ++ [name]

theorem unique_append (as bs : List String) : unique (as ++ bs) = bs.foldl addName (unique as) := by
  simp only [unique, List.foldl_append]
  rfl

theorem unique_concat (as : List String) (a : String) :
    unique (as ++ [a]) = addName (unique as) a := unique_append as [a]

theorem mem_foldl_addName {x : String} : ∀ {bs seen : List String},
    x ∈ bs.foldl addName seen ↔ x ∈ seen ∨ x ∈ bs
  | [], seen => by simp
  | b :: bs, seen => by
      rw [List.foldl_cons, mem_foldl_addName, addName]
      split
      case isTrue h =>
        rw [List.contains_iff_mem] at h
        constructor
        · rintro (hx | hx) <;> simp [hx]
        · rintro (hx | hx)
          · exact .inl hx
          · rcases List.mem_cons.1 hx with rfl | hx
            · exact .inl h
            · exact .inr hx
      case isFalse h => simp [or_assoc]

theorem mem_unique {x : String} {as : List String} : x ∈ unique as ↔ x ∈ as := by
  rw [show unique as = as.foldl addName [] from rfl, mem_foldl_addName]
  simp

/-- Adding names again changes nothing. -/
theorem foldl_addName_of_subset : ∀ {bs seen : List String}, (∀ b ∈ bs, b ∈ seen) →
    bs.foldl addName seen = seen
  | [], _, _ => rfl
  | b :: bs, seen, h => by
      have hb : addName seen b = seen := by simp [addName, h b (by simp)]
      rw [List.foldl_cons, hb]
      exact foldl_addName_of_subset fun x hx => h x (by simp [hx])

theorem foldl_addName_unique (seen bs : List String) :
    (unique bs).foldl addName seen = bs.foldl addName seen := by
  induction bs using List.reverseRecOn with
  | nil => rfl
  | append_singleton bs b ih =>
      rw [unique_concat, List.foldl_append, ← ih, addName]
      split
      case isTrue h =>
        refine (foldl_addName_of_subset fun x hx => ?_).symm
        rw [List.mem_singleton.1 hx]
        exact mem_foldl_addName.2 (.inr (List.contains_iff_mem.1 h))
      case isFalse h => rw [List.foldl_append]

theorem unique_eq_eraseDups (as : List String) : unique as = as.eraseDups := by
  induction as using List.reverseRecOn with
  | nil => rfl
  | append_singleton as a ih =>
      rw [unique_concat, List.eraseDups_append, ← ih, addName]
      by_cases h : a ∈ as
      · simp [mem_unique, h, List.removeAll]
      · simp [mem_unique, h, List.removeAll, List.eraseDups_cons]

/-- The names that a module offers: those that can be imported, each once. -/
def offered (names : List String) : List String := unique (names.filter isImportable)

theorem mem_offered {x : String} {names : List String} :
    x ∈ offered names ↔ x ∈ names ∧ isImportable x = true := by
  rw [offered, mem_unique, List.mem_filter]

theorem offered_append (as bs : List String) :
    offered (as ++ bs) = (bs.filter isImportable).foldl addName (offered as) := by
  rw [offered, List.filter_append, unique_append, offered]

theorem filter_offered (names : List String) : (offered names).filter isImportable = offered names :=
  List.filter_eq_self.2 fun _ hx => (mem_offered.1 hx).2

/-- What stands in front only matters for what it offers. -/
theorem offered_append_congr {as as' : List String} (h : offered as = offered as')
    (bs : List String) : offered (as ++ bs) = offered (as' ++ bs) := by
  rw [offered_append, offered_append, h]

theorem offered_append_offered (as bs : List String) :
    offered (as ++ offered bs) = offered (as ++ bs) := by
  rw [offered_append, offered_append, filter_offered]
  exact foldl_addName_unique _ _

theorem offered_append_of_subset {as bs : List String} (h : ∀ b ∈ bs, b ∈ offered as) :
    offered (as ++ bs) = offered as := by
  rw [offered_append]
  exact foldl_addName_of_subset fun b hb => h b (List.mem_filter.1 hb).1

/-! ## Collecting names over files -/

/-- What the statements of a file add; nothing if the file cannot be read, parsed or decoded. -/
def parts (disk : Disk) (file : String) : List Contribution :=
  match contributions disk file with
  | .ok (some ps) => ps
  | _ => []

/-- Contributions give names and turn one listing into another. A file that has been listed gives
its names again, one that is being listed gives none, and any other is listed now. The second and
the last list hold the files reached so far, in the order in which they were reached. -/
inductive Lists (parts : String → List Contribution) : Listing → List String →
    List Contribution → List String → Listing → List String → Prop where
  | nil (l : Listing) (seen : List String) : Lists parts l seen [] [] l seen
  | names {l l' : Listing} {seen seen' xs more : List String} {rest : List Contribution}
      (hrest : Lists parts l seen rest more l' seen') :
      Lists parts l seen (.names xs :: rest) (xs ++ more) l' seen'
  | known {l l' : Listing} {seen seen' ns more : List String} {file : String}
      {rest : List Contribution} (hknown : l.names? file = some ns)
      (hrest : Lists parts l seen rest more l' seen') :
      Lists parts l seen (.star file :: rest) (ns ++ more) l' seen'
  | opened {l l' : Listing} {seen seen' more : List String} {file : String}
      {rest : List Contribution} (hnew : l.names? file = none) (hopen : file ∈ l.visiting)
      (hrest : Lists parts l seen rest more l' seen') :
      Lists parts l seen (.star file :: rest) more l' seen'
  | enter {l mid l' : Listing} {seen seen₁ seen' ns more : List String} {file : String}
      {rest : List Contribution} (hnew : l.names? file = none) (hclosed : file ∉ l.visiting)
      (hinner : Lists parts (l.enter file) (seen ++ [file]) (parts file) ns mid seen₁)
      (hrest : Lists parts (mid.leave file (offered ns)) seen₁ rest more l' seen') :
      Lists parts l seen (.star file :: rest) (offered ns ++ more) l' seen'

namespace Lists

variable {ps : String → List Contribution} {l mid l' : Listing} {cs rest : List Contribution}
  {ns more seen seen₁ seen' : List String} {file : String}

theorem append (h : Lists ps l seen cs ns mid seen₁)
    (hrest : Lists ps mid seen₁ rest more l' seen') :
    Lists ps l seen (cs ++ rest) (ns ++ more) l' seen' := by
  induction h with
  | nil => exact hrest
  | names _ ih =>
      rw [List.append_assoc]
      exact .names (ih hrest)
  | known hknown _ ih =>
      rw [List.append_assoc]
      exact .known hknown (ih hrest)
  | opened hnew hopen _ ih => exact .opened hnew hopen (ih hrest)
  | enter hnew hclosed hinner _ _ ih =>
      rw [List.append_assoc]
      exact .enter hnew hclosed hinner (ih hrest)

/-- Every file that is visited on the way is left again. -/
theorem visiting_eq (h : Lists ps l seen cs ns l' seen') : l'.visiting = l.visiting := by
  induction h with
  | nil => rfl
  | names _ ih => exact ih
  | known _ _ ih => exact ih
  | opened _ _ _ ih => exact ih
  | @enter l mid l' seen seen₁ seen' ns more file rest hnew hclosed hinner hrest ihinner ih =>
      have hmid : mid.visiting = file :: l.visiting := ihinner
      have hkeep : l.visiting.filter (· ≠ file) = l.visiting :=
        List.filter_eq_self.2 fun v hv => by
          simp only [decide_not, Bool.not_eq_eq_eq_not, Bool.not_true, decide_eq_false_iff_not]
          rintro rfl
          exact hclosed hv
      rw [ih, Listing.leave, hmid, List.filter_cons]
      simpa using hkeep

end Lists

/-! ## Enough fuel -/

/-- A file that following relative paths from a rooted file can lead to. -/
def Followed (disk : Disk) (k : Nat) (file : String) : Prop :=
  Path.Rooted k file ∨ ∃ e, disk.read file = .error e

/-- The files being visited are different files of the disk, and the fuel suffices for the rest. -/
structure Fits (disk : Disk) (k fuel : Nat) (visiting : List String) : Prop where
  nodup : visiting.Nodup
  onDisk : ∀ v ∈ visiting, Path.Rooted k v ∧ Succeeds (disk.read v)
  enough : disk.entries.length + 2 ≤ fuel + visiting.length

theorem Fits.length_le {disk : Disk} {k fuel : Nat} {visiting : List String}
    (h : Fits disk k fuel visiting) (hk : k = 1 ∨ k = 2) :
    visiting.length ≤ disk.entries.length := by
  have hnodup : (visiting.map fun v => (Path.Parts.read v).segments).Nodup := by
    refine List.Nodup.map_on ?_ h.nodup
    intro v hv w hw he
    obtain ⟨vs, hvs, rfl⟩ := (h.onDisk v hv).1
    obtain ⟨ws, hws, rfl⟩ := (h.onDisk w hw).1
    rw [Path.Parts.read_rooted hk hvs, Path.Parts.read_rooted hk hws] at he
    exact congrArg (Path.rooted k) he
  have hsub : (visiting.map fun v => (Path.Parts.read v).segments) ⊆ disk.entries.map (·.1) := by
    intro segments hs
    obtain ⟨v, hv, rfl⟩ := List.mem_map.1 hs
    obtain ⟨hrooted, content, hread⟩ := h.onDisk v hv
    exact List.mem_map_of_mem (place_of_read hk hrooted hread)
  simpa using (hnodup.subperm hsub).length_le

theorem mem_of_mapM {ε α β : Type} {f : α → Except ε β} : ∀ {l : List α} {bs : List β} {b : β},
    l.mapM f = .ok bs → b ∈ bs → ∃ a ∈ l, f a = .ok b
  | [], _, _, h, hb => by
      rw [List.mapM_nil] at h
      cases h
      cases hb
  | a :: l, _, b, h, hb => by
      rw [List.mapM_cons] at h
      obtain ⟨b', hb', h⟩ := bind_eq_ok h
      obtain ⟨bs, hbs, h⟩ := bind_eq_ok h
      cases h
      rcases List.mem_cons.1 hb with rfl | hb
      · exact ⟨a, by simp, hb'⟩
      · obtain ⟨x, hx, hfx⟩ := mem_of_mapM hbs hb
        exact ⟨x, by simp [hx], hfx⟩

/-- Only a star export that names a relative module adds another file. -/
theorem relativeModule_of_star {disk : Disk} {file target : String} {source : Bytes}
    {statement : Node} (h : contribution disk file source statement = .ok (.star target)) :
    ∃ path?, relativeModule? disk file path? = some target := by
  unfold contribution at h
  split at h
  · unfold exportContribution at h
    split at h
    · obtain ⟨_, _, h⟩ := bind_eq_ok h
      cases h
    · obtain ⟨_, _, h⟩ := bind_eq_ok h
      split at h
      · cases h
      · obtain ⟨path?, _, h⟩ := bind_eq_ok h
        split at h
        · split at h
          · next target' htarget =>
              cases h
              exact ⟨path?, htarget⟩
          · cases h
        · obtain ⟨_, _, h⟩ := bind_eq_ok h
          cases h
  split at h
  · unfold assignmentContribution at h
    split at h
    · split at h
      · obtain ⟨_, _, h⟩ := bind_eq_ok h
        cases h
      · cases h
    · cases h
  · cases h

theorem contributions_spec {disk : Disk} {file : String} {ps : List Contribution}
    (h : contributions disk file = .ok (some ps)) :
    ∃ source tree, readModule disk file = some (source, tree) ∧
      tree.namedChildren.mapM (contribution disk file source) = .ok ps := by
  unfold contributions at h
  split at h
  · cases h
  · next source tree hmodule =>
      obtain ⟨ps', hps, h⟩ := bind_eq_ok h
      cases h
      exact ⟨source, tree, hmodule, hps⟩

/-- The statements of a rooted file lead to files that can be followed again. -/
theorem followed_of_star {disk : Disk} {k : Nat} {file target : String} {ps : List Contribution}
    (hk : k = 1 ∨ k = 2) (hfile : Path.Rooted k file)
    (hps : contributions disk file = .ok (some ps)) (h : .star target ∈ ps) :
    Followed disk k target := by
  obtain ⟨source, tree, -, hmap⟩ := contributions_spec hps
  obtain ⟨statement, -, hstar⟩ := mem_of_mapM hmap h
  obtain ⟨path?, htarget⟩ := relativeModule_of_star hstar
  exact relativeModule_rooted hk hfile htarget

/-- Collecting follows the relation if listing single files does. -/
theorem lists_of_collect {disk : Disk} {k fuel : Nat}
    (hfollow : ∀ {file l ns l'} (seen), Followed disk k file → Fits disk k fuel l.visiting →
      listNames disk fuel file l = .ok (ns, l') →
      ∃ seen', Lists (parts disk) l seen [.star file] ns l' seen') :
    ∀ {cs : List Contribution} {l l' : Listing} {ns : List String} (seen : List String),
      (∀ target, .star target ∈ cs → Followed disk k target) → Fits disk k fuel l.visiting →
      collect (listNames disk fuel) cs l = .ok (ns, l') →
      ∃ seen', Lists (parts disk) l seen cs ns l' seen'
  | [], _, _, _, seen, _, _, h => by
      cases h
      exact ⟨seen, .nil _ _⟩
  | .names xs :: cs, l, l', ns, seen, hcs, hfits, h => by
      obtain ⟨⟨more, mid⟩, hmore, h⟩ := bind_eq_ok h
      cases h
      obtain ⟨seen', hlists⟩ :=
        lists_of_collect hfollow seen (fun t ht => hcs t (by simp [ht])) hfits hmore
      exact ⟨seen', .names hlists⟩
  | .star file :: cs, l, l', ns, seen, hcs, hfits, h => by
      obtain ⟨⟨first, mid⟩, hfirst, h⟩ := bind_eq_ok h
      obtain ⟨⟨more, l''⟩, hmore, h⟩ := bind_eq_ok h
      cases h
      obtain ⟨seen₁, hstar⟩ := hfollow seen (hcs file (by simp)) hfits hfirst
      have hmid : Fits disk k fuel mid.visiting := by
        rw [hstar.visiting_eq]
        exact hfits
      obtain ⟨seen', hlists⟩ :=
        lists_of_collect hfollow seen₁ (fun t ht => hcs t (by simp [ht])) hmid hmore
      exact ⟨seen', hstar.append hlists⟩

/-- The bound on nested visits is never reached. -/
theorem lists_of_listNames {disk : Disk} {k : Nat} (hk : k = 1 ∨ k = 2) :
    ∀ {fuel : Nat} {file : String} {l l' : Listing} {ns : List String} (seen : List String),
      Followed disk k file → Fits disk k fuel l.visiting →
      listNames disk fuel file l = .ok (ns, l') →
      ∃ seen', Lists (parts disk) l seen [.star file] ns l' seen'
  | 0, _, _, _, _, _, _, hfits, _ => by
      have := hfits.length_le hk
      have := hfits.enough
      omega
  | fuel + 1, file, l, l', ns, seen, hfile, hfits, h => by
      rw [listNames] at h
      split at h
      · next names hknown =>
          cases h
          rw [← List.append_nil ns]
          exact ⟨seen, .known hknown (.nil _ _)⟩
      · next hnew =>
          split at h
          · next hopen =>
              cases h
              exact ⟨seen, .opened hnew (List.contains_iff_mem.1 hopen) (.nil _ _)⟩
          · next hclosed =>
              rw [List.contains_iff_mem] at hclosed
              obtain ⟨ps?, hps, h⟩ := bind_eq_ok h
              cases ps? with
              | none =>
                  have hinner : Lists (parts disk) (l.enter file) (seen ++ [file])
                      (parts disk file) [] (l.enter file) (seen ++ [file]) := by
                    rw [parts, hps]
                    exact .nil _ _
                  cases h
                  have hstar := Lists.enter hnew hclosed hinner (.nil _ _)
                  exact ⟨_, hstar⟩
              | some ps =>
                  obtain ⟨⟨names, mid⟩, hcollect, h⟩ := bind_eq_ok h
                  have hread : Succeeds (disk.read file) := by
                    obtain ⟨source, tree, hmodule, -⟩ := contributions_spec hps
                    exact ⟨source, (readModule_spec hmodule).1⟩
                  have hrooted : Path.Rooted k file := by
                    refine hfile.resolve_right ?_
                    rintro ⟨e, he⟩
                    obtain ⟨source, hsource⟩ := hread
                    rw [he] at hsource
                    cases hsource
                  have hinside : Fits disk k fuel (l.enter file).visiting := by
                    refine ⟨List.nodup_cons.2 ⟨hclosed, hfits.nodup⟩, ?_, ?_⟩
                    · intro v hv
                      rcases List.mem_cons.1 hv with rfl | hv
                      · exact ⟨hrooted, hread⟩
                      · exact hfits.onDisk v hv
                    · have := hfits.enough
                      simp only [Listing.enter, List.length_cons]
                      omega
                  obtain ⟨seen', hinner⟩ := lists_of_collect (lists_of_listNames hk)
                    (seen ++ [file]) (fun t ht => followed_of_star hk hrooted hps ht) hinside
                    hcollect
                  rw [show ps = parts disk file by rw [parts, hps]] at hinner
                  cases h
                  have hstar := Lists.enter hnew hclosed hinner (.nil _ _)
                  rw [List.append_nil] at hstar
                  exact ⟨_, hstar⟩

/-- Listing never fails where reading what files add never does. -/
theorem listNames_succeeds {disk : Disk} (h : disk.IsUtf8) :
    ∀ (fuel : Nat) (file : String) (l : Listing), Succeeds (listNames disk fuel file l)
  | 0, _, _ => .ok _
  | fuel + 1, file, l => by
      have hcollect : ∀ (cs : List Contribution) (l : Listing),
          Succeeds (collect (listNames disk fuel) cs l) := by
        intro cs
        induction cs with
        | nil => exact fun l => .ok _
        | cons c cs ih =>
            intro l
            cases c with
            | names xs => exact (ih l).bind fun _ => .ok _
            | star target =>
                exact (listNames_succeeds h fuel target l).bind fun r =>
                  (ih r.2).bind fun _ => .ok _
      rw [listNames]
      split
      · exact .ok _
      split
      · exact .ok _
      · refine (contributions_succeeds h file).bind fun ps? => ?_
        cases ps? with
        | none => exact .ok _
        | some ps => exact (hcollect ps _).bind fun _ => .ok _

end ImportAssist
