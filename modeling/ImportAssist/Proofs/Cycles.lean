import Mathlib.Data.Finset.Card
import Mathlib.Data.Nat.Find
import Mathlib.Tactic.Push
import ImportAssist.Proofs.Traversal

/-!
# What a listing keeps about the files of a cycle

A file whose star exports lead back to a file that is still being listed keeps a list without the
names of that file. So among files that reach each other only the first one reached is sure to keep
everything (`Lists.first_covers`), and any other keeps nothing of the first one
(`Lists.avoids`). What a file keeps in the end is complete if it comes to each cycle where the
listing came to it first, `EntersFirst`, and not otherwise: `mem_kept_of_entersFirst` and
`kept_elsewhere`.
-/

namespace ImportAssist

/-- Two files that reach each other. -/
def SameCycle (ps : String → List Contribution) (v w : String) : Prop :=
  Reaches ps v w ∧ Reaches ps w v

/-- No file on a cycle with this one stands in front of it. -/
def First (ps : String → List Contribution) (order : List String) (c : String) : Prop :=
  ∀ d, SameCycle ps c d → order.idxOf c ≤ order.idxOf d

/-- Where a file comes to a cycle that it is not on itself, it also comes to it at the file of the
cycle that stands first in the order; and on a cycle of its own it is the first one. -/
def EntersFirst (ps : String → List Contribution) (order : List String) (file : String) : Prop :=
  ∀ c, Reaches ps file c → First ps order c →
    c = file ∨ ∃ x, Reaches ps file x ∧ Reexports ps x c ∧ ¬ Reaches ps c x

/-- One file keeps all that another one keeps. -/
def Listing.Covers (l : Listing) (v w : String) : Prop :=
  ∃ ns ms, l.names? v = some ns ∧ l.names? w = some ms ∧ ∀ name ∈ ms, name ∈ ns

theorem Listing.Covers.trans {l : Listing} {u v w : String} (huv : l.Covers u v)
    (hvw : l.Covers v w) : l.Covers u w := by
  obtain ⟨us, vs, hu, hv, hsub⟩ := huv
  obtain ⟨vs', ws, hv', hw, hsub'⟩ := hvw
  rw [hv] at hv'
  cases hv'
  exact ⟨us, ws, hu, hw, fun name hname => hsub name (hsub' name hname)⟩

theorem Listing.covers_self {l : Listing} {v : String} (h : (l.names? v).isSome) :
    l.Covers v v := by
  obtain ⟨ns, hns⟩ := Option.isSome_iff_exists.1 h
  exact ⟨ns, ns, hns, hns, fun _ hname => hname⟩

namespace Lists

variable {ps : String → List Contribution} {l l' : Listing} {cs : List Contribution}
  {ns seen seen' : List String}

/-! ## What stays -/

/-- Nothing changes about a file that has been listed or is being listed. -/
theorem names?_eq (h : Lists ps l seen cs ns l' seen') {v : String}
    (hv : v ∈ l.visiting ∨ (l.names? v).isSome) : l'.names? v = l.names? v := by
  induction h with
  | nil => rfl
  | names _ ih => exact ih hv
  | known _ _ ih => exact ih hv
  | opened _ _ _ ih => exact ih hv
  | @enter l mid l' seen seen₁ seen' ns more file rest hnew hclosed hinner hrest ihinner ihrest =>
      have hne : v ≠ file := by
        rintro rfl
        rcases hv with hv | hv
        · exact hclosed hv
        · simp [hnew] at hv
      have hmid : mid.names? v = l.names? v := by
        refine ihinner (hv.imp_left fun hv => ?_)
        exact List.mem_cons_of_mem _ hv
      have hleft : (mid.leave file (offered ns)).names? v = l.names? v := by
        rw [Listing.names?_leave, if_neg hne, hmid]
      rw [ihrest, hleft]
      rw [hleft, Listing.mem_leave_visiting, hinner.visiting_eq]
      exact hv.imp_left fun hv => ⟨List.mem_cons_of_mem _ hv, hne⟩

theorem names?_some (h : Lists ps l seen cs ns l' seen') {v : String} {ms : List String}
    (hv : l.names? v = some ms) : l'.names? v = some ms := by
  rw [h.names?_eq (.inr (by simp [hv])), hv]

theorem covers (h : Lists ps l seen cs ns l' seen') {v w : String} (hc : l.Covers v w) :
    l'.Covers v w := by
  obtain ⟨vs, ws, hv, hw, hsub⟩ := hc
  exact ⟨vs, ws, h.names?_some hv, h.names?_some hw, hsub⟩

/-- A file that is left keeps nothing yet, so leaving it changes nothing about other files. -/
theorem leave_names?_some {mid : Listing} {seen₁ : List String} {file : String}
    (h : Lists ps (l.enter file) (seen ++ [file]) cs ns mid seen₁) (hnew : l.names? file = none)
    {v : String} {ms : List String} (hv : mid.names? v = some ms) :
    v ≠ file ∧ (mid.leave file (offered ns)).names? v = some ms := by
  have hfile : mid.names? file = none := by
    rw [h.names?_eq (.inl List.mem_cons_self)]
    exact hnew
  have hne : v ≠ file := by
    rintro rfl
    simp [hfile] at hv
  exact ⟨hne, by rw [Listing.names?_leave, if_neg hne, hv]⟩

theorem seen_append (h : Lists ps l seen cs ns l' seen') : ∃ more, seen' = seen ++ more := by
  induction h with
  | nil => exact ⟨[], by simp⟩
  | names _ ih => exact ih
  | known _ _ ih => exact ih
  | opened _ _ _ ih => exact ih
  | enter _ _ _ _ ihinner ihrest =>
      obtain ⟨as, rfl⟩ := ihinner
      obtain ⟨bs, rfl⟩ := ihrest
      exact ⟨_, by rw [List.append_assoc, List.append_assoc]⟩

/-! ## The plain traversal beside it -/

theorem consistent (h : Lists ps l seen cs ns l' seen') (hl : ∃ given, Agrees l seen given) :
    ∃ given, Agrees l' seen' given := by
  obtain ⟨given, hg⟩ := hl
  obtain ⟨raw, -, hg', -⟩ := h.inlines hg
  exact ⟨_, hg'⟩

theorem done (h : Lists ps l seen cs ns l' seen') (hl : ∃ given, Agrees l seen given) :
    ∃ raw, Inlines.Done ps seen cs raw seen' := by
  obtain ⟨given, hg⟩ := hl
  obtain ⟨raw, hraw, -⟩ := h.inlines hg
  exact ⟨raw, hraw.done⟩

theorem consistent_enter {file : String} (hl : ∃ given, Agrees l seen given) :
    ∃ given, Agrees (l.enter file) (seen ++ [file]) given :=
  hl.imp fun _ hg => hg.enter file

theorem consistent_leave {mid : Listing} {seen₁ : List String} {file : String}
    (h : Lists ps (l.enter file) (seen ++ [file]) cs ns mid seen₁)
    (hl : ∃ given, Agrees l seen given) :
    ∃ given, Agrees (mid.leave file (offered ns)) seen₁ given := by
  obtain ⟨given, hg⟩ := hl
  obtain ⟨raw, -, hmid, he⟩ := h.inlines (hg.enter file)
  refine ⟨given ++ raw, hmid.leave ?_ fun name hname => ?_⟩
  · rw [h.visiting_eq]
    exact List.mem_cons_self
  · rw [← he, ← offered_append_offered]
    exact mem_offered.2 ⟨by simp [hname], (mem_offered.1 hname).2⟩

end Lists

theorem importable_of_kept {l : Listing} {seen ms : List String} {v name : String}
    (hl : ∃ given, Agrees l seen given) (hv : l.names? v = some ms) (hname : name ∈ ms) :
    isImportable name = true := by
  obtain ⟨given, hg⟩ := hl
  exact (mem_offered.1 (hg.kept v ms hv name hname)).2

namespace Lists

variable {ps : String → List Contribution} {l l' : Listing} {cs : List Contribution}
  {ns seen seen' : List String}

/-! ## What a run collects -/

/-- The names of the contributions, of the files they lead to unless these are being listed, and of
all files listed on the way. -/
structure Collects (l : Listing) (cs : List Contribution) (ns : List String) (l' : Listing) :
    Prop where
  gives : ∀ xs, .names xs ∈ cs → ∀ name ∈ xs, name ∈ ns
  follows : ∀ w, .star w ∈ cs →
    (∃ ms, l'.names? w = some ms ∧ ∀ name ∈ ms, name ∈ ns) ∨ w ∈ l.visiting
  adds : ∀ v ms, l.names? v = none → l'.names? v = some ms → ∀ name ∈ ms, name ∈ ns

theorem collects (h : Lists ps l seen cs ns l' seen') (hl : ∃ given, Agrees l seen given) :
    Collects l cs ns l' := by
  induction h with
  | nil l seen =>
      refine ⟨by simp, by simp, fun v ms hnone hsome => ?_⟩
      rw [hnone] at hsome
      cases hsome
  | names _ ih =>
      obtain ⟨hgives, hfollows, hadds⟩ := ih hl
      refine ⟨fun ys hys name hname => ?_, fun w hw => ?_, fun v ms hnone hsome name hname => ?_⟩
      · rcases List.mem_cons.1 hys with he | hys
        · cases he
          simp [hname]
        · simp [hgives ys hys name hname]
      · refine (hfollows w (by simpa using hw)).imp_left ?_
        rintro ⟨ms, hms, hsub⟩
        exact ⟨ms, hms, fun name hname => by simp [hsub name hname]⟩
      · simp [hadds v ms hnone hsome name hname]
  | @known l l' seen seen' ns more file rest hknown hrest ih =>
      obtain ⟨hgives, hfollows, hadds⟩ := ih hl
      refine ⟨fun ys hys name hname => ?_, fun w hw => ?_, fun v ms hnone hsome name hname => ?_⟩
      · simp [hgives ys (by simpa using hys) name hname]
      · rcases List.mem_cons.1 hw with he | hw
        · cases he
          exact .inl ⟨ns, hrest.names?_some hknown, fun name hname => by simp [hname]⟩
        · refine (hfollows w hw).imp_left ?_
          rintro ⟨ms, hms, hsub⟩
          exact ⟨ms, hms, fun name hname => by simp [hsub name hname]⟩
      · simp [hadds v ms hnone hsome name hname]
  | @opened l l' seen seen' more file rest hnew hopen hrest ih =>
      obtain ⟨hgives, hfollows, hadds⟩ := ih hl
      refine ⟨fun ys hys => hgives ys (by simpa using hys), fun w hw => ?_, hadds⟩
      rcases List.mem_cons.1 hw with he | hw
      · cases he
        exact .inr hopen
      · exact hfollows w hw
  | @enter l mid l' seen seen₁ seen' ns more file rest hnew hclosed hinner hrest ihinner ihrest =>
      have hleave := hinner.consistent_leave hl
      obtain ⟨hgives, hfollows, hadds⟩ := ihrest hleave
      have hfile : (mid.leave file (offered ns)).names? file = some (offered ns) := by
        rw [Listing.names?_leave, if_pos rfl]
      have hvisiting : (mid.leave file (offered ns)).visiting = l.visiting :=
        (Lists.enter hnew hclosed hinner (.nil _ _)).visiting_eq
      refine ⟨fun ys hys name hname => ?_, fun w hw => ?_, fun v ms hnone hsome name hname => ?_⟩
      · simp [hgives ys (by simpa using hys) name hname]
      · rcases List.mem_cons.1 hw with he | hw
        · cases he
          exact .inl ⟨_, hrest.names?_some hfile, fun name hname => by simp [hname]⟩
        · rcases hfollows w hw with ⟨ms, hms, hsub⟩ | hw
          · exact .inl ⟨ms, hms, fun name hname => by simp [hsub name hname]⟩
          · exact .inr (hvisiting ▸ hw)
      · cases hmid : (mid.leave file (offered ns)).names? v with
        | none => simp [hadds v ms hmid hsome name hname]
        | some ms' =>
            rw [hrest.names?_some hmid] at hsome
            cases hsome
            have himp := importable_of_kept hleave hmid hname
            refine List.mem_append_left _ ?_
            rw [Listing.names?_leave] at hmid
            split at hmid
            · cases hmid
              exact hname
            · have hsub := (ihinner (consistent_enter hl)).adds v ms hnone hmid name hname
              exact mem_offered.2 ⟨hsub, himp⟩

/-! ## Statements of kept files -/

/-- A file keeps what it declares, and what the files it re-exports keep, except for those that
lead back to it. -/
structure Sound (ps : String → List Contribution) (l : Listing) : Prop where
  declared : ∀ v ms name, l.names? v = some ms → Declares ps v name → isImportable name = true →
    name ∈ ms
  reexported : ∀ v w, (l.names? v).isSome → Reexports ps v w → l.Covers v w ∨ Reaches ps w v

theorem sound (h : Lists ps l seen cs ns l' seen') (hl : ∃ given, Agrees l seen given)
    (hstack : ∀ v ∈ l.visiting, ∀ w, .star w ∈ cs → Reaches ps v w) (hsound : Sound ps l) :
    Sound ps l' := by
  induction h with
  | nil => exact hsound
  | names _ ih => exact ih hl (fun v hv w hw => hstack v hv w (by simp [hw])) hsound
  | known _ _ ih => exact ih hl (fun v hv w hw => hstack v hv w (by simp [hw])) hsound
  | opened _ _ _ ih => exact ih hl (fun v hv w hw => hstack v hv w (by simp [hw])) hsound
  | @enter l mid l' seen seen₁ seen' ns more file rest hnew hclosed hinner hrest ihinner ihrest =>
      have hleave := hinner.consistent_leave hl
      have hvisiting : (mid.leave file (offered ns)).visiting = l.visiting :=
        (Lists.enter hnew hclosed hinner (.nil _ _)).visiting_eq
      have hstackfile : ∀ v ∈ (l.enter file).visiting, Reaches ps v file := by
        intro v hv
        rcases List.mem_cons.1 hv with rfl | hv
        · exact .refl
        · exact hstack v hv file (by simp)
      have hmid : Sound ps mid := ihinner (consistent_enter hl)
        (fun v hv w hw => (hstackfile v hv).tail hw) ⟨hsound.declared, hsound.reexported⟩
      have hcollects := hinner.collects (consistent_enter hl)
      have hkeeps : ∀ {v ms}, mid.names? v = some ms →
          (mid.leave file (offered ns)).names? v = some ms :=
        fun hv => (hinner.leave_names?_some hnew hv).2
      have hfile : (mid.leave file (offered ns)).names? file = some (offered ns) := by
        rw [Listing.names?_leave, if_pos rfl]
      refine ihrest hleave (fun v hv w hw => hstack v (hvisiting ▸ hv) w (by simp [hw])) ⟨?_, ?_⟩
      · intro v ms name hv hd himp
        rw [Listing.names?_leave] at hv
        split at hv
        · next he =>
            cases hv
            obtain ⟨xs, hxs, hx⟩ := hd
            exact mem_offered.2 ⟨hcollects.gives xs (he ▸ hxs) name hx, himp⟩
        · exact hmid.declared v ms name hv hd himp
      · intro v w hv hw
        by_cases he : v = file
        · subst he
          rcases hcollects.follows w hw with ⟨ms, hms, hsub⟩ | hopen
          · refine .inl ⟨_, ms, hfile, hkeeps hms, fun name hname => ?_⟩
            exact mem_offered.2 ⟨hsub name hname, importable_of_kept hleave (hkeeps hms) hname⟩
          · exact .inr (hstackfile w hopen)
        · rw [Listing.names?_leave, if_neg he] at hv
          refine (hmid.reexported v w hv hw).imp_left ?_
          rintro ⟨vs, ws, hvs, hws, hsub⟩
          exact ⟨vs, ws, hkeeps hvs, hkeeps hws, hsub⟩

/-! ## The first file of a cycle -/

/-- While the first file of a cycle has not been reached, none of the cycle has. -/
theorem mem_of_first {order more : List String} {c d : String} (hfirst : First ps order c)
    (horder : order = seen ++ more) (hd : SameCycle ps c d) (hmem : d ∈ seen) : c ∈ seen := by
  by_contra hc
  have hle := hfirst d hd
  rw [horder, List.idxOf_append_of_notMem hc, List.idxOf_append_of_mem hmem] at hle
  have := List.idxOf_lt_length_of_mem hmem
  omega

/-- If no file of a cycle has been reached, entering one of them lists all the others. -/
theorem cycle_listed {mid : Listing} {seen₁ : List String} {file d : String}
    (h : Lists ps (l.enter file) (seen ++ [file]) (ps file) ns mid seen₁)
    (hl : ∃ given, Agrees l seen given) (hnone : ∀ d ∈ seen, ¬ SameCycle ps file d)
    (hd : SameCycle ps file d) (hne : d ≠ file) :
    ∃ ms, mid.names? d = some ms ∧ ∀ name ∈ ms, name ∈ ns := by
  obtain ⟨raw, hdone⟩ := h.done (consistent_enter hl)
  have hreached : ∀ c, Reaches ps file c → Reaches ps c file → c ∈ seen₁ := by
    intro c hc
    induction hc with
    | refl =>
        intro _
        exact hdone.keeps file (by simp)
    | @tail b c hb hbc ih =>
        intro hback
        have hbfile : Reaches ps b file := .head hbc hback
        by_cases he : b = file
        · exact hdone.reaches c (he ▸ hbc)
        · refine hdone.closed b (ih hbfile) ?_ c hbc
          simp only [List.mem_append, List.mem_singleton, not_or]
          exact ⟨fun hb' => hnone b hb' ⟨hb, hbfile⟩, he⟩
  obtain ⟨given, hg⟩ := h.consistent (consistent_enter hl)
  have hfresh : d ∉ seen := fun hd' => hnone d hd' hd
  obtain ⟨given₀, hg₀⟩ := hl
  rw [hg₀.seen_iff, not_or] at hfresh
  rcases (hg.seen_iff d).1 (hreached d hd.1 hd.2) with hknown | hopen
  · obtain ⟨ms, hms⟩ := Option.isSome_iff_exists.1 hknown
    refine ⟨ms, hms, (h.collects ⟨given₀, hg₀.enter file⟩).adds d ms ?_ hms⟩
    rw [Listing.names?_enter]
    simpa using hfresh.1
  · rw [h.visiting_eq] at hopen
    rcases List.mem_cons.1 hopen with he | hopen
    · exact absurd he hne
    · exact absurd hopen hfresh.2

/-- The first file of a cycle keeps all that the files of the cycle keep. -/
theorem first_covers (h : Lists ps l seen cs ns l' seen') (hl : ∃ given, Agrees l seen given)
    {order more : List String} (horder : order = seen' ++ more) {c d : String}
    (hfirst : First ps order c) (hnew : c ∉ seen) (hc : c ∈ seen') (hd : SameCycle ps c d) :
    l'.Covers c d := by
  induction h generalizing more with
  | nil => exact absurd hc hnew
  | names _ ih => exact ih hl horder hnew hc
  | known _ _ ih => exact ih hl horder hnew hc
  | opened _ _ _ ih => exact ih hl horder hnew hc
  | @enter l mid l' seen seen₁ seen' ns ms file rest hfresh hclosed hinner hrest ihinner ihrest =>
      have hleave := hinner.consistent_leave hl
      obtain ⟨bs, hbs⟩ := hrest.seen_append
      have horder₁ : order = seen₁ ++ (bs ++ more) := by rw [horder, hbs, List.append_assoc]
      by_cases hmem : c ∈ seen₁
      · refine hrest.covers ?_
        by_cases he : c = file
        · subst he
          obtain ⟨as, has⟩ := hinner.seen_append
          have hnone : ∀ b ∈ seen, ¬ SameCycle ps c b := fun b hb hcb =>
            hnew (mem_of_first hfirst (by rw [horder₁, has, List.append_assoc, List.append_assoc])
              hcb hb)
          have hkept : (mid.leave c (offered ns)).names? c = some (offered ns) := by
            rw [Listing.names?_leave, if_pos rfl]
          by_cases hdc : d = c
          · rw [hdc]
            exact Listing.covers_self (by simp [hkept])
          · obtain ⟨ds, hds, hsub⟩ := hinner.cycle_listed hl hnone hd hdc
            have hds' := (hinner.leave_names?_some hfresh hds).2
            refine ⟨_, ds, hkept, hds', fun name hname => ?_⟩
            exact mem_offered.2 ⟨hsub name hname, importable_of_kept hleave hds' hname⟩
        · obtain ⟨vs, ws, hv, hw, hsub⟩ :=
            ihinner (consistent_enter hl) horder₁ (by simp [hnew, he]) hmem
          exact ⟨vs, ws, (hinner.leave_names?_some hfresh hv).2,
            (hinner.leave_names?_some hfresh hw).2, hsub⟩
      · exact ihrest hleave horder hmem hc

/-! ## The other files of a cycle -/

/-- When the first file of a cycle has been listed, so has the whole cycle. -/
def Whole (ps : String → List Contribution) (c : String) (l : Listing) : Prop :=
  (l.names? c).isSome → ∀ d, SameCycle ps c d → (l.names? d).isSome

theorem whole (h : Lists ps l seen cs ns l' seen') (hl : ∃ given, Agrees l seen given)
    {order more : List String} (horder : order = seen' ++ more) {c : String}
    (hfirst : First ps order c) (hwhole : Whole ps c l) : Whole ps c l' := by
  intro hc d hd
  by_cases hmem : c ∈ seen
  · obtain ⟨given, hg⟩ := id hl
    have hc' := hc
    rw [h.names?_eq ((hg.seen_iff c).1 hmem).symm] at hc'
    obtain ⟨ms, hms⟩ := Option.isSome_iff_exists.1 (hwhole hc' d hd)
    simp [h.names?_some hms]
  · obtain ⟨given, hg⟩ := h.consistent hl
    have hmem' : c ∈ seen' := (hg.seen_iff c).2 (.inl hc)
    obtain ⟨_, ms, -, hms, -⟩ := h.first_covers hl horder hfirst hmem hmem' hd
    simp [hms]

/-- All ways from a file to `c` come from the cycle of `c`. -/
def Guarded (ps : String → List Contribution) (c v : String) : Prop :=
  ∀ x, Reaches ps v x → Reexports ps x c → Reaches ps c x

theorem Guarded.step {c v w : String} (h : Guarded ps c v) (hw : Reexports ps v w) :
    Guarded ps c w := fun x hx => h x (.head hw hx)

/-- A name that a file other than `c` declares, reached from `v`. -/
def Elsewhere (ps : String → List Contribution) (c v name : String) : Prop :=
  ∃ u, u ≠ c ∧ Reaches ps v u ∧ Declares ps u name

/-- Files that come to `c` only through its own cycle keep nothing of it. -/
def Avoids (ps : String → List Contribution) (c : String) (l : Listing) : Prop :=
  ∀ v ms, v ≠ c → Guarded ps c v → l.names? v = some ms → ∀ name ∈ ms, Elsewhere ps c v name

/-- Contributions that lead to guarded files, and to `c` itself only while it is being listed. -/
def GuardedIn (ps : String → List Contribution) (c : String) (l : Listing)
    (cs : List Contribution) : Prop :=
  ∀ w, .star w ∈ cs → Guarded ps c w ∧ (w = c → c ∈ l.visiting ∧ l.names? c = none)

/-- A name that contributions give themselves, or a file other than `c` that they lead to. -/
def GivenElsewhere (ps : String → List Contribution) (c : String) (cs : List Contribution)
    (name : String) : Prop :=
  (∃ xs, .names xs ∈ cs ∧ name ∈ xs) ∨ ∃ w, .star w ∈ cs ∧ Elsewhere ps c w name

theorem GivenElsewhere.cons {c name : String} (h : GivenElsewhere ps c cs name)
    (first : Contribution) : GivenElsewhere ps c (first :: cs) name := by
  rcases h with ⟨xs, hxs, hx⟩ | ⟨w, hw, he⟩
  · exact .inl ⟨xs, List.mem_cons_of_mem _ hxs, hx⟩
  · exact .inr ⟨w, List.mem_cons_of_mem _ hw, he⟩

theorem GivenElsewhere.of_file {c v name : String} (h : GivenElsewhere ps c (ps v) name)
    (hne : v ≠ c) : Elsewhere ps c v name := by
  rcases h with ⟨xs, hxs, hx⟩ | ⟨w, hw, u, hu, hwu, hd⟩
  · exact ⟨v, hne, .refl, xs, hxs, hx⟩
  · exact ⟨u, hu, .head hw hwu, hd⟩

/-- The first file of a cycle is being listed whenever another file of the cycle is entered. -/
theorem visiting_of_first {order more : List String} {c file : String}
    (hl : ∃ given, Agrees l seen given) (hfirst : First ps order c)
    (horder : order = seen ++ [file] ++ more) (hwhole : Whole ps c l)
    (hnew : l.names? file = none) (hne : c ≠ file) (hcycle : SameCycle ps c file) :
    c ∈ l.visiting ∧ l.names? c = none := by
  have hmem : c ∈ seen := by
    have := mem_of_first hfirst horder hcycle (by simp)
    simpa [hne] using this
  have hunknown : ¬ (l.names? c).isSome := by
    intro hc
    have := hwhole hc file hcycle
    simp [hnew] at this
  obtain ⟨given, hg⟩ := hl
  refine ⟨((hg.seen_iff c).1 hmem).resolve_left hunknown, by simpa using hunknown⟩

/-- So what a file of the cycle collects leaves the first one out. -/
theorem avoids (h : Lists ps l seen cs ns l' seen') (hl : ∃ given, Agrees l seen given)
    {order more : List String} (horder : order = seen' ++ more) {c : String}
    (hfirst : First ps order c) (hwhole : Whole ps c l) (havoids : Avoids ps c l) :
    Avoids ps c l' ∧ (GuardedIn ps c l cs → ∀ name ∈ ns, GivenElsewhere ps c cs name) := by
  induction h generalizing more with
  | nil => exact ⟨havoids, by simp⟩
  | names _ ih =>
      obtain ⟨hl', hnames⟩ := ih hl horder hwhole havoids
      refine ⟨hl', fun hcs name hname => ?_⟩
      rcases List.mem_append.1 hname with hname | hname
      · exact .inl ⟨_, by simp, hname⟩
      · exact (hnames (fun w hw => hcs w (by simp [hw])) name hname).cons _
  | @known l l' seen seen' ns ms file rest hknown hrest ih =>
      obtain ⟨hl', hnames⟩ := ih hl horder hwhole havoids
      refine ⟨hl', fun hcs name hname => ?_⟩
      rcases List.mem_append.1 hname with hname | hname
      · obtain ⟨hguarded, hc⟩ := hcs file (by simp)
        have hne : file ≠ c := by
          rintro rfl
          simp [(hc rfl).2] at hknown
        exact .inr ⟨file, by simp, havoids file ns hne hguarded hknown name hname⟩
      · exact (hnames (fun w hw => hcs w (by simp [hw])) name hname).cons _
  | opened _ _ _ ih =>
      obtain ⟨hl', hnames⟩ := ih hl horder hwhole havoids
      exact ⟨hl', fun hcs name hname =>
        (hnames (fun w hw => hcs w (by simp [hw])) name hname).cons _⟩
  | @enter l mid l' seen seen₁ seen' ns ms file rest hnew hclosed hinner hrest ihinner ihrest =>
      have hstar := Lists.enter hnew hclosed hinner (.nil _ _)
      obtain ⟨as, has⟩ := hinner.seen_append
      obtain ⟨bs, hbs⟩ := hrest.seen_append
      have horder₁ : order = seen₁ ++ (bs ++ more) := by rw [horder, hbs, List.append_assoc]
      obtain ⟨hmid, hcollected⟩ := ihinner (consistent_enter hl) horder₁ hwhole havoids
      have hown : file ≠ c → Guarded ps c file → ∀ name ∈ offered ns,
          Elsewhere ps c file name := by
        intro hne hguarded name hname
        refine (hcollected (fun w hw => ⟨hguarded.step hw, ?_⟩) name (mem_offered.1 hname).1).of_file
          hne
        rintro rfl
        obtain ⟨hopen, hnone⟩ := visiting_of_first hl hfirst
          (by rw [horder₁, has, List.append_assoc]) hwhole hnew (Ne.symm hne)
          ⟨hguarded file .refl hw, .single hw⟩
        exact ⟨List.mem_cons_of_mem _ hopen, hnone⟩
      have hleft : Avoids ps c (mid.leave file (offered ns)) := by
        intro v vs hne hguarded hvs
        rw [Listing.names?_leave] at hvs
        split at hvs
        · next he =>
            cases hvs
            subst he
            exact hown hne hguarded
        · exact hmid v vs hne hguarded hvs
      obtain ⟨hl', hnames⟩ := ihrest (hinner.consistent_leave hl) horder
        (hstar.whole hl horder₁ hfirst hwhole) hleft
      refine ⟨hl', fun hcs name hname => ?_⟩
      rcases List.mem_append.1 hname with hname | hname
      · obtain ⟨hguarded, hc⟩ := hcs file (by simp)
        have hne : file ≠ c := fun he => hclosed (he ▸ (hc he).1)
        exact .inr ⟨file, by simp, hown hne hguarded name hname⟩
      · refine (hnames (fun w hw => ?_) name hname).cons _
        obtain ⟨hguarded, hc⟩ := hcs w (by simp [hw])
        refine ⟨hguarded, fun he => ?_⟩
        obtain ⟨hopen, hnone⟩ := hc he
        rw [hstar.visiting_eq, hstar.names?_eq (.inl hopen)]
        exact ⟨hopen, hnone⟩

/-! ## Complete lists -/

section Complete

variable {order : List String} {file : String}

theorem isSome_of_mem_order (h : Lists ps .fresh [] cs ns l order) {v : String} (hv : v ∈ order) :
    (l.names? v).isSome := by
  obtain ⟨given, hg⟩ := h.consistent ⟨_, agrees_fresh⟩
  refine ((hg.seen_iff v).1 hv).resolve_right ?_
  rw [h.visiting_eq]
  simp [Listing.fresh]

theorem mem_order_of_reaches (h : Lists ps .fresh [] cs ns l order) {v w : String}
    (hv : v ∈ order) (hw : Reaches ps v w) : w ∈ order := by
  obtain ⟨raw, hdone⟩ := h.done ⟨_, agrees_fresh⟩
  exact hdone.mem_of_reaches hv hw

theorem sound_of_fresh (h : Lists ps .fresh [] cs ns l order) : Sound ps l :=
  h.sound ⟨_, agrees_fresh⟩ (by simp [Listing.fresh])
    ⟨by simp [Listing.fresh, Listing.names?], by simp [Listing.fresh, Listing.names?]⟩

theorem covers_of_first (h : Lists ps .fresh [] cs ns l order) {c v : String} (hv : v ∈ order)
    (hvc : SameCycle ps v c) (hfirst : First ps order c) : l.Covers c v :=
  h.first_covers ⟨_, agrees_fresh⟩ (List.append_nil order).symm hfirst (by simp)
    (h.mem_order_of_reaches hv hvc.1) ⟨hvc.2, hvc.1⟩

/-- Every cycle has a first file. -/
theorem exists_first (ps : String → List Contribution) (order : List String) (v : String) :
    ∃ c, SameCycle ps v c ∧ First ps order c := by
  classical
  have hex : ∃ n, ∃ c, SameCycle ps v c ∧ order.idxOf c = n := ⟨_, v, ⟨.refl, .refl⟩, rfl⟩
  obtain ⟨c, hc, hn⟩ := Nat.find_spec hex
  refine ⟨c, hc, fun d hd => ?_⟩
  rw [hn]
  exact Nat.find_min' hex ⟨d, ⟨hc.1.trans hd.1, hd.2.trans hc.2⟩, rfl⟩

/-- A file that comes to every cycle at its first file keeps all that these keep. The induction is
on how many files reach the cycle. -/
theorem covers_of_entersFirst (h : Lists ps .fresh [] cs ns l order) (hfile : file ∈ order)
    (henters : EntersFirst ps order file) {c : String} (hc : Reaches ps file c)
    (hfirst : First ps order c) : l.Covers file c := by
  classical
  induction hn : (order.toFinset.filter fun u => Reaches ps u c).card
    using Nat.strong_induction_on generalizing c with
  | _ n ih =>
      rcases henters c hc hfirst with rfl | ⟨x, hx, hxc, hout⟩
      · exact Listing.covers_self (h.isSome_of_mem_order hfile)
      · obtain ⟨y, hxy, hy⟩ := exists_first ps order x
        have hxmem := h.mem_order_of_reaches hfile hx
        have hfewer : (order.toFinset.filter fun u => Reaches ps u y).card < n := by
          rw [← hn]
          refine Finset.card_lt_card ⟨fun u hu => ?_, fun hsub => ?_⟩
          · rw [Finset.mem_filter] at hu ⊢
            exact ⟨hu.1, (hu.2.trans hxy.2).tail hxc⟩
          · have hcy := hsub (Finset.mem_filter.2
              ⟨List.mem_toFinset.2 (h.mem_order_of_reaches hfile hc), .refl⟩)
            exact hout ((Finset.mem_filter.1 hcy).2.trans hxy.2)
        have hcover := ih _ hfewer (hx.trans hxy.1) hy rfl
        have hyx : l.Covers y x := h.covers_of_first hxmem hxy hy
        have hxcover : l.Covers x c := (h.sound_of_fresh.reexported x c
          (h.isSome_of_mem_order hxmem) hxc).resolve_right hout
        exact (hcover.trans hyx).trans hxcover

/-- A file that comes to every cycle at its first file keeps the names of all files it reaches. -/
theorem mem_kept_of_entersFirst (h : Lists ps .fresh [] cs ns l order) (hfile : file ∈ order)
    (henters : EntersFirst ps order file) {v name : String} (hv : Reaches ps file v)
    (hname : Declares ps v name) (himp : isImportable name = true) :
    ∃ ms, l.names? file = some ms ∧ name ∈ ms := by
  obtain ⟨c, hvc, hc⟩ := exists_first ps order v
  have hcv : l.Covers c v := h.covers_of_first (h.mem_order_of_reaches hfile hv) hvc hc
  obtain ⟨ms, vs, hms, hvs, hsub⟩ :=
    (h.covers_of_entersFirst hfile henters (hv.trans hvc.1) hc).trans hcv
  exact ⟨ms, hms, hsub name (h.sound_of_fresh.declared v vs name hvs hname himp)⟩

/-- A file that comes to some cycle only at other files than the first keeps no name that only the
first file declares. -/
theorem kept_elsewhere (h : Lists ps .fresh [] cs ns l order)
    (henters : ¬ EntersFirst ps order file) :
    ∃ c, Reaches ps file c ∧ c ≠ file ∧ ∀ ms, l.names? file = some ms → ∀ name ∈ ms,
      ∃ u, u ≠ c ∧ Reaches ps file u ∧ Declares ps u name := by
  unfold EntersFirst at henters
  push Not at henters
  obtain ⟨c, hc, hfirst, hne, hguarded⟩ := henters
  have havoids : Avoids ps c l := (h.avoids ⟨_, agrees_fresh⟩ (List.append_nil order).symm
    hfirst (by simp [Whole, Listing.fresh, Listing.names?])
    (by simp [Avoids, Listing.fresh, Listing.names?])).1
  exact ⟨c, hc, hne, fun ms hms => havoids file ms (Ne.symm hne) hguarded hms⟩

end Complete

end Lists

end ImportAssist
