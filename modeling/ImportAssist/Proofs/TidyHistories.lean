import ImportAssist.Proofs.Ranks
import ImportAssist.Proofs.SessionFrames

/-!
# Tidy histories

A history is tidy if it has each identity once and no more of them than the limit. Three operations of a session
write histories: an addition, which notes what it adds, however it ends (`addImport_recency`); taking over stored
histories; and new settings, which may have another limit. The first always leaves histories tidy. The second cuts
what it takes over to the limit, but lets repeats in, and the third cuts nothing. `histories_tidy_iff` is the exact
condition for all histories of a run to be tidy, `Suits` for each of its operations; and candidates are ranked as they
should be exactly by histories without repeats.

`performs_tidy` is what one operation preserves; the run follows by induction on `Passes`.
-/

namespace ImportAssist

open Session (Acting Front Desk)

/-! ## Actions that leave the histories alone -/

section

variable {W α : Type}

/-- However it ends, an action leaves the histories as they are. -/
def KeepsHistories (x : Acting (StateM W) α) : Prop :=
  ∀ before result after, Acts x before result after → after.1.recency = before.1.recency

/-- A front that leaves the histories alone. -/
structure FrontKeeps (front : Front (StateM W)) : Prop where
  select : ∀ items placeholder, KeepsHistories (front.select items placeholder)
  confirmReplace : ∀ identifier, KeepsHistories (front.confirmReplace identifier)
  isCancelled : KeepsHistories front.isCancelled

/-- A desk that leaves the histories alone. -/
structure DeskKeeps (desk : Desk (StateM W)) : Prop where
  notify : ∀ notice, KeepsHistories (desk.notify notice)
  applier : ∀ apply ∈ desk.applier, ∀ edits, KeepsHistories (apply edits)
  linter : ∀ lint ∈ desk.linter, ∀ path, KeepsHistories (lint path)

variable {front : Front (StateM W)} {desk : Desk (StateM W)}

theorem FrontKeeps.spares (h : FrontKeeps front) : FrontSpares Session.recency front :=
  ⟨h.select, h.confirmReplace, h.isCancelled⟩

theorem DeskKeeps.spares (h : DeskKeeps desk) : DeskSpares Session.recency desk :=
  ⟨h.notify, h.applier, h.linter⟩

theorem recency_setPlugin (s : Session) (plugin : Plugin) : (s.setPlugin plugin).recency = s.recency := rfl

end

/-! ## What additions note -/

/-- The histories once a candidate has been noted as used for a document. -/
def Session.noted (s : Session) (d : Document) (c : Candidate) : Recency Json :=
  match s.pluginFor d none with
  | none => s.recency
  | some p => s.recency.mark p.language.name (.str c.id)

section

variable {W : Type} {front : Front (StateM W)} {desk : Desk (StateM W)} {before after : Session × W}
  {d : Document} {c : Candidate} {result : Except Failure (Option Outcome)}

theorem planImport_recency (hfront : FrontKeeps front)
    (h : Acts (Session.planImport front d c) before result after) :
    after.1.recency = before.1.noted d c := by
  replace h := acts_of_get_bind h
  rw [Session.noted]
  cases hplugin : before.1.pluginFor d none with
  | none =>
    rw [hplugin] at h
    exact Keeps.pure none _ _ _ h
  | some p =>
    rw [hplugin] at h
    have hplayed : Keeps Session.recency (do
        return some (← ((p.synthesizer before.1.disk).add d c).run (front.host p.language))) :=
      .bind (hfront.spares.run recency_setPlugin p.language _) fun _ => .pure _
    exact hplayed _ _ _ (acts_of_set_bind h)

/-- An addition notes its candidate as used, however it ends, and does nothing else to the histories. -/
theorem addImport_recency (hfront : FrontKeeps front) (hdesk : DeskKeeps desk)
    (h : Acts (Session.addImport front desk d c) before result after) :
    after.1.recency = before.1.noted d c := by
  obtain ⟨failure, -, h⟩ | ⟨outcome?, between, hplan, h⟩ := acts_bind_cases h
  · exact planImport_recency hfront h
  rw [← planImport_recency hfront hplan]
  cases outcome? with
  | none => exact Keeps.pure none _ _ _ h
  | some outcome =>
    have hrest : Keeps Session.recency (do
        desk.tell outcome.notices
        desk.commit d outcome.edits
        return some outcome) :=
      .bind (hdesk.spares.tell _) fun _ => .bind (hdesk.spares.commit d _) fun _ => .pure _
    exact hrest _ _ _ h

end

/-! ## Operations that write histories -/

/-- What is asked of a session. -/
inductive HistoryOperation where
  | add (d : Document) (c : Candidate)
  /-- Take over the stored histories of some languages. -/
  | load (stored : List (String × List String))
  | reload (config : Config)
  /-- Anything that leaves the histories alone. -/
  | other

/-- Histories as they are stored. -/
def storedHistories (stored : List (String × List String)) : Json :=
  .obj (stored.map fun (language, ids) => (language, .arr (ids.map .str)))

section

variable {W : Type} (front : Front (StateM W)) (desk : Desk (StateM W))

/-- A session with its host, before and after an operation. -/
inductive Performs : Session × W → HistoryOperation → Session × W → Prop
  | add {d : Document} {c : Candidate} {before after : Session × W} {result : Except Failure (Option Outcome)}
      (h : Acts (Session.addImport front desk d c) before result after) : Performs before (.add d c) after
  | load {stored : List (String × List String)} {s : Session} {w : W} (h : (stored.map (·.1)).Nodup) :
      Performs (s, w) (.load stored) ({ s with recency := (s.recency.load (storedHistories stored)).2 }, w)
  | reload {config : Config} {s : Session} {w : W} : Performs (s, w) (.reload config) (s.reload config, w)
  | other {before after : Session × W} (h : after.1.recency = before.1.recency) : Performs before .other after

/-- An operation with the histories in front of it and behind it. -/
structure HistoryStep where
  before : Recency Json
  operation : HistoryOperation
  after : Recency Json

/-- A run of operations. -/
inductive Passes : Session × W → List HistoryStep → Prop
  | nil {start : Session × W} : Passes start []
  | cons {start next : Session × W} {operation : HistoryOperation} {steps : List HistoryStep}
      (h : Performs front desk start operation next) (hrest : Passes next steps) :
      Passes start (⟨start.1.recency, operation, next.1.recency⟩ :: steps)

end

namespace Recency

/-- Each history has every identity once, and no more of them than the limit. -/
def Tidy (r : Recency Json) : Prop :=
  ∀ language, (r.recent language).Nodup ∧ ((r.recent language).length : Int) ≤ r.limit

/-- The limit is not below zero, and the histories hold texts. -/
structure Textual (r : Recency Json) : Prop where
  limit : 0 ≤ r.limit
  texts : ∀ language, ∃ ids : List String, r.recent language = ids.map .str

/-- An operation leaves tidy histories tidy: what it takes over does not repeat itself within the limit, and a new
limit lets all histories in. -/
def Suits (r : Recency Json) : HistoryOperation → Prop
  | .load stored => ∀ e ∈ stored, (sliceTo e.2 r.limit).Nodup
  | .reload config => ∀ language, (r.recent language).length ≤ config.historyLimit
  | .add _ _ | .other => True

/-! ## One operation -/

theorem length_sliceTo_le {α : Type} {limit : Int} (h : 0 ≤ limit) (list : List α) :
    ((sliceTo list limit).length : Int) ≤ limit := by
  obtain ⟨n, rfl⟩ := Int.eq_ofNat_of_zero_le h
  rw [sliceTo_natCast, Int.ofNat_le]
  exact List.length_take_le n list

theorem sliceTo_sublist {α : Type} (list : List α) (limit : Int) : (sliceTo list limit).Sublist list :=
  List.take_sublist _ _

theorem sliceTo_map {α β : Type} (f : α → β) (list : List α) (limit : Int) :
    sliceTo (list.map f) limit = (sliceTo list limit).map f := by
  rw [sliceTo, sliceTo, List.length_map, List.map_take]

section

variable {r : Recency Json} {stored : List (String × List String)}

theorem Textual.mark (h : r.Textual) (language id : String) : (r.mark language (.str id)).Textual where
  limit := h.limit
  texts other := by
    obtain ⟨ids, hids⟩ := h.texts language
    rw [Recency.mark, recent_set, hids, erase_map_str, ← List.map_cons, sliceTo_map]
    split
    case isTrue => exact ⟨_, rfl⟩
    case isFalse => exact h.texts other

theorem Tidy.mark (h : r.Tidy) (ht : r.Textual) (language id : String) : (r.mark language (.str id)).Tidy := by
  intro other
  rw [Recency.mark, recent_set]
  split
  case isFalse => exact h other
  case isTrue =>
    obtain ⟨ids, hids⟩ := ht.texts language
    have hnodup : ids.Nodup := nodup_map_str.mp (hids ▸ (h language).1)
    refine ⟨?_, length_sliceTo_le ht.limit _⟩
    rw [hids, erase_map_str, ← List.map_cons]
    refine (nodup_map_str.mpr ?_).sublist (sliceTo_sublist _ _)
    exact List.nodup_cons.mpr ⟨hnodup.not_mem_erase, hnodup.erase id⟩

theorem load_stored (r : Recency Json) (stored : List (String × List String)) :
    r.load (storedHistories stored) =
      (.ok (), (stored.map fun e => (e.1, e.2.map Json.str)).foldl (fun r (l, h) => r.set l h) r) := by
  have harrays := loadHistories_arrays (stored.map fun e => (e.1, e.2.map Json.str)) r
  rw [List.map_map] at harrays
  exact harrays

/-- What is taken over is cut to the limit and comes in the place of what was there. -/
theorem recent_load (hkeys : (stored.map (·.1)).Nodup) (language : String) :
    (r.load (storedHistories stored)).2.recent language =
      match stored.find? (·.1 == language) with
      | some e => (sliceTo e.2 r.limit).map .str
      | none => r.recent language := by
  have hkeys' : ((stored.map fun e => (e.1, e.2.map Json.str)).map (·.1)).Nodup := by
    rwa [List.map_map]
  rw [load_stored, recent_foldl_set _ _ hkeys', List.find?_map]
  have hsame : ((·.1 == language) ∘ fun e : String × List String => (e.1, e.2.map Json.str)) =
      fun e : String × List String => e.1 == language := rfl
  rw [hsame]
  cases stored.find? (·.1 == language) with
  | none => rfl
  | some e => exact sliceTo_map _ _ _

theorem limit_load (r : Recency Json) (stored : List (String × List String)) :
    (r.load (storedHistories stored)).2.limit = r.limit := by
  rw [load_stored, limit_foldl_set]

theorem Textual.load (h : r.Textual) (hkeys : (stored.map (·.1)).Nodup) :
    (r.load (storedHistories stored)).2.Textual where
  limit := by
    rw [limit_load]
    exact h.limit
  texts language := by
    rw [recent_load hkeys]
    split
    case h_1 => exact ⟨_, rfl⟩
    case h_2 => exact h.texts language

/-- Stored histories are tidy when taken over exactly if what the limit lets in does not repeat itself. -/
theorem Tidy.load (h : r.Tidy) (ht : r.Textual) (hkeys : (stored.map (·.1)).Nodup) :
    (r.load (storedHistories stored)).2.Tidy ↔ r.Suits (.load stored) := by
  constructor
  case mp =>
    intro htidy e he
    have hone := (htidy e.1).1
    rw [recent_load hkeys, find?_of_mem hkeys he] at hone
    exact nodup_map_str.mp hone
  case mpr =>
    intro hsuits language
    rw [recent_load hkeys, limit_load]
    split
    case h_1 e hfind =>
      refine ⟨nodup_map_str.mpr (hsuits e (List.mem_of_find?_eq_some hfind)), ?_⟩
      rw [List.length_map]
      exact length_sliceTo_le ht.limit e.2
    case h_2 => exact h language

theorem Tidy.empty {limit : Int} (h : 0 ≤ limit) : (Recency.empty limit : Recency Json).Tidy := by
  intro language
  exact ⟨.nil, h⟩

theorem Textual.empty {limit : Int} (h : 0 ≤ limit) : (Recency.empty limit : Recency Json).Textual :=
  ⟨h, fun _ => ⟨[], rfl⟩⟩

end

end Recency

section

variable {W : Type} {front : Front (StateM W)} {desk : Desk (StateM W)} {before after : Session × W}
  {operation : HistoryOperation}

theorem noted_cases (s : Session) (d : Document) (c : Candidate) :
    s.noted d c = s.recency ∨ ∃ language, s.noted d c = s.recency.mark language (.str c.id) := by
  rw [Session.noted]
  split
  case h_1 => exact .inl rfl
  case h_2 p _ => exact .inr ⟨p.language.name, rfl⟩

theorem performs_textual (hfront : FrontKeeps front) (hdesk : DeskKeeps desk)
    (h : Performs front desk before operation after) (ht : before.1.recency.Textual) :
    after.1.recency.Textual := by
  cases h with
  | @add d c _ _ _ h =>
      rw [addImport_recency hfront hdesk h]
      obtain hnoted | ⟨language, hnoted⟩ := noted_cases before.1 d c
      · rwa [hnoted]
      · rw [hnoted]
        exact ht.mark language c.id
  | load hkeys => exact ht.load hkeys
  | reload => exact ⟨Int.natCast_nonneg _, ht.texts⟩
  | other h => rwa [h]

/-- An operation on tidy histories leaves them tidy exactly if it suits them. -/
theorem performs_tidy (hfront : FrontKeeps front) (hdesk : DeskKeeps desk)
    (h : Performs front desk before operation after) (ht : before.1.recency.Textual)
    (htidy : before.1.recency.Tidy) : after.1.recency.Tidy ↔ before.1.recency.Suits operation := by
  cases h with
  | @add d c _ _ _ h =>
      refine iff_of_true ?_ trivial
      rw [addImport_recency hfront hdesk h]
      obtain hnoted | ⟨language, hnoted⟩ := noted_cases before.1 d c
      · rwa [hnoted]
      · rw [hnoted]
        exact htidy.mark ht language c.id
  | load hkeys => exact htidy.load ht hkeys
  | @reload config s w =>
      -- The histories are those from before; only the limit is another.
      constructor
      case mp => exact fun h language => Int.ofNat_le.mp (h language).2
      case mpr => exact fun h language => ⟨(htidy language).1, Int.ofNat_le.mpr (h language)⟩
  | other h =>
      rw [h]
      exact iff_of_true htidy trivial

/-! ## Runs -/

theorem passes_textual (hfront : FrontKeeps front) (hdesk : DeskKeeps desk) {start : Session × W}
    {steps : List HistoryStep} (h : Passes front desk start steps) (ht : start.1.recency.Textual) :
    ∀ step ∈ steps, step.after.Textual := by
  induction h with
  | nil =>
      intro step hstep
      cases hstep
  | cons h _ ih =>
      have hnext := performs_textual hfront hdesk h ht
      exact List.forall_mem_cons.mpr ⟨hnext, ih hnext⟩

theorem passes_tidy (hfront : FrontKeeps front) (hdesk : DeskKeeps desk) {start : Session × W}
    {steps : List HistoryStep} (h : Passes front desk start steps) (ht : start.1.recency.Textual)
    (htidy : start.1.recency.Tidy) :
    (∀ step ∈ steps, step.after.Tidy) ↔ ∀ step ∈ steps, step.before.Suits step.operation := by
  induction h with
  | nil => exact iff_of_true (fun _ h => nomatch h) (fun _ h => nomatch h)
  | cons h _ ih =>
      rw [List.forall_mem_cons, List.forall_mem_cons, performs_tidy hfront hdesk h ht htidy]
      refine and_congr_right fun hsuits => ?_
      exact ih (performs_textual hfront hdesk h ht) ((performs_tidy hfront hdesk h ht htidy).mpr hsuits)

/-- All histories of a run from a fresh session are tidy exactly if each operation suits those that it finds, and
recorded candidates come first exactly by a history that has each identity once. -/
theorem histories_tidy_iff (hfront : FrontKeeps front) (hdesk : DeskKeeps desk) {disk : Disk} {root : String}
    {config : Config} {w : W} {steps : List HistoryStep}
    (h : Passes front desk (Session.create disk root config, w) steps) :
    ((∀ step ∈ steps, step.after.Tidy) ↔ ∀ step ∈ steps, step.before.Suits step.operation) ∧
      ∀ step ∈ steps, ∀ language,
        step.after.RecordedFirst language ↔ (step.after.recent language).Nodup := by
  have hlimit : (0 : Int) ≤ config.historyLimit := Int.natCast_nonneg _
  refine ⟨passes_tidy hfront hdesk h (.empty hlimit) (.empty hlimit), ?_⟩
  intro step hstep language
  obtain ⟨ids, hids⟩ := (passes_textual hfront hdesk h (.empty hlimit) step hstep).texts language
  rw [Recency.recordedFirst_iff hids, hids, nodup_map_str]

end

namespace Memory

theorem note_keeps (asked : List Exchange) (called : List Call) : KeepsHistories (note asked called) := by
  rintro ⟨s, w⟩ result ⟨s', w'⟩ h
  cases h
  rfl

theorem front_keeps : FrontKeeps front where
  select _ _ := Keeps.bind (note_keeps _ _) fun _ => .pure _
  confirmReplace _ := Keeps.bind (note_keeps _ _) fun _ => .pure _
  isCancelled := Keeps.pure false

theorem desk_keeps : DeskKeeps desk where
  notify _ := note_keeps _ _
  applier apply happly := by
    cases happly
    exact fun _ => note_keeps _ _
  linter lint hlint := by
    cases hlint
    exact fun _ => Keeps.bind (note_keeps _ _) fun _ => .throw _

end Memory

/-- Two stored entries are taken over, the limit becomes two, and a candidate is added. -/
theorem three_operations_tidy : ∃ steps, Passes Memory.front Memory.desk (twoExports, ([], [])) steps ∧
    steps.map (·.operation) = [.load [("JavaScript", ["/ws/b.js", "/ws/c.js"])],
      .reload { historyLimit := 2 }, .add plainDocument twoExportsCandidate] ∧
    ∀ step ∈ steps, step.after.Tidy ∧ step.after.RecordedFirst "JavaScript" := by
  let stored := [("JavaScript", ["/ws/b.js", "/ws/c.js"])]
  let loaded : Session := { twoExports with
    recency := (twoExports.recency.load (storedHistories stored)).2 }
  rcases hadded : (((Session.addImport Memory.front Memory.desk plainDocument twoExportsCandidate).run.run
    (loaded.reload { historyLimit := 2 })).run ([], [])).run with ⟨⟨result, s⟩, w⟩
  have hkeys : (stored.map (·.1)).Nodup := List.nodup_singleton _
  have hadds : Performs Memory.front Memory.desk (loaded.reload { historyLimit := 2 }, ([], []))
      (.add plainDocument twoExportsCandidate) (s, w) := .add hadded
  have hpasses : Passes Memory.front Memory.desk (twoExports, ([], [])) _ :=
    .cons (.load hkeys) (.cons .reload (.cons hadds .nil))
  obtain ⟨htidy, hfirst⟩ := histories_tidy_iff Memory.front_keeps Memory.desk_keeps hpasses
  have hall := htidy.mpr (by
    refine List.forall_mem_cons.mpr ⟨?_, List.forall_mem_cons.mpr ⟨?_, ?_⟩⟩
    · intro e he
      rw [List.mem_singleton.mp he]
      decide
    · intro language
      rw [Recency.recent_load hkeys]
      cases hfind : stored.find? (·.1 == language) with
      | none => exact Nat.zero_le 2
      | some e =>
          rw [List.mem_singleton.mp (List.mem_of_find?_eq_some hfind)]
          exact Nat.le_refl 2
    · intro step hstep
      rw [List.mem_singleton.mp hstep]
      trivial)
  exact ⟨_, hpasses, rfl, fun step hstep =>
    ⟨hall step hstep, (hfirst step hstep "JavaScript").mpr (hall step hstep "JavaScript").1⟩⟩

/-- Two stored entries outlast a limit of one; and of three stored entries two are the same, so that a candidate
that is not recorded comes before one that is. -/
theorem lowered_limit_untidy :
    (∃ steps, Passes Memory.front Memory.desk (twoExports, ([], [])) steps ∧
      steps.map (·.operation) = [.load [("JavaScript", ["/ws/a.js", "/ws/b.js"])],
        .reload { historyLimit := 1 }] ∧
      ¬∀ step ∈ steps, step.after.Tidy) ∧
    ∃ steps, Passes Memory.front Memory.desk (twoExports, ([], [])) steps ∧
      steps.map (·.operation) = [.load [("JavaScript", ["/ws/c.js", "/ws/c.js", "/ws/b.js"])]] ∧
      ¬∀ step ∈ steps, step.after.RecordedFirst "JavaScript" := by
  have hkeys : ∀ ids : List String, ([("JavaScript", ids)].map (·.1)).Nodup := fun _ => List.nodup_singleton _
  constructor
  · refine ⟨_, .cons (.load (hkeys _)) (.cons .reload .nil), rfl, fun htidy => ?_⟩
    have hkept := (htidy _ (List.mem_cons_of_mem _ List.mem_cons_self) "JavaScript").2
    exact absurd hkept (by decide)
  · refine ⟨_, .cons (.load (hkeys _)) .nil, rfl, fun hfirst => ?_⟩
    have hids : ["/ws/c.js", "/ws/c.js", "/ws/b.js"].Nodup :=
      (Recency.recordedFirst_iff rfl).mp (hfirst _ List.mem_cons_self)
    exact absurd hids (by decide)

end ImportAssist
