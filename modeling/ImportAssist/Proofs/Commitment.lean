import ImportAssist.Proofs.Decision
import ImportAssist.Proofs.Splice
import ImportAssist.Session.Session

/-!
# Dismissed and committed imports

An addition that the user dismisses comes to nothing, and one that comes to edits hands them over
once. For every transcript, `add_outcome` says that the outcome is `cancelled` exactly if a request
was dismissed, and that it is without edits exactly if it is `cancelled` or `alreadyImported`.

A session plays the dialogue with its front and then calls its desk. `FrontRecords` and `DeskRecords`
say that both keep records in the state `W` of the host, whatever else they do there, and
`addImport_commits` reads off those records what was asked and what was called for.
-/

namespace ImportAssist

/-! ## Dismissals -/

/-- The user has dismissed a choice, or the question whether to replace a binding. -/
@[simp] def Exchange.IsDismissal : Exchange → Prop
  | .select _ _ answer => answer = none ∨ answer = some ""
  | .confirmReplace _ answer => answer = none
  | _ => False

def Dismissed (log : List Exchange) : Prop := ∃ exchange ∈ log, exchange.IsDismissal

@[simp] theorem dismissed_nil : ¬Dismissed [] := by simp [Dismissed]

@[simp] theorem dismissed_append {front back : List Exchange} :
    Dismissed (front ++ back) ↔ Dismissed front ∨ Dismissed back := by
  simp only [Dismissed, List.mem_append, or_and_right, exists_or]

@[simp] theorem dismissed_cons {exchange : Exchange} {log : List Exchange} :
    Dismissed (exchange :: log) ↔ exchange.IsDismissal ∨ Dismissed log := by
  simp [Dismissed]

namespace Synthesizer

variable {s : Synthesizer} {d : Document} {found : List Import} {log : List Exchange}

theorem Chosen.dismissed_iff {name path : String} {exported : List String} {decision : Decision}
    (h : Chosen name path exported log decision) : Dismissed log ↔ decision = .stop .cancelled := by
  cases h with
  | only _ => simp
  | dismissed hanswer => simp [hanswer]
  | everything => simp [Synthesizer.everything]
  | named hempty _ => simp [hempty]

theorem decideForm_dismissed {c : FileCandidate} {name path : String} {decision : Decision}
    (h : (s.decideForm d found c name path).Plays log (.ok decision)) :
    Dismissed log ↔ decision = .stop .cancelled := by
  cases decideForm_decided h with
  | byDefault => simp
  | whole => simp
  | own _ hchosen => exact hchosen.dismissed_iff
  | through _ hchosen => exact hchosen.dismissed_iff
  | indexed _ _ => simp

/-! ## Outcomes -/

/-- What an addition may end in, given whether a request was dismissed: there is nothing to do, or
there are edits, or the user has called it off. -/
def Concludes (dismissed : Prop) : Outcome → Prop
  | .inserted edits => edits ≠ [] ∧ ¬dismissed
  | .merged _ => ¬dismissed
  | .alreadyImported _ _ => ¬dismissed
  | .cancelled => dismissed

theorem merge_concludes {source : Bytes} {statement : Node} {binding : Binding} {path : String} :
    Concludes (Dismissed []) (merge source statement binding path) := by
  simp only [merge]
  repeat' split
  all_goals exact dismissed_nil

theorem insert_concludes {binding : Binding} {path : String} {o : Outcome}
    (h : (s.insert d found binding path).Plays log (.ok o)) : Concludes (Dismissed log) o := by
  simp only [insert] at h
  split at h
  · obtain ⟨rfl, ho⟩ := Dialogue.plays_done h
    simp [Except.ok.inj ho, Concludes]
  · cases h with
    | @confirmReplace _ _ answer _ _ h =>
        cases answer with
        | none =>
            obtain ⟨rfl, ho⟩ := Dialogue.plays_done h
            simp [Except.ok.inj ho, Concludes]
        | some replace =>
            cases replace with
            | false =>
                obtain ⟨rfl, ho⟩ := Dialogue.plays_done h
                simp [Except.ok.inj ho, Concludes]
            | true =>
                obtain ⟨rfl, ho⟩ := Dialogue.plays_done h
                simp [Except.ok.inj ho, Concludes]

theorem carryOut_concludes {binding : Binding} {path : String} {o : Outcome}
    (h : (s.carryOut d found (.bind binding path)).Plays log (.ok o)) :
    Concludes (Dismissed log) o := by
  simp only [carryOut] at h
  split at h
  · exact insert_concludes h
  · split at h
    · obtain ⟨rfl, ho⟩ := Dialogue.plays_done h
      rw [Except.ok.inj ho]
      exact merge_concludes
    · obtain ⟨rfl, ho⟩ := Dialogue.plays_done h
      rw [Except.ok.inj ho]
      exact dismissed_nil

theorem addModule_concludes {c : FileCandidate} {o : Outcome}
    (h : (s.addModule d found c).Plays log (.ok o)) : Concludes (Dismissed log) o := by
  obtain ⟨⟨name, path⟩, -, h⟩ := Dialogue.plays_ofExcept_bind h
  obtain ⟨decision, front, back, hdecision, hcarried, rfl⟩ := Dialogue.plays_bind h
  have hdismissed := decideForm_dismissed hdecision
  cases decision with
  | bind binding path =>
      have hkept : ¬Dismissed front := by simp [hdismissed]
      simpa [hkept] using carryOut_concludes hcarried
  | stop outcome =>
      obtain ⟨rfl, ho⟩ := Dialogue.plays_done hcarried
      rw [Except.ok.inj ho, List.append_nil]
      rcases decideForm_stop hdecision with rfl | ⟨duplicate, focus, rfl⟩
      · exact hdismissed.mpr rfl
      · intro hfront
        cases hdismissed.mp hfront

theorem addAsset_concludes {c : FileCandidate} {o : Outcome}
    (h : (s.addAsset d found c).Plays log (.ok o)) : Concludes (Dismissed log) o := by
  obtain ⟨⟨name, path⟩, -, h⟩ := Dialogue.plays_ofExcept_bind h
  dsimp only at h
  split at h
  · split at h
    · obtain ⟨rfl, rfl⟩ := Dialogue.plays_pure h
      exact dismissed_nil
    · obtain ⟨rfl, rfl⟩ := Dialogue.plays_pure h
      exact ⟨List.cons_ne_nil _ _, dismissed_nil⟩
  · obtain ⟨rfl, rfl⟩ := Dialogue.plays_pure h
    exact ⟨List.cons_ne_nil _ _, dismissed_nil⟩

theorem addPackage_concludes {p : PackageCandidate} {o : Outcome}
    (h : (s.addPackage d found p).Plays log (.ok o)) : Concludes (Dismissed log) o := by
  simp only [addPackage] at h
  split at h
  · obtain ⟨rfl, rfl⟩ := Dialogue.plays_pure h
    exact dismissed_nil
  · obtain ⟨name, -, h⟩ := Dialogue.plays_ofExcept_bind h
    obtain ⟨rfl, rfl⟩ := Dialogue.plays_pure h
    exact ⟨List.cons_ne_nil _ _, dismissed_nil⟩

theorem add_concludes {c : Candidate} {o : Outcome} (h : (s.add d c).Plays log (.ok o)) :
    Concludes (Dismissed log) o := by
  unfold add addAmong at h
  split at h
  · exact addPackage_concludes h
  · split at h
    · exact addModule_concludes h
    · exact addAsset_concludes h

end Synthesizer

/-- Whether there is nothing to do because the import is there. -/
def Outcome.IsDuplicate (o : Outcome) : Prop := ∃ duplicate focus, o = .alreadyImported duplicate focus

/-- For every candidate and however the requests are answered: an outcome without edits is a
duplicate or cancelled, and it is cancelled exactly if a request was dismissed. -/
theorem add_outcome {s : Synthesizer} {d : Document} {c : Candidate} {log : List Exchange}
    {o : Outcome} (h : (s.add d c).Plays log (.ok o)) :
    (o.edits = [] ↔ o.IsDuplicate ∨ o = .cancelled) ∧ (Dismissed log ↔ o = .cancelled) := by
  have hconcludes := Synthesizer.add_concludes h
  cases o with
  | inserted edits => simp_all [Synthesizer.Concludes, Outcome.edits, Outcome.IsDuplicate]
  | merged edit => simp_all [Synthesizer.Concludes, Outcome.edits, Outcome.IsDuplicate]
  | alreadyImported duplicate focus =>
      simp_all [Synthesizer.Concludes, Outcome.edits, Outcome.IsDuplicate]
  | cancelled => simp_all [Synthesizer.Concludes, Outcome.edits]

/-! ## Acting in a session -/

open Session (Acting Front Desk)

section

variable {W α β : Type} {before after : Session × W}

/-- Acting in a session takes the session and its host from one state to another. -/
def Acts (x : Acting (StateM W) α) (before : Session × W) (result : Except Failure α)
    (after : Session × W) : Prop :=
  ((x.run.run before.1).run before.2).run = ((result, after.1), after.2)

theorem acts_pure {a b : α} (h : Acts (pure a) before (.ok b) after) : b = a ∧ after = before := by
  obtain ⟨s, w⟩ := before
  obtain ⟨s', w'⟩ := after
  cases h
  exact ⟨rfl, rfl⟩

theorem acts_bind {x : Acting (StateM W) α} {f : α → Acting (StateM W) β} {b : β}
    (h : Acts (x >>= f) before (.ok b) after) :
    ∃ a between, Acts x before (.ok a) between ∧ Acts (f a) between (.ok b) after := by
  rcases hx : ((x.run.run before.1).run before.2).run with ⟨⟨result, s⟩, w⟩
  simp only [Acts, ExceptT.run_bind, StateT.run_bind, Id.run_bind, hx] at h
  cases result with
  | error failure => cases h
  | ok a => exact ⟨a, (s, w), hx, h⟩

/-- A failure that is passed over leaves what had been done. -/
theorem acts_tryCatch {x : Acting (StateM W) Unit}
    (h : Acts (tryCatch x fun _ => pure ()) before (.ok ()) after) :
    ∃ result, Acts x before result after := by
  rcases hx : ((x.run.run before.1).run before.2).run with ⟨⟨result, s⟩, w⟩
  refine ⟨result, hx.trans ?_⟩
  simp only [Acts, tryCatch, tryCatchThe, MonadExceptOf.tryCatch, ExceptT.tryCatch, ExceptT.run_mk,
    StateT.run_bind, Id.run_bind] at h
  change (StateT.run (StateT.run x before.1) before.2).run = _ at hx
  rw [hx] at h
  cases result with
  | ok _ => cases h; rfl
  | error _ => cases h; rfl

/-- The files of an index are no business of the host. -/
theorem acts_indexedFiles {language : Language} {files : List FileCandidate}
    (h : Acts (Session.indexedFiles language) before (.ok files) after) : after.2 = before.2 := by
  obtain ⟨s, w⟩ := before
  obtain ⟨s', w'⟩ := after
  obtain ⟨_, ⟨_, _⟩, hget, h⟩ := acts_bind h
  cases hget
  dsimp only at h
  split at h
  · exact (Prod.mk.inj (acts_pure h).2).2
  · split at h
    · cases h
    · obtain ⟨_, ⟨_, _⟩, hset, h⟩ := acts_bind h
      cases hset
      exact (Prod.mk.inj (acts_pure h).2).2

end

/-! ## Records of a host -/

/-- What a desk is called for. -/
inductive Call where
  | notice (notice : Notice)
  | apply (edits : List Edit)
  | tidy (path : String)

/-- The edits that are handed over. -/
def Call.edits? : Call → Option (List Edit)
  | .apply edits => some edits
  | _ => none

/-- The file that is tidied up. -/
def Call.path? : Call → Option String
  | .tidy path => some path
  | _ => none

/-- What an outcome calls for. -/
def Outcome.calls (d : Document) (o : Outcome) : List Call :=
  o.notices.map .notice ++ if o.edits = [] then [] else [.apply o.edits, .tidy d.path]

theorem Outcome.calls_of_edits {d : Document} {o : Outcome} (h : o.edits ≠ []) :
    o.calls d = [.apply o.edits, .tidy d.path] := by
  cases o <;> simp_all [calls, notices, Outcome.edits]

theorem Outcome.calls_of_no_edits {d : Document} {o : Outcome} (h : o.edits = []) :
    o.calls d = o.notices.map .notice := by
  simp [calls, h]

theorem Outcome.calls_spec (d : Document) (o : Outcome) :
    (o.calls d).filterMap Call.edits? = (if o.edits = [] then [] else [o.edits]) ∧
      (o.calls d).filterMap Call.path? = (if o.edits = [] then [] else [d.path]) ∧
      ((∃ notice, .notice notice ∈ o.calls d) ↔ o.IsDuplicate) := by
  by_cases hedits : o.edits = []
  · rw [calls_of_no_edits hedits, if_pos hedits, if_pos hedits]
    cases o <;> simp_all [notices, IsDuplicate, Call.edits?, Call.path?, Outcome.edits]
  · rw [calls_of_edits hedits, if_neg hedits, if_neg hedits]
    refine ⟨rfl, rfl, ?_⟩
    cases o <;> simp_all [IsDuplicate, Outcome.edits]

/-- What a host has been asked, with its answers, and what it has been called for. -/
structure Record (W : Type) where
  asked : W → List Exchange
  called : W → List Call

namespace Record

variable {W : Type}

/-- From one state of the host to the next, it has been asked and called for this and no more. -/
def Grows (record : Record W) (before after : Session × W) (asked : List Exchange)
    (called : List Call) : Prop :=
  record.asked after.2 = record.asked before.2 ++ asked ∧
    record.called after.2 = record.called before.2 ++ called

variable {record : Record W} {before between after : Session × W}

theorem grows_of_eq (h : after.2 = before.2) : record.Grows before after [] [] := by
  simp [Grows, h]

theorem Grows.trans {asked asked' : List Exchange} {called called' : List Call}
    (h : record.Grows before between asked called) (h' : record.Grows between after asked' called') :
    record.Grows before after (asked ++ asked') (called ++ called') := by
  simp only [Grows] at h h' ⊢
  rw [h'.1, h.1, h'.2, h.2, List.append_assoc, List.append_assoc]
  exact ⟨rfl, rfl⟩

end Record

/-- A front that keeps a record of its answers. -/
structure FrontRecords {W : Type} (record : Record W) (front : Front (StateM W)) : Prop where
  select : ∀ {items placeholder answer before after},
    Acts (front.select items placeholder) before (.ok answer) after →
      record.Grows before after [.select items placeholder answer] []
  confirmReplace : ∀ {identifier answer before after},
    Acts (front.confirmReplace identifier) before (.ok answer) after →
      record.Grows before after [.confirmReplace identifier answer] []
  isCancelled : ∀ {answer before after},
    Acts front.isCancelled before (.ok answer) after → record.Grows before after [] []

/-- A desk with an applier and a linter that keeps a record of its calls, those included that the
linter fails in. -/
structure DeskRecords {W : Type} (record : Record W) (desk : Desk (StateM W)) : Prop where
  notify : ∀ {notice before after}, Acts (desk.notify notice) before (.ok ()) after →
    record.Grows before after [] [.notice notice]
  applier : ∃ apply, desk.applier = some apply ∧ ∀ {edits before after},
    Acts (apply edits) before (.ok ()) after → record.Grows before after [] [.apply edits]
  linter : ∃ lint, desk.linter = some lint ∧ ∀ {path result before after},
    Acts (lint path) before result after → record.Grows before after [] [.tidy path]

section

variable {W α : Type} {record : Record W} {front : Front (StateM W)} {desk : Desk (StateM W)}
  {before after : Session × W}

/-- What the front has recorded is the transcript of the dialogue, but for requests that do not
concern the user. -/
theorem acts_run (hfront : FrontRecords record front) (language : Language) :
    ∀ {x : Dialogue α} {before after : Session × W} {a : α},
      Acts (x.run (front.host language)) before (.ok a) after →
      ∃ log asked, x.Plays log (.ok a) ∧ record.Grows before after asked [] ∧
        (Dismissed log ↔ Dismissed asked)
  | .done a, _, _, _, h => by
      obtain ⟨rfl, rfl⟩ := acts_pure h
      exact ⟨[], [], .done _, Record.grows_of_eq rfl, Iff.rfl⟩
  | .failed _, _, _, _, h => by
      cases h
  | .select items placeholder next, _, _, _, h => by
      obtain ⟨answer, _, hanswer, h⟩ := acts_bind h
      obtain ⟨log, asked, hplays, hgrows, hiff⟩ := acts_run hfront language h
      refine ⟨_, _, .select hplays, (hfront.select hanswer).trans hgrows, ?_⟩
      rw [List.singleton_append, dismissed_cons, dismissed_cons, hiff]
  | .confirmReplace identifier next, _, _, _, h => by
      obtain ⟨answer, _, hanswer, h⟩ := acts_bind h
      obtain ⟨log, asked, hplays, hgrows, hiff⟩ := acts_run hfront language h
      refine ⟨_, _, .confirmReplace hplays, (hfront.confirmReplace hanswer).trans hgrows, ?_⟩
      rw [List.singleton_append, dismissed_cons, dismissed_cons, hiff]
  | .files next, _, _, _, h => by
      obtain ⟨answer, _, hanswer, h⟩ := acts_bind h
      obtain ⟨log, asked, hplays, hgrows, hiff⟩ := acts_run hfront language h
      have hkept : record.Grows _ _ [] [] := Record.grows_of_eq (acts_indexedFiles hanswer)
      exact ⟨_, _, .files hplays, hkept.trans hgrows, by simpa using hiff⟩
  | .isCancelled next, _, _, _, h => by
      obtain ⟨answer, _, hanswer, h⟩ := acts_bind h
      obtain ⟨log, asked, hplays, hgrows, hiff⟩ := acts_run hfront language h
      exact ⟨_, _, .isCancelled hplays, (hfront.isCancelled hanswer).trans hgrows, by simpa using hiff⟩

theorem acts_tell (hdesk : DeskRecords record desk) :
    ∀ {notices : List Notice} {before after : Session × W},
      Acts (desk.tell notices) before (.ok ()) after →
      record.Grows before after [] (notices.map .notice)
  | [], _, _, h => Record.grows_of_eq (congrArg Prod.snd (acts_pure h).2)
  | notice :: notices, _, _, h => by
      obtain ⟨_, _, hnotice, h⟩ := acts_bind h
      exact (hdesk.notify hnotice).trans (acts_tell hdesk h)

theorem acts_commit (hdesk : DeskRecords record desk) {d : Document} {edits : List Edit}
    (h : Acts (desk.commit d edits) before (.ok ()) after) :
    record.Grows before after [] (if edits = [] then [] else [.apply edits, .tidy d.path]) := by
  obtain ⟨apply, happlier, hrecords⟩ := hdesk.applier
  obtain ⟨lint, hlinter, htidies⟩ := hdesk.linter
  simp only [Desk.commit, happlier] at h
  cases edits with
  | nil => exact Record.grows_of_eq (congrArg Prod.snd (acts_pure h).2)
  | cons edit edits =>
      obtain ⟨_, _, happlied, h⟩ := acts_bind h
      simp only [Desk.tidy, hlinter] at h
      obtain ⟨result, h⟩ := acts_tryCatch h
      exact (hrecords happlied).trans (htidies h)

/-- Planning an addition asks, and calls for nothing. -/
theorem acts_planImport (hfront : FrontRecords record front) {d : Document} {c : Candidate}
    {outcome : Outcome}
    (h : Acts (Session.planImport front d c) before (.ok (some outcome)) after) :
    ∃ (s : Synthesizer) (log asked : List Exchange), (s.add d c).Plays log (.ok outcome) ∧
      record.Grows before after asked [] ∧ (Dismissed log ↔ Dismissed asked) := by
  obtain ⟨s, ⟨_, _⟩, hget, h⟩ := acts_bind h
  cases hget
  dsimp only at h
  split at h
  · cases (acts_pure h).1
  · rename_i plugin _
    obtain ⟨_, ⟨_, _⟩, hset, h⟩ := acts_bind h
    cases hset
    obtain ⟨o, _, hrun, h⟩ := acts_bind h
    obtain ⟨ho, rfl⟩ := acts_pure h
    cases ho
    obtain ⟨log, asked, hplays, hgrows, hiff⟩ := acts_run hfront plugin.language hrun
    exact ⟨_, log, asked, hplays, hgrows, hiff⟩

end

/-- A session that adds an import, with any front and any desk that keep records. What has been asked
tells whether the outcome is `cancelled`. The applier and the linter are called once each if there are
edits, and not at all otherwise; and there is a notice exactly for a duplicate. -/
theorem addImport_commits {W : Type} {record : Record W} {front : Front (StateM W)}
    {desk : Desk (StateM W)} (hfront : FrontRecords record front) (hdesk : DeskRecords record desk)
    {d : Document} {c : Candidate} {outcome : Outcome} {before after : Session × W}
    (h : Acts (Session.addImport front desk d c) before (.ok (some outcome)) after) :
    (outcome.edits = [] ↔ outcome.IsDuplicate ∨ outcome = .cancelled) ∧
      ∃ asked called, record.Grows before after asked called ∧
        (Dismissed asked ↔ outcome = .cancelled) ∧
        called.filterMap Call.edits? = (if outcome.edits = [] then [] else [outcome.edits]) ∧
        called.filterMap Call.path? = (if outcome.edits = [] then [] else [d.path]) ∧
        ((∃ notice, .notice notice ∈ called) ↔ outcome.IsDuplicate) := by
  obtain ⟨planned, _, hplan, h⟩ := acts_bind h
  cases planned with
  | none => cases (acts_pure h).1
  | some o =>
      obtain ⟨_, _, htell, h⟩ := acts_bind h
      obtain ⟨_, _, hcommit, h⟩ := acts_bind h
      obtain ⟨ho, rfl⟩ := acts_pure h
      cases ho
      obtain ⟨s, log, asked, hplays, hgrows, hiff⟩ := acts_planImport hfront hplan
      obtain ⟨hedits, hcancelled⟩ := add_outcome hplays
      refine ⟨hedits, asked, outcome.calls d, ?_, hiff.symm.trans hcancelled, ?_⟩
      · have hrecorded := (hgrows.trans (acts_tell hdesk htell)).trans (acts_commit hdesk hcommit)
        simpa [Outcome.calls] using hrecorded
      · exact outcome.calls_spec d

/-! ## A linter that fails -/

/-- A host that remembers what it was asked and called for. -/
abbrev Memory := List Exchange × List Call

namespace Memory

def record : Record Memory := ⟨Prod.fst, Prod.snd⟩

def note (asked : List Exchange) (called : List Call) : Acting (StateM Memory) Unit :=
  ExceptT.lift (StateT.lift (modify fun (asked', called') => (asked' ++ asked, called' ++ called)))

/-- One who chooses the last item and leaves bindings alone. -/
def front : Front (StateM Memory) where
  select items placeholder := do
    note [.select items placeholder items.getLast?] []
    return items.getLast?
  confirmReplace identifier := do
    note [.confirmReplace identifier (some false)] []
    return some false
  isCancelled := return false

def desk : Desk (StateM Memory) where
  notify notice := note [] [.notice notice]
  applier := some fun edits => note [] [.apply edits]
  linter := some fun path => do
    note [] [.tidy path]
    throw .notUtf8

theorem front_records : FrontRecords record front where
  select := by
    rintro items placeholder answer ⟨s, w⟩ ⟨s', w'⟩ h
    cases h
    exact ⟨rfl, rfl⟩
  confirmReplace := by
    rintro identifier answer ⟨s, w⟩ ⟨s', w'⟩ h
    cases h
    exact ⟨rfl, rfl⟩
  isCancelled := by
    rintro answer ⟨s, w⟩ ⟨s', w'⟩ h
    cases h
    exact Record.grows_of_eq rfl

theorem desk_records : DeskRecords record desk where
  notify := by
    rintro notice ⟨s, w⟩ ⟨s', w'⟩ h
    cases h
    exact ⟨rfl, rfl⟩
  applier := by
    refine ⟨_, rfl, ?_⟩
    rintro edits ⟨s, w⟩ ⟨s', w'⟩ h
    cases h
    exact ⟨rfl, rfl⟩
  linter := by
    refine ⟨_, rfl, ?_⟩
    rintro path result ⟨s, w⟩ ⟨s', w'⟩ h
    cases h
    exact ⟨rfl, rfl⟩

end Memory

/-- A workspace with a module of two exports. -/
def twoExports : Session :=
  .create { cwd := "/ws", entries := [(["ws"], .directory),
    (["ws", "b.js"], .file (Utf8.encode "export const p = 1, q = 2;"))] } "/ws" {}

def twoExportsCandidate : Candidate := .file (.create "/ws" "/ws" {} .javascript "/ws/b.js")

def plainDocument : Document := ⟨"/ws/app.js", "run()\n", "javascript", 0⟩

def chosenEdits : List Edit := [.insert 0 "import \x7b q \x7d from './b'\n"]

/-- Adds the module with a front that chooses the last export. -/
def addChosen : Acting (StateM Memory) (Option Outcome) :=
  Session.addImport Memory.front Memory.desk plainDocument twoExportsCandidate

/-- The choice is answered, the edits are applied once, and the linter is called once, if in vain. -/
theorem chosen_export_commits :
    ∃ after, Acts addChosen (twoExports, ([], [])) (.ok (some (.inserted chosenEdits))) after ∧
      ∃ asked called, Memory.record.Grows (twoExports, ([], [])) after asked called ∧
        ¬Dismissed asked ∧ called.filterMap Call.edits? = [chosenEdits] ∧
        called.filterMap Call.path? = ["/ws/app.js"] := by
  have hrun : (((addChosen.run.run twoExports).run ([], [])).run.1.1).toOption =
      some (some (.inserted chosenEdits)) := by decide +kernel
  rcases hx : ((addChosen.run.run twoExports).run ([], [])).run with ⟨⟨result, s⟩, w⟩
  rw [hx] at hrun
  cases result with
  | error failure => cases hrun
  | ok outcome =>
      cases hrun
      have hacts : Acts addChosen (twoExports, ([], [])) (.ok (some (.inserted chosenEdits))) (s, w) :=
        hx
      obtain ⟨-, asked, called, hgrows, hasked, hedits, htidied, -⟩ :=
        addImport_commits Memory.front_records Memory.desk_records hacts
      refine ⟨(s, w), hacts, asked, called, hgrows, ?_, hedits, htidied⟩
      simp [hasked]

end ImportAssist
