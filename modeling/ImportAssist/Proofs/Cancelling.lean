import ImportAssist.Proofs.Attendance

/-!
# Passes that are cut short

Wherever a pass is stopped, it keeps the edits it has made: cancelled at a check, dismissed at a prompt,
or cancelled while a prompt is open, it ends in one and the same report, with nothing asked and
nothing corrected in between (`Dialogue.Keeps`). What it has made at a prompt is therefore what dismissing
that prompt leaves, and a pass that goes on only adds to it (`Keeps.edits_prefix_of_dismissal`).

A pass comes to a result whatever happens at its prompts (`Repairer.fix_attended`). Two passes that get
the same answers up to some point have the same transcript up to there (`attended_split`). Together this
makes a cancelled pass the beginning of each that goes on (`cancelled_prefix_of_continued`).
-/

namespace ImportAssist

/-- A pass that ends since it is stopped. -/
def Repairer.stopped (made : List Edit) (unresolved : List RelativeImport) : Dialogue RepairReport :=
  .done ⟨.cancelled, made, unresolved⟩

open Repairer (stopped Dismisses)

namespace Dialogue

/-- A dialogue that has made some edits and reports these if it is stopped, at a check or a prompt, or
by a check right behind an answered prompt. While it goes on it only adds to them. -/
def Keeps : Dialogue RepairReport → List Edit → Prop
  | .done report, made => report.edits = made
  | .failed _, _ => True
  | .files next, made => ∀ files, ∃ made', made <+: made' ∧ (next files).Keeps made'
  | .isCancelled next, made =>
      (∃ unresolved, next true = stopped made unresolved) ∧ (next false).Keeps made
  | .select _ _ next, made =>
      (∃ unresolved, next none = stopped made unresolved ∧ next (some "") = stopped made unresolved ∧
        ∀ chosen, chosen ≠ "" →
          ∃ after, next (some chosen) = .isCancelled after ∧ after true = stopped made unresolved) ∧
      ∀ reply, (next reply).Keeps made
  | .confirmReplace _ _, _ => False

end Dialogue

/-! ## A pass keeps what it has made -/

namespace Repairer

variable {r : Repairer} {d : Document} {i : RelativeImport} {made : List Edit}

theorem keeps_search {searches : Searches} {next : List String × Searches → Dialogue RepairReport}
    (h : ∀ found, (next found).Keeps made) : (r.search d i searches >>= next).Keeps made := by
  unfold search
  split
  · exact h _
  · intro files
    exact ⟨made, List.prefix_rfl, h _⟩

theorem keeps_redirect {path : String} {next : Edit → Dialogue RepairReport}
    (h : ∀ edit, (next edit).Keeps (made ++ [edit])) : (r.redirect d i path >>= next).Keeps made := by
  rw [redirect_eq]
  intro files
  change ∃ made', made <+: made' ∧ (Dialogue.ofExcept (r.redirected d i path files) >>= next).Keeps made'
  cases r.redirected d i path files with
  | error failure => exact ⟨made, List.prefix_rfl, trivial⟩
  | ok edit => exact ⟨made ++ [edit], List.prefix_append _ _, h edit⟩

theorem sortOut_keeps {next : RepairReport ⊕ Progress → Dialogue RepairReport}
    (hstopped : ∀ report, next (.inl report) = .done report)
    (hnext : ∀ p, (next (.inr p)).Keeps p.edits) :
    ∀ (imports : List RelativeImport) (p : Progress), (r.sortOut d imports p >>= next).Keeps p.edits
  | [], p => hnext p
  | i :: rest, p => by
      unfold sortOut
      refine ⟨⟨p.unresolved, hstopped _⟩, ?_⟩
      change (r.search d i p.searches >>= _ >>= next).Keeps p.edits
      rw [Dialogue.bind_assoc]
      refine keeps_search fun looked => ?_
      obtain ⟨found, searches⟩ := looked
      dsimp only
      split
      · exact sortOut_keeps hstopped hnext rest _
      · rw [Dialogue.bind_assoc]
        exact keeps_redirect fun edit => sortOut_keeps hstopped hnext rest _
      · exact sortOut_keeps hstopped hnext rest _

theorem askEach_keeps : ∀ (imports : List RelativeImport) (p : Progress),
    (r.askEach d imports p).Keeps p.edits
  | [], p => rfl
  | i :: rest, p => by
      unfold askEach
      refine ⟨⟨p.unresolved, rfl⟩, keeps_search fun looked => ?_⟩
      obtain ⟨found, searches⟩ := looked
      refine ⟨⟨p.unresolved, rfl, rfl, fun chosen hchosen => ?_⟩, fun reply => ?_⟩
      · dsimp only
        rw [if_neg hchosen]
        exact ⟨_, rfl, rfl⟩
      · cases reply with
        | none => rfl
        | some chosen =>
            dsimp only
            split
            · rfl
            · refine ⟨⟨p.unresolved, rfl⟩, ?_⟩
              dsimp only
              split
              · trivial
              · exact keeps_redirect fun edit => askEach_keeps rest _

theorem fix_keeps : (r.fix d).Keeps [] := by
  unfold fix
  split
  · rfl
  · exact sortOut_keeps (fun _ => rfl) (fun p => askEach_keeps p.ambiguous p) _ ⟨[], [], [], []⟩

end Repairer

/-! ## What is left of a pass at a prompt -/

namespace Dialogue

variable {x : Dialogue RepairReport} {made : List Edit} {front back : List Exchange}
  {items : List String} {placeholder : String} {reply : Option String} {result : Except Failure RepairReport}

/-- How a pass goes on behind a prompt that ends in a report if it is dismissed: not at all, or with a
check that ends it in the same report. -/
def Follows (report : RepairReport) (reply : Option String) (back : List Exchange)
    (result : Except Failure RepairReport) : Prop :=
  (Dismisses reply ∧ back = [] ∧ result = .ok report) ∨
    (¬ Dismisses reply ∧ ∃ answer rest, back = .isCancelled answer :: rest ∧
      (answer = true → rest = [] ∧ result = .ok report))

/-- Every prompt of a pass could have been dismissed, and what this leaves is what stopping the pass while
the prompt is open leaves. -/
theorem Keeps.follows (hkeeps : x.Keeps made)
    (h : x.Plays (front ++ .select items placeholder reply :: back) result) :
    ∃ report, report.status = .cancelled ∧
      x.Plays (front ++ [.select items placeholder none]) (.ok report) ∧
      Follows report reply back result := by
  induction x generalizing made front with
  | done report => exact absurd (plays_done h).1 (by simp)
  | failed failure =>
      generalize hlog : front ++ _ = log at h
      cases h
      simp at hlog
  | confirmReplace identifier next ih => cases hkeeps
  | files next ih =>
      cases front with
      | nil => nomatch h
      | cons e front =>
          obtain _ | _ | _ | _ | h | _ := h
          obtain ⟨made', -, hkeeps⟩ := hkeeps _
          obtain ⟨report, hstatus, hplays, hfollows⟩ := ih _ hkeeps h
          exact ⟨report, hstatus, .files hplays, hfollows⟩
  | isCancelled next ih =>
      cases front with
      | nil => nomatch h
      | cons e front =>
          obtain _ | _ | _ | _ | _ | @⟨_, answer, _, _, h⟩ := h
          cases answer with
          | true =>
              obtain ⟨⟨unresolved, hstopped⟩, -⟩ := hkeeps
              rw [hstopped] at h
              exact absurd (plays_done h).1 (by simp)
          | false =>
              obtain ⟨report, hstatus, hplays, hfollows⟩ := ih _ hkeeps.2 h
              exact ⟨report, hstatus, .isCancelled hplays, hfollows⟩
  | select items' placeholder' next ih =>
      cases front with
      | nil =>
          obtain _ | _ | h | _ | _ | _ := h
          obtain ⟨⟨unresolved, hnone, hempty, hchosen⟩, -⟩ := hkeeps
          refine ⟨⟨.cancelled, made, unresolved⟩, rfl, .select (hnone ▸ .done _), ?_⟩
          by_cases hdismisses : Dismisses reply
          · have hnext : next reply = stopped made unresolved := by
              rcases hdismisses with rfl | rfl
              · exact hnone
              · exact hempty
            rw [hnext] at h
            obtain ⟨hback, hresult⟩ := plays_done h
            exact .inl ⟨hdismisses, hback, hresult⟩
          · refine .inr ⟨hdismisses, ?_⟩
            cases reply with
            | none => exact absurd (.inl rfl) hdismisses
            | some chosen =>
                obtain ⟨after, hafter, hstopped⟩ :=
                  hchosen chosen fun heq => hdismisses (.inr (congrArg some heq))
                rw [hafter] at h
                obtain _ | _ | _ | _ | _ | @⟨_, answer, rest, _, h⟩ := h
                refine ⟨answer, rest, rfl, ?_⟩
                rintro rfl
                rw [hstopped] at h
                exact plays_done h
      | cons e front =>
          obtain _ | _ | h | _ | _ | _ := h
          obtain ⟨report, hstatus, hplays, hfollows⟩ := ih _ (hkeeps.2 _) h
          exact ⟨report, hstatus, .select hplays, hfollows⟩

/-- The edits of a report start with those that the pass had made at its beginning. -/
theorem Keeps.edits_extend {log : List Exchange} {report : RepairReport} (hkeeps : x.Keeps made)
    (h : x.Plays log (.ok report)) : made <+: report.edits := by
  induction x generalizing made log with
  | done a =>
      obtain ⟨-, hreport⟩ := plays_done h
      cases hreport
      exact (show report.edits = made from hkeeps) ▸ List.prefix_rfl
  | failed failure => cases h
  | confirmReplace identifier next ih => cases hkeeps
  | files next ih =>
      obtain _ | _ | _ | _ | h | _ := h
      obtain ⟨made', hmade, hkeeps⟩ := hkeeps _
      exact hmade.trans (ih _ hkeeps h)
  | isCancelled next ih =>
      obtain _ | _ | _ | _ | _ | @⟨_, answer, _, _, h⟩ := h
      cases answer with
      | true =>
          obtain ⟨⟨unresolved, hstopped⟩, -⟩ := hkeeps
          rw [hstopped] at h
          cases (plays_done h).2
          exact List.prefix_rfl
      | false => exact ih _ hkeeps.2 h
  | select items placeholder next ih =>
      obtain _ | _ | h | _ | _ | _ := h
      exact ih _ (hkeeps.2 _) h

/-- What dismissing a prompt leaves is the beginning of what the pass comes to in the end. -/
theorem Keeps.edits_prefix_of_dismissal {report report' : RepairReport} (hkeeps : x.Keeps made)
    (h : x.Plays (front ++ [.select items placeholder none]) (.ok report))
    (h' : x.Plays (front ++ .select items placeholder reply :: back) (.ok report')) :
    report.edits <+: report'.edits := by
  induction x generalizing made front with
  | done a => exact absurd (plays_done h).1 (by simp)
  | failed failure =>
      generalize hlog : front ++ _ = log at h
      cases h
  | confirmReplace identifier next ih => cases hkeeps
  | files next ih =>
      cases front with
      | nil => nomatch h
      | cons e front =>
          obtain _ | _ | _ | _ | h | _ := h
          obtain _ | _ | _ | _ | h' | _ := h'
          obtain ⟨made', -, hkeeps⟩ := hkeeps _
          exact ih _ hkeeps h h'
  | isCancelled next ih =>
      cases front with
      | nil => nomatch h
      | cons e front =>
          obtain _ | _ | _ | _ | _ | @⟨_, answer, _, _, h⟩ := h
          obtain _ | _ | _ | _ | _ | h' := h'
          cases answer with
          | true =>
              obtain ⟨⟨unresolved, hstopped⟩, -⟩ := hkeeps
              rw [hstopped] at h
              exact absurd (plays_done h).1 (by simp)
          | false => exact ih _ hkeeps.2 h h'
  | select items' placeholder' next ih =>
      cases front with
      | nil =>
          obtain _ | _ | h | _ | _ | _ := h
          obtain _ | _ | h' | _ | _ | _ := h'
          obtain ⟨⟨unresolved, hnone, -, -⟩, hnext⟩ := hkeeps
          rw [hnone] at h
          cases (plays_done h).2
          exact (hnext reply).edits_extend h'
      | cons e front =>
          obtain _ | _ | h | _ | _ | _ := h
          obtain _ | _ | h' | _ | _ | _ := h'
          exact ih _ (hkeeps.2 _) h h'

end Dialogue

/-! ## Passes come to a result -/

/-- Whatever `happens` while each prompt is open, the dialogue comes to a result. -/
theorem Dialogue.Keeps.exists_attended {disk : Disk} {x : Dialogue RepairReport} {made : List Edit}
    (happens : Prompt → Turn) (hkeeps : x.Keeps made) :
    ∀ {index listed : WorkspaceIndex} {files : List FileCandidate} (tripped : Bool),
      index.build disk = .ok (files, listed) →
      ∃ log result, Attended disk index tripped ((prompts log).map happens) log ∧ x.Plays log result := by
  induction x generalizing made with
  | done report => exact fun tripped _ => ⟨[], _, .nil _ _, .done report⟩
  | failed failure => exact fun tripped _ => ⟨[], _, .nil _ _, .failed failure⟩
  | confirmReplace identifier next ih => cases hkeeps
  | files next ih =>
      intro index listed files tripped hbuild
      obtain ⟨made', -, hkeeps⟩ := hkeeps files
      obtain ⟨log, result, hattended, hplays⟩ := ih files hkeeps tripped (build_again hbuild)
      exact ⟨_, result, .files hbuild hattended, .files hplays⟩
  | isCancelled next ih =>
      intro index listed files tripped hbuild
      have hnext : (next tripped).Keeps made := by
        cases tripped with
        | true =>
            obtain ⟨⟨unresolved, hstopped⟩, -⟩ := hkeeps
            rw [hstopped]
            rfl
        | false => exact hkeeps.2
      obtain ⟨log, result, hattended, hplays⟩ := ih tripped hnext tripped hbuild
      exact ⟨_, result, .isCancelled hattended, .isCancelled hplays⟩
  | select items placeholder next ih =>
      intro index listed files tripped hbuild
      let turn := happens ⟨items, placeholder⟩
      obtain ⟨now, listed', hnow⟩ := exists_build_apply disk.cwd turn hbuild
      obtain ⟨log, result, hattended, hplays⟩ :=
        ih turn.reply (hkeeps.2 _) (tripped || turn.trips) hnow
      exact ⟨.select items placeholder turn.reply :: log, result, .select hattended, .select hplays⟩

theorem Repairer.fix_attended {r : Repairer} {d : Document} {index listed : WorkspaceIndex}
    {files : List FileCandidate} (tripped : Bool) (happens : Prompt → Turn)
    (hbuild : index.build r.disk = .ok (files, listed)) :
    ∃ log result, Attended r.disk index tripped ((prompts log).map happens) log ∧
      (r.fix d).Plays log result :=
  r.fix_keeps.exists_attended happens tripped hbuild

/-! ## Passes that get the same answers -/

/-- A turn at which a pass is stopped. -/
def Turn.Stops (turn : Turn) : Prop := turn.trips = true ∨ Dismisses turn.reply

/-- Transcripts of one dialogue are the same as long as the turns are, up to and with the next prompt.
The token stays tripped once it is. -/
theorem attended_split {α : Type} {disk : Disk} {x : Dialogue α} {result result' : Except Failure α}
    {index : WorkspaceIndex} {tripped : Bool} {turns more : List Turn} {last : Turn}
    {log log' : List Exchange} (h : x.Plays log result) (h' : x.Plays log' result')
    (hattended : Attended disk index tripped (turns ++ [last]) log)
    (hattended' : Attended disk index tripped (turns ++ more) log') :
    ∃ front items placeholder reply' back back',
      log = front ++ .select items placeholder last.reply :: back ∧
      log' = front ++ .select items placeholder reply' :: back' ∧
      ∃ index' tripped', (last.trips = true → tripped' = true) ∧
        Attended disk index' tripped' [] back := by
  induction x generalizing index tripped turns log log' with
  | done a =>
      obtain ⟨rfl, -⟩ := Dialogue.plays_done h
      exact absurd (attended_nil hattended) (by simp)
  | failed failure =>
      cases h
      exact absurd (attended_nil hattended) (by simp)
  | confirmReplace identifier next ih =>
      cases h
      exact absurd hattended not_attended_confirmReplace
  | files next ih =>
      obtain _ | _ | _ | _ | h | _ := h
      obtain _ | _ | _ | _ | h' | _ := h'
      obtain ⟨index', hbuild, hattended⟩ := attended_files hattended
      obtain ⟨index'', hbuild', hattended'⟩ := attended_files hattended'
      -- The index has one answer.
      rw [hbuild] at hbuild'
      obtain ⟨rfl, rfl⟩ := Prod.mk.inj (Except.ok.inj hbuild')
      obtain ⟨front, items, placeholder, reply', back, back', rfl, rfl, hback⟩ :=
        ih _ h h' hattended hattended'
      exact ⟨.files _ :: front, items, placeholder, reply', back, back', rfl, rfl, hback⟩
  | isCancelled next ih =>
      obtain _ | _ | _ | _ | _ | h := h
      obtain _ | _ | _ | _ | _ | h' := h'
      obtain ⟨rfl, hattended⟩ := attended_isCancelled hattended
      obtain ⟨rfl, hattended'⟩ := attended_isCancelled hattended'
      obtain ⟨front, items, placeholder, reply', back, back', rfl, rfl, hback⟩ :=
        ih _ h h' hattended hattended'
      exact ⟨.isCancelled _ :: front, items, placeholder, reply', back, back', rfl, rfl, hback⟩
  | select items placeholder next ih =>
      obtain _ | _ | h | _ | _ | _ := h
      obtain _ | _ | h' | _ | _ | _ := h'
      obtain ⟨turn, rest, hturns, rfl, hattended⟩ := attended_select hattended
      cases turns with
      | nil =>
          obtain ⟨rfl, rfl⟩ := List.cons.inj hturns
          exact ⟨[], items, placeholder, _, _, _, rfl, rfl, _, _, by simp +contextual, hattended⟩
      | cons first turns =>
          obtain ⟨rfl, rfl⟩ := List.cons.inj hturns
          obtain ⟨turn', rest', hturns', rfl, hattended'⟩ := attended_select hattended'
          obtain ⟨rfl, rfl⟩ := List.cons.inj hturns'
          obtain ⟨front, items', placeholder', reply', back, back', rfl, rfl, hback⟩ :=
            ih _ h h' hattended hattended'
          exact ⟨.select items placeholder _ :: front, items', placeholder', reply', back, back', rfl, rfl,
            hback⟩

/-! ## Cancelled passes -/

/-- When a pass is cancelled that gets some turns in common with another one: before it starts, or at
the turn behind those. -/
inductive CancelledAfter (common : List Turn) : Bool → List Turn → Prop where
  | before (turns) : CancelledAfter common true turns
  | meanwhile {last : Turn} : last.Stops → CancelledAfter common false (common ++ [last])

variable {r : Repairer} {d : Document} {index : WorkspaceIndex} {common more : List Turn}
  {log log' : List Exchange} {result result' : Except Failure RepairReport}

/-- A pass with broken imports asks first of all whether it is cancelled. -/
theorem fix_of_broken (hbroken : r.brokenImports d ≠ []) :
    ∃ next unresolved, r.fix d = .isCancelled next ∧ next true = stopped [] unresolved := by
  unfold Repairer.fix
  cases himports : r.brokenImports d with
  | nil => exact absurd himports hbroken
  | cons i rest => exact ⟨_, [], rfl, rfl⟩

/-- However the index changes while prompts are open, and whatever becomes of the second pass: a pass that
is cancelled ends in a report, and what it has asked and corrected is the beginning of what a pass with the
same turns does that is not cancelled there. Cancelled before it starts, it does nothing at all;
cancelled at a prompt, it ends there, answered or not, in the report that dismissing the prompt leaves. -/
theorem cancelled_prefix_of_continued {tripped : Bool} {turns : List Turn} (hbroken : r.brokenImports d ≠ [])
    (hcancelled : CancelledAfter common tripped turns)
    (hattended : Attended r.disk index tripped turns log) (h : (r.fix d).Plays log result)
    (hattended' : Attended r.disk index false (common ++ more) log') (h' : (r.fix d).Plays log' result') :
    ∃ report, result = .ok report ∧ report.status = .cancelled ∧
      prompts log <+: prompts log' ∧
      (∀ report', result' = .ok report' → report.edits <+: report'.edits) ∧
      if tripped then log = [.isCancelled true] ∧ report.edits = []
      else ∃ front items placeholder reply,
        (log = front ++ [.select items placeholder reply] ∨
          log = front ++ [.select items placeholder reply, .isCancelled true]) ∧
        (r.fix d).Plays (front ++ [.select items placeholder none]) (.ok report) := by
  have hkeeps : (r.fix d).Keeps [] := r.fix_keeps
  cases hcancelled with
  | before turns =>
      obtain ⟨next, unresolved, hfix, hstopped⟩ := fix_of_broken hbroken
      rw [hfix] at h
      obtain _ | _ | _ | _ | _ | h := h
      obtain ⟨rfl, -⟩ := attended_isCancelled hattended
      rw [hstopped] at h
      obtain ⟨rfl, rfl⟩ := Dialogue.plays_done h
      exact ⟨_, rfl, rfl, List.nil_prefix, fun _ _ => List.nil_prefix, rfl, rfl⟩
  | @meanwhile last hstops =>
      obtain ⟨front, items, placeholder, reply', back, back', rfl, rfl, index', tripped', htrips, hback⟩ :=
        attended_split h h' hattended hattended'
      obtain ⟨report, hstatus, hdismissed, hfollows⟩ := hkeeps.follows h
      -- Stopped at its last turn, the pass asks at most whether it is cancelled.
      have hends : result = .ok report ∧ (back = [] ∨ back = [.isCancelled true]) := by
        rcases hfollows with ⟨-, rfl, rfl⟩ | ⟨hpicks, answer, rest, rfl, hanswer⟩
        · exact ⟨rfl, .inl rfl⟩
        · obtain ⟨rfl, -⟩ := attended_isCancelled hback
          rcases hstops with hstops | hstops
          · obtain rfl := htrips hstops
            obtain ⟨rfl, rfl⟩ := hanswer rfl
            exact ⟨rfl, .inr rfl⟩
          · exact absurd hstops hpicks
      obtain ⟨rfl, hback⟩ := hends
      refine ⟨report, rfl, hstatus, ?_, ?_, ?_⟩
      · rw [prompts_append, prompts_append]
        refine (List.prefix_append_right_inj _).mpr ?_
        rcases hback with rfl | rfl <;> exact List.prefix_append [_] _
      · rintro report' rfl
        exact hkeeps.edits_prefix_of_dismissal hdismissed h'
      · rw [if_neg Bool.false_ne_true]
        exact ⟨front, items, placeholder, last.reply, hback.imp (by rintro rfl; rfl) (by rintro rfl; rfl),
          hdismissed⟩

/-- The token trips while the prompt is open, and the reply comes too late. The other pass gets it in
time. -/
theorem answered_too_late :
    utilRepairer.brokenImports utilDocument ≠ [] ∧
      CancelledAfter [] false [⟨[], true, some "/a/util.js"⟩] ∧
      Attended utilRepairer.disk utilIndex false [⟨[], true, some "/a/util.js"⟩]
        (utilLog (some "/a/util.js") [.isCancelled true]) ∧
      (utilRepairer.fix utilDocument).Plays (utilLog (some "/a/util.js") [.isCancelled true])
        (.ok ⟨.cancelled, [⟨37, 47, "'./c/helper'"⟩], []⟩) ∧
      Attended utilRepairer.disk utilIndex false ([] ++ [⟨[], false, some "/a/util.js"⟩])
        (utilLog (some "/a/util.js") [.isCancelled false, .files utilFiles]) ∧
      (utilRepairer.fix utilDocument).Plays
        (utilLog (some "/a/util.js") [.isCancelled false, .files utilFiles])
        (.ok ⟨.allFixed, [⟨37, 47, "'./c/helper'"⟩, ⟨14, 22, "'./a/util'"⟩], []⟩) ∧
      prompts (utilLog (some "/a/util.js") [.isCancelled true]) <+:
        prompts (utilLog (some "/a/util.js") [.isCancelled false, .files utilFiles]) ∧
      [⟨37, 47, "'./c/helper'"⟩] <+: [⟨37, 47, "'./c/helper'"⟩, (⟨14, 22, "'./a/util'"⟩ : Edit)] := by
  have hbroken : utilRepairer.brokenImports utilDocument ≠ [] := by simp [utilDocument_broken]
  have hplays : (utilRepairer.fix utilDocument).Plays (utilLog (some "/a/util.js") [.isCancelled true])
      (.ok ⟨.cancelled, [⟨37, 47, "'./c/helper'"⟩], []⟩) := by
    rw [Repairer.fix_eq utilDocument_broken]
    exact Dialogue.plays_of_replay (by decide +kernel)
  have hplays' : (utilRepairer.fix utilDocument).Plays
      (utilLog (some "/a/util.js") [.isCancelled false, .files utilFiles])
      (.ok ⟨.allFixed, [⟨37, 47, "'./c/helper'"⟩, ⟨14, 22, "'./a/util'"⟩], []⟩) := by
    rw [Repairer.fix_eq utilDocument_broken]
    exact Dialogue.plays_of_replay (by decide +kernel)
  have hcancelled : CancelledAfter [] false [⟨[], true, some "/a/util.js"⟩] := .meanwhile (.inl rfl)
  have hattended : Attended utilRepairer.disk utilIndex false [⟨[], true, some "/a/util.js"⟩]
      (utilLog (some "/a/util.js") [.isCancelled true]) :=
    utilLog_attended ⟨[], true, some "/a/util.js"⟩ (.isCancelled (.nil _ _))
  have hattended' : Attended utilRepairer.disk utilIndex false ([] ++ [⟨[], false, some "/a/util.js"⟩])
      (utilLog (some "/a/util.js") [.isCancelled false, .files utilFiles]) :=
    utilLog_attended ⟨[], false, some "/a/util.js"⟩
      (.isCancelled (.files rfl (.nil _ _)))
  obtain ⟨report, hreport, -, hprompts, hedits, -⟩ :=
    cancelled_prefix_of_continued hbroken hcancelled hattended hplays hattended' hplays'
  cases hreport
  exact ⟨hbroken, hcancelled, hattended, hplays, hattended', hplays', hprompts, hedits _ rfl⟩

end ImportAssist
