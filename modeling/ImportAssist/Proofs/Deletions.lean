import ImportAssist.Proofs.Cancelling
import ImportAssist.Proofs.RepairAccount

/-!
# Deletions during a pass

While a prompt is open, files may leave the index. The prompt still offers them, since it shows what was
found before, but a file that has left cannot be redirected to: the pass fails and its edits are
lost. This is the only way in which deletions can harm a pass (`fix_with_deletions`): if the files that
are picked stay until they are looked up, the pass ends in a report, and that has all the edits
made before each prompt.
-/

namespace ImportAssist

/-! ## Picked files -/

/-- Every file that is picked is still in the index when an import is redirected to it. -/
def PicksKept (r : Repairer) (log : List Exchange) : Prop :=
  ∀ items placeholder chosen now,
    [.select items placeholder (some chosen), .isCancelled false, .files now] <:+: log →
      ∃ c ∈ now, r.label c.path = chosen

/-- Every reply is an offered item, if it picks one at all. -/
def Offered (log : List Exchange) : Prop :=
  ∀ items placeholder reply, .select items placeholder reply ∈ log →
    Repairer.Dismisses reply ∨ ∃ item ∈ items, reply = some item

variable {r : Repairer} {d : Document} {log back : List Exchange}

theorem picksKept_of_short (h : log.length < 3) : PicksKept r log := by
  intro items placeholder chosen now hinside
  have hle := hinside.length_le
  rw [List.length_cons, List.length_cons, List.length_singleton] at hle
  omega

theorem picksKept_append : ∀ {front : List Exchange}, prompts front = [] →
    (PicksKept r (front ++ back) ↔ PicksKept r back)
  | [], _ => Iff.rfl
  | e :: front, hprompts => by
      have hselect : ∀ items placeholder reply, e ≠ .select items placeholder reply := by
        rintro items placeholder reply rfl
        cases hprompts
      have hfront : prompts front = [] := by
        cases e with
        | select items placeholder reply => exact absurd rfl (hselect items placeholder reply)
        | confirmReplace identifier reply => exact hprompts
        | files answer => exact hprompts
        | isCancelled answer => exact hprompts
      refine Iff.trans ?_ (picksKept_append hfront)
      refine ⟨fun h items placeholder chosen now hinside =>
        h items placeholder chosen now (hinside.trans (List.suffix_cons e _).isInfix), ?_⟩
      intro h items placeholder chosen now hinside
      rcases List.infix_cons_iff.mp hinside with hstart | hinside
      · exact absurd (List.cons_prefix_cons.mp hstart).1.symm (hselect _ _ _)
      · exact h items placeholder chosen now hinside

theorem picksKept_picked {items : List String} {placeholder chosen : String} {now : List FileCandidate} :
    PicksKept r (.select items placeholder (some chosen) :: .isCancelled false :: .files now :: back) ↔
      (∃ c ∈ now, r.label c.path = chosen) ∧ PicksKept r back := by
  have hback : prompts [.isCancelled false, .files now] = [] := rfl
  constructor
  · intro h
    refine ⟨h items placeholder chosen now (List.prefix_append [_, _, _] back).isInfix, ?_⟩
    intro items' placeholder' chosen' now' hinside
    exact h items' placeholder' chosen' now' (hinside.trans (List.suffix_append [_, _, _] back).isInfix)
  · rintro ⟨hpicked, h⟩ items' placeholder' chosen' now' hinside
    rcases List.infix_cons_iff.mp hinside with hstart | hinside
    · obtain ⟨hselect, hstart⟩ := List.cons_prefix_cons.mp hstart
      obtain ⟨-, hstart⟩ := List.cons_prefix_cons.mp hstart
      obtain ⟨hfiles, -⟩ := List.cons_prefix_cons.mp hstart
      cases hselect
      cases hfiles
      exact hpicked
    · exact (picksKept_append hback).mpr h items' placeholder' chosen' now' hinside

namespace Repairer

variable {files : List FileCandidate} {imports : List RelativeImport} {p : Progress}

/-! ## Passes over an index that loses files -/

/-- All that has been found is in the index, or was. -/
def Known (files : List FileCandidate) (searches : Searches) : Prop :=
  ∀ s ∈ searches, ∀ path ∈ s.2, ∃ c ∈ files, c.path = path

/-- What a search of the files has found is in the index, or was. -/
theorem Fresh.known {searches : Searches} (h : r.Fresh d files searches) : Known files searches := by
  intro s hs path hpath
  rw [h s hs] at hpath
  obtain ⟨c, hc, rfl⟩ := List.mem_map.mp hpath
  exact ⟨c, (List.mem_filter.mp (List.mem_filter.mp hc).1).1, rfl⟩

/-- A search adds what is in the index at that time. -/
theorem Looks.known_of_known {i : RelativeImport} {searches searches' : Searches} {looked : List Exchange}
    {found : List String} (h : r.Looks d i searches looked found searches') (hknown : Known files searches)
    (hfiles : ∀ now, .files now ∈ .isCancelled false :: looked ++ back → now ⊆ files) :
    (∀ path ∈ found, ∃ c ∈ files, c.path = path) ∧ Known files searches' ∧
      ∀ now, .files now ∈ back → now ⊆ files := by
  have hback : ∀ now, .files now ∈ back → now ⊆ files := fun now hnow =>
    hfiles now (List.mem_append_right _ hnow)
  cases h with
  | known hfind => exact ⟨hknown _ (List.mem_of_find?_eq_some hfind), hknown, hback⟩
  | fresh now hfind =>
      have hfound : ∀ path ∈ r.matching d now i, ∃ c ∈ files, c.path = path := fun path hpath => by
        obtain ⟨c, hc, hpath⟩ := exists_of_mem_matching hpath
        exact ⟨c, hfiles now (by simp) hc, hpath⟩
      refine ⟨hfound, fun s hs => ?_, hback⟩
      rcases List.mem_cons.mp hs with rfl | hs
      · exact hfound
      · exact hknown s hs

/-- The file that a label stands for is among some files of the index if its label is. -/
theorem mem_of_picked {found : List String} {chosen path : String} {now : List FileCandidate}
    (hindexed : r.Indexed files) (hfound : ∀ path ∈ found, ∃ c ∈ files, c.path = path)
    (hlabel : (chosen, path) ∈ r.labelled found) (hnow : now ⊆ files) :
    (∃ c ∈ now, r.label c.path = chosen) ↔ ∃ c ∈ now, c.path = Path.normalize path := by
  obtain ⟨hpath, hchosen⟩ := (r.labelled_labels found).own _ hlabel
  obtain ⟨c₀, hc₀, rfl⟩ := hfound path hpath
  rw [hindexed.normal hc₀]
  constructor
  · rintro ⟨c, hc, hpicked⟩
    exact ⟨c, hc, hindexed.apart (hnow hc) hc₀ (hpicked.trans hchosen.symm)⟩
  · rintro ⟨c, hc, hpicked⟩
    exact ⟨c, hc, by rw [hpicked]; exact hchosen⟩

/-- How a pass ends: with an answer if all picked files are there, for which only a name can be missing,
and otherwise with the failure that one of them is not. -/
def EndsByPicks (r : Repairer) (d : Document) (files : List FileCandidate) (log : List Exchange)
    (result : Except Failure RepairReport) : Prop :=
  (PicksKept r log ∧ ((∃ report, result = .ok report) ∨
    ∃ c ∈ files, ∃ failure, c.nameAndPath r.disk.cwd d.directory = .error failure ∧
      result = .error failure)) ∨
  (¬ PicksKept r log ∧ ∃ path, result = .error (.notIndexed path))

theorem EndsByPicks.append {front : List Exchange} {result : Except Failure RepairReport}
    (hprompts : prompts front = []) (h : EndsByPicks r d files back result) :
    EndsByPicks r d files (front ++ back) result := by
  rwa [EndsByPicks, picksKept_append hprompts]

theorem Asking.endsByPicks {result : Except Failure RepairReport} (h : r.Asking d imports p log result)
    (hindexed : r.Indexed files) (hknown : Known files p.searches) (hoffered : Offered log)
    (hfiles : ∀ now, .files now ∈ log → now ⊆ files) : EndsByPicks r d files log result := by
  induction h with
  | finished p => exact .inl ⟨picksKept_of_short (by simp), .inl ⟨_, rfl⟩⟩
  | stopped i rest p => exact .inl ⟨picksKept_of_short (by simp), .inl ⟨_, rfl⟩⟩
  | dismissed hlooks _ =>
      exact .append hlooks.prompts_eq (.inl ⟨picksKept_of_short (by simp), .inl ⟨_, rfl⟩⟩)
  | stoppedOpen hlooks _ =>
      exact .append hlooks.prompts_eq (.inl ⟨picksKept_of_short (by simp), .inl ⟨_, rfl⟩⟩)
  | notOffered hlooks hchosen hlabels =>
      rcases hoffered _ _ _ (List.mem_append_right _ (List.mem_cons_self ..)) with
        (hdismisses | hdismisses) | ⟨item, hitem, hreply⟩
      · cases hdismisses
      · exact absurd (Option.some.inj hdismisses) hchosen
      · rw [Option.some.inj hreply] at hlabels
        exact absurd hitem hlabels
  | @failed _ _ _ _ _ _ _ _ now _ hlooks hchosen hlabel hredirected =>
      refine .append hlooks.prompts_eq ?_
      obtain ⟨hfound, -, hback⟩ := hlooks.known_of_known hknown hfiles
      have hnow : now ⊆ files := hback now (by simp)
      have hpicked := mem_of_picked hindexed hfound hlabel hnow
      have hkept : PicksKept r [] := picksKept_of_short (by simp)
      rw [EndsByPicks, picksKept_picked, hpicked, and_iff_left hkept]
      rcases redirected_error hredirected with ⟨rfl, hnone⟩ | ⟨c, hc, hpath, hname⟩
      · exact .inr ⟨fun ⟨c, hc, hpath⟩ => hnone c hc hpath, _, rfl⟩
      · exact .inl ⟨⟨c, hc, hpath⟩, .inr ⟨c, hnow hc, _, hname, rfl⟩⟩
  | @corrected _ _ _ _ _ _ _ path now _ _ _ hlooks hchosen hlabel hredirected _ ih =>
      refine .append hlooks.prompts_eq ?_
      obtain ⟨hfound, hknown, hback⟩ := hlooks.known_of_known hknown hfiles
      have hnow : now ⊆ files := hback now (by simp)
      have hpicked := mem_of_picked hindexed hfound hlabel hnow
      obtain ⟨c, hc, hpath, -⟩ := redirected_ok hredirected
      have hthere : ∃ c ∈ now, c.path = Path.normalize path := ⟨c, hc, hpath⟩
      rw [EndsByPicks, picksKept_picked, hpicked, and_iff_right hthere]
      exact ih hknown (fun items placeholder reply h => hoffered items placeholder reply (by simp [h]))
        fun now hnow => hback now (by simp [hnow])

end Repairer

/-- With any deletions while prompts are open, and replies that pick an offered file or none: a pass ends in
a report exactly if each file that is picked is still in the index when its import is redirected to
it, naming rules that cannot be applied to a file apart. A report has all the edits that had been made at
each of the prompts, where these are the edits that dismissing the prompt leaves. -/
theorem fix_with_deletions {index listed : WorkspaceIndex} {files : List FileCandidate} {tripped : Bool}
    {turns : List Turn} {result : Except Failure RepairReport}
    (hbuild : index.build r.disk = .ok (files, listed)) (hindexed : r.Indexed files)
    (hattended : Attended r.disk index tripped turns log) (hoffered : Offered log)
    (h : (r.fix d).Plays log result) :
    r.EndsByPicks d files log result ∧
      ∀ front items placeholder reply back, log = front ++ .select items placeholder reply :: back →
        ∃ made, made.status = .cancelled ∧
          (r.fix d).Plays (front ++ [.select items placeholder none]) (.ok made) ∧
          ∀ report, result = .ok report → made.edits <+: report.edits := by
  refine ⟨?_, fun front items placeholder reply back hlog => ?_⟩
  · have hfresh : r.Fresh d files Repairer.Progress.start.searches := fun s hs => absurd hs List.not_mem_nil
    rcases Repairer.fix_cases h with ⟨-, rfl, rfl⟩ | ⟨-, ⟨failure, hsort, rfl⟩ | ⟨report, hsort, rfl⟩ |
      ⟨p, front, back, hsort, hask, rfl⟩⟩
    · exact .inl ⟨picksKept_of_short (by simp), .inl ⟨_, rfl⟩⟩
    · obtain ⟨hfront, -⟩ := attended_before hbuild hsort.prompts_eq ((List.append_nil log).symm ▸ hattended)
      obtain ⟨c, hc, hname⟩ := hsort.named hindexed hfresh hfront
      rw [← List.append_nil log]
      exact .append hsort.prompts_eq
        (.inl ⟨picksKept_of_short (by simp), .inr ⟨c, hc, failure, hname, rfl⟩⟩)
    · rw [← List.append_nil log]
      exact .append hsort.prompts_eq (.inl ⟨picksKept_of_short (by simp), .inl ⟨report, rfl⟩⟩)
    · obtain ⟨hfront, index', listed', hbuild', hback⟩ :=
        attended_before hbuild hsort.prompts_eq hattended
      have hknown := (hsort.sorted hindexed hfresh hfront p rfl).fresh.known
      refine .append hsort.prompts_eq (hask.endsByPicks hindexed hknown ?_
        ((within_of_build hbuild').attended hback))
      exact fun items placeholder reply hselect =>
        hoffered items placeholder reply (List.mem_append_right _ hselect)
  · subst hlog
    have hkeeps : (r.fix d).Keeps [] := r.fix_keeps
    obtain ⟨made, hstatus, hdismissed, -⟩ := hkeeps.follows h
    refine ⟨made, hstatus, hdismissed, ?_⟩
    rintro report rfl
    exact hkeeps.edits_prefix_of_dismissal hdismissed h

theorem utilLog_offered {reply : Option String} {back : List Exchange}
    (hreply : Repairer.Dismisses reply ∨ ∃ item ∈ ["/a/util.js", "/b/util.js"], reply = some item)
    (hback : prompts back = []) : Offered (utilLog reply back) := by
  intro items placeholder reply' h
  have hmem : Prompt.mk items placeholder ∈ prompts back ∨
      .select items placeholder reply' = Exchange.select ["/a/util.js", "/b/util.js"] "./util" reply := by
    rcases List.mem_append.mp h with h | h
    · simp [utilFront] at h
    · rcases List.mem_cons.mp h with h | h
      · exact .inr h
      · exact .inl (List.mem_filterMap.mpr ⟨_, h, rfl⟩)
  rw [hback] at hmem
  obtain hselect := hmem.resolve_left (List.not_mem_nil)
  cases hselect
  exact hreply

/-- One of the two files is deleted while the prompt is open, and the other one is picked. -/
def otherDeleted : Turn := ⟨["/ws/a/util.js"], false, some "/b/util.js"⟩

/-- Picking the file that is left repairs both imports. -/
theorem other_deleted_repaired :
    utilIndex.build utilRepairer.disk = .ok (utilFiles, utilIndex) ∧
      Attended utilRepairer.disk utilIndex false [otherDeleted]
        (utilLog (some "/b/util.js") [.isCancelled false, .files (utilFilesAfter otherDeleted)]) ∧
      (utilRepairer.fix utilDocument).Plays
        (utilLog (some "/b/util.js") [.isCancelled false, .files (utilFilesAfter otherDeleted)])
        (.ok ⟨.allFixed, [⟨37, 47, "'./c/helper'"⟩, ⟨14, 22, "'./b/util'"⟩], []⟩) ∧
      PicksKept utilRepairer
        (utilLog (some "/b/util.js") [.isCancelled false, .files (utilFilesAfter otherDeleted)]) ∧
      ∃ made, (utilRepairer.fix utilDocument).Plays (utilLog none []) (.ok made) ∧
        made.edits <+: [⟨37, 47, "'./c/helper'"⟩, ⟨14, 22, "'./b/util'"⟩] := by
  have hbuild : utilIndex.build utilRepairer.disk = .ok (utilFiles, utilIndex) := rfl
  have hattended : Attended utilRepairer.disk utilIndex false [otherDeleted]
      (utilLog (some "/b/util.js") [.isCancelled false, .files (utilFilesAfter otherDeleted)]) :=
    utilLog_attended otherDeleted (.isCancelled (.files rfl (.nil _ _)))
  have hplays : (utilRepairer.fix utilDocument).Plays
      (utilLog (some "/b/util.js") [.isCancelled false, .files (utilFilesAfter otherDeleted)])
      (.ok ⟨.allFixed, [⟨37, 47, "'./c/helper'"⟩, ⟨14, 22, "'./b/util'"⟩], []⟩) := by
    rw [Repairer.fix_eq utilDocument_broken]
    exact Dialogue.plays_of_replay (by decide +kernel)
  have hoffered : Offered
      (utilLog (some "/b/util.js") [.isCancelled false, .files (utilFilesAfter otherDeleted)]) :=
    utilLog_offered (.inr ⟨_, by simp, rfl⟩) rfl
  obtain ⟨hends, hmade⟩ := fix_with_deletions hbuild utilFiles_indexed hattended hoffered hplays
  obtain ⟨made, -, hdismissed, hstart⟩ := hmade utilFront _ _ _ _ rfl
  refine ⟨hbuild, hattended, hplays, ?_, made, hdismissed, hstart _ rfl⟩
  rcases hends with ⟨hkept, -⟩ | ⟨-, path, hfailed⟩
  · exact hkept
  · cases hfailed

/-- The file that is deleted while the prompt is open is the one that is picked. -/
def pickedDeleted : Turn := ⟨["/ws/b/util.js"], false, some "/b/util.js"⟩

/-- The pass fails, and the edit that it had made before the prompt is lost. -/
theorem picked_deleted_fails :
    Attended utilRepairer.disk utilIndex false [pickedDeleted]
        (utilLog (some "/b/util.js") [.isCancelled false, .files (utilFilesAfter pickedDeleted)]) ∧
      Offered (utilLog (some "/b/util.js") [.isCancelled false, .files (utilFilesAfter pickedDeleted)]) ∧
      (utilRepairer.fix utilDocument).Plays (utilLog none [])
        (.ok ⟨.cancelled, [⟨37, 47, "'./c/helper'"⟩], []⟩) ∧
      (utilRepairer.fix utilDocument).Plays
        (utilLog (some "/b/util.js") [.isCancelled false, .files (utilFilesAfter pickedDeleted)])
        (.error (.notIndexed "/ws/b/util.js")) := by
  refine ⟨utilLog_attended pickedDeleted (.isCancelled (.files rfl (.nil _ _))),
    utilLog_offered (.inr ⟨_, by simp, rfl⟩) rfl, ?_, Dialogue.plays_of_attempt ?_⟩
  · rw [Repairer.fix_eq utilDocument_broken]
    exact Dialogue.plays_of_replay (by decide +kernel)
  · rw [Repairer.fix_eq utilDocument_broken]
    exact Dialogue.plays_of_replay (by decide +kernel)

end ImportAssist
