import ImportAssist.Proofs.Attendance
import ImportAssist.Proofs.FileLabels

/-!
# What becomes of each broken import

With an index that stays as it is, each broken import ends up in one place. One that no file is named
like stays unresolved; one with a single file is made to lead there, and nothing is asked; for one
with several files these are offered, each once, and it is made to lead to the one that is picked
(`fix_accounts`). A pass that gives no report fails for a name that cannot be made up for a file.

What has been found for one import is used again for others with the same last segment. This makes
no difference, since a new search would find the same (`Looks.found_eq`).
-/

namespace ImportAssist

namespace Repairer

variable {r : Repairer} {d : Document} {files : List FileCandidate} {imports : List RelativeImport}
  {p : Progress} {log : List Exchange}

/-! ## Searches -/

/-- What is known is what a search among the files would find. -/
def Fresh (r : Repairer) (d : Document) (files : List FileCandidate) (searches : Searches) : Prop :=
  ∀ s ∈ searches, s.2 = filesNamedLike r.family s.1 (files.filter (·.path != Path.normalize d.path))

theorem Looks.found_eq {i : RelativeImport} {searches searches' : Searches} {looked : List Exchange}
    {found : List String} (h : r.Looks d i searches looked found searches')
    (hfresh : r.Fresh d files searches) (hfiles : ∀ now, .files now ∈ looked → now = files) :
    found = r.matching d files i ∧ r.Fresh d files searches' := by
  cases h with
  | known hfind => exact ⟨hfresh _ (List.mem_of_find?_eq_some hfind), hfresh⟩
  | fresh now hfind =>
      obtain rfl := hfiles now (List.mem_singleton_self _)
      refine ⟨rfl, fun s hs => ?_⟩
      rcases List.mem_cons.mp hs with rfl | hs
      · rfl
      · exact hfresh s hs

theorem exists_of_mem_matching {i : RelativeImport} {path : String} (h : path ∈ r.matching d files i) :
    ∃ c ∈ files, c.path = path := by
  obtain ⟨c, hc, rfl⟩ := List.mem_map.mp h
  exact ⟨c, (List.mem_filter.mp (List.mem_filter.mp hc).1).1, rfl⟩

/-! ## Targets -/

/-- Some imports, each with a file that it may mean. -/
structure Targets (r : Repairer) (d : Document) (files : List FileCandidate) (imports : List RelativeImport)
    (targets : List (RelativeImport × FileCandidate)) : Prop where
  imports_eq : targets.map (·.1) = imports
  mem : ∀ t ∈ targets, t.2 ∈ files ∧ t.2.path ∈ r.matching d files t.1

theorem Targets.nil : r.Targets d files [] [] := ⟨rfl, fun _ ht => absurd ht List.not_mem_nil⟩

theorem Targets.cons {i : RelativeImport} {c : FileCandidate}
    {targets : List (RelativeImport × FileCandidate)} (hc : c ∈ files)
    (hpath : c.path ∈ r.matching d files i) (h : r.Targets d files imports targets) :
    r.Targets d files (i :: imports) ((i, c) :: targets) where
  imports_eq := congrArg (i :: ·) h.imports_eq
  mem t ht := by
    rcases List.mem_cons.mp ht with rfl | ht
    · exact ⟨hc, hpath⟩
    · exact h.mem t ht

/-- The edits that make imports lead to files. -/
def corrections (r : Repairer) (d : Document) (targets : List (RelativeImport × FileCandidate)) : List Edit :=
  targets.map fun t => r.correction d t.1 t.2

/-- Whether an import may mean none of the files, one, or several. -/
def isLost (r : Repairer) (d : Document) (files : List FileCandidate) (i : RelativeImport) : Bool :=
  (r.matching d files i).length = 0

def isSole (r : Repairer) (d : Document) (files : List FileCandidate) (i : RelativeImport) : Bool :=
  (r.matching d files i).length = 1

def isAmbiguous (r : Repairer) (d : Document) (files : List FileCandidate) (i : RelativeImport) : Bool :=
  1 < (r.matching d files i).length

theorem filters_of_lost {i : RelativeImport} (h : (r.matching d files i).length = 0)
    (rest : List RelativeImport) :
    (i :: rest).filter (r.isLost d files) = i :: rest.filter (r.isLost d files) ∧
      (i :: rest).filter (r.isSole d files) = rest.filter (r.isSole d files) ∧
      (i :: rest).filter (r.isAmbiguous d files) = rest.filter (r.isAmbiguous d files) := by
  simp [isLost, isSole, isAmbiguous, h]

theorem filters_of_sole {i : RelativeImport} (h : (r.matching d files i).length = 1)
    (rest : List RelativeImport) :
    (i :: rest).filter (r.isLost d files) = rest.filter (r.isLost d files) ∧
      (i :: rest).filter (r.isSole d files) = i :: rest.filter (r.isSole d files) ∧
      (i :: rest).filter (r.isAmbiguous d files) = rest.filter (r.isAmbiguous d files) := by
  simp [isLost, isSole, isAmbiguous, h]

theorem filters_of_ambiguous {i : RelativeImport} (h : 1 < (r.matching d files i).length)
    (rest : List RelativeImport) :
    (i :: rest).filter (r.isLost d files) = rest.filter (r.isLost d files) ∧
      (i :: rest).filter (r.isSole d files) = rest.filter (r.isSole d files) ∧
      (i :: rest).filter (r.isAmbiguous d files) = i :: rest.filter (r.isAmbiguous d files) := by
  have hzero : (r.matching d files i).length ≠ 0 := by omega
  have hone : (r.matching d files i).length ≠ 1 := by omega
  simp only [isLost, isSole, isAmbiguous, List.filter_cons, h, hzero, hone, decide_true, decide_false,
    if_true, Bool.false_eq_true, if_false, and_self]

/-! ## Sorting -/

/-- Where sorting some imports leads to, as long as the index has the same files. -/
structure Sorted (r : Repairer) (d : Document) (files : List FileCandidate) (imports : List RelativeImport)
    (p p' : Progress) : Prop where
  fresh : r.Fresh d files p'.searches
  unresolved : p'.unresolved = p.unresolved ++ imports.filter (r.isLost d files)
  ambiguous : p'.ambiguous = p.ambiguous ++ imports.filter (r.isAmbiguous d files)
  edits : ∃ targets, r.Targets d files (imports.filter (r.isSole d files)) targets ∧
    p'.edits = p.edits ++ r.corrections d targets

theorem Sorting.sorted {result : Except Failure (RepairReport ⊕ Progress)}
    (h : r.Sorting d imports p log result) (hindexed : r.Indexed files)
    (hfresh : r.Fresh d files p.searches) (hfiles : ∀ now, .files now ∈ log → now = files) :
    ∀ p', result = .ok (.inr p') → r.Sorted d files imports p p' := by
  induction h with
  | finished p =>
      rintro p' hresult
      cases hresult
      exact ⟨hfresh, by simp, by simp, [], .nil, by simp [corrections]⟩
  | stopped i rest p => exact nofun
  | failed _ _ => exact nofun
  | @unresolved i rest p looked searches back result hlooks _ ih =>
      rintro p' rfl
      obtain ⟨hfound, hfresh⟩ := hlooks.found_eq hfresh fun now hnow => hfiles now (by simp [hnow])
      obtain ⟨hfresh, hunresolved, hambiguous, hedits⟩ :=
        ih hfresh (fun now hnow => hfiles now (by simp [hnow])) p' rfl
      obtain ⟨hlost, hsole, hseveral⟩ := filters_of_lost (by rw [← hfound]; rfl) rest
      refine ⟨hfresh, ?_, ?_, ?_⟩
      · rw [hunresolved, hlost, List.append_assoc]
        rfl
      · rw [hambiguous, hseveral]
      · rwa [hsole]
  | @corrected i rest p looked path searches now edit back result hlooks hredirected _ ih =>
      rintro p' rfl
      obtain ⟨hfound, hfresh⟩ := hlooks.found_eq hfresh fun now hnow => hfiles now (by simp [hnow])
      obtain ⟨hfresh, hunresolved, hambiguous, targets, htargets, hedits⟩ :=
        ih hfresh (fun now hnow => hfiles now (by simp [hnow])) p' rfl
      obtain rfl := hfiles now (by simp)
      obtain ⟨hlost, hsole, hseveral⟩ := filters_of_sole (by rw [← hfound]; rfl) rest
      obtain ⟨c, hc, hpath, rfl⟩ := redirected_ok hredirected
      have hmem : c.path ∈ r.matching d now i := by
        obtain ⟨c₀, hc₀, rfl⟩ := exists_of_mem_matching (hfound ▸ List.mem_singleton_self path)
        rw [hpath, hindexed.normal hc₀, ← hfound]
        exact List.mem_singleton_self _
      refine ⟨hfresh, ?_, ?_, (i, c) :: targets, ?_, ?_⟩
      · rw [hunresolved, hlost]
      · rw [hambiguous, hseveral]
      · rw [hsole]
        exact htargets.cons hc hmem
      · rw [hedits, List.append_assoc]
        rfl
  | @ambiguous i rest p looked found searches back result hlooks hlength _ ih =>
      rintro p' rfl
      obtain ⟨hfound, hfresh⟩ := hlooks.found_eq hfresh fun now hnow => hfiles now (by simp [hnow])
      obtain ⟨hfresh, hunresolved, hambiguous, hedits⟩ :=
        ih hfresh (fun now hnow => hfiles now (by simp [hnow])) p' rfl
      rw [hfound] at hlength
      obtain ⟨hlost, hsole, hseveral⟩ := filters_of_ambiguous hlength rest
      refine ⟨hfresh, ?_, ?_, ?_⟩
      · rw [hunresolved, hlost]
      · rw [hambiguous, hseveral, List.append_assoc]
        rfl
      · rwa [hsole]

/-- Sorting stops early only when it is told to. -/
theorem Sorting.cancelled {report : RepairReport} (h : r.Sorting d imports p log (.ok (.inl report))) :
    .isCancelled true ∈ log := by
  generalize hresult : (.ok (.inl report) : Except Failure (RepairReport ⊕ Progress)) = result at h
  induction h with
  | finished p => cases hresult
  | stopped i rest p => exact List.mem_singleton_self _
  | unresolved _ _ ih => exact List.mem_append_right _ (ih hresult)
  | failed _ _ => cases hresult
  | corrected _ _ _ ih => exact List.mem_append_right _ (List.mem_cons_of_mem _ (ih hresult))
  | ambiguous _ _ _ ih => exact List.mem_append_right _ (ih hresult)

/-- A file that is found can be redirected to; only a name for it can be missing. -/
theorem named_of_redirected_error {i : RelativeImport} {c : FileCandidate} {failure : Failure}
    (hindexed : r.Indexed files) (hc : c ∈ files)
    (h : r.redirected d i c.path files = .error failure) :
    ∃ c ∈ files, c.nameAndPath r.disk.cwd d.directory = .error failure := by
  rcases redirected_error h with ⟨-, hnone⟩ | ⟨c', hc', -, hname⟩
  · exact absurd (hindexed.normal hc).symm (hnone c hc)
  · exact ⟨c', hc', hname⟩

/-- Sorting fails only for a name. -/
theorem Sorting.named {failure : Failure} (h : r.Sorting d imports p log (.error failure))
    (hindexed : r.Indexed files) (hfresh : r.Fresh d files p.searches)
    (hfiles : ∀ now, .files now ∈ log → now = files) :
    ∃ c ∈ files, c.nameAndPath r.disk.cwd d.directory = .error failure := by
  generalize hresult : (.error failure : Except Failure (RepairReport ⊕ Progress)) = result at h
  induction h with
  | finished p => cases hresult
  | stopped i rest p => cases hresult
  | @failed _ _ _ _ _ _ now _ hlooks hredirected =>
      cases hresult
      obtain ⟨hfound, -⟩ := hlooks.found_eq hfresh fun now hnow => hfiles now (by simp [hnow])
      obtain ⟨c, hc, rfl⟩ := exists_of_mem_matching (hfound ▸ List.mem_singleton_self _)
      rw [hfiles now (by simp)] at hredirected
      exact named_of_redirected_error hindexed hc hredirected
  | unresolved hlooks _ ih =>
      obtain ⟨-, hfresh⟩ := hlooks.found_eq hfresh fun now hnow => hfiles now (by simp [hnow])
      exact ih hfresh (fun now hnow => hfiles now (by simp [hnow])) hresult
  | corrected hlooks _ _ ih =>
      obtain ⟨-, hfresh⟩ := hlooks.found_eq hfresh fun now hnow => hfiles now (by simp [hnow])
      exact ih hfresh (fun now hnow => hfiles now (by simp [hnow])) hresult
  | ambiguous hlooks _ _ ih =>
      obtain ⟨-, hfresh⟩ := hlooks.found_eq hfresh fun now hnow => hfiles now (by simp [hnow])
      exact ih hfresh (fun now hnow => hfiles now (by simp [hnow])) hresult

/-! ## Asking -/

/-- The prompt for an import. -/
def promptFor (r : Repairer) (d : Document) (files : List FileCandidate) (i : RelativeImport) : Prompt :=
  ⟨(r.labelled (r.matching d files i)).map (·.1), i.path⟩

/-- Items that offer some files: each once, and nothing else. -/
structure Offers (r : Repairer) (paths : List String) (items : List String) : Prop where
  once : ∀ path ∈ paths, items.count (r.label path) = 1
  only : ∀ item ∈ items, ∃ path ∈ paths, r.label path = item
  apart : ∀ path ∈ paths, ∀ path' ∈ paths, r.label path = r.label path' → path = path'

theorem Indexed.offers (hindexed : r.Indexed files) (i : RelativeImport) :
    r.Offers (r.matching d files i) (r.promptFor d files i).items := by
  have hlabels := r.labelled_labels (r.matching d files i)
  refine ⟨fun path hpath => ?_, fun item hitem => ?_, fun path hpath path' hpath' hlabel => ?_⟩
  · exact List.count_eq_one_of_mem hlabels.nodup (hlabels.all path hpath)
  · obtain ⟨l, hl, rfl⟩ := List.mem_map.mp hitem
    exact ⟨l.2, hlabels.own l hl⟩
  · obtain ⟨c, hc, rfl⟩ := exists_of_mem_matching hpath
    obtain ⟨c', hc', rfl⟩ := exists_of_mem_matching hpath'
    exact hindexed.apart hc hc' hlabel

/-- What a run of the loop that asks comes to if nothing is cancelled and every reply is an offered
item. -/
structure Asked (r : Repairer) (d : Document) (files : List FileCandidate) (imports : List RelativeImport)
    (p : Progress) (log : List Exchange) (report : RepairReport)
    (targets : List (RelativeImport × FileCandidate)) : Prop where
  meant : r.Targets d files imports targets
  edits : report.edits = p.edits ++ r.corrections d targets
  unresolved : report.unresolved = p.unresolved
  status : report.status = if p.unresolved.isEmpty then .allFixed else .partiallyFixed
  prompts : prompts log = targets.map fun t => r.promptFor d files t.1
  replies : replies log = targets.map fun t => some (r.label t.2.path)

theorem Looks.replies_append {i : RelativeImport} {searches searches' : Searches}
    {looked back : List Exchange} {found : List String} (h : r.Looks d i searches looked found searches') :
    replies (.isCancelled false :: looked ++ back) = replies back := by
  cases h <;> rfl

theorem Asking.asked {result : Except Failure RepairReport} (h : r.Asking d imports p log result)
    (hindexed : r.Indexed files) (hfresh : r.Fresh d files p.searches)
    (hfiles : ∀ now, .files now ∈ log → now = files)
    (huncancelled : ∀ answer, .isCancelled answer ∈ log → answer = false)
    (hoffered : ∀ items placeholder reply, .select items placeholder reply ∈ log →
      ∃ item ∈ items, reply = some item) :
    (∃ report, result = .ok report ∧ ∃ targets, r.Asked d files imports p log report targets) ∨
      ∃ c ∈ files, ∃ failure, c.nameAndPath r.disk.cwd d.directory = .error failure ∧
        result = .error failure := by
  induction h with
  | finished p =>
      exact .inl ⟨_, rfl, [], ⟨.nil, (List.append_nil _).symm, rfl, rfl, rfl, rfl⟩⟩
  | stopped i rest p => cases huncancelled true (by simp)
  | stoppedOpen hlooks _ => cases huncancelled true (by simp)
  | @dismissed i rest p looked found searches reply hlooks hdismisses =>
      obtain ⟨hfound, -⟩ := hlooks.found_eq hfresh fun now hnow => hfiles now (by simp [hnow])
      obtain ⟨item, hitem, rfl⟩ := hoffered _ _ _ (List.mem_append_right _ (List.mem_singleton_self _))
      rcases hdismisses with hdismisses | hdismisses
      · cases hdismisses
      · -- No file has an empty label.
        rw [Option.some.inj hdismisses, hfound] at hitem
        obtain ⟨path, hpath, hlabel⟩ := (hindexed.offers i).only _ hitem
        obtain ⟨c, hc, rfl⟩ := exists_of_mem_matching hpath
        exact absurd hlabel (hindexed.shown hc)
  | notOffered hlooks _ hlabels =>
      obtain ⟨item, hitem, hreply⟩ := hoffered _ _ _ (List.mem_append_right _ (List.mem_cons_self ..))
      rw [Option.some.inj hreply] at hlabels
      exact absurd hitem hlabels
  | @failed i rest p looked found searches chosen path now failure hlooks _ hlabel hredirected =>
      obtain ⟨hfound, -⟩ := hlooks.found_eq hfresh fun now hnow => hfiles now (by simp [hnow])
      obtain rfl := hfiles now (by simp)
      obtain ⟨hpath, -⟩ := (r.labelled_labels found).own _ hlabel
      rw [hfound] at hpath
      obtain ⟨c, hc, rfl⟩ := exists_of_mem_matching hpath
      obtain ⟨c, hc, hname⟩ := named_of_redirected_error hindexed hc hredirected
      exact .inr ⟨c, hc, failure, hname, rfl⟩
  | @corrected i rest p looked found searches chosen path now edit back result hlooks _ hlabel hredirected
      _ ih =>
      obtain ⟨hfound, hfresh⟩ := hlooks.found_eq hfresh fun now hnow => hfiles now (by simp [hnow])
      obtain rfl := hfiles now (by simp)
      obtain ⟨hpath, hchosen⟩ := (r.labelled_labels found).own _ hlabel
      rw [hfound] at hpath
      obtain ⟨c₀, hc₀, rfl⟩ := exists_of_mem_matching hpath
      obtain ⟨c, hc, hc', rfl⟩ := redirected_ok hredirected
      rw [hindexed.normal hc₀] at hc'
      rw [← hc'] at hpath hchosen
      refine (ih hfresh (fun now' hnow => hfiles now' (by simp [hnow]))
        (fun answer hanswer => huncancelled answer (by simp [hanswer]))
        fun items placeholder reply hselect => hoffered items placeholder reply (by simp [hselect])).imp_left ?_
      rintro ⟨report, rfl, targets, hasked⟩
      refine ⟨report, rfl, (i, c) :: targets, ⟨hasked.meant.cons hc hpath, ?_, hasked.unresolved,
        hasked.status, ?_, ?_⟩⟩
      · rw [hasked.edits, List.append_assoc]
        rfl
      · rw [hlooks.prompts_append, prompts_select, prompts_isCancelled, prompts_files, hasked.prompts,
          List.map_cons, promptFor, hfound]
      · rw [hlooks.replies_append, replies_select, replies_isCancelled, replies_files, hasked.replies,
          List.map_cons, hchosen]

/-! ## The whole pass -/

/-- The place of a literal in the source, as edits give it. -/
def span (i : RelativeImport) : Int × Int := (i.start, i.stop)

/-- What becomes of the broken imports of a document. -/
structure Accounts (r : Repairer) (d : Document) (files : List FileCandidate) (log : List Exchange)
    (report : RepairReport) : Prop where
  unresolved : report.unresolved = (r.brokenImports d).filter (r.isLost d files)
  /-- The imports that only one file is named like come first, then those that are asked for. -/
  corrected : ∃ sole asked,
    r.Targets d files ((r.brokenImports d).filter (r.isSole d files)) sole ∧
    r.Targets d files ((r.brokenImports d).filter (r.isAmbiguous d files)) asked ∧
    report.edits = r.corrections d (sole ++ asked) ∧
    prompts log = asked.map (fun t => r.promptFor d files t.1) ∧
    replies log = asked.map fun t => some (r.label t.2.path)
  /-- Each literal is that of one edit or of one unresolved import. -/
  once : (report.edits.map (fun e : Edit => (e.start, e.stop)) ++ report.unresolved.map span).Perm
    ((r.brokenImports d).map span)
  status : report.status = if (r.brokenImports d).isEmpty then .nothingBroken
    else if report.unresolved.isEmpty then .allFixed else .partiallyFixed

/-- Every import may mean one file, several, or none. -/
theorem filter_perm (imports : List RelativeImport) :
    (imports.filter (r.isSole d files) ++ imports.filter (r.isAmbiguous d files) ++
      imports.filter (r.isLost d files)).Perm imports := by
  induction imports with
  | nil => exact .refl _
  | cons i imports ih =>
      rcases Nat.lt_trichotomy (r.matching d files i).length 1 with hlength | hlength | hlength
      · obtain ⟨hlost, hsole, hseveral⟩ := filters_of_lost (Nat.lt_one_iff.mp hlength) imports
        rw [hlost, hsole, hseveral]
        exact List.perm_middle.trans (ih.cons i)
      · obtain ⟨hlost, hsole, hseveral⟩ := filters_of_sole hlength imports
        rw [hlost, hsole, hseveral]
        exact ih.cons i
      · obtain ⟨hlost, hsole, hseveral⟩ := filters_of_ambiguous hlength imports
        rw [hlost, hsole, hseveral, List.append_assoc]
        rw [List.append_assoc] at ih
        exact List.perm_middle.trans (ih.cons i)

theorem corrections_spans (targets : List (RelativeImport × FileCandidate)) :
    (r.corrections d targets).map (fun e : Edit => (e.start, e.stop)) = (targets.map (·.1)).map span := by
  rw [corrections, List.map_map, List.map_map]
  rfl

/-- The literals of the broken imports follow each other. -/
theorem brokenImports_ordered :
    (r.brokenImports d).Pairwise (fun i j => i.stop ≤ j.start) ∧
      ∀ i ∈ r.brokenImports d, i.start < i.stop ∧ (i.text d.source).toList.head? = some i.quote := by
  obtain ⟨hordered, hown⟩ := relativeImports_ordered d
  exact ⟨hordered.filter _, fun i hi => hown i (List.mem_filter.mp hi).1⟩

end Repairer

open Repairer in
/-- With an index that stays as it is and replies that are offered: the literals of the broken imports stand
one after the other, each in its own quotes, and a pass either accounts for each of them once or fails
for a naming rule that cannot be applied to a file. -/
theorem fix_accounts {r : Repairer} {d : Document} {index listed : WorkspaceIndex}
    {files : List FileCandidate} {turns : List Turn} {log : List Exchange}
    {result : Except Failure RepairReport} (hbuild : index.build r.disk = .ok (files, listed))
    (hindexed : r.Indexed files) (hattended : Attended r.disk index false turns log)
    (hquiet : ∀ turn ∈ turns, turn.deleted = [] ∧ turn.trips = false)
    (hoffered : ∀ items placeholder reply, .select items placeholder reply ∈ log →
      ∃ item ∈ items, reply = some item)
    (h : (r.fix d).Plays log result) :
    ((r.brokenImports d).Pairwise (fun i j => i.stop ≤ j.start) ∧
      ∀ i ∈ r.brokenImports d, i.start < i.stop ∧ (i.text d.source).toList.head? = some i.quote) ∧
    (∀ i, r.Offers (r.matching d files i) (r.promptFor d files i).items) ∧
    ((∃ report, result = .ok report ∧ r.Accounts d files log report) ∨
      ∃ c ∈ files, ∃ failure, c.nameAndPath r.disk.cwd d.directory = .error failure ∧
        result = .error failure) := by
  refine ⟨brokenImports_ordered, hindexed.offers, ?_⟩
  have hfiles := attended_unchanged hbuild (fun turn hturn => (hquiet turn hturn).1) hattended
  have huncancelled := attended_uncancelled rfl (fun turn hturn => (hquiet turn hturn).2) hattended
  have hfresh : r.Fresh d files Progress.start.searches := fun s hs => absurd hs List.not_mem_nil
  rcases fix_cases h with ⟨hbroken, rfl, rfl⟩ | ⟨hbroken, ⟨failure, hsort, rfl⟩ | ⟨report, hsort, rfl⟩ |
    ⟨p, front, back, hsort, hask, rfl⟩⟩
  · refine .inl ⟨_, rfl, ?_⟩
    constructor
    case unresolved => rw [hbroken]; rfl
    case corrected => exact ⟨[], [], by rw [hbroken]; exact .nil, by rw [hbroken]; exact .nil, rfl, rfl, rfl⟩
    case once => rw [hbroken]; exact .refl _
    case status => rw [hbroken]; rfl
  · obtain ⟨c, hc, hname⟩ := hsort.named hindexed hfresh hfiles
    exact .inr ⟨c, hc, failure, hname, rfl⟩
  · cases huncancelled true hsort.cancelled
  · obtain ⟨hfresh, hunresolved, hambiguous, sole, hsole, hedits⟩ := hsort.sorted hindexed hfresh
      (fun now hnow => hfiles now (List.mem_append_left _ hnow)) p rfl
    rw [Progress.start, List.nil_append] at hunresolved hambiguous hedits
    rcases hask.asked hindexed hfresh (fun now hnow => hfiles now (List.mem_append_right _ hnow))
      (fun answer hanswer => huncancelled answer (List.mem_append_right _ hanswer))
      (fun items placeholder reply hselect =>
        hoffered items placeholder reply (List.mem_append_right _ hselect)) with
      ⟨report, rfl, asked, hasked⟩ | hname
    · refine .inl ⟨report, rfl, ?_⟩
      have hall : report.edits = r.corrections d (sole ++ asked) := by
        rw [hasked.edits, hedits, corrections, corrections, corrections, List.map_append]
      have hmeant := hasked.meant
      rw [hambiguous] at hmeant
      constructor
      case unresolved => rw [hasked.unresolved, hunresolved]
      case corrected =>
        refine ⟨sole, asked, hsole, hmeant, hall, ?_, ?_⟩
        · rw [prompts_append, hsort.prompts_eq, List.nil_append, hasked.prompts]
        · rw [replies_append, replies_of_prompts hsort.prompts_eq, List.nil_append, hasked.replies]
      case once =>
        rw [hall, corrections_spans, hasked.unresolved, hunresolved, List.map_append, hsole.imports_eq,
          hmeant.imports_eq, ← List.map_append]
        exact (filter_perm (r.brokenImports d)).map span
      case status =>
        have hsome : ¬ (r.brokenImports d).isEmpty = true := mt List.isEmpty_iff.mp hbroken
        rw [if_neg hsome, hasked.status, hasked.unresolved]
    · exact .inr hname

/-- Of two files of one name the second one is picked. -/
theorem second_picked_accounts :
    (∀ items placeholder reply,
        .select items placeholder reply ∈
          utilLog (some "/b/util.js") [.isCancelled false, .files utilFiles] →
        ∃ item ∈ items, reply = some item) ∧
      (utilRepairer.fix utilDocument).Plays
        (utilLog (some "/b/util.js") [.isCancelled false, .files utilFiles])
        (.ok ⟨.allFixed, [⟨37, 47, "'./c/helper'"⟩, ⟨14, 22, "'./b/util'"⟩], []⟩) ∧
      utilRepairer.Accounts utilDocument utilFiles
        (utilLog (some "/b/util.js") [.isCancelled false, .files utilFiles])
        ⟨.allFixed, [⟨37, 47, "'./c/helper'"⟩, ⟨14, 22, "'./b/util'"⟩], []⟩ := by
  have hoffered : ∀ items placeholder reply,
      .select items placeholder reply ∈ utilLog (some "/b/util.js") [.isCancelled false, .files utilFiles] →
      ∃ item ∈ items, reply = some item := by
    intro items placeholder reply h
    have hselect : items = ["/a/util.js", "/b/util.js"] ∧ placeholder = "./util" ∧
        reply = some "/b/util.js" := by simpa [utilLog, utilFront] using h
    obtain ⟨rfl, -, rfl⟩ := hselect
    exact ⟨"/b/util.js", by simp, rfl⟩
  have hplays : (utilRepairer.fix utilDocument).Plays
      (utilLog (some "/b/util.js") [.isCancelled false, .files utilFiles])
      (.ok ⟨.allFixed, [⟨37, 47, "'./c/helper'"⟩, ⟨14, 22, "'./b/util'"⟩], []⟩) := by
    rw [Repairer.fix_eq utilDocument_broken]
    exact Dialogue.plays_of_replay (by decide +kernel)
  have hbuild : utilIndex.build utilRepairer.disk = .ok (utilFiles, utilIndex) := rfl
  have hattended : Attended utilRepairer.disk utilIndex false [⟨[], false, some "/b/util.js"⟩]
      (utilLog (some "/b/util.js") [.isCancelled false, .files utilFiles]) :=
    utilLog_attended ⟨[], false, some "/b/util.js"⟩ (.isCancelled (.files rfl (.nil _ _)))
  obtain ⟨-, -, ⟨report, hreport, haccounts⟩ | ⟨c, -, failure, -, hfailed⟩⟩ :=
    fix_accounts hbuild utilFiles_indexed hattended (by simp) hoffered hplays
  · cases hreport
    exact ⟨hoffered, hplays, haccounts⟩
  · cases hfailed

/-- The options of a workspace in which a rule for names is no pattern. -/
def misnamingOptions : Options := { predefinedNames := [("(", "x")] }

/-- The import may mean one file. It is in no edit and not left unresolved either, for the pass fails. -/
theorem misnamed_fails :
    Attended (loneRepairer "b.js").disk (loneIndex misnamingOptions "b.js") false []
        (loneLog misnamingOptions "b.js") ∧
      (loneRepairer "b.js").brokenImports loneDocument = [loneImport] ∧
      (loneRepairer "b.js").matching loneDocument (loneFiles misnamingOptions "b.js") loneImport =
        ["/ws/lib/b.js"] ∧
      ((loneRepairer "b.js").fix loneDocument).Plays (loneLog misnamingOptions "b.js")
        (.error .badPattern) := by
  have hbroken : (loneRepairer "b.js").brokenImports loneDocument = [loneImport] :=
    loneDocument_broken (by simp)
  refine ⟨loneLog_attended _ _, hbroken, by decide +kernel, Dialogue.plays_of_attempt ?_⟩
  rw [Repairer.fix_eq hbroken]
  exact Dialogue.plays_of_replay (by decide +kernel)

end ImportAssist
