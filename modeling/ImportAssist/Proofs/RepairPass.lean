import ImportAssist.Proofs.PathLiterals
import ImportAssist.Proofs.Transcript

/-!
# Passes of the repairer

A pass over the broken imports of a document first sorts them and then asks for those that may mean
several files. `Sorting` and `Asking` are the runs of these two loops, with one case for each way in
which a loop can go on or end. Every run of `Repairer.fix` is made of them (`fix_cases`), so what a
pass does is shown by induction on these runs.
-/

namespace ImportAssist

namespace Dialogue

variable {α β γ : Type}

theorem bind_assoc (x : Dialogue α) (f : α → Dialogue β) (g : β → Dialogue γ) :
    x >>= f >>= g = x >>= fun a => f a >>= g := by
  induction x with
  | done a => rfl
  | failed failure => rfl
  | select items placeholder next ih => exact congrArg (Dialogue.select items placeholder) (funext ih)
  | confirmReplace identifier next ih => exact congrArg (Dialogue.confirmReplace identifier) (funext ih)
  | files next ih => exact congrArg Dialogue.files (funext ih)
  | isCancelled next ih => exact congrArg Dialogue.isCancelled (funext ih)

/-- A transcript of two dialogues one after the other is one of each, unless the first one fails. -/
theorem plays_bind_cases {f : α → Dialogue β} : ∀ {x : Dialogue α} {log : List Exchange}
    {result : Except Failure β}, (x >>= f).Plays log result →
      (∃ failure, x.Plays log (.error failure) ∧ result = .error failure) ∨
      ∃ a front back, x.Plays front (.ok a) ∧ (f a).Plays back result ∧ log = front ++ back
  | .done a, log, _, h => .inr ⟨a, [], log, .done a, h, rfl⟩
  | .failed failure, _, _, .failed _ => .inl ⟨failure, .failed failure, rfl⟩
  | .select items placeholder next, _, _, .select h => by
      rcases plays_bind_cases (f := f) h with ⟨failure, hx, hresult⟩ | ⟨a, front, back, hx, hf, rfl⟩
      · exact .inl ⟨failure, .select hx, hresult⟩
      · exact .inr ⟨a, _, back, .select hx, hf, rfl⟩
  | .confirmReplace identifier next, _, _, .confirmReplace h => by
      rcases plays_bind_cases (f := f) h with ⟨failure, hx, hresult⟩ | ⟨a, front, back, hx, hf, rfl⟩
      · exact .inl ⟨failure, .confirmReplace hx, hresult⟩
      · exact .inr ⟨a, _, back, .confirmReplace hx, hf, rfl⟩
  | .files next, _, _, .files h => by
      rcases plays_bind_cases (f := f) h with ⟨failure, hx, hresult⟩ | ⟨a, front, back, hx, hf, rfl⟩
      · exact .inl ⟨failure, .files hx, hresult⟩
      · exact .inr ⟨a, _, back, .files hx, hf, rfl⟩
  | .isCancelled next, _, _, .isCancelled h => by
      rcases plays_bind_cases (f := f) h with ⟨failure, hx, hresult⟩ | ⟨a, front, back, hx, hf, rfl⟩
      · exact .inl ⟨failure, .isCancelled hx, hresult⟩
      · exact .inr ⟨a, _, back, .isCancelled hx, hf, rfl⟩

end Dialogue

/-! ## What one import is corrected to -/

namespace FileCandidate

/-- The import path of a file for a document in `fromDirectory`. -/
def pathFrom (cwd : String) (c : FileCandidate) (fromDirectory : String) : String :=
  let path := Path.importPath cwd c.path fromDirectory
  if c.throughDirectory then Path.stripLastSegment path
  else if c.withoutExtension then Path.stripExtension path (Path.extension c.path)
  else path

theorem nameAndPath_snd {cwd fromDirectory name path : String} {c : FileCandidate}
    (h : c.nameAndPath cwd fromDirectory = .ok (name, path)) : path = c.pathFrom cwd fromDirectory := by
  unfold nameAndPath at h
  unfold pathFrom
  cases hstem : variableName (Path.stem c.path) c.options with
  | error failure => rw [hstem] at h; cases h
  | ok own =>
      rw [hstem] at h
      dsimp only [bind, Except.bind] at h ⊢
      split at h
      case isTrue hthrough =>
        rw [if_pos hthrough]
        cases hdirectory : variableName (Path.directoryName c.path) c.options with
        | error failure => rw [hdirectory] at h; cases h
        | ok other =>
            rw [hdirectory] at h
            cases h
            rfl
      case isFalse hthrough =>
        rw [if_neg hthrough]
        split at h <;> cases h
        · rename_i hwithout
          rw [if_pos hwithout]
        · rename_i hwithout
          rw [if_neg hwithout]

end FileCandidate

namespace Repairer

variable {r : Repairer} {d : Document} {i : RelativeImport} {path : String}

/-- The files that an import may mean, of those that an index has. -/
def matching (r : Repairer) (d : Document) (files : List FileCandidate) (i : RelativeImport) :
    List String :=
  filesNamedLike r.family i.lastSegment (files.filter (·.path != Path.normalize d.path))

/-- The edit that makes an import lead to a file, in the quotes the import is written in. -/
def correction (r : Repairer) (d : Document) (i : RelativeImport) (c : FileCandidate) : Edit :=
  let mark := String.singleton i.quote
  ⟨i.start, i.stop, mark ++ c.pathFrom r.disk.cwd d.directory ++ mark⟩

/-- What comes of redirecting an import, by the files that the index has at that time. -/
def redirected (r : Repairer) (d : Document) (i : RelativeImport) (path : String)
    (files : List FileCandidate) : Except Failure Edit :=
  match files.find? (·.path == Path.normalize path) with
  | none => .error (.notIndexed path)
  | some c => (c.nameAndPath r.disk.cwd d.directory).map fun _ => r.correction d i c

theorem redirect_eq : r.redirect d i path = .files fun files => .ofExcept (r.redirected d i path files) := by
  unfold redirect redirected
  congr 1
  funext files
  cases files.find? (·.path == Path.normalize path) with
  | none => rfl
  | some c =>
      dsimp only
      cases hname : c.nameAndPath r.disk.cwd d.directory with
      | error failure => rfl
      | ok both =>
          obtain ⟨name, own⟩ := both
          rw [FileCandidate.nameAndPath_snd hname]
          rfl

theorem redirected_ok {files : List FileCandidate} {edit : Edit}
    (h : r.redirected d i path files = .ok edit) :
    ∃ c ∈ files, c.path = Path.normalize path ∧ edit = r.correction d i c := by
  unfold redirected at h
  split at h
  · cases h
  · rename_i c hfind
    refine ⟨c, List.mem_of_find?_eq_some hfind, by simpa using List.find?_some hfind, ?_⟩
    cases hname : c.nameAndPath r.disk.cwd d.directory with
    | error failure => rw [hname] at h; cases h
    | ok both => rw [hname] at h; cases h; rfl

/-- Redirecting fails if the file is not in the index, or for want of a name for it. -/
theorem redirected_error {files : List FileCandidate} {failure : Failure}
    (h : r.redirected d i path files = .error failure) :
    (failure = .notIndexed path ∧ ∀ c ∈ files, c.path ≠ Path.normalize path) ∨
      ∃ c ∈ files, c.path = Path.normalize path ∧ c.nameAndPath r.disk.cwd d.directory = .error failure := by
  unfold redirected at h
  split at h
  · rename_i hfind
    cases h
    exact .inl ⟨rfl, by simpa using hfind⟩
  · rename_i c hfind
    refine .inr ⟨c, List.mem_of_find?_eq_some hfind, by simpa using List.find?_some hfind, ?_⟩
    cases hname : c.nameAndPath r.disk.cwd d.directory with
    | error failure' => rw [hname] at h; cases h; rfl
    | ok both => rw [hname] at h; cases h

/-! ## Runs of the two loops -/

/-- A reply that picks nothing. -/
def Dismisses (reply : Option String) : Prop := reply = none ∨ reply = some ""

/-- A search: what it asks, what it finds, and what is known afterwards. -/
inductive Looks (r : Repairer) (d : Document) (i : RelativeImport) :
    Searches → List Exchange → List String → Searches → Prop where
  | known {searches found} : searches.find? (·.1 == i.lastSegment) = some (i.lastSegment, found) →
      Looks r d i searches [] found searches
  | fresh {searches} (files : List FileCandidate) :
      searches.find? (·.1 == i.lastSegment) = none →
      Looks r d i searches [.files files] (r.matching d files i)
        ((i.lastSegment, r.matching d files i) :: searches)

theorem looks_of_plays {β : Type} {searches : Searches} {log : List Exchange}
    {result : Except Failure β} {next : List String × Searches → Dialogue β}
    (h : (r.search d i searches >>= next).Plays log result) :
    ∃ looked found searches' back, r.Looks d i searches looked found searches' ∧
      (next (found, searches')).Plays back result ∧ log = looked ++ back := by
  unfold search at h
  split at h
  · rename_i segment found hfind
    have hsegment : segment = i.lastSegment := by simpa using List.find?_some hfind
    rw [hsegment] at hfind
    exact ⟨[], found, searches, log, .known hfind, h, rfl⟩
  · rename_i hfind
    obtain _ | _ | _ | _ | h | _ := h
    exact ⟨_, _, _, _, .fresh _ hfind, h, rfl⟩

/-- A run of the loop that sorts the imports. -/
inductive Sorting (r : Repairer) (d : Document) :
    List RelativeImport → Progress → List Exchange → Except Failure (RepairReport ⊕ Progress) → Prop where
  | finished (p) : Sorting r d [] p [] (.ok (.inr p))
  | stopped (i rest p) : Sorting r d (i :: rest) p [.isCancelled true] (.ok (.inl (p.report .cancelled)))
  | unresolved {i rest p looked searches back result} :
      r.Looks d i p.searches looked [] searches →
      Sorting r d rest { p with searches := searches, unresolved := p.unresolved ++ [i] } back result →
      Sorting r d (i :: rest) p (.isCancelled false :: looked ++ back) result
  | failed {i rest p looked path searches files failure} :
      r.Looks d i p.searches looked [path] searches →
      r.redirected d i path files = .error failure →
      Sorting r d (i :: rest) p (.isCancelled false :: looked ++ [.files files]) (.error failure)
  | corrected {i rest p looked path searches files edit back result} :
      r.Looks d i p.searches looked [path] searches →
      r.redirected d i path files = .ok edit →
      Sorting r d rest { p with searches := searches, edits := p.edits ++ [edit] } back result →
      Sorting r d (i :: rest) p (.isCancelled false :: looked ++ .files files :: back) result
  | ambiguous {i rest p looked found searches back result} :
      r.Looks d i p.searches looked found searches →
      1 < found.length →
      Sorting r d rest { p with searches := searches, ambiguous := p.ambiguous ++ [i] } back result →
      Sorting r d (i :: rest) p (.isCancelled false :: looked ++ back) result

/-- A run of the loop that asks for the ambiguous imports. -/
inductive Asking (r : Repairer) (d : Document) :
    List RelativeImport → Progress → List Exchange → Except Failure RepairReport → Prop where
  | finished (p) : Asking r d [] p []
      (.ok (p.report (if p.unresolved.isEmpty then .allFixed else .partiallyFixed)))
  | stopped (i rest p) : Asking r d (i :: rest) p [.isCancelled true] (.ok (p.report .cancelled))
  | dismissed {i rest p looked found searches reply} :
      r.Looks d i p.searches looked found searches →
      Dismisses reply →
      Asking r d (i :: rest) p
        (.isCancelled false :: looked ++ [.select ((r.labelled found).map (·.1)) i.path reply])
        (.ok (p.report .cancelled))
  | stoppedOpen {i rest p looked found searches chosen} :
      r.Looks d i p.searches looked found searches →
      chosen ≠ "" →
      Asking r d (i :: rest) p
        (.isCancelled false :: looked ++
          [.select ((r.labelled found).map (·.1)) i.path (some chosen), .isCancelled true])
        (.ok (p.report .cancelled))
  | notOffered {i rest p looked found searches chosen} :
      r.Looks d i p.searches looked found searches →
      chosen ≠ "" →
      chosen ∉ (r.labelled found).map (·.1) →
      Asking r d (i :: rest) p
        (.isCancelled false :: looked ++
          [.select ((r.labelled found).map (·.1)) i.path (some chosen), .isCancelled false])
        (.error (.notOffered chosen))
  | failed {i rest p looked found searches chosen path files failure} :
      r.Looks d i p.searches looked found searches →
      chosen ≠ "" →
      (chosen, path) ∈ r.labelled found →
      r.redirected d i path files = .error failure →
      Asking r d (i :: rest) p
        (.isCancelled false :: looked ++
          [.select ((r.labelled found).map (·.1)) i.path (some chosen), .isCancelled false, .files files])
        (.error failure)
  | corrected {i rest p looked found searches chosen path files edit back result} :
      r.Looks d i p.searches looked found searches →
      chosen ≠ "" →
      (chosen, path) ∈ r.labelled found →
      r.redirected d i path files = .ok edit →
      Asking r d rest { p with searches := searches, edits := p.edits ++ [edit] } back result →
      Asking r d (i :: rest) p
        (.isCancelled false :: looked ++
          .select ((r.labelled found).map (·.1)) i.path (some chosen) :: .isCancelled false ::
            .files files :: back)
        result

/-- A transcript of a redirection and what follows starts with the files of the index. -/
theorem redirected_of_plays {β : Type} {log : List Exchange} {result : Except Failure β}
    {next : Edit → Dialogue β} (h : (r.redirect d i path >>= next).Plays log result) :
    ∃ files, (∃ failure, r.redirected d i path files = .error failure ∧ log = [.files files] ∧
        result = .error failure) ∨
      ∃ edit back, r.redirected d i path files = .ok edit ∧ log = .files files :: back ∧
        (next edit).Plays back result := by
  rw [redirect_eq] at h
  obtain _ | _ | _ | _ | @⟨_, files, back, _, hrest⟩ | _ := h
  change (Dialogue.ofExcept (r.redirected d i path files) >>= next).Plays back result at hrest
  refine ⟨files, ?_⟩
  cases hedit : r.redirected d i path files with
  | error failure =>
      rw [hedit] at hrest
      cases hrest
      exact .inl ⟨failure, rfl, rfl, rfl⟩
  | ok edit =>
      rw [hedit] at hrest
      exact .inr ⟨edit, back, rfl, rfl, hrest⟩

theorem sorting_of_plays {result : Except Failure (RepairReport ⊕ Progress)} :
    ∀ (imports : List RelativeImport) {p : Progress} {log : List Exchange},
      (r.sortOut d imports p).Plays log result → r.Sorting d imports p log result
  | [], p, log, h => by
      obtain ⟨rfl, rfl⟩ := Dialogue.plays_done h
      exact .finished p
  | i :: rest, p, log, h => by
      unfold sortOut at h
      obtain _ | _ | _ | _ | _ | @⟨_, answer, back, _, h⟩ := h
      cases answer with
      | true =>
          obtain ⟨rfl, rfl⟩ := Dialogue.plays_done h
          exact .stopped i rest p
      | false =>
          obtain ⟨looked, found, searches, back, hlooks, hrest, rfl⟩ := looks_of_plays h
          match found, hlooks, hrest with
          | [], hlooks, hrest => exact .unresolved hlooks (sorting_of_plays rest hrest)
          | [path], hlooks, hrest =>
              obtain ⟨files, ⟨failure, hedit, rfl, rfl⟩ | ⟨edit, back, hedit, rfl, hback⟩⟩ :=
                redirected_of_plays hrest
              · exact .failed hlooks hedit
              · exact .corrected hlooks hedit (sorting_of_plays rest hback)
          | _ :: _ :: _, hlooks, hrest =>
              exact .ambiguous hlooks (by simp) (sorting_of_plays rest hrest)

theorem asking_of_plays {result : Except Failure RepairReport} :
    ∀ (imports : List RelativeImport) {p : Progress} {log : List Exchange},
      (r.askEach d imports p).Plays log result → r.Asking d imports p log result
  | [], p, log, h => by
      obtain ⟨rfl, rfl⟩ := Dialogue.plays_done h
      exact .finished p
  | i :: rest, p, log, h => by
      unfold askEach at h
      obtain _ | _ | _ | _ | _ | @⟨_, answer, back, _, h⟩ := h
      cases answer with
      | true =>
          obtain ⟨rfl, rfl⟩ := Dialogue.plays_done h
          exact .stopped i rest p
      | false =>
          obtain ⟨looked, found, searches, back, hlooks, hrest, rfl⟩ := looks_of_plays h
          obtain _ | _ | @⟨_, _, _, reply, back, _, h⟩ | _ | _ | _ := hrest
          cases reply with
          | none =>
              obtain ⟨rfl, rfl⟩ := Dialogue.plays_done h
              exact .dismissed hlooks (.inl rfl)
          | some chosen =>
              dsimp only at h
              by_cases hempty : chosen = ""
              · rw [if_pos hempty] at h
                obtain ⟨rfl, rfl⟩ := Dialogue.plays_done h
                exact .dismissed hlooks (.inr (by rw [hempty]))
              · rw [if_neg hempty] at h
                obtain _ | _ | _ | _ | _ | @⟨_, answer, back, _, h⟩ := h
                cases answer with
                | true =>
                    obtain ⟨rfl, rfl⟩ := Dialogue.plays_done h
                    exact .stoppedOpen hlooks hempty
                | false =>
                    dsimp only at h
                    split at h
                    · rename_i hfind
                      cases h
                      refine .notOffered hlooks hempty fun hmem => ?_
                      obtain ⟨l, hl, hchosen⟩ := List.mem_map.mp hmem
                      exact List.find?_eq_none.mp hfind l hl (beq_iff_eq.mpr hchosen)
                    · rename_i label path hfind
                      have hlabel : label = chosen := by simpa using List.find?_some hfind
                      have hmem := List.mem_of_find?_eq_some hfind
                      rw [hlabel] at hmem
                      obtain ⟨files, ⟨failure, hedit, rfl, rfl⟩ | ⟨edit, back, hedit, rfl, hback⟩⟩ :=
                        redirected_of_plays h
                      · exact .failed hlooks hempty hmem hedit
                      · exact .corrected hlooks hempty hmem hedit (asking_of_plays rest hback)

/-- How a pass starts. -/
def Progress.start : Progress := ⟨[], [], [], []⟩

/-- A run of a pass over broken imports is one of the loop that sorts them, and, if that comes to its
end, one of the loop that asks. -/
theorem fix_cases {log : List Exchange} {result : Except Failure RepairReport}
    (h : (r.fix d).Plays log result) :
    (r.brokenImports d = [] ∧ log = [] ∧ result = .ok ⟨.nothingBroken, [], []⟩) ∨
    r.brokenImports d ≠ [] ∧
      ((∃ failure, r.Sorting d (r.brokenImports d) .start log (.error failure) ∧ result = .error failure) ∨
      (∃ report, r.Sorting d (r.brokenImports d) .start log (.ok (.inl report)) ∧ result = .ok report) ∨
      ∃ p front back, r.Sorting d (r.brokenImports d) .start front (.ok (.inr p)) ∧
        r.Asking d p.ambiguous p back result ∧ log = front ++ back) := by
  unfold fix at h
  split at h
  · rename_i hbroken
    obtain ⟨rfl, rfl⟩ := Dialogue.plays_done h
    exact .inl ⟨hbroken, rfl, rfl⟩
  · rename_i hbroken
    refine .inr ⟨fun hempty => hbroken hempty, ?_⟩
    rcases Dialogue.plays_bind_cases h with
      ⟨failure, hsort, rfl⟩ | ⟨report | p, front, back, hsort, hrest, rfl⟩
    · exact .inl ⟨failure, sorting_of_plays _ hsort, rfl⟩
    · obtain ⟨rfl, rfl⟩ := Dialogue.plays_done hrest
      rw [List.append_nil]
      exact .inr (.inl ⟨report, sorting_of_plays _ hsort, rfl⟩)
    · exact .inr (.inr ⟨p, front, back, sorting_of_plays _ hsort, asking_of_plays _ hrest, rfl⟩)

theorem fix_eq {rest : List RelativeImport} (h : r.brokenImports d = i :: rest) :
    r.fix d = (do
      match ← r.sortOut d (i :: rest) .start with
      | .inl report => pure report
      | .inr p => r.askEach d p.ambiguous p) := by
  rw [fix, h]
  rfl

end Repairer

/-! ## Prompts -/

/-- A choice that is put to the user. -/
structure Prompt where
  items : List String
  placeholder : String
  deriving DecidableEq, Repr

def prompts (log : List Exchange) : List Prompt :=
  log.filterMap fun
    | .select items placeholder _ => some ⟨items, placeholder⟩
    | _ => none

def replies (log : List Exchange) : List (Option String) :=
  log.filterMap fun
    | .select _ _ reply => some reply
    | _ => none

section Log

variable {log : List Exchange} {items : List String} {placeholder : String} {reply : Option String}
  {files : List FileCandidate} {answer : Bool}

@[simp]
theorem prompts_select :
    prompts (.select items placeholder reply :: log) = ⟨items, placeholder⟩ :: prompts log := rfl

@[simp]
theorem prompts_files : prompts (.files files :: log) = prompts log := rfl

@[simp]
theorem prompts_isCancelled : prompts (.isCancelled answer :: log) = prompts log := rfl

@[simp]
theorem replies_select : replies (.select items placeholder reply :: log) = reply :: replies log := rfl

@[simp]
theorem replies_files : replies (.files files :: log) = replies log := rfl

@[simp]
theorem replies_isCancelled : replies (.isCancelled answer :: log) = replies log := rfl

end Log

theorem prompts_append (front back : List Exchange) :
    prompts (front ++ back) = prompts front ++ prompts back := List.filterMap_append ..

theorem replies_append (front back : List Exchange) :
    replies (front ++ back) = replies front ++ replies back := List.filterMap_append ..

theorem replies_of_prompts {log : List Exchange} (h : prompts log = []) : replies log = [] := by
  induction log with
  | nil => rfl
  | cons e log ih =>
      cases e with
      | select items placeholder reply => cases h
      | confirmReplace identifier reply => exact ih h
      | files answer => exact ih h
      | isCancelled answer => exact ih h

theorem Repairer.Looks.prompts_eq {r : Repairer} {d : Document} {i : RelativeImport}
    {searches searches' : Repairer.Searches} {looked : List Exchange} {found : List String}
    (h : r.Looks d i searches looked found searches') : prompts (.isCancelled false :: looked) = [] := by
  cases h <;> rfl

theorem Repairer.Looks.prompts_append {r : Repairer} {d : Document} {i : RelativeImport}
    {searches searches' : Repairer.Searches} {looked back : List Exchange} {found : List String}
    (h : r.Looks d i searches looked found searches') :
    prompts (.isCancelled false :: looked ++ back) = prompts back := by
  rw [ImportAssist.prompts_append, h.prompts_eq, List.nil_append]

/-- Nothing is asked while the imports are sorted. -/
theorem Repairer.Sorting.prompts_eq {r : Repairer} {d : Document} {imports : List RelativeImport}
    {p : Repairer.Progress} {log : List Exchange} {result : Except Failure (RepairReport ⊕ Repairer.Progress)}
    (h : r.Sorting d imports p log result) : prompts log = [] := by
  induction h with
  | finished p => rfl
  | stopped i rest p => rfl
  | unresolved hlooks _ ih => exact hlooks.prompts_append.trans ih
  | failed hlooks _ => exact hlooks.prompts_append
  | corrected hlooks _ _ ih => exact hlooks.prompts_append.trans ih
  | ambiguous hlooks _ _ ih => exact hlooks.prompts_append.trans ih

end ImportAssist
