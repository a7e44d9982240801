import ImportAssist.Proofs.RepairPass
import ImportAssist.Workspace.Index

/-!
# What a pass of the repairer is told

The requests of a pass go to an index, a token and a user. `Attended` says what they answer, given what
happens while each prompt is open: the index may be told of deletions, the token may trip, and the
user replies. Between prompts nothing changes, so up to the first prompt a pass sees one list of
files (`attended_before`), and later on none that was not in it (`Within.attended`).
-/

namespace ImportAssist

/-! ## Turns -/

/-- What happens while a prompt is open. -/
structure Turn where
  /-- The deletions that the index is told of. -/
  deleted : List String
  /-- Whether the token trips. -/
  trips : Bool
  reply : Option String

/-- The index after a turn. -/
def Turn.apply (cwd : String) (turn : Turn) (index : WorkspaceIndex) : WorkspaceIndex :=
  turn.deleted.foldl (fun index path => index.remove cwd path) index

/-- The transcripts of an operation that gets its files from an index, asks a token whether it is
cancelled, and opens one prompt for each of some turns. Index and token change only at the turns. -/
inductive Attended (disk : Disk) : WorkspaceIndex → Bool → List Turn → List Exchange → Prop where
  | nil (index tripped) : Attended disk index tripped [] []
  | files {index index' files tripped turns log} :
      index.build disk = .ok (files, index') →
      Attended disk index' tripped turns log →
      Attended disk index tripped turns (.files files :: log)
  | isCancelled {index tripped turns log} :
      Attended disk index tripped turns log →
      Attended disk index tripped turns (.isCancelled tripped :: log)
  | select {index tripped} {turn : Turn} {turns items placeholder log} :
      Attended disk (turn.apply disk.cwd index) (tripped || turn.trips) turns log →
      Attended disk index tripped (turn :: turns) (.select items placeholder turn.reply :: log)

section Attended

variable {disk : Disk} {index : WorkspaceIndex} {tripped : Bool} {turns : List Turn} {log : List Exchange}

theorem attended_nil (h : Attended disk index tripped turns []) : turns = [] := by
  cases h
  rfl

theorem attended_files {files : List FileCandidate}
    (h : Attended disk index tripped turns (.files files :: log)) :
    ∃ index', index.build disk = .ok (files, index') ∧ Attended disk index' tripped turns log := by
  cases h with
  | files hbuild h => exact ⟨_, hbuild, h⟩

theorem attended_isCancelled {answer : Bool}
    (h : Attended disk index tripped turns (.isCancelled answer :: log)) :
    answer = tripped ∧ Attended disk index tripped turns log := by
  cases h with
  | isCancelled h => exact ⟨rfl, h⟩

theorem attended_select {items : List String} {placeholder : String} {reply : Option String}
    (h : Attended disk index tripped turns (.select items placeholder reply :: log)) :
    ∃ turn rest, turns = turn :: rest ∧ reply = turn.reply ∧
      Attended disk (turn.apply disk.cwd index) (tripped || turn.trips) rest log := by
  cases h with
  | select h => exact ⟨_, _, rfl, rfl, h⟩

theorem not_attended_confirmReplace {identifier : String} {reply : Option Bool} :
    ¬ Attended disk index tripped turns (.confirmReplace identifier reply :: log) := nofun

/-- What every index of a pass keeps tells what files the pass is given. -/
theorem attended_invariant {P : WorkspaceIndex → Prop} {Q : List FileCandidate → Prop}
    (hbuild : ∀ index files index', P index → index.build disk = .ok (files, index') → Q files ∧ P index')
    (hturn : ∀ turn ∈ turns, ∀ index, P index → P (turn.apply disk.cwd index))
    (h : Attended disk index tripped turns log) (hindex : P index) : ∀ now, .files now ∈ log → Q now := by
  induction h with
  | nil index tripped => exact fun now hnow => absurd hnow List.not_mem_nil
  | files hfiles _ ih =>
      intro now hnow
      obtain ⟨hgiven, hkept⟩ := hbuild _ _ _ hindex hfiles
      rcases List.mem_cons.mp hnow with hnow | hnow
      · cases hnow
        exact hgiven
      · exact ih hturn hkept now hnow
  | isCancelled _ ih =>
      intro now hnow
      exact ih hturn hindex now (List.mem_of_ne_of_mem Exchange.noConfusion hnow)
  | @select _ _ turn _ _ _ _ _ ih =>
      intro now hnow
      exact ih (fun other hother => hturn other (List.mem_cons_of_mem _ hother))
        (hturn turn (List.mem_cons_self ..) _ hindex) now (List.mem_of_ne_of_mem Exchange.noConfusion hnow)

/-- Nothing is cancelled as long as the token does not trip. -/
theorem attended_uncancelled (htripped : tripped = false) (hquiet : ∀ turn ∈ turns, turn.trips = false)
    (h : Attended disk index tripped turns log) :
    ∀ answer, .isCancelled answer ∈ log → answer = false := by
  induction h with
  | nil index tripped => exact fun answer hanswer => absurd hanswer List.not_mem_nil
  | files _ _ ih =>
      intro answer hanswer
      exact ih htripped hquiet answer (List.mem_of_ne_of_mem Exchange.noConfusion hanswer)
  | isCancelled _ ih =>
      intro answer hanswer
      rcases List.mem_cons.mp hanswer with hanswer | hanswer
      · cases hanswer
        exact htripped
      · exact ih htripped hquiet answer hanswer
  | @select _ _ turn _ _ _ _ _ ih =>
      intro answer hanswer
      refine ih ?_ (fun other hother => hquiet other (List.mem_cons_of_mem _ hother)) answer
        (List.mem_of_ne_of_mem Exchange.noConfusion hanswer)
      rw [htripped, hquiet turn (List.mem_cons_self ..)]
      rfl

end Attended

/-! ## Files of an index that loses some -/

section Index

variable {disk : Disk} {index index' listed : WorkspaceIndex} {files now : List FileCandidate}

/-- An index that has no other files than some. -/
def Within (disk : Disk) (files : List FileCandidate) (index : WorkspaceIndex) : Prop :=
  ∀ now listed, index.build disk = .ok (now, listed) → now ⊆ files

/-- An index that is not listed has nothing to lose. -/
theorem remove_of_unlisted {cwd path : String} (h : index.files? = none) : index.remove cwd path = index := by
  rw [WorkspaceIndex.remove, h, Option.map_none, ← h]

/-- An index that has been listed is not listed again. -/
theorem build_again (h : index.build disk = .ok (files, listed)) :
    listed.build disk = .ok (files, listed) := by
  unfold WorkspaceIndex.build at h
  split at h
  · rename_i present hfiles
    cases h
    rw [WorkspaceIndex.build, hfiles]
  · cases hlist : listFiles disk index.root true with
    | error failure => rw [hlist] at h; cases h
    | ok paths => rw [hlist] at h; cases h; rfl

theorem within_of_build (h : index.build disk = .ok (files, listed)) : Within disk files index := by
  intro now listed' hnow
  rw [h] at hnow
  cases hnow
  exact List.Subset.refl _

theorem Within.build (hwithin : Within disk files index) (h : index.build disk = .ok (now, index')) :
    now ⊆ files ∧ Within disk files index' := by
  have hsubset := hwithin now index' h
  refine ⟨hsubset, fun now' listed' h' => ?_⟩
  rw [build_again h] at h'
  cases h'
  exact hsubset

theorem Within.remove {cwd path : String} (hwithin : Within disk files index) :
    Within disk files (index.remove cwd path) := by
  intro now listed h
  cases hfiles : index.files? with
  | none =>
      rw [remove_of_unlisted hfiles] at h
      exact hwithin now listed h
  | some present =>
      have hbuild : index.build disk = .ok (present, index) := by rw [WorkspaceIndex.build, hfiles]
      rw [WorkspaceIndex.remove, hfiles, WorkspaceIndex.build] at h
      cases h
      exact fun c hc => hwithin present index hbuild (List.mem_filter.mp hc).1

theorem Within.apply {cwd : String} {turn : Turn} (hwithin : Within disk files index) :
    Within disk files (turn.apply cwd index) := by
  unfold Turn.apply
  induction turn.deleted generalizing index with
  | nil => exact hwithin
  | cons path deleted ih => exact ih hwithin.remove

/-- An index that can be listed can be listed after a turn as well. -/
theorem exists_build_apply (cwd : String) (turn : Turn) (hbuild : index.build disk = .ok (files, listed)) :
    ∃ now listed', (turn.apply cwd index).build disk = .ok (now, listed') := by
  unfold Turn.apply
  induction turn.deleted generalizing index files listed with
  | nil => exact ⟨files, listed, hbuild⟩
  | cons path deleted ih =>
      have hremoved : ∃ now listed', (index.remove cwd path).build disk = .ok (now, listed') := by
        cases hfiles : index.files? with
        | none => exact ⟨files, listed, by rw [remove_of_unlisted hfiles, hbuild]⟩
        | some present =>
            rw [WorkspaceIndex.remove, hfiles, WorkspaceIndex.build]
            exact ⟨_, _, rfl⟩
      obtain ⟨now, listed', hnow⟩ := hremoved
      exact ih hnow

theorem Within.attended {tripped : Bool} {turns : List Turn} {log : List Exchange}
    (hwithin : Within disk files index) (h : Attended disk index tripped turns log) :
    ∀ now, .files now ∈ log → now ⊆ files :=
  attended_invariant (fun _ _ _ hwithin => hwithin.build) (fun _ _ _ hwithin => hwithin.apply) h hwithin

/-- Up to the first prompt the index has all its files. -/
theorem attended_before {tripped : Bool} {turns : List Turn} {front back : List Exchange}
    (hbuild : index.build disk = .ok (files, listed)) (hprompts : prompts front = [])
    (h : Attended disk index tripped turns (front ++ back)) :
    (∀ now, .files now ∈ front → now = files) ∧
      ∃ index' listed', index'.build disk = .ok (files, listed') ∧
        Attended disk index' tripped turns back := by
  induction front generalizing index listed with
  | nil => exact ⟨nofun, index, listed, hbuild, h⟩
  | cons e front ih =>
      cases e with
      | select items placeholder reply => cases hprompts
      | confirmReplace identifier reply => exact absurd h not_attended_confirmReplace
      | files answer =>
          obtain ⟨index', hanswer, h⟩ := attended_files h
          rw [hbuild] at hanswer
          cases hanswer
          obtain ⟨hfront, hback⟩ := ih (build_again hbuild) hprompts h
          refine ⟨fun now hnow => ?_, hback⟩
          rcases List.mem_cons.mp hnow with hnow | hnow
          · cases hnow
            rfl
          · exact hfront now hnow
      | isCancelled answer =>
          obtain ⟨-, h⟩ := attended_isCancelled h
          obtain ⟨hfront, hback⟩ := ih hbuild hprompts h
          exact ⟨fun now hnow => hfront now (List.mem_of_ne_of_mem Exchange.noConfusion hnow), hback⟩

/-- If nothing happens at the turns but replies, the index has its files all the time. -/
theorem attended_unchanged {tripped : Bool} {turns : List Turn} {log : List Exchange}
    (hbuild : index.build disk = .ok (files, listed)) (hquiet : ∀ turn ∈ turns, turn.deleted = [])
    (h : Attended disk index tripped turns log) : ∀ now, .files now ∈ log → now = files := by
  refine attended_invariant (P := fun index => ∃ listed, index.build disk = .ok (files, listed)) ?_ ?_ h
    ⟨listed, hbuild⟩
  · rintro index now index' ⟨listed, hlisted⟩ hnow
    rw [hlisted] at hnow
    cases hnow
    exact ⟨rfl, _, build_again hlisted⟩
  · rintro turn hturn index hlisted
    have hsame : turn.apply disk.cwd index = index := by
      rw [Turn.apply, hquiet turn hturn]
      rfl
    rwa [hsame]

end Index

/-! ## A workspace with two files of one name -/

/-- A document that imports two files by their names, from the wrong directory. -/
def utilDocument : Document :=
  ⟨"/ws/app.js", "import u from './util'\nimport h from './helper'\n", "javascript", 0⟩

/-- The name of the first import is that of two files. -/
def utilIndex : WorkspaceIndex :=
  let index := WorkspaceIndex.create "/ws" "/ws" {} .javascript
  let paths := ["/ws/app.js", "/ws/a/util.js", "/ws/b/util.js", "/ws/c/helper.js"]
  { index with files? := some (paths.map (index.candidate "/ws")) }

def utilFiles : List FileCandidate := utilIndex.files?.getD []

def utilRepairer : Repairer :=
  let directory (name : String) : List String × Entry := (["ws", name], .directory)
  let file (place : List String) : List String × Entry := ("ws" :: place, .file [])
  ⟨{ cwd := "/ws", entries := [(["ws"], .directory), directory "a", directory "b", directory "c", file ["app.js"],
    file ["a", "util.js"], file ["b", "util.js"], file ["c", "helper.js"]] }, .javascript, "/ws"⟩

theorem utilDocument_broken : utilRepairer.brokenImports utilDocument =
    [⟨"./util", 14, 22, '\x27'⟩, ⟨"./helper", 37, 47, '\x27'⟩] := by
  rw [Repairer.brokenImports, relativeImports_of_sorted [14, 37]
    [⟨"./util", 14, 22, '\x27'⟩, ⟨"./helper", 37, 47, '\x27'⟩] (by decide +kernel) (by decide)]
  decide +kernel

/-- A pass over the document up to its prompt. -/
def utilFront : List Exchange :=
  [.isCancelled false, .files utilFiles, .isCancelled false, .files utilFiles, .files utilFiles,
    .isCancelled false]

def utilLog (reply : Option String) (back : List Exchange) : List Exchange :=
  utilFront ++ .select ["/a/util.js", "/b/util.js"] "./util" reply :: back

theorem utilLog_attended (turn : Turn) {turns : List Turn} {back : List Exchange}
    (h : Attended utilRepairer.disk (turn.apply "/ws" utilIndex) turn.trips turns back) :
    Attended utilRepairer.disk utilIndex false (turn :: turns) (utilLog turn.reply back) :=
  .isCancelled (.files rfl (.isCancelled (.files rfl (.files rfl (.isCancelled (.select h))))))

/-- The files of the index after a turn. -/
def utilFilesAfter (turn : Turn) : List FileCandidate := ((turn.apply "/ws" utilIndex).files?).getD []

/-! ## A workspace with one file to be found -/

/-- A document that imports a file by its name, from the wrong directory. -/
def loneDocument : Document := ⟨"/ws/a.js", "import b from './b'\n", "javascript", 0⟩

def loneIndex (options : Options) (name : String) : WorkspaceIndex :=
  let index := WorkspaceIndex.create "/ws" "/ws" options .javascript
  { index with files? := some [index.candidate "/ws" ("/ws/lib/" ++ name)] }

def loneFiles (options : Options) (name : String) : List FileCandidate :=
  (loneIndex options name).files?.getD []

def loneRepairer (name : String) : Repairer :=
  ⟨{ cwd := "/ws", entries := [(["ws"], .directory), (["ws", "lib"], .directory), (["ws", "lib", name], .file [])] },
    .javascript, "/ws"⟩

def loneImport : RelativeImport := ⟨"./b", 14, 19, '\x27'⟩

theorem loneDocument_imports : relativeImports loneDocument = [loneImport] :=
  relativeImports_of_sorted [14] _ (by decide +kernel) (by decide)

theorem loneDocument_broken {name : String} (hname : name ∈ ["b.js", "b.jsx"]) :
    (loneRepairer name).brokenImports loneDocument = [loneImport] := by
  rw [Repairer.brokenImports, loneDocument_imports]
  revert name
  decide +kernel

/-- A pass over the document up to where the import is redirected. -/
def loneLog (options : Options) (name : String) : List Exchange :=
  [.isCancelled false, .files (loneFiles options name), .files (loneFiles options name)]

theorem loneLog_attended (options : Options) (name : String) :
    Attended (loneRepairer name).disk (loneIndex options name) false [] (loneLog options name) :=
  .isCancelled (.files rfl (.files rfl (.nil _ _)))

end ImportAssist
