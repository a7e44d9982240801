import ImportAssist.Proofs.BestEffort
import ImportAssist.Proofs.ImportTargets
import ImportAssist.Proofs.IndexFiles
import ImportAssist.Proofs.SessionFrames
import Mathlib.Data.List.Find

/-!
# Dry runs

A run that is asked to write nothing shows what would change, and calls no linter. A repair then leaves the disk as it
is, however it ends (`keeps_runFix`). An addition does so up to its end, but there it stores the histories as ever
(`runAdd_saves`), also where the user has dismissed it. `dry_run_writes` says what comes of it: what is on the disk
stays, but for the file with the histories and the directories that lead to it (`HistoriesStored`).
-/

namespace ImportAssist

open ImportAssist.Path (IsSegment Rooted rooted)

/-! ## What is written to a disk -/

namespace Disk

variable {disk : Disk} {place segments : List String}

theorem at?_nil : disk.at? [] = some .directory := rfl

theorem at?_set (disk : Disk) (hne : segments ≠ []) (entry : Entry) (place : List String) :
    (disk.set segments entry).at? place = if place = segments then some entry else disk.at? place := by
  unfold at? set
  by_cases hempty : place = []
  · subst hempty
    rw [if_neg hne.symm]
    rfl
  · rw [List.isEmpty_eq_false_iff.mpr hempty, List.find?_append, List.find?_filter]
    by_cases hplace : place = segments
    · subst hplace
      have hnone : disk.entries.find? (fun e => (e.1 != place) = true ∧ (e.1 == place) = true) = none :=
        List.find?_eq_none.mpr fun e _ => by simp
      rw [hnone, if_pos rfl]
      simp
    · have hsame : disk.entries.find? (fun e => (e.1 != segments) = true ∧ (e.1 == place) = true) =
          disk.entries.find? (·.1 == place) := List.find?_congr fun e _ => by
        by_cases he : e.1 = place
        · simp [he, hplace]
        · simp [he]
      rw [hsame, if_neg hplace]
      simp [Ne.symm hplace]

/-- Making directories leaves everything else. -/
theorem at?_foldl_make (place : List String) : ∀ (places : List (List String)) (disk : Disk),
    (places.foldl (fun d above => if (d.at? above).isSome then d else d.set above .directory) disk).at? place =
      (disk.at? place).or (if place ∈ places then some .directory else none)
  | [], disk => by simp
  | above :: places, disk => by
      rw [List.foldl_cons, at?_foldl_make place places]
      by_cases hthere : (disk.at? above).isSome = true
      · rw [if_pos hthere]
        by_cases hplace : place = above
        · subst hplace
          obtain ⟨entry, hentry⟩ := Option.isSome_iff_exists.mp hthere
          simp [hentry]
        · simp [hplace]
      · rw [if_neg hthere]
        have hne : above ≠ [] := by
          rintro rfl
          exact hthere rfl
        rw [at?_set _ hne]
        by_cases hplace : place = above
        · subst hplace
          have hnone : disk.at? place = none := by simpa using hthere
          simp [hnone]
        · simp [hplace]

theorem at?_makeDirectory (segments place : List String) :
    (disk.makeDirectory segments).at? place =
      (disk.at? place).or (if place ∈ ancestry segments then some .directory else none) :=
  at?_foldl_make place _ _

theorem mem_ancestry : place ∈ ancestry segments ↔ place ≠ [] ∧ place <+: segments := by
  unfold ancestry
  rw [List.mem_map]
  constructor
  · rintro ⟨n, hn, rfl⟩
    rw [List.mem_range] at hn
    refine ⟨fun h => ?_, List.take_prefix _ _⟩
    rw [List.take_eq_nil_iff] at h
    obtain h | rfl := h
    · omega
    · simp at hn
  · rintro ⟨hne, hprefix⟩
    have hpos := List.length_pos_iff.mpr hne
    have hle := hprefix.length_le
    refine ⟨place.length - 1, List.mem_range.mpr (by omega), ?_⟩
    rw [Nat.sub_add_cancel hpos]
    exact (List.prefix_iff_eq_take.mp hprefix).symm

theorem step_of_directory {name : String} (hname : IsSegment name) (h : disk.at? place = some .directory) :
    disk.step place name = .ok (place ++ [name]) := by
  simp [step, h, hname.ne_empty, hname.ne_dot, hname.ne_dots]

/-- A path through directories leads where its segments say. -/
theorem foldlM_step_of_directories (disk : Disk) : ∀ {segments here : List String}, (∀ s ∈ segments, IsSegment s) →
    (∀ above, above <+: segments → disk.at? (here ++ above) = some .directory) →
    segments.foldlM disk.step here = .ok (here ++ segments)
  | [], here, _, _ => by
      rw [List.append_nil]
      rfl
  | s :: segments, here, hall, hway => by
      have hhere : disk.at? here = some .directory := by simpa using hway [] List.nil_prefix
      have hrest : segments.foldlM disk.step (here ++ [s]) = .ok (here ++ [s] ++ segments) := by
        refine foldlM_step_of_directories disk (fun t ht => hall t (List.mem_cons_of_mem _ ht)) fun above habove => ?_
        rw [List.append_assoc]
        exact hway (s :: above) ((List.prefix_cons_inj s).mpr habove)
      rw [List.foldlM_cons, step_of_directory (hall s List.mem_cons_self) hhere, List.append_cons here s segments]
      exact hrest

/-- A file can be written in a directory that is there, if it is none itself. -/
theorem write_of_directories {k : Nat} {name : String} (hk : k = 1 ∨ k = 2)
    (hall : ∀ s ∈ segments ++ [name], IsSegment s)
    (hway : ∀ above, above <+: segments → disk.at? above = some .directory) (content : Bytes) :
    disk.write (rooted k (segments ++ [name])) content =
      if disk.at? (segments ++ [name]) = some .directory then
        .error ⟨.isDirectory, rooted k (segments ++ [name])⟩
      else .ok (disk.set (segments ++ [name]) (.file content)) := by
  have hparent : disk.at? segments = some .directory := hway segments List.prefix_rfl
  have hplace : disk.locate (rooted k (segments ++ [name])) = .ok (segments ++ [name]) := by
    have hfront : segments.foldlM disk.step [] = .ok segments :=
      foldlM_step_of_directories disk (fun s hs => hall s (List.mem_append_left _ hs)) hway
    have hlast : [name].foldlM disk.step segments = .ok (segments ++ [name]) := by
      rw [List.foldlM_cons, step_of_directory (hall name (by simp)) hparent]
      rfl
    rw [locate_rooted hk hall, List.foldlM_append, hfront]
    exact hlast
  rw [write, hplace]
  dsimp only
  rw [List.dropLast_concat, hparent]
  cases disk.at? (segments ++ [name]) with
  | none => rfl
  | some entry =>
      cases entry with
      | file _ => rfl
      | directory => rfl

end Disk

/-! ## Stored histories -/

namespace CommandLine

open Session (Acting)

variable {root : String} {disk : Disk} {place : List String}

/-- Where a workspace stores its histories. -/
def historyPlace (root : String) : List String := (Path.Parts.read (recentPath root)).segments

/-- Whether there is a place for the histories of a workspace. -/
def Storable (disk : Disk) (root : String) : Prop :=
  canMake disk (historyPlace root).dropLast = true ∧ disk.at? (historyPlace root) ≠ some .directory

instance (disk : Disk) (root : String) : Decidable (Storable disk root) := inferInstanceAs (Decidable (_ ∧ _))

/-- A disk on which nothing but histories have been stored: these in their file, if there is a place for them, and the
directories that lead there, where there was nothing. -/
structure HistoriesStored (disk : Disk) (root : String) (recency : Recency Json) (after : Disk) : Prop where
  file : after.at? (historyPlace root) =
    if Storable disk root then some (.file (Utf8.encode recency.toJson.indented)) else disk.at? (historyPlace root)
  others : ∀ place ≠ historyPlace root, after.at? place = (disk.at? place).or
    (if canMake disk (historyPlace root).dropLast ∧ place ∈ Disk.ancestry (historyPlace root).dropLast
      then some .directory else none)

theorem isSegment_directoryName : IsSegment Config.directoryName := by
  refine ⟨?_, ?_, ?_, ?_⟩ <;> decide

theorem isSegment_recent : IsSegment "recent.json" := by
  refine ⟨?_, ?_, ?_, ?_⟩ <;> decide

theorem at?_of_canMake {segments : List String} (hmake : canMake disk segments = true)
    (hplace : place ∈ Disk.ancestry segments) : (disk.makeDirectory segments).at? place = some .directory := by
  rw [Disk.at?_makeDirectory, if_pos hplace]
  have hfree := List.all_eq_true.mp hmake place hplace
  cases hthere : disk.at? place with
  | none => rfl
  | some entry =>
      cases entry with
      | directory => rfl
      | file content => simp [hthere] at hfree

/-- The directory for the histories and their file by their segments. -/
theorem recentPath_rooted {k : Nat} (hk : k = 1 ∨ k = 2) (h : Rooted k root) :
    ∃ directory, (Path.Parts.read (Path.join root Config.directoryName)).segments = directory ∧
      (∀ s ∈ directory ++ ["recent.json"], IsSegment s) ∧
      recentPath root = rooted k (directory ++ ["recent.json"]) ∧ historyPlace root = directory ++ ["recent.json"] := by
  obtain ⟨segments, hsegments, rfl⟩ := h
  have hdirectory : ∀ s ∈ segments ++ [Config.directoryName], IsSegment s :=
    List.forall_mem_append.mpr ⟨hsegments, List.forall_mem_singleton.mpr isSegment_directoryName⟩
  have hfile : ∀ s ∈ segments ++ [Config.directoryName] ++ ["recent.json"], IsSegment s :=
    List.forall_mem_append.mpr ⟨hdirectory, List.forall_mem_singleton.mpr isSegment_recent⟩
  have hjoin := Rooted.join_singleton hk hsegments isSegment_directoryName
  have hpath : recentPath (rooted k segments) = rooted k (segments ++ [Config.directoryName] ++ ["recent.json"]) := by
    rw [recentPath, hjoin, Rooted.join_singleton hk hdirectory isSegment_recent]
  refine ⟨segments ++ [Config.directoryName], ?_, hfile, hpath, ?_⟩
  · rw [hjoin, Path.Parts.read_rooted hk hdirectory]
  · rw [historyPlace, hpath, Path.Parts.read_rooted hk hfile]

/-- Storing the histories of a session changes the disk by nothing else. -/
theorem saveRecent_stored {s : Session} {k : Nat} (hk : k = 1 ∨ k = 2) (h : Rooted k s.root) :
    HistoriesStored s.disk s.root s.recency (saveRecent s).disk := by
  obtain ⟨directory, hfront, hall, hpath, hplace⟩ := recentPath_rooted hk h
  have hparent : (historyPlace s.root).dropLast = directory := by rw [hplace, List.dropLast_concat]
  have hbeyond : directory ++ ["recent.json"] ∉ Disk.ancestry directory := fun h => by
    simpa using (Disk.mem_ancestry.mp h).2.length_le
  have hsame : (s.disk.makeDirectory directory).at? (directory ++ ["recent.json"]) =
      s.disk.at? (directory ++ ["recent.json"]) := by
    rw [Disk.at?_makeDirectory, if_neg hbeyond, Option.or_none]
  unfold saveRecent
  rw [hfront, hpath]
  dsimp only
  by_cases hmake : canMake s.disk directory = true
  · have hway : ∀ above, above <+: directory → (s.disk.makeDirectory directory).at? above = some .directory := by
      intro above habove
      by_cases hnil : above = []
      · rw [hnil, Disk.at?_nil]
      · exact at?_of_canMake hmake (Disk.mem_ancestry.mpr ⟨hnil, habove⟩)
    have hwrite := Disk.write_of_directories hk hall hway (Utf8.encode s.recency.toJson.indented)
    have hothers (place : List String) : (s.disk.makeDirectory directory).at? place = (s.disk.at? place).or
        (if canMake s.disk (historyPlace s.root).dropLast ∧ place ∈ Disk.ancestry (historyPlace s.root).dropLast
          then some .directory else none) := by
      rw [Disk.at?_makeDirectory, hparent]
      simp only [hmake, true_and]
    rw [if_pos hmake, hwrite, hsame]
    by_cases hfile : s.disk.at? (directory ++ ["recent.json"]) = some .directory
    · rw [if_pos hfile]
      refine ⟨?_, fun place _ => hothers place⟩
      rw [if_neg fun h => h.2 (hplace ▸ hfile), hplace, hsame]
    · rw [if_neg hfile]
      have hset := Disk.at?_set (s.disk.makeDirectory directory) (List.append_ne_nil_of_right_ne_nil directory
        (List.cons_ne_nil "recent.json" [])) (.file (Utf8.encode s.recency.toJson.indented))
      refine ⟨?_, fun place hne => ?_⟩
      · have hstorable : Storable s.disk s.root := ⟨hparent ▸ hmake, hplace ▸ hfile⟩
        rw [if_pos hstorable, hset, if_pos hplace]
      · rw [hset, if_neg (hplace ▸ hne), hothers]
  · rw [if_neg hmake]
    refine ⟨?_, fun place hne => ?_⟩
    · rw [if_neg fun h => hmake (hparent ▸ h.1)]
    · rw [hparent, if_neg fun h => hmake h.1, Option.or_none]

/-! ## Actions that write nothing -/

section

variable {W : Type} {t : Terminal (StateM W)} {selector : Selector (StateM W)} {linter : Option (Linter (StateM W))}
  {d : Document}

/-- The disk of a session and where on it the workspace is. -/
def grounds (s : Session) : Disk × String := (s.disk, s.root)

theorem grounds_setPlugin (s : Session) (plugin : Plugin) : grounds (s.setPlugin plugin) = grounds s := rfl

theorem grounds_candidates (d : Document) (s : Session) : grounds (s.candidates d).2 = grounds s := by
  rw [Session.candidates]
  split
  case h_1 => rfl
  case h_2 =>
    dsimp only
    split
    case h_1 => rfl
    case h_2 => rfl
    case h_3 => rfl

theorem keeps_loadRecent : Keeps grounds (loadRecent : Acting (StateM W) Unit) := by
  rintro ⟨s, w⟩ result ⟨s', w'⟩ h
  obtain ⟨loaded, hrun, -⟩ := loadRecent_run (m := StateM W) s
  change ((ExceptT.run (loadRecent : Acting (StateM W) Unit)).run s).run w = _ at h
  rw [hrun] at h
  cases h
  rfl

theorem keeps_liftExcept {α : Type} : ∀ x : Except Failure α, Keeps grounds (liftExcept x : Acting (StateM W) α)
  | .ok a => .pure a
  | .error failure => .throw failure

theorem keeps_candidatesOf (d : Document) : Keeps grounds (candidatesOf d : Acting (StateM W) (List Candidate)) := by
  intro before result after h
  replace h := acts_of_get_bind h
  have hkept := grounds_candidates d before.1
  generalize before.1.candidates d = candidates at h hkept
  obtain ⟨found, s⟩ := candidates
  replace h := acts_of_set_bind h
  refine (Keeps.bind (keeps_liftExcept found) (fun found? => ?_) _ _ _ h).trans hkept
  cases found? with
  | none => exact .throw _
  | some found => exact .pure found.2

/-- On a dry run the edits of a document are shown. -/
theorem keeps_write (edits : List Edit) : Keeps grounds (write t d true edits) :=
  .bind (keeps_liftExcept _) fun _ => .lift _

theorem front_spares (selector : Selector (StateM W)) : FrontSpares grounds selector.front where
  select items placeholder := .bind (.lift _) fun answer => by
    cases answer with
    | ok answer => exact .pure answer
    | error failure => exact .throw failure
  confirmReplace identifier := .lift _
  isCancelled := .pure false

theorem desk_spares : DeskSpares grounds (desk t linter d true) where
  notify notice := .lift _
  applier apply happly := by
    cases happly
    exact keeps_write
  linter lint hlint := by cases hlint

theorem keeps_planImport (c : Candidate) : Keeps grounds (Session.planImport selector.front d c) := by
  intro before result after h
  replace h := acts_of_get_bind h
  split at h
  case h_1 => exact Keeps.pure none _ _ _ h
  case h_2 plugin _ =>
    have hplayed : Keeps grounds (do
        return some (← ((plugin.synthesizer before.1.disk).add d c).run (selector.front.host plugin.language))) :=
      .bind ((front_spares selector).run grounds_setPlugin plugin.language _) fun _ => .pure _
    rw [hplayed _ _ _ (acts_of_set_bind h)]
    rfl

theorem keeps_addImport (c : Candidate) :
    Keeps grounds (Session.addImport selector.front (desk t linter d true) d c) :=
  .bind (keeps_planImport c) fun outcome? => by
    cases outcome? with
    | none => exact .pure none
    | some outcome =>
        exact .bind (desk_spares.tell _) fun _ => .bind (desk_spares.commit d _) fun _ => .pure _

theorem keeps_planRepair (plugin : Plugin) : Keeps grounds (Session.planRepair selector.front plugin d) := by
  rw [Session.planRepair]
  split
  case isTrue =>
    exact .bind .get fun s =>
      .bind ((front_spares selector).run grounds_setPlugin plugin.language _) fun _ => .pure _
  case isFalse => exact .pure none

theorem keeps_fixImports : Keeps grounds (Session.fixImports selector.front (desk t linter d true) d) :=
  .bind .get fun s => by
    split
    case h_1 => exact .bind (desk_spares.tell _) fun _ => .pure none
    case h_2 plugin _ =>
      refine .bind (keeps_planRepair plugin) fun report? => ?_
      · cases report? with
        | none => exact .pure none
        | some report =>
            exact .bind (desk_spares.commit d _) fun _ => .bind (desk_spares.tell _) fun _ => .pure _

/-! ## Commands -/

theorem keeps_runFix (file : String) : Keeps grounds (runFix t selector linter file true) :=
  .bind .get fun s => .bind (keeps_liftExcept _) fun d => .bind keeps_fixImports fun report? => by
    cases report? with
    | none => exact .pure 1
    | some _ => exact .pure 0

/-- An action that stores the histories when it comes to its end, and writes nothing else. -/
def SavesAtLast (x : Acting (StateM W) Nat) : Prop :=
  ∀ before result after, Acts x before result after →
    result ≠ .ok 0 ∧ grounds after.1 = grounds before.1 ∨
      result = .ok 0 ∧ ∃ s, grounds s = grounds before.1 ∧ after.1 = saveRecent s

namespace SavesAtLast

theorem bind {α : Type} {x : Acting (StateM W) α} {f : α → Acting (StateM W) Nat} (hx : Keeps grounds x)
    (hf : ∀ a, SavesAtLast (f a)) : SavesAtLast (x >>= f) := by
  intro before result after h
  obtain ⟨failure, rfl, hfailed⟩ | ⟨a, between, hfirst, h⟩ := acts_bind_cases h
  · exact .inl ⟨nofun, hx _ _ _ hfailed⟩
  · rw [← hx _ _ _ hfirst]
    exact hf a _ _ _ h

theorem refusal : SavesAtLast (pure 1 : Acting (StateM W) Nat) := by
  intro before result after h
  refine .inl ⟨?_, Keeps.pure 1 _ _ _ h⟩
  rintro rfl
  cases (acts_pure h).1

theorem save : SavesAtLast (do modify saveRecent; return 0 : Acting (StateM W) Nat) := by
  rintro ⟨s, w⟩ result ⟨s', w'⟩ h
  have hsaved : ((Except.ok 0, saveRecent s), w) = ((result, s'), w') := h
  obtain ⟨hended, -⟩ := Prod.mk.inj hsaved
  obtain ⟨hresult, hs⟩ := Prod.mk.inj hended
  exact .inr ⟨hresult.symm, s, rfl, hs.symm⟩

end SavesAtLast

theorem runAdd_saves (file target : String) : SavesAtLast (runAdd t selector linter file target true) :=
  .bind .get fun s => .bind (keeps_liftExcept _) fun d => .bind (keeps_candidatesOf d) fun items => by
    split
    case h_1 => exact .bind (desk_spares.tell _) fun _ => .refusal
    case h_2 c _ => exact .bind (keeps_addImport c) fun _ => .save

end

/-! ## Runs -/

/-- A command that is asked to write nothing. -/
def Command.isDryRun : Command → Bool
  | .candidates _ => false
  | .add _ _ dryRun | .fix _ dryRun => dryRun

/-- The root of the workspace that arguments ask for. -/
def Arguments.workspace (arguments : Arguments) (cwd : String) : String :=
  Path.absolute cwd ((arguments.root.filter (· ≠ "")).getD cwd)

section

variable {W : Type} (t : Terminal (StateM W)) (selector : Selector (StateM W)) (linter : Linter (StateM W))
  {disk : Disk} (arguments : Arguments) {w w' : W} {answer : Except Failure Nat} {after : Disk}

theorem workspace_rooted {cwd : String} (hcwd : Path.isAbsolute cwd = true) :
    ∃ k, (k = 1 ∨ k = 2) ∧ Rooted k (arguments.workspace cwd) :=
  Path.absolute_rooted hcwd _

theorem grounds_create (hcwd : Path.isAbsolute disk.cwd = true) (config : Config) :
    grounds (.create disk (arguments.workspace disk.cwd) config) = (disk, arguments.workspace disk.cwd) := by
  obtain ⟨k, hk, hroot⟩ := workspace_rooted arguments hcwd
  rw [grounds, Session.create, Path.absolute_eq hk hroot]

/-- A failure is never a success. -/
theorem report_ne_ok {failure : Failure} (h : ((report t failure).run w).run = (answer, w')) : answer ≠ .ok 0 := by
  unfold report at h
  split at h
  · cases h
    exact fun hok => Nat.one_ne_zero (Except.ok.inj hok)
  · cases h
    nofun

/-- What comes of an action: the disk that it leaves behind, and a success exactly if it has been one. -/
theorem acts_of_concluded {x : Acting (StateM W) Nat} {start : Session}
    (h : ((do
      let (result, s) ← (ExceptT.run x).run start
      match result with
      | .ok code => return (.ok code, s.disk)
      | .error failure => return (← report t failure, s.disk) : StateM W (Except Failure Nat × Disk)).run w).run =
        ((answer, after), w')) :
    ∃ result s between, Acts x (start, w) result (s, between) ∧ after = s.disk ∧
      (answer = .ok 0 ↔ result = .ok 0) := by
  rcases hacts : ((x.run.run start).run w).run with ⟨⟨result, s⟩, between⟩
  refine ⟨result, s, between, hacts, ?_⟩
  rw [StateT.run_bind, Id.run_bind, hacts] at h
  dsimp only at h
  cases result with
  | ok code =>
      cases h
      exact ⟨rfl, Iff.rfl⟩
  | error failure =>
      rcases hreport : ((report t failure).run between).run with ⟨reported, final⟩
      dsimp only at h
      rw [StateT.run_bind, Id.run_bind, hreport] at h
      cases h
      exact ⟨rfl, iff_of_false (report_ne_ok t hreport) nofun⟩

/-- A run is one action of a new session, if there are settings for it. -/
theorem runWith_cases (hrun : ((runWith t selector linter disk arguments).run w).run = ((answer, after), w')) :
    (answer ≠ .ok 0 ∧ after = disk) ∨
      ∃ config result s between, Acts (do
          loadRecent
          runCommand t selector (if arguments.lint then some linter else none) arguments.command)
        (.create disk (arguments.workspace disk.cwd) config, w) result (s, between) ∧
      after = s.disk ∧ (answer = .ok 0 ↔ result = .ok 0) := by
  unfold runWith at hrun
  dsimp only at hrun
  split at hrun
  case h_1 failure _ =>
    rcases hreport : ((report t failure).run w).run with ⟨reported, between⟩
    rw [StateT.run_bind, Id.run_bind, hreport] at hrun
    cases hrun
    exact .inl ⟨report_ne_ok t hreport, rfl⟩
  case h_2 config _ => exact .inr ⟨config, acts_of_concluded t hrun⟩

/-- What a dry run writes. On every exit but the successful end of an addition the disk is as it was, whoever answers
the questions and whatever the linter would do. At the end of an addition the histories are stored, although nothing
was to be written; but nothing else has changed. -/
theorem dry_run_writes (hcwd : Path.isAbsolute disk.cwd = true) (hdry : arguments.command.isDryRun = true)
    (hrun : ((runWith t selector linter disk arguments).run w).run = ((answer, after), w')) :
    (answer ≠ .ok 0 → after = disk) ∧
      (∀ file, arguments.command = .fix file true → after = disk) ∧
      (∀ file target, arguments.command = .add file target true → answer = .ok 0 →
        ∃ recency, HistoriesStored disk (arguments.workspace disk.cwd) recency after) := by
  obtain ⟨hfailed, rfl⟩ | ⟨config, result, s, between, hacts, rfl, hsuccess⟩ :=
    runWith_cases t selector linter arguments hrun
  · exact ⟨fun _ => rfl, fun _ _ => rfl, fun _ _ _ hok => absurd hok hfailed⟩
  have hstart := grounds_create arguments hcwd config
  generalize hcommand : arguments.command = command at hacts hdry
  cases command with
  | candidates file => cases hdry
  | fix file dryRun =>
      obtain rfl : dryRun = true := hdry
      have hkept : grounds s = grounds _ := (Keeps.bind keeps_loadRecent fun _ => keeps_runFix file) _ _ _ hacts
      have hdisk : s.disk = disk := congrArg Prod.fst (hkept.trans hstart)
      exact ⟨fun _ => hdisk, fun _ _ => hdisk, nofun⟩
  | add file target dryRun =>
      obtain rfl : dryRun = true := hdry
      obtain ⟨hfailed, hkept⟩ | ⟨hok, saved, hkept, hsaved⟩ :=
        (SavesAtLast.bind keeps_loadRecent fun _ => runAdd_saves file target) _ _ _ hacts
      · have hdisk : s.disk = disk := congrArg Prod.fst (hkept.trans hstart)
        exact ⟨fun _ => hdisk, fun _ _ => hdisk, fun _ _ _ h => absurd (hsuccess.mp h) hfailed⟩
      · refine ⟨fun h => absurd (hsuccess.mpr hok) h, nofun, fun _ _ _ _ => ⟨saved.recency, ?_⟩⟩
        obtain ⟨hdisk, hroot⟩ := Prod.mk.inj (hkept.trans hstart)
        obtain ⟨k, hk, hrooted⟩ := workspace_rooted arguments hcwd
        have hstored := saveRecent_stored hk (hroot ▸ hrooted)
        rw [hdisk, hroot] at hstored
        rw [show s = saveRecent saved from hsaved]
        exact hstored

end

/-- A workspace in a directory, and two documents above it; one of them imports a module from where it is not. -/
def strayDocuments : Disk where
  cwd := "/ws"
  entries := [(["ws"], .directory), (["ws", "app.js"], textFile "import b from './b'\n"),
    (["ws", "main.js"], textFile "run()\n"), (["ws", "lib"], .directory),
    (["ws", "lib", "b.js"], textFile "export default 1\n")]

/-- A terminal that keeps what is printed. -/
def printer : Terminal (StateM String) := ⟨pure "\n", fun text => modify (· ++ text), fun _ => pure ()⟩

/-- One who takes the first of all items, and replaces what is there. -/
def eagerSelector : Selector (StateM String) := ⟨fun items _ => pure (.ok items.head?), fun _ => pure (some true)⟩

/-- A linter that leaves nothing on the disk. -/
def carelessLinter : Linter (StateM String) := fun _ => modify fun s => { s with disk := { s.disk with entries := [] } }

/-- What comes of a command for the workspace, with the linter. -/
def strayRun (command : Command) : (Except Failure Nat × Disk) × String :=
  ((runWith printer eagerSelector carelessLinter strayDocuments ⟨some "lib", none, true, command⟩).run "").run

/-- A dry addition succeeds, and leaves a file behind. -/
theorem strayRun_add : (strayRun (.add "main.js" "lib/b.js" true)).1.1 = .ok 0 ∧
    (strayRun (.add "main.js" "lib/b.js" true)).1.2.at? ["ws", "lib", ".quicken", "recent.json"] ≠
      strayDocuments.at? ["ws", "lib", ".quicken", "recent.json"] := by decide +kernel

/-- A dry repair leaves the disk as it is, linter or not, and a dry addition stores the histories. -/
theorem strayDocuments_dry_runs : (strayRun (.fix "app.js" true)).1.2 = strayDocuments ∧
    ∃ recency, HistoriesStored strayDocuments "/ws/lib" recency
      (strayRun (.add "main.js" "lib/b.js" true)).1.2 := by
  constructor
  · rcases hrun : strayRun (.fix "app.js" true) with ⟨⟨answer, after⟩, printed⟩
    obtain ⟨-, hfix, -⟩ := dry_run_writes printer eagerSelector carelessLinter
      ⟨some "lib", none, true, .fix "app.js" true⟩ (by decide) rfl hrun
    have hafter : after = strayDocuments := hfix "app.js" rfl
    exact hafter
  · have hok := strayRun_add.1
    rcases hrun : strayRun (.add "main.js" "lib/b.js" true) with ⟨⟨answer, after⟩, printed⟩
    rw [hrun] at hok
    obtain ⟨-, -, hadd⟩ := dry_run_writes printer eagerSelector carelessLinter
      ⟨some "lib", none, true, .add "main.js" "lib/b.js" true⟩ (by decide) rfl hrun
    have hroot : (Arguments.mk (some "lib") none true (.add "main.js" "lib/b.js" true)).workspace "/ws" =
        "/ws/lib" := by decide +kernel
    exact hroot ▸ hadd "main.js" "lib/b.js" rfl hok

/-- It is not true that a dry run leaves everything as it is. -/
theorem dry_addition_stores : ∃ place,
    (strayRun (.add "main.js" "lib/b.js" true)).1.2.at? place ≠ strayDocuments.at? place :=
  ⟨_, strayRun_add.2⟩

end CommandLine

end ImportAssist
