import ImportAssist.Proofs.Decision
import ImportAssist.Proofs.Splice

/-!
# Identifiers that are bound already

A new statement for a module asks before it binds an identifier that an import of the document binds,
once and about that identifier; a binding that joins a statement for the same path asks nothing.
`add_confirms` says so for every file and however the requests are answered. For a package nothing is asked
(`Synthesizer.addPackage_unasked`).
-/

namespace ImportAssist

/-! ## Bound identifiers -/

/-- The identifiers that the imports of a document bind. -/
def Document.boundIdentifiers (d : Document) : List String :=
  (boundNames d.source d.imports).map Prod.fst

/-- The names of one import are taken in behind those that are there. -/
theorem mem_foldl_names {name : String} {k : Nat} (names : List String)
    (bound : List (String × Nat)) :
    name ∈ (names.foldl
        (fun bound name => if bound.any (·.1 == name) then bound else bound ++ [(name, k)])
        bound).map Prod.fst ↔
      name ∈ bound.map Prod.fst ∨ name ∈ names := by
  induction names generalizing bound with
  | nil => simp
  | cons first names ih =>
      rw [List.foldl_cons, ih]
      split
      · rename_i hbound
        obtain ⟨pair, hpair, heq⟩ := List.any_eq_true.mp hbound
        have hfirst : first ∈ bound.map Prod.fst :=
          List.mem_map.mpr ⟨pair, hpair, beq_iff_eq.mp heq⟩
        grind
      · simp only [List.map_append, List.map_cons, List.map_nil, List.mem_append, List.mem_cons,
          List.not_mem_nil, or_false, or_assoc]

theorem mem_boundNames {source : Bytes} {found : List Import} {name : String} :
    name ∈ (boundNames source found).map Prod.fst ↔ ∃ i ∈ found, name ∈ i.names source := by
  -- The imports are numbered and taken in one after the other, so both are generalized.
  suffices h : ∀ (numbered : List (Import × Nat)) (bound : List (String × Nat)),
      name ∈ (numbered.foldl
          (fun bound (pair : Import × Nat) =>
            (pair.1.names source).foldl
              (fun bound name => if bound.any (·.1 == name) then bound else bound ++ [(name, pair.2)])
              bound)
          bound).map Prod.fst ↔
        name ∈ bound.map Prod.fst ∨ ∃ i ∈ numbered.map Prod.fst, name ∈ i.names source by
    have hall := h found.zipIdx []
    rw [List.zipIdx_map_fst] at hall
    exact hall.trans (by simp only [List.map_nil, List.not_mem_nil, false_or])
  intro numbered
  induction numbered with
  | nil => simp
  | cons pair numbered ih =>
      intro bound
      rw [List.foldl_cons, ih, mem_foldl_names]
      simp only [List.map_cons, List.mem_cons, or_and_right, exists_or, exists_eq_left, or_assoc]

theorem binder?_isSome {source : Bytes} {found : List Import} {name : String} :
    (binder? source found name).isSome = true ↔ name ∈ (boundNames source found).map Prod.fst := by
  rw [mem_boundNames, binder?, List.find?_isSome]
  simp only [List.contains_iff_mem]

/-! ## Confirmations -/

/-- The identifiers that the user was asked about. -/
def confirmations (log : List Exchange) : List String :=
  log.filterMap fun
    | .confirmReplace identifier _ => some identifier
    | _ => none

@[simp] theorem confirmations_append (front back : List Exchange) :
    confirmations (front ++ back) = confirmations front ++ confirmations back :=
  List.filterMap_append

/-- Whether an outcome adds something to a document. -/
def Outcome.Adds : Outcome → Prop
  | .inserted _ | .merged _ => True
  | .alreadyImported _ _ | .cancelled => False

namespace Synthesizer

variable {s : Synthesizer} {d : Document} {c : FileCandidate} {log : List Exchange}

theorem Chosen.confirmations_eq {name path : String} {exported : List String} {decision : Decision}
    (h : Chosen name path exported log decision) : confirmations log = [] := by
  cases h <;> rfl

theorem Settles.confirmations_eq {binding : Binding} {path : String}
    (h : s.Settles d c log binding path) : confirmations log = [] := by
  obtain ⟨name, own, -, h⟩ := h
  cases decideForm_decided h with
  | byDefault => rfl
  | whole => rfl
  | own _ hchosen => exact hchosen.confirmations_eq
  | through _ hchosen => exact hchosen.confirmations_eq

/-- The statement that a binding is written in. -/
def statementFor (s : Synthesizer) (d : Document) (binding : Binding) (path : String) : String :=
  importStatement binding.render path s.options.form s.options d.lineBreak

/-- A binding that was added to a document, with the identifiers that were asked about: in a
statement of its own, or by joining the first one for its path. -/
inductive Bound (s : Synthesizer) (d : Document) (binding : Binding) (path : String)
    (asked : List String) : Outcome → Prop
  | inserted {edits : List Edit} :
      findDuplicate d.imports path = none →
      edits.getLast? = some (.insert (insertionOffset d.imports) (s.statementFor d binding path)) →
      asked = (if binding.identifier ∈ d.boundIdentifiers then [binding.identifier] else []) →
      Bound s d binding path asked (.inserted edits)
  | merged {i : Import} {edit : Edit} :
      findDuplicate d.imports path = some i → i.isDeclaration = true →
      merge d.source i.node binding path = .merged edit → asked = [] →
      Bound s d binding path asked (.merged edit)

theorem insert_bound {binding : Binding} {path : String} {o : Outcome} (hadds : o.Adds)
    (hpath : findDuplicate d.imports path = none)
    (h : (s.insert d d.imports binding path).Plays log (.ok o)) :
    s.Bound d binding path (confirmations log) o := by
  have hbinder : (binder? d.source d.imports binding.identifier).isSome = true ↔
      binding.identifier ∈ d.boundIdentifiers := binder?_isSome
  simp only [insert] at h
  split at h
  · rename_i hnone
    have hfree : binding.identifier ∉ d.boundIdentifiers := by simp [← hbinder, hnone]
    obtain ⟨rfl, ho⟩ := Dialogue.plays_done h
    cases ho
    exact .inserted hpath rfl (if_neg hfree).symm
  · rename_i conflict hsome
    have hbound : binding.identifier ∈ d.boundIdentifiers := by simp [← hbinder, hsome]
    cases h with
    | confirmReplace h =>
        dsimp only at h
        split at h
        · obtain ⟨-, ho⟩ := Dialogue.plays_done h
          cases ho
          exact hadds.elim
        · obtain ⟨rfl, ho⟩ := Dialogue.plays_done h
          cases ho
          exact .inserted hpath rfl (if_pos hbound).symm
        · obtain ⟨rfl, ho⟩ := Dialogue.plays_done h
          cases ho
          exact .inserted hpath rfl (if_pos hbound).symm

theorem merge_adds {source : Bytes} {statement : Node} {binding : Binding} {path : String}
    (hadds : (merge source statement binding path).Adds) :
    ∃ edit, merge source statement binding path = .merged edit := by
  cases hmerge : merge source statement binding path with
  | merged edit => exact ⟨edit, rfl⟩
  | inserted edits => exact absurd hmerge merge_ne_inserted
  | alreadyImported duplicate focus => rw [hmerge] at hadds; exact hadds.elim
  | cancelled => rw [hmerge] at hadds; exact hadds.elim

theorem carryOut_bound {binding : Binding} {path : String} {o : Outcome} (hadds : o.Adds)
    (h : (s.carryOut d d.imports (.bind binding path)).Plays log (.ok o)) :
    s.Bound d binding path (confirmations log) o := by
  simp only [carryOut] at h
  split at h
  · rename_i hpath
    exact insert_bound hadds hpath h
  · rename_i i hpath
    split at h
    · rename_i hjoins
      obtain ⟨rfl, ho⟩ := Dialogue.plays_done h
      cases ho
      obtain ⟨edit, hmerge⟩ := merge_adds hadds
      rw [hmerge]
      exact .merged hpath (Bool.and_eq_true_iff.mp hjoins).2 hmerge rfl
    · obtain ⟨rfl, ho⟩ := Dialogue.plays_done h
      cases ho
      exact hadds.elim

theorem addModule_bound {o : Outcome} (hadds : o.Adds)
    (h : (s.addModule d d.imports c).Plays log (.ok o)) :
    ∃ front binding path, s.Settles d c front binding path ∧ front <+: log ∧
      s.Bound d binding path (confirmations log) o := by
  obtain ⟨⟨name, own⟩, hname, h⟩ := Dialogue.plays_ofExcept_bind h
  obtain ⟨decision, front, back, hdecision, hcarried, rfl⟩ := Dialogue.plays_bind h
  cases decision with
  | bind binding path =>
      have hsettles : s.Settles d c front binding path := ⟨name, own, hname, hdecision⟩
      refine ⟨front, binding, path, hsettles, List.prefix_append front back, ?_⟩
      rw [confirmations_append, hsettles.confirmations_eq, List.nil_append]
      exact carryOut_bound hadds hcarried
  | stop outcome =>
      obtain ⟨-, ho⟩ := Dialogue.plays_done hcarried
      cases ho
      rcases decideForm_stop hdecision with rfl | ⟨_, _, rfl⟩ <;> exact hadds.elim

/-- A file that is no module is written without a binding, and nothing is asked. -/
theorem addAsset_confirms {o : Outcome} (hadds : o.Adds)
    (h : (s.addAsset d d.imports c).Plays log (.ok o)) :
    confirmations log = [] ∧ ∃ path,
      o = .inserted [.insert (insertionOffset d.imports)
        (importStatement "" path s.options.form s.options d.lineBreak)] ∨
      o = .inserted [.insert d.cursor (requireExpression s.options path)] := by
  obtain ⟨⟨name, path⟩, -, h⟩ := Dialogue.plays_ofExcept_bind h
  dsimp only at h
  split at h
  · split at h
    · obtain ⟨-, rfl⟩ := Dialogue.plays_pure h
      exact hadds.elim
    · obtain ⟨rfl, rfl⟩ := Dialogue.plays_pure h
      exact ⟨rfl, path, .inl rfl⟩
  · obtain ⟨rfl, rfl⟩ := Dialogue.plays_pure h
    exact ⟨rfl, path, .inr rfl⟩

/-- A package gets a new statement, and nothing is asked, also where its identifier is bound. -/
theorem addPackage_unasked {p : PackageCandidate} {o : Outcome} (hadds : o.Adds)
    (h : (s.add d (.package p)).Plays log (.ok o)) :
    log = [] ∧ ∃ name, variableName p.name s.options = .ok name ∧
      o = .inserted [.insert (insertionOffset d.imports) (s.statementFor d
        (if s.wildcardPackages && s.options.form = .declaration then .wildcard name else .default name) p.name)] := by
  simp only [Synthesizer.add, Synthesizer.addAmong, Synthesizer.addPackage] at h
  split at h
  · obtain ⟨-, rfl⟩ := Dialogue.plays_pure h
    exact hadds.elim
  · obtain ⟨name, hname, h⟩ := Dialogue.plays_ofExcept_bind h
    obtain ⟨rfl, rfl⟩ := Dialogue.plays_pure h
    exact ⟨rfl, name, hname, rfl⟩

end Synthesizer

/-- For every file and however the requests are answered. A module whose statement is new gets its
identifier confirmed exactly if an import of the document binds it; one whose path is imported joins
that import and nothing is confirmed. Any other file is written without a binding. -/
theorem add_confirms {s : Synthesizer} {d : Document} {c : FileCandidate} {log : List Exchange}
    {o : Outcome} (h : (s.add d (.file c)).Plays log (.ok o)) (hadds : o.Adds) :
    if c.inFamily then
      ∃ front binding path, s.Settles d c front binding path ∧ front <+: log ∧
        s.Bound d binding path (confirmations log) o
    else
      confirmations log = [] ∧ ∃ path,
        o = .inserted [.insert (insertionOffset d.imports)
          (importStatement "" path s.options.form s.options d.lineBreak)] ∨
        o = .inserted [.insert d.cursor (requireExpression s.options path)] := by
  simp only [Synthesizer.add, Synthesizer.addAmong] at h
  split at h
  · rename_i hfamily
    rw [if_pos hfamily]
    exact Synthesizer.addModule_bound hadds h
  · rename_i hfamily
    rw [if_neg hfamily]
    exact Synthesizer.addAsset_confirms hadds h

/-- An identifier that is bound is confirmed also where only one declarator has to go. -/
theorem two_declarators_confirm :
    ∃ c log, replacingCandidate = .file c ∧ c.inFamily = true ∧
      (replacingSynthesizer.add twoDeclarators replacingCandidate).Plays log
        (.ok (.inserted replacingEdits)) ∧
      ∃ front binding path, replacingSynthesizer.Settles twoDeclarators c front binding path ∧
        front <+: log ∧ replacingSynthesizer.Bound twoDeclarators binding path (confirmations log)
          (.inserted replacingEdits) := by
  have hrun : ((Dialogue.run replacingHost
      (replacingSynthesizer.add twoDeclarators replacingCandidate)).run ()).toOption.map (·.1) =
      some (.inserted replacingEdits) := by decide +kernel
  obtain ⟨log, hlog⟩ := Dialogue.plays_of_result hrun
  have hfamily : (FileCandidate.create "/ws" "/ws" {} .javascript "/ws/b.js").inFamily = true := by
    decide +kernel
  have hconfirms := add_confirms hlog trivial
  rw [if_pos hfamily] at hconfirms
  exact ⟨_, log, rfl, hfamily, hlog, hconfirms⟩

/-! ## A binding that joins a statement -/

/-- A document that imports `foo` from one file and the default of another. -/
def boundElsewhere : Document :=
  ⟨"/ws/app.js", "import \x7b foo \x7d from './a';\nimport bar from './b';\n", "javascript", 0⟩

def joiningSynthesizer : Synthesizer :=
  ⟨{ cwd := "/ws", entries := [(["ws"], .directory),
    (["ws", "b.js"], .file (Utf8.encode "export const foo = 1;"))] }, {}, false⟩

def joiningCandidate : Candidate := .file (.create "/ws" "/ws" {} .javascript "/ws/b.js")

/-- `foo` joins the import of the other file without a question, and is bound twice. -/
theorem joined_unasked :
    (joiningSynthesizer.add boundElsewhere joiningCandidate).Plays []
        (.ok (.merged (.insert 37 ", \x7b foo \x7d"))) ∧
      "foo" ∈ boundElsewhere.boundIdentifiers ∧
      let after := applyEdits boundElsewhere.source [.insert 37 ", \x7b foo \x7d"]
      (importsIn after (parse after "javascript")).map (·.names after) = [["foo"], ["bar", "foo"]] := by
  have hruns : (joiningSynthesizer.add boundElsewhere joiningCandidate).replay [] =
        some (.merged (.insert 37 ", \x7b foo \x7d")) ∧
      "foo" ∈ boundElsewhere.boundIdentifiers ∧
      let after := applyEdits boundElsewhere.source [.insert 37 ", \x7b foo \x7d"]
      (importsIn after (parse after "javascript")).map (·.names after) = [["foo"], ["bar", "foo"]] := by
    decide +kernel
  exact ⟨Dialogue.plays_of_replay hruns.1, hruns.2⟩

/-! ## A package whose identifier is bound -/

/-- A document that imports `react` from a file. -/
def boundPackage : Document := ⟨"/ws/app.js", "import react from './r';\n", "javascript", 0⟩

/-- `react` is imported from the package without a question, and is bound twice. -/
theorem bound_package_unasked :
    (joiningSynthesizer.add boundPackage (.package ⟨"react", ""⟩)).Plays []
        (.ok (.inserted [.insert 0 "import react from 'react'\n"])) ∧
      let after := applyEdits boundPackage.source [.insert 0 "import react from 'react'\n"]
      (importsIn after (parse after "javascript")).map (·.names after) = [["react"], ["react"]] := by
  have hruns : (joiningSynthesizer.add boundPackage (.package ⟨"react", ""⟩)).replay [] =
        some (.inserted [.insert 0 "import react from 'react'\n"]) ∧
      let after := applyEdits boundPackage.source [.insert 0 "import react from 'react'\n"]
      (importsIn after (parse after "javascript")).map (·.names after) = [["react"], ["react"]] := by
    decide +kernel
  exact ⟨Dialogue.plays_of_replay hruns.1, hruns.2⟩

end ImportAssist
