import ImportAssist.Proofs.Transcript
import ImportAssist.Synthesis.Add

/-!
# How a binding is decided on

What `Synthesizer.decideForm` can do, said once. `Chosen` is what comes of several exports, with the
request that was made, and `Decided` adds where the exports and the path come from. Properties of the
decision follow by cases on these.
-/

namespace ImportAssist

namespace Synthesizer

/-- What comes of the names a module exports: a single one is taken, of several one is chosen. -/
inductive Chosen (name path : String) (exported : List String) : List Exchange → Decision → Prop
  | only {x : String} : exported = [x] → Chosen name path exported [] (.bind (.named x) path)
  | dismissed {answer : Option String} : answer = none ∨ answer = some "" →
      Chosen name path exported [.select (everything :: exported) "" answer] (.stop .cancelled)
  | everything : Chosen name path exported
      [.select (everything :: exported) "" (some everything)] (.bind (.wildcard name) path)
  | named {x : String} : x ≠ "" → x ≠ Synthesizer.everything →
      Chosen name path exported [.select (Synthesizer.everything :: exported) "" (some x)]
        (.bind (.named x) path)

/-- What a candidate is imported as, and from where. -/
inductive Decided (s : Synthesizer) (d : Document) (found : List Import) (c : FileCandidate)
    (name path : String) : List Exchange → Decision → Prop
  /-- The module is loaded, has a default export, or is not there to be read. -/
  | byDefault : Decided s d found c name path [] (.bind (.default name) path)
  /-- The module exports nothing. -/
  | whole : Decided s d found c name path [] (.bind (.wildcard name) path)
  | own {exported : List String} {log : List Exchange} {decision : Decision} :
      exportedNames s.disk c.path = .ok exported → Chosen name path exported log decision →
      Decided s d found c name path log decision
  | through {exported : List String} {log : List Exchange} {decision : Decision} :
      exportedThroughIndex s.disk c.path (indexPath c) = .ok exported →
      Chosen name (s.indexImportPath (indexPath c) d.directory) exported log decision →
      Decided s d found c name path log decision
  /-- The whole index file is imported already. -/
  | indexed (duplicate : Duplicate) (focus : Point) :
      Decided s d found c name path [] (.stop (.alreadyImported duplicate focus))

variable {s : Synthesizer} {d : Document} {found : List Import} {c : FileCandidate}
  {name path : String} {log : List Exchange} {decision : Decision}

theorem chooseExport_chosen {exported : List String}
    (h : (chooseExport name path exported).Plays log (.ok decision)) :
    Chosen name path exported log decision := by
  unfold chooseExport at h
  cases h with
  | @select _ _ _ answer _ _ h =>
      cases answer with
      | none =>
          obtain ⟨rfl, hdecision⟩ := Dialogue.plays_done h
          cases hdecision
          exact .dismissed (.inl rfl)
      | some x =>
          dsimp only at h
          split at h
          · rename_i hempty
            obtain ⟨rfl, hdecision⟩ := Dialogue.plays_done h
            cases hdecision
            exact .dismissed (.inr (congrArg some hempty))
          · rename_i hempty
            split at h
            · rename_i hall
              obtain ⟨rfl, hdecision⟩ := Dialogue.plays_done h
              cases hdecision
              rw [hall]
              exact .everything
            · rename_i hall
              obtain ⟨rfl, hdecision⟩ := Dialogue.plays_done h
              cases hdecision
              exact .named hempty hall

theorem takeExport_chosen {exported : List String}
    (h : (takeExport name path exported).Plays log (.ok decision)) :
    Chosen name path exported log decision := by
  unfold takeExport at h
  split at h
  · obtain ⟨rfl, hdecision⟩ := Dialogue.plays_done h
    cases hdecision
    exact .only rfl
  · exact chooseExport_chosen h

/-- Only the cause of a failure is lost when it is told as that of a dialogue. -/
theorem ok_of_mapError_ok {ε ε' α : Type} {f : ε → ε'} {e : Except ε α} {a : α}
    (h : e.mapError f = .ok a) : e = .ok a := by
  cases e with
  | error cause => cases h
  | ok b => exact congrArg Except.ok (Except.ok.inj h)

theorem decideByFile_decided (h : (s.decideByFile c name path).Plays log (.ok decision)) :
    Decided s d found c name path log decision := by
  unfold decideByFile at h
  split at h
  · obtain ⟨rfl, hdecision⟩ := Dialogue.plays_done h
    cases hdecision
    exact .byDefault
  · split at h
    · obtain ⟨rfl, hdecision⟩ := Dialogue.plays_done h
      cases hdecision
      exact .byDefault
    · obtain ⟨exported, hexported, h⟩ := Dialogue.plays_ofExcept_bind h
      split at h
      · obtain ⟨rfl, hdecision⟩ := Dialogue.plays_done h
        cases hdecision
        exact .whole
      · exact .own (ok_of_mapError_ok hexported) (takeExport_chosen h)

theorem decide_decided (h : (s.decide d found c name path).Plays log (.ok decision)) :
    Decided s d found c name path log decision := by
  simp only [decide] at h
  split at h
  · obtain ⟨exported, hexported, h⟩ := Dialogue.plays_ofExcept_bind h
    split at h
    · exact decideByFile_decided h
    · split at h
      · obtain ⟨rfl, hdecision⟩ := Dialogue.plays_done h
        cases hdecision
        exact .indexed _ _
      · exact .through (ok_of_mapError_ok hexported) (takeExport_chosen h)
  · exact decideByFile_decided h

theorem decideForm_decided (h : (s.decideForm d found c name path).Plays log (.ok decision)) :
    Decided s d found c name path log decision := by
  rw [decideForm] at h
  split at h
  · exact decide_decided h
  · obtain ⟨rfl, hdecision⟩ := Dialogue.plays_done h
    cases hdecision
    exact .byDefault

/-- Adding a module settles on a binding from a path, after some requests. -/
def Settles (s : Synthesizer) (d : Document) (c : FileCandidate) (log : List Exchange)
    (binding : Binding) (path : String) : Prop :=
  ∃ name own, c.nameAndPath s.disk.cwd d.directory = .ok (name, own) ∧
    (s.decideForm d d.imports c name own).Plays log (.ok (.bind binding path))

end Synthesizer

end ImportAssist
