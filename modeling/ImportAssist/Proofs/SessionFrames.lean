import ImportAssist.Proofs.Commitment

/-!
# What actions leave alone

An action that keeps a part of the session leaves it as it is, however it ends. `Keeps` is closed under all that actions
are put together from, so a session that asks a front and calls a desk keeps what these two keep, as long as that does
not depend on the indexes of the plugins.
-/

namespace ImportAssist

open Session (Acting Front Desk)

variable {W α β ρ : Type}

theorem acts_bind_cases {x : Acting (StateM W) α} {f : α → Acting (StateM W) β} {before after : Session × W}
    {result : Except Failure β} (h : Acts (x >>= f) before result after) :
    (∃ failure, result = .error failure ∧ Acts x before (.error failure) after) ∨
      ∃ a between, Acts x before (.ok a) between ∧ Acts (f a) between result after := by
  rcases hx : ((x.run.run before.1).run before.2).run with ⟨⟨first, s⟩, w⟩
  simp only [Acts, ExceptT.run_bind, StateT.run_bind, Id.run_bind, hx] at h
  cases first with
  | error failure =>
      cases h
      exact .inl ⟨failure, rfl, hx⟩
  | ok a => exact .inr ⟨a, (s, w), hx, h⟩

section

variable {before after : Session × W} {result : Except Failure β}

theorem acts_of_get_bind {f : Session → Acting (StateM W) β} (h : Acts (get >>= f) before result after) :
    Acts (f before.1) before result after := h

theorem acts_of_set_bind {s : Session} {f : PUnit → Acting (StateM W) β}
    (h : Acts (set s >>= f) before result after) : Acts (f ⟨⟩) (s, before.2) result after := h

end

/-- However it ends, an action leaves a part of the session as it is. -/
def Keeps (part : Session → ρ) (x : Acting (StateM W) α) : Prop :=
  ∀ before result after, Acts x before result after → part after.1 = part before.1

namespace Keeps

variable {part : Session → ρ}

theorem pure (a : α) : Keeps part (Pure.pure a : Acting (StateM W) α) := by
  rintro ⟨s, w⟩ result ⟨s', w'⟩ h
  cases h
  rfl

theorem throw (failure : Failure) : Keeps part (MonadExcept.throw failure : Acting (StateM W) α) := by
  rintro ⟨s, w⟩ result ⟨s', w'⟩ h
  cases h
  rfl

theorem get : Keeps part (MonadState.get : Acting (StateM W) Session) := by
  rintro ⟨s, w⟩ result ⟨s', w'⟩ h
  cases h
  rfl

/-- What the host does is no business of the session. -/
theorem lift (x : StateM W α) : Keeps part (liftM x : Acting (StateM W) α) := by
  rintro ⟨s, w⟩ result ⟨s', w'⟩ h
  cases h
  rfl

theorem bind {x : Acting (StateM W) α} {f : α → Acting (StateM W) β} (hx : Keeps part x)
    (hf : ∀ a, Keeps part (f a)) : Keeps part (x >>= f) := by
  intro before result after h
  obtain ⟨failure, -, h⟩ | ⟨a, between, hfirst, h⟩ := acts_bind_cases h
  · exact hx _ _ _ h
  · rw [hf a _ _ _ h, hx _ _ _ hfirst]

theorem tryCatch {x : Acting (StateM W) Unit} (hx : Keeps part x) :
    Keeps part (MonadExcept.tryCatch x fun _ => Pure.pure ()) := by
  intro before result after h
  rcases hfirst : ((x.run.run before.1).run before.2).run with ⟨⟨first, s⟩, w⟩
  have hkept := hx before first (s, w) hfirst
  simp only [Acts, MonadExcept.tryCatch, tryCatchThe, MonadExceptOf.tryCatch, ExceptT.tryCatch, ExceptT.run_mk,
    StateT.run_bind, Id.run_bind] at h
  change (StateT.run (StateT.run x before.1) before.2).run = _ at hfirst
  rw [hfirst] at h
  cases first with
  | ok _ => cases h; exact hkept
  | error _ => cases h; exact hkept

/-- An index that is built changes a plugin. -/
theorem indexedFiles (hpart : ∀ s plugin, part (s.setPlugin plugin) = part s) (language : Language) :
    Keeps part (Session.indexedFiles language : Acting (StateM W) (List FileCandidate)) := by
  intro before result after h
  replace h := acts_of_get_bind h
  split at h
  · exact pure _ _ _ _ h
  · split at h
    · exact throw _ _ _ _ h
    · replace h := acts_of_set_bind h
      exact (pure _ _ _ _ h).trans (hpart _ _)

end Keeps

/-! ## Fronts and desks -/

/-- A front that leaves a part of the session alone. -/
structure FrontSpares (part : Session → ρ) (front : Front (StateM W)) : Prop where
  select : ∀ items placeholder, Keeps part (front.select items placeholder)
  confirmReplace : ∀ identifier, Keeps part (front.confirmReplace identifier)
  isCancelled : Keeps part front.isCancelled

/-- A desk that leaves a part of the session alone. -/
structure DeskSpares (part : Session → ρ) (desk : Desk (StateM W)) : Prop where
  notify : ∀ notice, Keeps part (desk.notify notice)
  applier : ∀ apply ∈ desk.applier, ∀ edits, Keeps part (apply edits)
  linter : ∀ lint ∈ desk.linter, ∀ path, Keeps part (lint path)

variable {part : Session → ρ} {front : Front (StateM W)} {desk : Desk (StateM W)}

theorem FrontSpares.run (h : FrontSpares part front) (hpart : ∀ s plugin, part (s.setPlugin plugin) = part s)
    (language : Language) : ∀ x : Dialogue α, Keeps part (x.run (front.host language))
  | .done a => .pure a
  | .failed failure => .throw failure
  | .select items placeholder next => .bind (h.select items placeholder) fun a => h.run hpart language (next a)
  | .confirmReplace identifier next => .bind (h.confirmReplace identifier) fun a => h.run hpart language (next a)
  | .files next => .bind (.indexedFiles hpart language) fun a => h.run hpart language (next a)
  | .isCancelled next => .bind h.isCancelled fun a => h.run hpart language (next a)

theorem DeskSpares.tell (h : DeskSpares part desk) : ∀ notices, Keeps part (desk.tell notices)
  | [] => .pure ()
  | notice :: rest => .bind (h.notify notice) fun _ => h.tell rest

theorem DeskSpares.tidy (h : DeskSpares part desk) (path : String) : Keeps part (desk.tidy path) := by
  rw [Desk.tidy]
  split
  case h_1 => exact .pure ()
  case h_2 lint hlint => exact .tryCatch (h.linter lint hlint path)

theorem DeskSpares.commit (h : DeskSpares part desk) (d : Document) (edits : List Edit) :
    Keeps part (desk.commit d edits) := by
  rw [Desk.commit]
  split
  case isTrue => exact .pure ()
  case isFalse =>
    split
    case h_1 => exact .pure ()
    case h_2 apply happly => exact .bind (h.applier apply happly edits) fun _ => h.tidy d.path

end ImportAssist
