import ImportAssist.Candidate

/-!
# Dialogues

An operation that needs choices is a tree of requests. At each request it stops, and what comes next
depends on the answer. So an operation says nothing about how answers come about, and everything
about what it does with them.

`Dialogue.run` plays a dialogue with a host.
-/

namespace ImportAssist

inductive Dialogue (α : Type) where
  | done (result : α)
  | failed (failure : Failure)
  /-- The user picks one of some items, or dismisses the choice. -/
  | select (items : List String) (placeholder : String) (next : Option String → Dialogue α)
  /-- The user says whether the present binding of an identifier is to be replaced. -/
  | confirmReplace (identifier : String) (next : Option Bool → Dialogue α)
  /-- The files of the workspace as they are now. -/
  | files (next : List FileCandidate → Dialogue α)
  /-- Whether the operation is to stop. -/
  | isCancelled (next : Bool → Dialogue α)

namespace Dialogue

def bind {α β : Type} : Dialogue α → (α → Dialogue β) → Dialogue β
  | done result, f => f result
  | failed failure, _ => failed failure
  | select items placeholder next, f => select items placeholder fun a => (next a).bind f
  | confirmReplace identifier next, f => confirmReplace identifier fun a => (next a).bind f
  | files next, f => files fun a => (next a).bind f
  | isCancelled next, f => isCancelled fun a => (next a).bind f

instance : Monad Dialogue where
  pure := done
  bind := bind

/-- A result that may be a failure. -/
def ofExcept {α : Type} : Except Failure α → Dialogue α
  | .ok result => done result
  | .error failure => failed failure

/-- One who answers requests. -/
structure Host (m : Type → Type) where
  select : List String → String → m (Option String)
  confirmReplace : String → m (Option Bool)
  files : m (List FileCandidate)
  isCancelled : m Bool

/-- Plays a dialogue with a host. -/
def run {m : Type → Type} [Monad m] [MonadExceptOf Failure m] (host : Host m) {α : Type} :
    Dialogue α → m α
  | done result => pure result
  | failed failure => throw failure
  | .select items placeholder next => do run host (next (← host.select items placeholder))
  | .confirmReplace identifier next => do run host (next (← host.confirmReplace identifier))
  | .files next => do run host (next (← host.files))
  | .isCancelled next => do run host (next (← host.isCancelled))

end Dialogue

end ImportAssist
