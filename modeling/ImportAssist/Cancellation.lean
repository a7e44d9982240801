/-!
# Cancellation

A pass over a document stops when the document loses the focus or is closed.
-/

namespace ImportAssist

structure Cancellation where
  /-- The document that is watched. -/
  document? : Option String
  requested : Bool
  deriving DecidableEq, Repr

namespace Cancellation

def watching (document? : Option String) : Cancellation := ⟨document?, false⟩

def cancel (c : Cancellation) : Cancellation := { c with requested := true }

/-- From now on another document is watched. -/
def watch (c : Cancellation) (document : String) : Cancellation := { c with document? := some document }

/-- Another document has the focus, or none. -/
def focus (c : Cancellation) (document? : Option String) : Cancellation :=
  if document?.isSome && document? = c.document? then c else c.cancel

/-- A document has been closed; while none is watched, every one counts. -/
def close (c : Cancellation) (document : String) : Cancellation :=
  if c.document?.isNone || c.document? = some document then c.cancel else c

end Cancellation

end ImportAssist
