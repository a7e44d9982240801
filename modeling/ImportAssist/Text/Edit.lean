import ImportAssist.Data.Slice
import ImportAssist.Text.Utf8

/-!
# Text edits

An edit replaces a span of bytes. All edits of a batch refer to the same source, so they are applied
from the back to the front, where earlier offsets stay valid.

An offset below zero counts from the end, and one past the end means the end.
-/

namespace ImportAssist

structure Edit where
  start : Int
  stop : Int
  text : String
  deriving DecidableEq, Repr

namespace Edit

def insert (offset : Int) (text : String) : Edit := ⟨offset, offset, text⟩

def delete (start stop : Int) : Edit := ⟨start, stop, ""⟩

/-- The source with the span of one edit replaced. -/
def apply (source : Bytes) (edit : Edit) : Bytes :=
  source.take (slicePosition source.length edit.start) ++ Utf8.encode edit.text
    ++ source.drop (slicePosition source.length edit.stop)

/-- Whether an edit comes before another when they are applied. -/
def later (a b : Edit) : Bool :=
  b.start < a.start || (b.start == a.start && b.stop ≤ a.stop)

end Edit

/-- The source with a batch of edits applied, the last ones first. -/
def applyEdits (source : Bytes) (edits : List Edit) : Bytes :=
  (edits.mergeSort Edit.later).foldl Edit.apply source

end ImportAssist
