import ImportAssist.Text.Utf8

/-!
# Lines and columns

A point counts lines from zero, separated by line feeds, and columns in bytes.
-/

namespace ImportAssist

structure Point where
  line : Nat
  column : Nat
  deriving DecidableEq, Repr

namespace Point

/-- The point after one more byte. -/
def step (p : Point) (b : UInt8) : Point :=
  if b = 0x0A then ⟨p.line + 1, 0⟩ else ⟨p.line, p.column + 1⟩

/-- The point in front of the byte at an offset. -/
def ofOffset (source : Bytes) (offset : Nat) : Point :=
  (source.take offset).foldl step ⟨0, 0⟩

end Point

end ImportAssist
