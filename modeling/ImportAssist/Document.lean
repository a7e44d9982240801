import ImportAssist.Failure
import ImportAssist.Text.Edit

/-!
# Documents

A document is the text of a file as it is being edited, with the language it is written in and the
place of the caret.
-/

namespace ImportAssist

structure Document where
  /-- The normal absolute path. -/
  path : String
  text : String
  language : String
  /-- Offset of the caret in bytes. -/
  cursor : Int
  deriving DecidableEq, Repr

namespace Document

def create (cwd path text language : String) (cursor : Int) : Document :=
  ⟨Path.absolute cwd path, text, language, cursor⟩

/-- A document read from disk. -/
def load (disk : Disk) (path language : String) (cursor : Int) : Except Failure Document := do
  return create disk.cwd path (← disk.readText path) language cursor

def source (d : Document) : Bytes := Utf8.encode d.text

/-- The directory that relative import paths start from. -/
def directory (d : Document) : String := Path.directory (Path.normalize d.path)

def extension (d : Document) : String := Path.extension (Path.normalize d.path)

/-- Whether a line feed follows a carriage return somewhere. -/
def hasReturnBreak : List Char → Bool
  | '\r' :: '\n' :: _ => true
  | _ :: rest => hasReturnBreak rest
  | [] => false

/-- The line break of the document. -/
def lineBreak (d : Document) : String :=
  if hasReturnBreak d.text.toList then "\r\n" else "\n"

/-- White space of a single byte. -/
def isSpaceByte (b : UInt8) : Bool := b = 0x20 || (0x09 ≤ b && b ≤ 0x0D)

/-- A span widened by the rest of its last line and the line break, if only white space follows. -/
def lineRange (d : Document) (start stop : Int) : Int × Int :=
  let source := d.source
  let first := slicePosition source.length stop
  let rest := source.drop first
  let line := rest.takeWhile (· ≠ 0x0A)
  if !line.all isSpaceByte then (start, stop)
  else if line.length < rest.length then (start, first + line.length + 1)
  else (start, source.length)

/-- The document with a batch of edits applied. -/
def apply (d : Document) (edits : List Edit) : Except Failure Document :=
  match Utf8.decode? (applyEdits d.source edits) with
  | some text => .ok { d with text := text }
  | none => .error .notUtf8

end Document

end ImportAssist
