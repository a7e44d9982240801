import ImportAssist.Path
import ImportAssist.Text.Quoted
import ImportAssist.Text.Utf8

/-!
# Disks

A disk holds files and directories, each under the segments that lead to it from the root. The root
is always a directory. A path is followed segment by segment: every step has to start in a
directory that is there, also a step that leads up again.
-/

namespace ImportAssist

inductive Entry where
  | file (content : Bytes)
  | directory
  deriving DecidableEq, Repr

/-- Why a path cannot be used. -/
inductive DiskFault where
  | missing | isDirectory | notDirectory
  deriving DecidableEq, Repr

/-- A fault and the path that was asked for, as it was given. -/
structure DiskError where
  fault : DiskFault
  path : String
  deriving DecidableEq, Repr

def DiskFault.text : DiskFault → String
  | .missing => "[Errno 2] No such file or directory"
  | .isDirectory => "[Errno 21] Is a directory"
  | .notDirectory => "[Errno 20] Not a directory"

def DiskError.message (e : DiskError) : String :=
  e.fault.text ++ ": " ++ Quoted.render e.path

/-- A disk and the directory that relative paths start from, as a program has them. -/
structure Disk where
  cwd : String
  entries : List (List String × Entry)
  /-- How deep lists and objects may stand in each other in the JSON file at a path. The program has so much room left
  when it reads the file. -/
  nesting : String → Nat := fun _ => 990

namespace Disk

/-- What stands under the segments of a path from the root. -/
def at? (disk : Disk) (segments : List String) : Option Entry :=
  if segments.isEmpty then some .directory
  else (disk.entries.find? (·.1 == segments)).map (·.2)

/-- Follows one piece of a path from the place `here`. -/
def step (disk : Disk) (here : List String) (piece : String) : Except DiskFault (List String) :=
  match disk.at? here with
  | none => .error .missing
  | some (.file _) => .error .notDirectory
  | some .directory =>
    if piece = "" || piece = "." then .ok here
    else if piece = ".." then .ok here.dropLast
    else .ok (here ++ [piece])

/-- The place a path leads to; whether anything stands there is left open. -/
def locate (disk : Disk) (path : String) : Except DiskFault (List String) :=
  if path = "" then .error .missing
  else
    let start := if Path.isAbsolute path then [] else (Path.Parts.read disk.cwd).segments
    (Path.pieces path).foldlM disk.step start

/-- What a path leads to. -/
def find (disk : Disk) (path : String) : Except DiskFault Entry := do
  match disk.at? (← disk.locate path) with
  | some entry => pure entry
  | none => throw .missing

def entry? (disk : Disk) (path : String) : Option Entry := (disk.find path).toOption

/-- Whether a path leads to anything. -/
def has (disk : Disk) (path : String) : Bool := (disk.entry? path).isSome

def isFile (disk : Disk) (path : String) : Bool :=
  match disk.entry? path with
  | some (.file _) => true
  | _ => false

def isDirectory (disk : Disk) (path : String) : Bool := disk.entry? path == some .directory

/-- The content of a file. -/
def read (disk : Disk) (path : String) : Except DiskError Bytes :=
  match disk.find path with
  | .ok (.file content) => .ok content
  | .ok .directory => .error ⟨.isDirectory, path⟩
  | .error fault => .error ⟨fault, path⟩

/-- Puts an entry under the segments of a path, in place of what stands there. -/
def set (disk : Disk) (segments : List String) (entry : Entry) : Disk :=
  { disk with entries := disk.entries.filter (·.1 != segments) ++ [(segments, entry)] }

/-- The beginnings of a list, the empty one apart, shortest first. -/
def ancestry (segments : List String) : List (List String) :=
  (List.range segments.length).map fun n => segments.take (n + 1)

/-- Makes a directory and all that lead to it. -/
def makeDirectory (disk : Disk) (segments : List String) : Disk :=
  (ancestry segments).foldl
    (fun d above => if (d.at? above).isSome then d else d.set above .directory) disk

/-- Writes a file; its directory has to be there. -/
def write (disk : Disk) (path : String) (content : Bytes) : Except DiskError Disk :=
  match disk.locate path with
  | .error fault => .error ⟨fault, path⟩
  | .ok segments =>
    match disk.at? segments, disk.at? segments.dropLast with
    | some .directory, _ => .error ⟨.isDirectory, path⟩
    | _, some .directory => .ok (disk.set segments (.file content))
    | _, some (.file _) => .error ⟨.notDirectory, path⟩
    | _, none => .error ⟨.missing, path⟩

/-- Takes away what stands under the segments of a path, with all below it. -/
def erase (disk : Disk) (segments : List String) : Disk :=
  { disk with entries := disk.entries.filter fun e => !segments.isPrefixOf e.1 }

/-- The names in a directory that belong to directories and to files, both in order. -/
def list (disk : Disk) (segments : List String) : List String × List String :=
  let inside := disk.entries.filterMap fun (place, entry) =>
    match place.getLast? with
    | some name => if place.dropLast == segments then some (name, entry) else none
    | none => none
  let (directories, files) := inside.partition (·.2 == .directory)
  ((directories.map (·.1)).mergeSort, (files.map (·.1)).mergeSort)

end Disk

end ImportAssist
