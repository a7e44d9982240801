import ImportAssist.CommandLine.Run
import Std.Data.HashSet

/-!
# The program

`main` takes a picture of the workspace, runs the program on it, and writes what the run has changed.
All decisions are made by `CommandLine.run`; only reading and writing happens here.
-/

namespace ImportAssist.CommandLine

/-- How many directories below each other are looked into. -/
def deepest : Nat := 64

/-- How far below a directory is looked into, where its name tells. Of packages only the manifests
count, and those stand below the package's name, which may have a scope in front. -/
def depthOf (name : String) (depth : Nat) : Nat :=
  if name == "node_modules" then min depth 3
  else if name == ".git" then 0
  else depth

theorem depthOf_le (name : String) (depth : Nat) : depthOf name depth ≤ depth := by
  unfold depthOf
  split
  · omega
  · split <;> omega

/-- Whether a file counts, by the directories that lead to it. -/
def counts (place : List String) (name : String) : Bool :=
  name == Manifest.fileName || !place.contains "node_modules"

/-- The place of an absolute path as text. -/
def pathOf (place : List String) : String := "/" ++ "/".intercalate place

/-- A file, unless it cannot be read. -/
def fileAt? (place : List String) : IO (List (List String × Entry)) := do
  let here ← IO.currentDir
  try
    return [(place, Entry.file (← IO.FS.readBinFile (here / pathOf place)).toList)]
  catch _ => return []

/-- What stands in a directory, and below it as far as `depth` allows. -/
def entriesBelow : Nat → List String → IO (List (List String × Entry))
  | 0, _ => return []
  | depth + 1, place => do
    let here ← IO.currentDir
    let inside ← try (here / pathOf place).readDir catch _ => pure #[]
    let found ← inside.toList.mapM fun e => do
      let below := place ++ [e.fileName]
      if ← e.path.isDir then
        return (below, Entry.directory) :: (← entriesBelow (depthOf e.fileName depth) below)
      else if counts place e.fileName then fileAt? below
      else return []
    return found.flatten
termination_by depth => depth
decreasing_by exact Nat.lt_succ_of_le (depthOf_le ..)

/-- What a directory needs: the directories that lead to it, with their manifests, and all below
it. -/
def entriesAround (cwd directory : String) : IO (List (List String × Entry)) := do
  let place := (Path.Parts.read (Path.absolute cwd directory)).segments
  let onTheWay ← (Disk.ancestry place).mapM fun above => do
    return (above, Entry.directory) :: (← fileAt? (above.dropLast ++ [Manifest.fileName]))
  return onTheWay.flatten ++ (← entriesBelow deepest place)

/-- Each place once. -/
def distinct (entries : List (List String × Entry)) : List (List String × Entry) :=
  let (kept, _) := entries.foldl
    (fun (kept, seen) (place, entry) =>
      let path := pathOf place
      if seen.contains path then (kept, seen) else ((place, entry) :: kept, seen.insert path))
    (([] : List (List String × Entry)), (∅ : Std.HashSet String))
  kept.reverse

/-- The part of the machine's disk that some directories need. -/
def picture (cwd : String) (directories : List String) : IO Disk := do
  let found ← directories.mapM (entriesAround cwd)
  return { cwd := cwd, entries := distinct found.flatten }

/-- The directories that a run may look into. -/
def directoriesOf (arguments : Arguments) : List String :=
  let file := match arguments.command with
    | .candidates file | .add file _ _ | .fix file _ => file
  [(arguments.root.filter (· ≠ "")).getD ".", Path.directory file]
    ++ (arguments.config.map Path.directory).toList

/-- Writes one entry of a disk. -/
def writeEntry (place : List String) : Entry → IO Unit
  | .directory => do
    let here ← IO.currentDir
    IO.FS.createDirAll (here / pathOf place)
  | .file content => do
    let here ← IO.currentDir
    IO.FS.writeBinFile (here / pathOf place) ⟨content.toArray⟩

/-- Writes what differs between two disks. -/
def writeChanges (before after : Disk) : IO Unit :=
  after.entries.forM fun (place, entry) =>
    if before.at? place == some entry then pure () else writeEntry place entry

/-- The terminal of the machine. -/
def console : Terminal IO where
  readLine := do (← IO.getStdin).getLine
  print := IO.print
  printNotice := IO.eprint

def usage : String :=
  "usage: [--root ROOT] [--config CONFIG] [--eslint] [-v] candidates FILE\n"
    ++ "       [--root ROOT] [--config CONFIG] [--eslint] [-v] add [--dry-run] FILE TARGET\n"
    ++ "       [--root ROOT] [--config CONFIG] [--eslint] [-v] fix [--dry-run] FILE\n"

end ImportAssist.CommandLine

open ImportAssist ImportAssist.CommandLine in
/-- Runs the program with the arguments of the command line. -/
def main (args : List String) : IO UInt32 := do
  match parseArguments args with
  | .error refusal =>
    if refusal = .help then IO.print usage else IO.eprint usage
    return refusal.exitCode.toUInt32
  | .ok arguments =>
    let before ← picture (← IO.currentDir).toString (directoriesOf arguments)
    let (result, after) ← run console before arguments
    writeChanges before after
    match result with
    | .ok code => return code.toUInt32
    | .error failure =>
      IO.eprintln failure.message
      return 1
