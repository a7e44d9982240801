import ImportAssist.Failure

/-!
# Loading settings

A workspace keeps its settings in a file of its own directory. When that file is missing or cannot
be used, the defaults hold; a file that was asked for by name has to be usable.
-/

namespace ImportAssist.Config

/-- Where a workspace keeps its settings. -/
def directoryName : String := ".quicken"

def defaultPath (root : String) : String :=
  Path.join (Path.join (Path.clean root) directoryName) "config.json"

/-- The settings of a file. -/
def loadFile (disk : Disk) (path : String) : Except Failure Config :=
  let path := Path.clean path
  match disk.readJson path with
  | .error failure => .error failure
  | .ok (.error reason) => .error (.unreadableSettings path reason)
  | .ok (.ok data) => (Config.read data).mapError .invalidSettings

/-- The settings of a workspace, or of the file that was asked for. -/
def load (disk : Disk) (root : String) : Option String → Except Failure Config
  | some path => loadFile disk path
  | none =>
    if disk.has (defaultPath root) then
      match loadFile disk (defaultPath root) with
      | .error (.unreadableSettings _ _) | .error (.invalidSettings _) => .ok {}
      | result => result
    else .ok {}

end ImportAssist.Config
