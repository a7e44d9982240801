import ImportAssist.Disk

/-!
# Where modules are

A relative import path names a file, a file without its extension, or a directory with an index
file.
-/

namespace ImportAssist

/-- The file that a module path means for a document in `directory`. A file that is there comes
first, then the path with the extension, then the index file of a directory. -/
def modulePath (disk : Disk) (extension directory path : String) : String :=
  let file := Path.resolveImport directory path
  if disk.isFile file then file
  else
    let withExtension := file ++ "." ++ extension
    if disk.isDirectory file && !disk.has withExtension then
      Path.join file ("index." ++ extension)
    else withExtension

/-- Whether an import path leads to anything, as it is or with the extension. -/
def isResolvable (disk : Disk) (extension directory path : String) : Bool :=
  let target := Path.resolveImport directory path
  disk.has target || disk.has (target ++ "." ++ extension)

end ImportAssist
