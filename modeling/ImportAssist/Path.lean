/-!
# Paths

A path is a text. `Parts` takes it apart: the slashes that lead it and its segments, without the
empty ones and the single dots, neither of which names anything. Putting the parts together again
gives the *clean* spelling of a path; resolving the double dots first gives the *normal* one.

Exactly two leading slashes are kept apart from one; three or more count as one. No function here
looks at a disk: a double dot always cancels the segment in front of it.
-/

namespace ImportAssist.Path

/-- A path taken apart. -/
structure Parts where
  /-- How many slashes lead the path: none, one or two. -/
  slashes : Nat
  segments : List String
  deriving DecidableEq, Repr

/-- The pieces between the slashes of a path. -/
def pieces (path : String) : List String :=
  (path.toList.splitOn '/').map String.ofList

/-- The slashes that lead a path, where three or more count as one. -/
def leadingSlashes (path : String) : Nat :=
  match (path.toList.takeWhile (· == '/')).length with
  | 0 => 0
  | 2 => 2
  | _ => 1

namespace Parts

def read (path : String) : Parts :=
  ⟨leadingSlashes path, (pieces path).filter fun s => s ≠ "" && s ≠ "."⟩

/-- The segments joined, behind the leading slashes; empty for no parts at all. -/
def join (p : Parts) : String :=
  String.ofList (List.replicate p.slashes '/') ++ "/".intercalate p.segments

/-- As `join`, with a dot for no parts at all. -/
def render (p : Parts) : String :=
  if p.join = "" then "." else p.join

/-- Adds a segment to the normal segments in front of it, which stand in reverse. At the root a
double dot leads nowhere else; at the front of a relative path it stays. -/
def push (rooted : Bool) (done : List String) (segment : String) : List String :=
  if segment = ".." then
    match done with
    | [] => if rooted then [] else [".."]
    | last :: rest => if last = ".." then ".." :: last :: rest else rest
  else segment :: done

/-- Lets every double dot cancel the segment in front of it. -/
def resolve (p : Parts) : Parts :=
  ⟨p.slashes, (p.segments.foldl (push (p.slashes ≠ 0)) []).reverse⟩

end Parts

/-- The clean spelling: no empty segments, no single dots. -/
def clean (path : String) : String := (Parts.read path).render

/-- The normal spelling: clean, and a double dot only where nothing stands in front of it. -/
def normalize (path : String) : String := (Parts.read path).resolve.render

def isAbsolute (path : String) : Bool := path.toList.head? == some '/'

/-- A path as seen from a base. -/
def join (base path : String) : String :=
  if isAbsolute path then path
  else if base = "" || base.toList.getLast? == some '/' then base ++ path
  else base ++ "/" ++ path

/-- The normal absolute path, seen from the working directory `cwd`. -/
def absolute (cwd path : String) : String :=
  normalize (if isAbsolute path then path else join cwd path)

/-- The segments that name the way down from the root. -/
def rootSegments (cwd path : String) : List String := (Parts.read (absolute cwd path)).segments

/-- How many elements two lists share at the front. -/
def sharedLength : List String → List String → Nat
  | a :: as, b :: bs => if a = b then sharedLength as bs + 1 else 0
  | _, _ => 0

/-- The way from the directory `start` to `path`: up to what they share, then down. -/
def relative (cwd path start : String) : String :=
  let here := rootSegments cwd start
  let there := rootSegments cwd path
  let shared := sharedLength here there
  (Parts.mk 0 (List.replicate (here.length - shared) ".." ++ there.drop shared)).render

/-- Whether an absolute path is a directory or lies below it. -/
def isWithin (directory path : String) : Bool :=
  let above := Parts.read directory
  (Parts.mk 1 above.segments).render = directory
    && above.segments.isPrefixOf (Parts.read path).segments

/-- The path of `path` below `base`, if its parts start with those of `base`. -/
def below? (base path : String) : Option String :=
  let above := Parts.read base
  let p := Parts.read path
  if above.slashes = p.slashes && above.segments.isPrefixOf p.segments then
    some (Parts.mk 0 (p.segments.drop above.segments.length)).render
  else none

/-! ## Directory, name and extension -/

/-- What stands behind the last slash. -/
def fileName (path : String) : String :=
  String.ofList (path.toList.reverse.takeWhile (· != '/')).reverse

/-- What stands in front of the last slash; the slashes themselves if there is nothing else. -/
def directory (path : String) : String :=
  let front := path.toList.reverse.dropWhile (· != '/')
  let trimmed := front.dropWhile (· == '/')
  String.ofList (if trimmed.isEmpty then front else trimmed).reverse

/-- A name cut in front of its last dot. The dots that lead a name do not count. -/
def splitExtension (name : String) : String × String :=
  let dots := name.toList.takeWhile (· == '.')
  let body := name.toList.dropWhile (· == '.')
  if body.contains '.' then
    let after := (body.reverse.takeWhile (· != '.')).reverse
    let stem := (body.reverse.dropWhile (· != '.')).reverse.dropLast
    (String.ofList (dots ++ stem), String.ofList ('.' :: after))
  else (name, "")

/-- The file name without its extension. -/
def stem (path : String) : String := (splitExtension (fileName path)).1

/-- The extension without its dot. -/
def extension (path : String) : String :=
  String.ofList ((splitExtension (fileName path)).2.toList.dropWhile (· == '.'))

/-- The name of the directory a file is in. -/
def directoryName (path : String) : String := fileName (directory path)

/-- The last dot of the last part of a path with all that follows; nothing if the dot starts or
ends the part. -/
def suffix (path : String) : String :=
  let name := ((Parts.read path).segments.getLast?.getD "").toList
  let after := (name.reverse.takeWhile (· != '.')).reverse
  if after.isEmpty || name.length < after.length + 2 then ""
  else String.ofList ('.' :: after)

/-! ## Import paths -/

/-- Every separator as a slash. -/
def toSlashes (path : String) : String :=
  String.ofList (path.toList.map fun c => if c = '\\' then '/' else c)

/-- The import path of a file for a document in `fromDirectory`. It starts with a dot or a slash,
as the name of a package does not. -/
def importPath (cwd path fromDirectory : String) : String :=
  let way := toSlashes (relative cwd path fromDirectory)
  if way.toList.head? == some '.' || way.toList.head? == some '/' then way else "./" ++ way

/-- The path that an import path means in a directory. -/
def resolveImport (fromDirectory importPath : String) : String :=
  normalize ((pieces importPath).foldl join fromDirectory)

/-- An import path without its last segment. -/
def stripLastSegment (importPath : String) : String :=
  let parent := directory importPath
  if parent = "" then "." else parent

/-- A path without an extension it ends in. -/
def stripExtension (path extension : String) : String :=
  let ending := ('.' :: extension.toList)
  if extension ≠ "" && ending.isSuffixOf path.toList then
    String.ofList (path.toList.take (path.toList.length - ending.length))
  else path

end ImportAssist.Path
