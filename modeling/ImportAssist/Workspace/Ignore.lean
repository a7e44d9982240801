import ImportAssist.Failure
import ImportAssist.Pattern.Reader
import ImportAssist.Text.Lines

/-!
# Ignored files

A workspace lists the files that are not to be offered, one pattern a line. Of all patterns that
match a path the last one decides, and a pattern with an exclamation mark takes a path back in.

A pattern matches a path and all that lies below it. A slash at its end asks for a directory. A
pattern with a slash elsewhere starts at the root, any other matches at every depth. A star and a
question mark stand for characters of one segment, brackets for one of some characters, and a double
star for any number of segments.
-/

namespace ImportAssist

structure IgnoreRule where
  /-- Whether a match is ignored, or taken back in. -/
  ignores : Bool
  expr : Pattern.Expr

namespace IgnoreRule

open Pattern (Expr)

/-! ## One segment -/

/-- Not a slash. -/
def segmentChar : Expr := .set .minded true [.char '/']

def star (low : Nat) (body : Expr) : Expr := .loop .greedy none low none body

def anything : Expr := star 0 (.any false)

def optional (body : Expr) : Expr := .loop .greedy none 0 (some 1) body

/-- The characters of a bracket expression behind its opening bracket, if it is closed. A closing
bracket right at the front stands for itself. -/
def bracket? (rest : List Char) : Option (List Char) :=
  let sign := match rest with
    | '!' :: _ | '^' :: _ => 1
    | _ => 0
  let lead := sign + if (rest.drop sign).head? == some ']' then 1 else 0
  let body := (rest.drop lead).takeWhile (· != ']')
  if lead + body.length < rest.length then some (rest.take (lead + body.length)) else none

/-- What a bracket expression stands for; a backslash in it stands for itself. -/
def bracketExpr (inside : List Char) : Except Failure Expr :=
  let negated := inside.head? == some '!' || inside.head? == some '^'
  let body := if negated then inside.drop 1 else inside
  let text := body.flatMap (fun c => if c = '\\' then ['\\', '\\'] else [c]) ++ [']']
  let source : Pattern.Source := ⟨text, .none, 0, [], [], [], none⟩
  match (Pattern.setItems .none (text.length + 1) []).run source with
  | some (items, _) => .ok (.set .minded negated items)
  | none => .error .badPattern

/-- The characters of a segment, of which the first `skip` belong to an expression already given. -/
def segmentFrom (line : String) : Nat → List Char → Except Failure Expr
  | _, [] => .ok .empty
  | skip + 1, _ :: rest => segmentFrom line skip rest
  | 0, ['\\'] => .error (.badIgnoreRule line)
  | 0, '\\' :: c :: rest => return .seq (.char .minded c) (← segmentFrom line 0 rest)
  | 0, c :: rest =>
    if c = '*' then return .seq (star 0 segmentChar) (← segmentFrom line 0 rest)
    else if c = '?' then return .seq segmentChar (← segmentFrom line 0 rest)
    else if c = '[' then
      match bracket? rest with
      | some inside => do
        let first ← bracketExpr inside
        return .seq first (← segmentFrom line (inside.length + 1) rest)
      | none => return .seq (.char .minded c) (← segmentFrom line 0 rest)
    else return .seq (.char .minded c) (← segmentFrom line 0 rest)

/-! ## Whole patterns -/

/-- Of neighbouring double stars one is enough. -/
def dropDoubled : List String → List String
  | "**" :: "**" :: rest => dropDoubled ("**" :: rest)
  | s :: rest => s :: dropDoubled rest
  | [] => []

/-- The end of a pattern: a directory and all below it, or a file. -/
def below : Expr := optional (.seq (.char .minded '/') anything)

/-- The segments behind the first; `slash` says whether a slash has to come first. -/
def segmentsFrom (line : String) (slash : Bool) : List String → Except Failure Expr
  | [] => .ok .empty
  | ["**"] => .ok (.seq (.char .minded '/') anything)
  | "**" :: rest => do
    let between := optional (.seq (.char .minded '/') (star 1 (.any false)))
    return .seq between (← segmentsFrom line true rest)
  | segment :: rest => do
    let here ← if segment = "*" then pure (star 1 segmentChar) else segmentFrom line 0 segment.toList
    let here := if slash then .seq (.char .minded '/') here else here
    if rest.isEmpty then return .seq here below
    else return .seq here (← segmentsFrom line true rest)

/-- A pattern without a slash, its end apart, matches at every depth. -/
def anchor : List String → List String
  | "" :: rest => rest
  | [s] => ["**", s]
  | [s, ""] => ["**", s, ""]
  | segments => segments

/-- A slash at the end asks for all that lies below a directory. -/
def close (segments : List String) : List String :=
  if segments.getLast? == some "" then segments.dropLast ++ ["**"] else segments

/-- The expression of a pattern that is cut at its slashes. -/
def exprOf (line : String) (segments : List String) : Except Failure Expr :=
  match dropDoubled (close (anchor segments)) with
  | [] => .error (.badIgnoreRule line)
  | ["**"] =>
    let nested := segments.getLast? == some ""
    .ok (.seq (star 1 segmentChar) (if nested then .seq (.char .minded '/') anything else below))
  | "**" :: rest => do
    return .seq (optional (.seq (star 1 (.any false)) (.char .minded '/')))
      (← segmentsFrom line false rest)
  | closed => segmentsFrom line false closed

/-- A line without the white space at its end, unless a backslash keeps it. -/
def trim (line : String) : String :=
  let reversed := line.toList.reverse
  if reversed.take 2 == [' ', '\\'] then line else String.ofList (reversed.dropWhile isBlank).reverse

/-- The rule of a line; empty lines and comments give none. -/
def read (line : String) : Except Failure (Option IgnoreRule) :=
  let text := trim line
  match text.toList with
  | [] | '#' :: _ | ['/'] => .ok none
  | '!' :: rest => do return some ⟨false, ← exprOf line (Path.pieces (String.ofList rest))⟩
  | _ => do return some ⟨true, ← exprOf line (Path.pieces text)⟩

def covers (rule : IgnoreRule) (path : String) : Bool :=
  let chars := path.toList
  let whole := Pattern.Expr.seq rule.expr (.anchor .finalEnd)
  (whole.run (whole.fuel chars) (.start chars) some).isSome

end IgnoreRule

/-! ## The rules of a workspace -/

/-- The rules that hold where a workspace has none of its own. -/
def defaultIgnoreLines : List String :=
  ["node_modules/", "bower_components/", "jspm_packages/", ".yarn/", ".pnpm-store/",
   "dist/", "build/", "out/", "coverage/", ".next/", ".nuxt/", ".cache/",
   ".idea/", ".vscode/", "*.swp", "*.swo", "*~",
   ".quicken/",
   ".git/", ".hg/", ".svn/",
   ".DS_Store", "Thumbs.db"]

/-- The lines of a file, with U+FFFD for what is not UTF-8; none if there is no such file. -/
def ignoreLines? (disk : Disk) (path : String) : Except Failure (Option (List String)) :=
  if disk.has path then
    match disk.read path with
    | .ok bytes => .ok (some (lines (Utf8.decodeLossy bytes)))
    | .error e => .error (.disk e)
  else .ok none

/-- The rules of a workspace in the order in which they are given. -/
def loadIgnoreRules (disk : Disk) (root : String) : Except Failure (List IgnoreRule) := do
  let shared := (← ignoreLines? disk (Path.join (Path.clean root) ".gitignore")).getD []
  let own := (← ignoreLines? disk (Path.join (Path.clean root) ".quickenignore")).getD defaultIgnoreLines
  return (← (shared ++ own).mapM IgnoreRule.read).filterMap id

/-- A path as the rules see it: from the root of the workspace, if it lies below it. A separator at
its end marks a directory and stays. -/
def ignorePath (root path : String) : String :=
  let inside := (Path.below? root path).getD (Path.clean path)
  let marked := path.toList.getLast?.any fun c => c = '/' || c = '\\'
  let whole := if marked then inside ++ "/" else inside
  match whole.toList with
  | '/' :: rest | '.' :: '/' :: rest => String.ofList rest
  | _ => whole

/-- Whether the last rule that matches a path ignores it. -/
def shouldIgnore (rules : List IgnoreRule) (root path : String) : Bool :=
  let seen := ignorePath root path
  (rules.reverse.find? (·.covers seen)).any (·.ignores)

/-! ## Listing files -/

/-- The files below a directory that are not ignored: those of the directory itself first, then
those of its directories. A directory that is ignored is not looked into. The paths start at the
root of the workspace, and so does `way`, which leads to the directory; `place` is where the root is. -/
def listFrom (disk : Disk) (ignored : String → Bool) (place : List String) :
    Nat → List String → List String
  | 0, _ => []
  | fuel + 1, way =>
    let (directories, files) := disk.list (place ++ way)
    let path (name : String) := "/".intercalate (way ++ [name])
    let kept := directories.filter fun d => !ignored (path d ++ "/")
    (files.map path).filter (!ignored ·)
      ++ kept.flatMap fun d => listFrom disk ignored place fuel (way ++ [d])

/-- The absolute paths of the files of a workspace that its rules do not ignore, or of all its files. -/
def listFiles (disk : Disk) (root : String) (respectIgnore : Bool) : Except Failure (List String) := do
  let rules ← if respectIgnore then loadIgnoreRules disk root else pure []
  match disk.locate (Path.clean root) with
  | .error _ => return []
  | .ok place =>
    if disk.at? place == some .directory then
      let found := listFrom disk (shouldIgnore rules root) place (disk.entries.length + 1) []
      return found.map (Path.join (Path.absolute disk.cwd root))
    else return []

end ImportAssist
