import ImportAssist.Pattern.Reader

/-!
# Replacement templates

A template is a text with references to the groups of a match. `Compiled.replaceFirst` puts an
expanded template in place of the first match.
-/

namespace ImportAssist.Pattern

/-- What can be wrong with a template. -/
inductive TemplateError where
  | malformed
  /-- A name that no group has. -/
  | unknownName (name : String)
  deriving DecidableEq, Repr

inductive Piece where
  | char (c : Char)
  | group (index : Nat)
  deriving DecidableEq, Repr

/-- A reference to a group of a pattern. -/
def reference (pattern : Compiled) (index : Nat) : Except TemplateError Piece :=
  if index ≤ pattern.groups then .ok (.group index) else .error .malformed

/-- A reference by what stands in angle brackets. -/
def namedReference (pattern : Compiled) (name : List Char) : Except TemplateError Piece :=
  if isGroupName name then
    match pattern.names.find? (·.1 == String.ofList name) with
    | some (_, index) => .ok (.group index)
    | none => .error (.unknownName (String.ofList name))
  else
    match wholeNumber? name with
    | some index => reference pattern index
    | none => .error .malformed

/-- What the escape with the character `c` stands for when `rest` follows, and how many characters
of `rest` belong to it. -/
def templateEscape (pattern : Compiled) (c : Char) (rest : List Char) :
    Except TemplateError (List Piece × Nat) :=
  if c = 'g' then
    match rest with
    | '<' :: inner =>
      let name := inner.takeWhile (· != '>')
      if name.isEmpty || name.length = inner.length then .error .malformed
      else do pure ([← namedReference pattern name], name.length + 2)
    | _ => .error .malformed
  else if c = '0' then
    let more := (rest.take 2).takeWhile isOctal
    .ok ([.char (Char.ofNat (number 8 more % 256))], more.length)
  else if c.isDigit then
    match rest with
    | d :: e :: _ =>
      if d.isDigit then
        if isOctal c && isOctal d && isOctal e then
          if number 8 [c, d, e] > 255 then .error .malformed
          else .ok ([.char (Char.ofNat (number 8 [c, d, e]))], 2)
        else do pure ([← reference pattern (number 10 [c, d])], 1)
      else do pure ([← reference pattern (number 10 [c])], 0)
    | [d] =>
      if d.isDigit then do pure ([← reference pattern (number 10 [c, d])], 1)
      else do pure ([← reference pattern (number 10 [c])], 0)
    | [] => do pure ([← reference pattern (number 10 [c])], 0)
  else
    match controlEscape? c with
    | some d => .ok ([.char d], 0)
    | none =>
      if c = 'b' then .ok ([.char '\x08'], 0)
      else if isAsciiLetter c then .error .malformed
      else .ok ([.char '\\', .char c], 0)

/-- The pieces of a template, of which the first `skip` characters belong to one already given. -/
def templateFrom (pattern : Compiled) : Nat → List Char → Except TemplateError (List Piece)
  | _, [] => .ok []
  | skip + 1, _ :: rest => templateFrom pattern skip rest
  | 0, ['\\'] => .error .malformed
  | 0, '\\' :: c :: rest => do
    let (pieces, used) ← templateEscape pattern c rest
    return pieces ++ (← templateFrom pattern used rest)
  | 0, c :: rest => return .char c :: (← templateFrom pattern 0 rest)

/-- The text of a piece for a match; a group that took no part is empty. -/
def Piece.expand (text : List Char) (found : Match) : Piece → List Char
  | .char c => [c]
  | .group 0 => (text.take found.stop).drop found.start
  | .group index =>
    match found.groups.find? (·.1 == index) with
    | some (_, start, stop) => (text.take stop).drop start
    | none => []

/-- A text with a template in place of a match. -/
def Compiled.replace (pattern : Compiled) (found : Match) (template text : String) :
    Except TemplateError String := do
  let pieces ← templateFrom pattern 0 template.toList
  let chars := text.toList
  return String.ofList
    (chars.take found.start ++ pieces.flatMap (·.expand chars found) ++ chars.drop found.stop)

end ImportAssist.Pattern
