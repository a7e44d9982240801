import ImportAssist.Syntax.Tree
import ImportAssist.Syntax.Lexeme

/-!
# Grammar rules and how they read a source

A grammar is data: a `Rule` for each symbol. `Rule.run` reads a source by ordered choice, without
ever going back behind a choice once made, and builds the tree as it goes.

White space and comments may stand before every token. A comment becomes a child of the node
that has a token on both sides of it; in particular `node` skips the comments in front of a node
before it starts.

A statement may end without a semicolon. `semicolon` accepts such an end, and takes the comments
that follow on the same line into the statement. `joined` is its opposite: it refuses to go on
where the statement has ended that way.
-/

namespace ImportAssist

/-- Where an expression or a type stands. -/
inductive Place where
  /-- Directly in a statement, which a line break may end. -/
  | statement
  /-- Inside brackets. -/
  | bracket
  /-- Between the question mark and the colon of a conditional, where a colon after a
  parenthesis does not start a result type. -/
  | consequent
  deriving DecidableEq, Repr

mutual

/-- A rule over the symbols `σ`. -/
inductive Rule (σ : Type) where
  /-- Punctuation, not followed by any of the characters of `notBefore`. -/
  | mark (text : String) (notBefore : List Char)
  | keyword (text : String)
  /-- A word that is none of `except`. -/
  | name (kind : Kind) (except : List String)
  /-- A literal recognised by its characters. With `raw`, nothing is skipped in front of it. -/
  | lexeme (kind : Kind) (raw : Bool) (literal : Lexeme.Class)
  | seq (rules : List (Rule σ))
  | alt (rules : List (Rule σ))
  | opt (rule : Rule σ)
  | many (rule : Rule σ)
  /-- Succeeds where the rule does, and takes nothing. -/
  | ahead (rule : Rule σ)
  | notAhead (rule : Rule σ)
  | node (kind : Kind) (rule : Rule σ)
  | role (role : Role) (rule : Rule σ)
  | call (symbol : σ)
  /-- A first operand and then as many links as follow, each wrapping all before it. -/
  | chain (base : Rule σ) (links : List (Link σ))
  /-- Skips white space and comments, then goes on. -/
  | fresh (rule : Rule σ)
  | inside (place : Place) (rule : Rule σ)
  /-- Succeeds anywhere but in one place. -/
  | outside (place : Place)
  /-- A statement's end without a semicolon. -/
  | semicolon
  | joined
  /-- Takes a bracket, its partner and all between. -/
  | group

/-- One way to go on after an operand: the node it makes, the operand's role in it, the kinds of
operand it takes (any if none is named), and what follows the operand. -/
inductive Link (σ : Type) where
  | mk (kind : Kind) (left : Option Role) (onto : List Kind) (tail : Rule σ)

end

namespace Syntax

/-- How far a source has been read. -/
structure Cursor where
  offset : Nat
  rest : List Glyph

namespace Cursor

def start (bytes : Bytes) : Cursor := ⟨0, Utf8.glyphs bytes⟩

/-- Past the next `n` glyphs. -/
def advance : Nat → Cursor → Cursor
  | 0, c => c
  | n + 1, ⟨offset, rest⟩ =>
    match rest with
    | [] => ⟨offset, []⟩
    | g :: rest => advance n ⟨offset + g.width, rest⟩

end Cursor

/-- Nodes read so far, and where reading stopped. -/
abbrev Reading := List Node × Cursor

/-- Skips white space and comments, and gives the comments. -/
def trivia : Nat → Cursor → Reading
  | 0, c => ([], c)
  | fuel + 1, c =>
    match c.rest with
    | [] => ([], c)
    | g :: _ =>
      if g.valid && Lexeme.isBlank g.char then trivia fuel (c.advance 1)
      else
        match Lexeme.comment c.rest with
        | some n =>
          let after := c.advance n
          let more := trivia fuel after
          (Node.leaf .comment c.offset after.offset :: more.1, more.2)
        | none => ([], c)

/-! ## Ends of statements -/

/-- Whether a statement may end in front of these glyphs, which stand on a later line. An operator
that needs a left operand goes on with the statement. -/
def mayStartStatement (gs : List Glyph) : Bool :=
  match gs with
  | [] => true
  | g :: rest =>
    if ",.;*%><=?^|&/:".toList.contains g.char then false
    else if g.char == '+' then Lexeme.nextIn ['+'] rest
    else if g.char == '-' then Lexeme.nextIn ['-'] rest
    else if g.char == '!' then !Lexeme.nextIn ['='] rest
    else if g.char == 'i' then
      let n := Lexeme.word gs
      !((n == 2 && Lexeme.literal "in".toList gs) ||
        (n == 10 && Lexeme.literal "instanceof".toList gs))
    else true

/-- The rest of a line in front of the next token: the comments on it, and whether a statement may
end there. -/
def lineEnd (endsLine : Char → Bool) : Nat → Cursor → Option Reading
  | 0, _ => none
  | fuel + 1, c =>
    let blanks := Lexeme.runLength (fun ch => Lexeme.isBlank ch && !endsLine ch) c.rest
    match c.rest.drop blanks with
    | [] => some ([], c)
    | g :: rest =>
      if g.char == '\x7d' then some ([], c)
      else if endsLine g.char then
        if mayStartStatement (trivia fuel ⟨0, rest⟩).2.rest then some ([], c) else none
      else
        match Lexeme.comment (g :: rest) with
        | some n =>
          let before := c.advance blanks
          let after := before.advance n
          (lineEnd endsLine fuel after).map fun more =>
            (Node.leaf .comment before.offset after.offset :: more.1, more.2)
        | none => none

/-! ## Running a rule -/

/-- Gives a role to the last node that is not a comment. -/
def assignRole (role : Role) : List Node → List Node
  | [] => []
  | n :: ns =>
    if ns.all fun m => m.hasKind .comment then
      if n.hasKind .comment then n :: ns else n.withRole role :: ns
    else n :: assignRole role ns

def runSeq {σ : Type} (run : Rule σ → Cursor → Option Reading) : List (Rule σ) → Cursor → Option Reading
  | [], c => some ([], c)
  | r :: rs, c =>
    match run r c with
    | none => none
    | some (ns, c) =>
      match runSeq run rs c with
      | none => none
      | some (ms, c) => some (ns ++ ms, c)

def runAlt {σ : Type} (run : Rule σ → Cursor → Option Reading) : List (Rule σ) → Cursor → Option Reading
  | [], _ => none
  | r :: rs, c =>
    match run r c with
    | some reading => some reading
    | none => runAlt run rs c

/-- Repeats a reader as long as it takes something. -/
def repeatRun (read : Cursor → Option Reading) : Nat → List (List Node) → Cursor → Reading
  | 0, done, c => (done.reverse.flatten, c)
  | fuel + 1, done, c =>
    match read c with
    | none => (done.reverse.flatten, c)
    | some (ns, after) =>
      if after.offset ≤ c.offset then (done.reverse.flatten, c)
      else repeatRun read fuel (ns :: done) after

/-- The first link that goes on after the operand `left`. -/
def runLinks {σ : Type} (run : Rule σ → Cursor → Option Reading) (left : Node) :
    List (Link σ) → Cursor → Option (Node × Cursor)
  | [], _ => none
  | .mk kind role onto tail :: links, c =>
    if onto.isEmpty || onto.any left.hasKind then
      match run tail c with
      | some (ns, after) =>
        let operand := match role with
          | some r => left.withRole r
          | none => left
        some (.mk (.kind kind) none left.start after.offset (operand :: ns), after)
      | none => runLinks run left links c
    else runLinks run left links c

/-- Wraps an operand in every link that follows. -/
def runChain {σ : Type} (run : Rule σ → Cursor → Option Reading) (links : List (Link σ)) :
    Nat → Node → Cursor → Node × Cursor
  | 0, left, c => (left, c)
  | fuel + 1, left, c =>
    match runLinks run left links c with
    | none => (left, c)
    | some (node, after) => runChain run links fuel node after

/-- A token of `n` glyphs after the comments in front of it. -/
def token (comments : List Node) (c : Cursor) (n : Nat) (make : Nat → Nat → Node) : Reading :=
  let after := c.advance n
  (comments ++ [make c.offset after.offset], after)

end Syntax

open Syntax

/-- Reads by a rule, with `fuel` bounding the depth of the reading. The characters at which a line
ends are those of `endsLine`. -/
def Rule.run {σ : Type} (grammar : σ → Rule σ) (endsLine : Char → Bool) :
    Nat → Place → Rule σ → Cursor → Option Reading
  | 0, _, _, _ => none
  | fuel + 1, place, rule, c =>
    match rule with
    | .mark text notBefore =>
      let (cs, c) := trivia fuel c
      let chars := text.toList
      if Lexeme.literal chars c.rest && !Lexeme.nextIn notBefore (c.rest.drop chars.length) then
        some (token cs c chars.length (Node.token text))
      else none
    | .keyword text =>
      let (cs, c) := trivia fuel c
      let chars := text.toList
      if Lexeme.literal chars c.rest && Lexeme.word c.rest == chars.length then
        some (token cs c chars.length (Node.token text))
      else none
    | .name kind except =>
      let (cs, c) := trivia fuel c
      let n := Lexeme.word c.rest
      if n == 0 || except.contains (String.ofList ((c.rest.take n).map Glyph.char)) then none
      else some (token cs c n (Node.leaf kind))
    | .lexeme kind raw literal =>
      let (cs, c) := if raw then ([], c) else trivia fuel c
      (literal.scan c.rest).map fun n => token cs c n (Node.leaf kind)
    | .seq rules => runSeq (run grammar endsLine fuel place) rules c
    | .alt rules => runAlt (run grammar endsLine fuel place) rules c
    | .opt rule =>
      match run grammar endsLine fuel place rule c with
      | some reading => some reading
      | none => some ([], c)
    | .many rule => some (repeatRun (run grammar endsLine fuel place rule) fuel [] c)
    | .ahead rule => (run grammar endsLine fuel place rule c).map fun _ => ([], c)
    | .notAhead rule =>
      match run grammar endsLine fuel place rule c with
      | some _ => none
      | none => some ([], c)
    | .node kind rule =>
      let (cs, c) := trivia fuel c
      (run grammar endsLine fuel place rule c).map fun (ns, after) =>
        (cs ++ [Node.mk (.kind kind) none c.offset after.offset ns], after)
    | .role part rule =>
      (run grammar endsLine fuel place rule c).map fun (ns, after) => (assignRole part ns, after)
    | .call symbol => run grammar endsLine fuel place (grammar symbol) c
    | .chain base links =>
      match run grammar endsLine fuel place base c with
      | none => none
      | some (ns, after) =>
        match ns.getLast? with
        | none => some (ns, after)
        | some left =>
          let (whole, after) := runChain (run grammar endsLine fuel place) links fuel left after
          some (ns.dropLast ++ [whole], after)
    | .fresh rule =>
      let (cs, c) := trivia fuel c
      (run grammar endsLine fuel place rule c).map fun (ns, after) => (cs ++ ns, after)
    | .inside place rule => run grammar endsLine fuel place rule c
    | .outside other => if place = other then none else some ([], c)
    | .semicolon => lineEnd endsLine fuel c
    | .joined =>
      if place = .statement then
        match lineEnd endsLine fuel c with
        | some _ => none
        | none => some ([], c)
      else some ([], c)
    | .group =>
      let (cs, c) := trivia fuel c
      (Lexeme.group c.rest).map fun n => (cs, c.advance n)

end ImportAssist
