import ImportAssist.Syntax.Grammar.Markup
import ImportAssist.Syntax.Grammar.Statements

/-!
# Parsing

`grammar` collects the rules of a dialect. `parseAs` reads a whole source in one dialect, and
`parse` in the first dialect that accepts it, of those that fit the language of the document.
-/

namespace ImportAssist

/-- The rule of each symbol. -/
def grammar (d : Dialect) : Symbol → Rule Symbol
  | .statement => Grammar.statement d
  | .block => Grammar.block
  | .declaration => Grammar.declaration d
  | .importAlias => Grammar.importAlias
  | .expressions => Grammar.expressions
  | .expression => Grammar.expression d
  | .operand => Grammar.operand d
  | .suffixed => Grammar.suffixed d
  | .primary => Grammar.primary d
  | .parenthesized => Grammar.parenthesized d
  | .object => Grammar.object d
  | .array => Grammar.array
  | .pattern => Grammar.pattern d
  | .formalParameters => Grammar.formalParameters d
  | .callSignature => Grammar.callSignature d
  | .methodDefinition => Grammar.methodDefinition d
  | .functionExpression => Grammar.functionExpression d
  | .classExpression => Grammar.classExpression d
  | .classBody => Grammar.classBody d
  | .decorator => Grammar.decorator d
  | .newExpression => Grammar.newExpression d
  | .arguments => Grammar.arguments
  | .template => Grammar.template
  | .markupElement => Grammar.markupElement d
  | .type => Grammar.type
  | .typeUnion => Grammar.typeUnion
  | .typeOperand => Grammar.typeOperand
  | .typeArguments => Grammar.typeArguments
  | .typeParameters => Grammar.typeParameters
  | .objectType => Grammar.objectType
  | .returnType => Grammar.returnType

open Syntax

/-- More than the deepest reading of what is left of a source, if that is `n` glyphs: between two
glyphs no rule is entered twice. -/
def readingDepth (n : Nat) : Nat := 400 * (n + 2)

/-- Reads the next statement at the top level, with the comments in front of it. -/
def readStatement (d : Dialect) (c : Cursor) : Option Reading :=
  let (cs, c) := trivia c.rest.length c
  match Grammar.item.run (grammar d) d.endsLine (readingDepth c.rest.length) .statement c with
  | some (ns, after) => if after.offset ≤ c.offset then none else some (cs ++ ns, after)
  | none => none

/-- Reads statements as long as there are any, and at most `limit`. -/
def readStatements (d : Dialect) : Nat → Cursor → Reading
  | 0, c => ([], c)
  | limit + 1, c =>
    match readStatement d c with
    | none => ([], c)
    | some (ns, after) =>
      let (ms, last) := readStatements d limit after
      (ns ++ ms, last)

/-- Reads statements, and then the comments that are left. -/
def readBody (d : Dialect) (c : Cursor) : Reading :=
  let (ns, c) := readStatements d c.rest.length c
  let (cs, c) := trivia c.rest.length c
  (ns ++ cs, c)

/-- Reads the interpreter line that a script may start with. -/
def readHashBang (c : Cursor) : Reading :=
  match Lexeme.hashBang c.rest with
  | some n => token [] c n (Node.leaf .hashBang)
  | none => ([], c)

/-- The tree of a source, if the dialect accepts it as a whole. -/
def parseAs (d : Dialect) (source : Bytes) : Option Node :=
  let (bang, c) := readHashBang (Cursor.start source)
  let (ns, last) := readBody d c
  if last.rest.isEmpty then some (.mk (.kind .program) none 0 source.length (bang ++ ns)) else none

namespace Dialect

/-- The name of a dialect. -/
def name : Dialect → String
  | .javascript => "javascript"
  | .typescript => "typescript"
  | .tsx => "tsx"

/-- The dialects to try for a document, by its language or by its extension. -/
def forLanguage (language : String) : List Dialect :=
  if language = "typescript" || language = "typescriptreact" || language = "ts" then
    [.typescript, .tsx]
  else [.tsx, .javascript]

end Dialect

/-- The tree of a source in the first dialect of its language that accepts it. -/
def parse (source : Bytes) (language : String) : Option Node :=
  (Dialect.forLanguage language).findSome? fun d => parseAs d source

end ImportAssist
