import ImportAssist.Syntax.Rule

/-!
# Symbols and small rules

The symbols are the places where the grammar refers to itself. Everything that does not need to is
an ordinary definition built from the rules below.
-/

namespace ImportAssist

/-- The variants of the language that a source may be written in. -/
inductive Dialect where
  | javascript
  | typescript
  /-- With types and with markup. -/
  | tsx
  deriving DecidableEq, Repr

namespace Dialect

/-- Whether types may be written. -/
def typed : Dialect → Bool
  | .javascript => false
  | .typescript | .tsx => true

/-- Whether `<tag/>` is markup rather than a type in front of an expression. -/
def markup : Dialect → Bool
  | .typescript => false
  | .javascript | .tsx => true

/-- Where a line ends, as far as a statement may end with it. -/
def endsLine : Dialect → Char → Bool
  | .javascript, c => c = '\n' || c = '\u2028' || c = '\u2029'
  | .typescript, c | .tsx, c => c = '\n'

/-- Words that never name a binding. The typed dialects read a keyword as a name wherever the
keyword could not stand. -/
def reserved : Dialect → List String
  | .javascript =>
    ["break", "case", "catch", "class", "const", "continue", "debugger", "default", "delete", "do",
      "else", "extends", "false", "finally", "for", "function", "if", "import", "in", "instanceof",
      "new", "null", "return", "super", "switch", "this", "throw", "true", "try", "typeof", "var",
      "void", "while", "with"]
  | .typescript | .tsx => []

end Dialect

inductive Symbol where
  | statement | block | declaration | importAlias
  | expressions | expression | operand | suffixed | primary | parenthesized
  | object | array | pattern | formalParameters | callSignature | methodDefinition
  | functionExpression | classExpression | classBody | decorator | newExpression
  | arguments | template | markupElement
  | type | typeUnion | typeOperand | typeArguments | typeParameters | objectType
  | returnType
  deriving DecidableEq, Repr

namespace Grammar

abbrev Production := Rule Symbol

/-- A mark that nothing can extend. -/
def sign (text : String) : Production := .mark text []

/-- A mark that must not be the start of a longer one. -/
def operator (text notBefore : String) : Production := .mark text notBefore.toList

def word (text : String) : Production := .keyword text

def words (texts : List String) : Production := .alt (texts.map .keyword)

/-- A rule that never succeeds. -/
def never : Production := .alt []

/-- A rule only some dialects have. -/
def onlyIf (condition : Bool) (rule : Production) : Production :=
  if condition then rule else never

/-- One or more items with commas between them. -/
def separated (item : Production) : Production :=
  .seq [item, .many (.seq [sign ",", item])]

/-- Items with commas between them, of which any may be missing. -/
def withHoles (item : Production) : Production := separated (.opt item)

/-- Items with commas between them and perhaps one behind the last. -/
def listed (item : Production) : Production :=
  .seq [.opt (separated item), .opt (sign ",")]

def braced (content : Production) : Production :=
  .seq [sign "\x7b", .inside .bracket content, sign "\x7d"]

/-- A statement's end: a semicolon, or none where the line or the block ends. -/
def terminator : Production := .alt [sign ";", .semicolon]

def identifier (d : Dialect) (except : List String) : Production :=
  .name .identifier (except ++ d.reserved)

def propertyIdentifier : Production := .name .propertyIdentifier []

def string : Production := .lexeme .string false .string

def number : Production := .lexeme .number false .number

def privateName : Production := .lexeme .privatePropertyIdentifier false .privateName

def keywordNode (kind : Kind) (text : String) : Production := .node kind (word text)

/-- The equals sign of an initial or default value. -/
def equals : Production := operator "=" "=>"

def initializer : Production := .seq [equals, .role .value (.call .expression)]

def propertyName : Production :=
  .alt [propertyIdentifier, privateName, string, number,
    .node .computedPropertyName
      (.seq [sign "[", .inside .bracket (.call .expression), sign "]"])]

end Grammar

end ImportAssist
