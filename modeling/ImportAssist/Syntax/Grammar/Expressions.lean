import ImportAssist.Syntax.Grammar.Types

/-!
# Expressions

Operators are read without their precedence: a chain of operands with operators between them is
accepted exactly when it is accepted with any precedence, and where one operator binds more
tightly than another is of no use to a reader of imports.
-/

namespace ImportAssist.Grammar

/-- Words that start an operand and so never are one by themselves. -/
def operandWords : List String :=
  ["await", "class", "delete", "false", "function", "import", "null", "super", "this", "true",
    "typeof", "undefined", "void", "yield"]

/-! ## Literals -/

def template : Production :=
  .node .templateString
    (.seq [sign "`",
      .many (.alt [.lexeme .stringFragment true .templateText,
        .node .templateSubstitution
          (.seq [sign "$\x7b", .inside .bracket (.call .expressions), sign "\x7d"])]),
      sign "`"])

def parenthesized (d : Dialect) : Production :=
  .node .parenthesizedExpression
    (.seq [sign "(",
      .inside .bracket (.seq [.call .expressions, .opt (onlyIf d.typed typeClause)]),
      sign ")"])

def spread : Production := .node .spreadElement (.seq [sign "...", .call .expression])

def array : Production :=
  .node .array
    (.seq [sign "[", .inside .bracket (withHoles (.alt [spread, .call .expression])), sign "]"])

def property (d : Dialect) : Production :=
  .alt [
    spread,
    .node .pair (.seq [.role .key propertyName, sign ":", .role .value (.call .expression)]),
    .call .methodDefinition,
    .name .shorthandPropertyIdentifier d.reserved]

def object (d : Dialect) : Production := .node .object (braced (withHoles (property d)))

def arguments : Production :=
  .node .arguments
    (.seq [sign "(", .inside .bracket (withHoles (.alt [spread, .call .expression])), sign ")"])

/-! ## Patterns -/

def withDefault (item : Production) : Production :=
  .seq [item, .opt (.seq [equals, .call .expression])]

def rest : Production := .node .restPattern (.seq [sign "...", .call .pattern])

def objectPattern (d : Dialect) : Production :=
  .node .objectPattern
    (braced (withHoles (.alt [
      rest,
      .node .pairPattern
        (.seq [.role .key propertyName, sign ":", .role .value (withDefault (.call .pattern))]),
      withDefault (.name .shorthandPropertyPattern d.reserved)])))

def arrayPattern : Production :=
  .node .arrayPattern
    (.seq [sign "[", .inside .bracket (withHoles (.alt [rest, withDefault (.call .pattern)])),
      sign "]"])

def destructuring (d : Dialect) : Production := .alt [objectPattern d, arrayPattern]

/-- What may stand on the left of an assignment. -/
def pattern (d : Dialect) : Production :=
  .alt [.seq [destructuring d, .notAhead (.alt [sign ".", sign "[", sign "("])], .call .suffixed]

/-! ## Functions -/

def parameter (d : Dialect) : Production :=
  let qualifier :=
    .seq [words ["public", "private", "protected", "override", "readonly"],
      .ahead (.alt [.name .identifier [], sign "\x7b", sign "["])]
  .node .parameter
    (.seq [
      .many (.call .decorator),
      .many (onlyIf d.typed qualifier),
      .alt [rest, destructuring d, keywordNode .this "this", identifier d ["this"]],
      .opt (onlyIf d.typed (sign "?")),
      .opt (onlyIf d.typed typeClause),
      .opt (.seq [equals, .call .expression])])

def formalParameters (d : Dialect) : Production :=
  .node .formalParameters
    (.seq [sign "(",
      .inside .bracket (.opt (.seq [separated (parameter d), .opt (sign ",")])), sign ")"])

def callSignature (d : Dialect) : Production :=
  .seq [.opt (onlyIf d.typed (.call .typeParameters)), .call .formalParameters,
    .opt (onlyIf d.typed (.call .returnType))]

def functionExpression (d : Dialect) : Production :=
  .node .functionExpression
    (.seq [.opt (.seq [word "async", .joined]), word "function", .opt (sign "*"),
      .opt (.role .name (identifier d [])), .call .callSignature, .call .block])

def methodDefinition (d : Dialect) : Production :=
  let qualifiers :=
    if d.typed then
      ["public", "private", "protected", "static", "override", "readonly", "abstract", "async",
        "get", "set"]
    else ["static", "async", "get", "set"]
  .node .methodDefinition
    (.seq [.many (modifier qualifiers), .opt (sign "*"), .role .name propertyName,
      .opt (onlyIf d.typed (sign "?")), .call .callSignature, .call .block])

/-- Parameters in brackets, told from an expression in brackets by the arrow behind them. -/
def arrowParameters (d : Dialect) : Production :=
  .seq [
    .ahead (.seq [
      .opt (onlyIf d.typed (.call .typeParameters)), .ahead (sign "("), .group,
      .alt [sign "=>",
        onlyIf d.typed (.seq [.outside .consequent, .call .returnType, sign "=>"])]]),
    .call .callSignature]

def arrowFunction (d : Dialect) : Production :=
  let head := .alt [.seq [identifier d [], .ahead (sign "=>")], arrowParameters d]
  let body := .alt [.seq [.ahead (sign "\x7b"), .call .block], .call .expression]
  .node .arrowFunction
    (.alt [
      .seq [word "async", .joined, head, sign "=>", body],
      .seq [head, sign "=>", body]])

/-! ## Operands -/

def newExpression (d : Dialect) : Production :=
  .node .newExpression
    (.seq [word "new",
      .alt [.call .newExpression,
        .chain (.call .primary)
          [.mk .memberExpression (some .object) []
              (.seq [sign ".", .role .property (.alt [privateName, propertyIdentifier])]),
            .mk .subscriptExpression (some .object) []
              (.seq [sign "[", .inside .bracket (.call .expressions), sign "]"]),
            .mk .nonNullExpression none []
              (onlyIf d.typed (.seq [.joined, operator "!" "="]))]],
      .opt (onlyIf d.typed
        (.seq [operandTypeArguments, .alt [.ahead (sign "("), .notAhead (.call .operand)]])),
      .opt (.role .arguments (.call .arguments))])

def metaProperty : Production :=
  .node .metaProperty
    (.alt [.seq [word "new", sign ".", word "target"], .seq [word "import", sign ".", word "meta"]])

def primary (d : Dialect) : Production :=
  .fresh (.alt [
    keywordNode .this "this", keywordNode .super "super", keywordNode .true "true",
    keywordNode .false "false", keywordNode .null "null", keywordNode .undefined "undefined",
    number, string, .call .template, .lexeme .regex false .regex,
    .call .parenthesized, .call .array, .call .object,
    .call .functionExpression, .call .classExpression, metaProperty,
    .seq [.node .importKeyword (word "import"), .ahead (.alt [sign "(", sign "."])],
    .call .newExpression,
    identifier d operandWords])

def optionalChain : Production := .node .optionalChain (operator "?." "0123456789")

/-- What may follow an operand and bind to it alone. -/
def suffixLinks (d : Dialect) : List (Link Symbol) :=
  let name := .role .property (.alt [privateName, propertyIdentifier])
  [.mk .memberExpression (some .object) []
      (.seq [.alt [operator "." ".", optionalChain], name]),
    .mk .callExpression (some .function) []
      (.seq [
        .opt (onlyIf d.typed (.seq [operandTypeArguments, .ahead (sign "(")])),
        .role .arguments (.call .arguments)]),
    .mk .callExpression (some .function) []
      (.seq [optionalChain, .opt (onlyIf d.typed (.call .typeArguments)),
        .role .arguments (.call .arguments)]),
    .mk .subscriptExpression (some .object) []
      (.seq [.opt optionalChain, sign "[", .inside .bracket (.call .expressions), sign "]"]),
    .mk .callExpression (some .function) []
      (.seq [.joined, .role .arguments (.call .template)]),
    .mk .nonNullExpression none [] (onlyIf d.typed (.seq [.joined, operator "!" "="])),
    .mk .instantiationExpression none []
      (onlyIf d.typed (.seq [operandTypeArguments, .notAhead (.call .operand)]))]

def suffixed (d : Dialect) : Production := .chain (.call .primary) (suffixLinks d)

def augmentedOperators : Production :=
  .alt ((["+=", "-=", "*=", "/=", "%=", "^=", "&=", "|=", ">>=", ">>>=", "<<=", "**=", "&&=", "||=",
    "??="]).map sign)

/-- The kinds of operand that can be assigned to. -/
def targets : List Kind :=
  [.identifier, .undefined, .memberExpression, .subscriptExpression, .parenthesizedExpression,
    .nonNullExpression]

/-- A suffixed operand, perhaps stepped or assigned to; or a pattern that is assigned to, which is
told from a literal by the equals sign behind it. -/
def assigned (d : Dialect) : Production :=
  .alt [
    .seq [
      .ahead (.seq [.ahead (.alt [sign "\x7b", sign "["]), .group, equals]),
      .node .assignmentExpression
        (.seq [.role .left (destructuring d), equals, .role .right (.call .expression)])],
    .chain (.call .suffixed)
      [.mk .updateExpression none [] (.seq [.joined, .alt [sign "++", sign "--"]]),
        .mk .assignmentExpression (some .left) targets
          (.seq [equals, .role .right (.call .expression)]),
        .mk .augmentedAssignmentExpression (some .left) targets
          (.seq [augmentedOperators, .role .right (.call .expression)])]]

def unaryOperators : Production :=
  .alt [sign "!", sign "~", operator "-" "-", operator "+" "+", word "typeof", word "void",
    word "delete"]

def operand (d : Dialect) : Production :=
  .fresh (.alt [
    arrowFunction d,
    onlyIf d.markup (.call .markupElement),
    onlyIf (d.typed && !d.markup) (.node .typeAssertion (.seq [.call .typeArguments, .call .operand])),
    .node .unaryExpression (.seq [unaryOperators, .call .operand]),
    .node .updateExpression (.seq [.alt [sign "++", sign "--"], .call .operand]),
    .node .awaitExpression (.seq [word "await", .call .operand]),
    .node .yieldExpression
      (.seq [word "yield",
        .alt [.seq [sign "*", .call .expression], .opt (.seq [.joined, .call .expression])]]),
    .seq [privateName, .ahead (word "in")],
    assigned d])

/-! ## Operators -/

def binaryOperators : Production :=
  .alt [
    operator "&&" "=", operator "||" "=", operator "??" "=",
    operator ">>>" "=", operator ">>" ">=", operator "<<" "=",
    sign "===", sign "!==", operator "==" "=", operator "!=" "=", sign "<=", sign ">=",
    operator "**" "=", operator "&" "&=", operator "^" "=", operator "|" "|=",
    operator "+" "+=", operator "-" "-=", operator "*" "*=", operator "/" "/=*", operator "%" "=",
    operator "<" "<=", operator ">" ">=", word "instanceof", word "in"]

/-- The question mark of a conditional. -/
def questionMark : Production :=
  .seq [.notAhead (operator "?." "0123456789"), operator "?" "?"]

def expression (d : Dialect) : Production :=
  let typeAfter (text : String) : Production :=
    onlyIf d.typed (.seq [.joined, word text, .alt [word "const", .call .type]])
  .chain (.call .operand)
    [.mk .binaryExpression none [] (.seq [binaryOperators, .call .operand]),
      .mk .asExpression none [] (typeAfter "as"),
      .mk .satisfiesExpression none [] (typeAfter "satisfies"),
      .mk .ternaryExpression none []
        (.alt [
          .seq [questionMark, .inside .consequent (.call .expression), sign ":", .call .expression,
            .notAhead (sign ":")],
          .seq [questionMark, .inside .bracket (.call .expression), sign ":", .call .expression]])]

def expressions : Production :=
  .chain (.call .expression)
    [.mk .sequenceExpression none [] (.seq [sign ",", .call .expression])]

end ImportAssist.Grammar
