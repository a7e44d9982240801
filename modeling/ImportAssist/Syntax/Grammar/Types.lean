import ImportAssist.Syntax.Grammar.Symbol

/-!
# Types

The rules for type annotations, type arguments and parameters, and the members of object types.
-/

namespace ImportAssist.Grammar

/-- Words that start a type and so never name one. -/
def typeWords : List String :=
  ["typeof", "keyof", "new", "infer", "readonly", "unique", "import"]

def typeName : Production := .name .typeIdentifier typeWords

def typeClause : Production := .node .typeClause (.seq [sign ":", .call .type])

/-- A name, perhaps qualified, perhaps with type arguments. -/
def namedType : Production :=
  .node .genericType
    (.seq [
      .alt [
        .seq [.name .identifier typeWords, sign ".",
          .many (.seq [propertyIdentifier, sign "."]), typeName],
        typeName],
      .opt (.call .typeArguments)])

/-- `x is T` -/
def typePredicate : Production :=
  .node .typePredicate
    (.seq [.name .identifier [], .joined, word "is", .call .type])

/-- `asserts x` or `asserts x is T` -/
def assertion : Production :=
  .node .assertsClause
    (.seq [word "asserts", .joined, .alt [typePredicate, .name .identifier ["is"]]])

/-- What a function gives. -/
def result : Production := .alt [assertion, typePredicate, .call .type]

def returnType : Production := .node .typeClause (.seq [sign ":", result])

def functionType : Production :=
  .node .functionType
    (.seq [
      .ahead (.seq [.opt (.call .typeParameters), .ahead (sign "("), .group, sign "=>"]),
      .opt (.call .typeParameters), .call .formalParameters, sign "=>", result])

def constructorType : Production :=
  .node .constructorType
    (.seq [.opt (word "abstract"), word "new", .opt (.call .typeParameters),
      .call .formalParameters, sign "=>", .call .type])

/-- An imported module as a type, with what is selected from it. -/
def importedType : Production :=
  .chain (.node .importKeyword (word "import"))
    [.mk .callExpression (some .function) [.importKeyword, .memberExpression]
        (.role .arguments (.call .arguments)),
      .mk .memberExpression (some .object) [.importKeyword, .callExpression, .memberExpression]
        (.seq [sign ".", .role .property propertyIdentifier])]

/-- The type of a value. -/
def typeQuery : Production :=
  .node .typeQuery
    (.seq [word "typeof",
      .chain (.alt [.node .importKeyword (word "import"), keywordNode .this "this", .name .identifier []])
        [.mk .callExpression (some .function) [] (.role .arguments (.call .arguments)),
          .mk .memberExpression (some .object) []
            (.seq [.alt [sign ".", sign "?."], .role .property (.alt [privateName, propertyIdentifier])]),
          .mk .subscriptExpression (some .object) []
            (.seq [.joined, sign "[", .alt [number, string], sign "]"])],
      .opt (.call .typeArguments)])

def tupleMember : Production :=
  .alt [
    .seq [.opt (sign "..."), .name .identifier [], .opt (sign "?"), typeClause],
    .seq [sign "...", .call .type],
    .seq [.call .type, .opt (sign "?")]]

def tupleType : Production :=
  .node .tupleType
    (.seq [sign "[", .inside .bracket (listed tupleMember), sign "]"])

def templateLiteralType : Production :=
  .node .templateLiteralType
    (.seq [sign "`",
      .many (.alt [.lexeme .stringFragment true .templateText,
        .seq [sign "$\x7b", .inside .bracket (.call .type), sign "\x7d"]]),
      sign "`"])

def literalType : Production :=
  .node .literalType
    (.alt [string, number, .seq [.alt [sign "-", sign "+"], number],
      keywordNode .true "true", keywordNode .false "false", keywordNode .null "null",
      keywordNode .undefined "undefined"])

def primaryType : Production :=
  .alt [
    .node .parenthesizedType (.seq [sign "(", .inside .bracket (.call .type), sign ")"]),
    .call .objectType, tupleType, templateLiteralType, literalType, typeQuery, importedType,
    .node .typeOperator (.seq [word "unique", word "symbol"]),
    keywordNode .this "this",
    .node .typeOperator (sign "*"),
    .node .typeOperator (.seq [sign "?", .call .typeOperand]),
    namedType]

def typeOperand : Production :=
  .fresh (.alt [
    functionType, constructorType,
    .node .typeOperator (.seq [word "readonly", .call .typeOperand]),
    .node .typeOperator (.seq [word "keyof", .call .typeOperand]),
    .node .typeOperator
      (.seq [word "infer", typeName,
        .opt (.seq [word "extends", .call .typeUnion])]),
    .chain primaryType
      [.mk .arrayType none [] (.seq [.joined, sign "[", sign "]"]),
        .mk .lookupType none []
          (.seq [.joined, sign "[", .inside .bracket (.call .type), sign "]"])]])

def typeUnion : Production :=
  .seq [.opt (.alt [sign "|", sign "&"]),
    .chain (.call .typeOperand)
      [.mk .unionType none []
        (.seq [.alt [operator "|" "|=\x7d", operator "&" "&="], .call .typeOperand])]]

/-- A type, perhaps chosen by a test. -/
def type : Production :=
  .chain (.call .typeUnion)
    [.mk .conditionalType none []
      (.seq [.joined, word "extends", .call .typeUnion,
        sign "?", .inside .bracket (.call .type), sign ":", .call .type])]

def typeArgumentsUpTo (close : Production) : Production :=
  .node .typeArguments
    (.seq [operator "<" "<=", .inside .bracket (.seq [separated (.call .type), .opt (sign ",")]),
      close])

def typeArguments : Production := typeArgumentsUpTo (sign ">")

/-- Type arguments behind an operand, where `>=` compares. -/
def operandTypeArguments : Production := typeArgumentsUpTo (operator ">" "=")

def typeParameter : Production :=
  .node .typeParameter
    (.seq [
      .many (.seq [words ["const", "in", "out"], .ahead typeName]),
      typeName,
      .opt (.seq [.alt [word "extends", sign ":"], .call .type]),
      .opt (.seq [equals, .call .type])])

def typeParameters : Production :=
  .node .typeParameters
    (.seq [sign "<", .inside .bracket (.seq [separated typeParameter, .opt (sign ",")]), sign ">"])

/-! ## Members of object types -/

/-- A word in front of a member that qualifies it, as opposed to being the member's name. -/
def modifier (texts : List String) : Production :=
  .seq [words texts, .joined, .ahead (.alt [sign "*", propertyName])]

def indexSignature : Production :=
  .node .indexSignature
    (.seq [
      .opt (.seq [.opt (.alt [sign "-", sign "+"]), word "readonly"]),
      sign "[",
      .inside .bracket (.alt [
        .seq [.name .identifier [], sign ":", .call .type],
        .seq [typeName, word "in", .call .type, .opt (.seq [word "as", .call .type])]]),
      sign "]",
      .alt [sign "-?:", sign "+?:", sign "?:", sign ":"],
      .call .type])

def typeMember (exported : Production) : Production :=
  .alt [
    exported,
    .node .callSignature (.call .callSignature),
    .node .constructSignature
      (.seq [.opt (word "abstract"), word "new", .opt (.call .typeParameters),
        .call .formalParameters, .opt typeClause]),
    indexSignature,
    .node .methodSignature
      (.seq [.many (modifier ["public", "private", "protected", "static", "override", "readonly",
          "async", "get", "set"]),
        .opt (sign "*"), .role .name propertyName, .opt (sign "?"), .call .callSignature]),
    .node .propertySignature
      (.seq [.many (modifier ["public", "private", "protected", "static", "override", "readonly"]),
        .role .name propertyName, .opt (sign "?"), .opt typeClause])]

def objectType : Production :=
  .node .objectType
    (.seq [.alt [sign "\x7b|", sign "\x7b"],
      .inside .statement (.seq [.opt (.alt [sign ",", sign ";"]),
        .many (.seq [typeMember never, .alt [sign ",", terminator, .ahead (sign "|\x7d")]])]),
      .alt [sign "|\x7d", sign "\x7d"]])

end ImportAssist.Grammar
