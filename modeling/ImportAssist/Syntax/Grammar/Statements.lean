import ImportAssist.Syntax.Grammar.Expressions

/-!
# Statements and declarations
-/

namespace ImportAssist.Grammar

/-! ## Modules -/

def fromClause : Production := .seq [word "from", .role .source string]

/-- A name that a module exports, which may be any string. -/
def moduleExportName : Production := .alt [.name .identifier [], string]

def endOfSpecifier : Production := .ahead (.alt [sign ",", sign "\x7d"])

/-- The word that restricts an import or export to types. -/
def typeWord (d : Dialect) : Production := onlyIf d.typed (words ["type", "typeof"])

def importSpecifier (d : Dialect) : Production :=
  let renamed := .seq [.role .name moduleExportName, word "as", .role .newName (.name .identifier [])]
  let plain := .role .name (.name .identifier [])
  .node .importSpecifier
    (.alt [
      .seq [typeWord d, renamed, endOfSpecifier],
      .seq [renamed, endOfSpecifier],
      .seq [typeWord d, plain, endOfSpecifier],
      .seq [plain, endOfSpecifier]])

def namedImports (d : Dialect) : Production :=
  .node .namedImports (braced (listed (importSpecifier d)))

def namespaceImport : Production :=
  .node .namespaceImport (.seq [sign "*", word "as", .name .identifier []])

def importClause (d : Dialect) : Production :=
  let bindings := .alt [namespaceImport, namedImports d]
  .node .importClause
    (.alt [bindings, .seq [identifier d [], .opt (.seq [sign ",", bindings])]])

def importRequireClause : Production :=
  .node .importRequireClause
    (.seq [.name .identifier [], equals, word "require", sign "(", string, sign ")"])

def importAttribute : Production :=
  .node .importAttribute (.seq [.joined, words ["with", "assert"], .call .object])

def importStatement (d : Dialect) : Production :=
  let what :=
    .alt [.seq [importClause d, fromClause], onlyIf d.typed importRequireClause, .role .source string]
  .node .importStatement
    (.seq [word "import", .alt [.seq [typeWord d, what], what], .opt importAttribute, terminator])

/-- `import a = b.c` -/
def importAlias : Production :=
  .node .importAlias
    (.seq [word "import", .name .identifier [], equals,
      .chain (.name .identifier [])
        [.mk .memberExpression (some .object) [] (.seq [sign ".", .role .property propertyIdentifier])],
      .notAhead (sign "("), terminator])

def exportSpecifier (d : Dialect) : Production :=
  let renamed := .seq [.role .name moduleExportName, word "as", .role .newName moduleExportName]
  let plain := .role .name moduleExportName
  .node .exportSpecifier
    (.alt [
      .seq [typeWord d, renamed, endOfSpecifier],
      .seq [renamed, endOfSpecifier],
      .seq [typeWord d, plain, endOfSpecifier],
      .seq [plain, endOfSpecifier]])

def exportClause (d : Dialect) : Production :=
  .node .exportClause (braced (listed (exportSpecifier d)))

def namespaceExport : Production :=
  .node .namespaceExport (.seq [sign "*", word "as", moduleExportName])

/-- Words that start a declaration or a statement and so never start an expression statement. -/
def declarationWords (d : Dialect) : Production :=
  words (["var", "const", "function", "class"] ++
    if d.typed then ["enum", "interface", "abstract"] else [])

def exportStatement (d : Dialect) : Production :=
  let declaration := .role .declaration (.call .declaration)
  .node .exportStatement
    (.alt [
      .seq [.many (.call .decorator), word "export",
        .alt [
          declaration,
          .seq [word "default",
            .alt [
              declaration,
              .seq [
                .notAhead (words (["var", "const"] ++
                  if d.typed then ["enum", "interface", "abstract"] else [])),
                .role .value (.call .expression), terminator]]]]],
      .seq [word "export",
        .alt [
          .seq [namespaceExport, fromClause],
          .seq [sign "*", fromClause],
          .seq [exportClause d, .joined, fromClause],
          exportClause d],
        terminator],
      onlyIf d.typed (.seq [word "export",
        .alt [
          .seq [word "type", exportClause d, .opt (.seq [.joined, fromClause]), terminator],
          .call .importAlias,
          .seq [equals, .call .expression, terminator],
          .seq [word "as", word "namespace", .name .identifier [], terminator]]])])

/-! ## Declarations -/

def variableDeclarator (d : Dialect) (except : List String) : Production :=
  .node .variableDeclarator
    (.seq [.role .name (.alt [destructuring d, identifier d except]),
      .opt (onlyIf d.typed (.seq [.opt (sign "!"), typeClause])),
      .opt initializer])

def lexicalDeclaration (d : Dialect) : Production :=
  .node .lexicalDeclaration
    (.seq [
      .alt [
        .seq [word "let", .joined, separated (variableDeclarator d ["in", "instanceof", "of"])],
        .seq [word "const", separated (variableDeclarator d ["enum"])]],
      terminator])

def variableDeclaration (d : Dialect) : Production :=
  .node .variableDeclaration
    (.seq [word "var", separated (variableDeclarator d []), terminator])

def usingDeclaration (d : Dialect) : Production :=
  .node .usingDeclaration
    (.seq [.alt [word "using", .seq [word "await", word "using"]], .joined,
      separated (variableDeclarator d ["in", "instanceof", "of"]), terminator])

def functionDeclaration (kind : Kind) (star : List Production) (d : Dialect) : Production :=
  .node kind
    (.seq ([.opt (.seq [word "async", .joined]), word "function"] ++ star ++
      [.role .name (identifier d []), .call .callSignature, .call .block, .opt .semicolon]))

/-- A function's head without its body. -/
def functionSignature (d : Dialect) : Production :=
  .node .functionSignature
    (.seq [.opt (.seq [word "async", .joined]), word "function", .role .name (identifier d []),
      .call .callSignature, terminator])

def heritage (d : Dialect) : Production :=
  let parent := .seq [.role .value (.call .suffixed), .opt (onlyIf d.typed (.call .typeArguments))]
  let interfaces := .seq [word "implements", separated (.call .type)]
  if d.typed then
    .node .classHeritage
      (.alt [.seq [word "extends", separated parent, .opt interfaces], interfaces])
  else .node .classHeritage (.seq [word "extends", parent])

def className (d : Dialect) : Production :=
  .role .name (.name (if d.typed then .typeIdentifier else .identifier)
    (["extends", "implements"] ++ d.reserved))

def classTail (d : Dialect) : Production :=
  .seq [.opt (onlyIf d.typed (.call .typeParameters)), .opt (heritage d), .call .classBody]

def classExpression (d : Dialect) : Production :=
  .node .classExpression
    (.seq [.many (.call .decorator), word "class", .opt (className d), classTail d])

def classDeclaration (d : Dialect) : Production :=
  .node .classDeclaration
    (.seq [.many (.call .decorator), word "class", className d, classTail d, .opt .semicolon])

def abstractClassDeclaration (d : Dialect) : Production :=
  .node .abstractClassDeclaration
    (.seq [.many (.call .decorator), word "abstract", word "class", className d, classTail d])

def decorator (d : Dialect) : Production :=
  .node .decorator
    (.seq [sign "@",
      .alt [
        .call .parenthesized,
        .chain (.name .identifier [])
          [.mk .memberExpression (some .object) [.identifier, .memberExpression]
              (.seq [sign ".", .role .property propertyIdentifier]),
            .mk .callExpression (some .function) [.identifier, .memberExpression]
              (.seq [.opt (onlyIf d.typed (.call .typeArguments)),
                .role .arguments (.call .arguments)])]]])

/-- A field of a class. -/
def fieldDefinition (d : Dialect) : Production :=
  let qualifiers :=
    if d.typed then
      ["public", "private", "protected", "static", "override", "readonly", "abstract", "declare",
        "accessor"]
    else ["static", "accessor"]
  .node .fieldDefinition
    (.seq [.many (modifier qualifiers), .role .name propertyName,
      .opt (onlyIf d.typed (.alt [sign "?", sign "!"])),
      .opt (onlyIf d.typed typeClause),
      .opt initializer])

/-- A method's head without its body. -/
def methodSignature : Production :=
  .node .methodSignature
    (.seq [
      .many (modifier ["public", "private", "protected", "static", "override", "readonly",
        "abstract", "async", "get", "set"]),
      .opt (sign "*"), .role .name propertyName, .opt (sign "?"), .call .callSignature])

def classMember (d : Dialect) : Production :=
  .alt [
    .call .decorator,
    sign ";",
    .node .classStaticBlock (.seq [word "static", .ahead (sign "\x7b"), .call .block]),
    .seq [.call .methodDefinition, .opt (sign ";")],
    onlyIf d.typed (.seq [indexSignature, .alt [terminator, sign ","]]),
    onlyIf d.typed (.seq [methodSignature, .alt [terminator, sign ","]]),
    .seq [fieldDefinition d, .alt [terminator, onlyIf d.typed (sign ",")]]]

def classBody (d : Dialect) : Production :=
  .node .classBody
    (.seq [sign "\x7b", .inside .statement (.many (classMember d)), sign "\x7d"])

def enumDeclaration : Production :=
  let member :=
    .alt [.node .enumAssignment (.seq [.role .name propertyName, initializer]), propertyName]
  .node .enumDeclaration
    (.seq [.opt (word "const"), word "enum", .role .name (.name .identifier []),
      .node .enumBody (braced (.opt (.seq [separated member, .opt (sign ",")])))])

def interfaceDeclaration : Production :=
  .node .interfaceDeclaration
    (.seq [word "interface", .role .name typeName, .opt (.call .typeParameters),
      .opt (.seq [word "extends", separated namedType]), .call .objectType])

def typeAliasDeclaration : Production :=
  .node .typeAliasDeclaration
    (.seq [word "type", .joined, .role .name typeName, .opt (.call .typeParameters), equals,
      .inside .statement (.call .type), terminator])

def moduleTail : Production :=
  .seq [.joined,
    .role .name (.alt [string,
      .chain (.name .identifier [])
        [.mk .memberExpression (some .object) [] (.seq [sign ".", .role .property propertyIdentifier])]]),
    .opt (.call .block)]

def ambientDeclaration : Production :=
  .node .ambientDeclaration
    (.seq [word "declare", .joined,
      .alt [
        .call .declaration,
        .seq [word "global", .call .block],
        .seq [word "module", sign ".", propertyIdentifier, sign ":", .call .type, terminator]]])

def declaration (d : Dialect) : Production :=
  .fresh (.alt [
    functionDeclaration .functionDeclaration [] d,
    functionDeclaration .generatorFunctionDeclaration [sign "*"] d,
    classDeclaration d,
    onlyIf d.typed enumDeclaration,
    lexicalDeclaration d,
    variableDeclaration d,
    onlyIf (!d.typed) (usingDeclaration d),
    onlyIf d.typed (functionSignature d),
    onlyIf d.typed (abstractClassDeclaration d),
    onlyIf d.typed (.node .moduleDeclaration (.seq [word "module", moduleTail])),
    onlyIf d.typed (.node .namespaceDeclaration (.seq [word "namespace", moduleTail])),
    onlyIf d.typed typeAliasDeclaration,
    onlyIf d.typed interfaceDeclaration,
    onlyIf d.typed (.call .importAlias),
    onlyIf d.typed ambientDeclaration])

/-! ## Statements -/

/-- A statement, or an old comment mark in its place. -/
def item : Production :=
  .alt [.lexeme .markupComment false .markupComment, .call .statement]

def statements : Production := .many item

def block : Production :=
  .node .statementBlock
    (.seq [sign "\x7b", .inside .statement statements, sign "\x7d", .opt .semicolon])

def expressionStatement (d : Dialect) : Production :=
  .node .expressionStatement
    (.seq [
      .notAhead (.alt [declarationWords d,
        words ["export", "if", "for", "while", "do", "try", "with", "break", "continue", "debugger",
          "return", "throw", "switch", "case", "default"]]),
      .call .expressions, terminator])

def ifStatement : Production :=
  .node .ifStatement
    (.seq [word "if", .call .parenthesized, .call .statement,
      .opt (.node .elseClause (.seq [word "else", .call .statement]))])

def forInStatement (d : Dialect) : Production :=
  let binding := .alt [destructuring d, identifier d []]
  .node .forInStatement
    (.seq [word "for", .opt (word "await"), sign "(",
      .inside .bracket (.seq [
        .alt [
          .seq [words ["var", "let", "const", "using"], binding,
            .opt (.seq [equals, .call .operand]), .ahead (words ["in", "of"])],
          .seq [.call .pattern, .ahead (words ["in", "of"])]],
        words ["in", "of"], .call .expressions]),
      sign ")", .call .statement])

def forStatement (d : Dialect) : Production :=
  .node .forStatement
    (.seq [word "for", sign "(",
      .inside .bracket (.seq [
        .alt [lexicalDeclaration d, variableDeclaration d, .seq [.call .expressions, sign ";"], sign ";"],
        .alt [.seq [.call .expressions, sign ";"], sign ";"],
        .opt (.call .expressions)]),
      sign ")", .call .statement])

def switchStatement : Production :=
  .node .switchStatement
    (.seq [word "switch", .call .parenthesized,
      .node .switchBody (.seq [sign "\x7b",
        .many (.alt [
          .node .switchCase
            (.seq [word "case", .inside .bracket (.call .expressions), sign ":", statements]),
          .node .switchDefault (.seq [word "default", sign ":", statements])]),
        sign "\x7d"])])

def tryStatement (d : Dialect) : Production :=
  .node .tryStatement
    (.seq [word "try", .call .block,
      .opt (.node .catchClause
        (.seq [word "catch",
          .opt (.seq [sign "(",
            .inside .bracket (.seq [.alt [destructuring d, identifier d []],
              .opt (onlyIf d.typed typeClause)]),
            sign ")"]),
          .call .block])),
      .opt (.node .finallyClause (.seq [word "finally", .call .block]))])

/-- A jump, perhaps to a label on the same line. -/
def jump (kind : Kind) (text : String) : Production :=
  .node kind (.seq [word text, .opt (.seq [.joined, .name .statementIdentifier []]), terminator])

def labeledStatement (d : Dialect) : Production :=
  .node .labeledStatement
    (.seq [.name .statementIdentifier (["default", "case"] ++ d.reserved), sign ":", .call .statement])

def statement (d : Dialect) : Production :=
  .fresh (.inside .statement (.alt [
    exportStatement d,
    importStatement d,
    .call .declaration,
    .call .block,
    ifStatement,
    forInStatement d,
    forStatement d,
    .node .whileStatement (.seq [word "while", .call .parenthesized, .call .statement]),
    .node .doStatement
      (.seq [word "do", .call .statement, word "while", .call .parenthesized, .opt terminator]),
    switchStatement,
    tryStatement d,
    .node .withStatement (.seq [word "with", .call .parenthesized, .call .statement]),
    jump .breakStatement "break",
    jump .continueStatement "continue",
    .node .debuggerStatement (.seq [word "debugger", terminator]),
    .node .returnStatement
      (.seq [word "return", .opt (.seq [.joined, .call .expressions]), terminator]),
    .node .throwStatement (.seq [word "throw", .call .expressions, terminator]),
    .node .emptyStatement (sign ";"),
    labeledStatement d,
    expressionStatement d]))

end ImportAssist.Grammar
