import ImportAssist.Syntax.Tree

/-!
# The imports of a document

`imports` lists the import statements, require declarations and bare require calls at the top
level of a tree, in document order. `requireCalls` finds every call of `require` with a literal
path, at any depth. `boundNames` says which identifiers the imports of a document bind.
-/

namespace ImportAssist

/-! ## Literals -/

/-- The text between the quotes of a string node; escapes stay as they are written. -/
def Node.stringValue? (node : Node) (source : Bytes) : Option String :=
  if node.hasKind .string then
    let chars := (node.text source).toList
    if chars.length < 2 then none else some (String.ofList ((chars.drop 1).dropLast))
  else none

/-- A trailing slash does not change which module a path names. -/
def trimSlash (path : String) : String :=
  let chars := path.toList
  if 1 < chars.length && chars.getLast? == some '/' then String.ofList chars.dropLast else path

/-- The literal of `require('...')`; none for any other node. -/
def Node.requireLiteral? (node : Node) (source : Bytes) : Option Node :=
  if node.hasKind .callExpression then
    match node.child? .function, node.child? .arguments with
    | some callee, some args =>
      if callee.hasKind .identifier && callee.text source == "require" && args.hasKind .arguments then
        match args.namedChildren with
        | [literal] => if (literal.stringValue? source).isSome then some literal else none
        | _ => none
      else none
    | _, _ => none
  else none

/-- The path of `require('...')`. -/
def Node.requirePath? (node : Node) (source : Bytes) : Option String :=
  (node.requireLiteral? source).bind fun literal => literal.stringValue? source

/-! ## Imports -/

/-- The forms of statement that import a module. -/
inductive ImportForm where
  /-- `import x from '...'` -/
  | declaration
  /-- `const x = require('...')` -/
  | requireDeclaration
  /-- `require('...')` -/
  | requireCall
  deriving DecidableEq, Repr

structure Import where
  form : ImportForm
  /-- The path without a trailing slash. -/
  path : String
  /-- The whole statement. -/
  statement : Node
  /-- The part that imports: the declarator of a require declaration, otherwise the statement. -/
  node : Node

namespace Import

def isDeclaration (i : Import) : Bool := i.form == .declaration

/-- The imports made by one top-level statement. -/
def ofStatement (source : Bytes) (statement : Node) : List Import :=
  if statement.hasKind .importStatement then
    match (statement.child? .source).bind fun s => s.stringValue? source with
    | some path => [⟨.declaration, trimSlash path, statement, statement⟩]
    | none => []
  else if statement.hasKind .lexicalDeclaration || statement.hasKind .variableDeclaration then
    (statement.childrenOfKind .variableDeclarator).filterMap fun declarator =>
      ((declarator.child? .value).bind fun v => v.requirePath? source).map fun path =>
        ⟨.requireDeclaration, trimSlash path, statement, declarator⟩
  else if statement.hasKind .expressionStatement then
    match statement.namedChildren with
    | [expression] =>
      match expression.requirePath? source with
      | some path => [⟨.requireCall, trimSlash path, statement, statement⟩]
      | none => []
    | _ => []
  else []

end Import

/-- The imports at the top level of a tree. -/
def imports (source : Bytes) (root : Node) : List Import :=
  root.children.flatMap (Import.ofStatement source)

/-- Every call of `require` with a literal path: the literal and the path. -/
def requireCalls (source : Bytes) (root : Node) : List (Node × String) :=
  root.walk.filterMap fun node =>
    (node.requireLiteral? source).bind fun literal =>
      (literal.stringValue? source).map fun path => (literal, path)

/-! ## What an import statement binds -/

/-- The parts of an import statement's clause that are there. -/
structure ImportClause where
  clause : Option Node
  /-- The name of the default import. -/
  default? : Option Node
  /-- `* as name` -/
  wildcard? : Option Node
  /-- The list in braces. -/
  list? : Option Node
  specifiers : List Node

namespace ImportClause

def ofStatement (statement : Node) : ImportClause :=
  match (statement.childrenOfKind .importClause).getLast? with
  | none => ⟨none, none, none, none, []⟩
  | some clause =>
    let list? := (clause.childrenOfKind .namedImports).getLast?
    { clause := some clause
      default? := (clause.childrenOfKind .identifier).getLast?
      wildcard? := (clause.childrenOfKind .namespaceImport).getLast?
      list? := list?
      specifiers := match list? with
        | some list => list.childrenOfKind .importSpecifier
        | none => [] }

/-- The name that stands for the whole module. -/
def wildcardName? (c : ImportClause) (source : Bytes) : Option String :=
  c.wildcard?.bind fun w => ((w.childrenOfKind .identifier).getLast?).map fun n => n.text source

/-- The name a specifier asks the module for. -/
def importedName (source : Bytes) (specifier : Node) : String :=
  match specifier.child? .name with
  | some n => n.text source
  | none => ""

/-- The name a specifier binds. -/
def specifierName (source : Bytes) (specifier : Node) : String :=
  match specifier.child? .newName with
  | some n => n.text source
  | none => importedName source specifier

/-- The names an import statement binds, in order. -/
def localNames (c : ImportClause) (source : Bytes) : List String :=
  (c.default?.map fun n => n.text source).toList
    ++ ((c.wildcardName? source).filter (· ≠ "")).toList
    ++ c.specifiers.map (specifierName source)

end ImportClause

/-- The names one import binds. -/
def Import.names (source : Bytes) (i : Import) : List String :=
  match i.form with
  | .declaration => (ImportClause.ofStatement i.node).localNames source
  | .requireDeclaration =>
    match i.node.child? .name with
    | some n => if n.hasKind .identifier then [n.text source] else []
    | none => []
  | .requireCall => []

/-- Each bound identifier with the position of the first import that binds it. -/
def boundNames (source : Bytes) (found : List Import) : List (String × Nat) :=
  found.zipIdx.foldl
    (fun bound (i, k) =>
      (i.names source).foldl
        (fun bound name => if bound.any (·.1 == name) then bound else bound ++ [(name, k)]) bound)
    []

/-- The first import that binds an identifier. -/
def binder? (source : Bytes) (found : List Import) (name : String) : Option Import :=
  found.find? fun i => (i.names source).contains name

end ImportAssist
