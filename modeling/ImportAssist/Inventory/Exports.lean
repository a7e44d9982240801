import ImportAssist.Inventory.Imports

/-!
# The export statements of a module

What a single statement at the top level of a module exports, read off its tree. A name may cover
bytes that are not UTF-8; then reading it fails.
-/

namespace ImportAssist

/-- A name or path that is not UTF-8. -/
inductive DecodeError where
  | notUtf8
  deriving DecidableEq, Repr

/-- The text of a node, if it is UTF-8. -/
def Node.checkedText (node : Node) (source : Bytes) : Except DecodeError String :=
  match Utf8.decode? (node.bytes source) with
  | some text => .ok text
  | none => .error .notUtf8

/-- The value of a node that may be missing or no string. -/
def checkedString (source : Bytes) : Option Node → Except DecodeError (Option String)
  | none => .ok none
  | some node =>
    if node.hasKind .string then do
      let _ ← node.checkedText source
      pure (node.stringValue? source)
    else .ok none

namespace ExportStatement

/-- `export default ...` or `export = ...` -/
def isDefault (statement : Node) : Bool :=
  statement.hasKind .exportStatement && (statement.hasToken "default" || statement.hasToken "=")

/-- `export * from '...'` without a name for the module. -/
def isStar (statement : Node) : Bool :=
  statement.hasKind .exportStatement && statement.hasToken "*"

/-- The name in `export * as name from '...'`. -/
def wildcardName? (source : Bytes) (statement : Node) : Except DecodeError (Option String) :=
  match (statement.childrenOfKind .namespaceExport).findSome? fun w =>
      w.namedChildren.find? fun n => n.hasKind .identifier || n.hasKind .string with
  | none => .ok none
  | some name => do
    let text ← name.checkedText source
    match name.stringValue? source with
    | some value => pure (some (if value = "" then text else value))
    | none => pure (some text)

/-- A specifier's exported name and the name it has inside the module. -/
def specifier? (source : Bytes) (node : Node) : Except DecodeError (Option (String × String)) :=
  match node.child? .name with
  | none => .ok none
  | some inner => do
    let innerText ← inner.checkedText source
    match node.child? .newName with
    | none => pure (some (innerText, innerText))
    | some outer => do
      let outerText ← outer.checkedText source
      pure (some (outerText, innerText))

/-- The specifiers of `export { ... }` clauses. -/
def specifiers (source : Bytes) (statement : Node) : Except DecodeError (List (String × String)) := do
  let nodes := (statement.childrenOfKind .exportClause).flatMap (·.childrenOfKind .exportSpecifier)
  pure ((← nodes.mapM (specifier? source)).filterMap id)

/-- The names a declaration declares; a destructuring pattern is passed over. -/
def declaredNames (source : Bytes) (declaration : Node) : Except DecodeError (List String) :=
  let nameOf (node : Node) : List Node := (node.child? .name).toList
  let nodes :=
    match declaration.label with
    | .kind .functionDeclaration | .kind .generatorFunctionDeclaration | .kind .classDeclaration
    | .kind .abstractClassDeclaration | .kind .enumDeclaration | .kind .interfaceDeclaration
    | .kind .typeAliasDeclaration => nameOf declaration
    | .kind .lexicalDeclaration | .kind .variableDeclaration =>
      (declaration.childrenOfKind .variableDeclarator).flatMap fun d =>
        (nameOf d).filter fun n => n.hasKind .identifier
    | _ => []
  nodes.mapM fun n => n.checkedText source

end ExportStatement

/-! ## Assignments to `module.exports` and `exports` -/

namespace ExportAssignment

/-- `module.exports` -/
def isModuleExports (source : Bytes) (node : Node) : Bool :=
  node.hasKind .memberExpression &&
    match node.child? .object, node.child? .property with
    | some object, some property =>
      object.hasKind .identifier && object.text source == "module" && property.text source == "exports"
    | _, _ => false

/-- The assignment that is the only content of an expression statement. -/
def assignment? (statement : Node) : Option Node :=
  if statement.hasKind .expressionStatement then
    match statement.namedChildren with
    | [expression] => if expression.hasKind .assignmentExpression then some expression else none
    | _ => none
  else none

/-- The assignment of a statement `module.exports = ...`. -/
def ofModule? (source : Bytes) (statement : Node) : Option Node :=
  (assignment? statement).filter fun a =>
    match a.child? .left with
    | some left => isModuleExports source left
    | none => false

/-- The name of a statement `exports.name = ...` or `module.exports.name = ...`. -/
def memberName? (source : Bytes) (statement : Node) : Option String :=
  match (assignment? statement).bind (·.child? .left) with
  | none => none
  | some left =>
    if left.hasKind .memberExpression then
      match left.child? .object, left.child? .property with
      | some object, some property =>
        if (object.hasKind .identifier && object.text source == "exports")
            || isModuleExports source object then
          some (property.text source)
        else none
      | _, _ => none
    else none

/-- The name that one entry of an object literal defines. -/
def entryName? (source : Bytes) (entry : Node) : Except DecodeError (Option String) :=
  if entry.hasKind .shorthandPropertyIdentifier then (some ·) <$> entry.checkedText source
  else if entry.hasKind .pair then
    match entry.child? .key with
    | none => .ok none
    | some key =>
      if key.hasKind .string then checkedString source (some key)
      else if key.hasKind .propertyIdentifier || key.hasKind .identifier then
        (some ·) <$> key.checkedText source
      else .ok none
  else if entry.hasKind .methodDefinition then
    match entry.child? .name with
    | none => .ok none
    | some name => (some ·) <$> name.checkedText source
  else .ok none

/-- The names that an object literal defines. -/
def entryNames (source : Bytes) (object : Node) : Except DecodeError (List String) := do
  pure ((← object.namedChildren.mapM (entryName? source)).filterMap id)

end ExportAssignment

/-- Whether a module has a default export, at any depth. -/
def hasDefaultExport (source : Bytes) (root : Node) : Bool :=
  root.walk.any fun node =>
    ExportStatement.isDefault node || (ExportAssignment.ofModule? source node).isSome

end ImportAssist
