import Std.Data.TreeSet.Basic
import ImportAssist.Text.Utf8

/-!
# Syntax trees

A tree node has a label, the role it plays in its parent, the byte range it covers, and its
children in source order. Punctuation and keywords are children too, labelled by their text;
everything else, comments included, is a *named* child.

* `Node.preorder` lists a tree by recursion, a node before its children.
* `Node.walk` lists it with a worklist instead (`Worklist.step`): it takes the next node, passes over
  it if it was seen before, and otherwise pushes its children from right to left.
* `Node.find?` is the first node in that order that satisfies a test.
-/

namespace ImportAssist

/-- What a named node stands for. -/
inductive Kind where
  | program | hashBang | comment | markupComment
  -- modules
  | importStatement | importClause | namespaceImport | namedImports | importSpecifier
  | importRequireClause | importAttribute | importAlias
  | exportStatement | exportClause | exportSpecifier | namespaceExport
  -- statements
  | expressionStatement | statementBlock | ifStatement | elseClause | switchStatement | switchBody
  | switchCase | switchDefault | forStatement | forInStatement | whileStatement | doStatement
  | tryStatement | catchClause | finallyClause | withStatement | breakStatement
  | continueStatement | debuggerStatement | returnStatement | throwStatement | emptyStatement
  | labeledStatement | statementIdentifier
  -- declarations
  | lexicalDeclaration | variableDeclaration | usingDeclaration | variableDeclarator
  | functionDeclaration | generatorFunctionDeclaration | functionSignature
  | classDeclaration | abstractClassDeclaration | classHeritage | classBody | classStaticBlock
  | fieldDefinition | methodDefinition | methodSignature | decorator
  | enumDeclaration | enumBody | enumAssignment | interfaceDeclaration | typeAliasDeclaration
  | moduleDeclaration | namespaceDeclaration | ambientDeclaration
  -- patterns and parameters
  | objectPattern | arrayPattern | pairPattern | restPattern | assignmentPattern
  | shorthandPropertyPattern | formalParameters | parameter
  -- expressions
  | identifier | undefined | propertyIdentifier | privatePropertyIdentifier
  | shorthandPropertyIdentifier | this | super | true | false | null | importKeyword
  | number | string | regex | templateString | templateSubstitution | stringFragment
  | parenthesizedExpression | object | pair | computedPropertyName | array | spreadElement
  | functionExpression | classExpression | arrowFunction | metaProperty
  | callExpression | arguments | newExpression | memberExpression | subscriptExpression
  | optionalChain | nonNullExpression | instantiationExpression | assignmentExpression
  | augmentedAssignmentExpression | updateExpression | unaryExpression | awaitExpression
  | yieldExpression | binaryExpression | ternaryExpression | sequenceExpression
  | asExpression | satisfiesExpression | typeAssertion
  -- markup
  | markupElement | markupOpening | markupClosing | markupAttribute | markupExpression | markupText
  -- types
  | typeIdentifier | typeClause | typeArguments | typeParameters | typeParameter
  | typePredicate | assertsClause | functionType | constructorType | conditionalType
  | unionType | arrayType | lookupType | parenthesizedType | objectType | tupleType
  | literalType | templateLiteralType | typeQuery | typeOperator | genericType
  | indexSignature | propertySignature | callSignature | constructSignature
  deriving DecidableEq, Repr

/-- The kinds a reader may ask for by name. -/
def Kind.ofName? : String → Option Kind
  | "import_statement" => some .importStatement
  | "export_statement" => some .exportStatement
  | "string" => some .string
  | "identifier" => some .identifier
  | "call_expression" => some .callExpression
  | "comment" => some .comment
  | _ => none

/-- A label: a kind for a named node, its text for a keyword or a punctuation mark. -/
inductive Label where
  | kind (kind : Kind)
  | token (text : String)
  deriving DecidableEq, Repr

/-- The part a node plays in its parent. -/
inductive Role where
  | source | name | newName | declaration | value | function | arguments | object | property
  | left | right | key
  deriving DecidableEq, Repr

inductive Node where
  | mk (label : Label) (role : Option Role) (start stop : Nat) (children : List Node)
  deriving Repr

namespace Node

def label : Node → Label
  | mk l _ _ _ _ => l

def role : Node → Option Role
  | mk _ r _ _ _ => r

/-- Offset of the first byte. -/
def start : Node → Nat
  | mk _ _ s _ _ => s

/-- Offset past the last byte. -/
def stop : Node → Nat
  | mk _ _ _ e _ => e

def children : Node → List Node
  | mk _ _ _ _ cs => cs

def withRole (role : Role) : Node → Node
  | mk l _ s e cs => mk l (some role) s e cs

/-- A node without children. -/
def leaf (kind : Kind) (start stop : Nat) : Node := mk (.kind kind) none start stop []

def token (text : String) (start stop : Nat) : Node := mk (.token text) none start stop []

def hasKind (node : Node) (kind : Kind) : Bool := node.label == .kind kind

def isNamed (node : Node) : Bool :=
  match node.label with
  | .kind _ => true
  | .token _ => false

def namedChildren (node : Node) : List Node := node.children.filter isNamed

/-- The first child with a role. -/
def child? (node : Node) (role : Role) : Option Node :=
  node.children.find? fun c => c.role == some role

/-- The named children of one kind. -/
def childrenOfKind (node : Node) (kind : Kind) : List Node :=
  node.children.filter fun c => c.hasKind kind

/-- Whether a keyword or mark with this text stands directly below the node. -/
def hasToken (node : Node) (text : String) : Bool :=
  node.children.any fun c => c.label == .token text

/-- The bytes a node covers. -/
def bytes (node : Node) (source : Bytes) : Bytes :=
  (source.drop node.start).take (node.stop - node.start)

/-- The text a node covers. -/
def text (node : Node) (source : Bytes) : String :=
  Utf8.decodeLossy (node.bytes source)

/-! ## Traversal -/

mutual

/-- Number of nodes. -/
def size : Node → Nat
  | mk _ _ _ _ cs => 1 + sizeList cs

def sizeList : List Node → Nat
  | [] => 0
  | n :: ns => n.size + sizeList ns

end

mutual

/-- A node, then its children's trees from left to right. -/
def preorder : Node → List Node
  | n@(mk _ _ _ _ cs) => n :: preorderList cs

def preorderList : List Node → List Node
  | [] => []
  | n :: ns => n.preorder ++ preorderList ns

end

end Node

/-- A node where it stands in a tree. -/
structure Occurrence where
  /-- The numbers of the children on the way to it from the root, the last one first. -/
  path : List Nat
  node : Node
  deriving Repr

namespace Occurrence

def children (o : Occurrence) : List Occurrence :=
  o.node.children.zipIdx.map fun (child, k) => ⟨k :: o.path, child⟩

end Occurrence

/-- A walk through a tree, under way. -/
structure Worklist (ι : Type) [Ord ι] where
  /-- The nodes to come, the next one first. -/
  pending : List Occurrence
  /-- The identities of the nodes that were visited. -/
  seen : Std.TreeSet ι
  /-- The nodes that were visited, the last one first. -/
  visited : List Occurrence

namespace Worklist

variable {ι : Type} [Ord ι]

def start (root : Node) : Worklist ι := ⟨[⟨[], root⟩], ∅, []⟩

/-- Puts nodes on a worklist, one by one: the last of them is the next to come. -/
def push (ns pending : List Occurrence) : List Occurrence :=
  ns.foldl (fun pending n => n :: pending) pending

variable (identity : Occurrence → ι)

/-- Takes the next node, if there is any. One whose identity was seen before is passed over; another one
is visited, and its children are pushed, the last one first. -/
def step (w : Worklist ι) : Option (Worklist ι) :=
  match w.pending with
  | [] => none
  | n :: rest =>
    if identity n ∈ w.seen then some { w with pending := rest }
    else some ⟨push n.children.reverse rest, w.seen.insert (identity n), n :: w.visited⟩

/-- Takes steps until no node is pending, and at most `limit` of them. -/
def run : Nat → Worklist ι → Worklist ι
  | 0, w => w
  | limit + 1, w =>
    match w.step identity with
    | none => w
    | some next => run limit next

end Worklist

namespace Node

/-- Every node of a tree, by worklist. What tells the nodes apart is where they stand. -/
def walk (root : Node) : List Node :=
  ((Worklist.start root).run Occurrence.path root.size).visited.reverse.map (·.node)

/-- The first node of the walk that passes a test. -/
def find? (root : Node) (test : Node → Bool) : Option Node := root.walk.find? test

end Node

end ImportAssist
