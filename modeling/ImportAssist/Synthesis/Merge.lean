import ImportAssist.Inventory.Imports
import ImportAssist.Synthesis.Outcome

/-!
# Joining an import

`merge` adds a binding to an import statement of the same path with a single edit, unless the
statement imports it already.
-/

namespace ImportAssist

/-- Where the path of an import statement stands. -/
def pathStart (statement : Node) : Nat :=
  match statement.child? .source with
  | some literal => literal.start
  | none => statement.stop

/-- Adds a name for the whole module; it takes the place of a list in braces. -/
def mergeWildcard (clause : ImportClause) (statement : Node) (binding : Binding) : Edit :=
  match clause.list?, clause.default? with
  | some list, _ => ⟨list.start, list.stop, binding.render⟩
  | none, some name => .insert name.stop (", " ++ binding.render)
  | none, none => .insert (pathStart statement) (binding.render ++ " from ")

/-- Adds a name to the list in braces, behind those that are there. -/
def mergeNamed (clause : ImportClause) (statement : Node) (binding : Binding) : Edit :=
  match clause.specifiers.getLast?, clause.list?, clause.default? with
  | some last, _, _ => .insert last.stop (", " ++ binding.identifier)
  | none, some list, _ => ⟨list.start, list.stop, binding.render⟩
  | none, none, some name => .insert name.stop (", " ++ binding.render)
  | none, none, none => .insert (pathStart statement) (binding.render ++ " from ")

/-- Adds a default name in front of all others. -/
def mergeDefault (clause : ImportClause) (statement : Node) (binding : Binding) : Edit :=
  match clause.clause with
  | some node => .insert node.start (binding.identifier ++ ", ")
  | none => .insert (pathStart statement) (binding.identifier ++ " from ")

/-- Adds a binding to an import statement for `path`. -/
def merge (source : Bytes) (statement : Node) (binding : Binding) (path : String) : Outcome :=
  let clause := ImportClause.ofStatement statement
  let whole? := (clause.wildcardName? source).filter (· ≠ "")
  let there (duplicate : Duplicate) (node : Node) : Outcome :=
    .alreadyImported duplicate (Point.ofOffset source node.start)
  match binding with
  | .wildcard _ =>
    match whole?, clause.wildcard? with
    | some name, some node => there (.whole path name) node
    | _, _ => .merged (mergeWildcard clause statement binding)
  | .named x =>
    match whole?, clause.wildcard? with
    | some name, some node => there (.whole path name) node
    | _, _ =>
      match clause.specifiers.find? fun s => ImportClause.importedName source s == x with
      | some specifier => there (.module x) specifier
      | none => .merged (mergeNamed clause statement binding)
  | .default x =>
    match clause.default? with
    | some node => there (.module x) node
    | none => .merged (mergeDefault clause statement binding)

end ImportAssist
