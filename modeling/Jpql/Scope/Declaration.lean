import Jpql.Scope.Declared
import Jpql.Text.Fold
import Jpql.Tree.Basic

/-! # Declarations and scopes

A scope is what one statement or subquery declares: the entries of its `FROM` clause, or the range
of an `UPDATE` or `DELETE`, and the names it gives to results. `Scope.ofStatement` reads it off the
tree. -/

namespace Jpql

/-- The form of an entry of a `FROM` clause. -/
inductive DeclarationKind where
  /-- `Employee e`. -/
  | range
  /-- `e.projects p`, in a subquery. -/
  | derived
  /-- `IN(e.projects) p`. -/
  | collection
  /-- An entry that could not be read. -/
  | unknown
deriving DecidableEq

/-- A join of a declaration. -/
structure JoinDeclaration where
  node : NodeId
  /-- The path that is joined, or a `TREAT` of one. -/
  path : NodeId
  name : Option String
  nameNode : Option NodeId

/-- An entry of a `FROM` clause, or the range of an `UPDATE` or `DELETE`. -/
structure Declaration where
  kind : DeclarationKind
  node : NodeId
  /-- The name of the entity, or the path of a derived or collection declaration. -/
  base : NodeId
  /-- The entity, if the declaration is a range. -/
  entity : Option String
  name : Option String
  nameNode : Option NodeId
  joins : List JoinDeclaration

/-- An optional variable is the one named, ignoring case. -/
def isNamed (bound? : Option String) (name : String) : Bool :=
  bound?.any (Text.sameWord · name)

/-- The join declares the variable. -/
def JoinDeclaration.declares (join : JoinDeclaration) (name : String) : Bool :=
  isNamed join.name name

namespace Declaration

/-- The declaration is over an entity. -/
def isRange (declaration : Declaration) : Bool := declaration.kind == .range

/-- The declaration could be read. -/
def isKnown (declaration : Declaration) : Bool := declaration.kind != .unknown

/-- The declaration itself, its joins aside, declares the variable. -/
def declaresVariable (declaration : Declaration) (name : String) : Bool :=
  isNamed declaration.name name

/-- **The declaration or one of its joins declares the variable.** -/
def declares (declaration : Declaration) (name : String) : Bool :=
  declaration.declaresVariable name || declaration.joins.any (·.declares name)

/-- A declaration that could not be read. -/
def unknownAt (node : NodeId) : Declaration := ⟨.unknown, node, node, none, none, none, []⟩

end Declaration

namespace Tree

/-- The name of a variable node. -/
def variableName? (tree : Tree) (node : Option NodeId) : Option String := do
  match tree.kind (← node) with
  | .identifier name _ _ => some name
  | _ => none

/-- The declaration that a range makes at a node, without joins. -/
def rangeDeclaration (tree : Tree) (range node : NodeId) : Declaration :=
  match tree.kind range with
  | .rangeDeclaration root _ declared =>
    let (kind, entity) : DeclarationKind × Option String :=
      match tree.kind root with
      | .schemaName name => (.range, some name)
      | .path .. => (.derived, none)
      | _ => (.unknown, none)
    ⟨kind, node, root, entity, tree.variableName? declared, declared, []⟩
  | _ => .unknownAt node

/-- The join at a node. -/
def joinDeclaration? (tree : Tree) (node : NodeId) : Option JoinDeclaration :=
  match tree.kind node with
  | .join _ _ path _ declared _ => some ⟨node, path, tree.variableName? declared, declared⟩
  | _ => none

/-- **The declaration that an entry of a `FROM` clause makes.** -/
def declaration (tree : Tree) (node : NodeId) : Declaration :=
  match tree.kind node with
  | .variableDeclaration range joins =>
    { tree.rangeDeclaration range node with joins := joins.filterMap tree.joinDeclaration? }
  | .collectionDeclaration path _ declared =>
    ⟨.collection, node, path, none, tree.variableName? declared, declared, []⟩
  | _ => .unknownAt node

/-- The declarations of an optional `FROM` clause. -/
def fromDeclarations (tree : Tree) (fromClause : Option NodeId) : List Declaration :=
  match fromClause.map tree.kind with
  | some (.fromClause items) | some (.simpleFromClause items) => items.map tree.declaration
  | _ => []

/-- The name an item of a `SELECT` clause gives to its result. -/
def resultName? (tree : Tree) (item : NodeId) : Option (String × NodeId) := do
  match tree.kind item with
  | .resultVariable _ _ declared => return (← tree.variableName? (some declared), declared)
  | _ => none

/-- The names a `SELECT` clause gives to results. -/
def resultNames (tree : Tree) (select : NodeId) : List (String × NodeId) :=
  match tree.kind select with
  | .selectClause _ items => items.filterMap tree.resultName?
  | _ => []

/-- The range of an `UPDATE` or `DELETE` clause. -/
def clauseDeclarations (tree : Tree) (clause : NodeId) : List Declaration :=
  match tree.kind clause with
  | .updateClause range _ | .deleteClause range => [tree.rangeDeclaration range range]
  | _ => []

end Tree

/-- What one statement or subquery declares. -/
structure Scope where
  declarations : List Declaration
  results : List (String × NodeId)

namespace Scope

/-- **The scope of a statement or subquery.** -/
def ofStatement (tree : Tree) (statement : NodeId) : Scope :=
  match tree.kind statement with
  | .selectStatement select fromClause _ _ _ _ | .simpleSelectStatement select fromClause _ _ _ =>
    ⟨tree.fromDeclarations fromClause, tree.resultNames select⟩
  | .updateStatement clause _ | .deleteStatement clause _ => ⟨tree.clauseDeclarations clause, []⟩
  | _ => ⟨[], []⟩

/-- A name with its node, if both are there. -/
def namedNode? (name : Option String) (node : Option NodeId) : Option (String × NodeId) := do
  return (← name, ← node)

/-- The names a declaration introduces, with their nodes. -/
def declarationNames (declaration : Declaration) : List (String × NodeId) :=
  (namedNode? declaration.name declaration.nameNode).toList ++
    declaration.joins.filterMap fun join => namedNode? join.name join.nameNode

/-- **Every name the scope introduces**, with its node. -/
def names (scope : Scope) : List (String × NodeId) :=
  scope.declarations.flatMap declarationNames ++ scope.results

/-- Adds the names of the scope to a table. -/
def addTo (scope : Scope) (table : DeclaredVariables) : DeclaredVariables :=
  scope.names.foldl (fun table (name, node) => table.insert name node) table

end Scope

end Jpql
