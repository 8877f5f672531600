import Jpql.Metamodel
import Jpql.Scope.Declaration

/-! # Query contexts

A context answers what the names and paths of a query mean, at one place of it: it knows the tree,
the metamodel, the scope of the statement and those of the subqueries around the place, innermost
first.

* `binding?` finds what a variable is bound to: the innermost scope that declares it decides.
* `variableType?` and `expressionType?` follow bindings to a managed type; `mapping?` follows a path
  to its last field. Declarations may refer to each other (`JOIN a.b a`), so the number of steps is
  limited: `resolutionLimit`.
* `pathType?` is the type that a path denotes where it has no mapping, `com.acme.Level.SENIOR` for
  one. -/

namespace Jpql

/-- What a variable is bound to. -/
inductive Binding where
  | entity (name : String)
  /-- A path; `member` says that the variable ranges over the members of a collection declared by
  `IN`. -/
  | path (path : NodeId) (member : Bool)

/-- What a declaration that declares `name` binds it to. -/
def Declaration.binding? (declaration : Declaration) (name : String) : Option Binding :=
  if declaration.declaresVariable name then
    match declaration.kind with
    | .range => declaration.entity.map .entity
    | .derived => some (.path declaration.base false)
    | .collection => some (.path declaration.base true)
    | .unknown => none
  else (declaration.joins.find? (·.declares name)).map fun join => .path join.path false

/-- A place in a query: its tree and metamodel, and the scopes around the place. -/
structure QueryContext where
  tree : Tree
  metamodel : Metamodel
  /-- The scope of the statement, which is never left. -/
  outermost : Scope
  /-- The scopes of the subqueries around the place, innermost first. -/
  subqueries : List Scope

namespace QueryContext

/-- How many steps the resolution of a name may take. -/
def resolutionLimit : Nat := 33

/-- The statement of a tree: what its root holds, or the root itself. -/
def statementOf (tree : Tree) : NodeId :=
  match tree.kind tree.root with
  | .query (some statement) _ => statement
  | _ => tree.root

/-- **The context of a whole query.** -/
def ofTree (tree : Tree) (metamodel : Metamodel) : QueryContext :=
  ⟨tree, metamodel, .ofStatement tree (statementOf tree), []⟩

variable (context : QueryContext)

/-! ## Scopes -/

/-- The scopes around the place, innermost first. -/
def scopes : List Scope := context.subqueries ++ [context.outermost]

/-- The innermost scope. -/
def innermost : Scope := context.subqueries.headD context.outermost

/-- How many scopes there are. -/
def depth : Nat := context.subqueries.length + 1

/-- The place lies in a subquery. -/
def isSubquery : Bool := !context.subqueries.isEmpty

/-- Enters a subquery. -/
def enter (subquery : NodeId) : QueryContext :=
  { context with subqueries := .ofStatement context.tree subquery :: context.subqueries }

/-- Leaves the innermost subquery, if there is one. -/
def leave : QueryContext := { context with subqueries := context.subqueries.tail }

/-- The declarations of the innermost scope. -/
def declarations : List Declaration := context.innermost.declarations

/-- The variables of the innermost scope. -/
def localVariables : DeclaredVariables := context.innermost.addTo .empty

/-- The variables of all scopes, those of the statement first. -/
def allVariables : DeclaredVariables := context.scopes.foldr Scope.addTo .empty

/-- The virtual variable that a declaration introduces. -/
def virtualName? (tree : Tree) (declaration : Declaration) : Option String := do
  match tree.kind (← declaration.nameNode) with
  | .identifier name true _ => some name
  | _ => none

/-- **The virtual variable of the statement**, if it is an `UPDATE` or `DELETE` without alias. -/
def virtualVariable? : Option String :=
  context.outermost.declarations.findSome? (virtualName? context.tree)

/-! ## Resolution -/

/-- **What a variable is bound to.** -/
def binding? (name : String) : Option Binding := do
  (← (context.scopes.flatMap (·.declarations)).find? (·.declares name)).binding? name

/-- The managed type that a field of a managed type leads to. -/
def fieldType? (owner : ManagedType) (field : String) : Option ManagedType := do
  context.metamodel.managed? (← owner.mapping? field).typeName

/-- The managed type behind a sequence of fields. -/
def ownerOf? (owner : ManagedType) (segments : List (Located String)) : Option ManagedType :=
  segments.foldlM (fun owner segment => context.fieldType? owner segment.value) owner

/-- The last field of a path, given what the types of roots are. -/
def pathMapping? (rootType? : NodeId → Option ManagedType) (root : NodeId)
    (segments : List (Located String)) : Option Mapping := do
  let last ← segments.getLast?
  (← context.ownerOf? (← rootType? root) segments.dropLast).mapping? last.value

mutual

/-- The managed type of a variable, in a number of steps. -/
def variableTypeIn? : (steps : Nat) → (name : String) → Option ManagedType
  | 0, _ => none
  | steps + 1, name =>
    match context.binding? name with
    | none => none
    | some (.entity entity) =>
      match context.metamodel.entity? entity with
      | some type => some type
      | none => do
        let owner ← variableTypeIn? steps (← context.virtualVariable?)
        context.fieldType? owner entity
    | some (.path path _) => expressionTypeIn? steps path

/-- The managed type of a variable, a path, `TREAT` or `VALUE`, in a number of steps. A path takes
two. -/
def expressionTypeIn? : (steps : Nat) → NodeId → Option ManagedType
  | 0, _ => none
  | steps + 1, id =>
    match context.tree.kind id with
    | .identifier _ _ (some path) => expressionTypeIn? steps path
    | .identifier name _ none => variableTypeIn? steps name
    | .path _ root segments _ =>
      match steps with
      | 0 => none
      | steps + 1 => do
        let mapping ← context.pathMapping? (expressionTypeIn? steps) root segments
        context.metamodel.managed? mapping.typeName
    | .treat _ _ entityType =>
      match context.tree.kind entityType with
      | .entityType name => context.metamodel.entity? name
      | _ => none
    | .value expression => expressionTypeIn? steps expression
    | _ => none

end

/-- The last field that an expression leads to, in a number of steps. -/
def mappingIn? : (steps : Nat) → NodeId → Option Mapping
  | 0, _ => none
  | steps + 1, id =>
    match context.tree.kind id with
    | .path _ root segments _ =>
      context.pathMapping? (context.expressionTypeIn? (steps - 1)) root segments
    | .identifier _ _ (some path) => mappingIn? steps path
    | .identifier name _ none =>
      match context.binding? name with
      | some (.path path _) => mappingIn? steps path
      | _ => none
    | .treat path _ _ => mappingIn? steps path
    | .value expression => mappingIn? steps expression
    | _ => none

/-- **The managed type a variable ranges over.** -/
def variableType? (name : String) : Option ManagedType :=
  context.variableTypeIn? resolutionLimit name

/-- The managed type an expression denotes. -/
def expressionType? (id : NodeId) : Option ManagedType :=
  context.expressionTypeIn? resolutionLimit id

/-- **The field that a path, or a variable bound to one, leads to.** -/
def mapping? (id : NodeId) : Option Mapping := context.mappingIn? resolutionLimit id

/-- A field of the type of a variable. -/
def fieldOf? (name field : String) : Option Mapping := do
  (← context.variableType? name).mapping? field

/-- The type of a field. -/
def mappingType? (mapping : Mapping) : Option TypeInfo := context.metamodel.type? mapping.typeName

/-- The entity or embeddable that a field refers to. -/
def mappingManaged? (mapping : Mapping) : Option ManagedType :=
  context.metamodel.managed? mapping.typeName

/-- The type that the words of a path before the last one spell out. -/
def qualifiedType? (root : NodeId) (segments : List (Located String)) : Option TypeInfo :=
  match context.tree.kind root with
  | .identifier name false _ =>
    context.metamodel.type? (".".intercalate (name :: segments.dropLast.map (·.value)))
  | _ => none

/-- **The type a path denotes.** With a mapping it is the type of the field. Without one, a path
whose words before the last spell out a type denotes that type, and any other path the type that
would own its last field. -/
def pathType? (id : NodeId) : Option TypeInfo :=
  match context.mapping? id with
  | some mapping => context.mappingType? mapping
  | none =>
    match context.tree.kind id with
    | .path _ root segments _ =>
      if segments.isEmpty then none
      else
        (context.qualifiedType? root segments).or do
          let owner ← context.ownerOf? (← context.expressionType? root) segments.dropLast
          context.metamodel.type? owner.typeName
    | _ => none

/-- **A variable is bound to the elements of a collection.** -/
def isCollectionVariable (name : String) : Bool :=
  match context.binding? name with
  | some (.path _ true) => true
  | some (.path path false) => (context.mapping? path).any (·.kind.isCollection)
  | _ => false

end QueryContext

end Jpql
