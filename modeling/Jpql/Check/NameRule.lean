import Jpql.Check.PathRule

/-! # Rules on names

What is wrong with the names of a query, as functions of the context of a place.

* `schemaName?`: the name of an entity in a `FROM` clause.
* `misplaced`: variables that a `FROM` clause uses to the left of their declaration.
* `duplicates` and `undeclared`: variables of a statement or subquery that are declared more than
  once, or not at all. -/

namespace Jpql

namespace Tree

/-- The variable that a path starts from, with its place, down to a depth. `TREAT`, `KEY`, `VALUE`
and `ENTRY` are looked through. -/
def rootVariableTo? (tree : Tree) : (depth : Nat) → NodeId → Option (Located String)
  | 0, _ => none
  | depth + 1, id =>
    match tree.kind id with
    | .identifier name false _ => some ⟨name, tree.span id⟩
    | .path _ root _ _ => rootVariableTo? tree depth root
    | .treat path _ _ => rootVariableTo? tree depth path
    | .key expression | .value expression | .entry expression =>
      rootVariableTo? tree depth expression
    | _ => none

/-- **The variable that a path starts from**, with its place. -/
def rootVariable? (tree : Tree) (id : NodeId) : Option (Located String) :=
  tree.rootVariableTo? (id + 1) id

/-- The name of a variable node, or the text of any other node. -/
def variableText (tree : Tree) (id : NodeId) : String :=
  match tree.kind id with
  | .identifier name _ _ => name
  | _ => tree.parsedText id

/-- The node is an operand of a comparison, parentheses around it aside. -/
def isCompared (tree : Tree) (id : NodeId) : Bool :=
  let surrounding := (tree.ancestors id).map tree.kind
  let isGroup (kind : NodeKind) : Bool :=
    match kind with
    | .group _ => true
    | _ => false
  match surrounding.dropWhile isGroup with
  | .comparison .. :: _ => true
  | _ => false

end Tree

namespace Declaration

/-- A declaration that follows declares the variable. One that could not be read ends the search. -/
def isDeclaredIn (name : String) (later : List Declaration) : Bool :=
  (later.takeWhile isKnown).any (·.declares name)

/-- The variables that joins use to the left of their declaration. -/
def misplacedJoins (tree : Tree) (later : List Declaration) :
    List JoinDeclaration → List (Located String)
  | [] => []
  | join :: joins =>
    ((tree.rootVariable? join.path).filter fun root =>
      joins.any (·.declares root.value) || isDeclaredIn root.value later).toList ++
      misplacedJoins tree later joins

/-- **The variables that declarations use to the left of their declaration**, with their places. Of
a range the joins count, of other declarations the path they are over. -/
def misplaced (tree : Tree) : List Declaration → List (Located String)
  | [] => []
  | declaration :: later =>
    (if declaration.isRange then misplacedJoins tree later declaration.joins
    else
      ((tree.rootVariable? declaration.base).filter fun root =>
        declaration.joins.any (·.declares root.value) || isDeclaredIn root.value later).toList) ++
      misplaced tree later

end Declaration

namespace QueryContext

variable (context : QueryContext)

/-- **What is wrong with the name of an entity.** In a subquery of an `UPDATE` or `DELETE` without
alias the name may also be a relationship of the entity of the statement. -/
def schemaName? (name : String) : Option ProblemKey :=
  if (context.metamodel.entity? name).isSome then none
  else
    match if context.isSubquery then context.virtualVariable? else none with
    | none => some .schemaNameInvalid
    | some owner =>
      match context.fieldOf? owner name with
      | none => some .statePathNotResolvable
      | some mapping => if mapping.kind.isRelationship then none else some .notRelationship

/-- A problem with a variable, at the node of the variable. -/
def variableProblem (key : ProblemKey) (node : NodeId) : Problem :=
  ⟨key, [context.tree.variableText node], context.tree.span node, some node⟩

/-- **The variables that the innermost scope declares more than once**, each at each declaration. -/
def duplicates : List Problem :=
  (context.localVariables.duplicates.flatMap (·.2)).map
    (context.variableProblem .variableDuplicate)

/-- **The variables in use that no scope declares.** -/
def undeclared (used : List NodeId) : List Problem :=
  let declared := context.allVariables
  (used.filter fun node => !declared.contains (context.tree.variableText node)).map
    (context.variableProblem .variableNotDeclared)

end QueryContext

end Jpql
