import Jpql.Check.Node

/-! # Checking a tree

A check visits the nodes of a tree from the root down, with a rule for each kind.

* `visitKind`: what is done at a node, given the visitor for the nodes below.
* `visitTo`: the visitor for a number of levels. It recurses on that number. A node that lies too
  deep is left out; the first such node is reported.
* `chainOperands`: chains of `AND` and `OR` nest to the left and can be long, so their operands are
  visited one level below the chain, in the order of the text.
* `checkTree`: the problems of a tree. -/

namespace Jpql

namespace Tree

/-- The operands of a chain of connectives, down to a depth, in front of `rest`. -/
def chainFrom (tree : Tree) : (depth : Nat) → NodeId → List NodeId → List NodeId
  | 0, id, rest => id :: rest
  | depth + 1, id, rest =>
    match tree.kind id with
    | .logical _ left right => chainFrom tree depth left (right :: rest)
    | _ => id :: rest

/-- **The operands of a chain of connectives** in the order of the text. Left sides have smaller ids
than the chain. -/
def chainOperands (tree : Tree) (id : NodeId) : List NodeId := tree.chainFrom (id + 1) id []

end Tree

namespace Check

/-- **What a check does at a node.** -/
def visitKind (visit : Visitor) (id : NodeId) : Checker Unit := do
  match ← kindOf id with
  | .query (some statement) _ =>
    visit statement
    if (← kindOf statement).isStatement then checkVariables (← get).used
  | .query none _ => return
  | .simpleSelectStatement .. =>
    if ← inTree fun tree => tree.parent? id == some tree.root then visitChildren visit id
    else checkSubquery visit id
  | .fromClause _ | .simpleFromClause _ =>
    declarationOrder id
    visitChildren visit id
  | .rangeDeclaration root _ declared =>
    rangeRoot visit root
    visitDeclared visit declared
  | .collectionDeclaration path _ declared =>
    collectionPath visit path true
    visitDeclared visit declared
  | .join _ _ path _ declared on => join visit path declared on
  | .schemaName name =>
    match ← ask (·.schemaName? name) with
    | some key => recordAt key id
    | none => return
  | .identifier name isVirtual path => variableUse visit id name isVirtual path
  | .resultVariable expression _ declared =>
    visit expression
    visitDeclared visit (some declared)
  | .entityType name =>
    if ← ask fun context => (context.metamodel.entity? name).isNone then
      recordAt .entityTypeNotResolvable id
  | .updateItem target value =>
    updateTarget visit target
    if (← read).updateValues then visit value
  | .comparison left operator right =>
    if operator.isOrdering then basicOperands visit left right else visitAll visit [left, right]
  | .arithmetic _ left right => basicOperands visit left right
  | .sign _ expression | .basicFunction _ expression | .orderByItem expression _ _ =>
    basicOperand visit expression
  | .aggregate .count _ expression => visit expression
  | .aggregate _ _ expression => basicOperand visit expression
  | .concat arguments => arguments.forM (basicOperand visit)
  | .trim _ character _ string =>
    visitOption visit character
    basicOperand visit string
  | .like expression _ pattern escape =>
    basicOperand visit expression
    visit pattern
    visitOption visit escape
  | .mod first second =>
    basicOperand visit first
    visit second
  | .locate first second third | .substring first second third =>
    basicOperand visit first
    visit second
    visitOption visit third
  | .size expression | .emptyCheck expression _ => collectionPath visit expression true
  | .member entity _ _ collection =>
    visit entity
    collectionPath visit collection true
  | .index argument => index visit argument
  | .logical .. => visitAll visit (← inTree (·.chainOperands id))
  | .path .stateField .. => discard (statePath visit id true)
  | .path .collectionValued root _ _ => visit root
  | .number _ | .string _ | .wordLiteral _ | .moment _ | .parameter .. | .unknown _ | .bad => return
  | _ => visitChildren visit id

/-- Leaves a node out that lies too deep. The first one is reported. -/
def leaveOut (id : NodeId) : Checker Unit := do
  if !(← get).exceeded then
    let span ← inTree (·.span id)
    let maxDepth := (← read).maxDepth
    modify ({ · with exceeded := true })
    recordAll [⟨.traversalTooDeep, [toString maxDepth], span, some id⟩]

/-- **The visitor for a number of levels.** -/
def visitTo : (levels : Nat) → Visitor
  | 0, id => leaveOut id
  | levels + 1, id => visitKind (visitTo levels) id

/-- The state at the start of a check. -/
def State.initial (context : QueryContext) : State := ⟨context, [], [], true, false⟩

end Check

/-- **The problems of a tree under a context.** -/
def checkTree (context : QueryContext) (env : Check.Env) : List Problem :=
  ((Check.visitTo env.maxDepth context.tree.root).run env (.initial context)).2.problems

end Jpql
