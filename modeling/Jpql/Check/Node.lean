import Jpql.Check.Basic

/-! # Checks of single nodes

What a check does at the kinds of nodes that have rules of their own: paths, operands, variables and
declarations. A path is checked after its root was visited. An operand that must be basic is checked
as a path if it is one, and visited otherwise. -/

namespace Jpql.Check

variable (visit : Visitor)

/-! ## Paths -/

/-- Records what a state-field path comes to; says whether it is in order. The root of a path that
spells out a constant was no use of a variable. -/
def settle (id root : NodeId) (segments : List (Located String)) :
    PathVerdict → Checker Bool
  | .valid => return true
  | .invalid key => do
    recordAt key id
    return false
  | .constant known enum => do
    unuse root
    if !known then
      recordAll (segments.getLast?.toList.map fun last =>
        ⟨.statePathInvalidConstant, [last.value, enum], last.span, some id⟩)
    return known

/-- **Checks a state-field path**; says whether it is in order. -/
def statePath (id : NodeId) (associationAllowed : Bool) : Checker Bool := do
  match ← kindOf id with
  | .path .stateField root segments endsWithDot =>
    visit root
    if endsWithDot || !(← inTree (·.isResolvedRoot root)) then return true
    settle id root segments (← ask (·.statePath id segments associationAllowed))
  | _ =>
    visit id
    return true

/-- **Checks a path that must denote a collection**, or at least an association. -/
def collectionPath (id : NodeId) (collectionOnly : Bool) : Checker Unit := do
  match ← inTree (·.pathBehind? id) with
  | none => visit id
  | some path =>
    match ← kindOf path with
    | .path _ root _ endsWithDot =>
      visit root
      if endsWithDot || !(← inTree (·.isResolvedRoot root)) then return
      match ← ask (·.collectionPath? path collectionOnly) with
      | some key => recordAt key path
      | none => return
    | _ => return

/-- **Checks the target of a `SET` item.** -/
def updateTarget (id : NodeId) : Checker Unit := do
  match ← inTree (·.pathBehind? id) with
  | none => visit id
  | some path =>
    match ← kindOf path with
    | .path .stateField root segments _ =>
      visit root
      match ← kindOf root with
      | .identifier name _ _ =>
        match ← ask (·.updateTarget? name segments) with
        | some key => recordAt key path
        | none => return
      | _ => return
    | _ => visit path

/-- Checks the argument of `INDEX`. -/
def index (argument : NodeId) : Checker Unit := do
  visit argument
  match ← kindOf argument with
  | .identifier name false _ =>
    if !(← ask (·.isCollectionVariable name)) then recordAt .indexWrongVariable argument
  | _ => return

/-! ## Operands -/

/-- Checks an operand that must be basic if it is a path; says whether it is in order. -/
def basicPath (id : NodeId) : Checker Bool := do
  match ← inTree (·.statePathBehind? id) with
  | some path => statePath visit path false
  | none => return true

/-- Checks both operands, then visits those that are in order. -/
def basicOperands (left right : NodeId) : Checker Unit := do
  let leftValid ← basicPath visit left
  let rightValid ← basicPath visit right
  if leftValid then visit left
  if rightValid then visit right

/-- **Checks an operand that must be basic.** -/
def basicOperand (id : NodeId) : Checker Unit := do
  match ← inTree (·.statePathBehind? id) with
  | some path => discard (statePath visit path false)
  | none => visit id

/-! ## Variables and declarations -/

/-- Checks a variable, written or virtual. A name of an entity may be compared with a type. -/
def variableUse (id : NodeId) (name : String) (isVirtual : Bool) (path : Option NodeId) :
    Checker Unit := do
  if isVirtual then visitOption visit path
  else if (← get).registers then
    let isEntity ← ask fun context => (context.metamodel.entity? name).isSome
    if !(isEntity && (← inTree (·.isCompared id))) then use id

/-- Checks what a range goes over. -/
def rangeRoot (root : NodeId) : Checker Unit := do
  if (← kindOf root).isPath then collectionPath visit root false else visit root

/-- Checks a join. Of `TREAT` the type is visited and the path checked. -/
def join (path : NodeId) (declared on : Option NodeId) : Checker Unit := do
  match ← kindOf path with
  | .treat inner _ entityType =>
    visit entityType
    collectionPath visit inner false
  | _ => collectionPath visit path false
  visitDeclared visit declared
  visitOption visit on

/-- Checks the order of the declarations of the innermost scope. -/
def declarationOrder (fromClause : NodeId) : Checker Unit := do
  let misplaced ← ask fun context => Declaration.misplaced context.tree context.declarations
  recordAll (misplaced.map fun root =>
    ⟨.variableWrongOrder, [root.value], root.span, some fromClause⟩)

end Jpql.Check
