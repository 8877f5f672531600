import Jpql.Check.NameRule

/-! # The state of a check

`Checker` is the monad in which a tree is checked. Its state holds the context of the place under
check, the problems found so far, and the variables in use that still have to be looked up.

`Visitor` is the type of what visits a node. Every function of a check takes the visitor for the
nodes below as an argument, so that recursion happens in one place only, `Check.visitTo`. -/

namespace Jpql

namespace Check

/-- The switches of a check. -/
structure Env where
  /-- Whether the new values of `SET` items are checked. -/
  updateValues : Bool
  /-- How many nodes may lie above one another. -/
  maxDepth : Nat

/-- What changes during a check. -/
structure State where
  context : QueryContext
  problems : List Problem
  /-- The uses of variables met so far. -/
  used : List NodeId
  /-- Whether a variable that is visited counts as used. It does not where it is declared. -/
  registers : Bool
  /-- Whether a part of the tree was left out because it lies too deep. -/
  exceeded : Bool

end Check

/-- **The checker of trees.** -/
abbrev Checker : Type → Type := ReaderT Check.Env (StateM Check.State)

namespace Check

/-- What visits a node. -/
abbrev Visitor := NodeId → Checker Unit

/-- Asks the context a question. -/
def ask {α : Type} (f : QueryContext → α) : Checker α := do return f (← get).context

/-- Asks the tree a question. -/
def inTree {α : Type} (f : Tree → α) : Checker α := ask fun context => f context.tree

/-- The kind of a node. -/
def kindOf (id : NodeId) : Checker NodeKind := inTree (·.kind id)

/-- Adds problems. -/
def recordAll (problems : List Problem) : Checker Unit :=
  modify fun state => { state with problems := state.problems ++ problems }

/-- Adds a problem at a node, with the text of the node as its argument. -/
def recordAt (key : ProblemKey) (id : NodeId) : Checker Unit := do
  let problem ← inTree fun tree => ⟨key, [tree.parsedText id], tree.span id, some id⟩
  recordAll [problem]

/-- Notes that a variable is used at a node. -/
def use (id : NodeId) : Checker Unit :=
  modify fun state =>
    if state.used.contains id then state else { state with used := state.used ++ [id] }

/-- Takes back that a variable is used at a node. -/
def unuse (id : NodeId) : Checker Unit :=
  modify fun state => { state with used := state.used.filter (· != id) }

variable (visit : Visitor)

/-- Visits some nodes in turn. -/
def visitAll (ids : List NodeId) : Checker Unit := ids.forM visit

/-- Visits an optional node. -/
def visitOption (id : Option NodeId) : Checker Unit := visitAll visit id.toList

/-- Visits the children of a node. -/
def visitChildren (id : NodeId) : Checker Unit := do visitAll visit (← inTree (·.children id))

/-- Visits a variable where it is declared. -/
def visitDeclared (id : Option NodeId) : Checker Unit := do
  let registers := (← get).registers
  modify ({ · with registers := false })
  visitOption visit id
  modify ({ · with registers })

/-- Looks up the variables of a statement or subquery. -/
def checkVariables (used : List NodeId) : Checker Unit := do
  recordAll (← ask (·.duplicates))
  recordAll (← ask (·.undeclared used))

/-- **Checks a subquery in a scope of its own.** Variables first used in it are looked up at its
end, those of the surrounding query are left to that. -/
def checkSubquery (id : NodeId) : Checker Unit := do
  let outer := (← get).used
  modify fun state => { state with context := state.context.enter id }
  visitChildren visit id
  checkVariables ((← get).used.filter (!outer.contains ·))
  modify fun state =>
    { state with
      context := state.context.leave
      used := state.used.filter (outer.contains ·) }

end Check

end Jpql
