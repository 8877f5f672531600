import Jpql.Problem.Key
import Jpql.Text.Template
import Jpql.Tree.Kind

/-! # Problems

Nothing in this library fails on bad query text. What is wrong with a query is collected as a list
of problems: a cause, the arguments of its wording, the span in question, and the node of the tree
that the problem belongs to. -/

namespace Jpql

/-- Something that is wrong with a query. -/
structure Problem where
  key : ProblemKey
  /-- What is put into the places of the wording. -/
  arguments : List String
  span : Span
  /-- The node the problem belongs to, if there is one. -/
  anchor : Option NodeId
deriving DecidableEq

namespace Problem

/-- The phase that reports the problem. -/
def category (problem : Problem) : ProblemCategory := problem.key.category

/-- **The wording of the problem**, with its arguments put in one after the other. -/
def message (problem : Problem) : String := Text.fill problem.key.template problem.arguments

/-- One line that names the cause, the place and the wording. -/
def describe (problem : Problem) : String :=
  problem.key.messageKey ++ " at " ++ toString problem.span.start ++ ".." ++
    toString problem.span.stop ++ ": " ++ problem.message

/-- The problem with an anchor: its own if it has one, otherwise `node`. -/
def anchoredAt (node : NodeId) (problem : Problem) : Problem :=
  { problem with anchor := some (problem.anchor.getD node) }

@[simp] theorem anchor_anchoredAt (node : NodeId) (problem : Problem) :
    (problem.anchoredAt node).anchor = some (problem.anchor.getD node) := rfl

end Problem

end Jpql
