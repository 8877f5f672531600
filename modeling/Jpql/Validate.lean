import Jpql.Check.Visit
import Jpql.Parse.Query
import Jpql.Problem.Report

/-! # Validation

A query text is read, its tree is checked against a metamodel, and the problems of both come back
together: those of the text first. Only an unregistered rule is an error. -/

namespace Jpql

/-- Limits and switches of a validation. -/
structure ValidationOptions where
  /-- How many nested constructs the reader goes into. -/
  maxNestingDepth : Nat
  /-- How many nodes the check goes down. -/
  maxTraversalDepth : Nat
  /-- Whether the new values of `SET` items are checked. -/
  updateValues : Bool

/-- The options in force where none are given. -/
def ValidationOptions.standard : ValidationOptions := ⟨defaultMaxDepth, 512, true⟩

/-- The switches of the check. -/
def ValidationOptions.checkEnv (options : ValidationOptions) : Check.Env :=
  ⟨options.updateValues, options.maxTraversalDepth⟩

namespace Parsed

/-- No problem was found. -/
def isSuccess (outcome : Parsed) : Bool := outcome.problems.isEmpty

/-- The problems of one category. -/
def problemsOf (outcome : Parsed) (category : ProblemCategory) : List Problem :=
  outcome.problems.filter (·.category == category)

/-- **A report for each problem**, in the same order. -/
def reports (outcome : Parsed) : List Report :=
  outcome.problems.map (SourceFile.report ⟨outcome.tree.source, none⟩)

end Parsed

/-- **Reads a query text from a rule and checks it against a metamodel.** -/
def validate (source rule : String) (metamodel : Metamodel) (options : ValidationOptions) :
    Except GrammarError Parsed := do
  let parsed ← parse source rule options.maxNestingDepth
  let found := checkTree (.ofTree parsed.tree metamodel) options.checkEnv
  return { parsed with problems := parsed.problems ++ found }

end Jpql
