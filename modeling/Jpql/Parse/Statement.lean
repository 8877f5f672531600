import Jpql.Parse.Clause

/-! # Statements

`SELECT`, `UPDATE` and `DELETE` statements, and subqueries. The virtual variable belongs to one
`UPDATE` or `DELETE`; inside a subquery bare names are never fields of it (`withoutVirtual`). -/

namespace Jpql.Parse

variable (deeper : Deeper)

/-- Runs a reader without a virtual variable; afterwards the variable is what it was before. -/
def withoutVirtual {α : Type} (reader : Parser α) : Parser α := do
  let outer := (← get).virtualVariable
  modify ({ · with virtualVariable := none })
  let a ← reader
  modify ({ · with virtualVariable := outer })
  return a

/-- **A `SELECT` statement.** -/
def selectStatement : Parser NodeId := do
  let start ← look (·.currentStart)
  let select ← selectClause deeper false
  let fromClause ← fromClause? deeper false
  let whereClause ← whereClause? deeper
  let groupBy ← groupByClause? deeper
  let having ← havingClause? deeper
  let orderBy ← orderByClause? deeper
  pushFrom (.selectStatement select fromClause whereClause groupBy having orderBy) start

/-- **A subquery.** -/
def simpleSelect : Parser NodeId := withoutVirtual do
  let start ← look (·.currentStart)
  let select ← selectClause deeper true
  let fromClause ← fromClause? deeper true
  let whereClause ← whereClause? deeper
  let groupBy ← groupByClause? deeper
  let having ← havingClause? deeper
  pushFrom (.simpleSelectStatement select fromClause whereClause groupBy having) start

/-- **An `UPDATE` statement.** -/
def updateStatement : Parser NodeId := withoutVirtual do
  let start ← look (·.currentStart)
  advance
  let range ← rangeDeclaration true
  let items ← updateItems deeper
  let update ← pushFrom (.updateClause range items) start
  let whereClause ← whereClause? deeper
  pushFrom (.updateStatement update whereClause) start

/-- **A `DELETE` statement.** -/
def deleteStatement : Parser NodeId := withoutVirtual do
  let start ← look (·.currentStart)
  advance
  expectKeyword .from
  let range ← rangeDeclaration true
  let delete ← pushFrom (.deleteClause range) start
  let whereClause ← whereClause? deeper
  pushFrom (.deleteStatement delete whereClause) start

/-- A subquery in parentheses. -/
def parenSubquery : Parser NodeId := do
  discard (expect .leftParen)
  let subquery ← if ← atKeyword .select then simpleSelect deeper else missing "subquery"
  discard (expect .rightParen)
  return subquery

/-- What follows `NOT`, and the word itself. -/
def negation (rule : String) : Parser NodeId := do
  let start ← look (·.currentStart)
  advance
  if ← consumeKeyword .exists then
    let subquery ← parenSubquery deeper
    pushFrom (.existence true subquery) start
  else
    let expression ← negatable deeper rule
    pushFrom (.not expression) start

/-- A condition or a subquery in parentheses. -/
def group : Parser NodeId := do
  let start ← look (·.currentStart)
  advance
  let expression ← if ← atKeyword .select then simpleSelect deeper else condition deeper
  discard (expect .rightParen)
  pushFrom (.group expression) start

end Jpql.Parse
