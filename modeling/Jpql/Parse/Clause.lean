import Jpql.Parse.Declaration

/-! # Clauses

The clauses of statements and subqueries. The clauses of a subquery differ in two points: an item of
its `SELECT` clause has no name, and it has no `ORDER BY`. -/

namespace Jpql.Parse

variable (deeper : Deeper)

/-- An item of a `SELECT` clause, with an optional name for its result. -/
def selectItem : Parser NodeId := do
  let expression ← operand deeper RuleId.select
  let start ← startOf expression
  let hasAs ← consumeKeyword .as
  let named ← look fun stream =>
    match stream.kind with
    | .identifier _ => true
    | _ => false
  if !hasAs && !named then return expression
  let declared ← match ← declaredVariable? with
    | some declared => pure declared
    | none => missing "result variable"
  pushFrom (.resultVariable expression hasAs declared) start

/-- **`SELECT [DISTINCT] items`.** -/
def selectClause (simple : Bool) : Parser NodeId := do
  let start ← look (·.currentStart)
  expectKeyword .select
  let distinct ← consumeKeyword .distinct
  if simple then
    let items ← separated (operand deeper RuleId.simpleSelect)
    pushFrom (.simpleSelectClause distinct items) start
  else
    let items ← separated (selectItem deeper)
    pushFrom (.selectClause distinct items) start

/-- **`FROM declarations`.** The clause is required. -/
def fromClause? (simple : Bool) : Parser (Option NodeId) := do
  let start ← look (·.currentStart)
  if ← consumeKeyword .from then
    let declarations ← separated (declaration deeper)
    if simple then return some (← pushFrom (.simpleFromClause declarations) start)
    else return some (← pushFrom (.fromClause declarations) start)
  else
    missingClause "FROM"
    return none

/-- An optional clause that is a keyword with a condition. -/
def conditionClause? (word : Keyword) (kind : NodeId → NodeKind) : Parser (Option NodeId) := do
  let start ← look (·.currentStart)
  if ← consumeKeyword word then
    let condition ← condition deeper
    return some (← pushFrom (kind condition) start)
  else return none

/-- `WHERE condition`. -/
def whereClause? : Parser (Option NodeId) := conditionClause? deeper .where .whereClause

/-- `HAVING condition`. -/
def havingClause? : Parser (Option NodeId) := conditionClause? deeper .having .havingClause

/-- `GROUP BY items`. -/
def groupByClause? : Parser (Option NodeId) := do
  let start ← look (·.currentStart)
  if ← consumeKeyword .group then
    expectKeyword .by
    let items ← separated (operand deeper RuleId.groupByItem)
    return some (← pushFrom (.groupByClause items) start)
  else return none

/-- The direction of an `ORDER BY` item. -/
def sortOrder : Parser SortOrder := do
  if ← consumeKeyword .asc then return .ascending
  else if ← consumeKeyword .desc then return .descending
  else return .unspecified

/-- Where an `ORDER BY` item puts nulls. -/
def nullsOrder : Parser NullsOrder := do
  if ← consumeKeyword .nulls then
    if ← consumeKeyword .first then return .first
    else if ← consumeKeyword .last then return .last
    else
      recordHere .expectedToken ["FIRST or LAST"]
      return .unspecified
  else return .unspecified

/-- An item of an `ORDER BY` clause. -/
def orderByItem : Parser NodeId := do
  let expression ← operand deeper RuleId.orderByItem
  let start ← startOf expression
  let order ← sortOrder
  let nulls ← nullsOrder
  pushFrom (.orderByItem expression order nulls) start

/-- `ORDER BY items`. -/
def orderByClause? : Parser (Option NodeId) := do
  let start ← look (·.currentStart)
  if ← consumeKeyword .order then
    expectKeyword .by
    let items ← separated (orderByItem deeper)
    return some (← pushFrom (.orderByClause items) start)
  else return none

/-- `target = value`. -/
def updateItem : Parser NodeId := do
  let start ← look (·.currentStart)
  let target ← updateTarget
  discard (expect .equal)
  let value ← operand deeper RuleId.newValue
  pushFrom (.updateItem target value) start

/-- The items after `SET`. The word is required. -/
def updateItems : Parser (List NodeId) := do
  if ← consumeKeyword .set then separated (updateItem deeper)
  else
    missingClause "SET"
    return []

end Jpql.Parse
