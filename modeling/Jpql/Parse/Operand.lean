import Jpql.Parse.Primary

/-! # Arithmetic

From the loosest to the tightest: `+` and `-`, then `*` and `/`, then a sign, then a primary
expression. Binary operators nest to the left. The rule in force counts for the first operand only;
the others, and what follows a sign, are scalar. -/

namespace Jpql.Parse

variable (deeper : Deeper)

/-- A primary expression, or a sign with what it applies to. -/
def factor (rule : String) : Parser NodeId := do
  match ← look (·.kind) with
  | .minus => deeper (.sign true)
  | .plus => deeper (.sign false)
  | _ => primary deeper rule

/-- Moves over `*` or `/`. -/
def productOperator : Parser (Option (NodeId → NodeId → NodeKind)) := do
  if ← consume .star then return some (.arithmetic .multiply)
  else if ← consume .slash then return some (.arithmetic .divide)
  else return none

/-- Factors with `*` and `/` between them. -/
def term (rule : String) : Parser NodeId :=
  leftChain (factor deeper rule) productOperator (factor deeper RuleId.scalar)

/-- Moves over `+` or `-`. -/
def sumOperator : Parser (Option (NodeId → NodeId → NodeKind)) := do
  if ← consume .plus then return some (.arithmetic .add)
  else if ← consume .minus then return some (.arithmetic .subtract)
  else return none

/-- **Terms with `+` and `-` between them.** -/
def operand (rule : String) : Parser NodeId :=
  leftChain (term deeper rule) sumOperator (term deeper RuleId.scalar)

/-- An operand without further restriction. -/
def scalar : Parser NodeId := operand deeper RuleId.scalar

/-- What follows a sign, and the sign itself. -/
def signed (negative : Bool) : Parser NodeId := do
  let start ← look (·.currentStart)
  advance
  let expression ← factor deeper RuleId.scalar
  pushFrom (.sign negative expression) start

end Jpql.Parse
