import Jpql.Parse.Operand

/-! # Conditions

From the loosest to the tightest: `OR`, `AND`, `NOT`, then the simple conditions, which compare
operands: comparisons, `BETWEEN`, `LIKE`, `IN`, `MEMBER OF`, `IS NULL` and `IS EMPTY`. -/

namespace Jpql.Parse

variable (deeper : Deeper)

/-- The comparison that a token stands for. -/
def comparison? : TokenKind → Option Comparison
  | .equal => some .equal
  | .notEqual => some .notEqual
  | .less => some .less
  | .lessEqual => some .lessEqual
  | .greater => some .greater
  | .greaterEqual => some .greaterEqual
  | _ => none

/-- `NOT` stands in front of a word that a negation may precede. -/
def atNegatedWord (stream : TokenStream) : Bool :=
  stream.checkKeyword .not &&
    match stream.peek.kind with
    | .keyword .between | .keyword .like | .keyword .in | .keyword .member => true
    | _ => false

/-- The items of a list in parentheses. After `TYPE(e)` names are entity types. -/
def inItem (ofTypes : Bool) : Parser NodeId := do
  match ← look (·.identifier?) with
  | some name => if ofTypes then entityType name else operand deeper RuleId.inItem
  | none => operand deeper RuleId.inItem

/-- **What follows `IN`**: one parameter, a subquery in parentheses, or a list in parentheses. -/
def inItems (left : NodeId) : Parser (List NodeId) := do
  match ← look (·.kind) with
  | .positional _ | .named _ => return [← primary deeper RuleId.inItem]
  | _ =>
    if !(← expect .leftParen) then return [← missing "IN items"]
    if ← atKeyword .select then
      let subquery ← deeper .subquery
      discard (expect .rightParen)
      return [subquery]
    let ofTypes := match ← kindOf left with
      | .type _ => true
      | _ => false
    let items ← separated (inItem deeper ofTypes)
    discard (expect .rightParen)
    return items

/-- What follows `IS`. -/
def isCheck (left : NodeId) : Parser NodeKind := do
  let negated ← consumeKeyword .not
  if ← consumeKeyword .empty then
    asCollection left
    return .emptyCheck left negated
  else
    if !(← consumeKeyword .null) then
      recordHere .expectedToken ["NULL or EMPTY"]
    return .nullCheck left negated

/-- The rest of a simple condition after its first operand; none if there is no more to it. -/
def conditionRest? (left : NodeId) (negated : Bool) : Parser (Option NodeKind) := do
  match ← look (·.kind) with
  | .keyword .between =>
    advance
    let lower ← scalar deeper
    expectKeyword .and
    let upper ← scalar deeper
    return some (.between left negated lower upper)
  | .keyword .like =>
    advance
    let pattern ← scalar deeper
    if ← consumeKeyword .escape then
      return some (.like left negated pattern (some (← scalar deeper)))
    else
      return some (.like left negated pattern none)
  | .keyword .in =>
    advance
    return some (.inList left negated (← inItems deeper left))
  | .keyword .member =>
    advance
    let hasOf ← consumeKeyword .of
    let collection ← operand deeper RuleId.path
    asCollection collection
    return some (.member left negated hasOf collection)
  | .keyword .is =>
    advance
    return some (← isCheck left)
  | _ => return none

/-- **A simple condition**, or an operand alone. -/
def simpleCondition (rule : String) : Parser NodeId := do
  let left ← operand deeper rule
  let start ← startOf left
  match ← look (comparison? ·.kind) with
  | some operator =>
    advance
    let right ← operand deeper RuleId.comparisonRight
    pushFrom (.comparison left operator right) start
  | none =>
    let negated ← look atNegatedWord
    if negated then advance
    match ← conditionRest? deeper left negated with
    | some kind => pushFrom kind start
    | none => return left

/-- A simple condition, or `NOT` with what it applies to. -/
def negatable (rule : String) : Parser NodeId := do
  if ← atKeyword .not then deeper (.negation rule) else simpleCondition deeper rule

/-- Moves over a connective. -/
def connective (word : Keyword) (connective : Connective) :
    Parser (Option (NodeId → NodeId → NodeKind)) := do
  if ← consumeKeyword word then return some (.logical connective) else return none

/-- Conditions with `AND` between them. -/
def conjunction (rule : String) : Parser NodeId :=
  leftChain (negatable deeper rule) (connective .and .and) (negatable deeper rule)

/-- **Conditions with `OR` between them.** -/
def disjunction (rule : String) : Parser NodeId :=
  leftChain (conjunction deeper rule) (connective .or .or) (conjunction deeper rule)

/-- A condition without further restriction. -/
def condition : Parser NodeId := disjunction deeper RuleId.conditional

end Jpql.Parse
