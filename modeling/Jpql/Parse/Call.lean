import Jpql.Parse.Statement

/-! # Calls

Constructs that a keyword introduces: functions, aggregates, `CASE`, `TREAT`, `NEW`, and the
operators on subqueries. Each starts at its keyword and mostly goes on in parentheses. -/

namespace Jpql.Parse

variable (deeper : Deeper)

/-- Runs a reader between parentheses. -/
def inParens {α : Type} (reader : Parser α) : Parser α := do
  discard (expect .leftParen)
  let a ← reader
  discard (expect .rightParen)
  return a

/-- A variable or path as an argument. -/
def path : Parser NodeId := primary deeper RuleId.path

/-- Two operands with a comma between them. -/
def twoScalars : Parser (NodeId × NodeId) := do
  let first ← scalar deeper
  discard (expect .comma)
  return (first, ← scalar deeper)

/-- Two operands, and an optional third. -/
def threeScalars : Parser (NodeId × NodeId × Option NodeId) := do
  let (first, second) ← twoScalars deeper
  if ← consume .comma then return (first, second, some (← scalar deeper))
  else return (first, second, none)

/-- Which side `TRIM` works on. -/
def trimSide : Parser TrimSide := do
  if ← consumeKeyword .leading then return .leading
  else if ← consumeKeyword .trailing then return .trailing
  else if ← consumeKeyword .both then return .both
  else return .unspecified

/-- `[LEADING|TRAILING|BOTH] [character] [FROM] string`. A character is there if `FROM` follows the
next token. -/
def trimArguments : Parser NodeKind := do
  let side ← trimSide
  let withCharacter ← look fun stream =>
    !stream.checkKeyword .from && stream.peek.kind.isKeyword .from
  let character ← if withCharacter then some <$> primary deeper RuleId.scalar else pure none
  let hasFrom ← consumeKeyword .from
  let string ← scalar deeper
  return .trim side character hasFrom string

/-- The aggregate function that a keyword stands for. -/
def aggregateFunction : TokenKind → AggregateFunction
  | .keyword .avg => .avg
  | .keyword .sum => .sum
  | .keyword .min => .min
  | .keyword .max => .max
  | _ => .count

/-- The quantifier that a keyword stands for. -/
def quantifier : TokenKind → Quantifier
  | .keyword .all => .all
  | .keyword .any => .any
  | _ => .some

/-- `[DISTINCT] operand`. -/
def aggregateArgument : Parser (Bool × NodeId) := do
  let distinct ← consumeKeyword .distinct
  return (distinct, ← scalar deeper)

/-- `WHEN condition THEN result`. -/
def whenClause : Parser NodeId := do
  let start ← look (·.currentStart)
  advance
  let condition ← condition deeper
  expectKeyword .then
  let result ← scalar deeper
  pushFrom (.when condition result) start

/-- **`[operand] WHEN .. THEN .. ELSE result END`**, after the word `CASE`. -/
def caseBody : Parser NodeKind := do
  let operand ← if ← atKeyword .when then pure none else some <$> scalar deeper
  let whens ← loop (fun whens => do
    if ← atKeyword .when then return some (whens ++ [← whenClause deeper]) else return none) []
  if whens.isEmpty then expectKeyword .when
  expectKeyword .else
  let otherwise ← scalar deeper
  expectKeyword .end
  return .caseOf operand whens otherwise

/-- `path AS Type`. -/
def treatArguments : Parser NodeKind := do
  let path ← path deeper
  asCollection path
  let hasAs ← consumeKeyword .as
  let entityType ← match ← look (·.identifier?) with
    | some name => entityType name
    | none => missing "entity type"
  return .treat path hasAs entityType

/-- A quoted function name with optional arguments. -/
def callArguments : Parser NodeKind := do
  let name ← match ← look (·.kind) with
    | .string name => advance *> pure name
    | _ => recordHere .expectedToken ["function name"] *> pure ""
  let arguments ← if ← consume .comma then separated (scalar deeper) else pure []
  return .call name arguments

/-- The class name of a constructor, which may be dotted. -/
def className : Parser String := do
  match ← look (·.identifier?) with
  | some first =>
    advance
    let (segments, _) ← segments
    return ".".intercalate (first :: segments.map (·.value))
  | none =>
    recordHere .expectedToken ["class name"]
    return ""

/-- `com.acme.Report(items)`, after the word `NEW`. -/
def constructorBody : Parser NodeKind := do
  let name ← className
  let arguments ← inParens (separated (operand deeper RuleId.constructorItem))
  return .constructor name arguments

/-- What a construct looks like after its keyword, which was of kind `word`. -/
def callBody (construct : Construct) (word : TokenKind) : Parser (Option NodeKind) := do
  match construct with
  | .abs => return some (.basicFunction .abs (← inParens (scalar deeper)))
  | .sqrt => return some (.basicFunction .sqrt (← inParens (scalar deeper)))
  | .length => return some (.basicFunction .length (← inParens (scalar deeper)))
  | .lower => return some (.basicFunction .lower (← inParens (scalar deeper)))
  | .upper => return some (.basicFunction .upper (← inParens (scalar deeper)))
  | .size =>
    let expression ← inParens (scalar deeper)
    asCollection expression
    return some (.size expression)
  | .index => return some (.index (← inParens (path deeper)))
  | .entry => return some (.entry (← inParens (path deeper)))
  | .key => return some (.key (← inParens (path deeper)))
  | .value => return some (.value (← inParens (path deeper)))
  | .object => return some (.object (← inParens (path deeper)))
  | .type => return some (.type (← inParens (primary deeper RuleId.scalar)))
  | .mod =>
    let (first, second) ← inParens (twoScalars deeper)
    return some (.mod first second)
  | .nullif =>
    let (first, second) ← inParens (twoScalars deeper)
    return some (.nullif first second)
  | .locate =>
    let (first, second, third) ← inParens (threeScalars deeper)
    return some (.locate first second third)
  | .substring =>
    let (first, second, third) ← inParens (threeScalars deeper)
    return some (.substring first second third)
  | .concat => return some (.concat (← inParens (separated (scalar deeper))))
  | .coalesce => return some (.coalesce (← inParens (separated (scalar deeper))))
  | .trim => some <$> inParens (trimArguments deeper)
  | .aggregate =>
    let (distinct, expression) ← inParens (aggregateArgument deeper)
    return some (.aggregate (aggregateFunction word) distinct expression)
  | .caseOf => some <$> caseBody deeper
  | .treat => some <$> inParens (treatArguments deeper)
  | .call => some <$> inParens (callArguments deeper)
  | .constructor => some <$> constructorBody deeper
  | .existence => return some (.existence false (← parenSubquery deeper))
  | .quantified => return some (.quantified (quantifier word) (← parenSubquery deeper))
  | _ => return none

/-- Constructs that may be the start of a path. -/
def startsPath : Construct → Bool
  | .key | .value | .treat => true
  | _ => false

/-- **A construct that the current keyword introduces.** -/
def call (construct : Construct) : Parser NodeId := do
  let start ← look (·.currentStart)
  let word ← look (·.kind)
  advance
  match ← callBody deeper construct word with
  | none => missing "function"
  | some kind =>
    let id ← pushFrom kind start
    if startsPath construct then continuePath id start else return id

end Jpql.Parse
