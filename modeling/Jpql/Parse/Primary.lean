import Jpql.Parse.Path

/-! # Primary expressions

The rule in force and the current token select the construct to build, through the grammar. A
keyword that starts an expression elsewhere in the grammar, but not under this rule, is read as that
expression and reported.

Constructs that hold further expressions open a new level. They are not read here but handed, as a
value of `Nested`, to the function `deeper`, which checks the limit on nesting. So this module and
those that build on it read a single level, and recursion happens in one place only, `level`. -/

namespace Jpql.Parse

/-- A construct that opens a level of its own. -/
inductive Nested where
  /-- `NOT`, then a condition under the rule. -/
  | negation (rule : String)
  /-- A sign, then an operand. -/
  | sign (negative : Bool)
  /-- A parenthesised expression or subquery. -/
  | group
  /-- A subquery whose parenthesis is already open. -/
  | subquery
  /-- A construct that a keyword introduces. -/
  | call (construct : Construct)

/-- Reads a construct one level deeper. -/
abbrev Deeper := Nested → Parser NodeId

/-- The trigger of the current token. A keyword that is not reserved is a name, unless a parenthesis
follows. -/
def trigger? (stream : TokenStream) : Option Trigger :=
  match stream.kind with
  | .keyword word =>
    if !word.isReserved && stream.peek.kind != .leftParen then some .identifier
    else some (.keyword word)
  | kind => Trigger.ofKind? kind

/-- Reads the current token as a node without children. -/
def leaf (kind : NodeKind) : Parser NodeId := do
  let start ← look (·.currentStart)
  advance
  pushFrom kind start

/-- The literal that a keyword stands for. -/
def wordLiteral : TokenKind → WordLiteral
  | .keyword .true => .true
  | .keyword .false => .false
  | _ => .null

/-- The date or time that a keyword stands for. -/
def moment : TokenKind → Moment
  | .keyword .currentTime => .currentTime
  | .keyword .currentTimestamp => .currentTimestamp
  | _ => .currentDate

/-- **Builds a construct at the current token.** -/
def build (deeper : Deeper) (construct : Construct) : Parser NodeId := do
  match construct with
  | .selectStatement | .simpleSelectStatement => deeper .subquery
  | .updateStatement | .deleteStatement => unknownToken
  | .group => deeper .group
  | .path => pathOrVariable
  | .number => leaf (.number (← look (·.currentText)))
  | .string =>
    match ← look (·.kind) with
    | .string value => leaf (.string value)
    | _ => leaf (.string "")
  | .wordLiteral => leaf (.wordLiteral (wordLiteral (← look (·.kind))))
  | .parameter =>
    match ← look (·.kind) with
    | .positional name => leaf (.parameter name true)
    | .named name => leaf (.parameter name false)
    | _ => unknownToken
  | .moment => leaf (.moment (moment (← look (·.kind))))
  | other => deeper (.call other)

/-- What the grammar builds under a rule from a trigger. -/
def dispatch (rule : String) (trigger : Trigger) : Parser (Option Construct) := do
  match (← read).grammar.dispatch rule trigger with
  | .ok construct => return construct
  | .error error => throw error

/-- **A primary expression under a rule.** -/
def primary (deeper : Deeper) (rule : String) : Parser NodeId := do
  match ← look trigger? with
  | none => missing rule
  | some trigger =>
    match ← dispatch rule trigger with
    | some construct => build deeper construct
    | none =>
      match trigger with
      | .keyword word =>
        match (← read).grammar.forKeyword? word with
        | some construct =>
          let problem ← look fun stream =>
            stream.problemHere .expressionNotAllowed [stream.currentText, rule]
          let id ← build deeper construct
          record { problem with anchor := some id }
          return id
        | none => missing rule
      | _ => unknownToken

end Jpql.Parse
