import Jpql.Parse.Condition

/-! # Declarations

An entry of a `FROM` clause declares a variable over an entity (`Employee e`), in a subquery also
over a path (`e.projects p`), with joins behind it, or a variable over a collection:
`IN(e.projects) p`. `UPDATE` and `DELETE` have one range, whose variable may be left out: it is then
the *virtual* variable, named like the entity in lower case. -/

namespace Jpql.Parse

variable (deeper : Deeper)

/-- What a range goes over, with the name if it is an entity. -/
def rangeRoot : Parser (NodeId × Option String) := do
  match ← look (·.identifier?) with
  | none => return (← missing "abstract schema name", none)
  | some name =>
    let span ← look (·.current.span)
    advance
    if ← look (·.check .dot) then
      let root ← pushVariable name span
      let (segments, endsWithDot) ← segments
      return (← pushFrom (.path .collectionValued root segments endsWithDot) span.start, none)
    else
      return (← push (.schemaName name) span, some name)

/-- Makes the entity itself the virtual variable of the statement. -/
def virtualVariable (entity : String) : Parser NodeId := do
  let name := Text.asciiLower entity
  let span ← look fun stream => Span.point stream.previousEnd
  modify ({ · with virtualVariable := some name })
  push (.identifier name true none) span

/-- **A range with its variable.** If `allowVirtual` holds, an entity needs none. -/
def rangeDeclaration (allowVirtual : Bool) : Parser NodeId := do
  let start ← look (·.currentStart)
  let (root, entity) ← rangeRoot
  let hasAs ← consumeKeyword .as
  let declared ← match ← declaredVariable? with
    | some declared => pure (some declared)
    | none =>
      match entity with
      | some name =>
        if allowVirtual && !hasAs then some <$> virtualVariable name
        else missingVariable *> pure none
      | none => missingVariable *> pure none
  pushFrom (.rangeDeclaration root hasAs declared) start

/-- `IN(path) [AS] v`. -/
def collectionDeclaration : Parser NodeId := do
  let start ← look (·.currentStart)
  advance
  discard (expect .leftParen)
  let path ← primary deeper RuleId.path
  asCollection path
  discard (expect .rightParen)
  let hasAs ← consumeKeyword .as
  let declared ← declaredVariable?
  if declared.isNone then missingVariable
  pushFrom (.collectionDeclaration path hasAs declared) start

/-- The words in front of `JOIN`. -/
def joinType : Parser JoinType := do
  if ← consumeKeyword .left then
    if ← consumeKeyword .outer then return .leftOuter else return .left
  else if ← consumeKeyword .inner then return .inner
  else return .join

/-- The condition of a join. -/
def onClause? : Parser (Option NodeId) := do
  if ← atKeyword .on then
    let start ← look (·.currentStart)
    advance
    let condition ← condition deeper
    return some (← pushFrom (.onClause condition) start)
  else return none

/-- **A join.** A joined variable may be left out if the join only fetches. -/
def join : Parser NodeId := do
  let start ← look (·.currentStart)
  let type ← joinType
  expectKeyword .join
  let fetch ← consumeKeyword .fetch
  let path ← primary deeper RuleId.joinPath
  match ← kindOf path with
  | .treat inner _ _ => asCollection inner
  | _ => asCollection path
  let hasAs ← consumeKeyword .as
  let declared ← declaredVariable?
  if declared.isNone && (hasAs || !fetch) then missingVariable
  let on ← onClause? deeper
  pushFrom (.join type fetch path hasAs declared on) start

/-- The current token starts a join. -/
def atJoin (stream : TokenStream) : Bool :=
  match stream.kind with
  | .keyword .join | .keyword .left | .keyword .inner => true
  | _ => false

/-- **An entry of a `FROM` clause.** -/
def declaration : Parser NodeId := do
  if ← atKeyword .in then collectionDeclaration deeper
  else
    let start ← look (·.currentStart)
    let range ← rangeDeclaration false
    let joins ← loop (fun joins => do
      if ← look atJoin then return some (joins ++ [← join deeper]) else return none) []
    pushFrom (.variableDeclaration range joins) start

end Jpql.Parse
