import Jpql.Parse.Basic

/-! # Recovery

Malformed text never stops the reader. What is missing becomes an empty `bad` node, what has no
place an `unknown` node, and each such node has a problem anchored at it.

* `missing`: an expression that should stand here. Nothing is read.
* `unknownToken`: the current token has no place here. It is read.
* `skipTooDeep`: a construct lies deeper than allowed. The rest of its level is read.
* `trailingText`: text after the end of the statement. All of it is read. -/

namespace Jpql

/-- Moves over the rest of a level: up to the parenthesis that closes it, or to the end. `level`
counts the parentheses that were opened on the way. -/
def TokenStream.skipLevel : (bound level : Nat) → TokenStream → TokenStream
  | 0, _, stream => stream
  | bound + 1, level, stream =>
    match stream.kind, level with
    | .eof, _ => stream
    | .leftParen, _ => skipLevel bound (level + 1) stream.advance
    | .rightParen, 0 => stream
    | .rightParen, level + 1 => skipLevel bound level stream.advance
    | _, _ => skipLevel bound level stream.advance

namespace Parse

/-- Adds a node for text in the wrong place, and the problem that says so. -/
def pushUnknown (span : Span) (text : String) (key : ProblemKey) (argument : String) :
    Parser NodeId := do
  let id ← push (.unknown text) span
  record ⟨key, [argument], span, some id⟩
  return id

/-- **An empty node where an expression is required**, right after the last token moved over. -/
def missing (what : String) : Parser NodeId := do
  let span ← look fun stream => Span.point stream.previousEnd
  let id ← push .bad span
  record ⟨.missingExpression, [what], span, some id⟩
  return id

/-- Says that an identification variable is required after the last token moved over. -/
def missingVariable : Parser Unit := do
  record ⟨.missingVariable, [], ← look fun stream => .point stream.previousEnd, none⟩

/-- Says that a clause is required after the last token moved over. -/
def missingClause (clause : String) : Parser Unit := do
  record ⟨.missingClause, [clause], ← look fun stream => .point stream.previousEnd, none⟩

/-- **Reads the current token as text without a place.** -/
def unknownToken : Parser NodeId := do
  let token ← look (·.current)
  let text ← look (·.currentText)
  advance
  pushUnknown token.span text .unknownExpression text

/-- **Reads the rest of a level that lies too deep.** -/
def skipTooDeep : Parser NodeId := do
  let env ← read
  let start ← look (·.currentStart)
  step fun stream => ((), stream.skipLevel env.tokens.size 0)
  let span ← spanFrom start
  pushUnknown span (Text.slice env.source span) .nestingTooDeep (toString env.maxDepth)

/-- **Reads everything that is left** into one node, if anything is left. -/
def trailingText : Parser (Option NodeId) := do
  if ← look (·.atEnd) then return none
  let env ← read
  let start ← look (·.currentStart)
  let span : Span := ⟨start, max (Text.trimmedLength env.source) start⟩
  let text := Text.slice env.source span
  step fun stream => ((), stream.seek env.tokens.size)
  return some (← pushUnknown span text .unknownExpression text)

end Parse

end Jpql
