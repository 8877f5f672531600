import Jpql.Grammar.Standard
import Jpql.Token.Stream
import Jpql.Tree.Basic

/-! # The reader of queries

`Parser` is the monad in which a query is read. What never changes during a run (`Env`: the text,
its tokens, the grammar, the limit on nesting) is kept apart from what does (`State`: the position,
the nodes and problems so far, the variable of the statement). A run fails on defects of the grammar
alone; whatever is wrong with the text is recorded as a problem.

* `look` and `step` read and move the token stream, `push` and `pushFrom` add nodes, `record` adds a
  problem.
* `loop` repeats a step as long as it goes on. Each repetition reads at least one token, so the
  number of tokens bounds it.
* `separated` reads a comma-separated list, `leftChain` a chain of operators that nests to the
  left. -/

namespace Jpql

namespace Parse

/-- What stays the same while a query is read. -/
structure Env where
  source : String
  tokens : Array Token
  grammar : Grammar
  /-- How many levels of parentheses, functions, subqueries, signs and negations may be open. -/
  maxDepth : Nat

/-- What changes while a query is read. -/
structure State where
  position : Nat
  builder : TreeBuilder
  problems : List Problem
  /-- The name that stands for the entity of an `UPDATE` or `DELETE` without alias. -/
  virtualVariable : Option String

/-- The state at the start of a text. -/
def State.initial : State := ⟨0, .empty, [], none⟩

end Parse

/-- **The reader of queries.** -/
abbrev Parser : Type → Type := ReaderT Parse.Env (StateT Parse.State (Except GrammarError))

namespace Parse

/-! ## Tokens -/

/-- The tokens, at the current position. -/
def stream : Parser TokenStream := do
  let env ← read
  return ⟨env.source, env.tokens, (← get).position⟩

/-- Reads something off the tokens without moving. -/
def look {α : Type} (f : TokenStream → α) : Parser α := do return f (← stream)

/-- Moves over tokens. -/
def step {α : Type} (f : TokenStream → α × TokenStream) : Parser α := do
  let (a, next) := f (← stream)
  modify ({ · with position := next.position })
  return a

/-- Moves over one token. -/
def advance : Parser Unit := step fun stream => ((), stream.advance)

/-- Moves over a token of the given kind; says whether it was there. -/
def consume (kind : TokenKind) : Parser Bool :=
  step fun stream =>
    match stream.consume? kind with
    | some (_, next) => (true, next)
    | none => (false, stream)

/-- Moves over a keyword; says whether it was there. -/
def consumeKeyword (word : Keyword) : Parser Bool := consume (.keyword word)

/-- The current token is the keyword. -/
def atKeyword (word : Keyword) : Parser Bool := look (·.checkKeyword word)

/-! ## Problems -/

/-- Adds a problem. -/
def record (problem : Problem) : Parser Unit :=
  modify fun state => { state with problems := state.problems ++ [problem] }

/-- Adds a problem at the current token. -/
def recordHere (key : ProblemKey) (arguments : List String) : Parser Unit := do
  record (← look (·.problemHere key arguments))

/-- Moves over a token of the given kind, or records that it was expected; says which. -/
def expect (kind : TokenKind) : Parser Bool := do
  match (← stream).expect kind with
  | .ok (_, next) =>
    modify ({ · with position := next.position })
    return true
  | .error problem =>
    record problem
    return false

/-- Moves over a keyword, or records that it was expected. -/
def expectKeyword (word : Keyword) : Parser Unit := discard (expect (.keyword word))

/-! ## Nodes -/

/-- Adds a node. -/
def push (kind : NodeKind) (span : Span) : Parser NodeId :=
  modifyGet fun state =>
    let (id, builder) := state.builder.push kind span
    (id, { state with builder })

/-- The span from `start` to the end of the last token moved over, empty if that lies before. -/
def spanFrom (start : Nat) : Parser Span := look fun stream => ⟨start, max stream.previousEnd start⟩

/-- Adds a node that reaches from `start` to the last token moved over. -/
def pushFrom (kind : NodeKind) (start : Nat) : Parser NodeId := do push kind (← spanFrom start)

/-- The kind of a node. -/
def kindOf (id : NodeId) : Parser NodeKind := do return (← get).builder.kind id

/-- Where a node starts. -/
def startOf (id : NodeId) : Parser Nat := do return ((← get).builder.span id).start

/-- Reads a path as collection-valued. The position of a path decides between its two readings, so
whoever expects a collection changes what the reader of primaries has built. -/
def asCollection (id : NodeId) : Parser Unit :=
  modify fun state =>
    { state with builder := state.builder.retag id (state.builder.kind id).asCollection }

/-! ## Repetition -/

/-- Repeats a step that says whether to go on, at most `bound` times. -/
def loopTo {α : Type} (next : α → Parser (Option α)) : (bound : Nat) → α → Parser α
  | 0, a => return a
  | bound + 1, a => do
    match ← next a with
    | some b => loopTo next bound b
    | none => return a

/-- **Repeats a step as long as it goes on.** The step reads a token when it goes on. -/
def loop {α : Type} (next : α → Parser (Option α)) (a : α) : Parser α := do
  loopTo next (← read).tokens.size a

/-- **One or more items with commas between them.** -/
def separated {α : Type} (item : Parser α) : Parser (List α) := do
  let first ← item
  loop (fun items => do
    if ← consume .comma then
      return some (items ++ [← item])
    else
      return none) [first]

/-- **Operands with operators between them, nested to the left.** `operator` moves over an operator
and says how to combine its sides, if there is one. -/
def leftChain (first : Parser NodeId) (operator : Parser (Option (NodeId → NodeId → NodeKind)))
    (operand : Parser NodeId) : Parser NodeId := do
  let left ← first
  let start ← startOf left
  loop (fun left => do
    match ← operator with
    | none => return none
    | some combine =>
      let right ← operand
      return some (← pushFrom (combine left right) start)) left

end Parse

end Jpql
