import Jpql.Parse.Call

/-! # Reading a query

`level` ties the readers of single levels together: a nested construct is read by the reader for one
level less, and skipped when no level is left. It recurses on the number of levels, so reading
always ends and never goes deeper than allowed.

* `parse`: reads a text from a rule of the standard grammar.
* `parseTokens`: reads tokens under any grammar.

Under the standard grammar, reading fails if the rule is unregistered, and never because of the
text. Otherwise there is a tree, and its problems: first those of the scanner, then those of the
reader, each of these anchored at a node. -/

namespace Jpql

namespace Parse

/-- The reader of a nested construct, given the reader for what is nested in it. -/
def nested (deeper : Deeper) : Deeper
  | .negation rule => negation deeper rule
  | .sign negative => signed deeper negative
  | .group => group deeper
  | .subquery => simpleSelect deeper
  | .call construct => call deeper construct

/-- **The reader of nested constructs with a number of levels left.** -/
def level : Nat → Deeper
  | 0, _ => skipTooDeep
  | levels + 1, construct => nested (level levels) construct

/-- A statement, as far as the rule allows the statement that the current token starts. -/
def statement? (deeper : Deeper) (rule : String) : Parser (Option NodeId) := do
  let construct ← match Trigger.ofKind? (← look (·.kind)) with
    | some trigger => dispatch rule trigger
    | none => pure none
  match construct with
  | some .selectStatement => some <$> selectStatement deeper
  | some .simpleSelectStatement => some <$> simpleSelect deeper
  | some .updateStatement => some <$> updateStatement deeper
  | some .deleteStatement => some <$> deleteStatement deeper
  | _ =>
    let stop := Text.trimmedLength (← read).source
    let start ← look (·.currentStart)
    record ⟨.invalidStatement, [], ⟨min start stop, stop⟩, none⟩
    return none

/-- What a text under a rule starts with: a statement, or a condition under that rule. -/
def start? (deeper : Deeper) (rule : String) : Parser (Option NodeId) :=
  if rule == RuleId.statement || rule == RuleId.subquery then statement? deeper rule
  else some <$> disjunction deeper rule

/-- **A whole text under a rule**, as the id of its root. -/
def query (deeper : Deeper) (rule : String) : Parser NodeId := do
  let statement ← start? deeper rule
  let unknown ← trailingText
  let source := (← read).source
  push (.query statement unknown) ⟨0, Text.byteLength source.toList⟩

end Parse

/-- A tree with the problems met while it was read. -/
structure Parsed where
  tree : Tree
  problems : List Problem

/-- The default limit on nesting. -/
def defaultMaxDepth : Nat := 128

/-- **Reads tokens from a rule of a grammar.** Problems without a node of their own belong to the
root. -/
def parseTokens (grammar : Grammar) (source : String) (tokens : List Token) (rule : String)
    (maxDepth : Nat) : Except GrammarError Parsed := do
  let _ ← grammar.lookup rule
  let env : Parse.Env := ⟨source, tokens.toArray, grammar, maxDepth⟩
  let (root, state) ← (Parse.query (Parse.level maxDepth) rule).run env |>.run .initial
  return ⟨state.builder.finish source root, state.problems.map (·.anchoredAt root)⟩

/-- **Reads a text from a rule of the standard grammar.** -/
def parse (source rule : String) (maxDepth : Nat) : Except GrammarError Parsed := do
  let lexed := tokenize source
  let parsed ← parseTokens .standard source lexed.tokens rule maxDepth
  return { parsed with problems := lexed.problems ++ parsed.problems }

end Jpql
