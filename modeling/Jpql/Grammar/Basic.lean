import Jpql.Grammar.Trigger

/-! # Grammars

A grammar is a table of rules. A rule owns *factories*, each of which binds triggers to a construct,
and it accepts everything its child rules accept. Rules may name each other in any order and form
cycles.

* `GrammarBuilder` collects rules and factories under unique ids; `GrammarBuilder.build` verifies
  that every id that a rule mentions is registered.
* `Grammar.reach` lists the rules reachable from a rule, depth first; `Grammar.dispatch` takes the
  first factory in that order that the trigger selects. So a rule's own factories win over those of
  its children, and an earlier child wins over a later one.
* `Grammar.forKeyword?` finds a factory for a keyword in the whole grammar: the one with the
  smallest id. -/

namespace Jpql

/-- A defect of a grammar or of its use. Query texts never cause one. -/
inductive GrammarError where
  | unknownRule (id : String)
  | unknownFactory (id rule : String)
  | duplicateRule (id : String)
  | duplicateFactory (id : String)
deriving DecidableEq

namespace GrammarError

/-- The wording of a defect. -/
def message : GrammarError → String
  | .unknownRule id => "grammar rule '" ++ id ++ "' is not registered"
  | .unknownFactory id rule =>
    "expression factory '" ++ id ++ "' referenced by rule '" ++ rule ++ "' is not registered"
  | .duplicateRule id => "grammar rule '" ++ id ++ "' is registered twice"
  | .duplicateFactory id => "expression factory '" ++ id ++ "' is registered twice"

/-- The stable name of a defect. -/
def code : GrammarError → String
  | .unknownRule _ => "grammar::unknown_rule"
  | .unknownFactory _ _ => "grammar::unknown_factory"
  | .duplicateRule _ => "grammar::duplicate_rule"
  | .duplicateFactory _ => "grammar::duplicate_factory"

end GrammarError

/-- Binds triggers to a construct. -/
structure Factory where
  id : String
  construct : Construct
  triggers : List Trigger
deriving DecidableEq

/-- A factory that keywords alone select. -/
def Factory.ofKeywords (id : String) (construct : Construct) (words : List Keyword) : Factory :=
  ⟨id, construct, words.map .keyword⟩

/-- A rule: the ids of the rules it also accepts, in order of priority, and of its own factories. -/
structure Rule where
  id : String
  children : List String
  factories : List String
deriving DecidableEq

/-- A table of rules and factories. -/
structure Grammar where
  rules : List Rule
  factories : List Factory

namespace Grammar

/-- The rule with an id, if it is registered. -/
def rule? (grammar : Grammar) (id : String) : Option Rule := grammar.rules.find? (·.id == id)

/-- The factory with an id, if it is registered. -/
def factory? (grammar : Grammar) (id : String) : Option Factory :=
  grammar.factories.find? (·.id == id)

/-- The rule with an id; an unregistered id is a defect. -/
def lookup (grammar : Grammar) (id : String) : Except GrammarError Rule :=
  match grammar.rule? id with
  | some rule => .ok rule
  | none => .error (.unknownRule id)

/-- The factory with an id; an unregistered id is a defect, charged to no rule. -/
def factory (grammar : Grammar) (id : String) : Except GrammarError Factory :=
  match grammar.factory? id with
  | some factory => .ok factory
  | none => .error (.unknownFactory id "")

/-- How many rules are registered. -/
def ruleCount (grammar : Grammar) : Nat := grammar.rules.length

/-- **A depth-first walk.** `pending` holds the ids still to be looked at, the next one first. A
rule is left out of `unvisited` once it is met, so each is listed once. -/
def explore : (fuel : Nat) → (unvisited : List Rule) → (pending : List String) → List Rule
  | 0, _, _ => []
  | _ + 1, _, [] => []
  | fuel + 1, unvisited, id :: pending =>
    match unvisited.find? (·.id == id) with
    | none => explore fuel unvisited pending
    | some rule =>
      rule :: explore fuel (unvisited.filter (·.id != id)) (rule.children ++ pending)

/-- **The rules reachable from `id`**, depth first, the rule itself in front. Every rule puts its
children on the agenda at most once, which bounds the number of steps. -/
def reach (grammar : Grammar) (id : String) : List Rule :=
  explore (2 + (grammar.rules.map (·.children.length)).foldr (· + ·) 0) grammar.rules [id]

/-- The factories that can be used from a rule, in order of priority. -/
def factoriesFrom (grammar : Grammar) (id : String) : List Factory :=
  (grammar.reach id).flatMap fun rule => rule.factories.filterMap grammar.factory?

/-- **What a rule builds from an expression that starts with `trigger`.** -/
def dispatch (grammar : Grammar) (id : String) (trigger : Trigger) :
    Except GrammarError (Option Construct) :=
  match grammar.rule? id with
  | none => .error (.unknownRule id)
  | some _ =>
    .ok (((grammar.factoriesFrom id).find? (·.triggers.contains trigger)).map (·.construct))

/-- The factory with the smaller id, the earlier one if the ids agree. -/
def smaller (best : Option Factory) (factory : Factory) : Option Factory :=
  match best with
  | none => some factory
  | some other => if factory.id < other.id then some factory else some other

/-- **What the whole grammar builds from an expression that starts with `word`**: the construct of
the factory with the smallest id among those the keyword selects. -/
def forKeyword? (grammar : Grammar) (word : Keyword) : Option Construct :=
  let candidates := grammar.factories.filter (·.triggers.contains (.keyword word))
  (candidates.foldl smaller none).map (·.construct)

end Grammar

/-- Rules and factories collected so far, in the order of their registration. -/
structure GrammarBuilder where
  rules : List Rule
  factories : List Factory

namespace GrammarBuilder

/-- A builder with nothing in it. -/
def empty : GrammarBuilder := ⟨[], []⟩

/-- Adds a rule under an id that is not taken. -/
def register (builder : GrammarBuilder) (rule : Rule) : Except GrammarError GrammarBuilder :=
  if builder.rules.any (·.id == rule.id) then .error (.duplicateRule rule.id)
  else .ok { builder with rules := builder.rules ++ [rule] }

/-- Adds a factory under an id that is not taken. -/
def registerFactory (builder : GrammarBuilder) (factory : Factory) :
    Except GrammarError GrammarBuilder :=
  if builder.factories.any (·.id == factory.id) then .error (.duplicateFactory factory.id)
  else .ok { builder with factories := builder.factories ++ [factory] }

/-- The first id a rule mentions that is not registered; children are looked at before factories. -/
def dangling? (builder : GrammarBuilder) (rule : Rule) : Option GrammarError :=
  ((rule.children.find? fun child => !builder.rules.any (·.id == child)).map .unknownRule).or
    ((rule.factories.find? fun id => !builder.factories.any (·.id == id)).map
      (.unknownFactory · rule.id))

/-- **Verifies the collected rules and makes them a grammar.** -/
def build (builder : GrammarBuilder) : Except GrammarError Grammar :=
  match builder.rules.findSome? builder.dangling? with
  | some error => .error error
  | none => .ok ⟨builder.rules, builder.factories⟩

end GrammarBuilder

namespace Grammar

theorem lookup_eq_ok {grammar : Grammar} {id : String} {rule : Rule} :
    grammar.lookup id = .ok rule ↔ grammar.rule? id = some rule := by
  unfold lookup; split <;> simp_all

/-- Dispatch fails on unregistered rules alone. -/
theorem dispatch_eq_error {grammar : Grammar} {id : String} {trigger : Trigger}
    {error : GrammarError} :
    grammar.dispatch id trigger = .error error ↔
      grammar.rule? id = none ∧ error = .unknownRule id := by
  unfold dispatch
  split
  · next h => simp [h, eq_comm]
  · next h => simp [h]

end Grammar

end Jpql
