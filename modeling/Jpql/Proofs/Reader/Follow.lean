import Jpql.Parse.Condition
import Jpql.Proofs.Reader.Name
import Jpql.Proofs.Reader.Run

/-! # What follows an expression

A reader of expressions goes on as long as it finds an operator of its own level or a tighter one. So an
expression is read to its end and no further if the token behind it belongs to something looser.

* `TokenKind.Stops strength kind`: no expression that binds at least as tightly as `strength` goes on with
  the token.
* `Parse.Accepts rule`: under the rule all expressions can be read that need no keyword of a function.
* `Parse.Reads.leaf`, `Parse.Reads.primary`: the readers of single tokens, and the choice between them.
* `Parse.expression`: the readers of expressions, by how tightly these bind at least.
* `Parse.operatorAt_miss`, `Parse.Reads.simpleCondition_end`: a reader stops in front of a token that does
  not continue what it has read. -/

namespace Jpql

namespace TokenKind

/-- **How tightly the construct binds that goes on with a token** behind an operand, if one does. -/
def follow? : TokenKind → Option Nat
  | .keyword .or => some 0
  | .keyword .and => some 1
  | .keyword .not | .keyword .between | .keyword .like | .keyword .escape | .keyword .in
  | .keyword .member | .keyword .is => some 3
  | .equal | .notEqual | .less | .lessEqual | .greater | .greaterEqual => some 3
  | .plus | .minus => some 4
  | .star | .slash => some 5
  | .dot => some 7
  | _ => none

theorem isKeyword_eq_false {kind : TokenKind} {word : Keyword} (h : kind ≠ .keyword word) :
    kind.isKeyword word = false := by
  rw [isKeyword_eq_beq, beq_eq_false_iff_ne.mpr h]

/-- **What binds at least as tightly as `strength` ends in front of the token.** -/
def Stops (strength : Nat) (kind : TokenKind) : Prop := ∀ n ∈ kind.follow?, n < strength

namespace Stops

variable {m n : Nat} {kind other : TokenKind}

theorem mono (h : Stops m kind) (hmn : m ≤ n) : Stops n kind :=
  fun k hk => Nat.lt_of_lt_of_le (h k hk) hmn

theorem of_none (h : kind.follow? = none) : Stops n kind := by
  intro k hk
  rw [h] at hk
  cases hk

theorem of_some (h : kind.follow? = some m) (hmn : m < n) : Stops n kind := by
  intro k hk
  rw [h] at hk
  cases hk
  exact hmn

/-- A token that a construct goes on with is not the one behind it. -/
theorem ne (h : Stops m kind) (hother : other.follow? = some n) (hmn : m ≤ n) : kind ≠ other := by
  rintro rfl
  exact Nat.not_lt.mpr hmn (h n hother)

end Stops

end TokenKind

namespace Parse

open TokenKind (Stops)

variable {env : Env} {deeper : Deeper} {s : State} {w : Lexeme} {ws rest : List Lexeme}

/-! ## Rules -/

/-- The constructs that can start an expression without a function. -/
def basics : List (Trigger × Construct) := [
  (.identifier, .path), (.number, .number), (.string, .string), (.parameter, .parameter),
  (.openParen, .group), (.keyword .true, .wordLiteral), (.keyword .false, .wordLiteral),
  (.keyword .null, .wordLiteral)]

/-- **Under the rule every basic construct is read.** -/
def Accepts (rule : String) : Prop :=
  ∀ basic ∈ basics, Grammar.standard.dispatch rule basic.1 = .ok (some basic.2)

theorem accepts_conditional : Accepts RuleId.conditional := by
  unfold Accepts
  decide +kernel

theorem accepts_scalar : Accepts RuleId.scalar := by
  unfold Accepts
  decide +kernel

theorem accepts_comparisonRight : Accepts RuleId.comparisonRight := by
  unfold Accepts
  decide +kernel

theorem accepts_inItem : Accepts RuleId.inItem := by
  unfold Accepts
  decide +kernel

/-! ## Single tokens -/

namespace Reads

variable {post : NodeId → Draft → Prop}

/-- The current token is read as a node without children. -/
theorem leaf (kind : NodeKind) (h : s.Ahead env (w :: rest)) :
    Reads env (leaf kind) s rest fun id d => d.kind id = kind :=
  look_bind ((advance h).bind fun _ _ ht _ => (pushFrom kind _ ht.ahead).mono fun _ _ _ hid => hid.2)

/-- The reader asks the grammar what to build. -/
theorem dispatch_bind {α : Type} (hgrammar : env.grammar = .standard) {rule : String}
    {trigger : Trigger} {construct? : Option Construct}
    (hrule : Grammar.standard.dispatch rule trigger = .ok construct?)
    {g : Option Construct → Parser α} {post : α → Draft → Prop}
    (h : Reads env (g construct?) s rest post) :
    Reads env (dispatch rule trigger >>= g) s rest post := by
  have hdispatch : Runs env (dispatch rule trigger) s fun found t => found = construct? ∧ t = s := by
    refine ⟨construct?, s, ?_, rfl, rfl⟩
    rw [dispatch_run, hgrammar, hrule]
    rfl
  refine Runs.bind hdispatch ?_
  rintro _ _ ⟨rfl, rfl⟩
  exact h

/-- **A primary expression is what the grammar builds from the current token.** -/
theorem primary_of_dispatch (hgrammar : env.grammar = .standard) {rule : String} {trigger : Trigger}
    {construct : Construct} (hrule : Grammar.standard.dispatch rule trigger = .ok (some construct))
    (htrigger : trigger? (s.stream env) = some trigger)
    (h : Reads env (build deeper construct) s rest post) :
    Reads env (Parse.primary deeper rule) s rest post := by
  refine look_bind ?_
  rw [htrigger]
  exact dispatch_bind hgrammar hrule h

theorem primary (hgrammar : env.grammar = .standard) {rule : String} (hrule : Accepts rule)
    {trigger : Trigger} {construct : Construct} (hbasic : (trigger, construct) ∈ basics)
    (htrigger : trigger? (s.stream env) = some trigger)
    (h : Reads env (build deeper construct) s rest post) :
    Reads env (Parse.primary deeper rule) s rest post :=
  primary_of_dispatch hgrammar (hrule _ hbasic) htrigger h

end Reads

/-! ## Levels -/

/-- **The reader of expressions that bind at least as tightly as `strength`.** -/
def expression (deeper : Deeper) : (strength : Nat) → (rule : String) → Parser NodeId
  | 0, rule => disjunction deeper rule
  | 1, rule => conjunction deeper rule
  | 2, rule => negatable deeper rule
  | 3, rule => simpleCondition deeper rule
  | 4, rule => operand deeper rule
  | 5, rule => term deeper rule
  | 6, rule => factor deeper rule
  | _, rule => primary deeper rule

/-- The strengths of binary operators. -/
def isBinary (strength : Nat) : Bool :=
  strength == 0 || strength == 1 || strength == 4 || strength == 5

/-- The reader of binary operators of a strength. -/
def operatorAt : (strength : Nat) → Parser (Option (NodeId → NodeId → NodeKind))
  | 0 => connective .or .or
  | 1 => connective .and .and
  | 4 => sumOperator
  | _ => productOperator

/-- The rule for the operands behind the first one. -/
def operandRule (rule : String) : (strength : Nat) → String
  | 0 | 1 => rule
  | _ => RuleId.scalar

theorem isBinary_cases {strength : Nat} (h : isBinary strength = true) :
    strength = 0 ∨ strength = 1 ∨ strength = 4 ∨ strength = 5 := by
  simpa [isBinary, or_assoc] using h

theorem Accepts.operandRule {rule : String} (h : Accepts rule) (strength : Nat) :
    Accepts (operandRule rule strength) := by
  unfold Parse.operandRule
  split
  · exact h
  · exact h
  · exact accepts_scalar

theorem expression_eq_leftChain {strength : Nat} (h : isBinary strength = true) (rule : String) :
    expression deeper strength rule = leftChain (expression deeper (strength + 1) rule)
      (operatorAt strength) (expression deeper (strength + 1) (operandRule rule strength)) := by
  rcases isBinary_cases h with rfl | rfl | rfl | rfl <;> rfl

/-- **An operator of another strength is left alone.** -/
theorem operatorAt_miss {strength : Nat} (hbinary : isBinary strength = true) (h : s.Ahead env ws)
    (hstop : Stops strength (headKind ws)) :
    Runs env (operatorAt strength) s fun combine t => combine = none ∧ t = s := by
  have hconnective : ∀ word which, headKind ws ≠ .keyword word →
      Runs env (connective word which) s fun combine t => combine = none ∧ t = s := by
    intro word which hne
    refine Runs.bind (Reads.consume_miss h hne) ?_
    rintro _ _ ⟨rfl, rfl⟩
    exact Runs.pure ⟨rfl, rfl⟩
  have htwo : ∀ {first second : TokenKind} {a b : NodeId → NodeId → NodeKind},
      headKind ws ≠ first → headKind ws ≠ second → Runs env (do
        if ← consume first then return some a
        else if ← consume second then return some b
        else return none) s fun combine t => combine = none ∧ t = s := by
    intro first second a b hfirst hsecond
    refine Runs.bind (Reads.consume_miss h hfirst) ?_
    rintro _ _ ⟨rfl, rfl⟩
    refine Runs.bind (Reads.consume_miss h hsecond) ?_
    rintro _ _ ⟨rfl, rfl⟩
    exact Runs.pure ⟨rfl, rfl⟩
  rcases isBinary_cases hbinary with rfl | rfl | rfl | rfl
  · exact hconnective _ _ (hstop.ne rfl (Nat.le_refl _))
  · exact hconnective _ _ (hstop.ne rfl (Nat.le_refl _))
  · exact htwo (hstop.ne rfl (Nat.le_refl _)) (hstop.ne rfl (Nat.le_refl _))
  · exact htwo (hstop.ne rfl (Nat.le_refl _)) (hstop.ne rfl (Nat.le_refl _))

/-! ## The end of a simple condition -/

theorem comparison?_eq_none {kind : TokenKind} (h : Stops 3 kind) : comparison? kind = none := by
  unfold comparison?
  split
  all_goals first | rfl | exact absurd (h 3 rfl) (Nat.lt_irrefl 3)

theorem atNegatedWord_eq_false (h : s.Ahead env ws) (hstop : Stops 3 (headKind ws)) :
    atNegatedWord (s.stream env) = false := by
  rw [atNegatedWord, TokenStream.checkKeyword, h.kind,
    TokenKind.isKeyword_eq_false (hstop.ne rfl (Nat.le_refl 3)), Bool.false_and]

theorem conditionRest?_end (h : s.Ahead env ws) (hstop : Stops 3 (headKind ws)) (left : NodeId)
    (negated : Bool) : Runs env (conditionRest? deeper left negated) s fun kind? t =>
      kind? = none ∧ t = s := by
  refine (Runs.look _ s).bind ?_
  rintro _ _ ⟨rfl, rfl⟩
  rw [h.kind]
  split
  all_goals first
    | exact absurd ‹_› (hstop.ne rfl (Nat.le_refl 3))
    | exact Runs.pure ⟨rfl, rfl⟩

/-- **An operand alone is a simple condition**, if the token behind it starts no comparison. -/
theorem Reads.simpleCondition_end {rule : String} {post : NodeId → Draft → Prop}
    (h : Reads env (operand deeper rule) s rest post) (hstop : Stops 3 (headKind rest)) :
    Reads env (simpleCondition deeper rule) s rest post := by
  refine h.bind fun left t ht hleft => startOf_bind fun start => look_bind ?_
  rw [ht.ahead.kind, comparison?_eq_none hstop]
  refine look_bind ?_
  rw [atNegatedWord_eq_false ht.ahead hstop]
  refine Runs.bind (conditionRest?_end ht.ahead hstop left false) ?_
  rintro _ _ ⟨rfl, rfl⟩
  exact Reads.pure ht.ahead hleft

/-! ## Names alone -/

/-- **What starts with a name is read by the reader of every strength**, if the token behind it continues
nothing. -/
theorem Reads.of_primary {name : Name} {strength : Nat} (hle : strength ≤ 7) {rule : String}
    {post : NodeId → Draft → Prop} (hs : s.Ahead env (Lexeme.name name :: ws))
    (h : Reads env (Parse.primary deeper rule) s rest post) (hstop : Stops strength (headKind rest)) :
    Reads env (expression deeper strength rule) s rest post := by
  induction hle using Nat.decreasingInduction with
  | self => exact h
  | of_succ strength hlt ih =>
    have hread := ih (hstop.mono (Nat.le_succ strength))
    by_cases hbinary : isBinary strength = true
    · rw [expression_eq_leftChain hbinary]
      refine hread.bind fun left t ht hleft => startOf_bind fun start => read_bind ?_
      refine loop_done _ ?_ ht.ahead hleft
      refine Runs.bind (operatorAt_miss hbinary ht.ahead hstop) ?_
      rintro _ _ ⟨rfl, rfl⟩
      exact Runs.pure ⟨rfl, rfl⟩
    · match strength, hlt, hbinary with
      | 2, _, _ =>
        refine look_bind ?_
        rw [TokenStream.checkKeyword, hs.kind]
        exact hread
      | 3, _, _ => exact hread.simpleCondition_end hstop
      | 6, _, _ =>
        refine look_bind ?_
        rw [hs.kind]
        exact hread

end Parse

end Jpql
