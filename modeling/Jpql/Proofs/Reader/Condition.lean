import Jpql.Parse.Condition
import Jpql.Proofs.Reader.Primary
import Jpql.Proofs.Reader.Run

/-! # What the readers of operands and conditions guarantee

One lemma for each reader of the ladder from factors to disjunctions: it yields an expression of the
strength that belongs to it. -/

namespace Jpql.Parse

variable {env : Env} {deeper : Deeper} {rule : String}

/-! ## Operands -/

theorem combines_arithmetic_product (operator : Arithmetic)
    (h : operator = .multiply ∨ operator = .divide) : Combines (.arithmetic operator) 5 6 := by
  rcases h with rfl | rfl <;> exact ⟨fun _ _ => rfl, fun _ _ => rfl, fun _ _ => rfl, fun _ _ => rfl⟩

theorem combines_arithmetic_sum (operator : Arithmetic)
    (h : operator = .add ∨ operator = .subtract) : Combines (.arithmetic operator) 4 5 := by
  rcases h with rfl | rfl <;> exact ⟨fun _ _ => rfl, fun _ _ => rfl, fun _ _ => rfl, fun _ _ => rfl⟩

theorem factor_yields (hd : deeper.Sound env) (hrule : (env.grammar.rule? rule).isSome = true) :
    Yields env (factor deeper rule) (.expression 6) := by
  intro draft loose hs
  refine (Silent.look _).andThen fun kind => ?_
  split
  · exact hd.yields (.sign true) trivial draft loose hs
  · exact hd.yields (.sign false) trivial draft loose hs
  · exact (primary_yields hd hrule).weaken (by omega) draft loose hs

theorem productOperator_writes (draft : Draft) :
    Writes env productOperator draft fun combine d =>
      d = draft ∧ ∀ c ∈ combine, Combines c 5 6 := by
  refine (Silent.consume .star).andThen fun star => ?_
  split
  · exact .pure ⟨rfl, by rintro _ ⟨⟩; exact combines_arithmetic_product _ (.inl rfl)⟩
  · refine (Silent.consume .slash).andThen fun slash => ?_
    split
    · exact .pure ⟨rfl, by rintro _ ⟨⟩; exact combines_arithmetic_product _ (.inr rfl)⟩
    · exact .pure ⟨rfl, by rintro _ ⟨⟩⟩

theorem sumOperator_writes (draft : Draft) :
    Writes env sumOperator draft fun combine d => d = draft ∧ ∀ c ∈ combine, Combines c 4 5 := by
  refine (Silent.consume .plus).andThen fun plus => ?_
  split
  · exact .pure ⟨rfl, by rintro _ ⟨⟩; exact combines_arithmetic_sum _ (.inl rfl)⟩
  · refine (Silent.consume .minus).andThen fun minus => ?_
    split
    · exact .pure ⟨rfl, by rintro _ ⟨⟩; exact combines_arithmetic_sum _ (.inr rfl)⟩
    · exact .pure ⟨rfl, by rintro _ ⟨⟩⟩

theorem term_yields (hd : deeper.Sound env) (hrule : (env.grammar.rule? rule).isSome = true) :
    Yields env (term deeper rule) (.expression 5) :=
  leftChain_yields (by omega) (factor_yields hd hrule)
    (factor_yields hd (hd.rule (Grammar.standard_registers (by simp)))) productOperator_writes

/-- **An operand binds at least as tightly as a sum.** -/
theorem operand_yields (hd : deeper.Sound env) (hrule : (env.grammar.rule? rule).isSome = true) :
    Yields env (operand deeper rule) (.expression 4) :=
  leftChain_yields (by omega) (term_yields hd hrule)
    (term_yields hd (hd.rule (Grammar.standard_registers (by simp)))) sumOperator_writes

theorem scalar_yields (hd : deeper.Sound env) : Yields env (scalar deeper) (.expression 4) :=
  operand_yields hd (hd.rule (Grammar.standard_registers (by simp)))

theorem signed_yields (hd : deeper.Sound env) (negative : Bool) :
    Yields env (signed deeper negative) (.expression 6) := by
  intro draft loose hs
  refine (Silent.look _).andThen fun start => Silent.advance.andThen fun _ => ?_
  have hrule : (Grammar.standard.rule? RuleId.scalar).isSome = true :=
    Grammar.standard_registers (by simp)
  refine (factor_yields hd (hd.rule hrule) draft loose hs).bind fun id d hg => ?_
  exact hg.pushFrom_writes (.sign negative id) start rfl fun _ => .of_plain rfl rfl

/-! ## Simple conditions -/

theorem inItem_yields (hd : deeper.Sound env) (ofTypes : Bool) :
    Yields env (inItem deeper ofTypes) (.expression 4) := by
  intro draft loose hs
  have hrule : (Grammar.standard.rule? RuleId.inItem).isSome = true :=
      Grammar.standard_registers (by simp)
  have hoperand := operand_yields hd (hd.rule hrule) draft loose hs
  refine (Silent.look _).andThen fun name? => ?_
  split
  · split
    · exact entityType_yields _ rfl draft loose hs
    · exact hoperand
  · exact hoperand

/-- One node is a list of one. -/
theorem Yields.singleton {p : Parser NodeId} {slot : Slot} (h : Yields env p slot) :
    YieldsAll env (do return [← p]) slot :=
  fun draft loose hs => (h draft loose hs).bind fun _ _ hg => .pure ⟨hg, by simp⟩

theorem inItems_yields (hd : deeper.Sound env) (left : Nat) :
    YieldsAll env (inItems deeper left) (.expression 4) := by
  intro draft loose hs
  refine (Silent.look _).andThen fun kind => ?_
  have hparameter : YieldsAll env (do return [← primary deeper RuleId.inItem]) (.expression 4) :=
    ((primary_yields hd (hd.rule (Grammar.standard_registers (by simp)))).weaken (by omega)).singleton
  split
  · exact hparameter draft loose hs
  · exact hparameter draft loose hs
  refine (expect_writes .leftParen (.refl hs)).bind ?_
  rintro found d ⟨hopen, -⟩
  cases found with
  | false => exact (missing_yields "IN items" rfl).singleton.after hopen
  | true =>
    refine (Silent.atKeyword .select).andThen fun isSubquery => ?_
    split
    · have hsubquery : Yields env (deeper .subquery) (.expression 4) :=
        (hd.yields .subquery trivial).weaken (by decide)
      refine (hsubquery.after hopen).bind fun subquery e he => ?_
      exact (discard_expect_writes .rightParen he).bind fun _ f hf => .pure ⟨hf.1, by simp⟩
    · refine (Silent.kindOf left).andThen fun kind => ?_
      refine ((separated_yields (inItem_yields hd _)).after hopen).bind ?_
      rintro items e ⟨he, hne⟩
      exact (discard_expect_writes .rightParen he).bind fun _ f hf => .pure ⟨hf.1, hne⟩

/-- What follows the first operand of a simple condition makes a node of it, whose last child may be
read as a collection. -/
theorem isCheck_writes {before draft : Draft} {loose : List Nat} {left : Nat}
    (h : before.Gains draft loose [(left, .expression 4)]) :
    Writes env (isCheck left) draft fun kind d => before.Gains d loose kind.slots ∧
      (Slot.expression 3).admits kind = true ∧ kind.isWhole = true ∧ kind.argument? = none := by
  refine (Silent.consumeKeyword .not).andThen fun negated => ?_
  refine (Silent.consumeKeyword .empty).andThen fun isEmpty => ?_
  split
  · refine (Writes.asCollection left).bind ?_
    rintro - _ rfl
    have hc : before.Gains (draft.asCollection left) loose ([] ++ [(left, .collection 4)]) :=
      Draft.Gains.asCollection h
    exact .pure ⟨hc, rfl, rfl, rfl⟩
  · refine (Silent.consumeKeyword .null).andThen fun isNull => ?_
    split
    · refine (Writes.recordHere _ _).bind ?_
      rintro - _ ⟨problem, rfl⟩
      exact .pure ⟨h.record problem, rfl, rfl, rfl⟩
    · exact .pure ⟨h, rfl, rfl, rfl⟩

theorem conditionRest?_writes (hd : deeper.Sound env) {before draft : Draft} {loose : List Nat}
    {left : Nat} (negated : Bool) (h : before.Gains draft loose [(left, .expression 4)]) :
    Writes env (conditionRest? deeper left negated) draft fun kind? d =>
      (kind? = none ∧ d = draft) ∨ ∃ kind, kind? = some kind ∧ before.Gains d loose kind.slots ∧
        (Slot.expression 3).admits kind = true ∧ kind.isWhole = true ∧ kind.argument? = none := by
  have hscalar := scalar_yields hd
  refine (Silent.look _).andThen fun word => ?_
  split
  · refine Silent.advance.andThen fun _ => (hscalar.after h).bind fun lower d hlower => ?_
    refine (expectKeyword_writes .and hlower).bind fun _ e hand => ?_
    refine (hscalar.after hand).bind fun upper f hupper => ?_
    exact .pure (.inr ⟨.between left negated lower upper, rfl, hupper, rfl, rfl, rfl⟩)
  · refine Silent.advance.andThen fun _ => (hscalar.after h).bind fun pattern d hpattern => ?_
    refine (Silent.consumeKeyword .escape).andThen fun hasEscape => ?_
    split
    · refine (hscalar.after hpattern).bind fun escape e hescape => ?_
      exact .pure (.inr ⟨.like left negated pattern (some escape), rfl, hescape, rfl, rfl, rfl⟩)
    · exact .pure (.inr ⟨.like left negated pattern none, rfl, hpattern, rfl, rfl, rfl⟩)
  · refine Silent.advance.andThen fun _ => ((inItems_yields hd left).after h).bind ?_
    rintro items d ⟨hitems, hne⟩
    refine .pure (.inr ⟨.inList left negated items, rfl, hitems, rfl, ?_, rfl⟩)
    simpa [NodeKind.isWhole] using hne
  · refine Silent.advance.andThen fun _ => (Silent.consumeKeyword .of).andThen fun hasOf => ?_
    have hpath : Yields env (operand deeper RuleId.path) (.expression 4) :=
      operand_yields hd (hd.rule (Grammar.standard_registers (by simp)))
    refine (hpath.after h).bind fun collection d hcollection => ?_
    refine (Writes.asCollection collection).bind ?_
    rintro - _ rfl
    exact .pure (.inr ⟨.member left negated hasOf collection, rfl, hcollection.asCollection,
      rfl, rfl, rfl⟩)
  · refine Silent.advance.andThen fun _ => (isCheck_writes h).bind fun kind d hk => ?_
    exact .pure (.inr ⟨kind, rfl, hk⟩)
  · exact .pure (.inl ⟨rfl, rfl⟩)

/-- **A simple condition binds more tightly than `NOT`.** -/
theorem simpleCondition_yields (hd : deeper.Sound env)
    (hrule : (env.grammar.rule? rule).isSome = true) :
    Yields env (simpleCondition deeper rule) (.expression 3) := by
  intro draft loose hs
  refine (operand_yields hd hrule draft loose hs).bind fun left d hleft => ?_
  refine (Silent.startOf left).andThen fun start => (Silent.look _).andThen fun operator? => ?_
  split
  · next operator =>
    have hright : Yields env (operand deeper RuleId.comparisonRight) (.expression 4) :=
      operand_yields hd (hd.rule (Grammar.standard_registers (by simp)))
    refine Silent.advance.andThen fun _ => (hright.after hleft).bind fun right e hr => ?_
    exact hr.pushFrom_writes (.comparison left operator right) start rfl fun _ =>
      .of_plain rfl rfl
  · refine (Silent.look _).andThen fun negated => ?_
    have hrest : Writes env (conditionRest deeper left start negated) d fun id e =>
        draft.Gains e loose [(id, .expression 3)] := by
      refine (conditionRest?_writes hd negated hleft).bind ?_
      rintro kind? e (⟨rfl, rfl⟩ | ⟨kind, rfl, hk, hadmits, hwhole, harg⟩)
      · exact .pure (hleft.weaken (by omega))
      · exact hk.pushFrom_writes kind start hadmits fun _ => .of_plain hwhole harg
    split
    · exact Silent.advance.andThen fun _ => hrest
    · exact hrest

/-! ## Connectives -/

theorem negatable_yields (hd : deeper.Sound env)
    (hrule : (env.grammar.rule? rule).isSome = true) :
    Yields env (negatable deeper rule) (.expression 2) := by
  intro draft loose hs
  refine (Silent.atKeyword .not).andThen fun negated => ?_
  split
  · exact hd.yields (.negation rule) hrule draft loose hs
  · exact (simpleCondition_yields hd hrule).weaken (by omega) draft loose hs

theorem connective_writes (word : Keyword) (operator : Connective) {low high : Nat}
    (h : Combines (.logical operator) low high) (draft : Draft) :
    Writes env (connective word operator) draft fun combine d =>
      d = draft ∧ ∀ c ∈ combine, Combines c low high := by
  refine (Silent.consumeKeyword word).andThen fun found => ?_
  split
  · exact .pure ⟨rfl, by rintro _ ⟨⟩; exact h⟩
  · exact .pure ⟨rfl, by rintro _ ⟨⟩⟩

theorem conjunction_yields (hd : deeper.Sound env)
    (hrule : (env.grammar.rule? rule).isSome = true) :
    Yields env (conjunction deeper rule) (.expression 1) :=
  leftChain_yields (by omega) (negatable_yields hd hrule) (negatable_yields hd hrule)
    (connective_writes .and .and ⟨fun _ _ => rfl, fun _ _ => rfl, fun _ _ => rfl, fun _ _ => rfl⟩)

/-- **A disjunction may bind as loosely as `OR`.** -/
theorem disjunction_yields (hd : deeper.Sound env)
    (hrule : (env.grammar.rule? rule).isSome = true) :
    Yields env (disjunction deeper rule) (.expression 0) :=
  leftChain_yields (by omega) (conjunction_yields hd hrule) (conjunction_yields hd hrule)
    (connective_writes .or .or ⟨fun _ _ => rfl, fun _ _ => rfl, fun _ _ => rfl, fun _ _ => rfl⟩)

theorem condition_yields (hd : deeper.Sound env) :
    Yields env (condition deeper) (.expression 0) :=
  disjunction_yields hd (hd.rule (Grammar.standard_registers (by simp)))

end Jpql.Parse
