import Jpql.Parse.Query
import Jpql.Proofs.Reader.Keep

/-! # What the readers of a level keep

Given readers of names and of nested constructs that keep a property of states (`Conserved.Reads`), the
readers of operands, conditions, declarations, clauses and calls keep it, since they take none but the
basic steps themselves. -/

namespace Jpql.Parse.Conserved

variable {env : Env} {inv : State → Prop} {known : NodeId → Prop}

/-- **The readers of names and of nested constructs keep the property.** -/
structure Reads (env : Env) (inv : State → Prop) (known : NodeId → Prop) (deeper : Deeper) : Prop where
  path : Keeps env inv pathOrVariable known
  target : Keeps env inv updateTarget known
  nested : ∀ construct, Keeps env inv (deeper construct) known

variable (C : Conserved env inv known) {deeper : Deeper} (hd : Reads env inv known deeper)

include C hd

/-! ## Operands -/

theorem build (construct : Construct) : Keeps env inv (build deeper construct) known := by
  cases construct
  case path => exact hd.path
  case updateStatement | deleteStatement => exact C.unknownToken
  case number => exact .look fun _ => C.leaf rfl rfl
  case wordLiteral => exact .look fun _ => C.leaf rfl rfl
  case moment => exact .look fun _ => C.leaf rfl rfl
  case string => exact .look fun kind => by split <;> exact C.leaf rfl rfl
  case parameter =>
    refine .look fun kind => ?_
    split
    · exact C.leaf rfl rfl
    · exact C.leaf rfl rfl
    · exact C.unknownToken
  all_goals exact hd.nested _

theorem primary (rule : String) : Keeps env inv (primary deeper rule) known := by
  refine .look fun trigger? => ?_
  cases trigger? with
  | none => exact C.missing rule
  | some trigger =>
    refine .dispatch fun construct? => ?_
    cases construct? with
    | some construct => exact C.build hd construct
    | none =>
      cases trigger with
      | keyword word =>
        refine .read ?_
        cases env.grammar.forKeyword? word with
        | none => exact C.missing rule
        | some construct =>
          refine .look fun problem => (C.build hd construct).bind fun id hid => ?_
          exact (C.record _).bind fun _ _ => .pure hid
      | _ => exact C.unknownToken

theorem factor (rule : String) : Keeps env inv (factor deeper rule) known := by
  refine .look fun kind => ?_
  split
  · exact hd.nested _
  · exact hd.nested _
  · exact C.primary hd rule

omit C hd in
theorem joins_none : Joins known none := by simp [Joins]

omit C hd in
theorem joins_arithmetic (operation : Arithmetic) : Joins known (some (.arithmetic operation)) := by
  rintro _ ⟨⟩ left right hleft hright
  exact ⟨rfl, by simp [NodeKind.children, hleft, hright]⟩

omit hd in
theorem productOperator : Keeps env inv productOperator (Joins known) := by
  refine (C.consume .star).bind fun star _ => ?_
  split
  · exact .pure (joins_arithmetic _)
  · refine (C.consume .slash).bind fun slash _ => ?_
    split
    · exact .pure (joins_arithmetic _)
    · exact .pure joins_none

omit hd in
theorem sumOperator : Keeps env inv sumOperator (Joins known) := by
  refine (C.consume .plus).bind fun plus _ => ?_
  split
  · exact .pure (joins_arithmetic _)
  · refine (C.consume .minus).bind fun minus _ => ?_
    split
    · exact .pure (joins_arithmetic _)
    · exact .pure joins_none

theorem term (rule : String) : Keeps env inv (term deeper rule) known :=
  C.leftChain (C.factor hd rule) C.productOperator (C.factor hd _)

theorem operand (rule : String) : Keeps env inv (operand deeper rule) known :=
  C.leftChain (C.term hd rule) C.sumOperator (C.term hd _)

theorem scalar : Keeps env inv (scalar deeper) known := C.operand hd _

theorem signed (negative : Bool) : Keeps env inv (signed deeper negative) known :=
  .look fun start => C.advance.bind fun _ _ => (C.factor hd _).bind fun id hid =>
    C.pushFrom ⟨rfl, by simpa [NodeKind.children] using hid⟩ start

/-! ## Conditions -/

theorem inItem (ofTypes : Bool) : Keeps env inv (inItem deeper ofTypes) known := by
  refine .look fun name? => ?_
  cases name? with
  | none => exact C.operand hd _
  | some name =>
    cases ofTypes with
    | true => exact C.entityType name
    | false => exact C.operand hd _

theorem inItems (left : NodeId) : Keeps env inv (inItems deeper left) (AllKnown known) := by
  refine .look fun kind => ?_
  split
  · exact (C.primary hd _).bind fun id hid => .pure (allKnown_singleton hid)
  · exact (C.primary hd _).bind fun id hid => .pure (allKnown_singleton hid)
  refine (C.expect .leftParen).bind fun found _ => ?_
  cases found with
  | false => exact (C.missing _).bind fun id hid => .pure (allKnown_singleton hid)
  | true =>
    refine (atKeyword .select).bind fun isSubquery _ => ?_
    cases isSubquery with
    | true =>
      refine (hd.nested _).bind fun id hid => (C.discard_expect _).bind fun _ _ => ?_
      exact .pure (allKnown_singleton hid)
    | false =>
      exact .kindOf fun kind => (C.separated (C.inItem hd _)).bind fun items hitems =>
        (C.discard_expect _).bind fun _ _ => .pure hitems

omit hd in
theorem isCheck {left : NodeId} (hleft : known left) :
    Keeps env inv (isCheck left) (NodeKind.Over known) := by
  refine (C.consumeKeyword .not).bind fun negated _ => (C.consumeKeyword .empty).bind fun isEmpty _ => ?_
  cases isEmpty with
  | true =>
    refine (C.asCollection left).bind fun _ _ => .pure ⟨rfl, ?_⟩
    simpa [NodeKind.children] using hleft
  | false =>
    refine (C.consumeKeyword .null).bind fun isNull _ => ?_
    have hcheck : (NodeKind.nullCheck left negated).Over known :=
      ⟨rfl, by simpa [NodeKind.children] using hleft⟩
    cases isNull with
    | true => exact .pure hcheck
    | false => exact (C.recordHere _ _).bind fun _ _ => .pure hcheck

/-- What a condition becomes, if it becomes anything, is over known nodes. -/
def MayMake (known : NodeId → Prop) (kind? : Option NodeKind) : Prop :=
  ∀ kind ∈ kind?, kind.Over known

omit C hd in
theorem mayMake_some {kind : NodeKind} (hkind : kind.isContextFree = true)
    (hchildren : ∀ child ∈ kind.children, known child) : MayMake known (some kind) := by
  rintro _ ⟨⟩
  exact ⟨hkind, hchildren⟩

theorem conditionRest? {left : NodeId} (hleft : known left) (negated : Bool) :
    Keeps env inv (conditionRest? deeper left negated) (MayMake known) := by
  have hscalar := C.scalar hd
  refine .look fun kind => ?_
  split
  · refine C.advance.bind fun _ _ => hscalar.bind fun lower hlower => ?_
    refine (C.expectKeyword .and).bind fun _ _ => hscalar.bind fun upper hupper => ?_
    exact .pure (mayMake_some rfl (by simp [NodeKind.children, hleft, hlower, hupper]))
  · refine C.advance.bind fun _ _ => hscalar.bind fun pattern hpattern => ?_
    refine (C.consumeKeyword .escape).bind fun hasEscape _ => ?_
    cases hasEscape with
    | true =>
      refine hscalar.bind fun escape hescape => .pure (mayMake_some rfl ?_)
      simp [NodeKind.children, hleft, hpattern, hescape]
    | false => exact .pure (mayMake_some rfl (by simp [NodeKind.children, hleft, hpattern]))
  · refine C.advance.bind fun _ _ => (C.inItems hd left).bind fun items hitems => ?_
    exact .pure (mayMake_some rfl (by simpa [NodeKind.children, hleft, AllKnown] using hitems))
  · refine C.advance.bind fun _ _ => (C.consumeKeyword .of).bind fun hasOf _ => ?_
    refine (C.operand hd _).bind fun collection hcollection => (C.asCollection _).bind fun _ _ => ?_
    exact .pure (mayMake_some rfl (by simp [NodeKind.children, hleft, hcollection]))
  · refine C.advance.bind fun _ _ => (C.isCheck hleft).bind fun kind hkind => ?_
    exact .pure (mayMake_some hkind.1 hkind.2)
  · exact .pure (by simp [MayMake])

theorem simpleCondition (rule : String) : Keeps env inv (simpleCondition deeper rule) known := by
  refine (C.operand hd rule).bind fun left hleft => .startOf fun start => .look fun operator? => ?_
  cases operator? with
  | some operator =>
    refine C.advance.bind fun _ _ => (C.operand hd _).bind fun right hright => ?_
    exact C.pushFrom ⟨rfl, by simp [NodeKind.children, hleft, hright]⟩ start
  | none =>
    have hrest : ∀ negated, Keeps env inv (conditionRest deeper left start negated) known := by
      refine fun negated => (C.conditionRest? hd hleft negated).bind fun kind? hkind => ?_
      cases kind? with
      | none => exact .pure hleft
      | some kind => exact C.pushFrom (hkind kind rfl) start
    refine .look fun negated => ?_
    cases negated with
    | true => exact C.advance.bind fun _ _ => hrest true
    | false => exact hrest false

theorem negatable (rule : String) : Keeps env inv (negatable deeper rule) known := by
  refine (atKeyword .not).bind fun isNegated _ => ?_
  cases isNegated with
  | true => exact hd.nested _
  | false => exact C.simpleCondition hd rule

omit hd in
theorem connective (word : Keyword) (connective : Connective) :
    Keeps env inv (Parse.connective word connective) (Joins known) := by
  refine (C.consumeKeyword word).bind fun found _ => ?_
  cases found with
  | false => exact .pure joins_none
  | true =>
    refine .pure ?_
    rintro _ ⟨⟩ left right hleft hright
    exact ⟨rfl, by simp [NodeKind.children, hleft, hright]⟩

theorem conjunction (rule : String) : Keeps env inv (conjunction deeper rule) known :=
  C.leftChain (C.negatable hd rule) (C.connective _ _) (C.negatable hd rule)

/-- **A condition keeps the property.** -/
theorem disjunction (rule : String) : Keeps env inv (disjunction deeper rule) known :=
  C.leftChain (C.conjunction hd rule) (C.connective _ _) (C.conjunction hd rule)

theorem condition : Keeps env inv (condition deeper) known := C.disjunction hd _

/-! ## Declarations -/

omit hd in
theorem rangeRoot : Keeps env inv rangeRoot fun root => known root.1 := by
  refine .look fun name? => ?_
  cases name? with
  | none => exact (C.missing _).bind fun id hid => .pure hid
  | some name =>
    refine .look fun span => C.advance.bind fun _ _ => .look fun atDot => ?_
    cases atDot with
    | true =>
      refine (C.pushVariable name span).bind fun root hroot => C.segments.bind fun segments _ => ?_
      exact (C.pushPath _ hroot _ _ _).bind fun id hid => .pure hid
    | false => exact (C.pushLeaf rfl rfl span).bind fun id hid => .pure hid

omit hd in
theorem pushRange {root : NodeId} {declared : Option NodeId} (hroot : known root)
    (hdeclared : AllKnown known declared) (hasAs : Bool) (start : Nat) :
    Keeps env inv (Parse.pushFrom (.rangeDeclaration root hasAs declared) start) known :=
  C.pushFrom ⟨rfl, by simpa [NodeKind.children, AllKnown, hroot] using hdeclared⟩ start

omit hd in
/-- A range that has to declare its variable. -/
theorem rangeDeclaration : Keeps env inv (rangeDeclaration false) known := by
  refine .look fun start => C.rangeRoot.bind fun root hroot => ?_
  refine (C.consumeKeyword .as).bind fun hasAs _ => ?_
  refine C.declaredVariable?.bind fun declared? hdeclared => ?_
  have hnone : Keeps env inv (do
      let declared ← Parse.missingVariable *> pure none
      Parse.pushFrom (.rangeDeclaration root.1 hasAs declared) start) known :=
    (C.missingVariable.seqRight (.pure allKnown_none)).bind fun _ hnone =>
      C.pushRange hroot hnone _ _
  cases declared? with
  | some declared => exact C.pushRange hroot hdeclared _ _
  | none => cases h : root.2 <;> simpa [h] using hnone

omit hd in
theorem joinType : Keeps env inv joinType fun _ => True := by
  refine (C.consumeKeyword .left).bind fun isLeft _ => ?_
  cases isLeft with
  | true =>
    refine (C.consumeKeyword .outer).bind fun isOuter _ => ?_
    cases isOuter <;> exact .pure trivial
  | false =>
    refine (C.consumeKeyword .inner).bind fun isInner _ => ?_
    cases isInner <;> exact .pure trivial

theorem collectionDeclaration : Keeps env inv (collectionDeclaration deeper) known := by
  refine .look fun start => C.advance.bind fun _ _ => (C.discard_expect _).bind fun _ _ => ?_
  refine (C.primary hd _).bind fun path hpath => (C.asCollection path).bind fun _ _ => ?_
  refine (C.discard_expect _).bind fun _ _ => (C.consumeKeyword .as).bind fun hasAs _ => ?_
  refine C.declaredVariable?.bind fun declared hdeclared => ?_
  have hlast : Keeps env inv (Parse.pushFrom (.collectionDeclaration path hasAs declared) start) known :=
    C.pushFrom ⟨rfl, by simpa [NodeKind.children, AllKnown, hpath] using hdeclared⟩ start
  dsimp only
  split
  · exact C.missingVariable.bind fun _ _ => hlast
  · exact hlast

theorem onClause? : Keeps env inv (onClause? deeper) (AllKnown known) := by
  refine (atKeyword .on).bind fun isOn _ => ?_
  cases isOn with
  | false => exact .pure allKnown_none
  | true =>
    refine .look fun start => C.advance.bind fun _ _ => ?_
    refine (C.condition hd).bind fun condition hcondition => ?_
    refine (C.pushFrom ⟨rfl, ?_⟩ start).bind fun id hid => .pure (allKnown_some hid)
    simpa [NodeKind.children] using hcondition

theorem join : Keeps env inv (join deeper) known := by
  refine .look fun start => C.joinType.bind fun type _ => (C.expectKeyword .join).bind fun _ _ => ?_
  refine (C.consumeKeyword .fetch).bind fun fetch _ => (C.primary hd _).bind fun path hpath => ?_
  have hvariable : Keeps env inv (do
      let hasAs ← Parse.consumeKeyword .as
      let declared ← Parse.declaredVariable?
      if declared.isNone && (hasAs || !fetch) then Parse.missingVariable
      let on ← Parse.onClause? deeper
      Parse.pushFrom (.join type fetch path hasAs declared on) start) known := by
    refine (C.consumeKeyword .as).bind fun hasAs _ => ?_
    refine C.declaredVariable?.bind fun declared hdeclared => ?_
    have hlast : Keeps env inv (do
        let on ← Parse.onClause? deeper
        Parse.pushFrom (.join type fetch path hasAs declared on) start) known := by
      refine (C.onClause? hd).bind fun on hon => C.pushFrom ⟨rfl, fun child hc => ?_⟩ start
      simp only [NodeKind.children, List.mem_cons, List.mem_append, Option.mem_toList] at hc
      rcases hc with rfl | hc | hc
      · exact hpath
      · exact hdeclared child hc
      · exact hon child hc
    dsimp only
    split
    · exact C.missingVariable.bind fun _ _ => hlast
    · exact hlast
  refine .kindOf fun kind => ?_
  split
  · exact (C.asCollection _).bind fun _ _ => hvariable
  · exact (C.asCollection _).bind fun _ _ => hvariable

theorem declaration : Keeps env inv (declaration deeper) known := by
  refine (atKeyword .in).bind fun isIn _ => ?_
  cases isIn with
  | true => exact C.collectionDeclaration hd
  | false =>
    refine .look fun start => C.rangeDeclaration.bind fun range hrange => ?_
    have hatJoin : Keeps env inv (Parse.look atJoin) fun _ => True := by
      rintro s hs _ _ ⟨⟩
      exact ⟨hs, trivial⟩
    refine (Keeps.loop_items hatJoin (C.join hd) allKnown_nil).bind fun joins hjoins => ?_
    exact C.pushFrom ⟨rfl, by simpa [NodeKind.children, hrange] using hjoins⟩ start

/-! ## Clauses -/

theorem selectItem : Keeps env inv (selectItem deeper) known := by
  refine (C.operand hd _).bind fun expression hexpression => .startOf fun start => ?_
  refine (C.consumeKeyword .as).bind fun hasAs _ => .look fun named => ?_
  have hlast : ∀ declared, known declared →
      Keeps env inv (Parse.pushFrom (.resultVariable expression hasAs declared) start) known :=
    fun declared hdeclared =>
      C.pushFrom ⟨rfl, by simp [NodeKind.children, hexpression, hdeclared]⟩ start
  dsimp only
  split
  · exact .pure hexpression
  · refine C.declaredVariable?.bind fun declared? hdeclared => ?_
    cases declared? with
    | some declared => exact hlast declared (hdeclared declared rfl)
    | none => exact (C.missing _).bind hlast

theorem selectClause (simple : Bool) : Keeps env inv (selectClause deeper simple) known := by
  refine .look fun start => (C.expectKeyword .select).bind fun _ _ => ?_
  refine (C.consumeKeyword .distinct).bind fun distinct _ => ?_
  cases simple with
  | true =>
    refine (C.separated (C.operand hd _)).bind fun items hitems => ?_
    have hkind : (NodeKind.simpleSelectClause distinct items).Over known := ⟨rfl, hitems⟩
    exact C.pushFrom hkind start
  | false =>
    refine (C.separated (C.selectItem hd)).bind fun items hitems => ?_
    have hkind : (NodeKind.selectClause distinct items).Over known := ⟨rfl, hitems⟩
    exact C.pushFrom hkind start

theorem fromClause? (simple : Bool) : Keeps env inv (fromClause? deeper simple) (AllKnown known) := by
  refine .look fun start => (C.consumeKeyword .from).bind fun found _ => ?_
  cases found with
  | false => exact (C.missingClause _).bind fun _ _ => .pure allKnown_none
  | true =>
    refine (C.separated (C.declaration hd)).bind fun declarations hdeclarations => ?_
    cases simple with
    | true =>
      have hkind : (NodeKind.simpleFromClause declarations).Over known := ⟨rfl, hdeclarations⟩
      exact (C.pushFrom hkind start).bind fun id hid => .pure (allKnown_some hid)
    | false =>
      have hkind : (NodeKind.fromClause declarations).Over known := ⟨rfl, hdeclarations⟩
      exact (C.pushFrom hkind start).bind fun id hid => .pure (allKnown_some hid)

theorem conditionClause? (word : Keyword) {kind : NodeId → NodeKind}
    (hkind : ∀ id, known id → (kind id).Over known) :
    Keeps env inv (conditionClause? deeper word kind) (AllKnown known) := by
  refine .look fun start => (C.consumeKeyword word).bind fun found _ => ?_
  cases found with
  | false => exact .pure allKnown_none
  | true =>
    refine (C.condition hd).bind fun condition hcondition => ?_
    exact (C.pushFrom (hkind condition hcondition) start).bind fun id hid => .pure (allKnown_some hid)

theorem whereClause? : Keeps env inv (whereClause? deeper) (AllKnown known) :=
  C.conditionClause? hd _ fun id hid => ⟨rfl, by simpa [NodeKind.children] using hid⟩

theorem havingClause? : Keeps env inv (havingClause? deeper) (AllKnown known) :=
  C.conditionClause? hd _ fun id hid => ⟨rfl, by simpa [NodeKind.children] using hid⟩

theorem groupByClause? : Keeps env inv (groupByClause? deeper) (AllKnown known) := by
  refine .look fun start => (C.consumeKeyword .group).bind fun found _ => ?_
  cases found with
  | false => exact .pure allKnown_none
  | true =>
    refine (C.expectKeyword .by).bind fun _ _ => ?_
    refine (C.separated (C.operand hd _)).bind fun items hitems => ?_
    have hkind : (NodeKind.groupByClause items).Over known := ⟨rfl, hitems⟩
    exact (C.pushFrom hkind start).bind fun id hid => .pure (allKnown_some hid)

omit hd in
theorem sortOrder : Keeps env inv sortOrder fun _ => True := by
  refine (C.consumeKeyword .asc).bind fun isAscending _ => ?_
  cases isAscending with
  | true => exact .pure trivial
  | false =>
    refine (C.consumeKeyword .desc).bind fun isDescending _ => ?_
    cases isDescending <;> exact .pure trivial

omit hd in
theorem nullsOrder : Keeps env inv nullsOrder fun _ => True := by
  refine (C.consumeKeyword .nulls).bind fun found _ => ?_
  cases found with
  | false => exact .pure trivial
  | true =>
    refine (C.consumeKeyword .first).bind fun isFirst _ => ?_
    cases isFirst with
    | true => exact .pure trivial
    | false =>
      refine (C.consumeKeyword .last).bind fun isLast _ => ?_
      cases isLast with
      | true => exact .pure trivial
      | false => exact (C.recordHere _ _).bind fun _ _ => .pure trivial

theorem orderByItem : Keeps env inv (orderByItem deeper) known := by
  refine (C.operand hd _).bind fun expression hexpression => .startOf fun start => ?_
  refine C.sortOrder.bind fun order _ => C.nullsOrder.bind fun nulls _ => ?_
  exact C.pushFrom ⟨rfl, by simpa [NodeKind.children] using hexpression⟩ start

theorem orderByClause? : Keeps env inv (orderByClause? deeper) (AllKnown known) := by
  refine .look fun start => (C.consumeKeyword .order).bind fun found _ => ?_
  cases found with
  | false => exact .pure allKnown_none
  | true =>
    refine (C.expectKeyword .by).bind fun _ _ => ?_
    refine (C.separated (C.orderByItem hd)).bind fun items hitems => ?_
    have hkind : (NodeKind.orderByClause items).Over known := ⟨rfl, hitems⟩
    exact (C.pushFrom hkind start).bind fun id hid => .pure (allKnown_some hid)

theorem updateItem : Keeps env inv (updateItem deeper) known := by
  refine .look fun start => hd.target.bind fun target htarget => (C.discard_expect _).bind fun _ _ => ?_
  refine (C.operand hd _).bind fun value hvalue => ?_
  exact C.pushFrom ⟨rfl, by simp [NodeKind.children, htarget, hvalue]⟩ start

theorem updateItems : Keeps env inv (updateItems deeper) (AllKnown known) := by
  refine (C.consumeKeyword .set).bind fun found _ => ?_
  cases found with
  | true => exact C.separated (C.updateItem hd)
  | false => exact (C.missingClause _).bind fun _ _ => .pure allKnown_nil

/-- **A `SELECT` statement keeps the property.** -/
theorem selectStatement : Keeps env inv (selectStatement deeper) known := by
  refine .look fun start => (C.selectClause hd _).bind fun select hselect => ?_
  refine (C.fromClause? hd _).bind fun source hsource => ?_
  refine (C.whereClause? hd).bind fun condition hcondition => ?_
  refine (C.groupByClause? hd).bind fun groups hgroups => ?_
  refine (C.havingClause? hd).bind fun having hhaving => ?_
  refine (C.orderByClause? hd).bind fun order horder => C.pushFrom ⟨rfl, fun child hc => ?_⟩ start
  simp only [NodeKind.children, List.mem_cons, List.mem_append, Option.mem_toList] at hc
  rcases hc with rfl | (((hc | hc) | hc) | hc) | hc
  · exact hselect
  · exact hsource child hc
  · exact hcondition child hc
  · exact hgroups child hc
  · exact hhaving child hc
  · exact horder child hc

/-- The clauses of a subquery. What becomes of them is left open, since a subquery is a node that
depends on what is read around it. -/
theorem subqueryClauses {α : Type} {post : α → Prop}
    {last : NodeId → Option NodeId → Option NodeId → Option NodeId → Option NodeId → Parser α}
    (hlast : ∀ select source condition groups having, (∀ child ∈
        (NodeKind.simpleSelectStatement select source condition groups having).children, known child) →
      Keeps env inv (last select source condition groups having) post) :
    Keeps env inv (do
      let select ← Parse.selectClause deeper true
      let source ← Parse.fromClause? deeper true
      let condition ← Parse.whereClause? deeper
      let groups ← Parse.groupByClause? deeper
      let having ← Parse.havingClause? deeper
      last select source condition groups having) post := by
  refine (C.selectClause hd _).bind fun select hselect => ?_
  refine (C.fromClause? hd _).bind fun source hsource => ?_
  refine (C.whereClause? hd).bind fun condition hcondition => ?_
  refine (C.groupByClause? hd).bind fun groups hgroups => ?_
  refine (C.havingClause? hd).bind fun having hhaving => ?_
  refine hlast _ _ _ _ _ fun child hc => ?_
  simp only [NodeKind.children, List.mem_cons, List.mem_append, Option.mem_toList] at hc
  rcases hc with rfl | ((hc | hc) | hc) | hc
  · exact hselect
  · exact hsource child hc
  · exact hcondition child hc
  · exact hgroups child hc
  · exact hhaving child hc

end Jpql.Parse.Conserved
