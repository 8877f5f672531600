import Jpql.Parse.Query
import Jpql.Proofs.Layout.Expression

/-! # Whole queries are read in step

The readers of declarations, clauses, statements and calls do the same in two runs over the same
tokens, and by induction on the number of levels so does the reader of a whole text
(`Simulation.query`). Runs over two texts with the same tokens stay alike (`simulation_alike`). -/

namespace Jpql.Parse

variable {a b : Env} {rel : State → State → Prop}

namespace Simulation

variable (S : Simulation a b rel) {deeper : Deeper} (hd : deeper.Lockstep a b rel)

include S

/-! ## Declarations -/

theorem rangeRoot : Lockstep a b rel rangeRoot := by
  refine S.look_identifier? ((S.missing _).same fun id => .pure rfl) fun name s t hs hkind => ?_
  have hahead := (S.env.stream (S.alike hs)).advance
  refine .look (.advance (.look ?_))
  rw [State.stream_advance, State.stream_advance, ← hahead.check .dot]
  split
  · refine S.writtenHere hs hkind name fun root => S.segments.bind ?_
    rintro ⟨left, dot⟩ ⟨right, dot'⟩ h
    obtain ⟨hvalues, rfl⟩ : left.map (·.value) = right.map (·.value) ∧ dot = dot' := h
    exact (S.pushFrom _ _ (.path _ _ _ hvalues) rfl).same fun path => .pure rfl
  · exact (S.push _ _ (.refl _) rfl).same (fun id => .pure rfl) _ _ (S.advanced hs)

theorem virtualVariable (entity : String) : Lockstep a b rel (virtualVariable entity) :=
  .place fun _ _ => (S.setVirtual _).same fun _ => S.push _ _ (.refl _) rfl

theorem rangeDeclaration (allowVirtual : Bool) : Lockstep a b rel (rangeDeclaration allowVirtual) := by
  refine .place fun m n => S.rangeRoot.same fun (root, entity) => ?_
  refine (S.consumeKeyword .as).same fun hasAs => S.declaredVariable?.same fun declared? => ?_
  have hlast : ∀ declared, Agree a b rel
      (Parse.pushFrom (.rangeDeclaration root hasAs declared) m)
      (Parse.pushFrom (.rangeDeclaration root hasAs declared) n) Eq := fun declared =>
    S.pushFrom m n (.refl _) rfl
  have hnone : Agree a b rel (do
        let declared ← Parse.missingVariable *> pure none
        Parse.pushFrom (.rangeDeclaration root hasAs declared) m) (do
        let declared ← Parse.missingVariable *> pure none
        Parse.pushFrom (.rangeDeclaration root hasAs declared) n) Eq :=
    (S.missingVariable.seqRight (.pure rfl)).same hlast
  cases declared? with
  | some declared => exact hlast (some declared)
  | none =>
    cases entity with
    | none => exact hnone
    | some name =>
      dsimp only
      split
      · exact ((S.virtualVariable name).map_same some).same hlast
      · exact hnone

theorem joinType : Lockstep a b rel joinType := by
  refine (S.consumeKeyword .left).same fun isLeft => ?_
  split
  · refine (S.consumeKeyword .outer).same fun isOuter => ?_
    split <;> exact .pure rfl
  · refine (S.consumeKeyword .inner).same fun isInner => ?_
    split <;> exact .pure rfl

section

include hd

theorem collectionDeclaration : Lockstep a b rel (collectionDeclaration deeper) := by
  refine .place fun m n => S.advance.same fun _ => (S.discard_expect _).same fun _ => ?_
  refine (S.primary hd _).same fun path => (S.asCollection path).same fun _ => ?_
  refine (S.discard_expect _).same fun _ => (S.consumeKeyword .as).same fun hasAs => ?_
  refine S.declaredVariable?.same fun declared => ?_
  dsimp only
  split
  · exact S.missingVariable.same fun _ => S.pushFrom m n (.refl _) rfl
  · exact S.pushFrom m n (.refl _) rfl

theorem onClause? : Lockstep a b rel (onClause? deeper) := by
  refine (S.atKeyword .on).same fun isOn => ?_
  split
  · refine .place fun m n => S.advance.same fun _ => (S.condition hd).same fun condition => ?_
    exact (S.pushFrom m n (.refl _) rfl).same fun id => .pure rfl
  · exact .pure rfl

theorem join : Lockstep a b rel (join deeper) := by
  refine .place fun m n => S.joinType.same fun type => (S.expectKeyword .join).same fun _ => ?_
  refine (S.consumeKeyword .fetch).same fun fetch => (S.primary hd _).same fun path => ?_
  refine S.kindOf fun kind other hkind => ?_
  have hvariable : Agree a b rel (do
        let hasAs ← Parse.consumeKeyword .as
        let declared ← Parse.declaredVariable?
        if declared.isNone && (hasAs || !fetch) then Parse.missingVariable
        let on ← Parse.onClause? deeper
        Parse.pushFrom (.join type fetch path hasAs declared on) m) (do
        let hasAs ← Parse.consumeKeyword .as
        let declared ← Parse.declaredVariable?
        if declared.isNone && (hasAs || !fetch) then Parse.missingVariable
        let on ← Parse.onClause? deeper
        Parse.pushFrom (.join type fetch path hasAs declared on) n) Eq := by
    refine (S.consumeKeyword .as).same fun hasAs => S.declaredVariable?.same fun declared => ?_
    have hlast := (S.onClause? hd).same fun on =>
      S.pushFrom m n (.refl (.join type fetch path hasAs declared on)) rfl
    dsimp only
    split
    · exact S.missingVariable.same fun _ => hlast
    · exact hlast
  cases hkind with
  | refl kind =>
    split
    · exact (S.asCollection _).same fun _ => hvariable
    · exact (S.asCollection path).same fun _ => hvariable
  | path kind root dot h => exact (S.asCollection path).same fun _ => hvariable
  | unknown left right => exact (S.asCollection path).same fun _ => hvariable

theorem declaration : Lockstep a b rel (declaration deeper) := by
  refine (S.atKeyword .in).same fun isIn => ?_
  split
  · exact S.collectionDeclaration hd
  · refine .place fun m n => (S.rangeDeclaration false).same fun range => ?_
    have hjoin : Lockstep a b rel (Parse.look Parse.atJoin) :=
      S.look fun x y h => by unfold Parse.atJoin; rw [h.kind]
    refine (S.loop_items hjoin (S.join hd) []).same fun joins => ?_
    exact S.pushFrom m n (.refl _) rfl

/-! ## Clauses -/

theorem selectItem : Lockstep a b rel (selectItem deeper) := by
  refine (S.operand hd _).same fun expression => .startOf fun m n => ?_
  refine (S.consumeKeyword .as).same fun hasAs => ?_
  refine Agree.same (S.look fun x y h => by rw [h.kind]) fun named => ?_
  have hlast : ∀ declared, Agree a b rel
      (Parse.pushFrom (.resultVariable expression hasAs declared) m)
      (Parse.pushFrom (.resultVariable expression hasAs declared) n) Eq := fun declared =>
    S.pushFrom m n (.refl _) rfl
  split
  · exact .pure rfl
  · refine S.declaredVariable?.same fun declared? => ?_
    cases declared? with
    | some declared => exact hlast declared
    | none => exact (S.missing _).same hlast

theorem selectClause (simple : Bool) : Lockstep a b rel (selectClause deeper simple) := by
  refine .place fun m n => (S.expectKeyword .select).same fun _ => ?_
  refine (S.consumeKeyword .distinct).same fun distinct => ?_
  split
  · exact (S.separated (S.operand hd _)).same fun items => S.pushFrom m n (.refl _) rfl
  · exact (S.separated (S.selectItem hd)).same fun items => S.pushFrom m n (.refl _) rfl

theorem fromClause? (simple : Bool) : Lockstep a b rel (fromClause? deeper simple) := by
  refine .place fun m n => (S.consumeKeyword .from).same fun found => ?_
  split
  · refine (S.separated (S.declaration hd)).same fun declarations => ?_
    split
    · exact (S.pushFrom m n (.refl _) rfl).same fun id => .pure rfl
    · exact (S.pushFrom m n (.refl _) rfl).same fun id => .pure rfl
  · exact (S.missingClause _).same fun _ => .pure rfl

theorem conditionClause? (word : Keyword) (kind : NodeId → NodeKind)
    (hplain : ∀ condition, (kind condition).isPlain = true) :
    Lockstep a b rel (conditionClause? deeper word kind) := by
  refine .place fun m n => (S.consumeKeyword word).same fun found => ?_
  split
  · refine (S.condition hd).same fun condition => ?_
    exact (S.pushFrom m n (.refl _) (hplain condition)).same fun id => .pure rfl
  · exact .pure rfl

theorem whereClause? : Lockstep a b rel (whereClause? deeper) :=
  S.conditionClause? hd .where _ fun _ => rfl

theorem havingClause? : Lockstep a b rel (havingClause? deeper) :=
  S.conditionClause? hd .having _ fun _ => rfl

theorem groupByClause? : Lockstep a b rel (groupByClause? deeper) := by
  refine .place fun m n => (S.consumeKeyword .group).same fun found => ?_
  split
  · refine (S.expectKeyword .by).same fun _ => (S.separated (S.operand hd _)).same fun items => ?_
    exact (S.pushFrom m n (.refl _) rfl).same fun id => .pure rfl
  · exact .pure rfl

omit hd in
theorem sortOrder : Lockstep a b rel sortOrder := by
  refine (S.consumeKeyword .asc).same fun isAscending => ?_
  split
  · exact .pure rfl
  · refine (S.consumeKeyword .desc).same fun isDescending => ?_
    split <;> exact .pure rfl

omit hd in
theorem nullsOrder : Lockstep a b rel nullsOrder := by
  refine (S.consumeKeyword .nulls).same fun hasNulls => ?_
  split
  · refine (S.consumeKeyword .first).same fun isFirst => ?_
    split
    · exact .pure rfl
    · refine (S.consumeKeyword .last).same fun isLast => ?_
      split
      · exact .pure rfl
      · exact (S.recordHere rfl _).same fun _ => .pure rfl
  · exact .pure rfl

theorem orderByItem : Lockstep a b rel (orderByItem deeper) := by
  refine (S.operand hd _).same fun expression => .startOf fun m n => ?_
  exact S.sortOrder.same fun order => S.nullsOrder.same fun nulls => S.pushFrom m n (.refl _) rfl

theorem orderByClause? : Lockstep a b rel (orderByClause? deeper) := by
  refine .place fun m n => (S.consumeKeyword .order).same fun found => ?_
  split
  · refine (S.expectKeyword .by).same fun _ => (S.separated (S.orderByItem hd)).same fun items => ?_
    exact (S.pushFrom m n (.refl _) rfl).same fun id => .pure rfl
  · exact .pure rfl

theorem updateItem : Lockstep a b rel (updateItem deeper) := by
  refine .place fun m n => S.updateTarget.same fun target => (S.discard_expect _).same fun _ => ?_
  exact (S.operand hd _).same fun value => S.pushFrom m n (.refl _) rfl

theorem updateItems : Lockstep a b rel (updateItems deeper) := by
  refine (S.consumeKeyword .set).same fun found => ?_
  split
  · exact S.separated (S.updateItem hd)
  · exact (S.missingClause _).same fun _ => .pure rfl

/-! ## Statements -/

omit hd in
theorem withoutVirtual {α : Type} {reader : Parser α} (h : Lockstep a b rel reader) :
    Lockstep a b rel (withoutVirtual reader) := by
  intro s t hs
  have hrun : Lockstep a b rel (do
      modify ({ · with virtualVariable := none })
      let x ← reader
      modify ({ · with virtualVariable := s.virtualVariable })
      return x) :=
    (S.setVirtual none).same fun _ => h.same fun x => (S.setVirtual _).same fun _ => .pure rfl
  have hvirtual := (S.alike hs).virtualVariable
  have hright : Parse.withoutVirtual reader b t = (do
      modify ({ · with virtualVariable := none })
      let x ← reader
      modify ({ · with virtualVariable := s.virtualVariable })
      return x : Parser α) b t := by rw [hvirtual]; rfl
  rw [hright]
  exact hrun s t hs

/-- **A statement is read in step.** -/
theorem selectStatement : Lockstep a b rel (selectStatement deeper) := by
  refine .place fun m n => (S.selectClause hd _).same fun select => ?_
  refine (S.fromClause? hd _).same fun fromClause => (S.whereClause? hd).same fun whereClause => ?_
  refine (S.groupByClause? hd).same fun groupBy => (S.havingClause? hd).same fun having => ?_
  exact (S.orderByClause? hd).same fun orderBy => S.pushFrom m n (.refl _) rfl

theorem simpleSelect : Lockstep a b rel (simpleSelect deeper) := by
  refine S.withoutVirtual (.place fun m n => (S.selectClause hd _).same fun select => ?_)
  refine (S.fromClause? hd _).same fun fromClause => (S.whereClause? hd).same fun whereClause => ?_
  refine (S.groupByClause? hd).same fun groupBy => (S.havingClause? hd).same fun having => ?_
  exact S.pushFrom m n (.refl _) rfl

theorem updateStatement : Lockstep a b rel (updateStatement deeper) := by
  refine S.withoutVirtual (.place fun m n => S.advance.same fun _ => ?_)
  refine (S.rangeDeclaration true).same fun range => (S.updateItems hd).same fun items => ?_
  refine (S.pushFrom m n (.refl _) rfl).same fun update => ?_
  exact (S.whereClause? hd).same fun whereClause => S.pushFrom m n (.refl _) rfl

theorem deleteStatement : Lockstep a b rel (deleteStatement deeper) := by
  refine S.withoutVirtual (.place fun m n => S.advance.same fun _ => ?_)
  refine (S.expectKeyword .from).same fun _ => (S.rangeDeclaration true).same fun range => ?_
  refine (S.pushFrom m n (.refl _) rfl).same fun delete => ?_
  exact (S.whereClause? hd).same fun whereClause => S.pushFrom m n (.refl _) rfl

theorem parenSubquery : Lockstep a b rel (parenSubquery deeper) := by
  have hlast : ∀ subquery : Nat, Lockstep a b rel (do
      discard (Parse.expect .rightParen)
      return subquery) := fun subquery => (S.discard_expect _).same fun _ => .pure rfl
  refine (S.discard_expect _).same fun _ => (S.atKeyword .select).same fun isSubquery => ?_
  dsimp only
  split
  · exact (S.simpleSelect hd).same hlast
  · exact (S.missing _).same hlast

theorem negation (rule : String) : Lockstep a b rel (negation deeper rule) := by
  refine .place fun m n => S.advance.same fun _ => (S.consumeKeyword .exists).same fun isExists => ?_
  split
  · exact (S.parenSubquery hd).same fun subquery => S.pushFrom m n (.refl _) rfl
  · exact (S.negatable hd rule).same fun expression => S.pushFrom m n (.refl _) rfl

theorem group : Lockstep a b rel (group deeper) := by
  refine .place fun m n => S.advance.same fun _ => (S.atKeyword .select).same fun isSubquery => ?_
  have hlast : ∀ expression : Nat, Agree a b rel (do
      discard (Parse.expect .rightParen)
      Parse.pushFrom (.group expression) m) (do
      discard (Parse.expect .rightParen)
      Parse.pushFrom (.group expression) n) Eq := fun expression =>
    (S.discard_expect _).same fun _ => S.pushFrom m n (.refl _) rfl
  dsimp only
  split
  · exact (S.simpleSelect hd).same hlast
  · exact (S.condition hd).same hlast

/-! ## Calls -/

omit hd in
theorem inParens {α : Type} {reader : Parser α} {post : α → α → Prop}
    (h : Agree a b rel reader reader post) :
    Agree a b rel (inParens reader) (inParens reader) post :=
  (S.discard_expect _).same fun _ => h.bind fun _ _ hxy => (S.discard_expect _).same fun _ => .pure hxy

theorem path : Lockstep a b rel (path deeper) := S.primary hd _

theorem twoScalars : Lockstep a b rel (twoScalars deeper) := by
  refine (S.scalar hd).same fun first => (S.discard_expect _).same fun _ => ?_
  exact (S.scalar hd).same fun second => .pure rfl

theorem threeScalars : Lockstep a b rel (threeScalars deeper) := by
  refine (S.twoScalars hd).same fun (first, second) => (S.consume .comma).same fun hasThird => ?_
  split
  · exact (S.scalar hd).same fun third => .pure rfl
  · exact .pure rfl

omit hd in
theorem trimSide : Lockstep a b rel trimSide := by
  refine (S.consumeKeyword .leading).same fun isLeading => ?_
  split
  · exact .pure rfl
  · refine (S.consumeKeyword .trailing).same fun isTrailing => ?_
    split
    · exact .pure rfl
    · refine (S.consumeKeyword .both).same fun isBoth => ?_
      split <;> exact .pure rfl

theorem trimArguments : Makes a b rel (trimArguments deeper) := by
  refine S.trimSide.same fun side => Agree.same (S.look fun x y h => ?_) fun withCharacter => ?_
  · rw [h.checkKeyword, h.peek]
  have hlast : ∀ character, Makes a b rel (do
      let hasFrom ← Parse.consumeKeyword .from
      let string ← Parse.scalar deeper
      return .trim side character hasFrom string) := fun character =>
    (S.consumeKeyword .from).same fun hasFrom => (S.scalar hd).same fun string => .pure ⟨rfl, rfl⟩
  dsimp only
  split
  · exact ((S.primary hd _).map_same some).same hlast
  · exact hlast none

theorem aggregateArgument : Lockstep a b rel (aggregateArgument deeper) :=
  (S.consumeKeyword .distinct).same fun _ => (S.scalar hd).same fun _ => .pure rfl

theorem whenClause : Lockstep a b rel (whenClause deeper) := by
  refine .place fun m n => S.advance.same fun _ => (S.condition hd).same fun condition => ?_
  refine (S.expectKeyword .then).same fun _ => (S.scalar hd).same fun result => ?_
  exact S.pushFrom m n (.refl _) rfl

theorem caseBody : Makes a b rel (caseBody deeper) := by
  have hlast : ∀ operand whens, Makes a b rel (do
      Parse.expectKeyword .else
      let otherwise ← Parse.scalar deeper
      Parse.expectKeyword .end
      return .caseOf operand whens otherwise) := fun operand whens =>
    (S.expectKeyword .else).same fun _ => (S.scalar hd).same fun otherwise =>
      (S.expectKeyword .end).same fun _ => .pure ⟨rfl, rfl⟩
  have hwhens : ∀ operand, Makes a b rel (do
      let whens ← Parse.loop (fun whens => do
        if ← Parse.atKeyword .when then return some (whens ++ [← Parse.whenClause deeper])
        else return none) []
      if whens.isEmpty then Parse.expectKeyword .when
      Parse.expectKeyword .else
      let otherwise ← Parse.scalar deeper
      Parse.expectKeyword .end
      return .caseOf operand whens otherwise) := by
    intro operand
    refine (S.loop_items (S.atKeyword .when) (S.whenClause hd) []).same fun whens => ?_
    dsimp only
    split
    · exact (S.expectKeyword .when).same fun _ => hlast operand whens
    · exact hlast operand whens
  refine (S.atKeyword .when).same fun atWhen => ?_
  dsimp only
  split
  · exact hwhens none
  · exact ((S.scalar hd).map_same some).same hwhens

theorem treatArguments : Makes a b rel (treatArguments deeper) := by
  refine (S.path hd).same fun path => (S.asCollection path).same fun _ => ?_
  refine (S.consumeKeyword .as).same fun hasAs => ?_
  refine (S.look TokenStream.textual_identifier?).same fun name? => ?_
  have hlast : ∀ entityType, Makes a b rel (return .treat path hasAs entityType) :=
    fun entityType => .pure ⟨rfl, rfl⟩
  cases name? with
  | some name => exact (S.entityType name).same hlast
  | none => exact (S.missing _).same hlast

theorem callArguments : Makes a b rel (callArguments deeper) := by
  have hlast : ∀ name, Makes a b rel (do
      let arguments ← if ← Parse.consume .comma then Parse.separated (Parse.scalar deeper)
        else pure []
      return .call name arguments) := by
    refine fun name => (S.consume .comma).same fun hasMore => ?_
    dsimp only
    split
    · exact (S.separated (S.scalar hd)).same fun arguments => .pure ⟨rfl, rfl⟩
    · exact .pure ⟨rfl, rfl⟩
  refine S.lookKind.same fun kind => ?_
  dsimp only
  split
  · exact Agree.same (S.advance.seqRight (.pure rfl)) hlast
  · exact Agree.same ((S.recordHere rfl _).seqRight (.pure rfl)) hlast

omit hd in
theorem className : Lockstep a b rel className := by
  refine (S.look TokenStream.textual_identifier?).same fun name? => ?_
  cases name? with
  | some first =>
    refine S.advance.same fun _ => S.segments.bind ?_
    rintro ⟨left, dot⟩ ⟨right, dot'⟩ h
    obtain ⟨hvalues, rfl⟩ : left.map (·.value) = right.map (·.value) ∧ dot = dot' := h
    exact .pure (by rw [hvalues])
  | none => exact (S.recordHere rfl _).same fun _ => .pure rfl

theorem constructorBody : Makes a b rel (constructorBody deeper) :=
  S.className.same fun _ => (S.inParens (S.separated (S.operand hd _))).same fun _ =>
    .pure ⟨rfl, rfl⟩

/-- What a keyword introduces is the same in both runs, and no defect. -/
theorem callBody (construct : Construct) (word : TokenKind) :
    Agree a b rel (callBody deeper construct word) (callBody deeper construct word)
      fun x y => x = y ∧ ∀ kind ∈ x, kind.isPlain = true := by
  have hsome : ∀ {p : Parser NodeKind}, Makes a b rel p →
      Agree a b rel (some <$> p) (some <$> p)
        fun x y => x = y ∧ ∀ kind ∈ x, kind.isPlain = true := fun h =>
    .map (h.mono fun _ _ ⟨he, hp⟩ => ⟨he ▸ rfl, by rintro _ ⟨⟩; exact hp⟩)
  have hunary : ∀ {p : Parser Nat} (make : Nat → NodeKind), Lockstep a b rel p →
      (∀ id, (make id).isPlain = true) →
      Agree a b rel (do return some (make (← Parse.inParens p)))
        (do return some (make (← Parse.inParens p)))
        fun x y => x = y ∧ ∀ kind ∈ x, kind.isPlain = true := fun make h hplain =>
    Agree.same (S.inParens h) fun id => .pure ⟨rfl, by rintro _ ⟨⟩; exact hplain id⟩
  have hscalar := S.scalar hd
  have hpath := S.path hd
  cases construct
  case size =>
    refine Agree.same (S.inParens hscalar) fun expression => (S.asCollection expression).same fun _ => ?_
    exact .pure ⟨rfl, by rintro _ ⟨⟩; rfl⟩
  case mod | nullif =>
    refine Agree.same (S.inParens (S.twoScalars hd)) fun (first, second) => ?_
    exact .pure ⟨rfl, by rintro _ ⟨⟩; rfl⟩
  case locate | substring =>
    refine Agree.same (S.inParens (S.threeScalars hd)) fun (first, second, third) => ?_
    exact .pure ⟨rfl, by rintro _ ⟨⟩; rfl⟩
  case concat | coalesce =>
    refine Agree.same (S.inParens (S.separated hscalar)) fun arguments => ?_
    exact .pure ⟨rfl, by rintro _ ⟨⟩; rfl⟩
  case aggregate =>
    refine Agree.same (S.inParens (S.aggregateArgument hd)) fun (distinct, expression) => ?_
    exact .pure ⟨rfl, by rintro _ ⟨⟩; rfl⟩
  case existence | quantified =>
    exact (S.parenSubquery hd).same fun subquery => .pure ⟨rfl, by rintro _ ⟨⟩; rfl⟩
  case trim => exact hsome (S.inParens (S.trimArguments hd))
  case treat => exact hsome (S.inParens (S.treatArguments hd))
  case call => exact hsome (S.inParens (S.callArguments hd))
  case caseOf => exact hsome (S.caseBody hd)
  case constructor => exact hsome (S.constructorBody hd)
  case abs | sqrt | length | lower | upper => exact hunary (.basicFunction _) hscalar fun _ => rfl
  case index => exact hunary .index hpath fun _ => rfl
  case entry => exact hunary .entry hpath fun _ => rfl
  case key => exact hunary .key hpath fun _ => rfl
  case value => exact hunary .value hpath fun _ => rfl
  case object => exact hunary .object hpath fun _ => rfl
  case type => exact hunary .type (S.primary hd _) fun _ => rfl
  all_goals exact .pure ⟨rfl, by rintro _ ⟨⟩⟩

theorem call (construct : Construct) : Lockstep a b rel (call deeper construct) := by
  refine .place fun m n => S.lookKind.same fun word => S.advance.same fun _ => ?_
  refine (S.callBody hd construct word).bind ?_
  rintro kind? _ ⟨rfl, hplain⟩
  cases kind? with
  | none => exact S.missing _
  | some kind =>
    refine (S.pushFrom m n (.refl _) (hplain kind rfl)).same fun id => ?_
    split
    · exact S.continuePath id m n
    · exact .pure rfl

/-! ## Levels and whole texts -/

theorem nested (construct : Nested) : Lockstep a b rel (nested deeper construct) := by
  cases construct with
  | negation rule => exact S.negation hd rule
  | sign negative => exact S.signed hd negative
  | group => exact S.group hd
  | subquery => exact S.simpleSelect hd
  | call construct => exact S.call hd construct

omit hd in
/-- **Nested constructs are read in step at every level.** -/
theorem level (levels : Nat) : (level levels).Lockstep a b rel := by
  induction levels with
  | zero => exact fun _ => S.skipTooDeep
  | succ levels ih => exact S.nested ih

theorem statement? (rule : String) : Lockstep a b rel (statement? deeper rule) := by
  have hconstruct : ∀ construct?, Lockstep a b rel (statementOf deeper construct?) := by
    intro construct?
    unfold statementOf
    split
    · exact (S.selectStatement hd).map_same some
    · exact (S.simpleSelect hd).map_same some
    · exact (S.updateStatement hd).map_same some
    · exact (S.deleteStatement hd).map_same some
    · refine .read (.place fun _ _ => Agree.same (S.record ?_ ?_) fun _ => .pure rfl) <;> rfl
  refine S.lookKind.same fun kind => ?_
  split
  · exact fun s t hs => S.dispatch_bind fun construct? => hconstruct construct? s t hs
  · exact hconstruct none

theorem start? (rule : String) : Lockstep a b rel (start? deeper rule) := by
  unfold Parse.start?
  split
  · exact S.statement? hd rule
  · exact (S.disjunction hd rule).map_same some

/-- **A whole text is read in step.** -/
theorem query (rule : String) : Lockstep a b rel (query deeper rule) := by
  refine (S.start? hd rule).same fun statement => S.trailingText.same fun unknown => ?_
  exact .read (S.push _ _ (.refl _) rfl)

end

end Simulation

/-! ## Two texts -/

/-- **States that are alike stay alike**, whatever the layout of the two texts is. -/
theorem simulation_alike (h : a.Alike b) :
    Simulation a b fun s t => s.Alike t ∧ s.position ≤ a.tokens.size - 1 where
  env := h
  alike hs := hs.1
  inside hs := hs.2
  moved hs _ _ hn := ⟨⟨rfl, hs.1.virtualVariable, hs.1.draft⟩, hn⟩
  renamed hs _ := ⟨⟨hs.1.position, rfl, hs.1.draft⟩, hs.2⟩
  pushed hs _ _ _ _ hkind _ :=
    ⟨⟨hs.1.position, hs.1.virtualVariable, hs.1.draft.push hkind _ _⟩, hs.2⟩
  named hs _ _ _ _ hn :=
    ⟨⟨rfl, hs.1.virtualVariable, hs.1.draft.push (.refl _) _ _⟩, hn⟩
  recorded hs _ _ houtline _ :=
    ⟨⟨hs.1.position, hs.1.virtualVariable, hs.1.draft.record houtline⟩, hs.2⟩
  missed hs _ _ _ :=
    ⟨⟨hs.1.position, hs.1.virtualVariable,
      (hs.1.draft.push (.refl _) _ _).record (by rw [hs.1.draft.size]; rfl)⟩, hs.2⟩
  leftOver hs _ _ _ _ _ _ _ _ :=
    ⟨⟨hs.1.position, hs.1.virtualVariable,
      (hs.1.draft.push (.unknown _ _) _ _).record (by rw [hs.1.draft.size]; rfl)⟩, hs.2⟩
  reread hs _ := ⟨⟨hs.1.position, hs.1.virtualVariable, hs.1.draft.asCollection _⟩, hs.2⟩

end Jpql.Parse
