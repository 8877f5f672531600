import Jpql.Parse.Query
import Jpql.Proofs.Progress.Expression

/-! # Progress

Declarations, clauses, statements and calls succeed from every state and never go back, and nested constructs
move over a token where they may start (`Parse.Deeper.Proceeding.nested`). So a primary expression moves over
a token, or nothing is read and an empty node with one problem stands for it (`Parse.primary_progress`).

A nested construct starts at a token that neither ends the text nor closes a parenthesis, and moves over a
token at least. This is what bounds the recursion of the readers: a reader that fails where a nested
construct does otherwise (`Parse.watchedLevel`) reads what `Parse.level` reads. -/

namespace Jpql.Parse

variable {α : Type} {env : Env} {isName : String → Prop} {low : Nat} {s : State}

/-! ## Declarations -/

theorem proceeds_rangeRoot (h : env.Regular isName) :
    Proceeds env isName rangeRoot rangeRoot fun root => ∀ name ∈ root.2, isName name := by
  refine .identifier? h fun name? hname => ?_
  cases name? with
  | none => exact (proceeds_missing _).andThen fun _ => .pure nofun
  | some name =>
    refine .look fun span => Proceeds.advance.andThen fun _ => .look fun dotted => ?_
    cases dotted with
    | true =>
      refine (proceeds_pushVariable (hname name rfl) span).andThen fun root => ?_
      refine Proceeds.segments.andThen fun (segments, dot) => ?_
      exact (Proceeds.pushFrom rfl _).andThen fun _ => .pure nofun
    | false => exact (Proceeds.push nofun span).andThen fun _ => .pure hname

/-- The virtual variable is named after the entity. -/
theorem proceeds_virtualVariable (h : env.Regular isName) {entity : String} (hentity : isName entity) :
    Proceeds env isName (virtualVariable entity) (virtualVariable entity) fun _ => True := by
  have hname := h.lower entity hentity
  refine .look fun span => ?_
  have hset : Proceeds env isName (modify ({ · with virtualVariable := some (Text.asciiLower entity) }))
      (modify ({ · with virtualVariable := some (Text.asciiLower entity) })) fun _ => True :=
    fun _ _ hs => ⟨(), _, rfl, rfl, hs.rename (by rintro _ ⟨⟩; exact hname), trivial⟩
  exact hset.andThen fun _ => .push (by rintro _ ⟨⟩; exact hname) span

theorem proceeds_rangeDeclaration (h : env.Regular isName) (allowVirtual : Bool) :
    Proceeds env isName (rangeDeclaration allowVirtual) (rangeDeclaration allowVirtual)
      fun _ => True := by
  refine .look fun start => (proceeds_rangeRoot h).bind fun (root, entity) hentity => ?_
  refine (Proceeds.consumeKeyword _).andThen fun hasAs => ?_
  have hlast : ∀ declared : Option NodeId, Proceeds env isName
      (pushFrom (.rangeDeclaration root hasAs declared) start)
      (pushFrom (.rangeDeclaration root hasAs declared) start) fun _ => True := fun _ => .pushFrom rfl _
  have hnone : Proceeds env isName (missingVariable *> pure none) (missingVariable *> pure none)
      fun _ : Option NodeId => True := proceeds_missingVariable.seqRight (.pure trivial)
  refine (proceeds_declaredVariable? h).andThen fun declared? => ?_
  cases declared? with
  | some declared => exact hlast (some declared)
  | none =>
    cases entity with
    | none => exact hnone.andThen hlast
    | some name =>
      dsimp only
      split
      · have hvirtual : Proceeds env isName (some <$> virtualVariable name)
            (some <$> virtualVariable name) fun _ => True :=
          .map (proceeds_virtualVariable h (hentity name rfl))
        exact hvirtual.andThen hlast
      · exact hnone.andThen hlast

theorem proceeds_joinType : Proceeds env isName joinType joinType fun _ => True := by
  refine (Proceeds.consumeKeyword _).andThen fun isLeft => ?_
  split
  · refine (Proceeds.consumeKeyword _).andThen fun isOuter => ?_
    split <;> exact .pure trivial
  · refine (Proceeds.consumeKeyword _).andThen fun isInner => ?_
    split <;> exact .pure trivial

section

variable {deeper other : Deeper} (hd : deeper.Proceeding env isName other)

include hd

theorem proceeds_collectionDeclaration :
    Proceeds env isName (collectionDeclaration deeper) (collectionDeclaration other) fun _ => True := by
  refine .look fun start => Proceeds.advance.andThen fun _ =>
    (Proceeds.discard_expect _).andThen fun _ => ?_
  refine (proceeds_primary hd (hd.regular.rule (Grammar.standard_registers (by simp)))).andThen
    fun path => (Proceeds.asCollection path).andThen fun _ => ?_
  refine (Proceeds.discard_expect _).andThen fun _ => (Proceeds.consumeKeyword _).andThen fun hasAs => ?_
  refine (proceeds_declaredVariable? hd.regular).andThen fun declared => ?_
  have hlast : Proceeds env isName (pushFrom (.collectionDeclaration path hasAs declared) start)
      (pushFrom (.collectionDeclaration path hasAs declared) start) fun _ => True := .pushFrom rfl _
  dsimp only
  split
  · exact proceeds_missingVariable.andThen fun _ => hlast
  · exact hlast

theorem proceeds_onClause? :
    Proceeds env isName (onClause? deeper) (onClause? other) fun _ => True := by
  refine (Proceeds.atKeyword _).andThen fun atOn => ?_
  split
  · exact .look fun start => Proceeds.advance.andThen fun _ => (proceeds_condition hd).andThen fun _ =>
      (Proceeds.pushFrom rfl _).andThen fun _ => .pure trivial
  · exact .pure trivial

theorem proceeds_join : Proceeds env isName (join deeper) (join other) fun _ => True := by
  refine .look fun start => proceeds_joinType.andThen fun type =>
    (Proceeds.expectKeyword _).andThen fun _ => ?_
  refine (Proceeds.consumeKeyword _).andThen fun fetch => ?_
  refine (proceeds_primary hd (hd.regular.rule (Grammar.standard_registers (by simp)))).andThen
    fun path => .kindOf fun kind => ?_
  have hrest : Proceeds env isName (do
      let hasAs ← consumeKeyword .as
      let declared ← declaredVariable?
      if declared.isNone && (hasAs || !fetch) then missingVariable
      let on ← onClause? deeper
      pushFrom (.join type fetch path hasAs declared on) start) (do
      let hasAs ← consumeKeyword .as
      let declared ← declaredVariable?
      if declared.isNone && (hasAs || !fetch) then missingVariable
      let on ← onClause? other
      pushFrom (.join type fetch path hasAs declared on) start) fun _ => True := by
    refine (Proceeds.consumeKeyword _).andThen fun hasAs =>
      (proceeds_declaredVariable? hd.regular).andThen fun declared => ?_
    have hlast : Proceeds env isName (do
        let on ← onClause? deeper
        pushFrom (.join type fetch path hasAs declared on) start) (do
        let on ← onClause? other
        pushFrom (.join type fetch path hasAs declared on) start) fun _ => True :=
      (proceeds_onClause? hd).andThen fun on => .pushFrom rfl _
    dsimp only
    split
    · exact proceeds_missingVariable.andThen fun _ => hlast
    · exact hlast
  dsimp only
  split
  · exact (Proceeds.asCollection _).andThen fun _ => hrest
  · exact (Proceeds.asCollection _).andThen fun _ => hrest

theorem proceeds_declaration :
    Proceeds env isName (declaration deeper) (declaration other) fun _ => True := by
  refine (Proceeds.atKeyword _).andThen fun atIn => ?_
  split
  · exact proceeds_collectionDeclaration hd
  · refine .look fun start => (proceeds_rangeDeclaration hd.regular false).andThen fun range => ?_
    have hlook : Proceeds env isName (look atJoin) (look atJoin) fun _ => True :=
      fun _ s hs => ⟨_, s, rfl, rfl, hs, trivial⟩
    exact (Proceeds.items hlook (proceeds_join hd) []).andThen fun joins => .pushFrom rfl _

/-! ## Clauses -/

theorem proceeds_selectItem :
    Proceeds env isName (selectItem deeper) (selectItem other) fun _ => True := by
  refine (proceeds_operand hd (hd.regular.rule (Grammar.standard_registers (by simp)))).andThen
    fun expression => .startOf fun start => ?_
  refine (Proceeds.consumeKeyword _).andThen fun hasAs => .look fun named => ?_
  have hlast : ∀ declared, Proceeds env isName
      (pushFrom (.resultVariable expression hasAs declared) start)
      (pushFrom (.resultVariable expression hasAs declared) start) fun _ => True :=
    fun _ => .pushFrom rfl _
  split
  · exact .pure trivial
  · refine (proceeds_declaredVariable? hd.regular).andThen fun declared? => ?_
    cases declared? with
    | some declared => exact hlast declared
    | none => exact (proceeds_missing _).andThen hlast

/-- A clause goes as far as its word does, and on. -/
theorem alongside_selectClause (simple : Bool) (hword : Alongside env isName low s
    (expectKeyword .select) (expectKeyword .select) fun _ => True) :
    Alongside env isName low s (selectClause deeper simple) (selectClause other simple)
      fun _ => True := by
  refine .look (hword.bind fun _ _ => (Proceeds.consumeKeyword _).andThen fun distinct => ?_)
  split
  · exact (Proceeds.separated (proceeds_operand hd
      (hd.regular.rule (Grammar.standard_registers (by simp))))).andThen fun items => .pushFrom rfl _
  · exact (Proceeds.separated (proceeds_selectItem hd)).andThen fun items => .pushFrom rfl _

theorem proceeds_fromClause? (simple : Bool) :
    Proceeds env isName (fromClause? deeper simple) (fromClause? other simple) fun _ => True := by
  refine .look fun start => (Proceeds.consumeKeyword _).andThen fun found => ?_
  cases found with
  | true =>
    refine (Proceeds.separated (proceeds_declaration hd)).andThen fun declarations => ?_
    split <;> exact (Proceeds.pushFrom rfl _).andThen fun _ => .pure trivial
  | false => exact (proceeds_missingClause _).andThen fun _ => .pure trivial

theorem proceeds_conditionClause? (word : Keyword) {kind : NodeId → NodeKind}
    (hkind : ∀ id, (kind id).Nameless) :
    Proceeds env isName (conditionClause? deeper word kind) (conditionClause? other word kind)
      fun _ => True := by
  refine .look fun start => (Proceeds.consumeKeyword _).andThen fun found => ?_
  cases found with
  | true =>
    exact (proceeds_condition hd).andThen fun condition =>
      (Proceeds.pushFrom (hkind condition) _).andThen fun _ => .pure trivial
  | false => exact .pure trivial

theorem proceeds_whereClause? :
    Proceeds env isName (whereClause? deeper) (whereClause? other) fun _ => True :=
  proceeds_conditionClause? hd _ fun _ => rfl

theorem proceeds_havingClause? :
    Proceeds env isName (havingClause? deeper) (havingClause? other) fun _ => True :=
  proceeds_conditionClause? hd _ fun _ => rfl

theorem proceeds_groupByClause? :
    Proceeds env isName (groupByClause? deeper) (groupByClause? other) fun _ => True := by
  refine .look fun start => (Proceeds.consumeKeyword _).andThen fun found => ?_
  cases found with
  | true =>
    refine (Proceeds.expectKeyword _).andThen fun _ => ?_
    exact (Proceeds.separated (proceeds_operand hd
      (hd.regular.rule (Grammar.standard_registers (by simp))))).andThen fun items =>
        (Proceeds.pushFrom rfl _).andThen fun _ => .pure trivial
  | false => exact .pure trivial

omit hd in
theorem proceeds_sortOrder : Proceeds env isName sortOrder sortOrder fun _ => True := by
  refine (Proceeds.consumeKeyword _).andThen fun isAscending => ?_
  split
  · exact .pure trivial
  · refine (Proceeds.consumeKeyword _).andThen fun isDescending => ?_
    split <;> exact .pure trivial

omit hd in
theorem proceeds_nullsOrder : Proceeds env isName nullsOrder nullsOrder fun _ => True := by
  refine (Proceeds.consumeKeyword _).andThen fun hasNulls => ?_
  split
  · refine (Proceeds.consumeKeyword _).andThen fun isFirst => ?_
    split
    · exact .pure trivial
    · refine (Proceeds.consumeKeyword _).andThen fun isLast => ?_
      split
      · exact .pure trivial
      · exact (Proceeds.recordHere _ _).andThen fun _ => .pure trivial
  · exact .pure trivial

theorem proceeds_orderByItem :
    Proceeds env isName (orderByItem deeper) (orderByItem other) fun _ => True := by
  refine (proceeds_operand hd (hd.regular.rule (Grammar.standard_registers (by simp)))).andThen
    fun expression => .startOf fun start => ?_
  exact proceeds_sortOrder.andThen fun order => proceeds_nullsOrder.andThen fun nulls => .pushFrom rfl _

theorem proceeds_orderByClause? :
    Proceeds env isName (orderByClause? deeper) (orderByClause? other) fun _ => True := by
  refine .look fun start => (Proceeds.consumeKeyword _).andThen fun found => ?_
  cases found with
  | true =>
    refine (Proceeds.expectKeyword _).andThen fun _ => ?_
    exact (Proceeds.separated (proceeds_orderByItem hd)).andThen fun items =>
      (Proceeds.pushFrom rfl _).andThen fun _ => .pure trivial
  | false => exact .pure trivial

theorem proceeds_updateItem :
    Proceeds env isName (updateItem deeper) (updateItem other) fun _ => True := by
  refine .look fun start => (proceeds_updateTarget hd.regular).andThen fun target => ?_
  refine (Proceeds.discard_expect _).andThen fun _ => ?_
  exact (proceeds_operand hd (hd.regular.rule (Grammar.standard_registers (by simp)))).andThen
    fun value => .pushFrom rfl _

theorem proceeds_updateItems :
    Proceeds env isName (updateItems deeper) (updateItems other) fun _ => True := by
  refine (Proceeds.consumeKeyword _).andThen fun found => ?_
  split
  · exact .separated (proceeds_updateItem hd)
  · exact (proceeds_missingClause _).andThen fun _ => .pure trivial

/-! ## Statements -/

theorem proceeds_selectStatement :
    Proceeds env isName (selectStatement deeper) (selectStatement other) fun _ => True := by
  have hselect : Proceeds env isName (selectClause deeper false) (selectClause other false)
      fun _ => True := fun low s hs => alongside_selectClause hd false (Proceeds.expectKeyword _ low s hs)
  refine .look fun start => hselect.andThen fun select => ?_
  refine (proceeds_fromClause? hd false).andThen fun fromClause => ?_
  refine (proceeds_whereClause? hd).andThen fun whereClause => ?_
  refine (proceeds_groupByClause? hd).andThen fun groupBy => ?_
  refine (proceeds_havingClause? hd).andThen fun having => ?_
  exact (proceeds_orderByClause? hd).andThen fun orderBy => .pushFrom rfl _

/-- A subquery goes as far as its word does, and on. -/
theorem alongside_simpleSelect (hs : s.Named isName) (hword : Alongside env isName low
    { s with virtualVariable := none } (expectKeyword .select) (expectKeyword .select) fun _ => True) :
    Alongside env isName low s (simpleSelect deeper) (simpleSelect other) fun _ => True := by
  refine .withoutVirtual hs (.look ((alongside_selectClause hd true hword).bind fun select _ => ?_))
  refine (proceeds_fromClause? hd true).andThen fun fromClause => ?_
  refine (proceeds_whereClause? hd).andThen fun whereClause => ?_
  refine (proceeds_groupByClause? hd).andThen fun groupBy => ?_
  exact (proceeds_havingClause? hd).andThen fun having => .pushFrom rfl _

theorem proceeds_simpleSelect :
    Proceeds env isName (simpleSelect deeper) (simpleSelect other) fun _ => True := fun low _ hs =>
  alongside_simpleSelect hd hs.toNamed (Proceeds.expectKeyword _ low _ hs.forget)

theorem proceeds_updateStatement :
    Proceeds env isName (updateStatement deeper) (updateStatement other) fun _ => True := by
  refine fun low s hs => .withoutVirtual hs.toNamed (.look ?_)
  refine (Proceeds.advance low _ hs.forget).bind fun _ _ => ?_
  refine (proceeds_rangeDeclaration hd.regular true).andThen fun range => ?_
  refine (proceeds_updateItems hd).andThen fun items => (Proceeds.pushFrom rfl _).andThen fun update => ?_
  exact (proceeds_whereClause? hd).andThen fun whereClause => .pushFrom rfl _

theorem proceeds_deleteStatement :
    Proceeds env isName (deleteStatement deeper) (deleteStatement other) fun _ => True := by
  refine fun low s hs => .withoutVirtual hs.toNamed (.look ?_)
  refine (Proceeds.advance low _ hs.forget).bind fun _ _ => ?_
  refine (Proceeds.expectKeyword _).andThen fun _ => ?_
  refine (proceeds_rangeDeclaration hd.regular true).andThen fun range => ?_
  refine (Proceeds.pushFrom rfl _).andThen fun delete => ?_
  exact (proceeds_whereClause? hd).andThen fun whereClause => .pushFrom rfl _

theorem proceeds_parenSubquery :
    Proceeds env isName (parenSubquery deeper) (parenSubquery other) fun _ => True := by
  refine (Proceeds.discard_expect _).andThen fun _ => (Proceeds.atKeyword _).andThen fun atSelect => ?_
  have hclose : ∀ subquery : NodeId, Proceeds env isName (do
      discard (expect .rightParen)
      return subquery) (do
      discard (expect .rightParen)
      return subquery) fun _ => True := fun _ =>
    (Proceeds.discard_expect _).andThen fun _ => .pure trivial
  cases atSelect with
  | true => exact (proceeds_simpleSelect hd).andThen hclose
  | false => exact (proceeds_missing _).andThen hclose

/-! ## Nested constructs -/

omit hd in
/-- What starts by moving over the current token. -/
theorem alongside_intro {f g : Nat → Parser α} {post : α → Prop} (h : env.Regular isName)
    (hs : Arrived env isName low s) (hkind : (s.stream env).kind ≠ .eof)
    (hf : ∀ start, Proceeds env isName (f start) (g start) post) :
    Alongside env isName (s.position + 1) s (do
      let start ← look (·.currentStart)
      advance
      f start) (do
      let start ← look (·.currentStart)
      advance
      g start) post :=
  .look ((Alongside.advance h hs hkind).bind fun _ _ => hf _)

theorem alongside_signed (negative : Bool) (hs : Arrived env isName low s)
    (hkind : (s.stream env).kind ≠ .eof) :
    Alongside env isName (s.position + 1) s (signed deeper negative) (signed other negative)
      fun _ => True :=
  alongside_intro hd.regular hs hkind fun _ =>
    (proceeds_factor hd (hd.regular.rule (Grammar.standard_registers (by simp)))).andThen fun _ =>
      .pushFrom rfl _

theorem alongside_negation {rule : String} (hrule : (env.grammar.rule? rule).isSome = true)
    (hs : Arrived env isName low s) (hkind : (s.stream env).kind ≠ .eof) :
    Alongside env isName (s.position + 1) s (negation deeper rule) (negation other rule)
      fun _ => True := by
  refine alongside_intro hd.regular hs hkind fun start =>
    (Proceeds.consumeKeyword _).andThen fun isExists => ?_
  split
  · exact (proceeds_parenSubquery hd).andThen fun _ => .pushFrom rfl _
  · exact (proceeds_negatable hd hrule).andThen fun _ => .pushFrom rfl _

theorem alongside_group (hs : Arrived env isName low s) (hkind : (s.stream env).kind ≠ .eof) :
    Alongside env isName (s.position + 1) s (group deeper) (group other) fun _ => True := by
  refine alongside_intro hd.regular hs hkind fun start =>
    (Proceeds.atKeyword _).andThen fun atSelect => ?_
  have hclose : ∀ expression : NodeId, Proceeds env isName (do
      discard (expect .rightParen)
      pushFrom (.group expression) start) (do
      discard (expect .rightParen)
      pushFrom (.group expression) start) fun _ => True := fun _ =>
    (Proceeds.discard_expect _).andThen fun _ => .pushFrom rfl _
  split
  · exact (proceeds_simpleSelect hd).andThen hclose
  · exact (proceeds_condition hd).andThen hclose

/-! ## Calls -/

omit hd in
theorem proceeds_inParens {p q : Parser α} {post : α → Prop} (h : Proceeds env isName p q post) :
    Proceeds env isName (inParens p) (inParens q) post :=
  (Proceeds.discard_expect _).andThen fun _ => h.bind fun _ ha =>
    (Proceeds.discard_expect _).andThen fun _ => .pure ha

theorem proceeds_path : Proceeds env isName (path deeper) (path other) fun _ => True :=
  proceeds_primary hd (hd.regular.rule (Grammar.standard_registers (by simp)))

theorem proceeds_twoScalars :
    Proceeds env isName (twoScalars deeper) (twoScalars other) fun _ => True :=
  (proceeds_scalar hd).andThen fun _ => (Proceeds.discard_expect _).andThen fun _ =>
    (proceeds_scalar hd).andThen fun _ => .pure trivial

theorem proceeds_threeScalars :
    Proceeds env isName (threeScalars deeper) (threeScalars other) fun _ => True := by
  refine (proceeds_twoScalars hd).andThen fun (first, second) => ?_
  refine (Proceeds.consume _).andThen fun hasThird => ?_
  split
  · exact (proceeds_scalar hd).andThen fun _ => .pure trivial
  · exact .pure trivial

omit hd in
theorem proceeds_trimSide : Proceeds env isName trimSide trimSide fun _ => True := by
  refine (Proceeds.consumeKeyword _).andThen fun isLeading => ?_
  split
  · exact .pure trivial
  · refine (Proceeds.consumeKeyword _).andThen fun isTrailing => ?_
    split
    · exact .pure trivial
    · refine (Proceeds.consumeKeyword _).andThen fun isBoth => ?_
      split <;> exact .pure trivial

/-- **Reads a node that is no variable.** -/
theorem proceeds_trimArguments :
    Proceeds env isName (trimArguments deeper) (trimArguments other) NodeKind.Nameless := by
  refine proceeds_trimSide.andThen fun side => .look fun withCharacter => ?_
  have hrest : ∀ character : Option NodeId, Proceeds env isName (do
      let hasFrom ← consumeKeyword .from
      let string ← scalar deeper
      return NodeKind.trim side character hasFrom string) (do
      let hasFrom ← consumeKeyword .from
      let string ← scalar other
      return NodeKind.trim side character hasFrom string) NodeKind.Nameless := fun character =>
    (Proceeds.consumeKeyword _).andThen fun hasFrom => (proceeds_scalar hd).andThen fun _ => .pure rfl
  cases withCharacter with
  | true =>
    have hcharacter : Proceeds env isName (some <$> primary deeper RuleId.scalar)
        (some <$> primary other RuleId.scalar) fun _ => True :=
      .map (proceeds_primary hd (hd.regular.rule (Grammar.standard_registers (by simp))))
    exact hcharacter.andThen hrest
  | false => exact hrest none

theorem proceeds_aggregateArgument :
    Proceeds env isName (aggregateArgument deeper) (aggregateArgument other) fun _ => True :=
  (Proceeds.consumeKeyword _).andThen fun _ => (proceeds_scalar hd).andThen fun _ => .pure trivial

theorem proceeds_whenClause :
    Proceeds env isName (whenClause deeper) (whenClause other) fun _ => True :=
  .look fun _ => Proceeds.advance.andThen fun _ => (proceeds_condition hd).andThen fun _ =>
    (Proceeds.expectKeyword _).andThen fun _ => (proceeds_scalar hd).andThen fun _ => .pushFrom rfl _

theorem proceeds_caseBody :
    Proceeds env isName (caseBody deeper) (caseBody other) NodeKind.Nameless := by
  refine (Proceeds.atKeyword _).andThen fun atWhen => ?_
  have hrest : ∀ operand : Option NodeId, Proceeds env isName (do
      let whens ← loop (fun whens => do
        if ← atKeyword .when then return some (whens ++ [← whenClause deeper]) else return none) []
      if whens.isEmpty then expectKeyword .when
      expectKeyword .else
      let otherwise ← scalar deeper
      expectKeyword .end
      return NodeKind.caseOf operand whens otherwise) (do
      let whens ← loop (fun whens => do
        if ← atKeyword .when then return some (whens ++ [← whenClause other]) else return none) []
      if whens.isEmpty then expectKeyword .when
      expectKeyword .else
      let otherwise ← scalar other
      expectKeyword .end
      return NodeKind.caseOf operand whens otherwise) NodeKind.Nameless := by
    intro operand
    refine (Proceeds.items (Proceeds.atKeyword .when) (proceeds_whenClause hd) []).andThen fun whens => ?_
    have hlast : Proceeds env isName (do
        expectKeyword .else
        let otherwise ← scalar deeper
        expectKeyword .end
        return NodeKind.caseOf operand whens otherwise) (do
        expectKeyword .else
        let otherwise ← scalar other
        expectKeyword .end
        return NodeKind.caseOf operand whens otherwise) NodeKind.Nameless :=
      (Proceeds.expectKeyword _).andThen fun _ => (proceeds_scalar hd).andThen fun _ =>
        (Proceeds.expectKeyword _).andThen fun _ => .pure rfl
    dsimp only
    split
    · exact (Proceeds.expectKeyword _).andThen fun _ => hlast
    · exact hlast
  cases atWhen with
  | true => exact hrest none
  | false =>
    have hoperand : Proceeds env isName (some <$> scalar deeper) (some <$> scalar other)
        fun _ => True := .map (proceeds_scalar hd)
    exact hoperand.andThen hrest

theorem proceeds_treatArguments :
    Proceeds env isName (treatArguments deeper) (treatArguments other) NodeKind.Nameless := by
  refine (proceeds_path hd).andThen fun path => (Proceeds.asCollection path).andThen fun _ => ?_
  refine (Proceeds.consumeKeyword _).andThen fun hasAs => .look fun name? => ?_
  cases name? with
  | some name => exact (proceeds_entityType name).andThen fun _ => .pure rfl
  | none => exact (proceeds_missing _).andThen fun _ => .pure rfl

theorem proceeds_callArguments :
    Proceeds env isName (callArguments deeper) (callArguments other) NodeKind.Nameless := by
  have hlast : ∀ name, Proceeds env isName (do
      let arguments ← if ← consume .comma then separated (scalar deeper) else pure []
      return NodeKind.call name arguments) (do
      let arguments ← if ← consume .comma then separated (scalar other) else pure []
      return NodeKind.call name arguments) NodeKind.Nameless := by
    refine fun name => (Proceeds.consume _).andThen fun hasArguments => ?_
    split
    · exact (Proceeds.separated (proceeds_scalar hd)).andThen fun arguments => .pure rfl
    · exact .pure rfl
  refine .look fun kind => ?_
  split
  · exact Proceeds.advance.andThen fun _ => hlast _
  · exact (Proceeds.recordHere _ _).andThen fun _ => hlast _

omit hd in
theorem proceeds_className : Proceeds env isName className className fun _ => True := by
  refine .look fun name? => ?_
  cases name? with
  | some first =>
    exact Proceeds.advance.andThen fun _ => Proceeds.segments.andThen fun (_, _) => .pure trivial
  | none => exact (Proceeds.recordHere _ _).andThen fun _ => .pure trivial

theorem proceeds_constructorBody :
    Proceeds env isName (constructorBody deeper) (constructorBody other) NodeKind.Nameless :=
  proceeds_className.andThen fun _ => (proceeds_inParens (.separated (proceeds_operand hd
    (hd.regular.rule (Grammar.standard_registers (by simp)))))).andThen fun _ => .pure rfl

/-- **What a keyword introduces** is no variable. -/
theorem proceeds_callBody (construct : Construct) (word : TokenKind) :
    Proceeds env isName (callBody deeper construct word) (callBody other construct word)
      fun kind? => ∀ kind ∈ kind?, kind.Nameless := by
  have hsome : ∀ {kind : NodeKind}, kind.Nameless →
      Proceeds env isName (pure (some kind)) (pure (some kind)) fun kind? =>
        ∀ kind ∈ kind?, kind.Nameless := fun h => .pure (by rintro _ ⟨⟩; exact h)
  have hmap : ∀ {p q : Parser NodeKind}, Proceeds env isName p q (NodeKind.Nameless) →
      Proceeds env isName (some <$> p) (some <$> q) fun kind? =>
        ∀ kind ∈ kind?, kind.Nameless := fun h =>
    .map (h.mono fun _ hkind => by rintro _ ⟨⟩; exact hkind)
  have hscalar := proceeds_inParens (proceeds_scalar hd)
  have hpath := proceeds_inParens (proceeds_path hd)
  have htwo := proceeds_inParens (proceeds_twoScalars hd)
  have hthree := proceeds_inParens (proceeds_threeScalars hd)
  have hlist := proceeds_inParens (Proceeds.separated (proceeds_scalar hd))
  cases construct
  case abs | sqrt | length | lower | upper => exact hscalar.andThen fun _ => hsome rfl
  case size =>
    exact hscalar.andThen fun _ => (Proceeds.asCollection _).andThen fun _ => hsome rfl
  case index | entry | key | value | object => exact hpath.andThen fun _ => hsome rfl
  case type =>
    exact (proceeds_inParens (proceeds_primary hd
      (hd.regular.rule (Grammar.standard_registers (by simp))))).andThen fun _ => hsome rfl
  case mod | nullif => exact htwo.andThen fun _ => hsome rfl
  case locate | substring => exact hthree.andThen fun _ => hsome rfl
  case concat | coalesce => exact hlist.andThen fun _ => hsome rfl
  case trim => exact hmap (proceeds_inParens (proceeds_trimArguments hd))
  case aggregate =>
    exact (proceeds_inParens (proceeds_aggregateArgument hd)).andThen fun _ => hsome rfl
  case caseOf => exact hmap (proceeds_caseBody hd)
  case treat => exact hmap (proceeds_inParens (proceeds_treatArguments hd))
  case call => exact hmap (proceeds_inParens (proceeds_callArguments hd))
  case constructor => exact hmap (proceeds_constructorBody hd)
  case existence | quantified => exact (proceeds_parenSubquery hd).andThen fun _ => hsome rfl
  all_goals exact .pure (by rintro _ ⟨⟩)

theorem alongside_call (construct : Construct) (hs : Arrived env isName low s)
    (hkind : (s.stream env).kind ≠ .eof) :
    Alongside env isName (s.position + 1) s (call deeper construct) (call other construct)
      fun _ => True := by
  refine .look (.look ((Alongside.advance hd.regular hs hkind).bind fun _ _ => ?_))
  refine (proceeds_callBody hd construct _).bind fun kind? hkind? => ?_
  cases kind? with
  | none => exact proceeds_missing _
  | some kind =>
    refine (Proceeds.pushFrom (hkind? kind rfl) _).andThen fun id => ?_
    split
    · exact proceeds_continuePath id _
    · exact .pure trivial

/-- **Every nested construct goes on by a token**, where it may start. -/
theorem Deeper.Proceeding.nested : (nested deeper).Proceeding env isName (nested other) where
  regular := hd.regular
  reads construct low s hlegal hahead hs := by
    have heof := hahead.ne_eof
    cases construct with
    | negation rule => exact alongside_negation hd hlegal hs heof
    | sign negative => exact alongside_signed hd negative hs heof
    | group => exact alongside_group hd hs heof
    | subquery =>
      exact alongside_simpleSelect hd hs.toNamed (.expectKeyword hd.regular hs.forget hahead)
    | call construct => exact alongside_call hd construct hs heof

/-! ## Whole texts -/

theorem proceeds_statement? {rule : String} (hrule : (env.grammar.rule? rule).isSome = true) :
    Proceeds env isName (statement? deeper rule) (statement? other rule) fun _ => True := by
  have hconstruct : ∀ construct?, Proceeds env isName (statementOf deeper construct?)
      (statementOf other construct?) fun _ => True := by
    intro construct?
    unfold statementOf
    split
    · exact .map (proceeds_selectStatement hd)
    · exact .map (proceeds_simpleSelect hd)
    · exact .map (proceeds_updateStatement hd)
    · exact .map (proceeds_deleteStatement hd)
    · exact .read (.look fun start => (Proceeds.record _).andThen fun _ => .pure trivial)
  refine .look fun kind => ?_
  split
  · intro low s hs
    refine (alike_dispatch hrule _).bind ?_
    rintro construct? t ⟨rfl, -⟩
    exact hconstruct construct? low t hs
  · exact hconstruct none

/-- **A whole text is read.** -/
theorem proceeds_query {rule : String} (hrule : (env.grammar.rule? rule).isSome = true) :
    Proceeds env isName (query deeper rule) (query other rule) fun _ => True := by
  have hstart : Proceeds env isName (start? deeper rule) (start? other rule) fun _ => True := by
    unfold start?
    split
    · exact proceeds_statement? hd hrule
    · exact .map (proceeds_disjunction hd hrule)
  exact hstart.andThen fun _ => proceeds_trailingText.andThen fun _ =>
    .read (.push nofun _)

end

/-! ## Levels -/

/-- **Runs a reader of a nested construct under watch**: fails if the construct starts at the end of the text
or at a closing parenthesis, or if no token is moved over. -/
def watch (reader : Parser NodeId) : Parser NodeId := do
  let entry ← stream
  if entry.kind = .eof ∨ entry.kind = .rightParen then throw (.unknownRule "nested construct")
  else
    let id ← reader
    let left ← stream
    if left.position ≤ entry.position then throw (.unknownRule "nested construct")
    else return id

/-- **The reader of nested constructs with a number of levels left**, with every nested construct under
watch. -/
def watchedLevel : Nat → Deeper
  | 0, _ => watch skipTooDeep
  | levels + 1, construct => watch (nested (watchedLevel levels) construct)

/-- **Nothing is read, and an empty node says so**: it is new and without width, and one problem is anchored
at it. -/
structure Missed (s : State) (id : NodeId) (t : State) : Prop where
  position : t.position = s.position
  new : id = s.builder.nodes.size ∧ t.builder.nodes.size = id + 1
  bad : t.builder.kind id = .bad
  width : (t.builder.span id).start = (t.builder.span id).stop
  reported : ∃ problem, t.problems = s.problems ++ [problem] ∧ problem.key = .missingExpression ∧
    problem.anchor = some id

theorem Missing.missed {what : String} {id : NodeId} {t : State} (h : Missing what s id t) :
    Missed s id t := by
  obtain ⟨rfl, offset, rfl⟩ := h
  have hspan : (s.draft.push .bad (.point offset)).span s.draft.size = .point offset :=
    Draft.span_push _ _ _
  refine ⟨rfl, ⟨rfl, Draft.size_push _ _ _⟩, Draft.kind_push _ _ _, ?_, _, rfl, rfl, rfl⟩
  exact (congrArg Span.start hspan).trans (congrArg Span.stop hspan).symm

/-- Where a construct starts at a token that it moves over, the watch does not interfere. -/
theorem Alongside.watch {p q : Parser NodeId} {post : NodeId → Prop}
    (heof : (s.stream env).kind ≠ .eof) (hclose : (s.stream env).kind ≠ .rightParen)
    (h : Alongside env isName (s.position + 1) s p q post) :
    Alongside env isName (s.position + 1) s p (watch q) post := by
  obtain ⟨id, t, hp, hq, ht, hid⟩ := h
  refine ⟨id, t, hp, ?_, ht, hid⟩
  have hentry : ¬ ((s.stream env).kind = .eof ∨ (s.stream env).kind = .rightParen) :=
    fun h => h.elim heof hclose
  have hmoved : ¬ t.position ≤ s.position := Nat.not_le_of_lt ht.low_le
  rw [State.stream] at hentry
  unfold Parse.watch
  show (ite _ _ _ : Parser NodeId) env s = _
  rw [if_neg hentry]
  show (q env s >>= fun x => (ite (x.2.position ≤ s.position) _ _ : Parser NodeId) env x.2) = _
  rw [hq]
  show (ite (t.position ≤ s.position) _ _ : Parser NodeId) env t = _
  rw [if_neg hmoved]
  rfl

/-- **At every level nested constructs go on by a token**, and the watch does not interfere. -/
theorem level_proceeding (h : env.Regular isName) (levels : Nat) :
    (level levels).Proceeding env isName (watchedLevel levels) where
  regular := h
  reads := by
    induction levels with
    | zero =>
      exact fun _ _ _ _ hahead hs => .watch hahead.ne_eof hahead.ne_rightParen
        (alongside_skipTooDeep h hs hahead.ne_eof hahead.ne_rightParen)
    | succ levels ih =>
      exact fun construct low s hlegal hahead hs => .watch hahead.ne_eof hahead.ne_rightParen
        ((Deeper.Proceeding.mk h ih).nested.reads construct low s hlegal hahead hs)

/-- **Every primary expression makes progress or is missing.** From any state, under a rule of the grammar, a
token at least is moved over, or nothing is read and an empty node with one problem stands for it. No
nested construct starts at the end of the text or at a closing parenthesis, and each moves over a token at
least, here and in a whole text. -/
theorem primary_progress (hgrammar : env.grammar = .standard)
    (hends : env.tokens.back?.map (·.kind) = some .eof) {rule : String}
    (hrule : (env.grammar.rule? rule).isSome = true) (levels : Nat) (s : State) :
    (∃ id t, primary (level levels) rule env s = .ok (id, t) ∧
      primary (watchedLevel levels) rule env s = .ok (id, t) ∧
        (s.position < t.position ∨ Missed s id t)) ∧
      (s.position < env.tokens.size → ∃ id t, query (level levels) rule env s = .ok (id, t) ∧
        query (watchedLevel levels) rule env s = .ok (id, t)) := by
  have hregular : env.Regular fun _ => True :=
    ⟨hgrammar, hends, fun _ _ _ _ => trivial, fun _ _ _ => trivial, fun _ _ => trivial⟩
  have hd := level_proceeding hregular levels
  have hs : s.Named fun _ => True := ⟨fun _ _ _ => trivial, fun _ _ => trivial⟩
  refine ⟨?_, fun hinside => ?_⟩
  · obtain ⟨id, t, hrun, hwatched, ht⟩ := alike_primary hd hrule hs
    exact ⟨id, t, hrun, hwatched, ht.imp (·.low_le) (·.missed)⟩
  · obtain ⟨id, t, hrun, hwatched, -⟩ :=
      proceeds_query hd hrule s.position s ⟨hs, Nat.le_refl _, Nat.le_sub_one_of_lt hinside⟩
    exact ⟨id, t, hrun, hwatched⟩

/-- A sum with a negation nested in its first term, and without a second. -/
theorem primary_progress_sum :
    let env : Env := ⟨"(NOT a) +", (tokenize "(NOT a) +").tokens.toArray, .standard, 8⟩
    (∃ id t, primary (level 8) RuleId.scalar env .initial = .ok (id, t) ∧
      primary (watchedLevel 8) RuleId.scalar env .initial = .ok (id, t) ∧
        (State.initial.position < t.position ∨ Missed .initial id t)) ∧
      (State.initial.position < env.tokens.size →
        ∃ id t, query (level 8) RuleId.scalar env .initial = .ok (id, t) ∧
          query (watchedLevel 8) RuleId.scalar env .initial = .ok (id, t)) :=
  primary_progress rfl (by decide +kernel) (Grammar.standard_registers (by simp)) 8 .initial

end Jpql.Parse
