import Jpql.Proofs.Reader.Conserve

/-! # What the readers of nested constructs keep

Given in addition that the reader of a subquery keeps a property of states, so do the readers of all
other nested constructs (`Conserved.nested`): negations, signs, groups and calls. -/

namespace Jpql.Parse.Conserved

variable {env : Env} {inv : State → Prop} {known : NodeId → Prop}
variable (C : Conserved env inv known) {deeper : Deeper} (hd : Reads env inv known deeper)

include C

/-! ## Arguments -/

theorem inParens {α : Type} {reader : Parser α} {post : α → Prop} (h : Keeps env inv reader post) :
    Keeps env inv (inParens reader) post :=
  (C.discard_expect _).bind fun _ _ => h.bind fun _ ha => (C.discard_expect _).bind fun _ _ => .pure ha

include hd

theorem path : Keeps env inv (path deeper) known := C.primary hd _

theorem twoScalars : Keeps env inv (twoScalars deeper) fun args => known args.1 ∧ known args.2 :=
  (C.scalar hd).bind fun _ hfirst => (C.discard_expect _).bind fun _ _ =>
    (C.scalar hd).bind fun _ hsecond => .pure ⟨hfirst, hsecond⟩

theorem threeScalars : Keeps env inv (threeScalars deeper) fun args =>
    known args.1 ∧ known args.2.1 ∧ AllKnown known args.2.2 := by
  refine (C.twoScalars hd).bind fun args hargs => ?_
  refine (C.consume .comma).bind fun more _ => ?_
  cases more with
  | true => exact (C.scalar hd).bind fun _ hthird => .pure ⟨hargs.1, hargs.2, allKnown_some hthird⟩
  | false => exact .pure ⟨hargs.1, hargs.2, allKnown_none⟩

omit hd in
theorem trimSide : Keeps env inv trimSide fun _ => True := by
  refine (C.consumeKeyword .leading).bind fun isLeading _ => ?_
  cases isLeading with
  | true => exact .pure trivial
  | false =>
    refine (C.consumeKeyword .trailing).bind fun isTrailing _ => ?_
    cases isTrailing with
    | true => exact .pure trivial
    | false =>
      refine (C.consumeKeyword .both).bind fun isBoth _ => ?_
      cases isBoth <;> exact .pure trivial

theorem trimArguments : Keeps env inv (trimArguments deeper) (NodeKind.Over known) := by
  refine C.trimSide.bind fun side _ => .look fun withCharacter => ?_
  have hlast : ∀ character, AllKnown known character → Keeps env inv (do
      let hasFrom ← Parse.consumeKeyword .from
      let string ← Parse.scalar deeper
      return NodeKind.trim side character hasFrom string) (NodeKind.Over known) := by
    refine fun character hcharacter => (C.consumeKeyword .from).bind fun hasFrom _ => ?_
    refine (C.scalar hd).bind fun string hstring => .pure ⟨rfl, fun child hc => ?_⟩
    simp only [NodeKind.children, List.mem_append, Option.mem_toList, List.mem_singleton] at hc
    rcases hc with hc | rfl
    · exact hcharacter child hc
    · exact hstring
  cases withCharacter with
  | true => exact Keeps.bind (.map ((C.primary hd _).mono fun _ hid => allKnown_some hid)) hlast
  | false => exact Keeps.bind (.pure allKnown_none) hlast

theorem aggregateArgument : Keeps env inv (aggregateArgument deeper) fun args => known args.2 :=
  (C.consumeKeyword .distinct).bind fun _ _ => (C.scalar hd).bind fun _ hid => .pure hid

theorem whenClause : Keeps env inv (whenClause deeper) known := by
  refine .look fun start => C.advance.bind fun _ _ => ?_
  refine (C.condition hd).bind fun condition hcondition => ?_
  refine (C.expectKeyword .then).bind fun _ _ => (C.scalar hd).bind fun result hresult => ?_
  exact C.pushFrom ⟨rfl, by simp [NodeKind.children, hcondition, hresult]⟩ start

theorem caseBody : Keeps env inv (caseBody deeper) (NodeKind.Over known) := by
  refine (atKeyword .when).bind fun isSearched _ => ?_
  have hlast : ∀ operand whens, AllKnown known operand → AllKnown known whens → Keeps env inv (do
      Parse.expectKeyword .else
      let otherwise ← Parse.scalar deeper
      Parse.expectKeyword .end
      return NodeKind.caseOf operand whens otherwise) (NodeKind.Over known) := by
    refine fun operand whens hoperand hwhens => (C.expectKeyword _).bind fun _ _ => ?_
    refine (C.scalar hd).bind fun otherwise hotherwise => ?_
    refine (C.expectKeyword _).bind fun _ _ => .pure ⟨rfl, fun child hc => ?_⟩
    simp only [NodeKind.children, List.mem_append, Option.mem_toList, List.mem_singleton] at hc
    rcases hc with (hc | hc) | rfl
    · exact hoperand child hc
    · exact hwhens child hc
    · exact hotherwise
  have hwhens : ∀ operand, AllKnown known operand → Keeps env inv (do
      let whens ← Parse.loop (fun whens => do
        if ← Parse.atKeyword .when then return some (whens ++ [← Parse.whenClause deeper])
        else return none) []
      if whens.isEmpty then Parse.expectKeyword .when
      Parse.expectKeyword .else
      let otherwise ← Parse.scalar deeper
      Parse.expectKeyword .end
      return NodeKind.caseOf operand whens otherwise) (NodeKind.Over known) := by
    intro operand hoperand
    refine (Keeps.loop_items (atKeyword .when) (C.whenClause hd) allKnown_nil).bind fun whens hwhens => ?_
    dsimp only
    split
    · exact (C.expectKeyword _).bind fun _ _ => hlast operand whens hoperand hwhens
    · exact hlast operand whens hoperand hwhens
  cases isSearched with
  | true => exact Keeps.bind (.pure allKnown_none) hwhens
  | false => exact Keeps.bind (.map ((C.scalar hd).mono fun _ hid => allKnown_some hid)) hwhens

theorem treatArguments : Keeps env inv (treatArguments deeper) (NodeKind.Over known) := by
  refine (C.path hd).bind fun path hpath => (C.asCollection path).bind fun _ _ => ?_
  refine (C.consumeKeyword .as).bind fun hasAs _ => .look fun name? => ?_
  have hlast : ∀ type, known type → (NodeKind.treat path hasAs type).Over known :=
    fun type htype => ⟨rfl, by simp [NodeKind.children, hpath, htype]⟩
  cases name? with
  | some name => exact (C.entityType name).bind fun type htype => .pure (hlast type htype)
  | none => exact (C.missing _).bind fun type htype => .pure (hlast type htype)

theorem callArguments : Keeps env inv (callArguments deeper) (NodeKind.Over known) := by
  have hlast : ∀ name, Keeps env inv (do
      let arguments ← if ← Parse.consume .comma then Parse.separated (Parse.scalar deeper) else pure []
      return NodeKind.call name arguments) (NodeKind.Over known) := by
    refine fun name => (C.consume .comma).bind fun more _ => ?_
    cases more with
    | true => exact (C.separated (C.scalar hd)).bind fun arguments harguments => .pure ⟨rfl, harguments⟩
    | false => exact Keeps.bind (.pure allKnown_nil) fun arguments harguments => .pure ⟨rfl, harguments⟩
  refine .look fun kind => ?_
  split
  · exact (C.advance.seqRight (.pure trivial)).bind fun name (_ : True) => hlast name
  · exact ((C.recordHere _ _).seqRight (.pure trivial)).bind fun name (_ : True) => hlast name

omit hd in
theorem className : Keeps env inv className fun _ => True := by
  refine .look fun first? => ?_
  cases first? with
  | some first => exact C.advance.bind fun _ _ => C.segments.bind fun _ _ => .pure trivial
  | none => exact (C.recordHere _ _).bind fun _ _ => .pure trivial

theorem constructorBody : Keeps env inv (constructorBody deeper) (NodeKind.Over known) :=
  C.className.bind fun _ _ => (C.inParens (C.separated (C.operand hd _))).bind fun _ harguments =>
    .pure ⟨rfl, harguments⟩

/-! ## Subqueries and calls -/

variable (hsubquery : Keeps env inv (simpleSelect deeper) known)

include hsubquery

omit hd in
theorem parenSubquery : Keeps env inv (parenSubquery deeper) known := by
  refine (C.discard_expect _).bind fun _ _ => (atKeyword .select).bind fun isSubquery _ => ?_
  have hlast : ∀ id, known id → Keeps env inv
      (do discard (Parse.expect .rightParen); return id) known :=
    fun id hid => (C.discard_expect _).bind fun _ _ => .pure hid
  cases isSubquery with
  | true => exact hsubquery.bind hlast
  | false => exact (C.missing _).bind hlast

omit C hd hsubquery in
/-- A construct with one argument. -/
theorem callOf {reader : Parser NodeId} {kind : NodeId → NodeKind} (h : Keeps env inv reader known)
    (hkind : ∀ id, (kind id).isContextFree = true) (hchildren : ∀ id, (kind id).children = [id]) :
    Keeps env inv (do return some (kind (← reader))) (MayMake known) :=
  h.bind fun id hid => .pure (mayMake_some (hkind id) (by simpa [hchildren] using hid))

/-- **What a keyword introduces keeps the property.** -/
theorem callBody (construct : Construct) (word : TokenKind) :
    Keeps env inv (callBody deeper construct word) (MayMake known) := by
  have hscalar := C.inParens (C.scalar hd)
  have hpath := C.inParens (C.path hd)
  have htwo := C.inParens (C.twoScalars hd)
  have hthree := C.inParens (C.threeScalars hd)
  have hitems := C.inParens (C.separated (C.scalar hd))
  have hparen := C.parenSubquery hsubquery
  have hmade : ∀ {kind : NodeKind}, kind.Over known → MayMake known (some kind) :=
    fun h => mayMake_some h.1 h.2
  cases construct
  case abs | sqrt | length | lower | upper => exact callOf hscalar (fun _ => rfl) fun _ => rfl
  case size =>
    refine hscalar.bind fun id hid => (C.asCollection id).bind fun _ _ => ?_
    exact .pure (mayMake_some rfl (by simpa [NodeKind.children] using hid))
  case index | entry | key | value | object => exact callOf hpath (fun _ => rfl) fun _ => rfl
  case type => exact callOf (C.inParens (C.primary hd _)) (fun _ => rfl) fun _ => rfl
  case mod | nullif =>
    refine htwo.bind fun args hargs => .pure (mayMake_some rfl ?_)
    simp [NodeKind.children, hargs.1, hargs.2]
  case locate | substring =>
    refine hthree.bind fun args hargs => .pure (mayMake_some rfl ?_)
    simpa [NodeKind.children, AllKnown, hargs.1, hargs.2.1] using hargs.2.2
  case concat | coalesce => exact hitems.bind fun items hitems => .pure (mayMake_some rfl hitems)
  case trim => exact .map ((C.inParens (C.trimArguments hd)).mono fun _ => hmade)
  case aggregate =>
    refine (C.inParens (C.aggregateArgument hd)).bind fun args hargs => .pure (mayMake_some rfl ?_)
    simpa [NodeKind.children] using hargs
  case caseOf => exact .map ((C.caseBody hd).mono fun _ => hmade)
  case treat => exact .map ((C.inParens (C.treatArguments hd)).mono fun _ => hmade)
  case call => exact .map ((C.inParens (C.callArguments hd)).mono fun _ => hmade)
  case constructor => exact .map ((C.constructorBody hd).mono fun _ => hmade)
  case existence => exact callOf hparen (fun _ => rfl) fun _ => rfl
  case quantified => exact callOf hparen (fun _ => rfl) fun _ => rfl
  all_goals exact .pure (by simp [MayMake])

theorem call (construct : Construct) : Keeps env inv (call deeper construct) known := by
  refine .look fun start => .look fun word => C.advance.bind fun _ _ => ?_
  refine (C.callBody hd hsubquery construct word).bind fun kind? hkind => ?_
  cases kind? with
  | none => exact C.missing _
  | some kind =>
    refine (C.pushFrom (hkind kind rfl) start).bind fun id hid => ?_
    split
    · exact C.continuePath hid start
    · exact .pure hid

theorem negation (rule : String) : Keeps env inv (negation deeper rule) known := by
  refine .look fun start => C.advance.bind fun _ _ => ?_
  refine (C.consumeKeyword .exists).bind fun isExists _ => ?_
  cases isExists with
  | true =>
    refine (C.parenSubquery hsubquery).bind fun subquery hid => C.pushFrom ⟨rfl, ?_⟩ start
    simpa [NodeKind.children] using hid
  | false =>
    refine (C.negatable hd rule).bind fun expression hid => C.pushFrom ⟨rfl, ?_⟩ start
    simpa [NodeKind.children] using hid

theorem group : Keeps env inv (group deeper) known := by
  refine .look fun start => C.advance.bind fun _ _ => (atKeyword .select).bind fun isSubquery _ => ?_
  have hlast : ∀ id, known id → Keeps env inv (do
      discard (Parse.expect .rightParen)
      Parse.pushFrom (.group id) start) known :=
    fun id hid => (C.discard_expect _).bind fun _ _ =>
      C.pushFrom ⟨rfl, by simpa [NodeKind.children] using hid⟩ start
  cases isSubquery with
  | true => exact hsubquery.bind hlast
  | false => exact (C.condition hd).bind hlast

/-- **Nested constructs keep what subqueries keep.** -/
theorem nested (construct : Nested) : Keeps env inv (nested deeper construct) known := by
  cases construct with
  | negation rule => exact C.negation hd hsubquery rule
  | sign negative => exact C.signed hd negative
  | group => exact C.group hd hsubquery
  | subquery => exact hsubquery
  | call construct => exact C.call hd hsubquery construct

end Jpql.Parse.Conserved
