import Jpql.Proofs.Place.Declaration

/-! # Places of all nodes

Calls, statements and subqueries place their nodes, so by induction on the number of levels every
nested construct does (`Parse.level_placing`), and in the end the whole draft is well placed
(`Parse.query_placed`). -/

namespace Jpql.Parse

variable {α : Type} {env : Env} {s t : State} {loose : Bool} {low : Bound} {gathered : List NodeId}
  {nodes : α → List NodeId} {deeper : Deeper}

/-- Without a virtual variable nodes are placed alike. -/
theorem Begins.withoutVirtual {ahead : TokenKind → Prop} {p : Parser α} (hp : Begins env ahead p nodes) :
    Begins env ahead (withoutVirtual p) nodes := by
  refine fun low s hahead hs => .get_bind (.modify_bind ?_)
  refine (hp low { s with virtualVariable := none } hahead (hs.congr rfl rfl)).bind
    fun a t ⟨hc, hmoved, ht⟩ => .modify_bind (.pure ⟨?_, hmoved, ht.congr rfl rfl⟩)
  exact ⟨hc.position_le, hc.inside, hc.stays⟩

/-! ## Calls -/

section

variable (h : env.OfText)

include h

/-- Parentheses around something. -/
theorem gathers_inParens {reader : Parser α} (hreader : Gathers env loose low gathered reader nodes) :
    Gathers env loose low gathered (inParens reader) nodes :=
  (gathers_discard_expect h _).bind fun _ => hreader.bind fun _ =>
    (gathers_discard_expect h _).bind fun _ => gathers_pure (List.Sublist.refl _)

theorem draws_inParens {reader : Parser NodeKind}
    (hreader : Leads env (Held env false low gathered) reader (Drawn env low)) :
    Leads env (Held env false low gathered) (inParens reader) (Drawn env low) := by
  refine (gathers_discard_expect h _).bind fun _ => hreader.bind fun kind s ⟨hd, hsegments⟩ => ?_
  exact ((gathers_discard_expect h _).bind fun _ => draws_pure (List.Sublist.refl _) hsegments) s hd

theorem gathers_trimSide : Gathers env loose low gathered trimSide fun _ => gathered := by
  refine (gathers_consume h _).bind fun isLeading => ?_
  split
  · exact gathers_pure (List.Sublist.refl _)
  refine (gathers_consume h _).bind fun isTrailing => ?_
  split
  · exact gathers_pure (List.Sublist.refl _)
  refine (gathers_consume h _).bind fun isBoth => ?_
  split <;> exact gathers_pure (List.Sublist.refl _)

theorem gathers_className : Gathers env loose low gathered className fun _ => gathered := by
  refine .look fun name? => ?_
  split
  · refine (gathers_advance h).bind fun _ s hd => ?_
    exact (hd.segments h).bind fun found t ⟨hc, ht, _⟩ => .pure ⟨hc, ht⟩
  · exact (gathers_recordHere h _ _ (by simp)).bind fun _ => gathers_pure (List.Sublist.refl _)

end

section

variable (hd : deeper.Placing env)

include hd

theorem places_path : Places env (path deeper) one := places_primary hd _

/-- The operands of a function. -/
theorem places_twoScalars :
    Places env (twoScalars deeper) fun pair => [pair.1, pair.2] := fun low =>
  (places_scalar hd low).bind fun _ => (gathers_discard_expect hd.ofText _).bind fun _ =>
    ((places_scalar hd).gathers hd.ofText).bind fun _ => gathers_pure (List.Sublist.refl _)

theorem places_threeScalars : Places env (threeScalars deeper)
    fun triple => triple.1 :: triple.2.1 :: triple.2.2.toList := by
  refine fun low => (places_twoScalars hd low).bind fun (first, second) => ?_
  refine (gathers_consume hd.ofText _).bind fun hasThird => ?_
  split
  · exact ((places_scalar hd).gathers hd.ofText).bind fun third => gathers_pure (List.Sublist.refl _)
  · exact gathers_pure (List.Sublist.refl _)

theorem draws_trimArguments :
    Leads env (Held env false low []) (trimArguments deeper) (Drawn env low) := by
  have h := hd.ofText
  refine (gathers_trimSide h).bind fun side => .look fun withCharacter => ?_
  have hlast : ∀ character : Option NodeId, Leads env (Held env false low character.toList) (do
      let hasFrom ← consumeKeyword .from
      let string ← scalar deeper
      return .trim side character hasFrom string) (Drawn env low) := fun character =>
    (gathers_consume h _).bind fun hasFrom => ((places_scalar hd).gathers h).bind fun string =>
      draws_pure (List.Sublist.refl _) rfl
  split
  · have hcharacter : Gathers env false low [] (some <$> primary deeper RuleId.scalar)
        Option.toList := Leads.map (places_primary hd _ low)
    exact hcharacter.bind hlast
  · exact hlast none

theorem places_aggregateArgument :
    Places env (aggregateArgument deeper) fun pair => [pair.2] := fun low =>
  (gathers_consume hd.ofText _).bind fun _ => (places_scalar hd low).bind fun _ =>
    gathers_pure (List.Sublist.refl _)

theorem whenClause_begins : Begins env (· = .keyword .when) (whenClause deeper) one := by
  have h := hd.ofText
  refine begins_intro h (by rintro _ rfl; simp) fun start => ?_
  refine (places_condition hd _).bind fun condition => (gathers_expectKeyword h _).bind fun _ => ?_
  exact ((places_scalar hd).gathers h).bind fun result => gathers_pushFrom h rfl (List.Sublist.refl _)

theorem draws_caseBody : Leads env (Held env false low []) (caseBody deeper) (Drawn env low) := by
  have h := hd.ofText
  have hlast : ∀ (operand : Option NodeId) (whens : List NodeId),
      Leads env (Held env false low (operand.toList ++ whens)) (do
        expectKeyword .else
        let otherwise ← scalar deeper
        expectKeyword .end
        return .caseOf operand whens otherwise) (Drawn env low) := fun operand whens =>
    (gathers_expectKeyword h _).bind fun _ => ((places_scalar hd).gathers h).bind fun otherwise =>
      (gathers_expectKeyword h _).bind fun _ => draws_pure (List.Sublist.refl _) rfl
  have hwhens : ∀ operand : Option NodeId, Gathers env false low (operand.toList ++ [])
      (loop (fun whens => do
        if ← atKeyword .when then return some (whens ++ [← whenClause deeper]) else return none) [])
      (operand.toList ++ ·) := by
    refine fun operand => gathers_loop (fun whens => .atKeyword ?_ ?_) []
    · refine ((whenClause_begins hd).leads h).bind fun whenClause => gathers_pure ?_
      show (operand.toList ++ (whens ++ [whenClause])).Sublist _
      exact List.append_assoc operand.toList whens [whenClause] ▸ List.Sublist.refl _
    · exact gathers_pure (List.Sublist.refl _)
  have hrest : ∀ operand : Option NodeId, Leads env (Held env false low operand.toList) (do
      let whens ← loop (fun whens => do
        if ← atKeyword .when then return some (whens ++ [← whenClause deeper]) else return none) []
      if whens.isEmpty then expectKeyword .when
      expectKeyword .else
      let otherwise ← scalar deeper
      expectKeyword .end
      return .caseOf operand whens otherwise) (Drawn env low) := by
    intro operand
    have hstart := hwhens operand
    rw [List.append_nil] at hstart
    refine hstart.bind fun whens => ?_
    dsimp only
    split
    · exact (gathers_expectKeyword h _).bind fun _ => hlast operand whens
    · exact hlast operand whens
  refine .atKeyword ((hrest none).of_pre fun _ hs => hs.1) ?_
  exact Leads.bind (Leads.map (places_scalar hd low)) hrest

theorem draws_treatArguments :
    Leads env (Held env false low []) (treatArguments deeper) (Drawn env low) := by
  have h := hd.ofText
  refine (places_path hd low).bind fun path => (gathers_asCollection h path).bind fun _ => ?_
  refine (gathers_consume h _).bind fun hasAs => ?_
  have hlast : ∀ type, Leads env (Held env false low ([path] ++ [type]))
      (pure (.treat path hasAs type)) (Drawn env low) := fun type =>
    draws_pure (List.Sublist.refl _) rfl
  refine .identifier? (fun name => ?_) ?_
  · exact ((entityType_begins h name).leads h).bind hlast
  · exact ((places_missing h _).gathers h).bind hlast

theorem draws_callArguments :
    Leads env (Held env false low []) (callArguments deeper) (Drawn env low) := by
  have h := hd.ofText
  have hlast : ∀ name, Leads env (Held env false low []) (do
      let arguments ← if ← consume .comma then separated (scalar deeper) else pure []
      return .call name arguments) (Drawn env low) := by
    refine fun name => (gathers_consume h _).bind fun hasArguments => ?_
    split
    · exact (places_separated h (places_scalar hd) low).bind fun arguments =>
        draws_pure (List.Sublist.refl _) rfl
    · exact draws_pure (List.Sublist.refl _) rfl
  refine .look fun kind => ?_
  split
  · exact (gathers_advance h).bind fun _ => hlast _
  · exact (gathers_recordHere h _ _ (by simp)).bind fun _ => hlast _

theorem draws_constructorBody :
    Leads env (Held env false low []) (constructorBody deeper) (Drawn env low) :=
  (gathers_className hd.ofText).bind fun _ =>
    (gathers_inParens hd.ofText (places_separated hd.ofText (places_operand hd _) low)).bind
      fun _ => draws_pure (List.Sublist.refl _) rfl

/-- **A subquery starts at its word.** -/
theorem simpleSelect_begins : Begins env (· = .keyword .select) (simpleSelect deeper) one := by
  have h := hd.ofText
  refine .withoutVirtual fun low s hahead hs => .look_bind ?_
  refine (selectClause_begins hd true low s hahead hs).bind fun select t ⟨hc, hmoved, ht⟩ => ?_
  have hrest : Gathers env false (.opened (env.startAt s.position)) [select] (do
      let fromClause ← fromClause? deeper true
      let whereClause ← whereClause? deeper
      let groupBy ← groupByClause? deeper
      let having ← havingClause? deeper
      pushFrom (.simpleSelectStatement select fromClause whereClause groupBy having)
        (env.startAt s.position)) one := by
    refine ((places_fromClause? hd true).gathers h).bind fun fromClause => ?_
    refine ((places_whereClause? hd).gathers h).bind fun whereClause => ?_
    refine ((places_groupByClause? hd).gathers h).bind fun groupBy => ?_
    exact ((places_havingClause? hd).gathers h).bind fun having =>
      gathers_pushFrom h rfl (List.Sublist.refl _)
  exact (hrest t ht).mono fun id u ⟨hc', hu⟩ =>
    ⟨hc.trans hc', Nat.lt_of_lt_of_le hmoved hc'.position_le, hu⟩

theorem places_parenSubquery : Places env (parenSubquery deeper) one := by
  have h := hd.ofText
  refine fun low => (gathers_discard_expect h _).bind fun _ => ?_
  have hlast : ∀ subquery : NodeId, Gathers env false low [subquery] (do
      discard (expect .rightParen)
      return subquery) one := fun subquery =>
    (gathers_discard_expect h _).bind fun _ => gathers_pure (List.Sublist.refl _)
  exact .atKeyword (((simpleSelect_begins hd).leads h).bind hlast)
    ((places_missing h _ low).bind hlast)

/-- **What a keyword introduces** is a node over what was read behind the keyword. -/
theorem draws_callBody (construct : Construct) (word : TokenKind) :
    Leads env (Held env false low []) (callBody deeper construct word) (DrawnOr env low []) := by
  have h := hd.ofText
  have hdrawn : ∀ {gathered : List NodeId} {kind : NodeKind}, kind.children.Sublist gathered →
      kind.segments = [] → Leads env (Held env false low gathered) (pure (some kind))
        (DrawnOr env low []) := fun hsub hsegments _ hs =>
    .pure ⟨.refl hs.inside, hs.subset hsub, hsegments⟩
  have hsome : ∀ {reader : Parser NodeKind},
      Leads env (Held env false low []) reader (Drawn env low) →
      Leads env (Held env false low []) (some <$> reader) (DrawnOr env low []) := fun hr =>
    Leads.map hr
  have hscalar := gathers_inParens h (places_scalar hd low)
  have hpath := gathers_inParens h (places_path hd low)
  have htwo := gathers_inParens h (places_twoScalars hd low)
  have hthree := gathers_inParens h (places_threeScalars hd low)
  have hlist := gathers_inParens h (places_separated h (places_scalar hd) low)
  cases construct
  case abs | sqrt | length | lower | upper =>
    exact hscalar.bind fun _ => hdrawn (List.Sublist.refl _) rfl
  case size =>
    exact hscalar.bind fun _ => (gathers_asCollection h _).bind fun _ =>
      hdrawn (List.Sublist.refl _) rfl
  case index | entry | key | value | object =>
    exact hpath.bind fun _ => hdrawn (List.Sublist.refl _) rfl
  case type =>
    exact (gathers_inParens h (places_primary hd _ low)).bind fun _ =>
      hdrawn (List.Sublist.refl _) rfl
  case mod | nullif => exact htwo.bind fun _ => hdrawn (List.Sublist.refl _) rfl
  case locate | substring => exact hthree.bind fun _ => hdrawn (List.Sublist.refl _) rfl
  case concat | coalesce => exact hlist.bind fun _ => hdrawn (List.Sublist.refl _) rfl
  case trim => exact hsome (draws_inParens h (draws_trimArguments hd))
  case aggregate =>
    exact (gathers_inParens h (places_aggregateArgument hd low)).bind fun _ =>
      hdrawn (List.Sublist.refl _) rfl
  case caseOf => exact hsome (draws_caseBody hd)
  case treat => exact hsome (draws_inParens h (draws_treatArguments hd))
  case call => exact hsome (draws_inParens h (draws_callArguments hd))
  case constructor => exact hsome (draws_constructorBody hd)
  case existence | quantified =>
    exact (places_parenSubquery hd low).bind fun _ => hdrawn (List.Sublist.refl _) rfl
  all_goals exact fun _ hs => .pure ⟨.refl hs.inside, hs⟩

/-- What follows the keyword of a call is gathered above it. -/
theorem gathers_callRest (construct : Construct) (word : TokenKind) (start : Nat) :
    Gathers env false (.opened start) [] (do
      match ← callBody deeper construct word with
      | none => missing "function"
      | some kind =>
        let id ← pushFrom kind start
        if startsPath construct then continuePath id start else return id) one := by
  have h := hd.ofText
  refine (draws_callBody hd construct _).bind fun kind? => ?_
  cases kind? with
  | none => exact places_missing h _ _
  | some kind =>
    refine (draws_pushFrom h kind).bind fun id => ?_
    split
    · exact continuePath_gathers h id
    · exact gathers_pure (List.Sublist.refl _)

/-- **A call starts at its keyword.** -/
theorem call_begins (construct : Construct) : Begins env (· ≠ .eof) (call deeper construct) one := by
  have h := hd.ofText
  intro low s hahead hs
  refine .look_bind (.look_bind ((hs.opened h hahead).bind fun _ t ⟨hc, ht, hnext⟩ => ?_))
  exact (gathers_callRest hd construct (s.stream env).kind _ t ht).mono fun id u ⟨hc', hu⟩ =>
    ⟨hc.trans hc', Nat.lt_of_lt_of_le (by omega) hc'.position_le, hu⟩

/-! ## Nested constructs -/

theorem negation_begins (rule : String) : Begins env (· ≠ .eof) (negation deeper rule) one := by
  have h := hd.ofText
  refine begins_intro h (fun _ hk => hk) fun start => (gathers_consume h _).bind fun isExists => ?_
  split
  · exact (places_parenSubquery hd _).bind fun _ => gathers_pushFrom h rfl (List.Sublist.refl _)
  · exact (places_negatable hd rule _).bind fun _ => gathers_pushFrom h rfl (List.Sublist.refl _)

theorem group_begins : Begins env (· ≠ .eof) (group deeper) one := by
  have h := hd.ofText
  refine begins_intro h (fun _ hk => hk) fun start => ?_
  have hlast : ∀ expression : NodeId, Gathers env false (.opened start) [expression] (do
      discard (expect .rightParen)
      pushFrom (.group expression) start) one := fun expression =>
    (gathers_discard_expect h _).bind fun _ => gathers_pushFrom h rfl (List.Sublist.refl _)
  exact .atKeyword (((simpleSelect_begins hd).leads h).bind hlast) ((places_condition hd _).bind hlast)

theorem nested_begins (construct : Nested) :
    Begins env construct.Ahead (nested deeper construct) one := by
  cases construct with
  | negation rule => exact (negation_begins hd rule).mono fun _ hk => hk.1
  | sign negative => exact (signed_begins hd negative).mono fun _ hk => hk.1
  | group => exact (group_begins hd).mono fun _ hk => hk.1
  | subquery => exact simpleSelect_begins hd
  | call construct => exact (call_begins hd construct).mono fun _ hk => hk.1

end

/-- **Nested constructs place their nodes at every level.** -/
theorem level_placing (h : env.OfText) (hgrammar : env.grammar.SelectsByWord) (levels : Nat) :
    (level levels).Placing env where
  ofText := h
  grammar := hgrammar
  covers := level_covers h.inOrder levels
  begins := by
    induction levels with
    | zero => exact fun construct _ => skipTooDeep_begins h construct
    | succ levels ih =>
      exact fun construct _ => nested_begins ⟨h, hgrammar, level_covers h.inOrder levels, ih⟩ construct

/-! ## Statements -/

section

variable (hd : deeper.Placing env)

include hd

theorem selectStatement_begins : Begins env (· = .keyword .select) (selectStatement deeper) one := by
  have h := hd.ofText
  refine fun low s hahead hs => .look_bind ?_
  refine (selectClause_begins hd false low s hahead hs).bind fun select t ⟨hc, hmoved, ht⟩ => ?_
  have hrest : Gathers env false (.opened (env.startAt s.position)) [select] (do
      let fromClause ← fromClause? deeper false
      let whereClause ← whereClause? deeper
      let groupBy ← groupByClause? deeper
      let having ← havingClause? deeper
      let orderBy ← orderByClause? deeper
      pushFrom (.selectStatement select fromClause whereClause groupBy having orderBy)
        (env.startAt s.position)) one := by
    refine ((places_fromClause? hd false).gathers h).bind fun fromClause => ?_
    refine ((places_whereClause? hd).gathers h).bind fun whereClause => ?_
    refine ((places_groupByClause? hd).gathers h).bind fun groupBy => ?_
    refine ((places_havingClause? hd).gathers h).bind fun having => ?_
    exact ((places_orderByClause? hd).gathers h).bind fun orderBy =>
      gathers_pushFrom h rfl (List.Sublist.refl _)
  exact (hrest t ht).mono fun id u ⟨hc', hu⟩ =>
    ⟨hc.trans hc', Nat.lt_of_lt_of_le hmoved hc'.position_le, hu⟩

omit hd in
theorem drifts_rangeDeclaration (h : env.OfText) (allowVirtual : Bool) :
    Drifts env (rangeDeclaration allowVirtual) one := fun _ _ hs =>
  (rangeDeclaration_after h allowVirtual hs).mono fun _ _ ⟨hc, ht⟩ => ⟨hc, ht.held⟩

theorem updateStatement_begins : Begins env (· ≠ .eof) (updateStatement deeper) one := by
  have h := hd.ofText
  refine .withoutVirtual (begins_intro h (fun _ hk => hk) fun start => ?_)
  refine Leads.bind (drifts_rangeDeclaration h true _) fun range => ?_
  refine Leads.bind (gathers_updateItems hd) fun items => ?_
  refine Leads.bind (gathers_pushFrom h rfl (List.Sublist.refl _)) fun update => ?_
  exact ((places_whereClause? hd).gathers h).bind fun _ => gathers_pushFrom h rfl (List.Sublist.refl _)

theorem deleteStatement_begins : Begins env (· ≠ .eof) (deleteStatement deeper) one := by
  have h := hd.ofText
  refine .withoutVirtual (begins_intro h (fun _ hk => hk) fun start => ?_)
  refine (gathers_expectKeyword h _).bind fun _ => ?_
  refine Leads.bind (drifts_rangeDeclaration h true _) fun range => ?_
  refine Leads.bind (gathers_pushFrom h rfl (List.Sublist.refl _)) fun delete => ?_
  exact ((places_whereClause? hd).gathers h).bind fun _ => gathers_pushFrom h rfl (List.Sublist.refl _)

/-- **A statement**, if the rule allows what the current token starts. -/
theorem places_statement? (rule : String) : Places env (statement? deeper rule) Option.toList := by
  have h := hd.ofText
  intro low s hs
  have hproblem : Gathers env false low [] (do
      let stop := Text.trimmedLength (← read).source
      let start ← look (·.currentStart)
      record ⟨.invalidStatement, [], ⟨min start stop, stop⟩, none⟩
      return none) Option.toList := by
    refine fun t ht => .read_bind (.look_bind ?_)
    have htrimmed : Text.IsBoundary env.source.toList (Text.trimmedLength env.source) :=
      Text.isBoundary_trimmedBytes _
    have hfits : (⟨min (env.startAt t.position) (Text.trimmedLength env.source),
        Text.trimmedLength env.source⟩ : Span).Fits env.source := by
      refine ⟨Nat.min_le_right _ _, ?_, htrimmed⟩
      rcases Nat.le_total (env.startAt t.position) (Text.trimmedLength env.source) with hle | hle
      · rw [Nat.min_eq_left hle]
        exact h.boundary_startAt ht.inside
      · rw [Nat.min_eq_right hle]
        exact htrimmed
    exact ((gathers_record h hfits rfl (by simp)).bind fun _ => gathers_pure (List.Sublist.refl _)) t ht
  have hconstruct : ∀ construct?, (∀ construct ∈ construct?, construct.Ahead (s.stream env).kind) →
      After env (statementOf deeper construct?) s fun statement t =>
        Course env s t ∧ Held env false low statement.toList t := by
    intro construct? hahead
    unfold statementOf
    split
    · exact .map ((selectStatement_begins hd).leads h s ⟨hs, hahead _ rfl⟩)
    · exact .map ((simpleSelect_begins hd).leads h s ⟨hs, hahead _ rfl⟩)
    · exact .map ((updateStatement_begins hd).leads h s ⟨hs, (hahead _ rfl).1⟩)
    · exact .map ((deleteStatement_begins hd).leads h s ⟨hs, (hahead _ rfl).1⟩)
    · exact hproblem s hs
  refine .look_bind ?_
  cases htrigger : Trigger.ofKind? (s.stream env).kind with
  | none => exact hconstruct none fun _ hnone => by cases hnone
  | some trigger =>
    refine (dispatch_after rule trigger).bind ?_
    rintro construct? t ⟨rfl, hdispatch⟩
    obtain ⟨heof, hclose, hword⟩ := kind_of_ofKind? htrigger
    exact hconstruct construct? fun construct hmem =>
      hd.grammar.ahead_of_dispatch (hdispatch.trans (by rw [hmem])) heof hclose hword

theorem places_start? (rule : String) : Places env (start? deeper rule) Option.toList := by
  unfold start?
  split
  · exact places_statement? hd rule
  · exact fun low => Leads.map (places_disjunction hd rule low)

end

/-! ## Whole texts -/

/-- The text behind a statement reaches from the current token to the last character that is no
blank. It lies behind what was gathered. -/
theorem trailingText_placed (h : env.OfText) (hd : Held env loose low gathered s) :
    After env trailingText s fun leftover t => Course env s t ∧
      Held env loose low gathered t ∧ ∀ id ∈ leftover, id < t.draft.size ∧
        ∀ other ∈ gathered, Precedes t.draft.span other id := by
  refine .look_bind ?_
  split
  · exact .pure ⟨.refl hd.inside, hd, fun _ hid => by cases hid⟩
  refine .read_bind (.look_bind ((After.step _).bind ?_))
  rintro _ t ⟨-, rfl⟩
  have hinside := hd.inside
  obtain ⟨hc, ht⟩ := hd.move h (show s.position ≤ min env.tokens.size (env.tokens.size - 1) by omega)
    (Nat.min_le_right _ _)
  have hfits : (⟨env.startAt s.position,
      max (Text.trimmedLength env.source) (env.startAt s.position)⟩ : Span).Fits env.source := by
    refine ⟨Nat.le_max_right _ _, h.boundary_startAt hd.inside, ?_⟩
    rcases Nat.le_total (Text.trimmedLength env.source) (env.startAt s.position) with hle | hle
    · rw [Nat.max_eq_right hle]
      exact h.boundary_startAt hd.inside
    · rw [Nat.max_eq_left hle]
      exact Text.isBoundary_trimmedBytes _
  refine (After.pushUnknown _ _ _ _).bind ?_
  rintro _ u ⟨rfl, rfl⟩
  have hplaced := fun text => ht.placed.push_record (.unknown text) hfits rfl rfl .unknownExpression
    [text] (by simp)
  obtain ⟨hcu, hu⟩ := ht.write h ((Draft.Stays.push _ _ _).trans (.record _ _)) (.of_record (hplaced _))
  have hcourse := hc.trans hcu
  refine .pure ⟨hcourse, hu, fun id hid => ?_⟩
  rw [← Option.some.inj hid]
  refine ⟨?_, fun other hother => ?_⟩
  · show s.draft.size < (s.draft.push _ _).size
    rw [Draft.size_push]
    exact Nat.lt_succ_self _
  · have hkept := congrArg Span.stop (hcourse.stays.span_eq other (hd.lies other hother).1)
    refine Nat.le_trans (hkept ▸ hd.stop_le_startAt h other hother) ?_
    show env.startAt s.position ≤ ((s.draft.push _ _).span s.draft.size).start
    rw [Draft.span_push]
    exact Nat.le_refl _

/-- **A whole text**: what was read of it is well placed, and the root reaches over all of it. If nothing is
reported, all nodes below the root are exact. -/
theorem query_placed (hd : deeper.Placing env) (rule : String)
    (hs : s.position ≤ env.tokens.size - 1) (hplaced : s.draft.Exact env) :
    After env (query deeper rule) s fun root t => t.draft.Placed env ∧ root < t.draft.size ∧
      t.draft.span root = ⟨0, Text.byteLength env.source.toList⟩ ∧
      (t.draft.problems = [] → ∀ id < root, env.Exact (t.draft.kind id) (t.draft.span id)) := by
  have h := hd.ofText
  have hstart : Held env false (.behind (env.endBefore s.position)) [] s :=
    ⟨hplaced, hs, h.boundary_endBefore hs, Nat.le_refl _, trivial,
      fun _ hid => absurd hid List.not_mem_nil, fun _ _ hid => absurd hid List.not_mem_nil, .nil⟩
  refine (places_start? hd rule _ s hstart).bind fun statement t ⟨_, ht⟩ => ?_
  refine (trailingText_placed h ht).bind fun leftover u ⟨_, hu, hleftover⟩ => .read_bind ?_
  refine (After.push _ _).mono ?_
  rintro _ _ ⟨rfl, rfl⟩
  have hlt : ∀ child ∈ (NodeKind.query statement leftover).children, child < u.draft.size := by
    intro child hc
    rcases List.mem_append.mp hc with hmem | hmem
    · exact (hu.lies child hmem).1
    · exact (hleftover child (Option.mem_toList.mp hmem)).1
  have hordered : (NodeKind.query statement leftover).children.Pairwise (Precedes u.draft.span) := by
    refine List.pairwise_append.mpr ⟨hu.ordered, ?_, fun id hid later hlater => ?_⟩
    · cases leftover <;> simp
    · exact (hleftover later (Option.mem_toList.mp hlater)).2 id hid
  refine ⟨hu.placed.toPlaced.push (Span.fits_whole _) (fun _ hseg => absurd hseg List.not_mem_nil)
    (fun child hc => ?_) hordered, ?_, Draft.span_push _ _ _, fun hclean id hid => ?_⟩
  · exact ⟨hlt child hc, .inl (Nat.zero_le _), .inl (hu.placed.fits child (hlt child hc)).stop_le⟩
  · show u.draft.size < (u.draft.push _ _).size
    rw [Draft.size_push]
    exact Nat.lt_succ_self _
  · show env.Exact ((u.draft.push _ _).kind id) ((u.draft.push _ _).span id)
    rw [Draft.span_push_of_lt _ _ _ hid, (u.draft.grows_push _ _).kind_eq id hid]
    exact hu.placed.exact hclean id hid

end Jpql.Parse
