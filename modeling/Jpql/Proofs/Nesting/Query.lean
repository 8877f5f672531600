import Jpql.Proofs.Nesting.Expression

/-! # Queries and the limit on nesting

Declarations, clauses, statements and calls fit into the levels that are left, so by induction on the
number of levels every nested construct does (`Parse.level_fitting`), and in the end a whole text
(`Parse.nests_query`). Where the first reader has no level left it cuts text off, and nothing is claimed of
the second one then. -/

namespace Jpql.Parse

variable {α : Type} {env : Env} {limit levels : Nat} {whole : Bool} {gathered : List NodeId}
  {nodes : α → List NodeId}

/-! ## Declarations -/

theorem collects_rangeRoot :
    Collects env limit whole levels [] rangeRoot rangeRoot fun root => [root.1] := by
  refine .look fun name? => ?_
  cases name? with
  | none => exact (collects_missing _).bind fun _ => collects_pure (List.Subset.refl _)
  | some name =>
    refine .look fun span => collects_advance.bind fun _ => .look fun dotted => ?_
    cases dotted with
    | true =>
      refine (collects_push rfl (List.nil_subset _)).bind fun root => ?_
      refine collects_segments.bind fun (segments, dot) => ?_
      have hpath : Collects env limit whole levels [root]
          (pushFrom (.path .collectionValued root segments dot) span.start)
          (pushFrom (.path .collectionValued root segments dot) span.start) single :=
        collects_pushFrom rfl (List.Subset.refl _)
      exact hpath.bind fun _ => collects_pure (List.Subset.refl _)
    | false =>
      exact (collects_push rfl (List.nil_subset _)).bind fun _ => collects_pure (List.Subset.refl _)

theorem collects_missingVariable :
    Collects env limit whole levels gathered missingVariable missingVariable fun _ => gathered :=
  nests_same (fun _ S => S.missingVariable) fun _ => rfl

theorem collects_missingClause (clause : String) :
    Collects env limit whole levels gathered (missingClause clause) (missingClause clause)
      fun _ => gathered :=
  nests_same (fun _ S => S.missingClause clause) fun _ => rfl

theorem collects_virtualVariable (entity : String) :
    Collects env limit whole levels [] (virtualVariable entity) (virtualVariable entity) single :=
  .look fun _ => (collects_setVirtual _).bind fun _ => collects_push rfl (List.nil_subset _)

theorem collects_rangeDeclaration (allowVirtual : Bool) :
    Collects env limit whole levels [] (rangeDeclaration allowVirtual) (rangeDeclaration allowVirtual)
      single := by
  refine .look fun start => collects_rangeRoot.bind fun (root, entity) => ?_
  refine (collects_consume _).bind fun hasAs => ?_
  have hlast : ∀ declared : Option NodeId, Collects env limit whole levels ([root] ++ declared.toList)
      (pushFrom (.rangeDeclaration root hasAs declared) start)
      (pushFrom (.rangeDeclaration root hasAs declared) start) single := fun declared =>
    collects_pushFrom rfl (List.Subset.refl _)
  have hnone : Collects env limit whole levels [root] (missingVariable *> pure none)
      (missingVariable *> pure none) fun declared => [root] ++ Option.toList declared :=
    collects_missingVariable.bind fun _ => collects_pure (List.Subset.refl _)
  refine collects_declaredVariable?.gathers.bind fun declared? => ?_
  cases declared? with
  | some declared => exact hlast (some declared)
  | none =>
    cases entity with
    | none => exact hnone.bind hlast
    | some name =>
      dsimp only
      split
      · have hvirtual : Collects env limit whole levels [] (some <$> virtualVariable name)
            (some <$> virtualVariable name) Option.toList := .map (collects_virtualVariable name)
        exact hvirtual.gathers.bind hlast
      · exact hnone.bind hlast

theorem collects_joinType :
    Collects env limit whole levels gathered joinType joinType fun _ => gathered := by
  refine (collects_consume _).bind fun isLeft => ?_
  split
  · refine (collects_consume _).bind fun isOuter => ?_
    split <;> exact collects_pure (List.Subset.refl _)
  · refine (collects_consume _).bind fun isInner => ?_
    split <;> exact collects_pure (List.Subset.refl _)

section

variable {deeper other : Deeper} (hd : deeper.Fitting env limit whole levels other)

include hd

theorem collects_collectionDeclaration :
    Collects env limit whole levels [] (collectionDeclaration deeper) (collectionDeclaration other)
      single := by
  refine .look fun start => collects_advance.bind fun _ => (collects_discard_expect _).bind fun _ => ?_
  refine (expresses_primary hd _).collects.bind fun path => (collects_asCollection path).bind fun _ => ?_
  refine (collects_discard_expect _).bind fun _ => (collects_consume _).bind fun hasAs => ?_
  refine collects_declaredVariable?.gathers.bind fun declared => ?_
  have hlast : Collects env limit whole levels ([path] ++ declared.toList)
      (pushFrom (.collectionDeclaration path hasAs declared) start)
      (pushFrom (.collectionDeclaration path hasAs declared) start) single :=
    collects_pushFrom rfl (List.Subset.refl _)
  dsimp only
  split
  · exact collects_missingVariable.bind fun _ => hlast
  · exact hlast

theorem collects_onClause? :
    Collects env limit whole levels [] (onClause? deeper) (onClause? other) Option.toList := by
  refine .look fun atOn => ?_
  split
  · exact .look fun start => collects_advance.bind fun _ =>
      (expresses_condition hd).collects.bind fun _ => collects_some_pushFrom rfl (List.Subset.refl _)
  · exact collects_pure (List.Subset.refl _)

theorem collects_join : Collects env limit whole levels [] (join deeper) (join other) single := by
  refine .look fun start => collects_joinType.bind fun type => (collects_expectKeyword _).bind fun _ => ?_
  refine (collects_consume _).bind fun fetch => (expresses_primary hd _).collects.bind fun path => ?_
  refine .kindOf fun kind => ?_
  have hrest : Collects env limit whole levels [path] (do
      let hasAs ← consumeKeyword .as
      let declared ← declaredVariable?
      if declared.isNone && (hasAs || !fetch) then missingVariable
      let on ← onClause? deeper
      pushFrom (.join type fetch path hasAs declared on) start) (do
      let hasAs ← consumeKeyword .as
      let declared ← declaredVariable?
      if declared.isNone && (hasAs || !fetch) then missingVariable
      let on ← onClause? other
      pushFrom (.join type fetch path hasAs declared on) start) single := by
    refine (collects_consume _).bind fun hasAs => collects_declaredVariable?.gathers.bind fun declared => ?_
    have hlast : Collects env limit whole levels ([path] ++ declared.toList) (do
        let on ← onClause? deeper
        pushFrom (.join type fetch path hasAs declared on) start) (do
        let on ← onClause? other
        pushFrom (.join type fetch path hasAs declared on) start) single :=
      (collects_onClause? hd).gathers.bind fun on => collects_pushFrom rfl (List.Subset.refl _)
    dsimp only
    split
    · exact collects_missingVariable.bind fun _ => hlast
    · exact hlast
  dsimp only
  split
  · exact (collects_asCollection _).bind fun _ => hrest
  · exact (collects_asCollection _).bind fun _ => hrest

theorem collects_declaration :
    Collects env limit whole levels [] (declaration deeper) (declaration other) single := by
  refine .look fun atIn => ?_
  split
  · exact collects_collectionDeclaration hd
  · refine .look fun start => (collects_rangeDeclaration false).bind fun range => ?_
    have hjoins : Collects env limit whole levels ([range] ++ []) (loop (fun joins => do
          if ← look atJoin then return some (joins ++ [← join deeper]) else return none) [])
        (loop (fun joins => do
          if ← look atJoin then return some (joins ++ [← join other]) else return none) [])
        ([range] ++ ·) :=
      collects_items (fun _ => collects_look atJoin) (collects_join hd) [range] []
    exact hjoins.bind fun joins => collects_pushFrom rfl (List.Subset.refl _)

/-! ## Clauses -/

theorem collects_selectItem :
    Collects env limit whole levels [] (selectItem deeper) (selectItem other) single := by
  refine (expresses_operand hd _).collects.bind fun expression => .startOf fun start => ?_
  refine (collects_consume _).bind fun hasAs => .look fun named => ?_
  have hlast : ∀ declared, Collects env limit whole levels ([expression] ++ [declared])
      (pushFrom (.resultVariable expression hasAs declared) start)
      (pushFrom (.resultVariable expression hasAs declared) start) single := fun declared =>
    collects_pushFrom rfl (List.Subset.refl _)
  split
  · exact collects_pure (List.Subset.refl _)
  · refine collects_declaredVariable?.gathers.bind fun declared? => ?_
    cases declared? with
    | some declared => exact hlast declared
    | none => exact (collects_missing _).gathers.bind hlast

theorem collects_selectClause (simple : Bool) :
    Collects env limit whole levels [] (selectClause deeper simple) (selectClause other simple)
      single := by
  refine .look fun start => (collects_expectKeyword _).bind fun _ => ?_
  refine (collects_consume _).bind fun distinct => ?_
  split
  · exact (collects_separated (expresses_operand hd _).collects).bind fun items =>
      collects_pushFrom rfl (List.Subset.refl _)
  · exact (collects_separated (collects_selectItem hd)).bind fun items =>
      collects_pushFrom rfl (List.Subset.refl _)

theorem collects_fromClause? (simple : Bool) :
    Collects env limit whole levels [] (fromClause? deeper simple) (fromClause? other simple)
      Option.toList := by
  refine .look fun start => (collects_consume _).bind fun found => ?_
  cases found with
  | true =>
    refine (collects_separated (collects_declaration hd)).bind fun declarations => ?_
    split <;> exact collects_some_pushFrom rfl (List.Subset.refl _)
  | false => exact (collects_missingClause _).bind fun _ => collects_pure (List.Subset.refl _)

theorem collects_conditionClause? (word : Keyword) {kind : NodeId → NodeKind}
    (hkind : ∀ id, (kind id).children = [id] ∧ (kind id).isFlat whole = true) :
    Collects env limit whole levels [] (conditionClause? deeper word kind)
      (conditionClause? other word kind) Option.toList := by
  refine .look fun start => (collects_consume _).bind fun found => ?_
  cases found with
  | true =>
    refine (expresses_condition hd).collects.bind fun condition => ?_
    obtain ⟨hchildren, hflat⟩ := hkind condition
    exact collects_some_pushFrom hflat (hchildren ▸ List.Subset.refl _)
  | false => exact collects_pure (List.Subset.refl _)

theorem collects_whereClause? :
    Collects env limit whole levels [] (whereClause? deeper) (whereClause? other) Option.toList :=
  collects_conditionClause? hd _ fun _ => ⟨rfl, rfl⟩

theorem collects_havingClause? :
    Collects env limit whole levels [] (havingClause? deeper) (havingClause? other) Option.toList :=
  collects_conditionClause? hd _ fun _ => ⟨rfl, rfl⟩

theorem collects_groupByClause? :
    Collects env limit whole levels [] (groupByClause? deeper) (groupByClause? other) Option.toList := by
  refine .look fun start => (collects_consume _).bind fun found => ?_
  cases found with
  | true =>
    refine (collects_expectKeyword _).bind fun _ => ?_
    exact (collects_separated (expresses_operand hd _).collects).bind fun items =>
      collects_some_pushFrom rfl (List.Subset.refl _)
  | false => exact collects_pure (List.Subset.refl _)

omit hd in
theorem collects_sortOrder :
    Collects env limit whole levels gathered sortOrder sortOrder fun _ => gathered := by
  refine (collects_consume _).bind fun isAscending => ?_
  split
  · exact collects_pure (List.Subset.refl _)
  · refine (collects_consume _).bind fun isDescending => ?_
    split <;> exact collects_pure (List.Subset.refl _)

omit hd in
theorem collects_nullsOrder :
    Collects env limit whole levels gathered nullsOrder nullsOrder fun _ => gathered := by
  refine (collects_consume _).bind fun hasNulls => ?_
  split
  · refine (collects_consume _).bind fun isFirst => ?_
    split
    · exact collects_pure (List.Subset.refl _)
    · refine (collects_consume _).bind fun isLast => ?_
      split
      · exact collects_pure (List.Subset.refl _)
      · exact (collects_recordHere rfl _).bind fun _ => collects_pure (List.Subset.refl _)
  · exact collects_pure (List.Subset.refl _)

theorem collects_orderByItem :
    Collects env limit whole levels [] (orderByItem deeper) (orderByItem other) single := by
  refine (expresses_operand hd _).collects.bind fun expression => .startOf fun start => ?_
  exact collects_sortOrder.bind fun order => collects_nullsOrder.bind fun nulls =>
    collects_pushFrom rfl (List.Subset.refl _)

theorem collects_orderByClause? :
    Collects env limit whole levels [] (orderByClause? deeper) (orderByClause? other) Option.toList := by
  refine .look fun start => (collects_consume _).bind fun found => ?_
  cases found with
  | true =>
    refine (collects_expectKeyword _).bind fun _ => ?_
    exact (collects_separated (collects_orderByItem hd)).bind fun items =>
      collects_some_pushFrom rfl (List.Subset.refl _)
  | false => exact collects_pure (List.Subset.refl _)

theorem collects_updateItem :
    Collects env limit whole levels [] (updateItem deeper) (updateItem other) single := by
  refine .look fun start => collects_updateTarget.bind fun target => ?_
  refine (collects_discard_expect _).bind fun _ => (expresses_operand hd _).gathers.bind fun value => ?_
  exact collects_pushFrom rfl (List.Subset.refl _)

theorem collects_updateItems :
    Collects env limit whole levels [] (updateItems deeper) (updateItems other) id := by
  refine (collects_consume _).bind fun found => ?_
  split
  · exact collects_separated (collects_updateItem hd)
  · exact (collects_missingClause _).bind fun _ => collects_pure (List.Subset.refl _)

/-! ## Statements -/

theorem plain_selectStatement :
    Nests env limit (Fits whole levels []) (selectStatement deeper) (selectStatement other)
      (Plain whole levels) := by
  refine .look fun start => (collects_selectClause hd false).bind fun select => ?_
  refine (collects_fromClause? hd false).gathers.bind fun fromClause => ?_
  refine (collects_whereClause? hd).gathers.bind fun whereClause => ?_
  refine (collects_groupByClause? hd).gathers.bind fun groupBy => ?_
  refine (collects_havingClause? hd).gathers.bind fun having => ?_
  refine (collects_orderByClause? hd).gathers.bind fun orderBy => ?_
  exact plain_pushFrom rfl (by simp [NodeKind.children])

/-- **A subquery opens a level**, unless it is read on that of what holds it. -/
theorem nests_simpleSelect (held : Bool) :
    Nests env limit (Fits whole levels []) (simpleSelect deeper) (simpleSelect other) fun id t =>
      t.draft.Within whole held (levels + (!held).toNat) id := by
  refine .withoutVirtual (.look fun start => ?_) fun id t u hsame h => hsame ▸ h
  refine (collects_selectClause hd true).bind fun select => ?_
  refine (collects_fromClause? hd true).gathers.bind fun fromClause => ?_
  refine (collects_whereClause? hd).gathers.bind fun whereClause => ?_
  refine (collects_groupByClause? hd).gathers.bind fun groupBy => ?_
  refine (collects_havingClause? hd).gathers.bind fun having => ?_
  refine (nests_pushFrom (fun s hs child hc => hs child ?_) held start).weaken (fun _ h => h)
    fun _ _ h => h.1
  simpa [NodeKind.children] using hc

theorem plain_updateStatement :
    Nests env limit (Fits whole levels []) (updateStatement deeper) (updateStatement other)
      (Plain whole levels) := by
  refine .withoutVirtual (.look fun start => collects_advance.bind fun _ => ?_)
    fun id t u hsame h => ⟨hsame ▸ h.1, hsame ▸ h.2⟩
  refine (collects_rangeDeclaration true).bind fun range => ?_
  refine (collects_updateItems hd).gathers.bind fun items => ?_
  have hupdate : Collects env limit whole levels ([range] ++ items)
      (pushFrom (.updateClause range items) start) (pushFrom (.updateClause range items) start)
      single := collects_pushFrom rfl (List.Subset.refl _)
  exact hupdate.bind fun update => (collects_whereClause? hd).gathers.bind fun whereClause =>
    plain_pushFrom rfl (List.Subset.refl _)

theorem plain_deleteStatement :
    Nests env limit (Fits whole levels []) (deleteStatement deeper) (deleteStatement other)
      (Plain whole levels) := by
  refine .withoutVirtual (.look fun start => collects_advance.bind fun _ => ?_)
    fun id t u hsame h => ⟨hsame ▸ h.1, hsame ▸ h.2⟩
  refine (collects_expectKeyword _).bind fun _ => (collects_rangeDeclaration true).bind fun range => ?_
  have hdelete : Collects env limit whole levels [range] (pushFrom (.deleteClause range) start)
      (pushFrom (.deleteClause range) start) single := collects_pushFrom rfl (List.Subset.refl _)
  exact hdelete.bind fun delete => (collects_whereClause? hd).gathers.bind fun whereClause =>
    plain_pushFrom rfl (List.Subset.refl _)

/-- **A subquery in parentheses is read on the level of the parentheses.** -/
theorem nests_parenSubquery :
    Nests env limit (Fits whole levels []) (parenSubquery deeper) (parenSubquery other) fun id t =>
      t.draft.Within whole true levels id := by
  have hlast : ∀ subquery : NodeId, Nests env limit
      (fun t => t.draft.Within whole true levels subquery) (do
        discard (expect .rightParen)
        return subquery) (do
        discard (expect .rightParen)
        return subquery) fun id t => t.draft.Within whole true levels id := by
    intro subquery s hs h
    exact (descent_discard_expect _ hs).bind fun _ t honward _ =>
      .pure honward.proper (h.keeps honward.keeps)
  refine (collects_discard_expect _).bind fun _ => .look fun atSelect => ?_
  cases atSelect with
  | true =>
    exact (nests_simpleSelect hd true).bind hlast
  | false =>
    have hmissing : Nests env limit (Fits whole levels []) (missing "subquery") (missing "subquery")
        (Plain whole levels) := plain_missing _
    exact hmissing.bind fun subquery s hs h => hlast subquery s hs (h.1.of_not_isSubquery h.2 true)

/-! ## Constructs that open a level -/

omit hd in
/-- **A construct that opens a level**, over nodes that fit into the levels below it. -/
theorem plain_pushOpened {kind : NodeKind} {start : Nat} {pre : State → Prop}
    (hopens : kind.opensLevel = true) (hchildren : ∀ s, pre s → ∀ child ∈ kind.children,
      s.draft.Within whole (kind.holdsSubquery whole) levels child) :
    Nests env limit pre (pushFrom kind start) (pushFrom kind start) (Plain whole (levels + 1)) := by
  have hsubquery : kind.isSubquery = false := by
    cases kind <;> first | rfl | exact absurd hopens Bool.false_ne_true
  refine (nests_pushFrom hchildren false start).weaken (fun _ h => h) fun id t ⟨hid, hkind⟩ => ⟨?_, ?_⟩
  · rwa [NodeKind.opens_of_not_isSubquery hsubquery, hopens] at hid
  · rw [hkind, hsubquery]

theorem plain_signed (negative : Bool) :
    Nests env limit (Fits whole levels []) (signed deeper negative) (signed other negative)
      (Plain whole (levels + 1)) :=
  .look fun _ => collects_advance.bind fun _ => (expresses_factor hd _).collects.bind fun _ =>
    plain_pushOpened rfl fun _ hs => hs

theorem plain_negation (rule : String) :
    Nests env limit (Fits whole levels []) (negation deeper rule) (negation other rule)
      (Plain whole (levels + 1)) := by
  refine .look fun start => collects_advance.bind fun _ => (collects_consume _).bind fun isExists => ?_
  split
  · refine (nests_parenSubquery hd).bind fun subquery => plain_pushOpened rfl fun s hs child hc => ?_
    rwa [List.mem_singleton.mp hc]
  · exact (expresses_negatable hd rule).collects.bind fun _ => plain_pushOpened rfl fun _ hs => hs

theorem plain_group :
    Nests env limit (Fits whole levels []) (group deeper) (group other) (Plain whole (levels + 1)) := by
  refine .look fun start => collects_advance.bind fun _ => ?_
  have hlast : ∀ expression : NodeId, Nests env limit
      (fun t => t.draft.Within whole true levels expression) (do
        discard (expect .rightParen)
        pushFrom (.group expression) start) (do
        discard (expect .rightParen)
        pushFrom (.group expression) start) (Plain whole (levels + 1)) := by
    intro expression s hs h
    have hpush : Nests env limit (fun t => t.draft.Within whole true levels expression)
        (pushFrom (.group expression) start) (pushFrom (.group expression) start)
        (Plain whole (levels + 1)) :=
      plain_pushOpened rfl fun t ht child hc => by rwa [List.mem_singleton.mp hc]
    exact (descent_discard_expect _ hs).bind fun _ t honward _ =>
      hpush t honward.proper (h.keeps honward.keeps)
  intro s hs hfits
  refine .look ?_
  cases hselect : (s.stream env).checkKeyword .select with
  | true =>
    exact (nests_simpleSelect hd true s hs hfits).bind fun expression t honward h =>
      hlast expression t honward.proper h
  | false =>
    -- a condition that does not start with `SELECT` is no subquery
    refine (expresses_condition hd s hs).bind fun expression t honward ⟨hwithin, hsub⟩ => ?_
    have hno : (t.draft.kind expression).isSubquery = false := by
      rw [hselect] at hsub
      exact Bool.eq_false_iff.mpr fun h => Bool.false_ne_true (hsub h)
    exact hlast expression t honward.proper (hwithin.of_not_isSubquery hno true)

/-! ## Calls -/

end

/-- **A construct that is about to open a level** over nodes that fit into the levels below it. -/
def Opens (whole : Bool) (levels : Nat) (kind : NodeKind) (s : State) : Prop :=
  kind.opensLevel = true ∧
    ∀ child ∈ kind.children, s.draft.Within whole (kind.holdsSubquery whole) levels child

theorem Opens.keeps {kind : NodeKind} {s t : State} (h : Opens whole levels kind s)
    (k : s.draft.Keeps t.draft) : Opens whole levels kind t :=
  ⟨h.1, fun child hc => (h.2 child hc).keeps k⟩

theorem opens_pure {kind : NodeKind} (hopens : kind.opensLevel = true)
    (hholds : kind.holdsSubquery whole = false) (hsub : kind.children ⊆ gathered) :
    Nests env limit (Fits whole levels gathered) (pure kind) (pure kind) (Opens whole levels) :=
  fun _ hs h => .pure hs ⟨hopens, fun child hc => hholds ▸ h child (hsub hc)⟩

theorem nests_inParens {reader reader' : Parser α} {post : α → State → Prop}
    (hreader : Nests env limit (Fits whole levels []) reader reader' post)
    (hkeeps : ∀ a s t, s.draft.Keeps t.draft → post a s → post a t) :
    Nests env limit (Fits whole levels []) (inParens reader) (inParens reader') post :=
  (collects_discard_expect _).bind fun _ => hreader.bind fun a s hs h =>
    (descent_discard_expect _ hs).bind fun _ t honward _ =>
      .pure honward.proper (hkeeps a s t honward.keeps h)

theorem collects_inParens {reader reader' : Parser α}
    (hreader : Collects env limit whole levels [] reader reader' nodes) :
    Collects env limit whole levels [] (inParens reader) (inParens reader') nodes :=
  nests_inParens hreader fun _ _ _ hk h => h.keeps hk

theorem opens_inParens {reader reader' : Parser NodeKind}
    (hreader : Nests env limit (Fits whole levels []) reader reader' (Opens whole levels)) :
    Nests env limit (Fits whole levels []) (inParens reader) (inParens reader') (Opens whole levels) :=
  nests_inParens hreader fun _ _ _ hk h => h.keeps hk

theorem collects_trimSide :
    Collects env limit whole levels gathered trimSide trimSide fun _ => gathered := by
  refine (collects_consume _).bind fun isLeading => ?_
  split
  · exact collects_pure (List.Subset.refl _)
  refine (collects_consume _).bind fun isTrailing => ?_
  split
  · exact collects_pure (List.Subset.refl _)
  refine (collects_consume _).bind fun isBoth => ?_
  split <;> exact collects_pure (List.Subset.refl _)

theorem collects_className :
    Collects env limit whole levels gathered className className fun _ => gathered := by
  refine .look fun name? => ?_
  split
  · exact collects_advance.bind fun _ => collects_segments.bind fun (_, _) =>
      collects_pure (List.Subset.refl _)
  · exact (collects_recordHere rfl _).bind fun _ => collects_pure (List.Subset.refl _)

section

variable {deeper other : Deeper} (hd : deeper.Fitting env limit whole levels other)

include hd

theorem collects_path : Collects env limit whole levels [] (path deeper) (path other) single :=
  (expresses_primary hd _).collects

theorem collects_twoScalars :
    Collects env limit whole levels [] (twoScalars deeper) (twoScalars other)
      fun pair => [pair.1, pair.2] :=
  (expresses_scalar hd).collects.bind fun _ => (collects_discard_expect _).bind fun _ =>
    (expresses_scalar hd).gathers.bind fun _ => collects_pure (List.Subset.refl _)

theorem collects_threeScalars :
    Collects env limit whole levels [] (threeScalars deeper) (threeScalars other)
      fun triple => triple.1 :: triple.2.1 :: triple.2.2.toList := by
  refine (collects_twoScalars hd).bind fun (first, second) => (collects_consume _).bind fun hasThird => ?_
  split
  · exact (expresses_scalar hd).gathers.bind fun third => collects_pure (List.Subset.refl _)
  · exact collects_pure (List.Subset.refl _)

theorem opens_trimArguments :
    Nests env limit (Fits whole levels []) (trimArguments deeper) (trimArguments other)
      (Opens whole levels) := by
  refine collects_trimSide.bind fun side => .look fun withCharacter => ?_
  have hlast : ∀ character : Option NodeId, Nests env limit (Fits whole levels character.toList) (do
      let hasFrom ← consumeKeyword .from
      let string ← scalar deeper
      return .trim side character hasFrom string) (do
      let hasFrom ← consumeKeyword .from
      let string ← scalar other
      return .trim side character hasFrom string) (Opens whole levels) := fun character =>
    (collects_consume _).bind fun hasFrom => (expresses_scalar hd).gathers.bind fun string =>
      opens_pure rfl rfl (List.Subset.refl _)
  split
  · have hcharacter : Collects env limit whole levels [] (some <$> primary deeper RuleId.scalar)
        (some <$> primary other RuleId.scalar) Option.toList := .map (expresses_primary hd _).collects
    exact hcharacter.bind hlast
  · exact hlast none

theorem collects_aggregateArgument :
    Collects env limit whole levels [] (aggregateArgument deeper) (aggregateArgument other)
      fun pair => [pair.2] :=
  (collects_consume _).bind fun _ => (expresses_scalar hd).collects.bind fun _ =>
    collects_pure (List.Subset.refl _)

theorem collects_whenClause :
    Collects env limit whole levels [] (whenClause deeper) (whenClause other) single := by
  refine .look fun start => collects_advance.bind fun _ => ?_
  refine (expresses_condition hd).collects.bind fun condition => (collects_expectKeyword _).bind fun _ => ?_
  exact (expresses_scalar hd).gathers.bind fun result => collects_pushFrom rfl (List.Subset.refl _)

theorem opens_caseBody :
    Nests env limit (Fits whole levels []) (caseBody deeper) (caseBody other) (Opens whole levels) := by
  have hlast : ∀ (operand : Option NodeId) (whens : List NodeId),
      Nests env limit (Fits whole levels (operand.toList ++ whens)) (do
        expectKeyword .else
        let otherwise ← scalar deeper
        expectKeyword .end
        return .caseOf operand whens otherwise) (do
        expectKeyword .else
        let otherwise ← scalar other
        expectKeyword .end
        return .caseOf operand whens otherwise) (Opens whole levels) := fun operand whens =>
    (collects_expectKeyword _).bind fun _ => (expresses_scalar hd).gathers.bind fun otherwise =>
      (collects_expectKeyword _).bind fun _ => opens_pure rfl rfl (List.Subset.refl _)
  have hrest : ∀ operand : Option NodeId, Nests env limit (Fits whole levels operand.toList) (do
      let whens ← loop (fun whens => do
        if ← atKeyword .when then return some (whens ++ [← whenClause deeper]) else return none) []
      if whens.isEmpty then expectKeyword .when
      expectKeyword .else
      let otherwise ← scalar deeper
      expectKeyword .end
      return .caseOf operand whens otherwise) (do
      let whens ← loop (fun whens => do
        if ← atKeyword .when then return some (whens ++ [← whenClause other]) else return none) []
      if whens.isEmpty then expectKeyword .when
      expectKeyword .else
      let otherwise ← scalar other
      expectKeyword .end
      return .caseOf operand whens otherwise) (Opens whole levels) := by
    intro operand
    have hwhens := collects_items (fun gathered => collects_look (·.checkKeyword .when))
      (collects_whenClause hd) operand.toList []
    rw [List.append_nil] at hwhens
    refine hwhens.bind fun whens => ?_
    dsimp only
    split
    · exact (collects_expectKeyword _).bind fun _ => hlast operand whens
    · exact hlast operand whens
  refine .look fun atWhen => ?_
  split
  · exact hrest none
  · have hoperand : Collects env limit whole levels [] (some <$> scalar deeper) (some <$> scalar other)
        Option.toList := .map (expresses_scalar hd).collects
    exact hoperand.bind hrest

theorem opens_treatArguments :
    Nests env limit (Fits whole levels []) (treatArguments deeper) (treatArguments other)
      (Opens whole levels) := by
  refine (collects_path hd).bind fun path => (collects_asCollection path).bind fun _ => ?_
  refine (collects_consume _).bind fun hasAs => ?_
  have hlast : ∀ type, Nests env limit (Fits whole levels ([path] ++ [type]))
      (pure (.treat path hasAs type)) (pure (.treat path hasAs type)) (Opens whole levels) := fun type =>
    opens_pure rfl rfl (List.Subset.refl _)
  refine .look fun name? => ?_
  cases name? with
  | some name => exact (collects_entityType name).gathers.bind hlast
  | none => exact (collects_missing _).gathers.bind hlast

theorem opens_callArguments :
    Nests env limit (Fits whole levels []) (callArguments deeper) (callArguments other)
      (Opens whole levels) := by
  have hlast : ∀ name, Nests env limit (Fits whole levels []) (do
      let arguments ← if ← consume .comma then separated (scalar deeper) else pure []
      return .call name arguments) (do
      let arguments ← if ← consume .comma then separated (scalar other) else pure []
      return .call name arguments) (Opens whole levels) := by
    refine fun name => (collects_consume _).bind fun hasArguments => ?_
    split
    · exact (collects_separated (expresses_scalar hd).collects).bind fun arguments =>
        opens_pure rfl rfl (List.Subset.refl _)
    · exact opens_pure rfl rfl (List.Subset.refl _)
  refine .look fun kind => ?_
  split
  · exact collects_advance.bind fun _ => hlast _
  · exact (collects_recordHere rfl _).bind fun _ => hlast _

theorem opens_constructorBody :
    Nests env limit (Fits whole levels []) (constructorBody deeper) (constructorBody other)
      (Opens whole levels) :=
  collects_className.bind fun _ =>
    (collects_inParens (collects_separated (expresses_operand hd _).collects)).bind fun _ =>
      opens_pure rfl rfl (List.Subset.refl _)

/-- **What a keyword introduces** is about to open a level. -/
theorem opens_callBody (construct : Construct) (word : TokenKind) :
    Nests env limit (Fits whole levels []) (callBody deeper construct word)
      (callBody other construct word) fun kind? s => ∀ kind ∈ kind?, Opens whole levels kind s := by
  have hsome : ∀ {gathered : List NodeId} {kind : NodeKind}, kind.opensLevel = true →
      kind.holdsSubquery whole = false → kind.children ⊆ gathered →
      Nests env limit (Fits whole levels gathered) (pure (some kind)) (pure (some kind))
        fun kind? s => ∀ kind ∈ kind?, Opens whole levels kind s := fun hopens hholds hsub s hs h =>
    .pure hs (by rintro _ ⟨⟩; exact ⟨hopens, fun child hc => hholds ▸ h child (hsub hc)⟩)
  have hmap : ∀ {reader reader' : Parser NodeKind},
      Nests env limit (Fits whole levels []) reader reader' (Opens whole levels) →
      Nests env limit (Fits whole levels []) (some <$> reader) (some <$> reader')
        fun kind? s => ∀ kind ∈ kind?, Opens whole levels kind s := fun hr =>
    .map (hr.weaken (fun _ h => h) fun _ _ h => by rintro _ ⟨⟩; exact h)
  have hsubquery : ∀ {kind : NodeId → NodeKind}, (∀ id, (kind id).opensLevel = true ∧
      (kind id).holdsSubquery whole = true ∧ (kind id).children = [id]) →
      Nests env limit (Fits whole levels []) (do return some (kind (← parenSubquery deeper)))
        (do return some (kind (← parenSubquery other)))
        fun kind? s => ∀ kind ∈ kind?, Opens whole levels kind s := by
    intro kind hkind
    refine (nests_parenSubquery hd).bind fun id s hs h => .pure hs ?_
    obtain ⟨hopens, hholds, hchildren⟩ := hkind id
    rintro _ ⟨⟩
    refine ⟨hopens, fun child hc => ?_⟩
    rw [hchildren, List.mem_singleton] at hc
    rwa [hc, hholds]
  have hscalar := collects_inParens (expresses_scalar hd).collects
  have hpath := collects_inParens (collects_path hd)
  have htwo := collects_inParens (collects_twoScalars hd)
  have hthree := collects_inParens (collects_threeScalars hd)
  have hlist := collects_inParens (collects_separated (expresses_scalar hd).collects)
  cases construct
  case abs | sqrt | length | lower | upper =>
    exact hscalar.bind fun _ => hsome rfl rfl (List.Subset.refl _)
  case size =>
    exact hscalar.bind fun _ => (collects_asCollection _).bind fun _ =>
      hsome rfl rfl (List.Subset.refl _)
  case index | entry | key | value | object =>
    exact hpath.bind fun _ => hsome rfl rfl (List.Subset.refl _)
  case type =>
    exact (collects_inParens (expresses_primary hd _).collects).bind fun _ =>
      hsome rfl rfl (List.Subset.refl _)
  case mod | nullif => exact htwo.bind fun _ => hsome rfl rfl (List.Subset.refl _)
  case locate | substring => exact hthree.bind fun _ => hsome rfl rfl (List.Subset.refl _)
  case concat | coalesce => exact hlist.bind fun _ => hsome rfl rfl (List.Subset.refl _)
  case trim => exact hmap (opens_inParens (opens_trimArguments hd))
  case aggregate =>
    exact (collects_inParens (collects_aggregateArgument hd)).bind fun _ =>
      hsome rfl rfl (List.Subset.refl _)
  case caseOf => exact hmap (opens_caseBody hd)
  case treat => exact hmap (opens_inParens (opens_treatArguments hd))
  case call => exact hmap (opens_inParens (opens_callArguments hd))
  case constructor => exact hmap (opens_constructorBody hd)
  case existence | quantified => exact hsubquery fun _ => ⟨rfl, rfl, rfl⟩
  all_goals exact fun _ hs _ => .pure hs (by rintro _ ⟨⟩)

theorem plain_call (construct : Construct) :
    Nests env limit (Fits whole levels []) (call deeper construct) (call other construct)
      (Plain whole (levels + 1)) := by
  refine .look fun start => .look fun word => collects_advance.bind fun _ => ?_
  refine (opens_callBody hd construct word).bind fun kind? s hs hkind => ?_
  cases kind? with
  | none =>
    have hmissing : Nests env limit (Fits whole levels []) (missing "function") (missing "function")
        (Plain whole (levels + 1)) := plain_missing _
    exact hmissing s hs (.nil s)
  | some kind =>
    obtain ⟨hopens, hchildren⟩ := hkind kind rfl
    have hpush : Nests env limit (Opens whole levels kind) (pushFrom kind start) (pushFrom kind start)
        (Plain whole (levels + 1)) := plain_pushOpened hopens fun _ h => h.2
    refine (hpush s hs ⟨hopens, hchildren⟩).bind fun id t honward hid => ?_
    split
    · refine (continues_continuePath id start t honward.proper hid.fits).mono
        fun other u honward' ⟨hother, hwhich⟩ => ⟨hother.head, ?_⟩
      rcases hwhich with rfl | hno
      · rw [honward'.keeps.isSubquery hid.1.lt_size]
        exact hid.2
      · exact hno
    · exact .pure honward.proper hid

/-! ## Levels -/

theorem nested_fitting (construct : Nested) :
    Nests env limit (fun _ => True) (nested deeper construct) (nested other construct) fun id t =>
      t.draft.Within whole false (levels + 1) id ∧
        ((t.draft.kind id).isSubquery = true → construct = .subquery) := by
  have hplain : ∀ {p q : Parser NodeId}, Nests env limit (Fits whole levels []) p q
      (Plain whole (levels + 1)) → Nests env limit (fun _ => True) p q fun id t =>
        t.draft.Within whole false (levels + 1) id ∧
          ((t.draft.kind id).isSubquery = true → construct = .subquery) := fun hp =>
    hp.weaken (fun s _ => .nil s) fun _ _ h => ⟨h.1, fun hsub => absurd hsub (by simp [h.2])⟩
  cases construct with
  | negation rule => exact hplain (plain_negation hd rule)
  | sign negative => exact hplain (plain_signed hd negative)
  | group => exact hplain (plain_group hd)
  | subquery =>
    exact (nests_simpleSelect hd false).weaken (fun s _ => .nil s) fun _ _ h => ⟨h, fun _ => rfl⟩
  | call construct => exact hplain (plain_call hd construct)

end

/-- What is cut off uses up all levels that are left. There the runs part. -/
theorem nests_skipTooDeep (q : Parser NodeId) :
    Nests env limit (fun _ => True) skipTooDeep q fun id t => Plain whole 0 id t := by
  intro s hs _
  refine After.read_bind (.look_bind ((After.step _).bind ?_))
  rintro _ t ⟨-, rfl⟩
  have hbounds := (TokenStream.skipLevel_forward env.tokens.size 0 (s.stream env)).bounds hs.inside
  have honward := (Onward.refl hs).move hbounds.2
  refine .look_bind ((After.pushUnknown _ _ _ _).mono ?_)
  rintro _ _ ⟨rfl, rfl⟩
  refine ⟨honward.pushRecord _ _ rfl, fun hshallow => ?_, Draft.Within.pushRecord hs.cuts rfl ⟨rfl, rfl⟩
    _ fun _ => rfl, congrArg NodeKind.isSubquery (Draft.kind_push _ _ _)⟩
  exact absurd rfl (hshallow _ (List.mem_append_right _ (List.mem_singleton_self _)))

/-- **Nested constructs fit at every level**, with every limit that is at least as high. -/
theorem level_fitting (hgrammar : env.grammar.SelectsByWord) {more : Nat} (hle : levels ≤ more) :
    (level levels).Fitting env limit whole levels (level more) where
  grammar := hgrammar
  nests := by
    induction levels generalizing more with
    | zero =>
      intro construct
      exact (nests_skipTooDeep _).weaken (fun _ h => h) fun _ _ h =>
        ⟨h.1, fun hsub => absurd hsub (by simp [h.2])⟩
    | succ levels ih =>
      obtain ⟨more, rfl⟩ : ∃ n, more = n + 1 := ⟨more - 1, by omega⟩
      exact nested_fitting ⟨hgrammar, ih (Nat.le_of_succ_le_succ hle)⟩

/-! ## Whole texts -/

/-- The rules of whole texts. A subquery that such a text consists of is read on the level of the
text. -/
def isWhole (rule : String) : Bool := rule == RuleId.statement || rule == RuleId.subquery

section

variable {deeper other : Deeper} (hd : deeper.Fitting env limit whole levels other) {rule : String}

include hd

/-- **What a statement is read as fits**, a subquery on the level of the text. -/
theorem nests_statement? :
    Nests env limit (Fits whole levels []) (statement? deeper rule) (statement? other rule)
      fun id? t => ∀ id ∈ id?, t.draft.Within whole true levels id := by
  have hplain : ∀ {p q : Parser NodeId}, Nests env limit (Fits whole levels []) p q (Plain whole levels) →
      Nests env limit (Fits whole levels []) (some <$> p) (some <$> q)
        fun id? t => ∀ id ∈ id?, t.draft.Within whole true levels id := fun hp =>
    .map (hp.weaken (fun _ h => h) fun _ _ h => by rintro _ ⟨⟩; exact h.1.of_not_isSubquery h.2 true)
  have hsubquery : Nests env limit (Fits whole levels []) (some <$> simpleSelect deeper)
      (some <$> simpleSelect other) fun id? t => ∀ id ∈ id?, t.draft.Within whole true levels id :=
    .map ((nests_simpleSelect hd true).weaken (fun _ h => h) fun _ _ h => by rintro _ ⟨⟩; exact h)
  have hconstruct : ∀ construct?, Nests env limit (Fits whole levels []) (statementOf deeper construct?)
      (statementOf other construct?) fun id? t => ∀ id ∈ id?, t.draft.Within whole true levels id := by
    intro construct?
    unfold statementOf
    split
    · exact hplain (plain_selectStatement hd)
    · exact hsubquery
    · exact hplain (plain_updateStatement hd)
    · exact hplain (plain_deleteStatement hd)
    · intro s hs _
      have hrecord : Descent env limit s (record ⟨.invalidStatement, [],
          ⟨min (s.stream env).currentStart (Text.trimmedLength env.source),
            Text.trimmedLength env.source⟩, none⟩) _ fun _ _ => True :=
        descent_record (by simp) hs
      exact hrecord.bind fun _ t honward _ => .pure honward.proper (by rintro _ ⟨⟩)
  refine .look fun kind => ?_
  split
  · intro s hs hfits
    refine (descent_dispatch hs).bind ?_
    rintro construct? t - ⟨rfl, -⟩
    exact hconstruct construct? t hs hfits
  · exact hconstruct none

/-- **What a text starts with fits.** -/
theorem nests_start? (hwhole : whole = isWhole rule) :
    Nests env limit (Fits whole levels []) (start? deeper rule) (start? other rule)
      fun id? t => ∀ id ∈ id?, t.draft.Within whole whole levels id := by
  unfold start?
  cases hrule : isWhole rule with
  | true =>
    rw [hrule] at hwhole
    subst hwhole
    rw [isWhole] at hrule
    rw [if_pos hrule, if_pos hrule]
    exact nests_statement? hd
  | false =>
    rw [hrule] at hwhole
    subst hwhole
    rw [isWhole] at hrule
    rw [if_neg (by simp [hrule]), if_neg (by simp [hrule])]
    exact .map ((expresses_disjunction hd rule).collects.weaken (fun _ h => h) fun _ _ h => by
      rintro _ ⟨⟩; exact h.head)

omit hd in
theorem nests_trailingText {pre : State → Prop} :
    Nests env limit pre trailingText trailingText fun id? t => ∀ id ∈ id?, Plain whole levels id t := by
  refine .look fun atEnd => ?_
  cases atEnd with
  | true => exact fun s hs _ => .pure hs (by rintro _ ⟨⟩)
  | false =>
    intro s hs _
    have hend : Descent env limit s (step fun stream => ((), stream.seek env.tokens.size))
        (step fun stream => ((), stream.seek env.tokens.size)) fun _ _ => True := by
      intro a t hrun
      obtain ⟨-, rfl⟩ := After.step (fun stream => ((), stream.seek env.tokens.size)) a t hrun
      exact ⟨(Onward.refl hs).move (Nat.min_le_right _ _), fun _ => rfl, trivial⟩
    have hrest : ∀ span text, Descent env limit s (do
        step fun stream => ((), stream.seek env.tokens.size)
        return some (← pushUnknown span text .unknownExpression text)) (do
        step fun stream => ((), stream.seek env.tokens.size)
        return some (← pushUnknown span text .unknownExpression text))
        fun id? t => ∀ id ∈ id?, Plain whole levels id t := by
      intro span text
      refine hend.bind fun _ t honward _ => ?_
      have hunknown : Nests env limit (fun _ => True) (pushUnknown span text .unknownExpression text)
          (pushUnknown span text .unknownExpression text) (Plain whole levels) :=
        plain_pushUnknown _ _ _ fun hkey => nomatch hkey
      exact (hunknown t honward.proper trivial).bind fun id u honward' hid =>
        .pure honward'.proper (by rintro _ ⟨⟩; exact hid)
    exact hrest _ _

/-- **A whole text fits into the levels that are allowed**, and is read alike with every limit that is at
least as high, unless something is cut off. -/
theorem nests_query (hwhole : whole = isWhole rule) :
    Nests env limit (fun _ => True) (query deeper rule) (query other rule) fun root t =>
      t.draft.Within whole false levels root := by
  intro s hs _
  refine (nests_start? hd hwhole s hs (.nil s)).bind fun statement t honward hstatement => ?_
  have htrailing : Nests env limit (fun _ => True) trailingText trailingText fun id? t =>
      ∀ id ∈ id?, Plain whole levels id t := nests_trailingText
  refine (htrailing t honward.proper trivial).bind fun unknown u honward' hunknown => ?_
  have hchildren : ∀ v, v = u → ∀ child ∈ (NodeKind.query statement unknown).children,
      v.draft.Within whole ((NodeKind.query statement unknown).holdsSubquery whole) levels child := by
    rintro _ rfl child hchild
    rcases List.mem_append.mp hchild with hfirst | hlast
    · exact (hstatement child (Option.mem_toList.mp hfirst)).keeps honward'.keeps
    · have hplain := hunknown child (Option.mem_toList.mp hlast)
      exact hplain.1.of_not_isSubquery hplain.2 whole
  exact (nests_push hchildren false _ u honward'.proper rfl).mono fun _ _ _ hroot => hroot.1

end

end Jpql.Parse
