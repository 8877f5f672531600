import Jpql.Parse.Statement
import Jpql.Proofs.Place.Expression

/-! # Places of declarations and clauses

A range and an item of `SET` start at the current token even if the part they begin with is missing. All
the same, what follows that part is placed as everywhere else (`Parse.Headed`), so the node is in its
place unless nothing at all was read for it (`Parse.Settles`). The clause around it then ends before it
starts: it is adrift (`Parse.Drifts`). -/

namespace Jpql.Parse

variable {α : Type} {env : Env} {s t u : State} {loose : Bool} {low : Bound} {start : Nat}
  {gathered : List NodeId} {p : Parser α} {nodes : α → List NodeId}

/-! ## Nodes without a head -/

/-- **Nodes that were gathered behind a head**: from `start` on, unless the head is missing. -/
structure Headed (env : Env) (low : Bound) (start : Nat) (head : NodeId) (gathered : List NodeId)
    (s : State) : Prop where
  held : Held env false low gathered s
  boundary : Text.IsBoundary env.source.toList start
  low_le : low.offset ≤ start
  start_le : start ≤ env.startAt s.position
  head : head < s.draft.size ∧ s.draft.kind head = .bad ∧ s.draft.problems ≠ [] ∨
    Held env false (.opened start) gathered s

/-- **A node starts at the given offset, or is empty there for lack of a head.** -/
structure Settles (env : Env) (low : Bound) (start : Nat) (id : NodeId) (s : State) : Prop where
  held : Held env true low [id] s
  boundary : Text.IsBoundary env.source.toList start
  low_le : low.offset ≤ start
  place : Held env false (.opened start) [id] s ∨ env.endBefore s.position < start ∧
    (s.draft.kind id).LacksHead s.draft.kind ∧ s.draft.span id = .point start ∧ s.draft.problems ≠ []

/-- A reader whose nodes may be adrift. -/
def Drifts (env : Env) (p : Parser α) (nodes : α → List NodeId) : Prop :=
  ∀ low, Leads env (Held env false low []) p fun a => Held env true low (nodes a)

section

variable (h : env.OfText)

include h

/-- What is gathered from every offset on is gathered behind a head. -/
theorem headed_of_gathers {head : NodeId} (hp : ∀ low, Gathers env false low gathered p nodes) :
    Leads env (Headed env low start head gathered) p fun a => Headed env low start head (nodes a) := by
  intro s hd a t hrun
  obtain ⟨hc, ht⟩ := hp low s hd.held a t hrun
  have hnext := h.inOrder.startAt_mono hc.position_le (h.inOrder.lt_size hc.inside)
  refine ⟨hc, ht, hd.boundary, hd.low_le, Nat.le_trans hd.start_le hnext, ?_⟩
  rcases hd.head with ⟨hlt, hbad, hproblems⟩ | hstart
  · exact .inl ⟨Nat.lt_of_lt_of_le hlt hc.stays.size_le, hc.stays.kind_eq_of hlt hbad rfl,
      hproblems ∘ hc.stays.clean⟩
  · exact .inr (hp _ s hstart a t hrun).2

/-- Such nodes are added to what was gathered before, if nothing of that is adrift. -/
theorem Drifts.gathers (hp : Drifts env p nodes) : Leads env (Held env false low gathered) p fun a =>
    Held env true low (gathered ++ nodes a) := fun s hd =>
  (hp _ s (hd.start h)).mono fun _ _ ⟨hc, ht⟩ => ⟨hc, hd.loosen.extend h hc ht hd.low_le hd.stop_le⟩

/-- **Behind a token that is there nothing is adrift.** -/
theorem settles_consume {kind : TokenKind} (hkind : kind ≠ .eof) :
    Leads env (Held env true low gathered) (consume kind) fun found =>
      Held env (!found) low gathered := by
  refine fun s hd => (hd.consumed h hkind).mono fun found t ⟨hc, _, hyes, hno⟩ => ⟨hc, ?_⟩
  cases found with
  | true => exact hd.settle h hc (hyes rfl).2 (hyes rfl).1.placed
  | false => exact hno rfl ▸ hd

/-- One or more of them with commas between them. -/
theorem Drifts.separated {item : Parser NodeId} (hitem : Drifts env item one) :
    Drifts env (separated item) id := by
  refine fun low => (hitem low).bind fun first => ?_
  show Gathers env true low (id [first]) _ id
  refine gathers_loop (fun items => (settles_consume h (by simp)).bind fun found => ?_) [first]
  cases found with
  | true => exact (hitem.gathers h).bind fun last => gathers_pure (List.Sublist.refl _)
  | false => exact gathers_pure (List.Sublist.refl _)

/-- A span up to the last token fits the text, wherever it starts. -/
theorem Env.OfText.fits_upTo {position : Nat} (hboundary : Text.IsBoundary env.source.toList start)
    (hp : position ≤ env.tokens.size - 1) : (env.upTo start position).Fits env.source := by
  refine ⟨Nat.le_max_right _ _, hboundary, ?_⟩
  show Text.IsBoundary _ (max _ _)
  rcases Nat.le_total (env.endBefore position) start with hle | hle
  · rw [Nat.max_eq_right hle]
    exact hboundary
  · rw [Nat.max_eq_left hle]
    exact h.boundary_endBefore hp

omit h in
/-- A node that reaches up to the last token moved over lies there, or is empty behind it. -/
theorem Held.upTo {id : NodeId} (hd : Held env loose low gathered s) (hlow : low.offset ≤ start)
    (hstart : start ≤ env.startAt s.position) (hlt : id < s.draft.size)
    (hspan : s.draft.span id = env.upTo start s.position) (hadrift : Adrift s.draft.kind id)
    (hproblems : s.draft.problems ≠ []) : Held env true low [id] s := by
  refine ⟨hd.placed, hd.inside, hd.boundary, hd.low_le, hd.begun, fun other hother => ?_,
    fun hclean => absurd hclean hproblems, List.pairwise_singleton _ _⟩
  rw [List.mem_singleton.mp hother, hspan]
  refine ⟨hlt, hlow, ?_⟩
  rcases Nat.le_total (env.endBefore s.position) start with hle | hle
  · have hmax := Nat.max_eq_right hle
    exact .inr ⟨rfl, hadrift, hmax.symm, Nat.le_trans (Nat.le_of_eq hmax) hstart⟩
  · exact .inl (Nat.le_of_eq (Nat.max_eq_left hle))

omit h in
theorem Settles.upTo {id : NodeId} (hd : Held env loose low gathered s)
    (hboundary : Text.IsBoundary env.source.toList start) (hlow : low.offset ≤ start)
    (hstart : start ≤ env.startAt s.position) (hlt : id < s.draft.size)
    (hspan : s.draft.span id = env.upTo start s.position)
    (hlacks : (s.draft.kind id).LacksHead s.draft.kind) (hproblems : s.draft.problems ≠ []) :
    Settles env low start id s := by
  refine ⟨hd.upTo hlow hstart hlt hspan (.inl hlacks) hproblems, hboundary, hlow, ?_⟩
  rcases Nat.lt_or_ge (env.endBefore s.position) start with hbehind | hle
  · refine .inr ⟨hbehind, hlacks, ?_, hproblems⟩
    rw [hspan, Env.upTo, Nat.max_eq_right (Nat.le_of_lt hbehind)]
    rfl
  · refine .inl ⟨hd.placed, hd.inside, hboundary, hle, fun hclean => absurd hclean hproblems,
      fun other hother => ?_, fun hclean => absurd hclean hproblems, List.pairwise_singleton _ _⟩
    rw [List.mem_singleton.mp hother, hspan]
    exact ⟨hlt, Nat.le_refl _, .inl (Nat.le_of_eq (Nat.max_eq_left hle))⟩

/-- **A node over what was gathered behind a head**, and over what is empty right behind that. -/
theorem Headed.pushOver {head : NodeId} {kind : NodeKind} (hd : Headed env low start head gathered s)
    (hlacks : ∀ kinds : NodeId → NodeKind, kinds head = .bad → kind.LacksHead kinds)
    (hchildren : ∀ child ∈ kind.children, child ∈ gathered ∨
      child < s.draft.size ∧ s.draft.span child = .point (env.endBefore s.position))
    (hordered : kind.children.Pairwise (Precedes s.draft.span)) (hsegments : kind.segments = []) :
    After env (pushFrom kind start) s fun id t => Course env s t ∧ Settles env low start id t := by
  have hnone : ∀ segment, segment ∉ kind.segments := hsegments ▸ fun _ => List.not_mem_nil
  have hpoint : ∀ child, s.draft.span child = .point (env.endBefore s.position) →
      (s.draft.span child).stop ≤ env.endBefore s.position := fun child hspan => by
    rw [hspan]
    exact Nat.le_refl _
  rcases hd.head with ⟨hlt, hbad, hproblems⟩ | hstart
  · refine (After.pushFrom kind start).mono ?_
    rintro _ _ ⟨rfl, rfl⟩
    have hmax := Nat.le_max_left (env.endBefore s.position) start
    have hplaced : (s.draft.push kind (env.upTo start s.position)).Placed env := by
      refine hd.held.placed.toPlaced.push (h.fits_upTo hd.boundary hd.held.inside)
        (fun segment hs => absurd hs (hnone segment)) (fun child hc => ?_) hordered
      rcases hchildren child hc with hmem | ⟨hlt, hspan⟩
      · exact ⟨(hd.held.lies child hmem).1, .inr (hlacks _ hbad),
          .inl (Nat.le_trans (hd.held.stop_le child hmem) hmax)⟩
      · exact ⟨hlt, .inr (hlacks _ hbad), .inl (Nat.le_trans (hpoint child hspan) hmax)⟩
    have hkept : ((s.draft.push kind (env.upTo start s.position)).kind s.draft.size).LacksHead
        (s.draft.push kind (env.upTo start s.position)).kind := by
      rw [Draft.kind_push]
      exact hlacks _ ((Draft.Stays.push _ _ _).kind_eq_of hlt hbad rfl)
    obtain ⟨hc, ht⟩ := hd.held.write h (.push _ _ _)
      (hd.held.placed.push hplaced fun hclean => absurd hclean hproblems)
    refine ⟨hc, .upTo ht hd.boundary hd.low_le hd.start_le ?_ (Draft.span_push _ _ _) hkept hproblems⟩
    show s.draft.size < (s.draft.push _ _).size
    rw [Draft.size_push]
    exact Nat.lt_succ_self _
  · refine (hstart.pushOver h kind (fun child hc => ?_) hordered
      fun segment hs => absurd hs (hnone segment)).mono fun id t ⟨hc, ht, _⟩ => ⟨hc, ?_⟩
    · rcases hchildren child hc with hmem | ⟨hlt, hspan⟩
      · obtain ⟨hlt, hlow, hstop⟩ := hstart.lies child hmem
        exact ⟨hlt, hlow, hstop.imp_right fun hl => ⟨hl.2.1, hl.2.2.1⟩⟩
      · exact ⟨hlt, hspan ▸ hstart.low_le, .inl (hpoint child hspan)⟩
    · exact ⟨(ht.weaken (List.Sublist.refl _) hd.held.boundary hd.low_le
        (hd.held.begun.course hc)).loosen, hd.boundary, hd.low_le, .inl ht⟩

/-- The nodes of it are among what was gathered. -/
theorem Headed.pushFrom {head : NodeId} {kind : NodeKind}
    (hlacks : ∀ kinds : NodeId → NodeKind, kinds head = .bad → kind.LacksHead kinds)
    (hchildren : kind.children.Sublist gathered) (hsegments : kind.segments = []) :
    Leads env (Headed env low start head gathered) (pushFrom kind start) (Settles env low start) :=
  fun _ hd => hd.pushOver h hlacks (fun _ hc => .inl (hchildren.subset hc))
    (hd.held.ordered.sublist hchildren) hsegments

/-! ## Ranges -/

/-- The part that a construct begins with is a head, missing or not. -/
theorem Held.headed {head : NodeId} (hs : Held env false low [] s) (ht : Held env false low [head] t)
    (hc : Course env s t) (hplace : t.draft.kind head = .bad ∧ t.draft.problems ≠ [] ∨
      Held env false (.opened (env.startAt s.position)) [head] t) :
    Headed env low (env.startAt s.position) head [head] t :=
  ⟨ht, h.boundary_startAt hs.inside,
    Nat.le_trans hs.low_le (h.inOrder.endBefore_le_startAt (h.inOrder.lt_size hs.inside)),
    h.inOrder.startAt_mono hc.position_le (h.inOrder.lt_size hc.inside),
    hplace.imp_left fun hbad => ⟨(ht.lies head (List.mem_singleton_self _)).1, hbad⟩⟩

/-- **What a range goes over** starts at the current token, or is missing. -/
theorem rangeRoot_after (hd : Held env false low [] s) : After env rangeRoot s fun found t =>
    Course env s t ∧ Headed env low (env.startAt s.position) found.1 [found.1] t := by
  refine .look_bind ?_
  cases hname : (s.stream env).identifier? with
  | none =>
    refine ((places_missing h _ low s hd).and (After.missing _)).bind ?_
    rintro _ _ ⟨⟨hc, ht⟩, rfl, rfl⟩
    exact .pure ⟨hc, hd.headed h ht hc (.inl ⟨Draft.kind_push _ _ _,
      List.append_ne_nil_of_right_ne_nil _ (List.cons_ne_nil _ _)⟩)⟩
  | some name =>
    refine .look_bind ((hd.opened h (ne_eof_of_identifier? hname)).bind fun _ t ⟨hc, ht, hnext⟩ =>
      .look_bind ?_)
    have hroot : ∀ {kind : NodeKind}, kind.segments = [] → kind.children = [] →
        After env (push kind (s.stream env).current.span) t fun id u => Course env s u ∧
          Held env false (.opened (env.startAt s.position)) [id] u := fun hsegments hchildren =>
      (ht.pushToken h hd.inside (by omega) hsegments hchildren).mono fun _ _ ⟨hc', hu, _⟩ =>
        ⟨hc.trans hc', hu⟩
    split
    · refine (hroot rfl rfl).bind fun root u ⟨hcu, hu⟩ => ?_
      refine (hu.segments h).bind fun (found, dot) v ⟨hcv, hv, hspans⟩ => ?_
      refine (hv.pushFrom h (.path .collectionValued root found dot) (List.Sublist.refl _)
        hspans).bind fun path w ⟨hcw, hw, _⟩ => ?_
      have hcourse := (hcu.trans hcv).trans hcw
      exact .pure ⟨hcourse, hd.headed h (hd.open_le h hcourse hw) hcourse (.inr hw)⟩
    · exact (hroot rfl rfl).bind fun root u ⟨hcu, hu⟩ =>
        .pure ⟨hcu, hd.headed h (hd.open_le h hcu hu) hcu (.inr hu)⟩

/-- A passage that leaves everything exact. -/
theorem Headed.course {head : NodeId} (hd : Headed env low start head gathered s)
    (hc : Course env s t) (hplaced : t.draft.Exact env) : Headed env low start head gathered t where
  held := hd.held.course h hc hplaced
  boundary := hd.boundary
  low_le := hd.low_le
  start_le := Nat.le_trans hd.start_le
    (h.inOrder.startAt_mono hc.position_le (h.inOrder.lt_size hc.inside))
  head := hd.head.imp (fun ⟨hlt, hbad, hproblems⟩ => ⟨Nat.lt_of_lt_of_le hlt hc.stays.size_le,
    hc.stays.kind_eq_of hlt hbad rfl, hproblems ∘ hc.stays.clean⟩) fun hs => hs.course h hc hplaced

/-- **A range whose variable is virtual.** The variable is empty, right behind the entity. -/
theorem Headed.virtualRange {root : NodeId} (hd : Headed env low start root [root] s)
    (entity : String) (hasAs : Bool) : After env (do
      let declared ← some <$> virtualVariable entity
      Parse.pushFrom (.rangeDeclaration root hasAs declared) start) s fun id t =>
        Course env s t ∧ Settles env low start id t := by
  have hfits : (Span.point (env.endBefore s.position)).Fits env.source :=
    Span.fits_point (h.boundary_endBefore hd.held.inside)
  have hroot := (hd.held.lies root (List.mem_singleton_self _)).1
  let kind : NodeKind := .identifier (Text.asciiLower entity) true none
  let span : Span := .point (env.endBefore s.position)
  have hvariable : After env (some <$> virtualVariable entity) s fun declared t =>
      declared = some s.draft.size ∧ t.position = s.position ∧ t.draft = s.draft.push kind span := by
    rintro _ _ ⟨⟩
    exact ⟨rfl, rfl, rfl⟩
  refine hvariable.bind ?_
  rintro _ t ⟨rfl, hposition, hdraft⟩
  have hstays : s.draft.Stays t.draft := hdraft ▸ .push _ _ _
  have hc : Course env s t := ⟨Nat.le_of_eq hposition.symm, hposition ▸ hd.held.inside, hstays⟩
  have hexact : t.draft.Exact env := by
    rw [hdraft]
    exact hd.held.placed.push (hd.held.placed.push_leaf hfits rfl rfl) fun _ => .inr ⟨⟨_, rfl⟩, rfl⟩
  have ht := hd.course h hc hexact
  have hspan : t.draft.span s.draft.size = .point (env.endBefore t.position) := by
    rw [hdraft, Draft.span_push, hposition]
  have hsize : t.draft.size = s.draft.size + 1 := by rw [hdraft, Draft.size_push]
  refine After.mono (ht.pushOver h (fun _ hbad => hbad) (fun child hc => ?_)
    (List.pairwise_pair.mpr ?_) rfl) fun id u ⟨hcu, hu⟩ => ⟨hc.trans hcu, hu⟩
  · rcases List.mem_cons.mp hc with rfl | hmem
    · exact .inl (List.mem_singleton_self _)
    · rw [List.mem_singleton.mp hmem]
      exact .inr ⟨hsize ▸ Nat.lt_succ_self _, hspan⟩
  · rw [Precedes, hspan]
    exact ht.held.stop_le root (List.mem_singleton_self _)

/-- **A range with its variable.** -/
theorem rangeDeclaration_after (allowVirtual : Bool) (hd : Held env false low [] s) :
    After env (rangeDeclaration allowVirtual) s fun id t =>
      Course env s t ∧ Settles env low (env.startAt s.position) id t := by
  refine .look_bind ((rangeRoot_after h hd).bind fun (root, entity) t ⟨hc, ht⟩ => ?_)
  let start := env.startAt s.position
  have hlast : ∀ hasAs declared, Leads env
      (Headed env low start root ([root] ++ Option.toList declared))
      (pushFrom (.rangeDeclaration root hasAs declared) start) (Settles env low start) :=
    fun hasAs declared => Headed.pushFrom h (fun _ hbad => hbad) (List.Sublist.refl _) rfl
  have hnone : ∀ hasAs, Leads env (Headed env low start root [root]) (do
      let declared ← missingVariable *> pure none
      pushFrom (.rangeDeclaration root hasAs declared) start) (Settles env low start) :=
    fun hasAs => (headed_of_gathers h fun _ => gathers_missingVariable h).bind fun _ => hlast hasAs none
  refine Leads.bind (headed_of_gathers h fun _ => gathers_consume h _) (fun hasAs => ?_) t ht |>.mono
    fun id u ⟨hcu, hu⟩ => ⟨hc.trans hcu, hu⟩
  refine (headed_of_gathers h fun _ => (places_declaredVariable? h).gathers h).bind fun declared? => ?_
  cases declared? with
  | some declared => exact hlast hasAs (some declared)
  | none =>
    cases entity with
    | none => exact hnone hasAs
    | some name =>
      dsimp only
      split
      · exact fun s hs => hs.virtualRange h name hasAs
      · exact hnone hasAs

end

/-! ## Declarations -/

/-- A word that a join starts with. -/
def JoinAhead (kind : TokenKind) : Prop :=
  kind = .keyword .join ∨ kind = .keyword .left ∨ kind = .keyword .inner

section

variable {deeper : Deeper} (hd : deeper.Placing env)

include hd

theorem collectionDeclaration_begins :
    Begins env (· ≠ .eof) (collectionDeclaration deeper) one := by
  have h := hd.ofText
  refine begins_intro h (fun _ hk => hk) fun start => (gathers_discard_expect h _).bind fun _ => ?_
  refine (places_primary hd _ _).bind fun path => (gathers_asCollection h path).bind fun _ => ?_
  refine (gathers_discard_expect h _).bind fun _ => (gathers_consume h _).bind fun hasAs => ?_
  refine ((places_declaredVariable? h).gathers h).bind fun declared => ?_
  have hlast : Gathers env false (.opened start) ([path] ++ declared.toList)
      (pushFrom (.collectionDeclaration path hasAs declared) start) one :=
    gathers_pushFrom h rfl (List.Sublist.refl _)
  dsimp only
  split
  · exact (gathers_missingVariable h).bind fun _ => hlast
  · exact hlast

theorem places_onClause? : Places env (onClause? deeper) Option.toList := by
  have h := hd.ofText
  have hclause : Begins env (· = .keyword .on) (do
      let start ← look (·.currentStart)
      advance
      let condition ← condition deeper
      return some (← pushFrom (.onClause condition) start)) Option.toList :=
    begins_intro h (by rintro _ rfl; simp) fun start =>
      (places_condition hd _).bind fun condition =>
        gathers_some_pushFrom h rfl (List.Sublist.refl _)
  exact fun low => .atKeyword (hclause.leads h) (gathers_pure (List.Sublist.refl _))

omit hd in
/-- What comes before `JOIN` is moved over, if it is there. -/
theorem Held.joinType (h : env.OfText) (hs : Held env loose low gathered s)
    (hahead : JoinAhead (s.stream env).kind) : After env joinType s fun _ t => Course env s t ∧
      (s.position < t.position ∧ Held env false (.opened (env.startAt s.position)) [] t ∨
        t = s ∧ (s.stream env).kind = .keyword .join) := by
  refine (hs.consumed h (show TokenKind.keyword .left ≠ .eof by simp)).bind
    fun isLeft t ⟨hc, hleft, hyes, hno⟩ => ?_
  cases isLeft with
  | true =>
    obtain ⟨ht, hmoved⟩ := hyes rfl
    refine (gathers_consume h _ t ht).bind fun isOuter u ⟨hc', hu⟩ => ?_
    have hlater : s.position < u.position := Nat.lt_of_lt_of_le hmoved hc'.position_le
    cases isOuter <;> exact .pure ⟨hc.trans hc', .inl ⟨hlater, hu⟩⟩
  | false =>
    obtain rfl := hno rfl
    refine (hs.consumed h (show TokenKind.keyword .inner ≠ .eof by simp)).bind
      fun isInner u ⟨hc', hinner, hyes, hno⟩ => ?_
    cases isInner with
    | true => exact .pure ⟨hc', .inl ⟨(hyes rfl).2, (hyes rfl).1⟩⟩
    | false =>
      refine .pure ⟨hc', .inr ⟨hno rfl, ?_⟩⟩
      rw [TokenStream.check, eq_comm, beq_eq_false_iff_ne] at hleft hinner
      exact hahead.resolve_right (not_or.mpr ⟨hleft, hinner⟩)

/-- What follows the word `JOIN` is gathered above it. -/
theorem gathers_joinRest (type : JoinType) (start : Nat) : Gathers env false (.opened start) [] (do
    let fetch ← consumeKeyword .fetch
    let path ← primary deeper RuleId.joinPath
    match ← kindOf path with
    | .treat inner _ _ => asCollection inner
    | _ => asCollection path
    let hasAs ← consumeKeyword .as
    let declared ← declaredVariable?
    if declared.isNone && (hasAs || !fetch) then missingVariable
    let on ← onClause? deeper
    pushFrom (.join type fetch path hasAs declared on) start) one := by
  have h := hd.ofText
  have hvariable : ∀ fetch path, Gathers env false (.opened start) [path] (do
      let hasAs ← consumeKeyword .as
      let declared ← declaredVariable?
      if declared.isNone && (hasAs || !fetch) then missingVariable
      let on ← onClause? deeper
      pushFrom (.join type fetch path hasAs declared on) start) one := by
    intro fetch path
    refine (gathers_consume h _).bind fun hasAs => ?_
    refine ((places_declaredVariable? h).gathers h).bind fun declared => ?_
    have hlast : Gathers env false (.opened start) ([path] ++ declared.toList) (do
        let on ← onClause? deeper
        pushFrom (.join type fetch path hasAs declared on) start) one :=
      ((places_onClause? hd).gathers h).bind fun on => gathers_pushFrom h rfl (List.Sublist.refl _)
    dsimp only
    split
    · exact (gathers_missingVariable h).bind fun _ => hlast
    · exact hlast
  refine (gathers_consume h _).bind fun fetch => (places_primary hd _ _).bind fun path =>
    .kindOf fun kind => ?_
  dsimp only
  split
  · exact (gathers_asCollection h _).bind fun _ => hvariable fetch path
  · exact (gathers_asCollection h _).bind fun _ => hvariable fetch path

/-- **A join starts at the first of its words.** -/
theorem join_begins : Begins env JoinAhead (join deeper) one := by
  have h := hd.ofText
  intro low s hahead hs
  refine .look_bind ((hs.joinType h hahead).bind fun type t ⟨hc, hplace⟩ => ?_)
  have hword : After env (expectKeyword .join) t fun _ u => Course env s u ∧
      s.position < u.position ∧ Held env false (.opened (env.startAt s.position)) [] u := by
    rcases hplace with ⟨hmoved, ht⟩ | ⟨rfl, hjoin⟩
    · exact (gathers_expectKeyword h _ t ht).mono fun _ u ⟨hc', hu⟩ =>
        ⟨hc.trans hc', Nat.lt_of_lt_of_le hmoved hc'.position_le, hu⟩
    · exact (hs.expected h (by simp) hjoin).mono fun _ u ⟨hc', hu, hmoved⟩ => ⟨hc', hmoved, hu⟩
  refine hword.bind fun _ u ⟨hc', hmoved, hu⟩ => ?_
  exact (gathers_joinRest hd type _ u hu).mono fun id v ⟨hc'', hv⟩ =>
    ⟨hc'.trans hc'', Nat.lt_of_lt_of_le hmoved hc''.position_le, hv⟩

omit hd in
/-- Where a join may start, there is one of its words. -/
theorem joinAhead_of_atJoin {stream : TokenStream} (hjoin : atJoin stream = true) :
    JoinAhead stream.kind := by
  unfold atJoin at hjoin
  split at hjoin
  · exact .inl ‹_›
  · exact .inr (.inl ‹_›)
  · exact .inr (.inr ‹_›)
  · cases hjoin

/-- **The joins behind a range.** Where nothing was read for the range, they start where it does, or
there are none. -/
theorem joins_after {range : NodeId} (hs : s.position ≤ t.position)
    (ht : Settles env low (env.startAt s.position) range t) :
    After env (loop (fun joins => do
      if ← look atJoin then return some (joins ++ [← join deeper]) else return none) []) t
      fun joins u => Course env t u ∧
        (Held env true (.opened (env.startAt s.position)) (range :: joins) u ∨
        joins = [] ∧ u = t ∧ env.endBefore t.position < env.startAt s.position) := by
  have h := hd.ofText
  refine After.loop _ (fun joins u ⟨hc, hu⟩ => ?_) ⟨.refl ht.held.inside, ht.place.imp
    Held.loosen fun hempty => ⟨rfl, rfl, hempty.1⟩⟩
  refine .look_bind ?_
  cases hjoin : atJoin (u.stream env) with
  | false => exact .pure ⟨hc, hu⟩
  | true =>
    have hahead := joinAhead_of_atJoin hjoin
    rcases hu with hheld | ⟨rfl, rfl, hbehind⟩
    · exact ((join_begins hd).leads h u ⟨hheld, hahead⟩).bind fun id v ⟨hcv, hv⟩ =>
        .pure ⟨hc.trans hcv, .inl hv⟩
    · -- Nothing was read for the range, so the first join starts where it does.
      obtain ⟨-, -, hspan, hproblems⟩ := ht.place.resolve_left fun hstart =>
        absurd hstart.low_le (Nat.not_le_of_lt hbehind)
      have hrange := (ht.held.lies range (List.mem_singleton_self _)).1
      refine (join_begins hd low u hahead ht.held.nil).bind fun id v ⟨hcv, _, hv⟩ =>
        .pure ⟨hcv, .inl ?_⟩
      have hstart := h.inOrder.startAt_mono hs (h.inOrder.lt_size ht.held.inside)
      have hreported : v.draft.problems ≠ [] := hproblems ∘ hcv.stays.clean
      have hnarrow : Held env false (.opened (env.startAt s.position)) (one id) v :=
        hv.weaken (List.Sublist.refl _) ht.boundary hstart fun hclean => absurd hclean hreported
      have hempty : Held env true (.opened (env.startAt s.position)) [range] v := by
        refine ⟨hv.placed, hv.inside, ht.boundary, hnarrow.low_le, hnarrow.begun, fun other hother => ?_,
          fun hclean => absurd hclean hreported, List.pairwise_singleton _ _⟩
        rw [List.mem_singleton.mp hother, hcv.stays.span_eq range hrange, hspan]
        exact ⟨Nat.lt_of_lt_of_le hrange hcv.stays.size_le, Nat.le_refl _, .inl hnarrow.low_le⟩
      refine hempty.append hnarrow.loosen fun other hother later hlater => ?_
      rw [Precedes, List.mem_singleton.mp hother, hcv.stays.span_eq range hrange, hspan]
      exact Nat.le_trans hstart (hv.lies later hlater).2.1

/-- **An entry of a `FROM` clause starts at the current token**, or is empty there. -/
theorem drifts_declaration : Drifts env (declaration deeper) one := by
  have h := hd.ofText
  refine fun low => .atKeyword ?_ fun s hs => ?_
  · refine Leads.of_pre (((collectionDeclaration_begins hd).leads h).mono fun _ _ ht => ht.loosen)
      fun s ⟨hs, hin⟩ => ⟨hs, ?_⟩
    rw [hin]
    simp
  refine .look_bind ((rangeDeclaration_after h false hs).bind fun range t ⟨hc, ht⟩ => ?_)
  refine (joins_after hd hc.position_le ht).bind fun joins u ⟨hcu, hu⟩ => ?_
  have hcourse := hc.trans hcu
  rcases hu with hheld | ⟨rfl, rfl, hbehind⟩
  · have hlast : Leads env (Held env true (.opened (env.startAt s.position)) (range :: joins))
        (pushFrom (.variableDeclaration range joins) (env.startAt s.position)) fun id =>
          Held env false (.opened (env.startAt s.position)) [id] :=
      gathers_pushFrom h rfl (List.Sublist.refl _)
    exact (hlast u hheld).mono fun id v ⟨hcv, hv⟩ =>
      ⟨hcourse.trans hcv, (hs.open_le h (hcourse.trans hcv) hv).loosen⟩
  · refine (After.pushFrom _ _).mono ?_
    rintro _ _ ⟨rfl, rfl⟩
    obtain ⟨-, hlacks, hspan, hproblems⟩ := ht.place.resolve_left fun hstart =>
      absurd hstart.low_le (Nat.not_le_of_lt hbehind)
    have hrange := (ht.held.lies range (List.mem_singleton_self _)).1
    have hplaced : (u.draft.push (.variableDeclaration range [])
        (env.upTo (env.startAt s.position) u.position)).Placed env := by
      refine ht.held.placed.toPlaced.push (h.fits_upTo ht.boundary ht.held.inside)
        (fun _ hseg => absurd hseg List.not_mem_nil) (fun child hchild => ?_)
        (List.pairwise_singleton _ _)
      rw [List.mem_singleton.mp hchild, hspan]
      exact ⟨hrange, .inl (Nat.le_refl _), .inl (Nat.le_max_right _ _)⟩
    obtain ⟨hcv, hv⟩ := ht.held.write h (.push _ _ _)
      (ht.held.placed.push hplaced fun hclean => absurd hclean hproblems)
    have hnext := h.inOrder.startAt_mono hcourse.position_le (h.inOrder.lt_size hcourse.inside)
    refine ⟨hcourse.trans hcv, hv.upTo ht.low_le hnext ?_ (Draft.span_push _ _ _)
      (.inr ⟨range, [], Draft.kind_push _ _ _,
        ht.held.placed.lacksHead hrange (.push _ _ _) hlacks⟩) hproblems⟩
    show u.draft.size < (u.draft.push _ _).size
    rw [Draft.size_push]
    exact Nat.lt_succ_self _

/-! ## Clauses -/

theorem places_selectItem : Places env (selectItem deeper) one := by
  have h := hd.ofText
  refine places_startOf (places_operand hd _) fun expression start => ?_
  refine (gathers_consume h _).bind fun hasAs => .look fun named => ?_
  have hlast : ∀ declared, Gathers env false (.opened start) ([expression] ++ [declared])
      (pushFrom (.resultVariable expression hasAs declared) start) one := fun declared =>
    gathers_pushFrom h rfl (List.Sublist.refl _)
  split
  · exact gathers_pure (List.Sublist.refl _)
  · refine ((places_declaredVariable? h).gathers h).bind fun declared? => ?_
    cases declared? with
    | some declared => exact hlast declared
    | none => exact ((places_missing h _).gathers h).bind hlast

/-- The word that a clause of its own starts with is there. -/
theorem selectClause_begins (simple : Bool) :
    Begins env (· = .keyword .select) (selectClause deeper simple) one := by
  have h := hd.ofText
  intro low s hahead hs
  refine .look_bind ((hs.expected h (by simp) hahead).bind fun _ t ⟨hc, ht, hmoved⟩ => ?_)
  have hrest : Gathers env false (.opened (env.startAt s.position)) [] (do
      let distinct ← consumeKeyword .distinct
      if simple then
        let items ← separated (operand deeper RuleId.simpleSelect)
        pushFrom (.simpleSelectClause distinct items) (env.startAt s.position)
      else
        let items ← separated (selectItem deeper)
        pushFrom (.selectClause distinct items) (env.startAt s.position)) one := by
    refine (gathers_consume h _).bind fun distinct => ?_
    split
    · exact (places_separated h (places_operand hd _) _).bind fun items =>
        gathers_pushFrom h rfl (List.Sublist.refl _)
    · exact (places_separated h (places_selectItem hd) _).bind fun items =>
        gathers_pushFrom h rfl (List.Sublist.refl _)
  exact (hrest t ht).mono fun id u ⟨hc', hu⟩ =>
    ⟨hc.trans hc', Nat.lt_of_lt_of_le hmoved hc'.position_le, hu⟩

theorem places_fromClause? (simple : Bool) : Places env (fromClause? deeper simple) Option.toList := by
  have h := hd.ofText
  refine places_optional h (fun start => ?_) fun low =>
    (gathers_missingClause h _).bind fun _ => gathers_pure (List.Sublist.refl _)
  refine ((drifts_declaration hd).separated h _).bind fun declarations => ?_
  split <;> exact gathers_some_pushFrom h rfl (List.Sublist.refl _)

theorem places_conditionClause? (word : Keyword) {kind : NodeId → NodeKind}
    (hkind : ∀ id, (kind id).children = [id] ∧ (kind id).segments = []) :
    Places env (conditionClause? deeper word kind) Option.toList := by
  have h := hd.ofText
  refine places_optional h (fun start => (places_condition hd _).bind fun condition => ?_)
    fun low => gathers_pure (List.Sublist.refl _)
  obtain ⟨hchildren, hsegments⟩ := hkind condition
  exact gathers_some_pushFrom h hsegments (hchildren ▸ List.Sublist.refl _)

theorem places_whereClause? : Places env (whereClause? deeper) Option.toList :=
  places_conditionClause? hd _ fun _ => ⟨rfl, rfl⟩

theorem places_havingClause? : Places env (havingClause? deeper) Option.toList :=
  places_conditionClause? hd _ fun _ => ⟨rfl, rfl⟩

theorem places_groupByClause? : Places env (groupByClause? deeper) Option.toList := by
  have h := hd.ofText
  refine places_optional h (fun start => ?_) fun low => gathers_pure (List.Sublist.refl _)
  refine (gathers_expectKeyword h _).bind fun _ => (places_separated h (places_operand hd _) _).bind
    fun items => gathers_some_pushFrom h rfl (List.Sublist.refl _)

omit hd in
theorem gathers_sortOrder (h : env.OfText) :
    Gathers env loose low gathered sortOrder fun _ => gathered := by
  refine (gathers_consume h _).bind fun isAscending => ?_
  split
  · exact gathers_pure (List.Sublist.refl _)
  · refine (gathers_consume h _).bind fun isDescending => ?_
    split <;> exact gathers_pure (List.Sublist.refl _)

omit hd in
theorem gathers_nullsOrder (h : env.OfText) :
    Gathers env loose low gathered nullsOrder fun _ => gathered := by
  refine (gathers_consume h _).bind fun hasNulls => ?_
  split
  · refine (gathers_consume h _).bind fun isFirst => ?_
    split
    · exact gathers_pure (List.Sublist.refl _)
    · refine (gathers_consume h _).bind fun isLast => ?_
      split
      · exact gathers_pure (List.Sublist.refl _)
      · exact (gathers_recordHere h _ _ (by simp)).bind fun _ => gathers_pure (List.Sublist.refl _)
  · exact gathers_pure (List.Sublist.refl _)

theorem places_orderByItem : Places env (orderByItem deeper) one := by
  have h := hd.ofText
  refine places_startOf (places_operand hd _) fun expression start => ?_
  exact (gathers_sortOrder h).bind fun order => (gathers_nullsOrder h).bind fun nulls =>
    gathers_pushFrom h rfl (List.Sublist.refl _)

theorem places_orderByClause? : Places env (orderByClause? deeper) Option.toList := by
  have h := hd.ofText
  refine places_optional h (fun start => ?_) fun low => gathers_pure (List.Sublist.refl _)
  refine (gathers_expectKeyword h _).bind fun _ => (places_separated h (places_orderByItem hd) _).bind
    fun items => gathers_some_pushFrom h rfl (List.Sublist.refl _)

/-- **An item of `SET` starts at the current token**, or is empty there. -/
theorem drifts_updateItem : Drifts env (updateItem deeper) one := by
  have h := hd.ofText
  refine fun low s hs => .look_bind ((updateTarget_after h hs).bind
    fun target t ⟨hc, ht, hplace⟩ => ?_)
  have hrest : Leads env (Headed env low (env.startAt s.position) target [target]) (do
      discard (expect .equal)
      let value ← operand deeper RuleId.newValue
      pushFrom (.updateItem target value) (env.startAt s.position))
      (Settles env low (env.startAt s.position)) := by
    refine (headed_of_gathers h fun _ => gathers_discard_expect h _).bind fun _ => ?_
    refine (headed_of_gathers h fun _ => (places_operand hd _).gathers h).bind fun value => ?_
    exact Headed.pushFrom h (fun _ hbad => hbad) (List.Sublist.refl _) rfl
  exact (hrest t (hs.headed h ht hc hplace)).mono fun id u ⟨hc', hu⟩ => ⟨hc.trans hc', hu.held⟩

/-- **The items of `SET` are gathered behind the word**, if it is there. -/
theorem gathers_updateItems : Gathers env true low gathered (updateItems deeper) (gathered ++ ·) := by
  have h := hd.ofText
  refine (settles_consume h (by simp)).bind fun found => ?_
  cases found with
  | true => exact ((drifts_updateItem hd).separated h).gathers h
  | false => exact (gathers_missingClause h _).bind fun _ => gathers_pure (by simp)

end

end Jpql.Parse
