import Jpql.Proofs.Check.Chain
import Jpql.Proofs.Check.OperandReport

/-! # Reports on nodes

At most nodes a check meets the children in turn, and asks of each what the node asks of it
(`Check.Input.meet_reports`). Names of entities and types, and clauses that declare variables, have
something of their own to report.

* `Check.Input.uniform_reports`: the nodes at which a check does nothing but meet the children.
* `Check.Input.index_reports`: the argument of `INDEX` must be bound to a collection. -/

namespace Jpql

namespace NodeKind

variable {kind : NodeKind} {child : Nat} {demand : Demand}

/-! ## What a node asks for, and what its children are -/

theorem slots_of_join (h : (child, demand) ∈ kind.demands) (hjoin : kind.isJoin = true)
    (hdemand : demand ≠ .association) :
    (child, Slot.declared) ∈ kind.slots ∨ (child, Slot.onClause) ∈ kind.slots := by
  cases kind <;> first | exact absurd hjoin Bool.false_ne_true | skip
  simp only [demands, List.mem_cons, Prod.mk.injEq, hdemand, and_false, false_or, List.mem_append,
    List.mem_map] at h
  simp only [slots, List.mem_cons, List.mem_append, List.mem_map]
  rcases h with ⟨other, hmem, rfl, -⟩ | ⟨other, hmem, rfl, -⟩
  · exact .inl (.inr (.inl ⟨other, hmem, rfl⟩))
  · exact .inr (.inr (.inr ⟨other, hmem, rfl⟩))

end NodeKind

namespace Check.Input

variable {q : Input} {id child : Nat} {visit : Visitor} {context : QueryContext} {scope : Option Nat}

/-! ## Nodes that lie apart -/

/-- **An operation at each of some nodes that lie apart.** -/
theorem Reports.forM {α : Type} {items : List α} (target : α → Nat) {op : α → Checker Unit}
    (hapart : (items.map target).Pairwise q.tree.Apart)
    (h : ∀ item ∈ items, q.Reports context scope (q.tree.Holds (target item)) (op item) fun _ => True) :
    q.Reports context scope (q.tree.Below (items.map target)) (items.forM op) fun _ => True := by
  induction items with
  | nil => exact (Reports.pure trivial).congr fun inner => by simp
  | cons item items ih =>
    rw [List.map_cons, List.pairwise_cons] at hapart
    have hrest := ih hapart.2 fun other ho => h other (List.mem_cons_of_mem _ ho)
    refine (h item List.mem_cons_self).bind (fun _ _ => hrest) ?_ fun _ _ inner => by simp
    rintro - - inner hinner ⟨other, ho, hother⟩
    exact hapart.1 other ho inner hinner hother

/-- **Visits to nodes that lie apart.** -/
theorem Reports.visitAll {ids : List Nat} (hapart : ids.Pairwise q.tree.Apart)
    (h : ∀ id ∈ ids, q.Reports context scope (q.tree.Holds id) (visit id) fun _ => True) :
    q.Reports context scope (q.tree.Below ids) (visitAll visit ids) fun _ => True := by
  have hmap : ids.map (fun id => id) = ids := List.map_id' ids
  have hall := Reports.forM (fun id : Nat => id) (by rw [hmap]; exact hapart) h
  rwa [hmap] at hall

/-- Nothing is wrong at the node itself: what reports on the children reports on the node. -/
theorem Reports.of_children {p : Checker Unit} (hnil : q.findings id = [])
    (h : q.Reports context scope (q.tree.Below (q.tree.children id)) p fun _ => True) :
    q.Reports context scope (q.tree.Holds id) p fun _ => True := by
  have hwf := q.isClean.wellFormed
  refine h.widen (fun inner hinner => (Tree.holds_iff hwf).mpr (.inr hinner)) fun inner hinner hno => ?_
  obtain rfl := ((Tree.holds_iff hwf).mp hinner).resolve_right hno
  exact hnil

/-- What is wrong at the node itself is reported before the children. -/
theorem Reports.before_children {p r : Checker Unit}
    (hp : q.Reports context scope (· = id) p fun _ => True)
    (hr : q.Reports context scope (q.tree.Below (q.tree.children id)) r fun _ => True) :
    q.Reports context scope (q.tree.Holds id) (p >>= fun _ => r) fun _ => True := by
  have hwf := q.isClean.wellFormed
  refine hp.bind (fun _ _ => hr) ?_ fun _ _ inner => (Tree.holds_iff hwf).symm
  rintro - - inner rfl ⟨child, hc, hinner⟩
  have hle := hinner.le hwf
  have hlt := hwf.child_lt hc
  omega

/-- A node without children at which something may be wrong. -/
theorem Reports.of_leaf {p : Checker Unit} (hleaf : q.tree.children id = [])
    (h : q.Reports context scope (· = id) p fun _ => True) :
    q.Reports context scope (q.tree.Holds id) p fun _ => True := by
  refine h.congr fun inner => ⟨?_, fun hinner => hinner.eq_of_leaf q.isClean.wellFormed hleaf⟩
  rintro rfl
  exact .refl

/-! ## What is asked of a child -/

/-- Of a `TREAT` that is joined an association is asked. -/
theorem not_join_of_demand {demand : Demand} (hmem : (child, demand) ∈ (q.tree.kind id).demands)
    (hdemand : demand ≠ .association) (htreat : (q.tree.kind child).isTreat = true) :
    (q.tree.kind id).isJoin = false := by
  refine Bool.eq_false_iff.mpr fun hjoin => ?_
  have hadmits := (NodeKind.slots_of_join hmem hjoin hdemand).imp q.isClean.admits q.isClean.admits
  cases hk : q.tree.kind child <;> rw [hk] at htreat hadmits <;> first
    | exact absurd htreat Bool.false_ne_true
    | exact hadmits.elim Bool.false_ne_true Bool.false_ne_true

/-- What a plain node asks a value of is plain. -/
theorem IsPlain.of_value (hid : q.IsPlain id)
    (hvar : ∀ name isVirtual behind, q.tree.kind id ≠ .identifier name isVirtual behind)
    (hmem : (child, Demand.value) ∈ (q.tree.kind id).demands) : q.IsPlain child := by
  refine isPlain_of_child hid.held (NodeKind.mem_children_of_mem_demands hmem) (fun path hpath => ?_)
    (not_join_of_demand hmem (by simp))
  obtain ⟨kind, root, segments, dot, hk, -⟩ := isPath_behind hpath
  rw [findings_path hk, demand_behind hmem hvar hid.joined hpath]

/-- **A `TREAT` that is joined**: its type is visited, and an association asked of its path. -/
theorem joined_reports {inner entityType parent : Nat} {hasAs : Bool} (hv : q.Visits visit)
    (hid : q.tree.Holds q.statement id) (hk : q.tree.kind id = .treat inner hasAs entityType)
    (hp : q.tree.parent? id = some parent) (hjoin : (q.tree.kind parent).isJoin = true) :
    q.Reports (q.context id) (q.tree.scopeNode? id) (q.tree.Holds id)
      (visit entityType >>= fun _ => collectionPath visit inner false) fun _ => True := by
  have hwf := q.isClean.wellFormed
  have hchildren : q.tree.children id = [inner, entityType] := by rw [Tree.children, hk]; rfl
  have hinner : inner ∈ q.tree.children id := by simp [hchildren]
  have htype : entityType ∈ q.tree.children id := by simp [hchildren]
  have hkind : (q.tree.kind id).isStatement = false := by rw [hk]; rfl
  have hno : (q.tree.kind id).isJoin = false := by rw [hk]; rfl
  have hapart : q.tree.Apart inner entityType := Tree.apart_of_children hwf hchildren
  have hadmits := q.isClean.admits (show (entityType, Slot.entityType) ∈ (q.tree.kind id).slots by
    simp [hk, NodeKind.slots])
  have hnone : q.tree.pathBehind? entityType = none := by
    unfold Tree.pathBehind?
    split
    · next hk =>
      rw [hk] at hadmits
      exact absurd hadmits Bool.false_ne_true
    · next hk =>
      rw [hk] at hadmits
      exact absurd hadmits Bool.false_ne_true
    · rfl
  have hentity := hv.visit_child htype hkind (isPlain_of_child hid htype (by simp [hnone])
    fun _ => hno)
  have hpath := collectionPath_reports hv (held_of_child hid hinner)
    (fun hnone => isPlain_of_child hid hinner (by simp [hnone]) fun _ => hno) false
    fun path hb => demand_joined hk hp hjoin hb
  rw [context_of_child hinner hkind, Scope.scopeNode?_of_child hwf hinner hkind] at hpath
  refine Reports.of_children ?_ (hentity.bind (fun _ _ => hpath) (fun _ _ below he hi =>
    hapart below hi he) fun _ _ below => by rw [hchildren]; simp [or_comm])
  refine findings_eq_nil ?_ ?_ ?_ ?_ <;> rw [hk] <;> simp [Scope.isFromClause, NodeKind.isPath]

section

variable (hv : q.Visits visit) (hid : q.IsPlain id) (hkind : (q.tree.kind id).isStatement = false)
  (hvar : ∀ name isVirtual behind, q.tree.kind id ≠ .identifier name isVirtual behind)

include hv hid hkind hvar

theorem value_reports (hmem : (child, Demand.value) ∈ (q.tree.kind id).demands) :
    q.Reports (q.context id) (q.tree.scopeNode? id) (q.tree.Holds child) (visit child)
      fun _ => True :=
  hv.visit_child (NodeKind.mem_children_of_mem_demands hmem) hkind (hid.of_value hvar hmem)

theorem basic_reports (hmem : (child, Demand.basic) ∈ (q.tree.kind id).demands) :
    q.Reports (q.context id) (q.tree.scopeNode? id) (q.tree.Holds child) (basicOperand visit child)
      fun _ => True := by
  have hc := NodeKind.mem_children_of_mem_demands hmem
  rw [← context_of_child hc hkind, ← Scope.scopeNode?_of_child q.isClean.wellFormed hc hkind]
  refine basicOperand_reports hv (held_of_child hid.held hc)
    (fun path hpath => demand_behind hmem hvar hid.joined hpath) (child_ne_statement hid.held hc)
    fun htreat parent hp => ?_
  rw [q.isClean.wellFormed.child id child hc, Option.some_inj] at hp
  exact hp ▸ not_join_of_demand hmem (by simp) htreat

theorem collection_reports (hmem : (child, Demand.collection) ∈ (q.tree.kind id).demands) :
    q.Reports (q.context id) (q.tree.scopeNode? id) (q.tree.Holds child)
      (collectionPath visit child true) fun _ => True := by
  have hc := NodeKind.mem_children_of_mem_demands hmem
  rw [← context_of_child hc hkind, ← Scope.scopeNode?_of_child q.isClean.wellFormed hc hkind]
  refine collectionPath_reports hv (held_of_child hid.held hc) (fun hnone => ?_) true
    fun path hpath => demand_behind hmem hvar hid.joined hpath
  exact isPlain_of_child hid.held hc (by simp [hnone]) (not_join_of_demand hmem (by simp))

/-- **The target of a `SET` item** is a path. -/
theorem target_reports (hmem : (child, Demand.target) ∈ (q.tree.kind id).demands) :
    q.Reports (q.context id) (q.tree.scopeNode? id) (q.tree.Holds child) (updateTarget visit child)
      fun _ => True := by
  have hc := NodeKind.mem_children_of_mem_demands hmem
  have hadmits := q.isClean.admits (NodeKind.slots_of_target hmem)
  have hbad := q.isClean.ne_bad (q.isClean.lt_of_child hc)
  rw [← context_of_child hc hkind, ← Scope.scopeNode?_of_child q.isClean.wellFormed hc hkind]
  cases hk : q.tree.kind child <;> rw [hk] at hadmits hbad <;> first
    | exact absurd rfl hbad
    | exact absurd hadmits Bool.false_ne_true
    | skip
  next kind root segments dot =>
  cases kind with
  | collectionValued => exact absurd hadmits Bool.false_ne_true
  | stateField =>
    have hbehind : q.tree.pathBehind? child = some child := by rw [Tree.pathBehind?, hk]
    exact updateTarget_reports hk hv (held_of_child hid.held hc)
      (demand_behind hmem hvar hid.joined hbehind)

omit hvar in
/-- **A variable where it is declared.** -/
theorem declared_reports (hmem : (child, Demand.declared) ∈ (q.tree.kind id).demands) :
    q.Reports (q.context id) (q.tree.scopeNode? id) (q.tree.Holds child)
      (visitDeclared visit (some child)) fun _ => True := by
  have hc := NodeKind.mem_children_of_mem_demands hmem
  have hadmits := (NodeKind.slots_of_declared hmem).imp q.isClean.admits q.isClean.admits
  have hnone : q.tree.pathBehind? child = none := by
    unfold Tree.pathBehind?
    split
    · next hk =>
      rw [hk] at hadmits
      exact (hadmits.elim Bool.false_ne_true Bool.false_ne_true).elim
    · next hk =>
      rw [hk] at hadmits
      exact (hadmits.elim Bool.false_ne_true Bool.false_ne_true).elim
    · rfl
  have hplain : q.IsPlain child :=
    isPlain_of_child hid.held hc (by simp [hnone]) (not_join_of_demand hmem (by simp))
  have hvisit := hv.visit_child hc hkind hplain
  intro s hs hnodup
  obtain ⟨-, new, hstep⟩ := hvisit { s with registers := false } hs hnodup
  exact ⟨trivial, new, ⟨hstep.problems, hstep.context, hstep.depth, hstep.used, hstep.nodup⟩,
    hstep.tally, hstep.complete⟩

/-- **What a range goes over, or a join adds.** -/
theorem association_reports (hmem : (child, Demand.association) ∈ (q.tree.kind id).demands) :
    q.Reports (q.context id) (q.tree.scopeNode? id) (q.tree.Holds child)
      (association visit child) fun _ => True := by
  have hc := NodeKind.mem_children_of_mem_demands hmem
  have hheld := held_of_child hid.held hc
  have hwf := q.isClean.wellFormed
  have hbehind : ∀ path, q.tree.pathBehind? child = some path → q.tree.demand path = .association :=
    fun path hpath => demand_behind hmem hvar hid.joined hpath
  rw [← context_of_child hc hkind, ← Scope.scopeNode?_of_child hwf hc hkind]
  refine Reports.kindOf_bind ?_
  rw [show (q.context child).tree.kind child = q.tree.kind child from rfl]
  split
  · next inner hasAs entityType hk =>
    have hjoin : (q.tree.kind id).isJoin = true := by
      refine (NodeKind.slots_of_association hmem).elim (fun hslot => ?_) And.left
      have hadmits := q.isClean.admits hslot
      rw [hk] at hadmits
      exact absurd hadmits Bool.false_ne_true
    exact joined_reports hv hheld hk (hwf.child id child hc) hjoin
  · next hno =>
    refine collectionPath_reports hv hheld (fun hnone => ?_) false hbehind
    refine isPlain_of_child hid.held hc (by simp [hnone]) fun htreat => ?_
    cases hk : q.tree.kind child <;> rw [hk] at htreat <;> first
      | exact absurd htreat Bool.false_ne_true
      | exact absurd hk (hno _ _ _)

/-- **A child is met.** -/
theorem meet_reports {demand : Demand} (hmem : (child, demand) ∈ (q.tree.kind id).demands) :
    q.Reports (q.context id) (q.tree.scopeNode? id) (q.tree.Holds child) (meet visit (child, demand))
      fun _ => True :=
  match demand with
  | .value => value_reports hv hid hkind hvar hmem
  | .basic => basic_reports hv hid hkind hvar hmem
  | .association => association_reports hv hid hkind hvar hmem
  | .collection => collection_reports hv hid hkind hvar hmem
  | .target => target_reports hv hid hkind hvar hmem
  | .declared => declared_reports hv hid hkind hmem

/-- **The children are met in turn.** -/
theorem demands_reports :
    q.Reports (q.context id) (q.tree.scopeNode? id) (q.tree.Below (q.tree.children id))
      ((q.tree.kind id).demands.forM (meet visit)) fun _ => True := by
  have hmap : (q.tree.kind id).demands.map (·.1) = q.tree.children id := NodeKind.map_fst_demands _
  have hapart := Tree.apart_children q.isClean.wellFormed id
  rw [← hmap] at hapart ⊢
  exact .forM (fun entry : Nat × Demand => entry.1) hapart fun _ hmem =>
    meet_reports hv hid hkind hvar hmem

omit hv hid hkind hvar in
/-- What is done at most nodes of a clean tree. -/
theorem visitKind_demands {s : State} (huniform : (q.tree.kind id).isUniform = true)
    (hs : s.context.tree = q.tree) :
    visitKind visit id q.env s = ((q.tree.kind id).demands.forM (meet visit)) q.env s := by
  have hrange : ∀ root hasAs declared, q.tree.kind id = .rangeDeclaration root hasAs declared →
      Slot.rangeRoot.admits (q.tree.kind root) = true :=
    fun root hasAs declared hk => q.isClean.admits (by rw [hk]; exact List.mem_cons_self)
  rw [← hs] at huniform hrange ⊢
  exact visitKind_uniform (fun _ _ _ => q.updateValues) huniform hrange

/-- **At most nodes a check does nothing but meet the children.** -/
theorem uniform_reports (huniform : (q.tree.kind id).isUniform = true) :
    q.Reports (q.context id) (q.tree.scopeNode? id) (q.tree.Holds id) (visitKind visit id)
      fun _ => True := by
  have hnil : q.findings id = [] := by
    cases hk : q.tree.kind id <;> rw [hk] at huniform <;> first
      | exact absurd huniform Bool.false_ne_true
      | (refine findings_eq_nil ?_ ?_ ?_ ?_ <;> rw [hk] <;>
          simp [Scope.isFromClause, NodeKind.isPath])
  intro s hs hnodup
  rw [visitKind_demands huniform (by rw [hs]; rfl)]
  exact Reports.of_children hnil (demands_reports hv hid hkind hvar) s hs hnodup

end

/-! ## Nodes with something of their own -/

section

variable (hv : q.Visits visit) (hid : q.IsPlain id)

include hv hid

/-- **A clause that declares variables** has the order of its declarations checked first. -/
theorem fromClause_reports (hfrom : Scope.isFromClause (q.tree.kind id) = true) :
    q.Reports (q.context id) (q.tree.scopeNode? id) (q.tree.Holds id)
      (declarationOrder id >>= fun _ => visitChildren visit id) fun _ => True := by
  have hkind : (q.tree.kind id).isStatement = false := by
    cases hk : q.tree.kind id <;> rw [hk] at hfrom <;> first
      | exact absurd hfrom Bool.false_ne_true
      | rfl
  have hvar : ∀ name isVirtual behind, q.tree.kind id ≠ .identifier name isVirtual behind := by
    rintro name isVirtual behind hk
    rw [hk] at hfrom
    cases hfrom
  refine Reports.before_children (.ask_bind (.recordFindings ?_)) (.inTree_bind ?_)
  · rw [findings_clause hfrom]
    rfl
  · have hdemands : (q.tree.kind id).demands = (q.tree.children id).map (·, Demand.value) := by
      rw [Tree.children]
      cases hk : q.tree.kind id <;> rw [hk] at hfrom <;> first
        | exact absurd hfrom Bool.false_ne_true
        | rfl
    have hchildren := demands_reports hv hid hkind hvar
    rw [hdemands, forM_value] at hchildren
    exact hchildren

/-- **The operands of a chain are visited in its place.** -/
theorem chain_reports :
    q.Reports (q.context id) (q.tree.scopeNode? id) (q.tree.Holds id)
      (inTree (·.chainOperands id) >>= visitAll visit) fun _ => True := by
  have hwf := q.isClean.wellFormed
  have hchain := Tree.chain_operands hwf id
  have hplace : ∀ operand ∈ q.tree.chainOperands id, q.IsPlain operand ∧
      q.context operand = q.context id ∧ q.tree.scopeNode? operand = q.tree.scopeNode? id := by
    refine hchain.closed (fun operand => q.IsPlain operand ∧ q.context operand = q.context id ∧
      q.tree.scopeNode? operand = q.tree.scopeNode? id) ⟨hid, rfl, rfl⟩ ?_
    rintro node child hnode hc ⟨hplain, hcontext, hscope⟩
    obtain ⟨connective, left, right, hk⟩ := NodeKind.exists_of_isLogical hnode
    have hkind : (q.tree.kind node).isStatement = false := by rw [hk]; rfl
    refine ⟨hplain.of_value (by simp [hk]) ?_, (context_of_child hc hkind).trans hcontext,
      (Scope.scopeNode?_of_child hwf hc hkind).trans hscope⟩
    rw [Tree.children, hk] at hc
    rw [hk]
    exact List.mem_map_of_mem hc
  refine Reports.inTree_bind ((Reports.visitAll hchain.apart fun operand hmem => ?_).widen ?_ ?_)
  · obtain ⟨hplain, hcontext, hscope⟩ := hplace operand hmem
    rw [← hcontext, ← hscope]
    exact hv operand hplain
  · rintro inner ⟨operand, hmem, hinner⟩
    exact (hchain.below operand hmem).trans hinner
  · intro inner hinner hno
    obtain ⟨connective, left, right, hk⟩ :=
      NodeKind.exists_of_isLogical ((hchain.covers inner hinner).resolve_left hno)
    refine findings_eq_nil ?_ ?_ ?_ ?_ <;> rw [hk] <;> simp [Scope.isFromClause, NodeKind.isPath]

omit hv hid in
/-- A use is noted once. -/
theorem use_change {s : State} (hnodup : s.used.Nodup) :
    q.Change (q.tree.scopeNode? id) (q.tree.Holds id) s (use id q.env s).2 [] := by
  rw [use_run]
  split
  · exact .refl hnodup
  · next hmem =>
    refine ⟨(List.append_nil _).symm, rfl, Nat.zero_add _, fun used hused => ?_, ?_⟩
    · refine (List.mem_append.mp hused).imp_right fun hnew => ?_
      rw [List.mem_singleton.mp hnew]
      exact ⟨.refl, rfl⟩
    · refine List.nodup_append.mpr ⟨hnodup, by simp, fun a ha b hb hab => hmem ?_⟩
      rw [List.mem_singleton.mp hb] at hab
      subst hab
      simpa using ha

/-- **A variable is used, or a path checked** for which a virtual variable stands. -/
theorem variableUse_reports {name : String} {isVirtual : Bool} {behind : Option Nat}
    (hk : q.tree.kind id = .identifier name isVirtual behind) :
    q.Reports (q.context id) (q.tree.scopeNode? id) (q.tree.Holds id)
      (variableUse visit id name isVirtual behind) fun _ => True := by
  have hwf := q.isClean.wellFormed
  have hchildren : q.tree.children id = behind.toList := by rw [Tree.children, hk]; rfl
  cases isVirtual with
  | true =>
    have hkind : (q.tree.kind id).isStatement = false := by rw [hk]; rfl
    have happart := Tree.apart_children hwf id
    refine Reports.of_children (findings_identifier hk) ?_
    rw [hchildren] at happart ⊢
    refine .visitAll happart fun path hmem => ?_
    obtain rfl : behind = some path := by simpa using hmem
    have hc : path ∈ q.tree.children id := by simp [hchildren]
    obtain ⟨root, segments, dot, owner, hpath, -⟩ := q.isClean.virtual_path hk
    refine hv.visit_child hc hkind (isPlain_of_child hid.held hc (fun other hother => ?_) ?_)
    · obtain rfl : path = other := by
        rw [Tree.pathBehind?, hpath] at hother
        exact Option.some.inj hother
      exact hid.asked path (by rw [Tree.pathBehind?, hk])
    · simp [hpath, NodeKind.isTreat]
  | false =>
    obtain rfl := q.isClean.behind_eq_none hk
    have hnil : ∀ inner, q.tree.Holds id inner → q.findings inner = [] := fun inner hinner => by
      rw [hinner.eq_of_leaf hwf hchildren]
      exact findings_identifier hk
    intro s hs hnodup
    refine ⟨trivial, [], ⟨?_, .nil, fun _ inner hinner => ?_⟩⟩
    · rw [variableUse_run]
      split
      · exact use_change hnodup
      · exact .refl hnodup
    · rw [hnil inner hinner]
      exact List.nil_subset _

end

/-- After its argument was visited, `INDEX` has at most the variable to complain about. -/
theorem index_run {argument : Nat} {env : Env} {s t : State}
    (ht : (visit argument env s).2 = t) (htree : t.context.tree = q.tree) :
    ∃ more, index visit argument env s = ((), { t with problems := t.problems ++ more }) ∧
      (more = [] ∨ more = [q.tree.problemAt .indexWrongVariable argument] ∧
        ∃ name behind, q.tree.kind argument = .identifier name false behind) := by
  have hnone : (((), t) : Unit × State) = ((), { t with problems := t.problems ++ [] }) := by
    rw [List.append_nil]
  rw [index, bind_run, ht, kindOf_run, htree]
  cases hk : q.tree.kind argument with
  | identifier name isVirtual behind =>
    cases isVirtual with
    | true => exact ⟨[], hnone, .inl rfl⟩
    | false =>
      dsimp only
      rw [ask_run]
      cases t.context.isCollectionVariable name with
      | true => exact ⟨[], hnone, .inl rfl⟩
      | false => exact ⟨_, rfl, .inr ⟨by rw [← htree]; rfl, name, behind, rfl⟩⟩
  | _ => exact ⟨[], hnone, .inl rfl⟩

/-- **What is bound to no collection has no index.** -/
theorem index_reports {argument : Nat} (hv : q.Visits visit) (hid : q.IsPlain id)
    (hk : q.tree.kind id = .index argument) :
    q.Reports (q.context id) (q.tree.scopeNode? id) (q.tree.Holds id) (index visit argument)
      fun _ => True := by
  have hwf := q.isClean.wellFormed
  have hvar : ∀ name isVirtual behind, q.tree.kind id ≠ .identifier name isVirtual behind := by simp [hk]
  have hchildren : q.tree.children id = [argument] := by rw [Tree.children, hk]; rfl
  have hc : argument ∈ q.tree.children id := by simp [hchildren]
  have hnil : q.findings id = [] := by
    refine findings_eq_nil ?_ ?_ ?_ ?_ <;> rw [hk] <;> simp [Scope.isFromClause, NodeKind.isPath]
  have hparts : ∀ inner, q.tree.Holds argument inner → (q.tree.kind inner).isPathPart = true := by
    have htakes := q.isClean.takes (show (q.tree.kind id).argument? = some argument by rw [hk]; rfl)
    rw [hk] at htakes
    exact fun inner hinner => q.isClean.isPathPart_of_holds
      (NodeKind.isPathPart_of_isVariableOrPath htakes) hinner
  intro s hs hnodup
  obtain ⟨-, l, hl⟩ := value_reports hv hid (by rw [hk]; rfl) hvar
    (by rw [hk]; exact List.mem_cons_self) s hs hnodup
  obtain ⟨more, hindex, hmore⟩ := index_run rfl (show _ = q.tree by rw [hl.context, hs]; rfl)
  have hkeys : ∀ problem ∈ more, problem.key = .indexWrongVariable ∧ problem.anchor = some argument ∧
      ∃ name behind, q.tree.kind argument = .identifier name false behind := by
    rcases hmore with rfl | ⟨rfl, hvariable⟩
    · simp
    · simpa [Tree.problemAt] using hvariable
  have hargument : q.tree.Holds id argument := Tree.Holds.refl.of_child hwf hc
  rw [hindex]
  refine ⟨trivial, l ++ more, ⟨?_, hl.context, ?_, fun used hused => ?_, hl.nodup⟩, ?_, ?_⟩
  · rw [← List.append_assoc, ← hl.problems]
  · have hshallow : more.countP (·.key == .traversalTooDeep) = 0 :=
      List.countP_eq_zero.mpr fun problem hmem => by simp [(hkeys problem hmem).1]
    rw [List.countP_append, hshallow]
    exact hl.depth
  · exact (hl.used used hused).imp_right (.imp_left (·.of_child hwf hc))
  · have hvariables : q.Tally (q.tree.Holds id) more := .of_variables
      (fun problem hmem => ⟨argument, (hkeys problem hmem).2.1, hargument⟩)
      (fun problem hmem => by rw [(hkeys problem hmem).1]; rfl)
      (by rcases hmore with rfl | ⟨rfl, -⟩ <;> simp) fun problem hmem => by
        obtain ⟨hkey, hanchor, name, behind, hvariable⟩ := hkeys problem hmem
        exact ⟨id, .refl, by rw [hk]; rfl, fun _ => ⟨argument, name, behind, hk, hvariable, hanchor⟩,
          fun hne => absurd hkey hne⟩
    refine (hl.tally.mono fun _ h => h.of_child hwf hc).append hvariables (fun inner => .inr ?_) ?_
    · refine foundAt_eq_nil fun problem hmem hfinding => ?_
      rw [(hkeys problem hmem).1] at hfinding
      cases hfinding
    · intro problem hmem hkey
      rw [(hl.tally.of_parts hparts).1 problem hmem] at hkey
      cases hkey
  · intro ht inner hinner
    rw [Tree.holds_iff hwf, hchildren, Tree.below_cons] at hinner
    rcases hinner with rfl | hinner | hinner
    · rw [hnil]
      exact List.nil_subset _
    · exact List.subset_append_of_subset_left _ (hl.complete ht inner hinner)
    · exact absurd hinner (by simp)

end Check.Input

end Jpql
