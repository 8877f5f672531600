import Jpql.Proofs.Check.Chain

/-! # The visitor accounts for what it visits

* `Check.Subject.visitKind_affects`: what a check does at a plain node accounts for what the node
  holds, given a visitor for the nodes below that does.
* `Check.Subject.visitTo_visits`: so does the visitor for any number of levels. -/

namespace Jpql.Check.Subject

variable {q : Subject} {id : Nat} {visit : Visitor}

/-- The order of declarations is checked without an effect on uses. -/
theorem declarationOrder_affects :
    q.Affects id (fun _ => False) (declarationOrder id) fun _ => True := by
  refine .ask_bind (.recordAll fun problem hmem => ?_)
  obtain ⟨root, -, rfl⟩ := List.mem_map.mp hmem
  simp

section

variable (hv : q.Visits visit) (hid : q.IsPlain id)

include hv hid

/-! ## Uniform nodes -/

/-- **At most nodes a check does nothing but meet the children.** -/
theorem uniform_affects (huniform : (q.tree.kind id).isUniform = true) :
    q.Affects id (q.tree.Holds id) (visitKind visit id) fun _ => True := by
  have hkind := NodeKind.not_isStatement_of_isUniform huniform
  have hvar := NodeKind.not_identifier_of_isUniform huniform
  have hpath : (q.tree.kind id).isPath = false := by
    cases hk : q.tree.kind id <;> rw [hk] at huniform <;>
      first | rfl | exact absurd huniform Bool.false_ne_true
  have hrange : ∀ root hasAs declared, q.tree.kind id = .rangeDeclaration root hasAs declared →
      Slot.rangeRoot.admits (q.tree.kind root) = true :=
    fun root hasAs declared hk => q.isQuery.admits (by rw [hk]; exact List.mem_cons_self)
  have hall : q.Handles id (q.tree.children id) ((q.tree.kind id).demands.forM (meet visit)) := by
    rw [Tree.children, ← NodeKind.map_fst_demands]
    exact .forEach (fun item : Nat × Demand => item.1) fun item hmem =>
      meet_affects hv hid.placed hkind hpath hmem
  intro s hs
  have htree : s.context.tree = q.tree := by
    rw [hs.context]
    rfl
  have hrun : visitKind visit id q.env s = ((s.context.tree.kind id).demands.forM (meet visit)) q.env s :=
    visitKind_uniform (fun _ _ _ => q.updateValues) (by rwa [htree]) (by rwa [htree])
  rw [hrun, htree]
  exact Handles.affects (not_uses fun name behind => hvar name false behind) hall s hs

/-! ## All kinds -/

omit hv in
/-- A plain node is neither the query nor its statement. -/
theorem not_outer : (∀ statement leftover, q.tree.kind id ≠ .query statement leftover) ∧
    q.tree.parent? id ≠ some q.tree.root ∧ (q.tree.kind id).isOuterStatement = false := by
  obtain ⟨scope, hscope⟩ := hid.placed
  obtain ⟨parent, hp, -⟩ := Tree.scopeNode?_cases q.isQuery.wellFormed hscope
  refine ⟨fun statement leftover hk => ?_, fun hroot => ?_, Bool.eq_false_iff.mpr fun houter => ?_⟩
  · rw [q.isQuery.eq_root hk, q.isQuery.wellFormed.root_parent] at hp
    cases hp
  · have hc := (q.isQuery.wellFormed.of_parent hroot).2.2
    rw [Tree.children, q.isQuery.root] at hc
    refine (q.isQuery.holds_of_scopeNode? hscope).2 ?_
    simpa [NodeKind.children] using hc
  · exact (q.isQuery.holds_of_scopeNode? hscope).2 (q.isQuery.eq_statement hp houter)

/-- **What a check does at a plain node accounts for what the node holds.** -/
theorem visitKind_affects :
    q.Affects id (q.tree.Holds id) (visitKind visit id) fun _ => True := by
  by_cases huniform : (q.tree.kind id).isUniform = true
  · exact uniform_affects hv hid huniform
  have hbasics : ∀ {kind : NodeKind} {left right : Nat}, q.tree.kind id = kind →
      kind.isOrdinary = true → kind.children = [left, right] →
      q.Affects id (q.tree.Holds id) (basicOperands visit left right) fun _ => True := by
    rintro _ left right rfl hord hchildren
    have hplain : ∀ child ∈ q.tree.children id, q.IsPlain child := fun _ => hid.of_child hord
    rw [Tree.children, hchildren] at hplain
    refine Handles.affects (not_uses_of_isOrdinary hord) ?_
    rw [Tree.children, hchildren]
    exact basicOperands_handles hv (NodeKind.not_isStatement_of_isOrdinary hord)
      (by simp [Tree.children, hchildren]) (by simp [Tree.children, hchildren])
      (hplain left (by simp)) (hplain right (by simp))
  have houter := not_outer hid
  refine .kindOf_bind ?_
  cases hk : q.tree.kind id with
  | query statement leftover => exact absurd hk (houter.1 statement leftover)
  | simpleSelectStatement select fromClause whereClause groupBy having =>
    have hsub : (q.tree.kind id).isSubquery = true := by rw [hk]; rfl
    refine .inTree_bind ?_
    split
    · next hroot => exact absurd (by simpa using hroot) houter.2.1
    · exact checkSubquery_affects hv hid hsub
  | selectStatement | updateStatement | deleteStatement =>
    rw [hk] at houter
    exact absurd houter.2.2.symm Bool.false_ne_true
  | fromClause declarations | simpleFromClause declarations =>
    exact declarationOrder_affects.bind_left fun _ _ =>
      visitChildren_ordinary hv hid (by rw [hk]; rfl)
  | schemaName name =>
    refine leaf_affects (by rw [hk]; rfl) (by rw [Tree.children, hk]; rfl) (.ask_bind ?_)
    split
    · next key hkey =>
      have hreference := QueryContext.schemaName?_isReference hkey
      exact .recordAt (ProblemKey.ne_of_isReference hreference).1
    · exact .pure trivial
  | entityType name =>
    refine leaf_affects (by rw [hk]; rfl) (by rw [Tree.children, hk]; rfl) (.ask_bind ?_)
    split
    · exact .recordAt (by simp)
    · exact .pure trivial
  | identifier name isVirtual path => exact variableUse_affects hv hid hk
  | comparison left operator right =>
    have hordering : operator.isOrdering = true := by simpa [hk, NodeKind.isUniform] using huniform
    dsimp only
    rw [if_pos hordering]
    exact hbasics hk rfl rfl
  | arithmetic operation left right => exact hbasics hk rfl rfl
  | index argument =>
    have hord : (q.tree.kind id).isOrdinary = true := by rw [hk]; rfl
    have hchildren : q.tree.children id = [argument] := by rw [Tree.children, hk]; rfl
    have hc : argument ∈ q.tree.children id := by simp [hchildren]
    refine Handles.affects (not_uses_of_isOrdinary hord) ?_
    rw [hchildren]
    exact .single ((index_affects hv (hid.of_child hord hc)).of_child hc
      (NodeKind.not_isStatement_of_isOrdinary hord))
  | logical connective left right => exact .inTree_bind (chainOperands_affects hv hid)
  | path kind root segments dot =>
    cases kind with
    | stateField => exact (statePath_affects hv hk hid.placed hid.target true).discard
    | collectionValued =>
      have hord : (q.tree.kind id).isOrdinary = true := by rw [hk]; rfl
      have hchildren : q.tree.children id = [root] := by rw [Tree.children, hk]; rfl
      refine Handles.affects (not_uses_of_isOrdinary hord) ?_
      rw [hchildren]
      exact .single (visit_ordinary hid hord (by simp [hchildren]) hv)
  | _ => exact absurd (by rw [hk]; rfl) huniform

end

end Jpql.Check.Subject
