import Jpql.Proofs.Check.Effect

/-! # What a node asks of its children

A check looks at the children of a node in turn, and asks something of each: that it be a basic value,
a collection, and so on. `NodeKind.demands` writes down what each kind asks, and
`Check.visitKind_uniform` says that for most kinds this is all a check does (`Check.visitKind_met`: for
some of them in any tree and with any switches). -/

namespace Jpql

/-- What is asked of a child. -/
inductive Demand where
  /-- A value; it may be an association. -/
  | value
  /-- A value that is no association, if it is a path. -/
  | basic
  /-- A path that leads to an association or a collection. -/
  | association
  /-- A path that leads to a collection. -/
  | collection
  /-- A path to set. -/
  | target
  /-- A variable where it is declared. -/
  | declared
deriving DecidableEq

namespace NodeKind

/-- **What a node asks of each child**, in the order of its children. -/
def demands : NodeKind → List (NodeId × Demand)
  | .comparison a operator b =>
    if operator.isOrdering then [(a, .basic), (b, .basic)] else [(a, .value), (b, .value)]
  | .arithmetic _ a b => [(a, .basic), (b, .basic)]
  | .sign _ a | .basicFunction _ a | .orderByItem a _ _ => [(a, .basic)]
  | .aggregate .count _ a => [(a, .value)]
  | .aggregate _ _ a => [(a, .basic)]
  | .concat as => as.map (·, .basic)
  | .trim _ a _ b => a.toList.map (·, .value) ++ [(b, .basic)]
  | .mod a b => [(a, .basic), (b, .value)]
  | .like a _ b c | .locate a b c | .substring a b c =>
    (a, .basic) :: (b, .value) :: c.toList.map (·, .value)
  | .size a | .emptyCheck a _ => [(a, .collection)]
  | .member a _ _ b => [(a, .value), (b, .collection)]
  | .rangeDeclaration a _ b => (a, .association) :: b.toList.map (·, .declared)
  | .collectionDeclaration a _ b => (a, .collection) :: b.toList.map (·, .declared)
  | .join _ _ a _ b c =>
    (a, .association) :: (b.toList.map (·, .declared) ++ c.toList.map (·, .value))
  | .resultVariable a _ b => [(a, .value), (b, .declared)]
  | .updateItem a b => [(a, .target), (b, .value)]
  | kind => kind.children.map (·, .value)

theorem map_fst_demands (kind : NodeKind) : kind.demands.map (·.1) = kind.children := by
  cases kind with
  | comparison a operator b =>
    rw [demands]
    split <;> rfl
  | aggregate function distinct a => cases function <;> rfl
  | _ => simp [demands, children, Function.comp_def]

theorem mem_children_of_mem_demands {kind : NodeKind} {child : Nat} {demand : Demand}
    (h : (child, demand) ∈ kind.demands) : child ∈ kind.children := by
  rw [← map_fst_demands]
  exact List.mem_map_of_mem (f := (·.1)) h

/-! ### What a node asks for, and what its children are -/

/-- The node is a join. -/
def isJoin : NodeKind → Bool
  | .join .. => true
  | _ => false

section

variable {kind : NodeKind} {child : Nat}

theorem eq_updateItem_of_target (h : (child, Demand.target) ∈ kind.demands) :
    ∃ value, kind = .updateItem child value := by
  cases kind with
  | aggregate function => cases function <;> simp [demands] at h
  | comparison left operator right => cases hop : operator.isOrdering <;> simp [demands, hop] at h
  | _ => simp_all [demands, children]

theorem slots_of_target (h : (child, Demand.target) ∈ kind.demands) :
    (child, Slot.target) ∈ kind.slots := by
  obtain ⟨value, rfl⟩ := eq_updateItem_of_target h
  exact List.mem_cons_self

theorem slots_of_declared (h : (child, Demand.declared) ∈ kind.demands) :
    (child, Slot.declared) ∈ kind.slots ∨ (child, Slot.resultName) ∈ kind.slots := by
  cases kind with
  | aggregate function => cases function <;> simp [demands] at h
  | comparison left operator right => cases hop : operator.isOrdering <;> simp [demands, hop] at h
  | _ => simp_all [demands, children, slots]

theorem slots_of_association (h : (child, Demand.association) ∈ kind.demands) :
    (child, Slot.rangeRoot) ∈ kind.slots ∨
      kind.isJoin = true ∧ (child, Slot.collection 7) ∈ kind.slots := by
  cases kind with
  | aggregate function => cases function <;> simp [demands] at h
  | comparison left operator right => cases hop : operator.isOrdering <;> simp [demands, hop] at h
  | _ => simp_all [demands, children, slots, isJoin]

theorem slots_of_collection (h : (child, Demand.collection) ∈ kind.demands) :
    ∃ strength, (child, Slot.collection strength) ∈ kind.slots := by
  cases kind with
  | aggregate function => cases function <;> simp [demands] at h
  | comparison left operator right => cases hop : operator.isOrdering <;> simp [demands, hop] at h
  | _ => simp_all [demands, children, slots]

/-- A variable is introduced where it is declared. -/
theorem introduces?_eq_some : kind.introduces? = some child ↔ (child, Demand.declared) ∈ kind.demands := by
  cases kind with
  | aggregate function => cases function <;> simp [demands, introduces?]
  | comparison left operator right =>
    cases hop : operator.isOrdering <;> simp [demands, introduces?, hop]
  | _ => simp [demands, children, introduces?, eq_comm]

end

/-! ### Uniform nodes -/

/-- The kinds of nodes at which a check does nothing but look at the children in turn. -/
def isUniform : NodeKind → Bool
  | .query .. | .selectStatement .. | .simpleSelectStatement .. | .updateStatement ..
  | .deleteStatement .. | .fromClause _ | .simpleFromClause _ | .schemaName _ | .entityType _
  | .identifier .. | .index _ | .logical .. | .path .. | .arithmetic .. => false
  | .comparison _ operator _ => !operator.isOrdering
  | _ => true

/-- The kinds of nodes at which a check does nothing else, whatever the tree is and whatever the switches
of the check are. -/
def isMet : NodeKind → Bool
  | .rangeDeclaration .. | .updateItem .. => false
  | kind => kind.isUniform

theorem isUniform_of_isMet {kind : NodeKind} (h : kind.isMet = true) : kind.isUniform = true := by
  cases kind <;> first | exact h | exact absurd h Bool.false_ne_true

theorem not_isStatement_of_isUniform {kind : NodeKind} (h : kind.isUniform = true) :
    kind.isStatement = false := by
  cases kind <;> first | rfl | exact absurd h Bool.false_ne_true

theorem not_identifier_of_isUniform {kind : NodeKind} (h : kind.isUniform = true) (name : String)
    (isVirtual : Bool) (behind : Option NodeId) : kind ≠ .identifier name isVirtual behind := by
  rintro rfl
  exact absurd h Bool.false_ne_true

end NodeKind

namespace Check

variable (visit : Visitor)

/-- Checks what a range goes over, or what a join adds. Of `TREAT` the type is visited and the path
checked. -/
def association (id : NodeId) : Checker Unit := do
  match ← kindOf id with
  | .treat inner _ entityType =>
    visit entityType
    collectionPath visit inner false
  | _ => collectionPath visit id false

/-- **Looks at a child of which something is asked.** -/
def meet : NodeId × Demand → Checker Unit
  | (id, .value) => visit id
  | (id, .basic) => basicOperand visit id
  | (id, .association) => association visit id
  | (id, .collection) => collectionPath visit id true
  | (id, .target) => updateTarget visit id
  | (id, .declared) => visitDeclared visit (some id)

variable {visit} {env : Env} {s : State} {id : Nat}

theorem rangeRoot_run {root : Nat} (hadmits : Slot.rangeRoot.admits (s.context.tree.kind root) = true) :
    rangeRoot visit root env s = association visit root env s := by
  rw [rangeRoot, association, kindOf_run, kindOf_run]
  cases hk : s.context.tree.kind root <;> rw [hk] at hadmits <;>
    first | exact absurd hadmits Bool.false_ne_true | rfl | skip
  all_goals
    show _ = (inTree _ >>= _) env s
    rw [inTree_run, Tree.pathBehind?, hk]
    rfl

theorem forM_value (ids : List Nat) : (ids.map (·, Demand.value)).forM (meet visit) = ids.forM visit :=
  List.forM_map ..

theorem visitDeclared_eq (declared : Option Nat) :
    visitDeclared visit declared = (declared.toList.map (·, Demand.declared)).forM (meet visit) := by
  cases declared <;> rfl

/-- **At most nodes a check looks at the children in turn**, and does nothing else. New values of `SET`
items are looked at where they are checked. -/
theorem visitKind_uniform
    (hvalues : ∀ target value, s.context.tree.kind id = .updateItem target value →
      env.updateValues = true)
    (hkind : (s.context.tree.kind id).isUniform = true)
    (hrange : ∀ root hasAs declared, s.context.tree.kind id = .rangeDeclaration root hasAs declared →
      Slot.rangeRoot.admits (s.context.tree.kind root) = true) :
    visitKind visit id env s = ((s.context.tree.kind id).demands.forM (meet visit)) env s := by
  have hchildren : visitChildren visit id env s =
      ((s.context.tree.children id).map (·, Demand.value)).forM (meet visit) env s := by
    rw [forM_value]
    rfl
  rw [visitKind, kindOf_run]
  rw [Tree.children] at hchildren
  cases hk : s.context.tree.kind id <;> rw [hk] at hkind hchildren
  case rangeDeclaration root hasAs declared =>
    show (rangeRoot visit root >>= fun _ => visitDeclared visit declared) env s = _
    rw [bind_run, rangeRoot_run (hrange root hasAs declared hk), visitDeclared_eq]
    rfl
  case collectionDeclaration path hasAs declared =>
    show (collectionPath visit path true >>= fun _ => visitDeclared visit declared) env s = _
    rw [visitDeclared_eq]
    rfl
  case join type fetch path hasAs declared on =>
    have hjoin : join visit path declared on env s =
        (association visit path >>= fun _ => visitDeclared visit declared >>= fun _ =>
          visitOption visit on) env s := by
      rw [join, kindOf_run, bind_run, association, kindOf_run]
      cases s.context.tree.kind path <;> rfl
    refine hjoin.trans ?_
    cases declared <;> cases on <;> rfl
  case aggregate function distinct expression => cases function <;> rfl
  case trim side character hasFrom string => cases character <;> rfl
  case updateItem target value =>
    show (updateTarget visit target >>= fun _ => read >>= fun environment =>
      if environment.updateValues then visit value else pure ()) env s = _
    rw [bind_run]
    show (if env.updateValues then visit value else pure ()) env _ = _
    rw [hvalues target value hk]
    rfl
  case comparison left operator right =>
    have hno : operator.isOrdering = false := by simpa [NodeKind.isUniform] using hkind
    simp only [NodeKind.demands, hno]
    rfl
  case like expression negated pattern escape =>
    show _ = (basicOperand visit expression >>= fun _ => visit pattern >>= fun _ =>
      (escape.toList.map (·, Demand.value)).forM (meet visit)) env s
    rw [forM_value]
    rfl
  case locate first second third | substring first second third =>
    show _ = (basicOperand visit first >>= fun _ => visit second >>= fun _ =>
      (third.toList.map (·, Demand.value)).forM (meet visit)) env s
    rw [forM_value]
    rfl
  case concat arguments =>
    have hmap : (arguments.map (·, Demand.basic)).forM (meet visit) =
        arguments.forM (basicOperand visit) := List.forM_map ..
    exact congrFun (congrFun hmap.symm env) s
  all_goals first
    | exact absurd hkind Bool.false_ne_true
    | rfl
    | exact hchildren

theorem visitKind_met (hkind : (s.context.tree.kind id).isMet = true) :
    visitKind visit id env s = ((s.context.tree.kind id).demands.forM (meet visit)) env s := by
  refine visitKind_uniform (fun target value hk => ?_) (NodeKind.isUniform_of_isMet hkind)
    fun root hasAs declared hk => ?_ <;>
  · rw [hk] at hkind
    exact absurd hkind Bool.false_ne_true

end Check

end Jpql
