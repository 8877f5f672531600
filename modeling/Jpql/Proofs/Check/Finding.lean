import Jpql.Proofs.Check.Demand

/-! # What is wrong at a node

Problems with paths, with the names of entities and types, and with the order of declarations belong
to one node each, and depend on the tree and the metamodel alone: on what is asked of the node, and
on the scopes around it. `Tree.findings` reads them off.

* `QueryContext.within`: the context in which a check looks at a node.
* `Tree.demand`: what is asked of a path where it stands. A virtual variable passes on what is asked
  of it to the path it stands for, and a `TREAT` that is joined does so, too.
* `QueryContext.pathProblems`: what is wrong with a path of which something is asked. -/

namespace Jpql

namespace NodeKind

/-- What a node asks of a child. -/
def demand (kind : NodeKind) (child : Nat) : Demand := (kind.demands.lookup child).getD .value

theorem demand_eq {kind : NodeKind} (hnodup : kind.children.Nodup) {child : Nat} {demand : Demand}
    (hmem : (child, demand) ∈ kind.demands) : kind.demand child = demand := by
  rw [← map_fst_demands] at hnodup
  unfold NodeKind.demand
  generalize kind.demands = entries at hnodup hmem
  induction entries with
  | nil => cases hmem
  | cons entry entries ih =>
    rw [List.map_cons, List.nodup_cons] at hnodup
    rcases List.mem_cons.mp hmem with rfl | hmem
    · rw [List.lookup_cons_self]
      rfl
    · have hne : (child == entry.1) = false := beq_eq_false_iff_ne.mpr fun he =>
        hnodup.1 (he ▸ List.mem_map_of_mem (f := (·.1)) hmem)
      rw [List.lookup_cons, hne]
      exact ih hnodup.2 hmem

end NodeKind

/-! ## Places -/

/-- **The context in which a check looks at a node**: that of the query, with the subqueries around the
node entered. What the query itself consists of is not entered. -/
def QueryContext.within (tree : Tree) (metamodel : Metamodel) (id : Nat) : QueryContext :=
  { QueryContext.ofTree tree metamodel with
    subqueries := ((tree.ancestors id).filter fun outer =>
      (tree.kind outer).isSubquery && outer != QueryContext.statementOf tree).map
        (Scope.ofStatement tree) }

namespace QueryContext

variable {tree : Tree} {metamodel : Metamodel} {id child : Nat}

@[simp] theorem tree_within : (within tree metamodel id).tree = tree := rfl

@[simp] theorem metamodel_within : (within tree metamodel id).metamodel = metamodel := rfl

theorem within_of_child (hwf : tree.WellFormed) (hc : child ∈ tree.children id)
    (hkind : (tree.kind id).isSubquery = true → id = statementOf tree) :
    within tree metamodel child = within tree metamodel id := by
  have hno : ((tree.kind id).isSubquery && id != statementOf tree) = false := by
    cases h : (tree.kind id).isSubquery with
    | false => rfl
    | true => simp [hkind h]
  rw [within, within, hwf.ancestors_eq (hwf.child id child hc), List.filter_cons, hno]
  rfl

theorem within_of_subquery (hwf : tree.WellFormed) (hc : child ∈ tree.children id)
    (hkind : (tree.kind id).isSubquery = true) (hne : id ≠ statementOf tree) :
    within tree metamodel child = (within tree metamodel id).enter id := by
  have hyes : ((tree.kind id).isSubquery && id != statementOf tree) = true := by simp [hkind, hne]
  rw [within, within, enter, hwf.ancestors_eq (hwf.child id child hc), List.filter_cons, hyes]
  rfl

theorem within_of_root (hp : tree.parent? id = none) :
    within tree metamodel id = ofTree tree metamodel := by
  have hnone : tree.ancestors id = [] := by
    rw [Tree.ancestors, hp]
    cases tree.size <;> rfl
  rw [within, hnone]
  rfl

end QueryContext

namespace Tree

/-- The virtual variable that stands for a path, or the node itself. -/
def holder (tree : Tree) (id : Nat) : Nat :=
  match tree.parent? id with
  | some parent =>
    match tree.kind parent with
    | .identifier .. => parent
    | _ => id
  | none => id

/-- **What is asked of a path where it stands.** -/
def demand (tree : Tree) (id : Nat) : Demand :=
  match tree.parent? (tree.holder id) with
  | none => .value
  | some parent =>
    match tree.kind parent, (tree.parent? parent).map tree.kind with
    | .treat .., some (.join ..) => .association
    | kind, _ => kind.demand (tree.holder id)

/-! ## Findings -/

/-- A problem at a node, with the text of the node as its argument. -/
def problemAt (tree : Tree) (key : ProblemKey) (id : Nat) : Problem :=
  ⟨key, [tree.parsedText id], tree.span id, some id⟩

/-- What is wrong with a state-field path that has come to something. -/
def verdictProblems (tree : Tree) (id : Nat) (segments : List (Located String)) :
    PathVerdict → List Problem
  | .valid => []
  | .invalid key => [tree.problemAt key id]
  | .constant true _ => []
  | .constant false enum => segments.getLast?.toList.map fun last =>
    ⟨.statePathInvalidConstant, [last.value, enum], last.span, some id⟩

end Tree

namespace QueryContext

variable (context : QueryContext)

/-- **What is wrong with a path of which something is asked.** Only the target of a `SET` item is
looked at if it ends with a dot. -/
def pathProblems (demand : Demand) (id : Nat) : List Problem :=
  match context.tree.kind id with
  | .path kind root segments endsWithDot =>
    match demand with
    | .association | .collection =>
      if endsWithDot || !context.tree.isResolvedRoot root then []
      else (context.collectionPath? id (demand == .collection)).toList.map
        (context.tree.problemAt · id)
    | .target =>
      match kind, context.tree.kind root with
      | .stateField, .identifier name _ _ =>
        (context.updateTarget? name segments).toList.map (context.tree.problemAt · id)
      | _, _ => []
    | _ =>
      match kind with
      | .stateField =>
        if endsWithDot || !context.tree.isResolvedRoot root then []
        else context.tree.verdictProblems id segments
          (context.statePath id segments (demand != .basic))
      | .collectionValued => []
  | _ => []

/-- A target is looked at if it starts at a variable. -/
theorem pathProblems_target {id root : Nat} {segments : List (Located String)} {dot : Bool}
    (hk : context.tree.kind id = .path .stateField root segments dot) :
    context.pathProblems .target id =
      match context.tree.kind root with
      | .identifier name _ _ =>
        (context.updateTarget? name segments).toList.map (context.tree.problemAt · id)
      | _ => [] := by
  cases hroot : context.tree.kind root <;> simp only [pathProblems, hk, hroot]

/-- The declarations of the innermost scope that are used to their left. -/
def misplacedProblems (clause : Nat) : List Problem :=
  (Declaration.misplaced context.tree context.declarations).map fun root =>
    ⟨.variableWrongOrder, [root.value], root.span, some clause⟩

end QueryContext

namespace Tree

/-- **What is wrong at a node.** -/
def findings (tree : Tree) (metamodel : Metamodel) (id : Nat) : List Problem :=
  match tree.kind id with
  | .fromClause _ | .simpleFromClause _ =>
    (QueryContext.within tree metamodel id).misplacedProblems id
  | .schemaName name =>
    ((QueryContext.within tree metamodel id).schemaName? name).toList.map (tree.problemAt · id)
  | .entityType name =>
    if (metamodel.entity? name).isNone then [tree.problemAt .entityTypeNotResolvable id] else []
  | _ => (QueryContext.within tree metamodel id).pathProblems (tree.demand id) id

end Tree

/-! ## Where findings stand -/

/-- Some problems are findings at a node. -/
def FindingsAt (id : Nat) (problems : List Problem) : Prop :=
  ∀ problem ∈ problems, problem.anchor = some id ∧ problem.key.isFinding = true

/-- Some problems are about what a node refers to. -/
def ReferencesAt (id : Nat) (problems : List Problem) : Prop :=
  ∀ problem ∈ problems, problem.anchor = some id ∧ problem.key.isReference = true

namespace ReferencesAt

variable {id : Nat}

theorem nil : ReferencesAt id [] := fun _ h => nomatch h

/-- What is wrong at a node, if anything is. -/
theorem option {tree : Tree} {key? : Option ProblemKey}
    (h : ∀ key, key? = some key → key.isReference = true) :
    ReferencesAt id (key?.toList.map (tree.problemAt · id)) := by
  intro problem hmem
  obtain ⟨key, hkey, rfl⟩ := List.mem_map.mp hmem
  exact ⟨rfl, h key (Option.mem_toList.mp hkey)⟩

theorem verdict {tree : Tree} {segments : List (Located String)} {verdict : PathVerdict}
    (h : ∀ key, verdict = .invalid key → key.isReference = true) :
    ReferencesAt id (tree.verdictProblems id segments verdict) := by
  cases verdict with
  | valid => exact nil
  | invalid key =>
    intro problem hmem
    rw [List.mem_singleton.mp hmem]
    exact ⟨rfl, h key rfl⟩
  | constant known enum =>
    cases known with
    | true => exact nil
    | false =>
      intro problem hmem
      obtain ⟨last, -, rfl⟩ := List.mem_map.mp hmem
      exact ⟨rfl, rfl⟩

theorem path {context : QueryContext} {demand : Demand} :
    ReferencesAt id (context.pathProblems demand id) := by
  unfold QueryContext.pathProblems
  split
  · split
    case h_3 =>
      split
      · exact option fun key h => QueryContext.updateTarget?_isReference h
      · exact nil
    case h_4 =>
      split
      · split
        · exact nil
        · exact verdict fun key h => QueryContext.statePath_isReference h
      · exact nil
    all_goals
      split
      · exact nil
      · exact option fun key h => QueryContext.collectionPath?_isReference h
  · exact nil

end ReferencesAt

/-- **What is wrong at a node is anchored there**, and of a `FROM` clause it is the order of its
declarations. -/
theorem Tree.mem_findings {tree : Tree} {metamodel : Metamodel} {id : Nat} {problem : Problem}
    (h : problem ∈ tree.findings metamodel id) : problem.anchor = some id ∧
      (problem.key.isReference = true ∨
        problem.key = .variableWrongOrder ∧ Scope.isFromClause (tree.kind id) = true) := by
  have hmisplaced : problem ∈ (QueryContext.within tree metamodel id).misplacedProblems id →
      problem.anchor = some id ∧ problem.key = .variableWrongOrder := by
    intro hmem
    obtain ⟨root, -, rfl⟩ := List.mem_map.mp hmem
    exact ⟨rfl, rfl⟩
  have href : ∀ {problems}, ReferencesAt id problems → problem ∈ problems →
      problem.anchor = some id ∧ (problem.key.isReference = true ∨
        problem.key = .variableWrongOrder ∧ Scope.isFromClause (tree.kind id) = true) :=
    fun h hmem => (h problem hmem).imp_right .inl
  unfold Tree.findings at h
  split at h
  · next hk => exact (hmisplaced h).imp_right fun hkey => .inr ⟨hkey, by rw [hk]; rfl⟩
  · next hk => exact (hmisplaced h).imp_right fun hkey => .inr ⟨hkey, by rw [hk]; rfl⟩
  · exact href (.option fun key h => QueryContext.schemaName?_isReference h) h
  · split at h
    · rw [List.mem_singleton.mp h]
      exact ⟨rfl, .inl rfl⟩
    · cases h
  · exact href .path h

/-- What is wrong at a node is a finding there. -/
theorem FindingsAt.findings (tree : Tree) (metamodel : Metamodel) (id : Nat) :
    FindingsAt id (tree.findings metamodel id) := fun problem hmem => by
  obtain ⟨hanchor, hkey | ⟨hkey, -⟩⟩ := Tree.mem_findings hmem
  · exact ⟨hanchor, ProblemKey.isFinding_of_isReference hkey⟩
  · exact ⟨hanchor, by rw [hkey]; rfl⟩

end Jpql
