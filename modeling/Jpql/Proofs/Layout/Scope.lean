import Jpql.Check.Visit
import Jpql.Proofs.Layout.Alike
import Mathlib.Tactic.Common

/-! # Scopes and rules do not depend on the layout

What a tree declares, what its names and paths mean, and which rules they break, is the same for trees
that are alike. Two contexts are alike if their trees are, and all else is the same
(`QueryContext.Alike`).

* `Tree.Alike.ofStatement`: the scope of a statement is the same.
* `QueryContext.Alike.mapping?`, `QueryContext.Alike.pathType?`: a path means the same.
* `QueryContext.Alike.undeclared`: the same variables are undeclared, as far as they are variables. -/

namespace Jpql

/-- The node is a variable, written or virtual. -/
def Tree.IsVariable (tree : Tree) (id : Nat) : Prop :=
  ∃ name isVirtual path, tree.kind id = .identifier name isVirtual path

namespace Tree.Alike

variable {x y : Tree} (h : x.Alike y)

include h

/-- A node has the same kind in both trees, or is a path with the same words, or leftover text. -/
theorem kind_cases (id : Nat) :
    x.kind id = y.kind id ∨
      (∃ kind root left right dot, x.kind id = .path kind root left dot ∧
        y.kind id = .path kind root right dot ∧ left.map (·.value) = right.map (·.value)) ∨
      ∃ left right, x.kind id = .unknown left ∧ y.kind id = .unknown right := by
  have hkind := h.kind id
  generalize x.kind id = k at hkind
  generalize y.kind id = l at hkind
  cases hkind with
  | refl => exact .inl rfl
  | path kind root dot hvalues => exact .inr (.inl ⟨kind, root, _, _, dot, rfl, rfl, hvalues⟩)
  | unknown left right => exact .inr (.inr ⟨left, right, rfl, rfl⟩)

/-! ## Declarations -/

theorem variableName? (node : Option Nat) : x.variableName? node = y.variableName? node := by
  cases node with
  | none => rfl
  | some id =>
    unfold Tree.variableName?
    rcases h.kind_cases id with e | ⟨_, _, _, _, _, e, e', -⟩ | ⟨_, _, e, e'⟩
    · simp only [Option.bind_eq_bind, Option.bind_some, e]
    · simp only [Option.bind_eq_bind, Option.bind_some, e, e']
    · simp only [Option.bind_eq_bind, Option.bind_some, e, e']

theorem rangeDeclaration (range node : Nat) :
    x.rangeDeclaration range node = y.rangeDeclaration range node := by
  unfold Tree.rangeDeclaration
  rcases h.kind_cases range with e | ⟨_, _, _, _, _, e, e', -⟩ | ⟨_, _, e, e'⟩
  · rw [e]
    split
    · next root _ declared _ =>
      rw [h.variableName?]
      rcases h.kind_cases root with e | ⟨_, _, _, _, _, e, e', -⟩ | ⟨_, _, e, e'⟩
      · rw [e]
      · rw [e, e']
      · rw [e, e']
    · rfl
  · rw [e, e']
  · rw [e, e']

theorem joinDeclaration? (node : Nat) : x.joinDeclaration? node = y.joinDeclaration? node := by
  unfold Tree.joinDeclaration?
  rcases h.kind_cases node with e | ⟨_, _, _, _, _, e, e', -⟩ | ⟨_, _, e, e'⟩
  · rw [e]
    split
    · rw [h.variableName?]
    · rfl
  · rw [e, e']
  · rw [e, e']

theorem declaration (node : Nat) : x.declaration node = y.declaration node := by
  unfold Tree.declaration
  rcases h.kind_cases node with e | ⟨_, _, _, _, _, e, e', -⟩ | ⟨_, _, e, e'⟩
  · rw [e]
    split
    · rw [h.rangeDeclaration, funext h.joinDeclaration?]
    · rw [h.variableName?]
    · rfl
  · rw [e, e']
  · rw [e, e']

theorem fromDeclarations (fromClause : Option Nat) :
    x.fromDeclarations fromClause = y.fromDeclarations fromClause := by
  unfold Tree.fromDeclarations
  rw [funext h.declaration]
  cases fromClause with
  | none => rfl
  | some id =>
    rcases h.kind_cases id with e | ⟨_, _, _, _, _, e, e', -⟩ | ⟨_, _, e, e'⟩
    · simp only [Option.map_some, e]
    · simp only [Option.map_some, e, e']
    · simp only [Option.map_some, e, e']

theorem resultName? (item : Nat) : x.resultName? item = y.resultName? item := by
  unfold Tree.resultName?
  rcases h.kind_cases item with e | ⟨_, _, _, _, _, e, e', -⟩ | ⟨_, _, e, e'⟩
  · rw [e]
    split
    · rw [h.variableName?]
    · rfl
  · rw [e, e']
  · rw [e, e']

theorem resultNames (select : Nat) : x.resultNames select = y.resultNames select := by
  unfold Tree.resultNames
  rw [funext h.resultName?]
  rcases h.kind_cases select with e | ⟨_, _, _, _, _, e, e', -⟩ | ⟨_, _, e, e'⟩
  · rw [e]
  · rw [e, e']
  · rw [e, e']

theorem clauseDeclarations (clause : Nat) :
    x.clauseDeclarations clause = y.clauseDeclarations clause := by
  unfold Tree.clauseDeclarations
  simp only [h.rangeDeclaration]
  rcases h.kind_cases clause with e | ⟨_, _, _, _, _, e, e', -⟩ | ⟨_, _, e, e'⟩
  · rw [e]
  · rw [e, e']
  · rw [e, e']

/-- **The scope of a statement is the same.** -/
theorem ofStatement (statement : Nat) :
    Scope.ofStatement x statement = Scope.ofStatement y statement := by
  unfold Scope.ofStatement
  rw [funext h.fromDeclarations, funext h.resultNames, funext h.clauseDeclarations]
  rcases h.kind_cases statement with e | ⟨_, _, _, _, _, e, e', -⟩ | ⟨_, _, e, e'⟩
  · rw [e]
  · rw [e, e']
  · rw [e, e']

/-! ## Places in a tree -/

theorem pathBehind? (id : Nat) : x.pathBehind? id = y.pathBehind? id := by
  unfold Tree.pathBehind?
  rcases h.kind_cases id with e | ⟨_, _, _, _, _, e, e', -⟩ | ⟨_, _, e, e'⟩
  · rw [e]
  · rw [e, e']
  · rw [e, e']

theorem isStatePath (id : Nat) : x.isStatePath id = y.isStatePath id := by
  unfold Tree.isStatePath
  rcases h.kind_cases id with e | ⟨kind, _, _, _, _, e, e', -⟩ | ⟨_, _, e, e'⟩
  · rw [e]
  · rw [e, e']
    cases kind <;> rfl
  · rw [e, e']

theorem statePathBehind? (id : Nat) : x.statePathBehind? id = y.statePathBehind? id := by
  rw [Tree.statePathBehind?, Tree.statePathBehind?, h.pathBehind?, funext h.isStatePath]

theorem isResolvedRoot (root : Nat) : x.isResolvedRoot root = y.isResolvedRoot root := by
  unfold Tree.isResolvedRoot
  rcases h.kind_cases root with e | ⟨_, _, _, _, _, e, e', -⟩ | ⟨_, _, e, e'⟩
  · rw [e]
    split
    · rfl
    · rfl
    · next expression _ =>
      rcases h.kind_cases expression with e | ⟨_, _, _, _, _, e, e', -⟩ | ⟨_, _, e, e'⟩
      · rw [e]
      · rw [e, e']
      · rw [e, e']
    · rfl
  · rw [e, e']
  · rw [e, e']

theorem chain (bound : Nat) (id : Option Nat) : x.chain bound id = y.chain bound id := by
  induction bound generalizing id with
  | zero => rfl
  | succ bound ih =>
    cases id with
    | none => rfl
    | some id => rw [Tree.chain, Tree.chain, h.parent, ih]

theorem ancestors (id : Nat) : x.ancestors id = y.ancestors id := by
  rw [Tree.ancestors, Tree.ancestors, h.size, h.parent, h.chain]

theorem chainFrom (depth id : Nat) (rest : List Nat) :
    x.chainFrom depth id rest = y.chainFrom depth id rest := by
  induction depth generalizing id rest with
  | zero => rfl
  | succ depth ih =>
    unfold Tree.chainFrom
    rcases h.kind_cases id with e | ⟨_, _, _, _, _, e, e', -⟩ | ⟨_, _, e, e'⟩
    · rw [e]
      split
      · exact ih _ _
      · rfl
    · rw [e, e']
    · rw [e, e']

/-- The same nodes are operands of comparisons. -/
theorem isCompared (id : Nat) : x.isCompared id = y.isCompared id := by
  unfold Tree.isCompared
  dsimp only
  rw [h.ancestors]
  induction y.ancestors id with
  | nil => rfl
  | cons id ids ih =>
    rw [List.map_cons, List.map_cons, List.dropWhile_cons, List.dropWhile_cons]
    have hkind := h.kind id
    generalize x.kind id = k at hkind
    generalize y.kind id = l at hkind
    cases hkind with
    | refl => cases k <;> first | rfl | exact ih
    | path => rfl
    | unknown => rfl

theorem isPath (id : Nat) : (x.kind id).isPath = (y.kind id).isPath := by
  rcases h.kind_cases id with e | ⟨_, _, _, _, _, e, e', -⟩ | ⟨_, _, e, e'⟩
  · rw [e]
  · rw [e, e']
    rfl
  · rw [e, e']
    rfl

theorem isStatement (id : Nat) : (x.kind id).isStatement = (y.kind id).isStatement := by
  rcases h.kind_cases id with e | ⟨_, _, _, _, _, e, e', -⟩ | ⟨_, _, e, e'⟩
  · rw [e]
  · rw [e, e']
    rfl
  · rw [e, e']
    rfl

/-- The variable a path starts from is the same; where it stands may differ. -/
theorem rootVariableTo? (depth id : Nat) :
    (x.rootVariableTo? depth id).map (·.value) = (y.rootVariableTo? depth id).map (·.value) := by
  induction depth generalizing id with
  | zero => rfl
  | succ depth ih =>
    unfold Tree.rootVariableTo?
    rcases h.kind_cases id with e | ⟨_, root, _, _, _, e, e', -⟩ | ⟨_, _, e, e'⟩
    · rw [e]
      split
      · rfl
      · exact ih _
      · exact ih _
      · exact ih _
      · exact ih _
      · exact ih _
      · rfl
    · rw [e, e']
      exact ih root
    · rw [e, e']

theorem rootVariable? (id : Nat) :
    (x.rootVariable? id).map (·.value) = (y.rootVariable? id).map (·.value) :=
  h.rootVariableTo? _ id

/-- A variable that is asked for by its name alone. -/
theorem filter_rootVariable? (id : Nat) (cond : String → Bool) :
    (((x.rootVariable? id).filter fun root => cond root.value).toList).map (·.value) =
      (((y.rootVariable? id).filter fun root => cond root.value).toList).map (·.value) := by
  have hroot := h.rootVariable? id
  cases hl : x.rootVariable? id <;> cases hr : y.rootVariable? id <;> rw [hl, hr] at hroot
  · cases hroot
  · cases hroot
  · simp only [Option.map_some, Option.some.injEq] at hroot
    simp only [Option.filter, hroot]
    split
    · simpa using hroot
    · rfl

theorem misplacedJoins (later : List Declaration) (joins : List JoinDeclaration) :
    (Declaration.misplacedJoins x later joins).map (·.value) =
      (Declaration.misplacedJoins y later joins).map (·.value) := by
  induction joins with
  | nil => rfl
  | cons join joins ih =>
    rw [Declaration.misplacedJoins, Declaration.misplacedJoins, List.map_append, List.map_append, ih,
      h.filter_rootVariable? _ fun name => joins.any (·.declares name) ||
        Declaration.isDeclaredIn name later]

/-- The same variables are used to the left of their declaration. -/
theorem misplaced (declarations : List Declaration) :
    (Declaration.misplaced x declarations).map (·.value) =
      (Declaration.misplaced y declarations).map (·.value) := by
  induction declarations with
  | nil => rfl
  | cons declaration later ih =>
    rw [Declaration.misplaced, Declaration.misplaced, List.map_append, List.map_append, ih]
    congr 1
    split
    · exact h.misplacedJoins later _
    · exact h.filter_rootVariable? _ fun name => declaration.joins.any (·.declares name) ||
        Declaration.isDeclaredIn name later

end Tree.Alike

/-! ## Contexts -/

namespace Located

variable {left right : List (Located String)} (h : left.map (·.value) = right.map (·.value))

include h

theorem getLast?_of_values : left.getLast?.map (·.value) = right.getLast?.map (·.value) := by
  rw [← List.getLast?_map, h, List.getLast?_map]

theorem dropLast_of_values : left.dropLast.map (·.value) = right.dropLast.map (·.value) := by
  rw [List.map_dropLast, h, ← List.map_dropLast]

end Located

namespace QueryContext

/-! ### Contexts over the same metamodel

Of a path only the words matter, and of the context only the metamodel. -/

section

variable {a b : QueryContext} (h : a.metamodel = b.metamodel)
  {left right : List (Located String)} (hvalues : left.map (·.value) = right.map (·.value))

include h hvalues

theorem ownerOf?_congr (owner : ManagedType) : a.ownerOf? owner left = b.ownerOf? owner right := by
  have hwords : ∀ (c : QueryContext) (segments : List (Located String)),
      c.ownerOf? owner segments = (segments.map (·.value)).foldlM c.fieldType? owner :=
    fun c segments => by rw [List.foldlM_map]; rfl
  have hfields : a.fieldType? = b.fieldType? := by
    funext owner field
    rw [fieldType?, fieldType?, h]
  rw [hwords, hwords, hvalues, hfields]

theorem pathMapping?_congr {rootType? otherType? : NodeId → Option ManagedType} {root other : NodeId}
    (hroot : rootType? root = otherType? other) :
    a.pathMapping? rootType? root left = b.pathMapping? otherType? other right := by
  unfold pathMapping?
  have hlast := Located.getLast?_of_values hvalues
  cases hl : left.getLast? <;> cases hr : right.getLast? <;> rw [hl, hr] at hlast
  · rfl
  · cases hlast
  · cases hlast
  · simp only [Option.map_some, Option.some.injEq] at hlast
    simp only [Option.bind_eq_bind, Option.bind_some, hlast, hroot,
      ownerOf?_congr h (Located.dropLast_of_values hvalues)]

theorem targetBelow?_congr (owner : ManagedType) :
    a.targetBelow? owner left = b.targetBelow? owner right := by
  induction left generalizing owner right with
  | nil =>
    cases right with
    | nil => simp only [targetBelow?]
    | cons => cases hvalues
  | cons segment left ih =>
    cases right with
    | nil => cases hvalues
    | cons other right =>
      rw [List.map_cons, List.map_cons, List.cons.injEq] at hvalues
      have hempty : left.isEmpty = right.isEmpty := by
        rw [← List.isEmpty_map, hvalues.2, List.isEmpty_map]
      simp only [targetBelow?, hvalues.1, hempty, mappingManaged?, h, ih hvalues.2]

omit h in
/-- Of the last word of a path only its text matters. -/
theorem unmappedVerdict_congr (type? : Option TypeInfo) :
    unmappedVerdict type? left = unmappedVerdict type? right := by
  have hknown : ∀ constants : List String, (left.getLast?.any fun last => constants.contains last.value) =
      right.getLast?.any fun last => constants.contains last.value := fun constants => by
    have hlast := Located.getLast?_of_values hvalues
    cases hl : left.getLast? <;> cases hr : right.getLast? <;> rw [hl, hr] at hlast
    · cases hlast
    · cases hlast
    · simp only [Option.map_some, Option.some.injEq] at hlast
      simp only [Option.any_some, hlast]
  unfold unmappedVerdict
  simp only [hknown]

end

/-! ### Alike contexts -/

/-- **Contexts that differ in the layout of their texts only.** -/
structure Alike (a b : QueryContext) : Prop where
  tree : a.tree.Alike b.tree
  metamodel : a.metamodel = b.metamodel
  outermost : a.outermost = b.outermost
  subqueries : a.subqueries = b.subqueries

namespace Alike

variable {a b : QueryContext} (h : a.Alike b)

include h

theorem enter (subquery : Nat) : (a.enter subquery).Alike (b.enter subquery) where
  tree := h.tree
  metamodel := h.metamodel
  outermost := h.outermost
  subqueries := by
    show _ :: a.subqueries = _ :: b.subqueries
    rw [h.tree.ofStatement, h.subqueries]

theorem leave : a.leave.Alike b.leave where
  tree := h.tree
  metamodel := h.metamodel
  outermost := h.outermost
  subqueries := congrArg List.tail h.subqueries

theorem scopes : a.scopes = b.scopes := by
  rw [QueryContext.scopes, QueryContext.scopes, h.outermost, h.subqueries]

theorem innermost : a.innermost = b.innermost := by
  rw [QueryContext.innermost, QueryContext.innermost, h.outermost, h.subqueries]

theorem isSubquery : a.isSubquery = b.isSubquery := by
  rw [QueryContext.isSubquery, QueryContext.isSubquery, h.subqueries]

theorem virtualName? (declaration : Declaration) :
    QueryContext.virtualName? a.tree declaration = QueryContext.virtualName? b.tree declaration := by
  unfold QueryContext.virtualName?
  cases declaration.nameNode with
  | none => rfl
  | some id =>
    rcases h.tree.kind_cases id with e | ⟨_, _, _, _, _, e, e', -⟩ | ⟨_, _, e, e'⟩
    · simp only [Option.bind_eq_bind, Option.bind_some, e]
    · simp only [Option.bind_eq_bind, Option.bind_some, e, e']
    · simp only [Option.bind_eq_bind, Option.bind_some, e, e']

theorem virtualVariable? : a.virtualVariable? = b.virtualVariable? := by
  rw [QueryContext.virtualVariable?, QueryContext.virtualVariable?, h.outermost,
    funext h.virtualName?]

/-! ### Resolution -/

theorem binding? (name : String) : a.binding? name = b.binding? name := by
  rw [QueryContext.binding?, QueryContext.binding?, h.scopes]

theorem fieldType? (owner : ManagedType) (field : String) :
    a.fieldType? owner field = b.fieldType? owner field := by
  rw [QueryContext.fieldType?, QueryContext.fieldType?, h.metamodel]

/-- What a variable and what an expression denotes is the same, in any number of steps. -/
theorem typesIn? (steps : Nat) :
    (∀ name, a.variableTypeIn? steps name = b.variableTypeIn? steps name) ∧
      ∀ id, a.expressionTypeIn? steps id = b.expressionTypeIn? steps id := by
  induction steps using Nat.strongRecOn with
  | ind steps ih =>
    cases steps with
    | zero => exact ⟨fun _ => by simp only [variableTypeIn?], fun _ => by simp only [expressionTypeIn?]⟩
    | succ steps =>
      obtain ⟨hvariable, hexpression⟩ := ih steps (Nat.lt_succ_self _)
      refine ⟨fun name => ?_, fun id => ?_⟩
      · simp only [variableTypeIn?, h.binding?, h.metamodel, h.virtualVariable?, hvariable,
          hexpression, h.fieldType?]
      · have hroots : ∀ m, m + 1 = steps → a.expressionTypeIn? m = b.expressionTypeIn? m :=
          fun m hm => funext (ih m (by omega)).2
        rcases h.tree.kind_cases id with e | ⟨_, root, left, right, _, e, e', hvalues⟩ | ⟨_, _, e, e'⟩
        · unfold expressionTypeIn?
          rw [e]
          split
          · exact hexpression _
          · exact hvariable _
          · cases steps with
            | zero => rfl
            | succ steps =>
              dsimp only
              rw [pathMapping?_congr h.metamodel rfl (congrFun (hroots steps rfl) _), h.metamodel]
          · next entityType _ =>
            rcases h.tree.kind_cases entityType with e | ⟨_, _, _, _, _, e, e', -⟩ | ⟨_, _, e, e'⟩
            · rw [e, h.metamodel]
            · rw [e, e']
            · rw [e, e']
          · exact hexpression _
          · rfl
        · unfold expressionTypeIn?
          rw [e, e']
          cases steps with
          | zero => rfl
          | succ steps =>
            dsimp only
            rw [pathMapping?_congr h.metamodel hvalues (congrFun (hroots steps rfl) _), h.metamodel]
        · unfold expressionTypeIn?
          rw [e, e']

theorem variableType? (name : String) : a.variableType? name = b.variableType? name :=
  (h.typesIn? _).1 name

theorem expressionType? (id : Nat) : a.expressionType? id = b.expressionType? id :=
  (h.typesIn? _).2 id

theorem mappingIn? (steps id : Nat) : a.mappingIn? steps id = b.mappingIn? steps id := by
  induction steps generalizing id with
  | zero => rfl
  | succ steps ih =>
    unfold QueryContext.mappingIn?
    rcases h.tree.kind_cases id with e | ⟨_, root, left, right, _, e, e', hvalues⟩ | ⟨_, _, e, e'⟩
    · rw [e]
      split
      · exact pathMapping?_congr h.metamodel rfl ((h.typesIn? _).2 _)
      · exact ih _
      · rw [h.binding?]
        split
        · exact ih _
        · rfl
      · exact ih _
      · exact ih _
      · rfl
    · rw [e, e']
      dsimp only
      exact pathMapping?_congr h.metamodel hvalues ((h.typesIn? _).2 _)
    · rw [e, e']

/-- **A path leads to the same field.** -/
theorem mapping? (id : Nat) : a.mapping? id = b.mapping? id := h.mappingIn? _ id

theorem fieldOf? (name field : String) : a.fieldOf? name field = b.fieldOf? name field := by
  rw [QueryContext.fieldOf?, QueryContext.fieldOf?, h.variableType?]

theorem mappingType? (mapping : Mapping) : a.mappingType? mapping = b.mappingType? mapping := by
  rw [QueryContext.mappingType?, QueryContext.mappingType?, h.metamodel]

theorem qualifiedType? (root : Nat) {left right : List (Located String)}
    (hvalues : left.map (·.value) = right.map (·.value)) :
    a.qualifiedType? root left = b.qualifiedType? root right := by
  unfold QueryContext.qualifiedType?
  rw [Located.dropLast_of_values hvalues, h.metamodel]
  rcases h.tree.kind_cases root with e | ⟨_, _, _, _, _, e, e', -⟩ | ⟨_, _, e, e'⟩
  · rw [e]
  · rw [e, e']
  · rw [e, e']

/-- **A path denotes the same type.** -/
theorem pathType? (id : Nat) : a.pathType? id = b.pathType? id := by
  have hpath : ∀ {root : Nat} {left right : List (Located String)},
      left.map (·.value) = right.map (·.value) →
      (if left.isEmpty then none else (a.qualifiedType? root left).or do
        let owner ← a.ownerOf? (← a.expressionType? root) left.dropLast
        a.metamodel.type? owner.typeName) =
      (if right.isEmpty then none else (b.qualifiedType? root right).or do
        let owner ← b.ownerOf? (← b.expressionType? root) right.dropLast
        b.metamodel.type? owner.typeName) := by
    intro root left right hvalues
    have hempty : left.isEmpty = right.isEmpty := by
      rw [← List.isEmpty_map, hvalues, List.isEmpty_map]
    simp only [hempty, h.qualifiedType? root hvalues, h.expressionType?, h.metamodel,
      ownerOf?_congr h.metamodel (Located.dropLast_of_values hvalues)]
  unfold QueryContext.pathType?
  rw [h.mapping?]
  split
  · exact h.mappingType? _
  · rcases h.tree.kind_cases id with e | ⟨_, root, left, right, _, e, e', hvalues⟩ | ⟨_, _, e, e'⟩
    · rw [e]
      split
      · exact hpath rfl
      · rfl
    · rw [e, e']
      exact hpath hvalues
    · rw [e, e']

theorem isCollectionVariable (name : String) :
    a.isCollectionVariable name = b.isCollectionVariable name := by
  unfold QueryContext.isCollectionVariable
  rw [h.binding?]
  simp only [h.mapping?]

/-! ### Rules -/

theorem statePath (id : Nat) {left right : List (Located String)} (associationAllowed : Bool)
    (hvalues : left.map (·.value) = right.map (·.value)) :
    a.statePath id left associationAllowed = b.statePath id right associationAllowed := by
  unfold QueryContext.statePath
  rw [h.mapping?, h.pathType?, unmappedVerdict_congr hvalues]

theorem collectionPath? (id : Nat) (collectionOnly : Bool) :
    a.collectionPath? id collectionOnly = b.collectionPath? id collectionOnly := by
  unfold QueryContext.collectionPath?
  rw [h.mapping?]
  simp only [h.mappingType?]

theorem updateTarget? (name : String) {left right : List (Located String)}
    (hvalues : left.map (·.value) = right.map (·.value)) :
    a.updateTarget? name left = b.updateTarget? name right := by
  unfold QueryContext.updateTarget?
  rw [h.variableType?]
  simp only [targetBelow?_congr h.metamodel hvalues]

theorem schemaName? (name : String) : a.schemaName? name = b.schemaName? name := by
  unfold QueryContext.schemaName?
  rw [h.metamodel, h.isSubquery, h.virtualVariable?]
  simp only [h.fieldOf?]

theorem misplaced :
    (Declaration.misplaced a.tree a.declarations).map (·.value) =
      (Declaration.misplaced b.tree b.declarations).map (·.value) := by
  rw [h.tree.misplaced, QueryContext.declarations, QueryContext.declarations, h.innermost]

theorem duplicates : a.duplicates.map Problem.outline = b.duplicates.map Problem.outline := by
  have hlocal : a.localVariables = b.localVariables := by
    rw [localVariables, localVariables, h.innermost]
  rw [QueryContext.duplicates, QueryContext.duplicates, List.map_map, List.map_map, hlocal]
  rfl

/-- **The same variables are undeclared**; a variable has its name in both trees. -/
theorem undeclared {used : List Nat} (hused : ∀ id ∈ used, a.tree.IsVariable id) :
    (a.undeclared used).map Problem.outline = (b.undeclared used).map Problem.outline := by
  have hall : a.allVariables = b.allVariables := by
    rw [allVariables, allVariables, h.scopes]
  have htext : ∀ id ∈ used, a.tree.variableText id = b.tree.variableText id := by
    intro id hid
    obtain ⟨name, isVirtual, path, hkind⟩ := hused id hid
    have hother : b.tree.kind id = .identifier name isVirtual path := by
      have halike := h.tree.kind id
      rw [hkind] at halike
      generalize b.tree.kind id = kind at halike
      cases halike
      rfl
    unfold Tree.variableText
    rw [hkind, hother]
  have hfilter : (used.filter fun node => !b.allVariables.contains (a.tree.variableText node)) =
      used.filter fun node => !b.allVariables.contains (b.tree.variableText node) :=
    List.filter_congr fun id hid => by rw [htext id hid]
  rw [QueryContext.undeclared, QueryContext.undeclared, List.map_map, List.map_map, hall,
    hfilter]
  rfl

end Alike

end QueryContext

end Jpql
