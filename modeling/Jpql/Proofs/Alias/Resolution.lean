import Jpql.Proofs.Alias.Pair
import Jpql.Check.NameRule
import Jpql.Proofs.Layout.Scope
import Jpql.Proofs.Place.Draft

/-! # What names mean with and without the alias

The virtual variable of the one statement and the alias of the other are bound to the same entity, so
the same path leads to the same field, and breaks the same rules (`Aliasing.statePath_eq`,
`Aliasing.collectionPath?_eq`, `Aliasing.updateTarget?_eq`). There is one exception: the words of a path
that starts at a written variable may be read as the name of a type.

* `QueryContext.RangesOver`: a context in which one variable ranges over one entity. -/

namespace Jpql

namespace QueryContext

/-! ## One variable over one entity -/

/-- **Nothing is declared but one variable, which ranges over an entity.** -/
structure RangesOver (context : QueryContext) (entity name : String) (isVirtual : Bool) : Prop where
  subqueries : context.subqueries = []
  outermost : ∃ range root declared,
    context.tree.kind declared = .identifier name isVirtual none ∧ context.outermost =
      ⟨[⟨.range, range, root, some entity, some name, some declared, []⟩], []⟩

namespace RangesOver

variable {context : QueryContext} {entity name : String} {isVirtual : Bool}
  (h : context.RangesOver entity name isVirtual)

include h

theorem binding? : context.binding? name = some (.entity entity) := by
  obtain ⟨range, root, declared, -, hscope⟩ := h.outermost
  have hdeclares : ∀ {base : NodeId}, (⟨.range, range, base, some entity, some name, some declared, []⟩ :
      Declaration).declaresVariable name = true := Text.sameWord_refl name
  rw [QueryContext.binding?, scopes, h.subqueries, hscope]
  simp [Declaration.declares, hdeclares, Declaration.binding?]

theorem virtualVariable? : context.virtualVariable? = if isVirtual then some name else none := by
  obtain ⟨range, root, declared, hdeclared, hscope⟩ := h.outermost
  have hname : virtualName? context.tree
      ⟨.range, range, root, some entity, some name, some declared, []⟩ =
        if isVirtual then some name else none := by
    simp only [virtualName?, Option.bind_eq_bind, Option.bind_some, hdeclared]
    cases isVirtual <;> rfl
  rw [QueryContext.virtualVariable?, hscope]
  simp [hname]

/-- The variable has the type of the entity, however many steps there are. -/
theorem variableTypeIn? (steps : Nat) :
    context.variableTypeIn? (steps + 1) name = context.metamodel.entity? entity := by
  cases he : context.metamodel.entity? entity with
  | some type => simp only [QueryContext.variableTypeIn?, h.binding?, he]
  | none =>
    induction steps with
    | zero => simp [QueryContext.variableTypeIn?, h.binding?, he]
    | succ steps ih =>
      rw [QueryContext.variableTypeIn?, h.binding?]
      simp only [he, h.virtualVariable?]
      cases isVirtual
      · rfl
      · simp [ih]

theorem variableType? : context.variableType? name = context.metamodel.entity? entity :=
  h.variableTypeIn? 32

theorem expressionTypeIn? {root : NodeId} (hroot : context.tree.kind root = .identifier name isVirtual none)
    (steps : Nat) : context.expressionTypeIn? (steps + 2) root = context.metamodel.entity? entity := by
  rw [QueryContext.expressionTypeIn?, hroot]
  exact h.variableTypeIn? steps

/-- **A path leads from the entity to its last field.** -/
theorem mapping? {path root : NodeId} {kind : PathKind} {segments : List (Located String)} {dot : Bool}
    (hpath : context.tree.kind path = .path kind root segments dot)
    (hroot : context.tree.kind root = .identifier name isVirtual none) : context.mapping? path =
      context.pathMapping? (fun _ => context.metamodel.entity? entity) root segments := by
  rw [QueryContext.mapping?, resolutionLimit, mappingIn?, hpath]
  exact pathMapping?_congr rfl rfl (h.expressionTypeIn? hroot 29)

/-- A path without a mapping denotes the type that its words spell out, or the one that would own its
last field. -/
theorem pathType?_of_none {path root : NodeId} {kind : PathKind} {segments : List (Located String)}
    {dot : Bool} (hpath : context.tree.kind path = .path kind root segments dot)
    (hroot : context.tree.kind root = .identifier name isVirtual none)
    (hnone : context.mapping? path = none) : context.pathType? path =
      if segments.isEmpty then none
      else (context.qualifiedType? root segments).or (do
        let owner ← context.ownerOf? (← context.metamodel.entity? entity) segments.dropLast
        context.metamodel.type? owner.typeName) := by
  have htype : context.expressionType? root = context.metamodel.entity? entity :=
    h.expressionTypeIn? hroot 31
  rw [QueryContext.pathType?, hnone]
  dsimp only
  rw [hpath]
  dsimp only
  rw [htype]

/-! ### Rules -/

/-- The entity is looked up by its name. -/
theorem schemaName? : context.schemaName? entity =
    if (context.metamodel.entity? entity).isSome then none else some .schemaNameInvalid := by
  rw [QueryContext.schemaName?, isSubquery, h.subqueries]
  rfl

theorem localVariables : ∃ declared,
    context.localVariables = ⟨[(Text.upperCase name, [declared])]⟩ := by
  obtain ⟨range, root, declared, -, hscope⟩ := h.outermost
  refine ⟨declared, ?_⟩
  rw [QueryContext.localVariables, innermost, h.subqueries, hscope]
  rfl

theorem duplicates : context.duplicates = [] := by
  obtain ⟨declared, hlocal⟩ := h.localVariables
  rw [QueryContext.duplicates, hlocal]
  rfl

theorem allVariables : context.allVariables = context.localVariables := by
  rw [QueryContext.allVariables, scopes, QueryContext.localVariables, innermost, h.subqueries]
  rfl

/-- **The variable is declared.** -/
theorem undeclared {used : List NodeId}
    (hused : ∀ id ∈ used, context.tree.kind id = .identifier name isVirtual none) :
    context.undeclared used = [] := by
  obtain ⟨declared, hlocal⟩ := h.localVariables
  rw [QueryContext.undeclared, List.map_eq_nil_iff, List.filter_eq_nil_iff]
  intro id hid
  have htext : context.tree.variableText id = name := by rw [Tree.variableText, hused id hid]
  rw [htext, h.allVariables, hlocal]
  simp [DeclaredVariables.contains]

end RangesOver

end QueryContext

/-! ## Both statements -/

/-- **Behind the alias no path spells out a type**, unless it leads to a field. -/
def Tree.SpellsNoType (tree : Tree) (metamodel : Metamodel) (v : String) : Prop :=
  ∀ id < tree.size, (tree.kind id).isPath = true →
    (QueryContext.ofTree tree metamodel).mapping? id = none →
    metamodel.type? (".".intercalate (v :: (tree.kind id).segments.dropLast.map (·.value))) = none

instance (tree : Tree) (metamodel : Metamodel) (v : String) :
    Decidable (tree.SpellsNoType metamodel v) :=
  inferInstanceAs (Decidable (∀ id < tree.size, _ → _ → _))

namespace Aliasing

variable (A : Aliasing) (metamodel : Metamodel)

/-- What the statement without alias is checked in. -/
def before : QueryContext := .ofTree A.left metamodel

/-- What the statement with its alias is checked in. -/
def after : QueryContext := .ofTree A.right metamodel

variable {A metamodel} {entity name : String} {id root : Nat} {kind : PathKind}
  {segments others : List (Located String)} {dot : Bool}

section

variable (h : A.Over entity name)

include h

theorem Over.rangesBefore : (A.before metamodel).RangesOver entity name true where
  subqueries := rfl
  outermost := by
    obtain ⟨range, root, declared, hdeclared, hscope⟩ := h.before
    have hstatement : QueryContext.statementOf A.left = A.statement := A.isQuery.statementOf_eq
    refine ⟨range, root, declared, hdeclared, ?_⟩
    show Scope.ofStatement A.left (QueryContext.statementOf A.left) = _
    rw [hstatement, hscope]

theorem Over.rangesAfter : (A.after metamodel).RangesOver entity A.v false where
  subqueries := rfl
  outermost := by
    obtain ⟨range, root, declared, hdeclared, hscope⟩ := h.after
    have hroot := kind_image_of A.isQuery.root (by simp) rfl rfl
    have hstatement : QueryContext.statementOf A.right = A.image A.statement := by
      rw [QueryContext.statementOf, show A.right.root = A.image A.left.root from A.aliased.root, hroot]
      rfl
    refine ⟨range, root, declared, hdeclared, ?_⟩
    show Scope.ofStatement A.right (QueryContext.statementOf A.right) = _
    rw [hstatement, hscope]

/-- The virtual variable of the one statement is the alias of the other. -/
theorem Over.kind_root (hk : A.left.kind id = .path kind root segments dot) :
    A.left.kind root = .identifier name true none ∧
      A.right.kind (A.image root) = .identifier A.v false none := by
  obtain ⟨owner, hroot⟩ := Aliasing.kind_root hk
  obtain rfl := h.name root owner hroot
  exact ⟨hroot, kind_image_of hroot (by simp) rfl rfl⟩

/-- **A path leads to the same field.** -/
theorem Over.mapping? (hk : A.left.kind id = .path kind root segments dot) :
    (A.after metamodel).mapping? (A.image id) = (A.before metamodel).mapping? id := by
  obtain ⟨hleft, hright⟩ := h.kind_root hk
  obtain ⟨other, others, hother, hvalues, -⟩ := path_image hk
  rw [h.rangesAfter.mapping? hother hright, h.rangesBefore.mapping? hk hleft]
  exact (QueryContext.pathMapping?_congr rfl hvalues rfl).symm

/-- **A state-field path comes to the same**, unless the alias makes the name of a type of it. -/
theorem Over.statePath (hfree : A.left.SpellsNoType metamodel A.v)
    (hk : A.left.kind id = .path kind root segments dot)
    (hk' : A.right.kind (A.image id) = .path kind (A.image root) others dot)
    (hvalues : segments.map (·.value) = others.map (·.value)) (associationAllowed : Bool) :
    (A.after metamodel).statePath (A.image id) others associationAllowed =
      (A.before metamodel).statePath id segments associationAllowed := by
  have hmapping : (A.after metamodel).mapping? (A.image id) = _ := h.mapping? hk
  rw [QueryContext.statePath, QueryContext.statePath, hmapping]
  cases hnone : (A.before metamodel).mapping? id with
  | some mapping => rfl
  | none =>
    obtain ⟨hleft, hright⟩ := h.kind_root hk
    have hdrop := Located.dropLast_of_values hvalues
    have hempty : segments.isEmpty = others.isEmpty := by
      rw [← List.isEmpty_map, hvalues, List.isEmpty_map]
    have hqualified : (A.before metamodel).qualifiedType? root segments = none := by
      rw [QueryContext.qualifiedType?, show (A.before metamodel).tree.kind root = _ from hleft]
    have hqualified' : (A.after metamodel).qualifiedType? (A.image root) others = none := by
      rw [QueryContext.qualifiedType?, show (A.after metamodel).tree.kind (A.image root) = _ from hright]
      dsimp only
      have hnotype := hfree id (Tree.lt_size_of_kind (by rw [hk]; simp)) (by rw [hk]; rfl) hnone
      rw [hk] at hnotype
      rw [← hdrop]
      exact hnotype
    have howner := QueryContext.ownerOf?_congr (a := A.before metamodel) (b := A.after metamodel) rfl hdrop
    have htype : (A.after metamodel).pathType? (A.image id) = (A.before metamodel).pathType? id := by
      rw [h.rangesAfter.pathType?_of_none hk' hright (hmapping.trans hnone),
        h.rangesBefore.pathType?_of_none hk hleft hnone, hqualified, hqualified', hempty]
      simp only [howner]
      rfl
    dsimp only
    rw [htype]
    exact (QueryContext.unmappedVerdict_congr hvalues _).symm

theorem Over.collectionPath? (hk : A.left.kind id = .path kind root segments dot)
    (collectionOnly : Bool) : (A.after metamodel).collectionPath? (A.image id) collectionOnly =
      (A.before metamodel).collectionPath? id collectionOnly := by
  rw [QueryContext.collectionPath?, QueryContext.collectionPath?, h.mapping? hk]
  rfl

theorem Over.updateTarget? (hvalues : segments.map (·.value) = others.map (·.value)) :
    (A.after metamodel).updateTarget? A.v others =
      (A.before metamodel).updateTarget? name segments := by
  rw [QueryContext.updateTarget?, QueryContext.updateTarget?, h.rangesAfter.variableType?,
    h.rangesBefore.variableType?]
  have hbelow := QueryContext.targetBelow?_congr (a := A.before metamodel) (b := A.after metamodel) rfl
    hvalues
  simp only [hbelow]
  rfl

theorem Over.schemaName? {other : String} (hk : A.left.kind id = .schemaName other) :
    (A.after metamodel).schemaName? other = (A.before metamodel).schemaName? other := by
  obtain rfl := h.entity id other hk
  rw [h.rangesAfter.schemaName?, h.rangesBefore.schemaName?]
  rfl

end

/-! ### Questions to the trees -/

/-- Both paths are resolved. -/
theorem isResolvedRoot (hk : A.left.kind id = .path kind root segments dot) :
    A.left.isResolvedRoot root = true ∧ A.right.isResolvedRoot (A.image root) = true := by
  obtain ⟨owner, hroot⟩ := kind_root hk
  have hroot' := kind_image_of hroot (by simp) rfl rfl
  rw [Tree.isResolvedRoot, Tree.isResolvedRoot, hroot, hroot']
  exact ⟨rfl, rfl⟩

/-- The path at a node has its own node. -/
theorem pathBehind?_image (hlt : id < A.left.size) :
    A.right.pathBehind? (A.image id) = (A.left.pathBehind? id).map A.image := by
  rcases Bool.eq_false_or_eq_true (A.left.kind id).isField with hfield | hfield
  · obtain ⟨_, path, _, _, _, _, hk, -, hpath, -⟩ := field_cases hfield
    obtain ⟨_, _, hother, -, -⟩ := path_image hpath
    have himage : A.image path = A.image id := by
      rw [← image_behind id, behind_of_kind hk]
    rw [himage] at hother
    rw [Tree.pathBehind?, Tree.pathBehind?, hk, hother]
    exact congrArg some himage.symm
  · cases hk : A.left.kind id with
    | path =>
      obtain ⟨_, _, hother, -, -⟩ := path_image hk
      rw [Tree.pathBehind?, Tree.pathBehind?, hk, hother]
      rfl
    | identifier name isVirtual behind =>
      obtain rfl := isVirtual_of_kind hk
      cases behind with
      | none =>
        rw [Tree.pathBehind?, Tree.pathBehind?, hk, kind_image_of hk (by simp) rfl rfl]
        rfl
      | some path =>
        rw [hk] at hfield
        cases hfield
    | _ =>
      have hk' := kind_image hlt hfield (by rw [hk]; rfl)
      rw [hk] at hk'
      rw [Tree.pathBehind?, Tree.pathBehind?, hk, hk']
      rfl

theorem behind_of_pathBehind? {path : Nat} (h : A.left.pathBehind? id = some path) :
    path = A.left.behind id ∧ (A.left.kind path).isPath = true := by
  unfold Tree.pathBehind? at h
  split at h
  · next hk =>
    obtain rfl := Option.some.inj h
    exact ⟨(behind_eq_self (by rw [hk]; rfl)).symm, by rw [hk]; rfl⟩
  · next name path hk =>
    obtain rfl := Option.some.inj h
    obtain ⟨_, _, _, _, hpath, -⟩ := A.isQuery.virtual_path hk
    exact ⟨(behind_of_kind hk).symm, by rw [hpath]; rfl⟩
  · cases h

theorem statePathBehind?_image (hlt : id < A.left.size) (hkept : A.Kept id) :
    A.right.statePathBehind? (A.image id) = (A.left.statePathBehind? id).map A.image := by
  rw [Tree.statePathBehind?, Tree.statePathBehind?, pathBehind?_image hlt]
  cases hpath : A.left.pathBehind? id with
  | none => rfl
  | some path =>
    obtain ⟨rfl, -⟩ := behind_of_pathBehind? hpath
    have hstate : A.right.isStatePath (A.image (A.left.behind id)) =
        A.left.isStatePath (A.left.behind id) := by
      rw [image_behind]
      exact hkept
    simp only [Option.map_some, Option.filter_some, hstate]
    split <;> rfl

/-- What renaming keeps, and no variable or path has, holds of a node in both trees. -/
theorem predicate_image {p : NodeKind → Bool}
    (hrenamed : ∀ v f kind, p (NodeKind.renamed v f kind) = p kind)
    (hplain : ∀ kind : NodeKind, (kind.isPath || kind.isVariable) = true → p kind = false)
    (hlt : id < A.left.size) : p (A.right.kind (A.image id)) = p (A.left.kind id) := by
  rcases Bool.eq_false_or_eq_true (A.left.kind (A.left.behind id)).isPath with hpath | hpath
  · have hleft : (A.left.kind id).isPath || (A.left.kind id).isVariable := by
      rcases Bool.eq_false_or_eq_true (A.left.kind id).isField with hfield | hfield
      · obtain ⟨_, _, _, _, _, _, hk, -, -, -⟩ := field_cases hfield
        rw [hk]
        rfl
      · rw [behind_eq_self hfield] at hpath
        rw [hpath]
        rfl
    cases hk : A.left.kind (A.left.behind id) <;> rw [hk] at hpath <;>
      first | exact absurd hpath Bool.false_ne_true | skip
    obtain ⟨_, _, hother, -, -⟩ := path_image hk
    rw [image_behind] at hother
    rw [hplain _ hleft, hother, hplain _ rfl]
  · rcases Bool.eq_false_or_eq_true (A.left.kind id).isField with hfield | hfield
    · obtain ⟨_, _, _, _, _, _, hk, -, hk', -⟩ := field_cases hfield
      rw [behind_of_kind hk, hk'] at hpath
      cases hpath
    · rw [behind_eq_self hfield] at hpath
      rw [kind_image hlt hfield hpath, hrenamed]

theorem isStatement_image (hlt : id < A.left.size) :
    (A.right.kind (A.image id)).isStatement = (A.left.kind id).isStatement :=
  predicate_image (fun v f kind => by unfold NodeKind.renamed; split <;> rfl)
    (fun kind h => by cases kind <;> first | rfl | cases h) hlt

theorem isLogical_image (hlt : id < A.left.size) :
    (A.right.kind (A.image id)).isLogical = (A.left.kind id).isLogical :=
  predicate_image (fun v f kind => by unfold NodeKind.renamed; split <;> rfl)
    (fun kind h => by cases kind <;> first | rfl | cases h) hlt

theorem isTreat_image (hlt : id < A.left.size) :
    (A.right.kind (A.image id)).isTreat = (A.left.kind id).isTreat :=
  predicate_image (fun v f kind => by unfold NodeKind.renamed; split <;> rfl)
    (fun kind h => by cases kind <;> first | rfl | cases h) hlt

/-! ### Chains -/

/-- Nodes keep their order, a bare field and its path aside. -/
theorem image_lt {child : Nat} (hfield : (A.left.kind id).isField = false) (hlt : child < id) :
    A.image child < A.image id := by
  rw [← image_behind child]
  refine Nat.lt_of_lt_of_eq (Tree.image_lt_rank (not_isField_behind child) ?_)
    (Tree.image_eq_rank hfield).symm
  exact Nat.lt_of_le_of_lt (behind_le child) hlt

theorem chainFrom_of_not_isLogical {tree : Tree} (h : (tree.kind id).isLogical = false) (depth : Nat)
    (rest : List Nat) : tree.chainFrom depth id rest = id :: rest := by
  cases depth with
  | zero => rfl
  | succ depth =>
    unfold Tree.chainFrom
    split
    · next hk =>
      rw [hk] at h
      cases h
    · rfl

theorem chainFrom_image (depth other : Nat) (hdepth : id < depth) (hother : A.image id < other)
    (rest : List Nat) (hlt : id < A.left.size) :
    A.right.chainFrom other (A.image id) (rest.map A.image) =
      (A.left.chainFrom depth id rest).map A.image := by
  induction depth generalizing id other rest with
  | zero => exact absurd hdepth (Nat.not_lt_zero id)
  | succ depth ih =>
    rcases Bool.eq_false_or_eq_true (A.left.kind id).isLogical with hlogical | hlogical
    · obtain ⟨connective, left, right, hk⟩ := NodeKind.exists_of_isLogical hlogical
      have hk' := kind_image_of hk (by simp) rfl rfl
      have hless : left < id := A.isQuery.wellFormed.child_lt (by
        rw [Tree.children, hk]
        exact List.mem_cons_self)
      have himage := image_lt (by rw [hk]; rfl) hless
      obtain ⟨other, rfl⟩ := Nat.exists_eq_add_one_of_ne_zero (Nat.ne_of_gt (Nat.zero_lt_of_lt hother))
      rw [Tree.chainFrom, hk', Tree.chainFrom, hk]
      exact ih other (Nat.lt_of_lt_of_le hless (Nat.le_of_lt_succ hdepth))
        (Nat.lt_of_lt_of_le himage (Nat.le_of_lt_succ hother)) (right :: rest) (Nat.lt_trans hless hlt)
    · rw [chainFrom_of_not_isLogical hlogical,
        chainFrom_of_not_isLogical ((isLogical_image hlt).trans hlogical), List.map_cons]

/-- **The operands of a chain are the same.** -/
theorem chainOperands_image (hlt : id < A.left.size) :
    A.right.chainOperands (A.image id) = (A.left.chainOperands id).map A.image :=
  chainFrom_image (id + 1) (A.image id + 1) (Nat.lt_succ_self _) (Nat.lt_succ_self _) [] hlt

end Aliasing

end Jpql
