import Jpql.Proofs.Check.Constant
import Jpql.Proofs.Virtual.Place

/-! # Relationships in the subqueries of a statement without alias

In a subquery of an `UPDATE` or `DELETE` without alias, the name of an entity may also be a relationship of
the entity of the statement. It is looked up below the virtual variable, whose name is searched for from
the innermost scope outwards.

* `Scope.declares`: the names that a scope takes. A subquery that takes the name of the virtual variable
  hides that variable from what lies in it.
* `validate_relationship`: where no subquery does so, a name is accepted just where it is a relationship of
  the entity of the statement. -/

namespace Jpql

/-- **A scope declares a variable** of that name, ignoring case. The names of results do not count. -/
def Scope.declares (scope : Scope) (name : String) : Bool := scope.declarations.any (·.declares name)

/-- **What is wrong with a name that is no relationship of a type.** -/
def ManagedType.relationship? (type : ManagedType) (name : String) : Option ProblemKey :=
  match type.mapping? name with
  | none => some .statePathNotResolvable
  | some mapping => if mapping.kind.isRelationship then none else some .notRelationship

theorem isNamed_asciiLower (bound? : Option String) (word : String) :
    isNamed bound? (Text.asciiLower word) = isNamed bound? word := by
  cases bound? <;> simp [isNamed, Text.sameWord_asciiLower]

theorem Declaration.declares_asciiLower (declaration : Declaration) (word : String) :
    declaration.declares (Text.asciiLower word) = declaration.declares word := by
  simp only [Declaration.declares, Declaration.declaresVariable, JoinDeclaration.declares,
    isNamed_asciiLower]

/-- A scope that takes a name takes it in lower case. -/
theorem Scope.declares_asciiLower (scope : Scope) (word : String) :
    scope.declares (Text.asciiLower word) = scope.declares word := by
  simp only [Scope.declares, Declaration.declares_asciiLower]

namespace Tree

variable {tree : Tree} {statement range : NodeId} {entity : String}

theorem declarations_of_rangeOf (h : RangeOf tree.kind statement range) :
    (Scope.ofStatement tree statement).declarations = [tree.rangeDeclaration range range] := by
  rcases h with ⟨clause, items, condition, hstatement, hclause⟩ | ⟨clause, condition, hstatement, hclause⟩ <;>
    simp only [Scope.ofStatement, hstatement, clauseDeclarations, hclause]

theorem statementOf_of_modifies (h : tree.Modifies statement entity) :
    QueryContext.statementOf tree = statement := by
  obtain ⟨⟨leftover, hroot⟩, -⟩ := h
  rw [QueryContext.statementOf, hroot]

/-- **What a statement without alias declares**: the virtual variable, over the entity. -/
theorem declarations_of_modifies (h : tree.Modifies statement entity) : ∃ range root declared,
    (Scope.ofStatement tree statement).declarations =
      [⟨.range, range, root, some entity, some (Text.asciiLower entity), some declared, []⟩] ∧
    tree.kind declared = .identifier (Text.asciiLower entity) true none := by
  obtain ⟨-, range, hrange, root, declared, hkind, hroot, -, hdeclared, -⟩ := h
  refine ⟨range, root, declared, ?_, hdeclared⟩
  rw [declarations_of_rangeOf hrange]
  simp [rangeDeclaration, hkind, hroot, variableName?, hdeclared]

end Tree

namespace QueryContext

variable {context : QueryContext} {name entity : String} {type : ManagedType}

/-- **A name that no subquery takes is looked up in the scope of the statement.** -/
theorem binding?_of_free (hfree : ∀ scope ∈ context.subqueries, scope.declares name = false) :
    context.binding? name =
      (context.outermost.declarations.find? (·.declares name)).bind (·.binding? name) := by
  have hnone : (context.subqueries.flatMap (·.declarations)).find? (·.declares name) = none := by
    refine List.find?_eq_none.mpr fun declaration hmem hdeclares => ?_
    obtain ⟨scope, hscope, hmem⟩ := List.mem_flatMap.mp hmem
    exact Bool.false_ne_true ((hfree scope hscope).symm.trans (List.any_eq_true.mpr ⟨_, hmem, hdeclares⟩))
  rw [binding?, scopes, List.flatMap_append, List.find?_append, hnone, Option.none_or,
    List.flatMap_singleton]
  rfl

/-! ## The virtual variable -/

section

variable {range root declared : NodeId} (houtermost : context.outermost.declarations =
  [⟨.range, range, root, some entity, some (Text.asciiLower entity), some declared, []⟩])

include houtermost

theorem virtualVariable?_of_range
    (hdeclared : context.tree.kind declared = .identifier (Text.asciiLower entity) true none) :
    context.virtualVariable? = some (Text.asciiLower entity) := by
  rw [virtualVariable?, houtermost, List.findSome?_singleton]
  simp [virtualName?, hdeclared]

variable (hfree : ∀ scope ∈ context.subqueries, scope.declares entity = false)
  (hentity : context.metamodel.entity? entity = some type)

include hfree hentity

/-- **The virtual variable ranges over the entity**, where no subquery takes its name. -/
theorem variableType?_of_free : context.variableType? (Text.asciiLower entity) = some type := by
  refine variableType?_of_entity ?_ hentity
  have hself : isNamed (some (Text.asciiLower entity)) (Text.asciiLower entity) = true := beq_self_eq_true _
  rw [binding?_of_free fun scope hscope => (scope.declares_asciiLower entity).trans (hfree scope hscope),
    houtermost, List.find?_cons_of_pos, Option.bind_some]
  · exact if_pos hself
  · rw [Declaration.declares, Declaration.declaresVariable, hself, Bool.true_or]

/-- **In a subquery, a name that is no entity is looked up as a relationship of that of the statement**,
where no subquery takes the name of the virtual variable. -/
theorem schemaName?_of_free
    (hdeclared : context.tree.kind declared = .identifier (Text.asciiLower entity) true none)
    (hinside : context.isSubquery = true) (hunknown : context.metamodel.entity? name = none) :
    context.schemaName? name = type.relationship? name := by
  rw [schemaName?, hunknown, hinside, if_neg (by simp), if_pos rfl,
    virtualVariable?_of_range houtermost hdeclared]
  dsimp only
  rw [fieldOf?, variableType?_of_free houtermost hfree hentity]
  rfl

end

end QueryContext

namespace Check.Input

variable {q : Input} {id : NodeId} {name entity : String} {type : ManagedType}

theorem findings_schemaName (hk : q.tree.kind id = .schemaName name) :
    q.findings id = ((q.context id).schemaName? name).toList.map (q.tree.problemAt · id) := by
  rw [findings, Tree.findings, hk]
  rfl

/-- What is found at a node, whatever lies too deep, is wrong there. -/
theorem mem_findings_of_reported {problem : Problem}
    (hmem : problem ∈ checkTree (.ofTree q.tree q.metamodel) q.env)
    (hanchor : problem.anchor = some id) (hkey : problem.key.isFinding = true) :
    problem ∈ q.findings id := by
  obtain ⟨n, hfound, -⟩ := q.checkTree_tally.1.times id
  have hmem := mem_foundAt.mpr ⟨hmem, hkey, hanchor⟩
  rw [hfound] at hmem
  obtain ⟨list, hlist, hmem⟩ := List.mem_flatten.mp hmem
  rwa [List.eq_of_mem_replicate hlist] at hmem

section

variable (hmodifies : q.tree.Modifies q.statement entity)

include hmodifies

/-- A statement without alias is a query of its own. -/
theorem isQuery_of_modifies : q.tree.IsQuery q.statement := by
  refine ⟨q.isClean, ?_⟩
  obtain ⟨-, range, hrange, -⟩ := hmodifies
  have hkind := hrange.isModification
  cases hk : q.tree.kind q.statement <;> rw [hk] at hkind <;> first | rfl | cases hkind

/-- **What is wrong with a name that is no entity**, in a subquery of a statement without alias. -/
theorem findings_relationship (hk : q.tree.kind id = .schemaName name)
    (hsub : ∃ outer ∈ q.tree.ancestors id, (q.tree.kind outer).isSubquery = true)
    (hfree : ∀ outer ∈ q.tree.ancestors id, (q.tree.kind outer).isSubquery = true →
      (Scope.ofStatement q.tree outer).declares entity = false)
    (hentity : q.metamodel.entity? entity = some type) (hunknown : q.metamodel.entity? name = none) :
    q.findings id = (type.relationship? name).toList.map (q.tree.problemAt · id) := by
  obtain ⟨range, root, declared, hdeclarations, hdeclared⟩ := Tree.declarations_of_modifies hmodifies
  have houtermost : (q.context id).outermost = .ofStatement q.tree q.statement :=
    congrArg (Scope.ofStatement q.tree) (Tree.statementOf_of_modifies hmodifies)
  have hsubqueries : (q.context id).subqueries =
      ((q.tree.ancestors id).filter fun outer => (q.tree.kind outer).isSubquery).map
        (Scope.ofStatement q.tree) := by
    rw [context, QueryContext.within_eq_around (isQuery_of_modifies hmodifies)]
    rfl
  rw [← houtermost] at hdeclarations
  rw [findings_schemaName hk,
    QueryContext.schemaName?_of_free hdeclarations ?_ hentity hdeclared ?_ hunknown]
  · intro scope hscope
    rw [hsubqueries] at hscope
    obtain ⟨outer, houter, rfl⟩ := List.mem_map.mp hscope
    exact hfree outer (List.mem_filter.mp houter).1 (List.mem_filter.mp houter).2
  · obtain ⟨outer, houter, hkind⟩ := hsub
    have hmem : Scope.ofStatement q.tree outer ∈ (q.context id).subqueries := by
      rw [hsubqueries]
      exact List.mem_map_of_mem (List.mem_filter.mpr ⟨houter, hkind⟩)
    rw [QueryContext.isSubquery, Bool.not_eq_true', List.isEmpty_eq_false_iff]
    exact List.ne_nil_of_mem hmem

/-- No variable stands where an entity is named. -/
theorem isFinding_of_schemaName (hk : q.tree.kind id = .schemaName name)
    (hwhole : ∀ problem ∈ checkTree (.ofTree q.tree q.metamodel) q.env,
      problem.key ≠ .traversalTooDeep) {problem : Problem}
    (hmem : problem ∈ checkTree (.ofTree q.tree q.metamodel) q.env)
    (hanchor : problem.anchor = some id) : problem.key.isFinding = true := by
  let subject : Subject := ⟨q.tree, q.statement, isQuery_of_modifies hmodifies, q.metamodel, q.env,
    q.updateValues⟩
  rw [ProblemKey.isFinding, Bool.and_eq_true]
  refine ⟨?_, by simpa using hwhole problem hmem⟩
  rw [Bool.not_eq_true', ← Bool.not_eq_true]
  intro hvariable
  obtain ⟨other, _, _, _, hother, hkind, -⟩ := Subject.variable_cases (q := subject) hwhole hmem hvariable
  obtain rfl := Option.some.inj (hanchor.symm.trans hother)
  cases hk.symm.trans hkind

end

end Check.Input

/-- **Names of relationships in a statement without alias.** Take an `UPDATE` or `DELETE` of a known entity
without alias that is read without a problem, and in one of its subqueries a name that is no entity. If no
subquery around it declares a variable with the name of the entity of the statement, what is found there is
that the name is no field of that entity, or no relationship, and nothing else. Unless something lies too
deep all of it is reported, and nothing else is reported there. -/
theorem validate_relationship {source rule : String} {parsed : Parsed} (metamodel : Metamodel)
    (hparse : parse source rule ValidationOptions.standard.maxNestingDepth = .ok parsed)
    (hclean : parsed.problems = []) {statement id : NodeId} {entity name : String} {type : ManagedType}
    (hmodifies : parsed.tree.Modifies statement entity)
    (hentity : metamodel.entity? entity = some type)
    (hname : parsed.tree.kind id = .schemaName name) (hunknown : metamodel.entity? name = none)
    (hsub : ∃ outer ∈ parsed.tree.ancestors id, (parsed.tree.kind outer).isSubquery = true)
    (hfree : ∀ outer ∈ parsed.tree.ancestors id, (parsed.tree.kind outer).isSubquery = true →
      (Scope.ofStatement parsed.tree outer).declares entity = false) :
    ∃ outcome, validate source rule metamodel .standard = .ok outcome ∧
      ∀ problem, problem.anchor = some id →
        (problem ∈ outcome.problems → problem.key.isFinding = true →
          ∃ key ∈ type.relationship? name, problem = parsed.tree.problemAt key id) ∧
        ((∀ other ∈ outcome.problems, other.key ≠ .traversalTooDeep) →
          (problem ∈ outcome.problems ↔
            ∃ key ∈ type.relationship? name, problem = parsed.tree.problemAt key id)) := by
  obtain ⟨q, htree, rfl, -, -, hvalidate⟩ := validate_input metamodel hparse hclean
  refine ⟨_, hvalidate, fun problem hanchor => ?_⟩
  rw [← htree] at hmodifies hname hsub hfree ⊢
  obtain rfl : statement = q.statement := by
    rw [← Tree.statementOf_of_modifies hmodifies, q.isClean.statementOf_eq]
  have hfindings := Check.Input.findings_relationship hmodifies hname hsub hfree hentity hunknown
  have hiff : problem ∈ q.findings id ↔
      ∃ key ∈ type.relationship? name, problem = q.tree.problemAt key id := by
    rw [hfindings, List.mem_map]
    simp [eq_comm]
  refine ⟨fun hmem hkey => hiff.mp (Check.Input.mem_findings_of_reported hmem hanchor hkey),
    fun hwhole => ?_⟩
  have hlt : id < q.tree.size := Tree.lt_size_of_kind (by rw [hname]; simp)
  rw [← hiff, Check.Input.mem_findings_iff hlt hwhole]
  refine ⟨fun hmem => ⟨hmem, ?_, hanchor⟩, And.left⟩
  exact Check.Input.isFinding_of_schemaName hmodifies hname hwhole hmem hanchor

/-! ## Texts -/

namespace Tree

variable {tree : Tree} {statement range id : NodeId} {entity name : String}

/-- The range of an `UPDATE` or `DELETE`. -/
def rangeOf? (tree : Tree) (statement : NodeId) : Option NodeId :=
  match tree.kind statement with
  | .updateStatement clause _ =>
    match tree.kind clause with
    | .updateClause range _ => some range
    | _ => none
  | .deleteStatement clause _ =>
    match tree.kind clause with
    | .deleteClause range => some range
    | _ => none
  | _ => none

/-- The entity of a range without alias. -/
def unaliased? (tree : Tree) (range : NodeId) : Option String :=
  match tree.kind range with
  | .rangeDeclaration root false (some declared) =>
    match tree.kind root, tree.kind declared with
    | .schemaName entity, .identifier name true none =>
      if name = Text.asciiLower entity ∧ tree.span range = tree.span root ∧
        (tree.span declared).start = (tree.span declared).stop then some entity
      else none
    | _, _ => none
  | _ => none

/-- **The statement without alias that a tree consists of**, and its entity. -/
def modified? (tree : Tree) : Option (NodeId × String) :=
  match tree.kind tree.root with
  | .query (some statement) _ =>
    (tree.rangeOf? statement).bind fun range => (tree.unaliased? range).map (statement, ·)
  | _ => none

/-- The name of an entity or relationship at a node. -/
def schemaName? (tree : Tree) (id : NodeId) : Option String :=
  match tree.kind id with
  | .schemaName name => some name
  | _ => none

theorem rangeOf_of_rangeOf? (h : tree.rangeOf? statement = some range) :
    RangeOf tree.kind statement range := by
  unfold rangeOf? at h
  split at h
  · next clause condition hstatement =>
    split at h <;> try cases h
    next items hclause => exact .inl ⟨clause, items, condition, hstatement, hclause⟩
  · next clause condition hstatement =>
    split at h <;> try cases h
    next hclause => exact .inr ⟨clause, condition, hstatement, hclause⟩
  · cases h

theorem unaliased_of_unaliased? (h : tree.unaliased? range = some entity) :
    Unaliased tree.kind tree.span range entity := by
  unfold unaliased? at h
  split at h <;> try cases h
  next root declared hrange =>
  split at h <;> try cases h
  next hroot hdeclared =>
  split_ifs at h with hplace
  cases h
  obtain ⟨rfl, hspan, hempty⟩ := hplace
  exact ⟨root, declared, hrange, hroot, hspan, hdeclared, hempty⟩

theorem modifies_of_modified? (h : tree.modified? = some (statement, entity)) :
    tree.Modifies statement entity := by
  unfold modified? at h
  split at h
  · next hroot =>
    obtain ⟨range, hrange, h⟩ := Option.bind_eq_some_iff.mp h
    obtain ⟨_, hentity, h⟩ := Option.map_eq_some_iff.mp h
    obtain ⟨rfl, rfl⟩ := Prod.mk.inj h
    exact ⟨⟨_, hroot⟩, range, rangeOf_of_rangeOf? hrange, unaliased_of_unaliased? hentity⟩
  · cases h

theorem kind_of_schemaName? (h : tree.schemaName? id = some name) : tree.kind id = .schemaName name := by
  unfold schemaName? at h
  split at h
  · next hk => rw [hk, Option.some.inj h]
  · cases h

end Tree

/-- An entity with a number and a collection. -/
def withRelationship : Metamodel :=
  Metamodel.initial.withManaged (.entity "E" "m.E" [⟨"a", .basic, "long"⟩, ⟨"b", .oneToMany, "m.E"⟩])

/-- One subquery is over a relationship, and another in it over a number. -/
theorem validate_relationship_nested : ∃ parsed outcome,
    parse "DELETE FROM E WHERE EXISTS (SELECT p FROM b p WHERE EXISTS (SELECT q FROM a q))"
      RuleId.statement ValidationOptions.standard.maxNestingDepth = .ok parsed ∧ parsed.problems = [] ∧
    validate "DELETE FROM E WHERE EXISTS (SELECT p FROM b p WHERE EXISTS (SELECT q FROM a q))"
      RuleId.statement withRelationship .standard = .ok outcome ∧
    parsed.tree.Modifies 24 "E" ∧
    parsed.tree.kind 6 = .schemaName "b" ∧ (∀ problem ∈ outcome.problems, problem.anchor ≠ some 6) ∧
    parsed.tree.kind 13 = .schemaName "a" ∧
    parsed.tree.problemAt .notRelationship 13 ∈ outcome.problems := by
  let source := "DELETE FROM E WHERE EXISTS (SELECT p FROM b p WHERE EXISTS (SELECT q FROM a q))"
  have hread : (match parse source RuleId.statement ValidationOptions.standard.maxNestingDepth with
      | .ok parsed =>
        let around (id : Nat) : List Nat :=
          (parsed.tree.ancestors id).filter fun outer => (parsed.tree.kind outer).isSubquery
        parsed.problems.isEmpty && parsed.tree.modified? == some (24, "E") &&
          parsed.tree.schemaName? 6 == some "b" && parsed.tree.schemaName? 13 == some "a" &&
          around 6 == [21] && around 13 == [18, 21] &&
          [18, 21].all fun outer => !(Scope.ofStatement parsed.tree outer).declares "E"
      | .error _ => false) = true := by decide +kernel
  have hcheck : (match validate source RuleId.statement withRelationship .standard with
      | .ok outcome => outcome.problems.all (·.key != .traversalTooDeep)
      | .error _ => false) = true := by decide +kernel
  cases hparse : parse source RuleId.statement ValidationOptions.standard.maxNestingDepth with
  | error e =>
    rw [hparse] at hread
    cases hread
  | ok parsed =>
    rw [hparse] at hread
    simp only [Bool.and_eq_true, beq_iff_eq, List.isEmpty_iff, List.all_eq_true,
      Bool.not_eq_true'] at hread
    obtain ⟨⟨⟨⟨⟨⟨hclean, hmodified⟩, hb⟩, ha⟩, haroundB⟩, haroundA⟩, hfree⟩ := hread
    have hmodifies := Tree.modifies_of_modified? hmodified
    have hnameB := Tree.kind_of_schemaName? hb
    have hnameA := Tree.kind_of_schemaName? ha
    have hinside : ∀ {id : Nat} {subqueries : List Nat},
        (parsed.tree.ancestors id).filter (fun outer => (parsed.tree.kind outer).isSubquery) = subqueries →
        (∀ outer ∈ subqueries, outer ∈ [18, 21]) → 21 ∈ subqueries →
        (∃ outer ∈ parsed.tree.ancestors id, (parsed.tree.kind outer).isSubquery = true) ∧
        ∀ outer ∈ parsed.tree.ancestors id, (parsed.tree.kind outer).isSubquery = true →
          (Scope.ofStatement parsed.tree outer).declares "E" = false := by
      rintro id subqueries rfl hall hmem
      exact ⟨⟨21, (List.mem_filter.mp hmem).1, (List.mem_filter.mp hmem).2⟩,
        fun outer houter hkind => hfree outer (hall outer (List.mem_filter.mpr ⟨houter, hkind⟩))⟩
    obtain ⟨hsubB, hfreeB⟩ := hinside haroundB (by simp) (by simp)
    obtain ⟨hsubA, hfreeA⟩ := hinside haroundA (by simp) (by simp)
    obtain ⟨outcome, hvalidate, hnone⟩ := validate_relationship withRelationship hparse hclean hmodifies
      rfl hnameB rfl hsubB hfreeB
    obtain ⟨_, hsame, hsome⟩ := validate_relationship withRelationship hparse hclean hmodifies rfl
      hnameA rfl hsubA hfreeA
    obtain rfl := Except.ok.inj (hvalidate.symm.trans hsame)
    rw [hvalidate, List.all_eq_true] at hcheck
    have hwhole : ∀ problem ∈ outcome.problems, problem.key ≠ .traversalTooDeep := by simpa using hcheck
    refine ⟨parsed, outcome, rfl, hclean, hvalidate, hmodifies, hnameB, fun problem hmem hanchor => ?_,
      hnameA, ?_⟩
    · obtain ⟨key, hkey, -⟩ := ((hnone problem hanchor).2 hwhole).mp hmem
      cases hkey
    · exact ((hsome _ rfl).2 hwhole).mpr ⟨.notRelationship, rfl, rfl⟩

end Jpql
