import Jpql.Proofs.Check.Report

/-! # Operands that must be basic values

Where a query text passes its validation, no operand of arithmetic, of an ordering comparison, of a
function or of an ordering leads to a collection or to a field that is not stored. No operand that the
check takes as basic leads to an association (`validate_basic`). Later arguments of some functions are
not taken so, nor is what stands in parentheses. -/

namespace Jpql

namespace NodeKind

/-- **The operands that are checked as basic values.** -/
def checkedOperands : NodeKind → List NodeId
  | .comparison left operator right => if operator.isOrdering then [left, right] else []
  | .arithmetic _ left right => [left, right]
  | .sign _ operand | .basicFunction _ operand | .orderByItem operand _ _ => [operand]
  | .aggregate .count _ _ => []
  | .aggregate _ _ operand => [operand]
  | .concat operands => operands
  | .trim _ _ _ text => [text]
  | .mod first _ | .like first _ _ _ | .locate first _ _ | .substring first _ _ => [first]
  | _ => []

/-- The other arguments of the same functions and conditions. -/
def laterOperands : NodeKind → List NodeId
  | .trim _ character _ _ => character.toList
  | .mod _ second => [second]
  | .like _ _ second third | .locate _ second third | .substring _ second third =>
    second :: third.toList
  | _ => []

variable {kind : NodeKind} {operand : Nat}

theorem demands_of_checked (h : operand ∈ kind.checkedOperands) :
    (operand, Demand.basic) ∈ kind.demands := by
  cases kind with
  | comparison left operator right =>
    cases hop : operator.isOrdering <;> simp_all [checkedOperands, demands]
  | aggregate function => cases function <;> simp_all [checkedOperands, demands]
  | _ => simp_all [checkedOperands, demands]

theorem demands_of_later (h : operand ∈ kind.laterOperands) :
    (operand, Demand.value) ∈ kind.demands := by
  cases kind <;> simp_all [laterOperands, demands]

theorem not_isPathPart_of_operand (h : operand ∈ kind.checkedOperands ++ kind.laterOperands) :
    kind.isPathPart = false := by
  cases kind <;> first | rfl | simp [checkedOperands, laterOperands] at h

end NodeKind

/-- **An expression with parentheses around it removed.** -/
inductive Tree.Wraps (tree : Tree) : Nat → Nat → Prop
  | refl (id : Nat) : Wraps tree id id
  | group {id expression inner : Nat} (hk : tree.kind id = .group expression)
      (h : Wraps tree expression inner) : Wraps tree id inner

/-- A path in order leads to a single field that is stored. Where it must be basic, that field is no
association. -/
theorem QueryContext.mapping_of_pathProblems {context : QueryContext} {demand : Demand} {path root : Nat}
    {segments : List (Located String)} {name : String} {isVirtual : Bool} {behind : Option Nat}
    {mapping : Mapping} (hdemand : demand = .value ∨ demand = .basic)
    (hpath : context.tree.kind path = .path .stateField root segments false)
    (hroot : context.tree.kind root = .identifier name isVirtual behind)
    (hmapping : context.mapping? path = some mapping) (h : context.pathProblems demand path = []) :
    mapping.kind.isCollection = false ∧ mapping.kind.isTransient = false ∧
      (demand = .basic → mapping.kind.isRelationship = false) := by
  have hresolved : context.tree.isResolvedRoot root = true := by
    rw [Tree.isResolvedRoot, hroot]
  have hverdict : context.tree.verdictProblems path segments
      (mappedVerdict (demand != .basic) mapping) = [] := by
    rw [pathProblems, hpath] at h
    rcases hdemand with rfl | rfl
    all_goals
      rw [← h]
      simp only [hresolved, statePath, hmapping]
      rfl
  unfold mappedVerdict at hverdict
  split_ifs at hverdict with hcollection hassociation htransient
  all_goals cases hverdict
  refine ⟨by simpa using hcollection, by simpa using htransient, ?_⟩
  rintro rfl
  simpa using hassociation

namespace Check.Input

variable {q : Input} {operation operand inner path : Nat}

/-- What is asked of the path in an operand: what is asked of the operand, or in parentheses a value. -/
theorem demand_wrapped {demand : Demand} (hmem : (operand, demand) ∈ (q.tree.kind operation).demands)
    (hvar : ∀ name isVirtual behind, q.tree.kind operation ≠ .identifier name isVirtual behind)
    (htreat : (q.tree.kind operation).isTreat = false) (hwraps : q.tree.Wraps operand inner)
    (hpath : q.tree.pathBehind? inner = some path) :
    q.tree.demand path = demand ∨ inner ≠ operand ∧ q.tree.demand path = .value := by
  induction hwraps generalizing operation demand with
  | refl =>
    exact .inl (demand_behind hmem hvar (fun hyes => absurd (htreat.symm.trans hyes) (by simp)) hpath)
  | @group operand expression inner hk hwraps ih =>
    have hmem : (expression, Demand.value) ∈ (q.tree.kind operand).demands := by
      rw [hk]
      exact List.mem_cons_self
    have hvalue := ih hmem (by simp [hk]) (by rw [hk]; rfl) hpath
    refine .inr ⟨?_, hvalue.elim id And.right⟩
    rintro rfl
    rw [Tree.pathBehind?, hk] at hpath
    cases hpath

end Check.Input

/-- **Where a text passes its validation, the operands that must be basic are so**: a path among them that
starts at a variable and leads to a field leads to no collection, and to one that is stored. If the
operand is checked as a basic value, and not in parentheses, the field is no association. -/
theorem validate_basic {source rule : String} {metamodel : Metamodel} {outcome : Parsed}
    (hvalidate : validate source rule metamodel .standard = .ok outcome) (hclean : outcome.problems = [])
    {operation operand inner path root : Nat} {segments : List (Located String)} {name : String}
    {isVirtual : Bool} {behind : Option Nat} {mapping : Mapping}
    (hoperand : operand ∈ (outcome.tree.kind operation).checkedOperands ++
      (outcome.tree.kind operation).laterOperands)
    (hwraps : outcome.tree.Wraps operand inner) (hbehind : outcome.tree.pathBehind? inner = some path)
    (hpath : outcome.tree.kind path = .path .stateField root segments false)
    (hroot : outcome.tree.kind root = .identifier name isVirtual behind)
    (hmapping : (QueryContext.within outcome.tree metamodel path).mapping? path = some mapping) :
    mapping.kind.isCollection = false ∧ mapping.kind.isTransient = false ∧
      (operand ∈ (outcome.tree.kind operation).checkedOperands → inner = operand →
        mapping.kind.isRelationship = false) := by
  obtain ⟨parsed, hparse⟩ : ∃ parsed,
      parse source rule ValidationOptions.standard.maxNestingDepth = .ok parsed := by
    cases hparse : parse source rule ValidationOptions.standard.maxNestingDepth with
    | ok parsed => exact ⟨parsed, rfl⟩
    | error error =>
      rw [validate, hparse] at hvalidate
      cases hvalidate
  have hnone : parsed.problems = [] := by
    rw [validate, hparse] at hvalidate
    obtain rfl := Except.ok.inj hvalidate
    exact (List.append_eq_nil_iff.mp hclean).1
  obtain ⟨q, htree, rfl, -, hok⟩ := validate_of_clean metamodel hparse hnone
  obtain rfl := Except.ok.inj (hok.symm.trans hvalidate)
  have hnothing : checkTree (.ofTree q.tree q.metamodel) q.env = [] := hclean
  have hlt : path < q.tree.size := Tree.lt_size_of_kind (by rw [htree, hpath]; simp)
  have hfindings : q.findings path = [] := List.eq_nil_iff_forall_not_mem.mpr fun problem hmem => by
    have hreported := ((Check.Input.mem_findings_iff hlt (by simp [hnothing])).mp hmem).1
    rw [hnothing] at hreported
    cases hreported
  dsimp only at hoperand hwraps hbehind hpath hroot hmapping ⊢
  rw [← htree] at hoperand hwraps hbehind hpath hroot hmapping ⊢
  obtain ⟨demand, hmem, hdemand, hchecked⟩ : ∃ demand,
      (operand, demand) ∈ (q.tree.kind operation).demands ∧ (demand = .value ∨ demand = .basic) ∧
      (operand ∈ (q.tree.kind operation).checkedOperands → demand = .basic) := by
    by_cases h : operand ∈ (q.tree.kind operation).checkedOperands
    · exact ⟨.basic, NodeKind.demands_of_checked h, .inr rfl, fun _ => rfl⟩
    · have hlater := (List.mem_append.mp hoperand).resolve_left h
      exact ⟨.value, NodeKind.demands_of_later hlater, .inl rfl, fun hno => absurd hno h⟩
  have hpart := NodeKind.not_isPathPart_of_operand hoperand
  have hasked := Check.Input.demand_wrapped hmem (fun _ _ _ hk => by rw [hk] at hpart; cases hpart)
    (Bool.eq_false_iff.mpr fun htreat => by
      rw [NodeKind.isPathPart_of_isTreat htreat] at hpart
      cases hpart) hwraps hbehind
  rw [Check.Input.findings_path hpath] at hfindings
  have hvalue : q.tree.demand path = .value ∨ q.tree.demand path = .basic := by
    rcases hasked with heq | ⟨-, heq⟩
    · exact heq ▸ hdemand
    · exact .inl heq
  obtain ⟨hcollection, htransient, hrelationship⟩ :=
    QueryContext.mapping_of_pathProblems hvalue hpath hroot hmapping hfindings
  refine ⟨hcollection, htransient, fun h hinner => hrelationship ?_⟩
  rcases hasked with heq | ⟨hne, -⟩
  · exact heq.trans (hchecked h)
  · exact absurd hinner hne

/-- An entity with a number and an association to itself. -/
def selfReferring : Metamodel :=
  Metamodel.initial.withManaged (.entity "E" "m.E" [⟨"a", .basic, "long"⟩, ⟨"b", .manyToOne, "m.E"⟩])

/-- The variable that a state-field path starts at. -/
def Tree.pathVariable? (tree : Tree) (id : Nat) : Option Nat :=
  match tree.kind id with
  | .path .stateField root _ false =>
    match tree.kind root with
    | .identifier .. => some root
    | _ => none
  | _ => none

/-- The arguments of `MOD`. -/
def Tree.modArguments? (tree : Tree) (id : Nat) : Option (Nat × Nat) :=
  match tree.kind id with
  | .mod first second => some (first, second)
  | _ => none

/-- The second argument of `MOD` leads to an association, which no problem is made of. -/
theorem validate_basic_mod : ∃ outcome first second,
    validate "SELECT e FROM E e WHERE MOD(e.a, e.b) = 1" RuleId.statement selfReferring .standard =
      .ok outcome ∧ outcome.problems = [] ∧ outcome.tree.kind 11 = .mod 8 10 ∧
    (QueryContext.within outcome.tree selfReferring 8).mapping? 8 = some first ∧
    (first.kind.isCollection = false ∧ first.kind.isTransient = false ∧
      first.kind.isRelationship = false) ∧
    (QueryContext.within outcome.tree selfReferring 10).mapping? 10 = some second ∧
    second.kind.isCollection = false ∧ second.kind.isTransient = false ∧
    second.kind.isRelationship = true := by
  have hcheck : (match validate "SELECT e FROM E e WHERE MOD(e.a, e.b) = 1" RuleId.statement
        selfReferring .standard with
      | .ok outcome =>
        let kindOf (id : Nat) : Option MappingKind :=
          ((QueryContext.within outcome.tree selfReferring id).mapping? id).map (·.kind)
        outcome.problems.isEmpty && outcome.tree.modArguments? 11 == some (8, 10) &&
          (outcome.tree.pathVariable? 8).isSome && (outcome.tree.pathVariable? 10).isSome &&
          kindOf 8 == some .basic && kindOf 10 == some .manyToOne
      | .error _ => false) = true := by
    decide +kernel
  cases hvalidate : validate "SELECT e FROM E e WHERE MOD(e.a, e.b) = 1" RuleId.statement
      selfReferring .standard with
  | error error =>
    rw [hvalidate] at hcheck
    cases hcheck
  | ok outcome =>
    rw [hvalidate] at hcheck
    simp only [Bool.and_eq_true, beq_iff_eq, List.isEmpty_iff] at hcheck
    obtain ⟨⟨⟨⟨⟨hclean, hmod⟩, hfirst⟩, hsecond⟩, hbasic⟩, hassociation⟩ := hcheck
    have hkind : outcome.tree.kind 11 = .mod 8 10 := by
      unfold Tree.modArguments? at hmod
      split at hmod
      · next hk =>
        obtain ⟨rfl, rfl⟩ := Prod.mk.inj (Option.some.inj hmod)
        exact hk
      · cases hmod
    obtain ⟨first, hfirst', hfirstKind⟩ := Option.map_eq_some_iff.mp hbasic
    obtain ⟨second, hsecond', hsecondKind⟩ := Option.map_eq_some_iff.mp hassociation
    have hchecked : 8 ∈ (outcome.tree.kind 11).checkedOperands := by
      rw [hkind]
      exact List.mem_cons_self
    have hlater : 10 ∈ (outcome.tree.kind 11).laterOperands := by
      rw [hkind]
      exact List.mem_cons_self
    have hbehind : ∀ {id kind root segments dot}, outcome.tree.kind id = .path kind root segments dot →
        outcome.tree.pathBehind? id = some id := fun hk => by rw [Tree.pathBehind?, hk]
    unfold Tree.pathVariable? at hfirst hsecond
    refine ⟨outcome, first, second, rfl, hclean, hkind, hfirst', ?_, hsecond', ?_⟩
    · split at hfirst
      · next hpath =>
        split at hfirst
        · next hroot =>
          obtain ⟨hcollection, htransient, hrelationship⟩ := validate_basic hvalidate hclean
            (List.mem_append_left _ hchecked) (.refl 8) (hbehind hpath) hpath hroot hfirst'
          exact ⟨hcollection, htransient, hrelationship hchecked rfl⟩
        · cases hfirst
      · cases hfirst
    · split at hsecond
      · next hpath =>
        split at hsecond
        · next hroot =>
          obtain ⟨hcollection, htransient, -⟩ := validate_basic hvalidate hclean
            (List.mem_append_right _ hlater) (.refl 10) (hbehind hpath) hpath hroot hsecond'
          exact ⟨hcollection, htransient, by rw [hsecondKind]; rfl⟩
        · cases hsecond
      · cases hsecond

end Jpql
