import Jpql.Proofs.Check.Reach
import Jpql.Proofs.Check.Report

/-! # Operators on collections

Where a query text passes its validation, what `SIZE`, `IS EMPTY`, `MEMBER OF` and `IN` are over leads to a
collection if it is a path from a variable, and a variable given to `INDEX` is bound to the elements of
one (`validate_collections`). Other operands are visited like any value, and a dot behind a path keeps it
from being looked at. -/

namespace Jpql

namespace NodeKind

/-- **The operands that must be collections.** -/
def collections : NodeKind → List NodeId
  | .size operand | .emptyCheck operand _ | .collectionDeclaration operand _ _ => [operand]
  | .member _ _ _ operand => [operand]
  | _ => []

variable {kind : NodeKind} {operand : Nat}

theorem demands_of_collections (h : operand ∈ kind.collections) :
    (operand, Demand.collection) ∈ kind.demands := by
  cases kind <;> simp_all [collections, demands]

theorem not_isPathPart_of_collections (h : operand ∈ kind.collections) : kind.isPathPart = false := by
  cases kind <;> first | rfl | simp [collections] at h

end NodeKind

namespace Tree

/-- **The path at a node that a check follows**: one from a variable, or from a value, that does not end
with a dot. -/
def followed? (tree : Tree) (id : NodeId) : Option NodeId :=
  (tree.pathBehind? id).filter fun path =>
    match tree.kind path with
    | .path _ root _ endsWithDot => !endsWithDot && tree.isResolvedRoot root
    | _ => false

/-- **The variable that `INDEX` is given.** -/
def indexed? (tree : Tree) (id : NodeId) : Option String :=
  match tree.kind id with
  | .index argument =>
    match tree.kind argument with
    | .identifier name false _ => some name
    | _ => none
  | _ => none

variable {tree : Tree} {id path : Nat} {name : String}

theorem followed?_cases (h : tree.followed? id = some path) : tree.pathBehind? id = some path ∧
    ∃ kind root segments, tree.kind path = .path kind root segments false ∧
      tree.isResolvedRoot root = true := by
  obtain ⟨hpath, hfollowed⟩ := Option.filter_eq_some_iff.mp h
  refine ⟨hpath, ?_⟩
  split at hfollowed
  · next kind root segments dot hk =>
    cases dot with
    | true => cases hfollowed
    | false => exact ⟨kind, root, segments, hk, hfollowed⟩
  · cases hfollowed

theorem indexed?_cases (h : tree.indexed? id = some name) : ∃ argument behind,
    tree.kind id = .index argument ∧ tree.kind argument = .identifier name false behind := by
  unfold indexed? at h
  split at h <;> try cases h
  next argument hk =>
  split at h <;> try cases h
  next behind hargument => exact ⟨argument, behind, hk, hargument⟩

end Tree

namespace QueryContext

variable {context : QueryContext} {path root : Nat} {name : String}

/-- **A path leads to a collection** of elements of a known type. -/
def LeadsToCollection (context : QueryContext) (path : NodeId) : Prop :=
  ∃ mapping, context.mapping? path = some mapping ∧ mapping.kind.isCollection = true ∧
    (context.mappingType? mapping).isSome = true

/-- **A variable is bound to the elements of a collection**: `IN` declares it, or it stands for a path to a
collection. -/
def RangesOverElements (context : QueryContext) (name : String) : Prop :=
  ∃ path member, context.binding? name = some (.path path member) ∧
    (member = true ∨ ∃ mapping, context.mapping? path = some mapping ∧
      mapping.kind.isCollection = true)

theorem isCollectionVariable_iff :
    context.isCollectionVariable name = true ↔ context.RangesOverElements name := by
  unfold isCollectionVariable RangesOverElements
  cases context.binding? name with
  | none => simp
  | some binding =>
    cases binding with
    | entity => simp
    | path path member => cases member <;> simp [Option.any_eq_true]

/-- **Nothing is wrong with a path that must denote a collection** just where it leads to one. -/
theorem collectionPath?_eq_none : context.collectionPath? path true = none ↔
    context.LeadsToCollection path := by
  unfold collectionPath? LeadsToCollection
  cases context.mapping? path with
  | none => simp
  | some mapping =>
    cases htype : context.mappingType? mapping <;> cases hkind : mapping.kind.isCollection <;>
      simp [htype, hkind]

/-- A path from a variable that ends without a dot is looked at. -/
theorem pathProblems_collection {kind : PathKind} {segments : List (Located String)}
    (hpath : context.tree.kind path = .path kind root segments false)
    (hroot : context.tree.isResolvedRoot root = true) :
    context.pathProblems .collection path = [] ↔ context.LeadsToCollection path := by
  rw [← collectionPath?_eq_none, pathProblems, hpath]
  simp [hroot]

end QueryContext

namespace Check.Input

variable {q : Input} {operation operand path : Nat}

/-- **A variable without elements is reported at each `INDEX`** that it is given to. -/
theorem index_reported {argument : Nat} {name : String} {behind : Option Nat}
    (hk : q.tree.kind operation = .index argument)
    (hargument : q.tree.kind argument = .identifier name false behind)
    (hnone : (q.context operation).isCollectionVariable name = false)
    (hwhole : ∀ problem ∈ checkTree (.ofTree q.tree q.metamodel) q.env,
      problem.key ≠ .traversalTooDeep) :
    q.tree.problemAt .indexWrongVariable argument ∈ checkTree (.ofTree q.tree q.metamodel) q.env := by
  have hwf := q.isClean.wellFormed
  obtain ⟨below, s, hs, hreported⟩ := checkTree_getsTo (Tree.lt_size_of_kind (by rw [hk]; simp))
    (by rw [hk]; rfl) (by rw [hk]; rfl) hwhole
  refine hreported ?_
  have htree : s.context.tree = q.tree := by rw [hs]; rfl
  have hcontext := ((visitTo_balanced hwf below argument).steady q.env s htree).context
  generalize ht : (visitTo below argument q.env s).2 = t at hcontext
  have hrun : (visitKind (visitTo below) operation q.env s).2.problems =
      t.problems ++ [q.tree.problemAt .indexWrongVariable argument] := by
    rw [visitKind, kindOf_run, htree, hk]
    show (index (visitTo below) argument q.env s).2.problems = _
    rw [index, bind_run, ht, kindOf_run, hcontext, htree, hargument]
    dsimp only
    rw [ask_run, hcontext, hs, hnone, ← htree]
    show t.problems ++ [_] = _
    rw [hcontext]
    rfl
  rw [hrun]
  exact List.mem_append_right _ (List.mem_singleton_self _)

end Check.Input

/-- **Where a text passes its validation, operators on collections get collections.** A path that is
followed leads to a collection of a known type if `SIZE`, `IS EMPTY`, `MEMBER OF` or `IN` is over it, and
a variable that `INDEX` is given is bound to the elements of a collection. -/
theorem validate_collections {source rule : String} {metamodel : Metamodel} {outcome : Parsed}
    (hvalidate : validate source rule metamodel .standard = .ok outcome)
    (hclean : outcome.problems = []) :
    (∀ operation operand path, operand ∈ (outcome.tree.kind operation).collections →
      outcome.tree.followed? operand = some path →
        (QueryContext.within outcome.tree metamodel path).LeadsToCollection path) ∧
    ∀ operation name, outcome.tree.indexed? operation = some name →
      (QueryContext.within outcome.tree metamodel operation).RangesOverElements name := by
  obtain ⟨q, htree, rfl, hnothing, hfindings⟩ := validate_passed hvalidate hclean
  rw [← htree]
  constructor
  · intro operation operand path hmem hfollowed
    obtain ⟨hbehind, kind, root, segments, hpath, hroot⟩ := Tree.followed?_cases hfollowed
    have hpart := NodeKind.not_isPathPart_of_collections hmem
    have hdemand := Check.Input.demand_behind (NodeKind.demands_of_collections hmem)
      (fun _ _ _ hk => by
        rw [hk] at hpart
        cases hpart)
      (fun htreat => by
        rw [NodeKind.isPathPart_of_isTreat htreat] at hpart
        cases hpart) hbehind
    have hnone := hfindings path (Tree.lt_size_of_kind (by rw [hpath]; simp))
    rw [Check.Input.findings_path hpath, hdemand] at hnone
    exact (QueryContext.pathProblems_collection hpath hroot).mp hnone
  · intro operation name hindexed
    obtain ⟨argument, behind, hk, hargument⟩ := Tree.indexed?_cases hindexed
    rw [← QueryContext.isCollectionVariable_iff, ← Bool.not_eq_false]
    intro hno
    have hreported := Check.Input.index_reported hk hargument hno (by simp [hnothing])
    rw [hnothing] at hreported
    cases hreported

/-- An entity with a collection and a number. -/
def withElements : Metamodel :=
  Metamodel.initial.withManaged (.entity "E" "m.E" [⟨"a", .oneToMany, "m.E"⟩, ⟨"n", .basic, "long"⟩])

/-- `SIZE` is over a collection, and `INDEX` is given the variable of a join over one. That it is given a
number, too, no problem is made of. -/
theorem validate_collections_number : ∃ outcome mapping,
    validate "SELECT e FROM E e JOIN e.a r WHERE SIZE(e.a) > INDEX(r) AND INDEX(e.n) = 1"
      RuleId.statement withElements .standard = .ok outcome ∧ outcome.problems = [] ∧
    12 ∈ (outcome.tree.kind 13).collections ∧
    (QueryContext.within outcome.tree withElements 12).LeadsToCollection 12 ∧
    outcome.tree.indexed? 15 = some "r" ∧
    (QueryContext.within outcome.tree withElements 15).RangesOverElements "r" ∧
    outcome.tree.kind 19 = .index 18 ∧
    (QueryContext.within outcome.tree withElements 18).mapping? 18 = some mapping ∧
    mapping.kind = .basic := by
  let source := "SELECT e FROM E e JOIN e.a r WHERE SIZE(e.a) > INDEX(r) AND INDEX(e.n) = 1"
  have hcheck : (match validate source RuleId.statement withElements .standard with
      | .ok outcome =>
        let isIndexOf (id argument : Nat) : Bool :=
          match outcome.tree.kind id with
          | .index other => other == argument
          | _ => false
        outcome.problems.isEmpty && (outcome.tree.kind 13).collections == [12] &&
          outcome.tree.followed? 12 == some 12 && outcome.tree.indexed? 15 == some "r" &&
          isIndexOf 19 18 && ((QueryContext.within outcome.tree withElements 18).mapping? 18).any
            (·.kind == .basic)
      | .error _ => false) = true := by
    decide +kernel
  cases hvalidate : validate source RuleId.statement withElements .standard with
  | error error =>
    rw [hvalidate] at hcheck
    cases hcheck
  | ok outcome =>
    rw [hvalidate] at hcheck
    simp only [Bool.and_eq_true, beq_iff_eq, List.isEmpty_iff, Option.any_eq_true] at hcheck
    obtain ⟨⟨⟨⟨⟨hclean, hsize⟩, hfollowed⟩, hindexed⟩, hindex⟩, mapping, hmapping, hbasic⟩ := hcheck
    obtain ⟨hcollection, helements⟩ := validate_collections hvalidate hclean
    have hmem : 12 ∈ (outcome.tree.kind 13).collections := by
      rw [hsize]
      exact List.mem_singleton_self _
    refine ⟨outcome, mapping, rfl, hclean, hmem, hcollection 13 12 12 hmem hfollowed, hindexed,
      helements 15 "r" hindexed, ?_, hmapping, hbasic⟩
    split at hindex
    · next hk => rw [hk, beq_iff_eq.mp hindex]
    · cases hindex

end Jpql
