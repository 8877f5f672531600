import Jpql.Proofs.Tree.Clean
import Mathlib.Data.List.Forall2

/-! # What the fields of nodes refer to

Node ids are untyped. Two things hold of them nevertheless, whatever text is read.

* `Tree.Typed`: every id that a node holds refers to a node of the tree, of a kind that its field stands
  for. `parse_typed` says so of every tree, of malformed texts, too.
* `Tree.Finished`: a node lacks nothing that its construct requires. `parse_finished` says so of every
  node that is read without a problem: each place where the reader leaves a part out reports it. -/

namespace Jpql

namespace Tree

variable {tree : Tree}

/-! ## Kinds of children -/

/-- **Every id that a node holds refers to a node of the kind that its field stands for.** The fields of
a node are the slots of its kind, in the order of its children. -/
def Typed (tree : Tree) : Prop :=
  ∀ id, List.Forall₂ (fun child slot => child < tree.size ∧ Slot.admits slot (tree.kind child) = true)
    (tree.children id) ((tree.kind id).slots.map (·.2))

theorem typed_iff : tree.Typed ↔ ∀ id, ∀ entry ∈ (tree.kind id).slots,
    entry.1 < tree.size ∧ entry.2.admits (tree.kind entry.1) = true := by
  refine forall_congr' fun id => ?_
  rw [Tree.children, ← NodeKind.map_fst_slots, List.forall₂_map_left_iff, List.forall₂_map_right_iff,
    List.forall₂_same]

/-- What follows the schema is typed, since a child is added before its parent. -/
theorem Schematic.typed {clean : Prop} (h : tree.Schematic clean) (hwf : tree.WellFormed) :
    tree.Typed := by
  refine typed_iff.mpr fun id entry hs => ?_
  have hc : entry.1 ∈ tree.children id := NodeKind.mem_children_of_mem_slots hs
  obtain ⟨hless, hlt, -⟩ := hwf.of_parent (hwf.child id entry.1 hc)
  exact ⟨Nat.lt_trans hless hlt, (h.conforms id hlt).admits hs⟩

/-! ## Parts that are required -/

/-- **Nothing is missing that the construct of a node requires**: its lists are not empty, its required
parts are there, and they are what was asked for. -/
def Finished (tree : Tree) (id : NodeId) : Prop :=
  match tree.kind id with
  | .query statement leftover => statement.isSome = true ∧ leftover = none
  | .selectStatement _ source _ _ _ _ | .simpleSelectStatement _ source _ _ _ => source.isSome = true
  | .rangeDeclaration _ _ declared | .collectionDeclaration _ _ declared => declared.isSome = true
  | .join _ fetch _ hasAs declared _ => fetch = false ∨ hasAs = true → declared.isSome = true
  | .caseOf _ whens _ => whens ≠ []
  | .existence _ subquery | .quantified _ subquery => ∃ select source condition groups having,
      tree.kind subquery = .simpleSelectStatement select source condition groups having
  | .resultVariable _ _ declared => ∃ name, tree.kind declared = .identifier name false none
  | .treat _ _ type => ∃ name, tree.kind type = .entityType name
  | .updateClause _ items | .selectClause _ items | .simpleSelectClause _ items | .fromClause items
  | .simpleFromClause items | .groupByClause items | .orderByClause items | .inList _ _ items
  | .concat items | .coalesce items | .constructor _ items => items ≠ []
  | .unknown _ | .bad => False
  | _ => True

/-- A part that fits, and is not what stands in for a missing one, is what was asked for. -/
theorem exists_subquery {id : NodeId} (hfits : Slot.subquery.admits (tree.kind id) = true)
    (hbad : tree.kind id ≠ .bad) : ∃ select source condition groups having,
      tree.kind id = .simpleSelectStatement select source condition groups having := by
  cases hk : tree.kind id with
  | simpleSelectStatement => exact ⟨_, _, _, _, _, rfl⟩
  | bad => exact absurd hk hbad
  | _ =>
    rw [hk] at hfits
    cases hfits

theorem exists_resultName {id : NodeId} (hfits : Slot.resultName.admits (tree.kind id) = true)
    (hbad : tree.kind id ≠ .bad) : ∃ name, tree.kind id = .identifier name false none := by
  cases hk : tree.kind id with
  | identifier name isVirtual path =>
    rw [hk] at hfits
    cases isVirtual <;> cases path
    case false.none => exact ⟨name, rfl⟩
    all_goals cases hfits
  | bad => exact absurd hk hbad
  | _ =>
    rw [hk] at hfits
    cases hfits

theorem exists_entityType {id : NodeId} (hfits : Slot.entityType.admits (tree.kind id) = true)
    (hbad : tree.kind id ≠ .bad) : ∃ name, tree.kind id = .entityType name := by
  cases hk : tree.kind id with
  | entityType name => exact ⟨name, rfl⟩
  | bad => exact absurd hk hbad
  | _ =>
    rw [hk] at hfits
    cases hfits

theorem IsClean.finished {statement id : NodeId} (h : tree.IsClean statement) (hlt : id < tree.size) :
    tree.Finished id := by
  have hwhole := (h.complete hlt).1
  have hpart : ∀ {child : NodeId} {slot : Slot}, (child, slot) ∈ (tree.kind id).slots →
      slot.admits (tree.kind child) = true ∧ tree.kind child ≠ .bad := fun hs =>
    ⟨h.admits hs, h.ne_bad (h.lt_of_child (NodeKind.mem_children_of_mem_slots hs))⟩
  cases hk : tree.kind id <;> rw [hk] at hwhole hpart <;> simp only [Finished, hk]
  case existence | quantified =>
    obtain ⟨hfits, hbad⟩ := hpart (List.mem_singleton_self _)
    exact exists_subquery hfits hbad
  case resultVariable =>
    obtain ⟨hfits, hbad⟩ := hpart (List.mem_cons_of_mem _ (List.mem_singleton_self _))
    exact exists_resultName hfits hbad
  case treat =>
    obtain ⟨hfits, hbad⟩ := hpart (List.mem_cons_of_mem _ (List.mem_singleton_self _))
    exact exists_entityType hfits hbad
  case join type fetch path hasAs declared on =>
    cases fetch <;> cases hasAs <;> simp_all [NodeKind.isWhole]
  case unknown | bad => cases hwhole
  all_goals simpa [NodeKind.isWhole] using hwhole

end Tree

/-- **Whatever is read, every id refers to what its field stands for**, with every rule there is and with
every limit on nesting. -/
theorem parse_typed (source rule : String) (maxDepth : Nat)
    (hrule : (Grammar.standard.rule? rule).isSome = true) :
    ∃ parsed, parse source rule maxDepth = .ok parsed ∧ parsed.tree.Typed := by
  obtain ⟨parsed, hparsed, draft, htree, hsound, hclean, -⟩ := parse_draft source rule maxDepth hrule
  refine ⟨parsed, hparsed, ?_⟩
  rw [htree]
  exact (hsound.schematic source hclean).typed (hsound.wellFormed source)

/-- A statement that breaks off in its range, in a subquery and in a constructor. -/
theorem parse_typed_malformed : ∃ parsed,
    parse "UPDATE e. AS SET = EXISTS (SELECT, x = NEW" RuleId.statement 3 = .ok parsed ∧
      parsed.tree.Typed :=
  parse_typed "UPDATE e. AS SET = EXISTS (SELECT, x = NEW" RuleId.statement 3 (by decide +kernel)

/-- **Whatever is read without a problem is complete.** The root holds what was read and no text behind
it, and no node lacks anything. -/
theorem parse_finished {source rule : String} {maxDepth : Nat} {parsed : Parsed}
    (hparse : parse source rule maxDepth = .ok parsed) (hclean : parsed.problems = []) :
    (∃ statement, parsed.tree.kind parsed.tree.root = .query (some statement) none ∧
      (rule = RuleId.statement → (parsed.tree.kind statement).isOuterStatement = true)) ∧
    ∀ id < parsed.tree.size, parsed.tree.Finished id := by
  obtain ⟨statement, htree, houter⟩ := parse_isClean (isSome_rule_of_parse hparse) hparse hclean
  exact ⟨⟨statement, htree.root, houter⟩, fun id hlt => htree.finished hlt⟩

/-- A query with joins, one of them without a variable, with a result that has a name, and a subquery. -/
theorem parse_finished_joins : ∃ parsed,
    parse "SELECT e.a r FROM E e JOIN FETCH e.b WHERE EXISTS (SELECT x FROM e.f x)"
      RuleId.statement 5 = .ok parsed ∧ parsed.problems = [] ∧
    (∃ statement, parsed.tree.kind parsed.tree.root = .query (some statement) none ∧
      (RuleId.statement = RuleId.statement →
        (parsed.tree.kind statement).isOuterStatement = true)) ∧
    ∀ id < parsed.tree.size, parsed.tree.Finished id := by
  let source := "SELECT e.a r FROM E e JOIN FETCH e.b WHERE EXISTS (SELECT x FROM e.f x)"
  have hread : (match parse source RuleId.statement 5 with
      | .ok parsed => parsed.problems.isEmpty
      | .error _ => false) = true := by decide +kernel
  cases hparse : parse source RuleId.statement 5 with
  | error e =>
    rw [hparse] at hread
    cases hread
  | ok parsed =>
    rw [hparse] at hread
    have hclean : parsed.problems = [] := List.isEmpty_iff.mp hread
    exact ⟨parsed, rfl, hclean, parse_finished hparse hclean⟩

end Jpql
