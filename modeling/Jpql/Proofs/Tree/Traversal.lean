import Jpql.Proofs.Tree.Order

/-! # The ways through a tree agree

A tree is walked in three ways: `descendants` works off an agenda, `fold` threads a visitor through
the children of every node, and `ancestors` follows the parents.

* `Tree.listing` is the order of both walks downwards: a node, then what each of its children lists.
  `WellFormed.descendants_eq` and `foldTo_eq` compare each walk with it, and `WellFormed.fold_eq`
  says that the bound on the depth of a pass is never felt.
* `WellFormed.mem_descendants` and `WellFormed.mem_ancestors` read both lists as `Tree.Holds`.
* `parse_traversals` puts them together for the trees that are read. -/

namespace Jpql

namespace Tree

/-- A node and what lies below it, each before its children, down to a depth. -/
def listing (tree : Tree) : (depth : Nat) → NodeId → List NodeId
  | 0, _ => []
  | depth + 1, id => id :: (tree.children id).flatMap (listing tree depth)

/-- The visitor that looks at every node and never ends the pass. -/
def visitEach {σ β : Type} (look : σ → NodeId → σ) (state : σ) (id : NodeId) : Except β σ :=
  .ok (look state id)

/-- The visitor that ends the pass at a node with a property, with what it saw before and that
node. -/
def visitUntil {σ : Type} (look : σ → NodeId → σ) (stops : NodeId → Bool) (state : σ)
    (id : NodeId) : Except (σ × NodeId) σ :=
  if stops id then .error (state, id) else .ok (look state id)

variable {tree : Tree}

/-! ## The order of a walk -/

theorem length_listing (tree : Tree) (depth id : Nat) :
    (tree.listing depth id).length = tree.weight depth id := by
  induction depth generalizing id with
  | zero => rfl
  | succ depth ih =>
    simp only [listing, List.length_cons, List.length_flatMap, weight_succ, ih]
    exact Nat.add_comm ..

/-- Every depth below which nothing lies gives the same listing. -/
theorem WellFormed.listing_eq (h : tree.WellFormed) {depth other id : Nat} (hd : id < depth)
    (ho : id < other) : tree.listing depth id = tree.listing other id := by
  induction depth generalizing other id with
  | zero => exact absurd hd (Nat.not_lt_zero id)
  | succ depth ih =>
    obtain ⟨other, rfl⟩ : ∃ o, other = o + 1 := ⟨other - 1, by omega⟩
    rw [listing, listing, List.flatMap, List.flatMap]
    refine congrArg (id :: ·.flatten) (List.map_congr_left fun child hc => ?_)
    have hlt := h.child_lt hc
    exact ih (by omega) (by omega)

/-! ## The agenda -/

/-- An agenda is worked off node by node, if each of its nodes is. -/
theorem preorder_flatMap {depth : Nat} {ids : List Nat}
    (h : ∀ id ∈ ids, ∀ steps agenda,
      tree.preorder ((tree.listing depth id).length + steps) (id :: agenda) =
        tree.listing depth id ++ tree.preorder steps agenda) (steps : Nat) (agenda : List Nat) :
    tree.preorder ((ids.flatMap (tree.listing depth)).length + steps) (ids ++ agenda) =
      ids.flatMap (tree.listing depth) ++ tree.preorder steps agenda := by
  induction ids with
  | nil => simp
  | cons id ids ih =>
    rw [List.flatMap_cons, List.length_append, Nat.add_assoc, List.cons_append,
      h id List.mem_cons_self, ih fun other ho => h other (List.mem_cons_of_mem _ ho),
      List.append_assoc]

/-- **An agenda lists its first node and all below it**, and then goes on. -/
theorem WellFormed.preorder_cons (h : tree.WellFormed) {depth id : Nat} (hd : id < depth)
    (steps : Nat) (agenda : List Nat) :
    tree.preorder ((tree.listing depth id).length + steps) (id :: agenda) =
      tree.listing depth id ++ tree.preorder steps agenda := by
  induction depth generalizing id steps agenda with
  | zero => exact absurd hd (Nat.not_lt_zero id)
  | succ depth ih =>
    have hchildren : ∀ child ∈ tree.children id, child < depth := fun child hc =>
      Nat.lt_of_lt_of_le (h.child_lt hc) (Nat.le_of_lt_succ hd)
    rw [listing, List.length_cons, Nat.add_right_comm, preorder, List.cons_append,
      preorder_flatMap fun child hc => ih (hchildren child hc)]

theorem WellFormed.descendants_eq (h : tree.WellFormed) (id : Nat) :
    tree.descendants id = tree.listing (id + 1) id := by
  have hwalk := h.preorder_cons (Nat.lt_succ_self id) 0 []
  rwa [Nat.add_zero, length_listing, preorder, List.append_nil] at hwalk

/-- **The descendants of a node** are the node and the descendants of its children, in turn. -/
theorem WellFormed.descendants_cons (h : tree.WellFormed) (id : Nat) :
    tree.descendants id = id :: (tree.children id).flatMap tree.descendants := by
  rw [h.descendants_eq, listing, List.flatMap, List.flatMap]
  refine congrArg (id :: ·.flatten) (List.map_congr_left fun child hc => ?_)
  rw [h.descendants_eq]
  exact h.listing_eq (h.child_lt hc) (Nat.lt_succ_self child)

/-! ## The visitor -/

section

variable {σ β : Type} (visit : σ → NodeId → Except β σ)

theorem foldlM_flatMap (below : Nat → List Nat) (state : σ) (ids : List Nat) :
    (ids.flatMap below).foldlM visit state =
      ids.foldlM (fun state id => (below id).foldlM visit state) state := by
  induction ids generalizing state with
  | nil => rfl
  | cons id ids ih => simp only [List.flatMap_cons, List.foldlM_append, List.foldlM_cons, ih]

/-- A pass visits what the listing of the same depth names. -/
theorem foldTo_eq (depth : Nat) (state : σ) (id : Nat) :
    tree.foldTo visit depth state id = (tree.listing depth id).foldlM visit state := by
  induction depth generalizing state id with
  | zero => rfl
  | succ depth ih =>
    have hbelow : tree.foldTo visit depth = fun state id =>
        (tree.listing depth id).foldlM visit state := funext₂ ih
    simp only [foldTo, listing, List.foldlM_cons, foldlM_flatMap, hbelow]

theorem WellFormed.fold_eq_foldlM (h : tree.WellFormed) (state : σ) (id : Nat) :
    tree.fold visit state id = (tree.descendants id).foldlM visit state := by
  rw [fold, foldTo_eq, h.descendants_eq]

/-- **A pass visits a node and then walks**: it passes over each of the children. -/
theorem WellFormed.fold_eq (h : tree.WellFormed) (state : σ) (id : Nat) :
    tree.fold visit state id =
      visit state id >>= fun state => (tree.children id).foldlM (tree.fold visit) state := by
  have hfold : tree.fold visit = fun state id => (tree.descendants id).foldlM visit state :=
    funext₂ (h.fold_eq_foldlM visit)
  rw [hfold]
  simp only [h.descendants_cons id, List.foldlM_cons, foldlM_flatMap]

end

section

variable {σ β : Type} (look : σ → NodeId → σ)

theorem foldlM_visitEach (state : σ) (ids : List Nat) :
    ids.foldlM (visitEach look) state = (.ok (ids.foldl look state) : Except β σ) := by
  induction ids generalizing state with
  | nil => rfl
  | cons id ids ih => exact ih (look state id)

theorem foldlM_visitUntil (stops : NodeId → Bool) (state : σ) (ids : List Nat) :
    ids.foldlM (visitUntil look stops) state =
      match ids.find? stops with
      | some id => .error ((ids.takeWhile (!stops ·)).foldl look state, id)
      | none => .ok (ids.foldl look state) := by
  induction ids generalizing state with
  | nil => rfl
  | cons id ids ih =>
    rw [List.foldlM_cons, visitUntil, List.find?_cons, List.takeWhile_cons]
    cases stops id with
    | true => rfl
    | false => exact ih (look state id)

end

/-! ## Above and below -/

theorem WellFormed.mem_descendants (h : tree.WellFormed) {id inner : Nat} :
    inner ∈ tree.descendants id ↔ tree.Holds id inner := by
  induction id using Nat.strongRecOn with
  | ind id ih =>
    rw [h.descendants_cons, List.mem_cons, List.mem_flatMap, holds_iff h]
    refine or_congr_right (exists_congr fun child => and_congr_right fun hc => ?_)
    exact ih child (h.child_lt hc)

theorem WellFormed.mem_ancestors (h : tree.WellFormed) {id outer : Nat} :
    outer ∈ tree.ancestors id ↔ outer ≠ id ∧ tree.Holds outer id := by
  rcases hp : tree.parent? id with _ | parent
  · have hnone : tree.ancestors id = [] := by
      rw [ancestors, hp]
      cases tree.size <;> rfl
    rw [hnone]
    constructor
    · exact fun hmem => absurd hmem List.not_mem_nil
    · rintro ⟨hne, hholds⟩
      cases hholds with
      | refl => exact absurd rfl hne
      | up hup => rw [hp] at hup; cases hup
  · have hlt := h.of_parent hp
    have ih : outer ∈ tree.ancestors parent ↔ outer ≠ parent ∧ tree.Holds outer parent :=
      h.mem_ancestors
    rw [h.ancestors_eq hp, List.mem_cons, ih]
    constructor
    · rintro (rfl | ⟨-, hholds⟩)
      · exact ⟨by omega, .up hp .refl⟩
      · have := hholds.le h
        exact ⟨by omega, .up hp hholds⟩
    · rintro ⟨hne, hholds⟩
      cases hholds with
      | refl => exact absurd rfl hne
      | up hup hholds =>
        rw [hp, Option.some_inj] at hup
        subst hup
        exact (Decidable.em (outer = parent)).imp_right fun hother => ⟨hother, hholds⟩
termination_by tree.size - id

end Tree

/-- **The ways through a tree that is read agree.** A visitor that never ends the pass sees the
descendants of the node it starts from, in their order. One that ends it at a node with a property
sees the descendants before the first such node, and ends there. And the ancestors of a node are the
other nodes that have it for a descendant. -/
theorem parse_traversals (source rule : String) (maxDepth : Nat)
    (hrule : (Grammar.standard.rule? rule).isSome = true) :
    ∃ parsed, parse source rule maxDepth = .ok parsed ∧ ∀ id : NodeId,
      (∀ {σ β : Type} (look : σ → NodeId → σ) (state : σ),
        parsed.tree.fold (Tree.visitEach look) state id =
          (.ok ((parsed.tree.descendants id).foldl look state) : Except β σ)) ∧
      (∀ {σ : Type} (look : σ → NodeId → σ) (stops : NodeId → Bool) (state : σ),
        parsed.tree.fold (Tree.visitUntil look stops) state id =
          match (parsed.tree.descendants id).find? stops with
          | some stop =>
            .error (((parsed.tree.descendants id).takeWhile (!stops ·)).foldl look state, stop)
          | none => .ok ((parsed.tree.descendants id).foldl look state)) ∧
      ∀ outer, outer ∈ parsed.tree.ancestors id ↔
        outer ≠ id ∧ id ∈ parsed.tree.descendants outer := by
  obtain ⟨parsed, hparsed, h⟩ := parse_wellFormed source rule maxDepth hrule
  refine ⟨parsed, hparsed, fun id => ⟨fun look state => ?_, fun look stops state => ?_,
    fun outer => ?_⟩⟩
  · rw [h.fold_eq_foldlM, Tree.foldlM_visitEach]
  · rw [h.fold_eq_foldlM, Tree.foldlM_visitUntil]
  · rw [h.mem_ancestors, h.mem_descendants]

/-- A statement that breaks off, with a subquery. -/
theorem parse_traversals_malformed :
    ∃ parsed, parse "SELECT e FROM E e WHERE EXISTS (SELECT :x FROM" RuleId.statement 3 =
        .ok parsed ∧ ∀ id : NodeId,
      (∀ {σ β : Type} (look : σ → NodeId → σ) (state : σ),
        parsed.tree.fold (Tree.visitEach look) state id =
          (.ok ((parsed.tree.descendants id).foldl look state) : Except β σ)) ∧
      (∀ {σ : Type} (look : σ → NodeId → σ) (stops : NodeId → Bool) (state : σ),
        parsed.tree.fold (Tree.visitUntil look stops) state id =
          match (parsed.tree.descendants id).find? stops with
          | some stop =>
            .error (((parsed.tree.descendants id).takeWhile (!stops ·)).foldl look state, stop)
          | none => .ok ((parsed.tree.descendants id).foldl look state)) ∧
      ∀ outer, outer ∈ parsed.tree.ancestors id ↔
        outer ≠ id ∧ id ∈ parsed.tree.descendants outer :=
  parse_traversals "SELECT e FROM E e WHERE EXISTS (SELECT :x FROM" RuleId.statement 3
    (by decide +kernel)

end Jpql
