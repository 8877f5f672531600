import Jpql.Proofs.Check.Effect

/-! # Checking the children of a node

* `Check.Subject.Handles`: an operation accounts for all that some nodes hold which lie apart. The
  children of a node lie apart, and a check that handles them all accounts for the node.
* `Check.Subject.IsPlain`: a node that a check visits as it is. Where a variable is introduced, and
  at the root of a path that names a constant, other rules hold.
* `Check.Subject.Visits`: what a visitor promises. -/

namespace Jpql

/-- What a node does with a child that is not plain: it introduces the child as a variable, sets it,
or may name a constant with it. -/
def NodeKind.Marks (kind : NodeKind) (child : Nat) : Prop :=
  kind.introduces? = some child ∨ (∃ value, kind = .updateItem child value) ∨
    ∃ segments, kind = .path .stateField child segments false

namespace Check.Subject

variable {q : Subject} {node id child : Nat} {visit : Visitor}

/-! ## Nodes that lie apart -/

/-- **An operation accounts for nodes that lie apart.** -/
def Handles (q : Subject) (node : Nat) (ids : List Nat) (p : Checker Unit) : Prop :=
  ids.Pairwise q.tree.Apart → q.Affects node (q.tree.Below ids) p fun _ => True

namespace Handles

variable {ids others : List Nat} {p r : Checker Unit}

theorem nil : q.Handles node [] (pure ()) := fun _ => by
  refine (Affects.pure trivial).congr fun _ _ => ?_
  rw [Tree.below_nil]

theorem single (h : q.Affects node (q.tree.Holds id) p fun _ => True) : q.Handles node [id] p :=
  fun _ => h.congr fun _ _ => by rw [Tree.below_cons, Tree.below_nil, or_false]

theorem append (hp : q.Handles node ids p) (hr : q.Handles node others r) :
    q.Handles node (ids ++ others) (p >>= fun _ => r) := by
  intro hpairwise
  obtain ⟨hids, hothers, hapart⟩ := List.pairwise_append.mp hpairwise
  refine (hp hids).bind (fun _ _ => hr hothers) (fun _ _ inner _ => ?_) ?_
  · rw [Tree.below_append]
  · rintro - - inner - ⟨a, ha, hha⟩ ⟨b, hb, hhb⟩
    exact absurd hhb (hapart a ha b hb inner hha)

theorem cons (hp : q.Affects node (q.tree.Holds id) p fun _ => True)
    (hr : q.Handles node others r) : q.Handles node (id :: others) (p >>= fun _ => r) :=
  append (single hp) hr

/-- An operation at each of the nodes. -/
theorem forEach {α : Type} {items : List α} {op : α → Checker Unit} (target : α → Nat)
    (h : ∀ item ∈ items, q.Affects node (q.tree.Holds (target item)) (op item) fun _ => True) :
    q.Handles node (items.map target) (items.forM op) := by
  induction items with
  | nil => exact nil
  | cons item items ih =>
    exact cons (h item List.mem_cons_self) (ih fun other ho => h other (List.mem_cons_of_mem _ ho))

theorem forM {op : Nat → Checker Unit}
    (h : ∀ id ∈ ids, q.Affects node (q.tree.Holds id) (op id) fun _ => True) :
    q.Handles node ids (ids.forM op) := by
  have hall : q.Handles node (ids.map fun id => id) (ids.forM op) := forEach (fun id => id) h
  rwa [List.map_id'] at hall

end Handles

/-! ## From children to their node -/

theorem parent_unique {other : Nat} (hc : child ∈ q.tree.children id)
    (ho : child ∈ q.tree.children other) : id = other := by
  have hp := q.isQuery.wellFormed.child id child hc
  rw [q.isQuery.wellFormed.child other child ho, Option.some_inj] at hp
  exact hp.symm

/-- A node without a written variable is no use of one. -/
theorem not_uses (h : ∀ name behind, q.tree.kind id ≠ .identifier name false behind) :
    ¬q.Uses id := by
  rintro ⟨⟨name, behind, hk, -⟩, -⟩
  exact h name behind hk

/-- A node with one child accounts for what the child accounts for. -/
theorem holds_single (hid : ¬q.Uses id) (hchildren : q.tree.children id = [child]) {inner : Nat}
    (huse : q.Uses inner) : q.tree.Holds child inner ↔ q.tree.Holds id inner := by
  have hiff := @Tree.holds_iff q.tree q.isQuery.wellFormed id inner
  rw [hchildren] at hiff
  rw [hiff]
  simp only [Tree.below_cons, Tree.below_nil, or_false]
  refine ⟨.inr, fun h => h.resolve_left fun he => hid ?_⟩
  rw [← he]
  exact huse

/-- **What handles the children of a node accounts for the node.** -/
theorem Handles.affects {p : Checker Unit} (hid : ¬q.Uses id)
    (h : q.Handles id (q.tree.children id) p) :
    q.Affects id (q.tree.Holds id) p fun _ => True := by
  refine (h (Tree.apart_children q.isQuery.wellFormed id)).congr fun inner huse => ?_
  rw [Tree.holds_iff q.isQuery.wellFormed]
  refine ⟨.inr, fun hinner => hinner.resolve_left fun he => hid ?_⟩
  rw [← he]
  exact huse

section

variable (hc : child ∈ q.tree.children id) (hkind : (q.tree.kind id).isStatement = false)

include hc hkind

theorem context_of_child : q.context child = q.context id := by
  refine QueryContext.around_of_child q.isQuery.wellFormed hc ?_
  cases hk : q.tree.kind id <;> rw [hk] at hkind <;>
    first | rfl | exact absurd hkind.symm Bool.false_ne_true

theorem scopeNode?_of_child : q.tree.scopeNode? child = q.tree.scopeNode? id :=
  Scope.scopeNode?_of_child q.isQuery.wellFormed hc hkind

theorem placed_of_child (hid : ∃ scope, q.tree.scopeNode? id = some scope) :
    ∃ scope, q.tree.scopeNode? child = some scope := by
  rw [scopeNode?_of_child hc hkind]
  exact hid

/-- Except in a statement, a child is the same place as its node. -/
theorem Affects.of_child {α : Type} {N : Nat → Prop} {p : Checker α} {post : α → Prop}
    (h : q.Affects child N p post) : q.Affects id N p post :=
  h.move (context_of_child hc hkind) (scopeNode?_of_child hc hkind)

end

/-! ## Plain nodes -/

/-- **A node that a check visits as it is.** It lies in a statement, does not introduce a variable, is
not set, and names no constant. -/
structure IsPlain (q : Subject) (id : Nat) : Prop where
  placed : ∃ scope, q.tree.scopeNode? id = some scope
  introduced : ¬q.tree.IsIntroduced id
  target : ¬q.tree.IsTarget id
  constant : q.tree.Counts q.metamodel id → ¬q.tree.NamesConstant q.metamodel id

/-- The parent decides whether a node is plain. -/
theorem isPlain_of_parent (hc : child ∈ q.tree.children id)
    (hplaced : ∃ scope, q.tree.scopeNode? child = some scope)
    (hintro : (q.tree.kind id).introduces? ≠ some child)
    (htarget : ∀ value, q.tree.kind id ≠ .updateItem child value)
    (hconstant : q.tree.Counts q.metamodel child → ¬q.tree.NamesConstant q.metamodel child) :
    q.IsPlain child := by
  refine ⟨hplaced, ?_, ?_, hconstant⟩
  · rintro ⟨other, hp, h⟩
    obtain rfl := parent_unique hc (NodeKind.introduces?_mem_children h)
    exact hintro h
  · rintro ⟨item, value, hk⟩
    obtain rfl := parent_unique hc
      (show child ∈ q.tree.children item by rw [Tree.children, hk]; exact List.mem_cons_self)
    exact htarget value hk

theorem isPlain_of_child (hc : child ∈ q.tree.children id)
    (hplaced : ∃ scope, q.tree.scopeNode? child = some scope)
    (hmarks : ¬(q.tree.kind id).Marks child) : q.IsPlain child := by
  refine isPlain_of_parent hc hplaced (fun h => hmarks (.inl h))
    (fun value hk => hmarks (.inr (.inl ⟨value, hk⟩))) ?_
  rintro - ⟨path, segments, type, hk, -⟩
  obtain rfl := parent_unique hc
    (show child ∈ q.tree.children path by rw [Tree.children, hk]; exact List.mem_cons_self)
  exact hmarks (.inr (.inr ⟨segments, hk⟩))

/-! ## Visitors -/

/-- A visit to a variable at most adds it to the uses, unless something is left out. -/
structure Touches (id : Nat) (s t : State) : Prop where
  steady : Steady s t
  eq : t.IsWhole → t = s ∨
    s.registers = true ∧ id ∉ s.used ∧ t = { s with used := s.used ++ [id] }

/-- **What a visitor promises.** It accounts for the plain nodes, and a variable only touches the
uses. -/
structure Visits (q : Subject) (visit : Visitor) : Prop where
  affects : ∀ id, q.IsPlain id → q.Affects id (q.tree.Holds id) (visit id) fun _ => True
  touches : ∀ id name isVirtual, q.tree.kind id = .identifier name isVirtual none →
    ∀ s, s.context.tree = q.tree → Touches id s (visit id q.env s).2

theorem Visits.visit_child (hv : q.Visits visit) (hid : ∃ scope, q.tree.scopeNode? id = some scope)
    (hc : child ∈ q.tree.children id) (hkind : (q.tree.kind id).isStatement = false)
    (hmarks : ¬(q.tree.kind id).Marks child) :
    q.Affects id (q.tree.Holds child) (visit child) fun _ => True := by
  have hplain := isPlain_of_child hc (placed_of_child hc hkind hid) hmarks
  exact (hv.affects child hplain).of_child hc hkind

end Check.Subject

end Jpql
