import Jpql.Proofs.Scope.Visible

/-! # Uses of variables

* `Tree.Compares`: a node is an operand of a comparison, parentheses aside; `Tree.isCompared_iff`
  says that the check finds this out.
* `Tree.IsUse`: a variable is used at a node, so that it has to be declared.
* `Tree.IsUndeclared`: a variable is used at a node where no statement around it declares it.
* `Tree.IsQuery.scopeNode?_of_part`: no statement lies in a path. -/

namespace Jpql

namespace Tree

variable {tree : Tree}

/-! ## Operands of comparisons -/

/-- **A node is an operand of a comparison**, parentheses around it aside. -/
inductive Compares (tree : Tree) : Nat → Prop
  | operand {id parent left right : Nat} {operator : Comparison}
      (hp : tree.parent? id = some parent)
      (hk : tree.kind parent = .comparison left operator right) : Compares tree id
  | group {id parent inner : Nat} (hp : tree.parent? id = some parent)
      (hk : tree.kind parent = .group inner) (h : Compares tree parent) : Compares tree id

/-- The check looks at the parent, and behind it if it is a group. -/
theorem isCompared_of_parent (hwf : tree.WellFormed) {id parent : Nat}
    (hp : tree.parent? id = some parent) :
    tree.isCompared id =
      match tree.kind parent with
      | .comparison .. => true
      | .group _ => tree.isCompared parent
      | _ => false := by
  unfold isCompared
  simp only [hwf.ancestors_eq hp, List.map_cons, List.dropWhile_cons]
  cases hk : tree.kind parent <;> simp

theorem isCompared_of_root {id : Nat} (hp : tree.parent? id = none) : tree.isCompared id = false := by
  have hnone : tree.ancestors id = [] := by
    rw [ancestors, hp]
    cases tree.size <;> rfl
  unfold isCompared
  rw [hnone]
  rfl

theorem compares_of_isCompared (hwf : tree.WellFormed) {id : Nat}
    (h : tree.isCompared id = true) : tree.Compares id := by
  rcases hp : tree.parent? id with _ | parent
  · rw [isCompared_of_root hp] at h
    exact absurd h Bool.false_ne_true
  · have hparent := hwf.of_parent hp
    rw [isCompared_of_parent hwf hp] at h
    split at h
    · next hk => exact .operand hp hk
    · next hk => exact .group hp hk (compares_of_isCompared hwf h)
    · exact absurd h Bool.false_ne_true
termination_by tree.size - id

theorem isCompared_iff (hwf : tree.WellFormed) {id : Nat} :
    tree.isCompared id = true ↔ tree.Compares id := by
  refine ⟨compares_of_isCompared hwf, fun h => ?_⟩
  induction h with
  | operand hp hk => rw [isCompared_of_parent hwf hp, hk]
  | group hp hk _ ih =>
    rw [isCompared_of_parent hwf hp, hk]
    exact ih

/-! ## Uses -/

/-- The node is the target of a `SET` item. -/
def IsTarget (tree : Tree) (id : Nat) : Prop := ∃ item value, tree.kind item = .updateItem id value

/-- **The root of a path that names a constant of an enum**: the path leads to no field, and its type
is an enum. -/
def NamesConstant (tree : Tree) (metamodel : Metamodel) (id : Nat) : Prop :=
  ∃ path segments type, tree.kind path = .path .stateField id segments false ∧
    ¬tree.IsTarget path ∧ (QueryContext.around tree metamodel path).mapping? path = none ∧
    (QueryContext.around tree metamodel path).pathType? path = some type ∧ type.isEnum = true

/-- A variable is written at the node, it is not introduced there, and it is no name of an entity
that a type is compared with. -/
def Counts (tree : Tree) (metamodel : Metamodel) (id : Nat) : Prop :=
  ∃ name behind, tree.kind id = .identifier name false behind ∧ ¬tree.IsIntroduced id ∧
    ¬(tree.Compares id ∧ (metamodel.entity? name).isSome = true)

/-- **A variable is used at the node.** -/
def IsUse (tree : Tree) (metamodel : Metamodel) (id : Nat) : Prop :=
  tree.Counts metamodel id ∧ ¬tree.NamesConstant metamodel id

/-- The variable at the node is declared in no statement around it. -/
def IsHidden (tree : Tree) (id : Nat) : Prop := ¬tree.IsVisible id (tree.variableText id)

/-- **A variable is used at the node that is declared in no statement around it.** The node holds a
written variable that it does not introduce. It is no operand of a comparison that bears the name of
an entity, and no root of a path that names a constant. -/
def IsUndeclared (tree : Tree) (metamodel : Metamodel) (id : Nat) : Prop :=
  ∃ name behind, tree.kind id = .identifier name false behind ∧ ¬tree.IsIntroduced id ∧
    ¬tree.IsVisible id name ∧ ¬(tree.Compares id ∧ (metamodel.entity? name).isSome = true) ∧
    ¬tree.NamesConstant metamodel id

theorem isUndeclared_iff {metamodel : Metamodel} {id : Nat} :
    tree.IsUndeclared metamodel id ↔ tree.IsUse metamodel id ∧ tree.IsHidden id := by
  have htext : ∀ name behind, tree.kind id = .identifier name false behind →
      tree.variableText id = name := fun name behind hk => by rw [variableText, hk]
  constructor
  · rintro ⟨name, behind, hk, hintro, hvisible, hentity, hconstant⟩
    refine ⟨⟨⟨name, behind, hk, hintro, hentity⟩, hconstant⟩, ?_⟩
    rw [IsHidden, htext name behind hk]
    exact hvisible
  · rintro ⟨⟨⟨name, behind, hk, hintro, hentity⟩, hconstant⟩, hhidden⟩
    rw [IsHidden, htext name behind hk] at hhidden
    exact ⟨name, behind, hk, hintro, hhidden, hentity, hconstant⟩

/-! ## Paths -/

namespace IsQuery

variable {statement : Nat} (h : tree.IsQuery statement)

include h

/-- **No statement lies in a path**: what a path holds has the scope of the path. -/
theorem scopeNode?_of_part {id inner : Nat} (hk : (tree.kind id).isPathPart = true)
    (hh : tree.Holds id inner) : tree.scopeNode? inner = tree.scopeNode? id := by
  induction hh with
  | refl => rfl
  | @up inner parent hp hh ih =>
    have hparent := NodeKind.not_isStatement_of_isPathPart (h.isPathPart_of_holds hk hh)
    rw [← ih]
    exact Scope.scopeNode?_of_child h.wellFormed (h.wellFormed.of_parent hp).2.2 hparent

end IsQuery

end Tree

end Jpql
