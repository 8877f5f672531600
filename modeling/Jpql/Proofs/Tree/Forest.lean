import Jpql.Tree.Basic
import Mathlib.Algebra.GroupWithZero.Nat
import Mathlib.Tactic.Common

/-! # Forests in post-order

A tree is built bottom-up, so the nodes of a subtree lie next to each other in the array, the root of
the subtree last. `Forest children first next roots` says this of the nodes from `first` to `next`
(excluded): they make up trees with the given roots, one after the other.

* `Forest.append`, `Forest.split`: two forests side by side are one, and back.
* `Forest.parent_exists`: a node is a root or the child of a later node.
* `Forest.preorder`: a walk that puts the children of a node in front of its agenda lists every node
  of the forest once.
* `Forest.weight`: the number of nodes below the roots is the size of the range. -/

namespace Jpql

/-- **The nodes from `first` to `next` make up trees with these roots**, each node listed after the
trees of its children. -/
inductive Forest (children : Nat → List Nat) : Nat → Nat → List Nat → Prop
  | nil (first : Nat) : Forest children first first []
  | snoc {first middle node : Nat} {roots : List Nat}
      (before : Forest children first middle roots)
      (below : Forest children middle node (children node)) :
      Forest children first (node + 1) (roots ++ [node])

namespace Forest

variable {children : Nat → List Nat} {first middle next : Nat} {roots : List Nat}

theorem le (h : Forest children first next roots) : first ≤ next := by
  induction h with
  | nil => exact Nat.le_refl _
  | snoc _ _ ih₁ ih₂ => omega

theorem root_bounds (h : Forest children first next roots) :
    ∀ root ∈ roots, first ≤ root ∧ root < next := by
  induction h with
  | nil => simp
  | snoc before below ih _ =>
    intro root hr
    have h₁ := before.le
    have h₂ := below.le
    rcases List.mem_append.mp hr with hr | hr
    · have := ih root hr
      omega
    · rw [List.mem_singleton] at hr
      omega

/-- The roots stand in the order of the array. -/
theorem sorted (h : Forest children first next roots) : roots.Pairwise (· < ·) := by
  induction h with
  | nil => exact List.Pairwise.nil
  | snoc before below ih _ =>
    refine List.pairwise_append.mpr ⟨ih, List.pairwise_singleton _ _, fun a ha b hb => ?_⟩
    have h₁ := before.root_bounds a ha
    have h₂ := below.le
    rw [List.mem_singleton] at hb
    omega

theorem nodup (h : Forest children first next roots) : roots.Nodup :=
  h.sorted.imp fun hab => Nat.ne_of_lt hab

/-- A single tree ends with its root. -/
theorem next_eq {root : Nat} (h : Forest children first next [root]) : next = root + 1 := by
  generalize hr : [root] = roots at h
  cases h with
  | nil => cases hr
  | @snoc _ middle node before _ _ =>
    have happend : [] ++ [root] = before ++ [node] := hr
    rw [List.singleton_inj.mp (List.append_inj' happend rfl).2]

/-! ## Side by side -/

theorem split {us vs : List Nat} (h : Forest children first next (us ++ vs)) :
    ∃ middle, Forest children first middle us ∧ Forest children middle next vs := by
  generalize hr : us ++ vs = roots at h
  induction h generalizing vs with
  | nil =>
    obtain ⟨rfl, rfl⟩ := List.append_eq_nil_iff.mp hr
    exact ⟨_, .nil _, .nil _⟩
  | @snoc first middle node roots before below ih _ =>
    rcases List.eq_nil_or_concat vs with rfl | ⟨ws, w, rfl⟩
    · rw [List.append_nil] at hr
      subst hr
      exact ⟨_, .snoc before below, .nil _⟩
    · rw [List.concat_eq_append, ← List.append_assoc] at hr
      obtain ⟨hws, hw⟩ := List.append_inj' hr rfl
      obtain ⟨m, hu, hv⟩ := ih hws
      rw [List.singleton_inj.mp hw, List.concat_eq_append]
      exact ⟨m, hu, .snoc hv below⟩

/-- Only the children of the nodes in the range matter. -/
theorem congr {other : Nat → List Nat} (h : Forest children first next roots)
    (heq : ∀ node, first ≤ node → node < next → other node = children node) :
    Forest other first next roots := by
  induction h with
  | nil => exact .nil _
  | @snoc first middle node roots before below ih₁ ih₂ =>
    have h₁ := before.le
    have h₂ := below.le
    refine .snoc (ih₁ fun n hf hn => heq n hf (by omega)) ?_
    rw [heq node (by omega) (by omega)]
    exact ih₂ fun n hf hn => heq n (by omega) (by omega)

/-! ## Single nodes -/

/-- What lies below a node is a forest that ends right before it. -/
theorem below_node (h : Forest children first next roots) {node : Nat} (hf : first ≤ node)
    (hn : node < next) : ∃ start, first ≤ start ∧ Forest children start node (children node) := by
  induction h with
  | nil => omega
  | @snoc first middle last roots before below ih₁ ih₂ =>
    have h₁ := before.le
    rcases Nat.lt_or_ge node middle with hm | hm
    · exact ih₁ hf hm
    · rcases Nat.lt_or_ge node last with hl | hl
      · obtain ⟨start, hs, hforest⟩ := ih₂ hm hl
        exact ⟨start, by omega, hforest⟩
      · obtain rfl : node = last := by omega
        exact ⟨middle, h₁, below⟩

theorem child_bounds (h : Forest children first next roots) {node child : Nat}
    (hf : first ≤ node) (hn : node < next) (hc : child ∈ children node) :
    first ≤ child ∧ child < node := by
  obtain ⟨start, hs, hforest⟩ := h.below_node hf hn
  have := hforest.root_bounds child hc
  omega

/-- **A node of the range is a root or the child of a later node.** -/
theorem parent_exists (h : Forest children first next roots) {node : Nat} (hf : first ≤ node)
    (hn : node < next) : node ∈ roots ∨ ∃ parent, node < parent ∧ parent < next ∧
      node ∈ children parent := by
  induction h with
  | nil => omega
  | @snoc first middle last roots before below ih₁ ih₂ =>
    have h₂ := below.le
    rcases Nat.lt_or_ge node middle with hm | hm
    · rcases ih₁ hf hm with hr | ⟨parent, hp, hlt, hc⟩
      · exact .inl (List.mem_append_left _ hr)
      · exact .inr ⟨parent, hp, by omega, hc⟩
    · rcases Nat.lt_or_ge node last with hl | hl
      · rcases ih₂ hm hl with hr | ⟨parent, hp, hlt, hc⟩
        · exact .inr ⟨last, hl, by omega, hr⟩
        · exact .inr ⟨parent, hp, by omega, hc⟩
      · exact .inl (by simp; omega)

theorem children_nodup (h : Forest children first next roots) {node : Nat} (hf : first ≤ node)
    (hn : node < next) : (children node).Nodup := by
  obtain ⟨_, _, hforest⟩ := h.below_node hf hn
  exact hforest.nodup

end Forest

/-! ## Walks over a tree -/

namespace Tree

variable {tree : Tree} {first next : Nat} {roots : List Nat}

theorem weight_succ (depth id : Nat) :
    tree.weight (depth + 1) id = 1 + ((tree.children id).map (tree.weight depth)).sum := rfl

/-- The number of nodes at and below the roots of a forest. -/
theorem sum_weight (h : Forest tree.children first next roots) {depth : Nat} (hd : next ≤ depth) :
    (roots.map (tree.weight depth)).sum = next - first := by
  induction h generalizing depth with
  | nil => simp
  | @snoc first middle node roots before below ih₁ ih₂ =>
    have h₁ := before.le
    have h₂ := below.le
    obtain ⟨depth, rfl⟩ : ∃ d, depth = d + 1 := ⟨depth - 1, by omega⟩
    rw [List.map_append, List.sum_append, ih₁ (by omega), List.map_singleton, List.sum_singleton,
      weight_succ, ih₂ (by omega)]
    omega

/-- **A walk over a forest lists its nodes, each once**, and then goes on with the agenda. -/
theorem preorder_append (h : Forest tree.children first next roots) :
    ∃ listing : List Nat, listing.Perm (List.range' first (next - first)) ∧
      ∀ steps agenda, tree.preorder (listing.length + steps) (roots ++ agenda) =
        listing ++ tree.preorder steps agenda := by
  induction h with
  | nil => exact ⟨[], by simp, by simp⟩
  | @snoc first middle node roots before below ih₁ ih₂ =>
    have h₁ := before.le
    have h₂ := below.le
    obtain ⟨l₁, hp₁, hl₁⟩ := ih₁
    obtain ⟨l₂, hp₂, hl₂⟩ := ih₂
    refine ⟨l₁ ++ node :: l₂, ?_, fun steps agenda => ?_⟩
    · -- The range is that of the trees before, then what is below the node, then the node.
      have hsplit : List.range' first (node + 1 - first) =
          List.range' first (middle - first) ++ (List.range' middle (node - middle) ++ [node]) := by
        rw [show node + 1 - first = (middle - first) + (node - middle + 1) by omega,
          ← List.range'_append_1, List.range'_concat]
        congr 3 <;> omega
      rw [hsplit]
      refine hp₁.append ?_
      exact (List.perm_append_singleton node l₂).symm.trans (hp₂.append_right [node])
    · have hlen : (l₁ ++ node :: l₂).length + steps = l₁.length + (l₂.length + steps + 1) := by
        simp; omega
      rw [hlen, List.append_assoc, hl₁, List.singleton_append, preorder, hl₂]
      simp

end Tree

end Jpql
