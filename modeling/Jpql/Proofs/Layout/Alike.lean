import Jpql.Problem.Basic
import Jpql.Proofs.Reader.Draft

/-! # What does not depend on the layout of a text

Two texts with the same tokens differ in the places of their tokens only. Nodes that are read from
them are *alike*: they agree in all but their spans, the spans of their segments, and the wording of
text that has no place in the grammar. Problems are compared by their *outline*, the cause and the
node they belong to.

* `NodeKind.Alike`, `Draft.Alike`, `Tree.Alike`: kinds, drafts and trees that agree in this sense.
* `Draft.Similar`: drafts whose kinds are related, by whatever relation keeps the children.
* `Draft.Alike.push`, `Draft.Alike.record`, `Draft.Alike.asCollection`: what is written to drafts that
  are alike keeps them so. -/

namespace Jpql

/-- **Kinds that agree in all but places** and the wording of leftover text. -/
inductive NodeKind.Alike : NodeKind → NodeKind → Prop
  | refl (kind : NodeKind) : Alike kind kind
  | path (kind : PathKind) (root : NodeId) (dot : Bool) {left right : List (Located String)}
      (h : left.map (·.value) = right.map (·.value)) :
      Alike (.path kind root left dot) (.path kind root right dot)
  | unknown (left right : String) : Alike (.unknown left) (.unknown right)

namespace NodeKind.Alike

variable {a b : NodeKind}

theorem children (h : a.Alike b) : a.children = b.children := by
  cases h <;> rfl

theorem asCollection (h : a.Alike b) : a.asCollection.Alike b.asCollection := by
  cases h with
  | refl => exact .refl _
  | path _ root dot h => exact .path _ root dot h
  | unknown left right => exact .unknown left right

end NodeKind.Alike

/-- The cause of a problem and the node it belongs to. -/
def Problem.outline (problem : Problem) : ProblemKey × Option NodeId :=
  (problem.key, problem.anchor)

/-- **A relation between kinds that drafts can be built along**: it keeps the children, and paths may be
read as collection-valued. -/
structure NodeKind.Congruence (R : NodeKind → NodeKind → Prop) : Prop where
  refl : ∀ kind, R kind kind
  children : ∀ {a b}, R a b → a.children = b.children
  asCollection : ∀ {a b}, R a b → R a.asCollection b.asCollection

theorem NodeKind.congruence_alike : Congruence Alike := ⟨.refl, Alike.children, Alike.asCollection⟩

namespace Parse.Draft

/-- **Drafts of as many nodes, whose kinds are related** and whose parents are the same. -/
structure Similar (R : NodeKind → NodeKind → Prop) (a b : Draft) : Prop where
  size : a.size = b.size
  kind : ∀ id, R (a.kind id) (b.kind id)
  parent : ∀ id, a.parent? id = b.parent? id

namespace Similar

variable {R : NodeKind → NodeKind → Prop} (hR : NodeKind.Congruence R) {a b : Draft}

include hR

theorem push (h : a.Similar R b) {new other : NodeKind} (hkind : R new other) (span place : Span) :
    (a.push new span).Similar R (b.push other place) where
  size := by rw [size_push, size_push, h.size]
  kind id := by
    rcases Nat.lt_trichotomy id a.size with hlt | rfl | hgt
    · rw [(a.grows_push new span).kind_eq id hlt,
        (b.grows_push other place).kind_eq id (h.size ▸ hlt)]
      exact h.kind id
    · rw [kind_push, h.size, kind_push]
      exact hkind
    · have hle : (a.push new span).size ≤ id := by rw [size_push]; exact hgt
      have hle' : (b.push other place).size ≤ id := by rw [size_push, ← h.size]; exact hgt
      rw [Draft.kind, Draft.kind, TreeBuilder.kind_of_size_le hle, TreeBuilder.kind_of_size_le hle']
      exact hR.refl _
  parent id := by
    rcases Nat.lt_trichotomy id a.size with hlt | rfl | hgt
    · have hl := TreeBuilder.parent?_push_of_lt a.builder new span hlt
      have hr := TreeBuilder.parent?_push_of_lt b.builder other place (h.size ▸ hlt)
      have hsize : a.builder.nodes.size = b.builder.nodes.size := h.size
      have hparent : a.builder.parent? id = b.builder.parent? id := h.parent id
      rw [hR.children hkind, hsize, hparent] at hl
      exact hl.trans hr.symm
    · have hr := TreeBuilder.parent?_push_self b.builder other place
      rw [← show a.size = b.builder.nodes.size from h.size] at hr
      exact (TreeBuilder.parent?_push_self a.builder new span).trans hr.symm
    · have hle : (a.push new span).size ≤ id := by rw [size_push]; exact hgt
      have hle' : (b.push other place).size ≤ id := by rw [size_push, ← h.size]; exact hgt
      show ((a.push new span).builder.nodes[id]?).bind _ = ((b.push other place).builder.nodes[id]?).bind _
      rw [Array.getElem?_eq_none hle, Array.getElem?_eq_none hle']

theorem asCollection (h : a.Similar R b) (id : Nat) :
    (a.asCollection id).Similar R (b.asCollection id) where
  size := by rw [size_asCollection, size_asCollection, h.size]
  kind other := by
    rcases Nat.lt_or_ge id a.size with hlt | hge
    · rw [kind_asCollection a hlt, kind_asCollection b (h.size ▸ hlt)]
      split
      · exact hR.asCollection (h.kind id)
      · exact h.kind other
    · rw [asCollection_eq_self, asCollection_eq_self]
      · exact h.kind other
      · rw [Draft.kind, TreeBuilder.kind_of_size_le (by rwa [← Draft.size, ← h.size])]
        rfl
      · rw [Draft.kind, TreeBuilder.kind_of_size_le hge]
        rfl
  parent other := by
    show (a.asCollection id).builder.parent? other = (b.asCollection id).builder.parent? other
    rw [show (a.asCollection id).builder.parent? other = a.builder.parent? other from
        TreeBuilder.parent?_retag _ _ _ _,
      show (b.asCollection id).builder.parent? other = b.builder.parent? other from
        TreeBuilder.parent?_retag _ _ _ _]
    exact h.parent other

end Similar

/-- **Drafts that agree in all but places** and the wording of problems and leftover text. -/
structure Alike (a b : Draft) : Prop where
  size : a.size = b.size
  kind : ∀ id, (a.kind id).Alike (b.kind id)
  parent : ∀ id, a.parent? id = b.parent? id
  problems : a.problems.map Problem.outline = b.problems.map Problem.outline

namespace Alike

variable {a b : Draft}

theorem refl (a : Draft) : a.Alike a := ⟨rfl, fun _ => .refl _, fun _ => rfl, rfl⟩

theorem similar (h : a.Alike b) : a.Similar NodeKind.Alike b := ⟨h.size, h.kind, h.parent⟩

theorem push (h : a.Alike b) {new other : NodeKind} (hkind : new.Alike other)
    (span place : Span) : (a.push new span).Alike (b.push other place) :=
  have hpush := h.similar.push NodeKind.congruence_alike hkind span place
  ⟨hpush.size, hpush.kind, hpush.parent, h.problems⟩

theorem record (h : a.Alike b) {problem other : Problem}
    (houtline : problem.outline = other.outline) : (a.record problem).Alike (b.record other) where
  size := h.size
  kind := h.kind
  parent := h.parent
  problems := by
    show (a.problems ++ [problem]).map _ = (b.problems ++ [other]).map _
    rw [List.map_append, List.map_append, h.problems, List.map_singleton, List.map_singleton,
      houtline]

theorem asCollection (h : a.Alike b) (id : Nat) : (a.asCollection id).Alike (b.asCollection id) :=
  have hread := h.similar.asCollection NodeKind.congruence_alike id
  ⟨hread.size, hread.kind, hread.parent, h.problems⟩

end Alike

end Parse.Draft

/-- **Trees that agree in all but places** and the wording of leftover text. -/
structure Tree.Alike (a b : Tree) : Prop where
  root : a.root = b.root
  size : a.size = b.size
  kind : ∀ id, (a.kind id).Alike (b.kind id)
  parent : ∀ id, a.parent? id = b.parent? id

theorem Tree.Alike.children {a b : Tree} (h : a.Alike b) (id : Nat) :
    a.children id = b.children id :=
  (h.kind id).children

end Jpql
