import Jpql.Proofs.Reader.Passage
import Jpql.Proofs.Scope.Visible

/-! # Levels of a tree

The limit on nesting counts the constructs that are open at a place: parentheses, signs, negations, what
a keyword introduces, and subqueries, unless they stand right inside such a construct
(`NodeKind.opens`). The kind of a node and that of its parent tell what it opens, so the levels can be
counted on the finished tree (`Tree.openLevels`).

* `Draft.Within`: below a node of a draft at most so many levels are open, and exactly so many at each
  place where text was cut off for lying too deep.
* `Draft.Within.keeps`: what is written later leaves the levels as they are. -/

namespace Jpql

namespace NodeKind

/-- **Constructs that open a level**: parentheses, signs, negations, and what a keyword introduces. -/
def opensLevel : NodeKind → Bool
  | .group _ | .not _ | .sign .. | .existence .. | .quantified .. | .basicFunction .. | .size _
  | .index _ | .key _ | .value _ | .entry _ | .type _ | .mod .. | .locate .. | .substring ..
  | .concat _ | .trim .. | .aggregate .. | .coalesce _ | .nullif .. | .caseOf .. | .treat ..
  | .call .. | .constructor .. | .object _ => true
  | _ => false

/-- A subquery right below such a node is read on the level of the node. A whole text may be such a
node: that depends on the rule it is read from. -/
def holdsSubquery (whole : Bool) : NodeKind → Bool
  | .group _ | .existence .. | .quantified .. => true
  | .query .. => whole
  | _ => false

/-- How many levels a node opens; `held` says that it is read on the level of its parent if it is a
subquery. -/
def opens (held : Bool) (kind : NodeKind) : Nat :=
  (kind.opensLevel || (kind.isSubquery && !held)).toNat

/-- Nodes that open no level and hold no subquery. -/
def isFlat (whole : Bool) (kind : NodeKind) : Bool :=
  !kind.opensLevel && !kind.isSubquery && !kind.holdsSubquery whole

theorem isFlat_iff {whole : Bool} {kind : NodeKind} : kind.isFlat whole = true ↔
    kind.opensLevel = false ∧ kind.isSubquery = false ∧ kind.holdsSubquery whole = false := by
  simp [isFlat, and_assoc]

@[simp] theorem opensLevel_asCollection (kind : NodeKind) :
    kind.asCollection.opensLevel = kind.opensLevel := by
  cases kind <;> rfl

@[simp] theorem isSubquery_asCollection (kind : NodeKind) :
    kind.asCollection.isSubquery = kind.isSubquery := by
  cases kind <;> rfl

@[simp] theorem holdsSubquery_asCollection (whole : Bool) (kind : NodeKind) :
    kind.asCollection.holdsSubquery whole = kind.holdsSubquery whole := by
  cases kind <;> rfl

@[simp] theorem opens_asCollection (held : Bool) (kind : NodeKind) :
    kind.asCollection.opens held = kind.opens held := by
  rw [opens, opens, opensLevel_asCollection, isSubquery_asCollection]

/-- Only subqueries depend on where they stand. -/
theorem opens_of_not_isSubquery {kind : NodeKind} (h : kind.isSubquery = false) (held : Bool) :
    kind.opens held = kind.opensLevel.toNat := by
  rw [opens, h, Bool.false_and, Bool.or_false]

end NodeKind

namespace Tree

/-- The node opens a level. -/
def opensLevel (tree : Tree) (whole : Bool) (id : NodeId) : Bool :=
  (tree.kind id).opensLevel || ((tree.kind id).isSubquery &&
    !(tree.parent? id).any fun parent => (tree.kind parent).holdsSubquery whole)

/-- **The number of levels that are open at a node**, itself counted. -/
def openLevels (tree : Tree) (whole : Bool) (id : NodeId) : Nat :=
  (id :: tree.ancestors id).countP (tree.opensLevel whole)

end Tree

namespace Parse

namespace Draft

/-- **Text was cut off at the node** for lying too deep. -/
def IsCut (draft : Draft) (id : NodeId) : Prop :=
  ∃ problem ∈ draft.problems, problem.key = .nestingTooDeep ∧ problem.anchor = some id

/-- Text is cut off at nodes that there are. -/
def CutsNodes (draft : Draft) : Prop :=
  ∀ problem ∈ draft.problems, problem.key = .nestingTooDeep →
    ∃ id < draft.size, problem.anchor = some id

variable {draft after : Draft} {whole held : Bool} {levels id : Nat}

/-- **Below the node at most so many levels are open**, and exactly so many where text was cut off. -/
inductive Below (draft : Draft) (whole : Bool) : (levels : Nat) → NodeId → Prop
  | intro {levels id : Nat} (lt_size : id < draft.size) (cut : draft.IsCut id → levels = 0)
      (opens_le : ∀ child ∈ draft.children id,
        (draft.kind child).opens ((draft.kind id).holdsSubquery whole) ≤ levels)
      (below : ∀ child ∈ draft.children id, Below draft whole
        (levels - (draft.kind child).opens ((draft.kind id).holdsSubquery whole)) child) :
      Below draft whole levels id

/-- The same, where the node itself is counted. -/
structure Within (draft : Draft) (whole held : Bool) (levels : Nat) (id : NodeId) : Prop where
  opens_le : (draft.kind id).opens held ≤ levels
  below : draft.Below whole (levels - (draft.kind id).opens held) id

theorem Below.lt_size (h : draft.Below whole levels id) : id < draft.size := by
  cases h with
  | intro hlt => exact hlt

theorem Below.children (h : draft.Below whole levels id) :
    ∀ child ∈ draft.children id,
      draft.Within whole ((draft.kind id).holdsSubquery whole) levels child := by
  cases h with
  | intro _ _ hopens hbelow => exact fun child hc => ⟨hopens child hc, hbelow child hc⟩

theorem Below.cut (h : draft.Below whole levels id) (hcut : draft.IsCut id) : levels = 0 := by
  cases h with
  | intro _ hzero => exact hzero hcut

theorem Below.of_children (hlt : id < draft.size) (hcut : draft.IsCut id → levels = 0)
    (h : ∀ child ∈ draft.children id,
      draft.Within whole ((draft.kind id).holdsSubquery whole) levels child) :
    draft.Below whole levels id :=
  .intro hlt hcut (fun child hc => (h child hc).opens_le) fun child hc => (h child hc).below

theorem Within.lt_size (h : draft.Within whole held levels id) : id < draft.size := h.below.lt_size

/-- Where a node is no subquery, it does not matter where it stands. -/
theorem Within.of_not_isSubquery (h : draft.Within whole held levels id)
    (hkind : (draft.kind id).isSubquery = false) (other : Bool) :
    draft.Within whole other levels id := by
  have heq : (draft.kind id).opens held = (draft.kind id).opens other := by
    rw [NodeKind.opens_of_not_isSubquery hkind, NodeKind.opens_of_not_isSubquery hkind]
  exact ⟨heq ▸ h.opens_le, heq ▸ h.below⟩

/-! ## Later drafts -/

/-- **A later draft leaves the levels of an earlier one as they are.** -/
structure Keeps (before after : Draft) : Prop where
  size_le : before.size ≤ after.size
  kind : ∀ id < before.size,
    after.kind id = before.kind id ∨ after.kind id = (before.kind id).asCollection
  cut : ∀ id < before.size, after.IsCut id → before.IsCut id

namespace Keeps

theorem refl (draft : Draft) : draft.Keeps draft := ⟨Nat.le_refl _, fun _ _ => .inl rfl, fun _ _ => id⟩

theorem trans {a b c : Draft} (h : a.Keeps b) (k : b.Keeps c) : a.Keeps c where
  size_le := Nat.le_trans h.size_le k.size_le
  kind id hid := by
    have hnext := k.kind id (Nat.lt_of_lt_of_le hid h.size_le)
    rcases h.kind id hid with hsame | hsame <;> rw [hsame] at hnext
    · exact hnext
    · refine .inr (hnext.elim (fun hkept => hkept) fun htwice => htwice.trans ?_)
      cases a.kind id <;> rfl
  cut id hid hcut := h.cut id hid (k.cut id (Nat.lt_of_lt_of_le hid h.size_le) hcut)

theorem children (h : draft.Keeps after) (hid : id < draft.size) :
    after.children id = draft.children id := by
  rw [Draft.children, Draft.children]
  rcases h.kind id hid with hsame | hsame <;> rw [hsame]
  rw [NodeKind.children_asCollection]

theorem holdsSubquery (h : draft.Keeps after) (hid : id < draft.size) :
    (after.kind id).holdsSubquery whole = (draft.kind id).holdsSubquery whole := by
  rcases h.kind id hid with hsame | hsame <;> rw [hsame]
  rw [NodeKind.holdsSubquery_asCollection]

theorem isSubquery (h : draft.Keeps after) (hid : id < draft.size) :
    (after.kind id).isSubquery = (draft.kind id).isSubquery := by
  rcases h.kind id hid with hsame | hsame <;> rw [hsame]
  rw [NodeKind.isSubquery_asCollection]

theorem opens (h : draft.Keeps after) (hid : id < draft.size) :
    (after.kind id).opens held = (draft.kind id).opens held := by
  rcases h.kind id hid with hsame | hsame <;> rw [hsame]
  rw [NodeKind.opens_asCollection]

end Keeps

theorem Below.keeps (h : draft.Below whole levels id) (k : draft.Keeps after) :
    after.Below whole levels id := by
  induction h with
  | @intro levels id hlt hcut hopens hbelow ih =>
    have hchild : ∀ child ∈ after.children id, child ∈ draft.children id :=
      fun child hc => k.children hlt ▸ hc
    have hsame : ∀ child ∈ draft.children id,
        (after.kind child).opens ((after.kind id).holdsSubquery whole) =
          (draft.kind child).opens ((draft.kind id).holdsSubquery whole) := fun child hc => by
      rw [k.holdsSubquery hlt, k.opens (hbelow child hc).lt_size]
    refine .intro (Nat.lt_of_lt_of_le hlt k.size_le) (fun hc => hcut (k.cut id hlt hc))
      (fun child hc => ?_) fun child hc => ?_
    · rw [hsame child (hchild child hc)]
      exact hopens child (hchild child hc)
    · rw [hsame child (hchild child hc)]
      exact ih child (hchild child hc)

/-- **What is written later leaves the levels as they are.** -/
theorem Within.keeps (h : draft.Within whole held levels id) (k : draft.Keeps after) :
    after.Within whole held levels id := by
  have heq : (after.kind id).opens held = (draft.kind id).opens held := k.opens h.lt_size
  exact ⟨heq ▸ h.opens_le, heq ▸ h.below.keeps k⟩

/-! ## Steps -/

theorem kind_asCollection_or (draft : Draft) (id other : NodeId) :
    (draft.asCollection id).kind other = draft.kind other ∨
      (draft.asCollection id).kind other = (draft.kind other).asCollection := by
  rcases Nat.lt_or_ge id draft.size with hlt | hge
  · rw [kind_asCollection draft hlt]
    split
    · next heq => exact .inr (heq ▸ rfl)
    · exact .inl rfl
  · have hbad : draft.kind id = .bad := TreeBuilder.kind_of_size_le hge
    rw [asCollection_eq_self (by rw [hbad]; rfl)]
    exact .inl rfl

theorem Keeps.push (draft : Draft) (kind : NodeKind) (span : Span) :
    draft.Keeps (draft.push kind span) where
  size_le := (draft.grows_push kind span).size_le
  kind id hid := .inl ((draft.grows_push kind span).kind_eq id hid)
  cut _ _ := id

theorem Keeps.asCollection (draft : Draft) (id : NodeId) : draft.Keeps (draft.asCollection id) where
  size_le := Nat.le_of_eq (draft.size_asCollection id).symm
  kind other _ := draft.kind_asCollection_or id other
  cut _ _ hcut := hcut

/-- A problem cuts off at most the node it is anchored at. -/
theorem IsCut.of_record {problem : Problem} (h : (draft.record problem).IsCut id) :
    draft.IsCut id ∨ problem.key = .nestingTooDeep ∧ problem.anchor = some id := by
  obtain ⟨other, hmem, hkey, hanchor⟩ := h
  rcases List.mem_append.mp hmem with hold | hnew
  · exact .inl ⟨other, hold, hkey, hanchor⟩
  · exact .inr (List.mem_singleton.mp hnew ▸ ⟨hkey, hanchor⟩)

/-- Problems at nodes of an earlier draft cut nothing off, if they have another cause. -/
theorem Keeps.record {before : Draft} (h : before.Keeps draft) {problem : Problem}
    (hnew : ∀ id < before.size, problem.key = .nestingTooDeep → problem.anchor ≠ some id) :
    before.Keeps (draft.record problem) where
  size_le := h.size_le
  kind := h.kind
  cut id hid hcut := hcut.of_record.elim (h.cut id hid) fun ⟨hkey, hanchor⟩ =>
    absurd hanchor (hnew id hid hkey)

theorem CutsNodes.of_size_le {draft after : Draft} (h : draft.CutsNodes)
    (hproblems : after.problems = draft.problems) (hsize : draft.size ≤ after.size) :
    after.CutsNodes := fun problem hmem hkey => by
  obtain ⟨id, hid, hanchor⟩ := h problem (hproblems ▸ hmem) hkey
  exact ⟨id, Nat.lt_of_lt_of_le hid hsize, hanchor⟩

theorem CutsNodes.record (h : draft.CutsNodes) {problem : Problem}
    (hnew : problem.key = .nestingTooDeep → ∃ id < draft.size, problem.anchor = some id) :
    (draft.record problem).CutsNodes := fun other hmem hkey => by
  rcases List.mem_append.mp hmem with hold | hlast
  · exact h other hold hkey
  · exact List.mem_singleton.mp hlast ▸ hnew (List.mem_singleton.mp hlast ▸ hkey)

/-- A node that is new was not cut off. -/
theorem CutsNodes.not_isCut (h : draft.CutsNodes) (hid : draft.size ≤ id) : ¬ draft.IsCut id := by
  rintro ⟨problem, hmem, hkey, hanchor⟩
  obtain ⟨other, hlt, hother⟩ := h problem hmem hkey
  rw [hanchor] at hother
  cases hother
  exact absurd hid (Nat.not_le_of_lt hlt)

/-- **A new node opens its levels above those of its children.** -/
theorem Within.push {kind : NodeKind} (hcuts : draft.CutsNodes) (h : ∀ child ∈ kind.children,
      draft.Within whole (kind.holdsSubquery whole) levels child) (held : Bool) (span : Span) :
    (draft.push kind span).Within whole held (levels + kind.opens held) draft.size := by
  have hkind := draft.kind_push kind span
  have hlt : draft.size < (draft.push kind span).size := by
    rw [Draft.size_push]
    exact Nat.lt_succ_self _
  refine ⟨by rw [hkind]; exact Nat.le_add_left _ _, ?_⟩
  rw [hkind, Nat.add_sub_cancel]
  refine .of_children hlt (fun hcut => absurd hcut (hcuts.not_isCut (Nat.le_refl _))) ?_
  rw [Draft.children, hkind]
  exact fun child hc => (h child hc).keeps (.push _ _ _)

/-- A new node for a defect of the text opens nothing. It uses up all levels that are left if it stands
for text that was cut off. -/
theorem Within.pushRecord {kind : NodeKind} (hcuts : draft.CutsNodes) (hchildren : kind.children = [])
    (hopens : kind.opensLevel = false ∧ kind.isSubquery = false) (span : Span) {problem : Problem}
    (hlevels : problem.key = .nestingTooDeep → levels = 0) :
    ((draft.push kind span).record problem).Within whole held levels draft.size := by
  have hkind : ((draft.push kind span).record problem).kind draft.size = kind := draft.kind_push kind span
  have hzero : kind.opens held = 0 := by
    rw [NodeKind.opens_of_not_isSubquery hopens.2, hopens.1]
    rfl
  have hlt : draft.size < (draft.push kind span).size := by
    rw [Draft.size_push]
    exact Nat.lt_succ_self _
  refine ⟨by rw [hkind, hzero]; exact Nat.zero_le _, ?_⟩
  rw [hkind, hzero, Nat.sub_zero]
  refine .of_children hlt (fun hcut => ?_) fun child hc => ?_
  · rcases hcut.of_record with hold | ⟨hkey, -⟩
    · exact absurd hold (hcuts.not_isCut (Nat.le_refl _))
    · exact hlevels hkey
  · rw [Draft.children, hkind, hchildren] at hc
    exact absurd hc List.not_mem_nil

end Draft

end Parse

end Jpql
