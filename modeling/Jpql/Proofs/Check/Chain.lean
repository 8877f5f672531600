import Jpql.Proofs.Check.Subquery

/-! # Checking ordinary nodes and chains

Most nodes are accounted for by their children alone. The operands of a chain of connectives are
visited in its place: they lie apart, and hold what the chain holds but the connectives
(`Tree.Chain`). -/

namespace Jpql

/-- The node is a connective. -/
def NodeKind.isLogical : NodeKind → Bool
  | .logical .. => true
  | _ => false

theorem NodeKind.exists_of_isLogical {kind : NodeKind} (h : kind.isLogical = true) :
    ∃ connective left right, kind = .logical connective left right := by
  cases kind <;> first | exact absurd h Bool.false_ne_true | exact ⟨_, _, _, rfl⟩

namespace Tree

variable {tree : Tree} {id : Nat}

/-- **The operands of a chain** lie apart, and hold what the chain holds but its connectives. What
connectives pass on to their operands holds of them. -/
structure Chain (tree : Tree) (id : Nat) (ids : List Nat) : Prop where
  apart : ids.Pairwise tree.Apart
  below : ∀ operand ∈ ids, tree.Holds id operand
  covers : ∀ inner, tree.Holds id inner →
    tree.Below ids inner ∨ (tree.kind inner).isLogical = true
  closed : ∀ P : Nat → Prop, P id →
    (∀ node child, (tree.kind node).isLogical = true → child ∈ tree.children node → P node → P child) →
    ∀ operand ∈ ids, P operand

theorem Chain.single : tree.Chain id [id] :=
  ⟨by simp, by simpa using .refl, fun inner h => .inl (by simpa using h),
    fun P hid _ operand hmem => List.mem_singleton.mp hmem ▸ hid⟩

/-- A chain goes on with the operand on its right. -/
theorem Chain.step (hwf : tree.WellFormed) {connective : Connective} {left right : Nat}
    (hk : tree.kind id = .logical connective left right) {ids : List Nat} (h : tree.Chain left ids) :
    tree.Chain id (ids ++ [right]) := by
  have hchildren : tree.children id = [left, right] := by rw [Tree.children, hk]; rfl
  have hleft : left ∈ tree.children id := by simp [hchildren]
  have hright : right ∈ tree.children id := by simp [hchildren]
  have hlogical : (tree.kind id).isLogical = true := by rw [hk]; rfl
  have hapart : tree.Apart left right := apart_of_children hwf hchildren
  refine ⟨?_, ?_, fun inner hinner => ?_, fun P hid hstep => ?_⟩
  · refine List.pairwise_append.mpr ⟨h.apart, by simp, fun operand hmem other hother => ?_⟩
    obtain rfl := List.mem_singleton.mp hother
    exact fun inner hinner => hapart inner ((h.below operand hmem).trans hinner)
  · exact List.forall_mem_append.mpr ⟨fun operand hmem => (h.below operand hmem).of_child hwf hleft,
      by simpa using Holds.refl.of_child hwf hright⟩
  · rw [holds_iff hwf, hchildren] at hinner
    rcases hinner with rfl | ⟨operand, hmem, hinner⟩
    · exact .inr hlogical
    · rw [below_append]
      simp only [List.mem_cons, List.not_mem_nil, or_false] at hmem
      rcases hmem with rfl | rfl
      · exact (h.covers inner hinner).imp_left .inl
      · exact .inl (.inr (by simpa using hinner))
  · exact List.forall_mem_append.mpr ⟨h.closed P (hstep id left hlogical hleft hid) hstep,
      by simpa using hstep id right hlogical hright hid⟩

theorem chain_from (hwf : tree.WellFormed) (depth id : Nat) (rest : List Nat) :
    ∃ ids, tree.chainFrom depth id rest = ids ++ rest ∧ tree.Chain id ids := by
  induction depth generalizing id rest with
  | zero => exact ⟨[id], rfl, .single⟩
  | succ depth ih =>
    rw [chainFrom]
    split
    · next connective left right hk =>
      obtain ⟨ids, heq, hchain⟩ := ih left (right :: rest)
      exact ⟨ids ++ [right], by rw [heq]; simp, hchain.step hwf hk⟩
    · exact ⟨[id], rfl, .single⟩

/-- **What is visited in place of a chain are its operands.** -/
theorem chain_operands (hwf : tree.WellFormed) (id : Nat) :
    tree.Chain id (tree.chainOperands id) := by
  obtain ⟨ids, heq, hchain⟩ := chain_from hwf (id + 1) id []
  rw [List.append_nil] at heq
  rw [chainOperands, heq]
  exact hchain

end Tree

/-- The kinds of nodes that do nothing special with their children. -/
def NodeKind.isOrdinary : NodeKind → Bool
  | .rangeDeclaration .. | .collectionDeclaration .. | .join .. | .resultVariable ..
  | .updateItem .. | .path .stateField .. | .selectStatement .. | .simpleSelectStatement ..
  | .updateStatement .. | .deleteStatement .. | .identifier _ false _ => false
  | _ => true

theorem NodeKind.not_isStatement_of_isOrdinary {kind : NodeKind} (h : kind.isOrdinary = true) :
    kind.isStatement = false := by
  cases kind <;> first | rfl | exact absurd h Bool.false_ne_true

theorem NodeKind.not_marks_of_isOrdinary {kind : NodeKind} (h : kind.isOrdinary = true)
    (child : Nat) : ¬kind.Marks child := by
  rintro (hintro | ⟨value, rfl⟩ | ⟨segments, rfl⟩)
  · unfold introduces? at hintro
    split at hintro <;> first | exact absurd h Bool.false_ne_true | cases hintro
  · exact absurd h Bool.false_ne_true
  · exact absurd h Bool.false_ne_true

theorem NodeKind.isOrdinary_of_isLogical {kind : NodeKind} (h : kind.isLogical = true) :
    kind.isOrdinary = true := by
  cases kind <;> first | rfl | exact absurd h Bool.false_ne_true

namespace Check.Subject

variable {q : Subject} {id child : Nat} {visit : Visitor}

/-! ## Ordinary nodes -/

theorem not_uses_of_isOrdinary (hord : (q.tree.kind id).isOrdinary = true) : ¬q.Uses id :=
  not_uses fun name behind hk => by
    rw [hk] at hord
    exact absurd hord Bool.false_ne_true

section

variable (hid : q.IsPlain id) (hord : (q.tree.kind id).isOrdinary = true)
  (hc : child ∈ q.tree.children id)

include hid hord hc

theorem IsPlain.of_child : q.IsPlain child :=
  isPlain_of_child hc
    (placed_of_child hc (NodeKind.not_isStatement_of_isOrdinary hord) hid.placed)
    (NodeKind.not_marks_of_isOrdinary hord child)

theorem visit_ordinary (hv : q.Visits visit) :
    q.Affects id (q.tree.Holds child) (visit child) fun _ => True :=
  (hv.affects child (hid.of_child hord hc)).of_child hc (NodeKind.not_isStatement_of_isOrdinary hord)

end

/-- **An ordinary node is accounted for by its children.** -/
theorem visitChildren_ordinary (hv : q.Visits visit) (hid : q.IsPlain id)
    (hord : (q.tree.kind id).isOrdinary = true) :
    q.Affects id (q.tree.Holds id) (visitChildren visit id) fun _ => True :=
  .inTree_bind (Handles.affects (not_uses_of_isOrdinary hord)
    (.forM fun _ hc => visit_ordinary hid hord hc hv))

/-- A node without children is accounted for by nothing. -/
theorem leaf_affects {p : Checker Unit} (hord : (q.tree.kind id).isOrdinary = true)
    (hleaf : q.tree.children id = [])
    (h : q.Affects id (fun _ => False) p fun _ => True) :
    q.Affects id (q.tree.Holds id) p fun _ => True := by
  refine h.congr fun inner huse => ⟨False.elim, fun hinner => not_uses_of_isOrdinary hord ?_⟩
  rw [← hinner.eq_of_leaf q.isQuery.wellFormed hleaf]
  exact huse

/-! ## Chains -/

/-- What holds of a plain chain holds of its operands. -/
theorem plain_of_chain {ids : List Nat} (h : q.tree.Chain id ids) (hid : q.IsPlain id) {operand : Nat}
    (hmem : operand ∈ ids) :
    q.IsPlain operand ∧ q.context operand = q.context id ∧
      q.tree.scopeNode? operand = q.tree.scopeNode? id := by
  refine h.closed (fun operand => q.IsPlain operand ∧ q.context operand = q.context id ∧
    q.tree.scopeNode? operand = q.tree.scopeNode? id) ⟨hid, rfl, rfl⟩ ?_ operand hmem
  rintro node child hlogical hc ⟨hplain, hcontext, hscope⟩
  have hord : (q.tree.kind node).isOrdinary = true := NodeKind.isOrdinary_of_isLogical hlogical
  have hkind := NodeKind.not_isStatement_of_isOrdinary hord
  exact ⟨hplain.of_child hord hc, (context_of_child hc hkind).trans hcontext,
    (scopeNode?_of_child hc hkind).trans hscope⟩

/-- **A chain is accounted for by its operands.** -/
theorem chainOperands_affects (hv : q.Visits visit) (hid : q.IsPlain id) :
    q.Affects id (q.tree.Holds id) (visitAll visit (q.tree.chainOperands id)) fun _ => True := by
  have hchain := Tree.chain_operands q.isQuery.wellFormed id
  refine (Handles.forM (fun operand hmem => ?_) hchain.apart).congr fun inner huse => ⟨?_, fun h => ?_⟩
  · obtain ⟨hplain, hcontext, hscope⟩ := plain_of_chain hchain hid hmem
    exact (hv.affects operand hplain).move hcontext hscope
  · rintro ⟨operand, hmem, hinner⟩
    exact (hchain.below operand hmem).trans hinner
  · refine (hchain.covers inner h).resolve_right fun hlogical => ?_
    exact not_uses_of_isOrdinary (NodeKind.isOrdinary_of_isLogical hlogical) huse

end Check.Subject

end Jpql
