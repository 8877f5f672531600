import Jpql.Proofs.Chain.Node
import Jpql.Proofs.Tree.WellFormed

/-! # Chains of connectives, visited flat and nested

A check visits the operands of a chain of connectives in turn, one level below the chain. The plain way
would be to visit the left side and then the right side of each connective, a level below it.

* `Check.visitNestedTo`: the visitor that goes the plain way, at every connective it comes to.
* `Tree.IsFlattened`: at a node both ways come to the same, as long as nothing lies too deep for them;
  and the flat way needs no more levels than the operands.
* `parse_isFlattened`: this is so at every connective of every tree that is read. -/

namespace Jpql

namespace Check

/-- What is done at a node, if connectives are like other nodes with two children. -/
def visitKindNested (visit : Visitor) (id : NodeId) : Checker Unit := do
  match ← kindOf id with
  | .logical _ left right =>
    visit left
    visit right
  | _ => visitKind visit id

/-- **The visitor that recurses at every connective**, for a number of levels. -/
def visitNestedTo : (levels : Nat) → Visitor
  | 0, id => leaveOut id
  | levels + 1, id => visitKindNested (visitNestedTo levels) id

/-- **An operation leaves nothing out**, whatever was left out before. -/
def StaysWithin {α : Type} (p : Checker α) (env : Env) (s : State) : Prop :=
  (p env { s with exceeded := false }).2.exceeded = false

namespace Extends

variable {α : Type} {tree : Tree} {p r : Checker α} {env : Env} {s : State}

/-- **What goes as far ends in the same state**, given that it is told from the place whether anything
is left out. -/
theorem run_eq (hp : Extends tree p p) (h : Extends tree p r) (hs : s.context.tree = tree)
    (hwithin : StaysWithin p env s) : StaysWithin r env s ∧ r env s = p env s := by
  obtain ⟨-, hexceeded, -⟩ := h.run env { s with exceeded := false } { s with exceeded := false }
    hs rfl rfl hwithin
  refine ⟨hexceeded, ?_⟩
  obtain ⟨hvalue, hleft, halike⟩ := hp.run env { s with exceeded := false } s hs rfl rfl hwithin
  obtain ⟨hvalue', hright, halike'⟩ := h.run env { s with exceeded := false } s hs rfl rfl hwithin
  obtain ⟨hproblems, hused, hregisters⟩ := halike ⟨rfl, rfl, rfl⟩
  obtain ⟨hproblems', hused', hregisters'⟩ := halike' ⟨rfl, rfl, rfl⟩
  refine Prod.ext (hvalue'.trans hvalue.symm) ?_
  have hcontext := (h.left.steady env s hs).context
  have hcontext' := (h.right.steady env s hs).context
  generalize (p env s).2 = t at *
  generalize (r env s).2 = t' at *
  obtain ⟨_, _, _, _, _⟩ := t
  obtain ⟨_, _, _, _, _⟩ := t'
  simp_all

end Extends

/-! ## Connectives -/

variable {tree : Tree} {id left right : Nat} {connective : Connective}

section

variable (visit : Visitor) (env : Env) (s : State)

/-- At a connective the flat way visits the operands in turn. -/
theorem visitKind_logical (hk : s.context.tree.kind id = .logical connective left right) :
    visitKind visit id env s = visitAll visit (s.context.tree.chainOperands id) env s := by
  rw [visitKind, kindOf_run, hk]
  rfl

/-- At a connective the plain way visits both sides in turn. -/
theorem visitKindNested_logical (hk : s.context.tree.kind id = .logical connective left right) :
    visitKindNested visit id env s = visitAll visit [left, right] env s := by
  rw [visitKindNested, kindOf_run, hk]
  rfl

/-- Elsewhere both ways do the same. -/
theorem visitKindNested_of_not_isLogical (h : (s.context.tree.kind id).isLogical = false) :
    visitKindNested visit id env s = visitKind visit id env s := by
  rw [visitKindNested, kindOf_run]
  cases hk : s.context.tree.kind id
  case logical =>
    rw [hk] at h
    cases h
  all_goals rfl

end

variable (hwf : tree.WellFormed)

include hwf

theorem visitKindNested_extends {visit visit' : Visitor}
    (hv : ∀ inner < id, Extends tree (visit inner) (visit' inner)) :
    Extends tree (visitKindNested visit id) (visitKindNested visit' id) := by
  refine .kindOf_bind ?_
  split
  · next hk =>
    exact (hv _ (Tree.left_lt hwf hk)).bind fun _ => hv _ (Tree.right_lt hwf hk)
  · exact visitKind_extends hwf hv

theorem visitNestedTo_self (levels id : Nat) :
    Extends tree (visitNestedTo levels id) (visitNestedTo levels id) := by
  induction levels generalizing id with
  | zero => exact .leaveOut .leaveOut
  | succ levels ih => exact visitKindNested_extends hwf fun inner _ => ih inner

/-! ## Both ways -/

/-- The operands of a chain are visited as those of its left side, and then its right side. -/
theorem visitAll_chainOperands (visit : Visitor)
    (hk : tree.kind id = .logical connective left right) :
    visitAll visit (tree.chainOperands id) =
      visitAll visit (tree.chainOperands left) >>= fun _ => visit right := by
  rw [Tree.chainOperands_logical hwf hk]
  exact List.forM_append

/-- **The plain way goes as far as the flat one** with as many levels more as connectives can nest. -/
theorem visitTo_extends_nested {levels more : Nat} (hle : levels + id ≤ more) :
    Extends tree (visitTo levels id) (visitNestedTo more id) ∧
      Extends tree (visitAll (visitTo levels) (tree.chainOperands id)) (visitNestedTo more id) := by
  induction id using Nat.strongRecOn generalizing levels more with
  | _ id ih =>
    have hnone : Extends tree (visitTo 0 id) (visitNestedTo more id) :=
      .leaveOut (visitNestedTo_self hwf more id).left
    cases hlogical : (tree.kind id).isLogical with
    | true =>
      obtain ⟨connective, left, right, hk⟩ := NodeKind.exists_of_isLogical hlogical
      have hleft := Tree.left_lt hwf hk
      have hright := Tree.right_lt hwf hk
      obtain _ | more := more
      · omega
      have hchain : ∀ levels, levels + id ≤ more + 1 →
          Extends tree (visitAll (visitTo levels) (tree.chainOperands id))
            (visitNestedTo (more + 1) id) := fun levels hle => by
        rw [visitAll_chainOperands hwf _ hk]
        refine ((ih left hleft (show levels + left ≤ more by omega)).2.bind fun _ =>
          (ih right hright (show levels + right ≤ more by omega)).1).congr (fun _ _ _ => rfl) ?_
        exact fun env s hs => visitKindNested_logical _ env s (by rw [hs, hk])
      refine ⟨?_, hchain levels hle⟩
      obtain _ | levels := levels
      · exact hnone
      · refine (hchain levels (by omega)).congr (fun env s hs => ?_) fun _ _ _ => rfl
        rw [← hs] at hk ⊢
        exact visitKind_logical _ env s hk
    | false =>
      rw [Tree.chainOperands_of_not_isLogical hlogical]
      suffices h : Extends tree (visitTo levels id) (visitNestedTo more id) from ⟨h, h⟩
      obtain _ | levels := levels
      · exact hnone
      obtain _ | more := more
      · omega
      refine (visitKind_extends hwf fun inner hlt =>
        (ih inner hlt (show levels + inner ≤ more by omega)).1).congr (fun _ _ _ => rfl) ?_
      exact fun env s hs => visitKindNested_of_not_isLogical _ env s (by rw [hs, hlogical])

/-- **The flat way goes as far as the plain one** with the same number of levels. -/
theorem visitNestedTo_extends {levels more : Nat} (hle : levels ≤ more) :
    Extends tree (visitNestedTo levels id) (visitTo more id) ∧
      Extends tree (visitNestedTo levels id) (visitAll (visitTo more) (tree.chainOperands id)) := by
  have hself := fun id => visitTo_extends hwf (Nat.le_refl more) id
  induction id using Nat.strongRecOn generalizing levels more with
  | _ id ih =>
    obtain _ | levels := levels
    · exact ⟨.leaveOut (hself id).left, .leaveOut (Extends.visitAll fun _ _ => hself _).left⟩
    obtain _ | more := more
    · omega
    cases hlogical : (tree.kind id).isLogical with
    | true =>
      obtain ⟨connective, left, right, hk⟩ := NodeKind.exists_of_isLogical hlogical
      have hchain : ∀ more, levels ≤ more → Extends tree (visitNestedTo (levels + 1) id)
          (visitAll (visitTo more) (tree.chainOperands id)) := fun more hle => by
        have hself := fun id => visitTo_extends hwf (Nat.le_refl more) id
        rw [visitAll_chainOperands hwf _ hk]
        refine ((ih left (Tree.left_lt hwf hk) hle hself).2.bind fun _ =>
          (ih right (Tree.right_lt hwf hk) hle hself).1).congr (fun env s hs => ?_) fun _ _ _ => rfl
        exact visitKindNested_logical _ env s (by rw [hs, hk])
      refine ⟨?_, hchain (more + 1) (by omega)⟩
      refine (hchain more (by omega)).congr (fun _ _ _ => rfl) fun env s hs => ?_
      rw [← hs] at hk ⊢
      exact visitKind_logical _ env s hk
    | false =>
      rw [Tree.chainOperands_of_not_isLogical hlogical]
      suffices h : Extends tree (visitNestedTo (levels + 1) id) (visitTo (more + 1) id) from ⟨h, h⟩
      refine (visitKind_extends hwf fun inner hlt => (ih inner hlt (Nat.le_of_succ_le_succ hle)
        fun id => visitTo_extends hwf (Nat.le_refl more) id).1).congr (fun env s hs => ?_)
          fun _ _ _ => rfl
      exact visitKindNested_of_not_isLogical _ env s (by rw [hs, hlogical])

end Check

open Check

/-- **A chain is visited flat as it is nested.** From every state of a check, as long as nothing is left
out, both ways leave the same problems, variables and scopes behind: the plain way needs no more levels
than there are nodes below the chain, and the flat way no more than the plain one. If each operand stays
within a number of levels, the chain needs one level more, however long it is. -/
structure Tree.IsFlattened (tree : Tree) (id : Nat) : Prop where
  nested : ∀ env s levels more, s.context.tree = tree → levels + id ≤ more →
    StaysWithin (visitTo levels id) env s → StaysWithin (visitNestedTo more id) env s ∧
      visitNestedTo more id env s = visitTo levels id env s
  flat : ∀ env s levels, s.context.tree = tree → StaysWithin (visitNestedTo levels id) env s →
    StaysWithin (visitTo levels id) env s ∧
      visitTo levels id env s = visitNestedTo levels id env s
  within : ∀ env s levels, s.context.tree = tree →
    (∀ operand, tree.IsOperand id operand → StaysWithin (visitTo levels operand) env s) →
      StaysWithin (visitTo (levels + 1) id) env s

namespace Check

/-- Whether anything is left out depends on the place alone. -/
theorem StaysWithin.of_context {α : Type} {tree : Tree} {p : Checker α} {env : Env} {s t : State}
    (h : StaysWithin p env s) (hp : Extends tree p p) (hs : s.context.tree = tree)
    (hcontext : t.context = s.context) : StaysWithin p env t :=
  (hp.run env { s with exceeded := false } { t with exceeded := false } hs hcontext rfl h).2.1

/-- **Nodes in turn stay within a limit** that each of them stays within. -/
theorem staysWithin_visitAll {tree : Tree} {visit : Visitor} {ids : List Nat} {env : Env} {s : State}
    (hv : ∀ id, Extends tree (visit id) (visit id)) (hs : s.context.tree = tree)
    (h : ∀ id ∈ ids, StaysWithin (visit id) env s) : StaysWithin (visitAll visit ids) env s := by
  induction ids generalizing s with
  | nil => rfl
  | cons id ids ih =>
    rw [List.forall_mem_cons] at h
    have hfirst := h.1
    have hcontext := ((hv id).left.steady env { s with exceeded := false } hs).context
    have hrest := ih (s := (visit id env { s with exceeded := false }).2) (by rw [hcontext, hs])
      fun other hmem => (h.2 other hmem).of_context (hv other) hs hcontext
    show (visitAll visit ids env (visit id env { s with exceeded := false }).2).2.exceeded = false
    unfold StaysWithin at hfirst
    generalize (visit id env { s with exceeded := false }).2 = t at hfirst hrest ⊢
    have heq : { t with exceeded := false } = t := by rw [← hfirst]
    rw [StaysWithin, heq] at hrest
    exact hrest

end Check

/-- **Every connective of every tree is visited flat as it is nested.** -/
theorem Tree.WellFormed.isFlattened {tree : Tree} (hwf : tree.WellFormed) {id : Nat}
    (hid : (tree.kind id).isLogical = true) : tree.IsFlattened id where
  nested _ _ levels _ hs hle := (visitTo_extends hwf (Nat.le_refl levels) id).run_eq
    (visitTo_extends_nested hwf hle).1 hs
  flat _ _ levels hs := (visitNestedTo_self hwf levels id).run_eq
    (visitNestedTo_extends hwf (Nat.le_refl levels)).1 hs
  within env s levels hs h := by
    obtain ⟨connective, left, right, hk⟩ := NodeKind.exists_of_isLogical hid
    have hall : StaysWithin (visitAll (visitTo levels) (tree.chainOperands id)) env s :=
      staysWithin_visitAll (visitTo_extends hwf (Nat.le_refl levels)) hs fun operand hmem =>
        h operand ((Tree.mem_chainOperands hwf hid).mp hmem)
    subst hs
    unfold StaysWithin at hall ⊢
    rw [visitTo, visitKind_logical (visitTo levels) env { s with exceeded := false } hk]
    exact hall

/-- **The connectives of every text that is read** are visited flat as they are nested. -/
theorem parse_isFlattened (source rule : String) (maxDepth : Nat)
    (hrule : (Grammar.standard.rule? rule).isSome = true) :
    ∃ parsed, parse source rule maxDepth = .ok parsed ∧
      ∀ id, (parsed.tree.kind id).isLogical = true → parsed.tree.IsFlattened id := by
  obtain ⟨parsed, hparse, -⟩ := parse_draft source rule maxDepth hrule
  exact ⟨parsed, hparse, fun id => (wellFormed_of_parse hparse).isFlattened⟩

/-- An operand that is a chain itself, in a text that stops behind a connective. A check of the whole
query goes through both chains, and comes to the same as the plain way. -/
theorem parse_isFlattened_mixed : ∃ parsed,
    parse "SELECT a FROM A a WHERE b AND a.c OR (d OR e AND" RuleId.statement 100 =
      .ok parsed ∧
    ∃ id, (parsed.tree.kind id).isLogical = true ∧ parsed.tree.IsFlattened id ∧
      (visitTo 100 id ⟨true, 100⟩ (.initial (.ofTree parsed.tree ⟨[], []⟩))).2.exceeded = false ∧
      visitNestedTo (100 + id) id ⟨true, 100⟩ (.initial (.ofTree parsed.tree ⟨[], []⟩)) =
        visitTo 100 id ⟨true, 100⟩ (.initial (.ofTree parsed.tree ⟨[], []⟩)) := by
  let source := "SELECT a FROM A a WHERE b AND a.c OR (d OR e AND"
  have hread : (match parse source RuleId.statement 100 with
      | .ok parsed => (parsed.tree.kind 17).isLogical &&
        !(visitTo 100 17 ⟨true, 100⟩ (.initial (.ofTree parsed.tree ⟨[], []⟩))).2.exceeded
      | .error _ => false) = true := by decide +kernel
  obtain ⟨parsed, hparse, h⟩ := parse_isFlattened source RuleId.statement 100
    (Grammar.standard_registers (by simp))
  rw [hparse, Bool.and_eq_true, Bool.not_eq_true'] at hread
  refine ⟨parsed, hparse, 17, hread.1, h 17 hread.1, hread.2, ?_⟩
  exact ((h 17 hread.1).nested ⟨true, 100⟩ (.initial (.ofTree parsed.tree ⟨[], []⟩)) 100 (100 + 17)
    rfl (Nat.le_refl _) hread.2).2

end Jpql
