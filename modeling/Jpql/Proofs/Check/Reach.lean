import Jpql.Proofs.Chain.Node
import Jpql.Proofs.Check.TreeReport

/-! # What a check gets to

A check of a tree without gaps gets to every node that is no part of a path, in the context of that node,
and keeps what it finds there, unless it leaves something out.

* `Check.Retains`: from one state to another nothing is taken back.
* `Check.Input.GetsTo`: an operation at one node gets to what is done at another.
* `Check.Input.visitKind_getsTo`: what is done at a node gets to a node right below, on the way to a given
  one further down.
* `Check.Input.checkTree_getsTo`: a check gets to all nodes outside of paths. -/

namespace Jpql.Check

/-- **Nothing is taken back**: what was reported stays so, and that something was left out does. -/
structure Retains (s t : State) : Prop where
  problems : s.problems ⊆ t.problems
  exceeded : s.exceeded = true → t.exceeded = true

theorem Retains.refl {s : State} : Retains s s := ⟨List.Subset.refl _, id⟩

theorem Retains.trans {s t u : State} (hst : Retains s t) (htu : Retains t u) : Retains s u :=
  ⟨List.Subset.trans hst.problems htu.problems, fun h => htu.exceeded (hst.exceeded h)⟩

theorem Balanced.retains {α : Type} {tree : Tree} {p : Checker α} (h : Balanced tree p) {env : Env}
    {s : State} (hs : s.context.tree = tree) : Retains s (p env s).2 :=
  ⟨(h.steady env s hs).problems.subset, h.latch env s hs⟩

namespace Input

variable {q : Input} {α β γ : Type} {id child inner : Nat} {visit : Visitor}

/-- **At a node an operation gets to what is done at another**, in the context of the other, and keeps
what it finds there. -/
def GetsTo (q : Input) (id : Nat) (p : Checker α) (inner : Nat) (r : Checker β) : Prop :=
  ∀ s, s.context = q.context id → ∃ t, t.context = q.context inner ∧ Retains (r q.env t).2 (p q.env s).2

namespace GetsTo

variable {p : Checker α} {r : Checker β} {f : α → Checker γ}

theorem refl (hcontext : q.context id = q.context inner) : q.GetsTo id p inner p :=
  fun s hs => ⟨s, hs.trans hcontext, .refl⟩

theorem congr {p' : Checker α} (h : q.GetsTo id p inner r)
    (hrun : ∀ s, s.context.tree = q.tree → p' q.env s = p q.env s) : q.GetsTo id p' inner r := by
  intro s hs
  obtain ⟨t, ht, hretains⟩ := h s hs
  exact ⟨t, ht, by rwa [hrun s (by rw [hs]; rfl)]⟩

/-- What comes next takes nothing back. -/
theorem bind_left (h : q.GetsTo id p inner r) (hp : Balanced q.tree p)
    (hf : ∀ a, Balanced q.tree (f a)) : q.GetsTo id (p >>= f) inner r := by
  intro s hs
  have htree : s.context.tree = q.tree := by rw [hs]; rfl
  obtain ⟨t, ht, hretains⟩ := h s hs
  refine ⟨t, ht, hretains.trans ((hf _).retains ?_)⟩
  rw [(hp.steady q.env s htree).context, htree]

/-- What comes before moves nowhere. -/
theorem bind_right (hp : Balanced q.tree p) (hf : ∀ a, q.GetsTo id (f a) inner r) :
    q.GetsTo id (p >>= f) inner r := by
  intro s hs
  have hcontext := (hp.steady q.env s (by rw [hs]; rfl)).context
  exact hf _ _ (hcontext.trans hs)

theorem inTree_bind {g : Tree → α} (h : q.GetsTo id (f (g q.tree)) inner r) :
    q.GetsTo id (inTree g >>= f) inner r := by
  intro s hs
  obtain ⟨t, ht, hretains⟩ := h s hs
  refine ⟨t, ht, ?_⟩
  rw [inTree_run, show s.context.tree = q.tree by rw [hs]; rfl]
  exact hretains

theorem kindOf_bind {node : Nat} {f : NodeKind → Checker γ} (h : q.GetsTo id (f (q.tree.kind node)) inner r) :
    q.GetsTo id (kindOf node >>= f) inner r := inTree_bind h

/-- Of several operations each is got to. -/
theorem forM {items : List α} {op : α → Checker Unit} {item : α} (hmem : item ∈ items)
    (hall : ∀ other ∈ items, Balanced q.tree (op other)) (h : q.GetsTo id (op item) inner r) :
    q.GetsTo id (items.forM op) inner r := by
  induction items with
  | nil => cases hmem
  | cons first rest ih =>
    rw [List.forall_mem_cons] at hall
    rcases List.mem_cons.mp hmem with rfl | hmem
    · exact h.bind_left hall.1 fun _ => .forM hall.2
    · exact bind_right hall.1 fun _ => ih hmem hall.2

end GetsTo

/-! ## One node -/

/-- No path stands where there is no part of a path. -/
theorem pathBehind_eq_none (h : (q.tree.kind id).isPathPart = false) : q.tree.pathBehind? id = none := by
  unfold Tree.pathBehind?
  split <;> first
    | rfl
    | (next hk =>
        rw [hk] at h
        cases h)

theorem statePathBehind_eq_none (h : (q.tree.kind id).isPathPart = false) :
    q.tree.statePathBehind? id = none := by
  rw [Tree.statePathBehind?, pathBehind_eq_none h]
  rfl

/-- **What is no part of a path is visited where it is met.** -/
theorem meet_getsTo {demand : Demand} (hpart : (q.tree.kind child).isPathPart = false)
    (hcontext : q.context id = q.context child) :
    q.GetsTo id (meet visit (child, demand)) child (visit child) := by
  have hpath : ∀ only, q.GetsTo id (collectionPath visit child only) child (visit child) := fun only => by
    refine .inTree_bind ?_
    rw [pathBehind_eq_none hpart]
    exact .refl hcontext
  cases demand with
  | value => exact .refl hcontext
  | basic =>
    refine .inTree_bind ?_
    rw [statePathBehind_eq_none hpart]
    exact .refl hcontext
  | collection => exact hpath true
  | target =>
    refine .inTree_bind ?_
    rw [pathBehind_eq_none hpart]
    exact .refl hcontext
  | declared =>
    intro s hs
    exact ⟨{ s with registers := false }, hs.trans hcontext, List.Subset.refl _, fun h => h⟩
  | association =>
    refine .kindOf_bind ?_
    cases hk : q.tree.kind child
    case treat =>
      rw [hk] at hpart
      cases hpart
    all_goals exact hpath false

section

variable (hv : ∀ inner < id, Extends q.tree (visit inner) (visit inner))

include hv

/-- Both operands of an operation are got to. -/
theorem basicOperands_getsTo {left right : Nat} (hleft : left ∈ q.tree.children id)
    (hright : right ∈ q.tree.children id) (hc : child = left ∨ child = right)
    (hpart : (q.tree.kind child).isPathPart = false) (hcontext : q.context id = q.context child) :
    q.GetsTo id (basicOperands visit left right) child (visit child) := by
  have hwf := q.isClean.wellFormed
  have hpath : ∀ {operand}, operand ∈ q.tree.children id → Balanced q.tree (basicPath visit operand) :=
    fun hmem => (Extends.basicPath hwf (Extends.visitChild hwf hv hmem)).left
  have hvisit : ∀ {operand} (valid : Bool), operand ∈ q.tree.children id →
      Balanced q.tree (if valid then visit operand else pure ()) := by
    intro operand valid hmem
    cases valid with
    | true => exact (hv operand (hwf.child_lt hmem)).left
    | false => exact .pure
  -- What is no path counts as in order, and is visited.
  have hnone : ∀ {α : Type} {f : Bool → Checker α}, q.GetsTo id (f true) child (visit child) →
      q.GetsTo id (basicPath visit child >>= f) child (visit child) := by
    intro α f h s hs
    have hrun : (basicPath visit child >>= f) q.env s = f true q.env s := by
      rw [bind_run, basicPath, inTree_run, show s.context.tree = q.tree by rw [hs]; rfl,
        statePathBehind_eq_none hpart]
      rfl
    rw [hrun]
    exact h s hs
  rw [basicOperands_eq]
  rcases hc with rfl | rfl
  · refine hnone (.bind_right (hpath hright) fun rightValid => ?_)
    exact (GetsTo.refl hcontext).bind_left (hv _ (hwf.child_lt hleft)).left fun _ => hvisit _ hright
  · refine .bind_right (hpath hleft) fun leftValid => hnone ?_
    exact .bind_right (hvisit _ hleft) fun _ => .refl hcontext

/-- The children of a node that are visited in turn are got to. -/
theorem visitChildren_getsTo (hc : child ∈ q.tree.children id)
    (hcontext : q.context id = q.context child) :
    q.GetsTo id (visitChildren visit id) child (visit child) :=
  .inTree_bind (.forM hc (fun _ hother => (hv _ (q.isClean.wellFormed.child_lt hother)).left)
    (.refl hcontext))

/-- A subquery is got into in its own context. -/
theorem checkSubquery_getsTo (hc : child ∈ q.tree.children id)
    (hcontext : q.context child = (q.context id).enter id) :
    q.GetsTo id (checkSubquery visit id) child (visit child) := by
  intro s hs
  have hall : q.GetsTo child ((q.tree.children id).forM visit) child (visit child) :=
    .forM hc (fun _ hother => (hv _ (q.isClean.wellFormed.child_lt hother)).left) (.refl rfl)
  obtain ⟨t, ht, hretains⟩ := hall
    { s with context := s.context.enter id } (by rw [hs, hcontext])
  refine ⟨t, ht, hretains.trans ?_⟩
  have hrun := checkSubquery_run visit q.env s id
  have hvisit : visitChildren visit id q.env { s with context := s.context.enter id } =
      (q.tree.children id).forM visit q.env { s with context := s.context.enter id } := by
    rw [visitChildren, inTree_run, show (s.context.enter id).tree = q.tree by rw [hs]; rfl]
    rfl
  rw [hvisit] at hrun
  rw [hrun]
  refine ⟨fun problem hmem => ?_, fun h => h⟩
  exact List.mem_append_left _ (List.mem_append_left _ hmem)

/-- **On the way to a node further down, what is done at a node gets to one right below.** In place of a
chain of connectives its operands are got to. -/
theorem visitKind_getsTo (hinner : q.tree.Holds id inner) (hne : inner ≠ id)
    (hpart : (q.tree.kind inner).isPathPart = false)
    (hlogical : (q.tree.kind inner).isLogical = false) :
    ∃ child, q.tree.Holds child inner ∧ q.GetsTo id (visitKind visit id) child (visit child) := by
  have hwf := q.isClean.wellFormed
  by_cases hchain : (q.tree.kind id).isLogical = true
  · have hoperands := Tree.chain_operands hwf id
    obtain ⟨operand, hmem, hheld⟩ := (hoperands.covers inner hinner).resolve_right
      fun h => Bool.false_ne_true (hlogical.symm.trans h)
    have hcontext : q.context id = q.context operand :=
      hoperands.closed (fun operand => q.context id = q.context operand) rfl
        (fun node child hnode hc h => h.trans (context_of_child hc (by
          obtain ⟨connective, left, right, hk⟩ := NodeKind.exists_of_isLogical hnode
          rw [hk]
          rfl)).symm) operand hmem
    refine ⟨operand, hheld, .kindOf_bind ?_⟩
    obtain ⟨connective, left, right, hk⟩ := NodeKind.exists_of_isLogical hchain
    rw [hk]
    refine .inTree_bind (.forM hmem (fun other hother => (hv other ?_).left) (.refl hcontext))
    exact ((Tree.mem_chainOperands hwf hchain).mp hother).lt hwf
  obtain ⟨child, hc, hheld⟩ := ((Tree.holds_iff hwf).mp hinner).resolve_left hne
  have hcpart : (q.tree.kind child).isPathPart = false := Bool.eq_false_iff.mpr fun h => by
    rw [q.isClean.isPathPart_of_holds h hheld] at hpart
    cases hpart
  refine ⟨child, hheld, ?_⟩
  have hplace : (q.tree.kind id).isStatement = false → q.context id = q.context child :=
    fun hkind => (context_of_child hc hkind).symm
  by_cases huniform : (q.tree.kind id).isUniform = true
  · obtain ⟨⟨other, demand⟩, hmem, rfl⟩ : ∃ item ∈ (q.tree.kind id).demands, item.1 = child := by
      rw [Tree.children, ← NodeKind.map_fst_demands, List.mem_map] at hc
      exact hc
    have hmeet : q.GetsTo id (meet visit (other, demand)) other (visit other) :=
      meet_getsTo hcpart (hplace (NodeKind.not_isStatement_of_isUniform huniform))
    exact (GetsTo.forM hmem (fun item h => (Extends.meet hwf hv h).left) hmeet).congr
      fun s hs => visitKind_demands huniform hs
  have hbalanced : ∀ {other : Nat}, other ∈ q.tree.children id → Balanced q.tree (visit other) :=
    fun hother => (hv _ (hwf.child_lt hother)).left
  have hchildren : ∀ {kind : NodeKind}, q.tree.kind id = kind → child ∈ kind.children := by
    rintro _ rfl
    exact hc
  refine .kindOf_bind ?_
  cases hk : q.tree.kind id with
  | query statement leftover =>
    have hcontext := hplace (by rw [hk]; rfl)
    have hroot := q.isClean.root
    rw [← q.isClean.eq_root hk, hk, NodeKind.query.injEq] at hroot
    obtain ⟨rfl, rfl⟩ := hroot
    obtain rfl : child = q.statement := by simpa [NodeKind.children] using hchildren hk
    refine (GetsTo.refl hcontext).bind_left (hbalanced hc) fun _ => Balanced.inTree_bind ?_
    split
    · exact Extends.lookUp.left
    · exact .pure
  | selectStatement | updateStatement | deleteStatement =>
    refine visitChildren_getsTo hv hc (QueryContext.within_of_child hwf hc fun h => ?_).symm
    rw [hk] at h
    cases h
  | simpleSelectStatement =>
    have hsub : (q.tree.kind id).isSubquery = true := by rw [hk]; rfl
    refine .inTree_bind ?_
    by_cases hroot : q.tree.parent? id = some q.tree.root
    · rw [beq_iff_eq.mpr hroot, if_pos rfl]
      refine visitChildren_getsTo hv hc (QueryContext.within_of_child hwf hc fun _ => ?_).symm
      have hmem := (hwf.of_parent hroot).2.2
      rw [Tree.children, q.isClean.root] at hmem
      rw [q.isClean.statementOf_eq]
      simpa [NodeKind.children] using hmem
    · rw [beq_eq_false_iff_ne.mpr hroot, if_neg Bool.false_ne_true]
      refine checkSubquery_getsTo hv hc (QueryContext.within_of_subquery hwf hc hsub fun he => hroot ?_)
      rw [he, q.isClean.statementOf_eq]
      exact q.isClean.parent_statement
  | fromClause | simpleFromClause =>
    exact .bind_right Extends.declarationOrder.left fun _ =>
      visitChildren_getsTo hv hc (hplace (by rw [hk]; rfl))
  | comparison left operator right =>
    have hordering : operator.isOrdering = true := by simpa [hk, NodeKind.isUniform] using huniform
    dsimp only
    rw [if_pos hordering]
    have hoperands : q.tree.children id = [left, right] := by rw [Tree.children, hk]; rfl
    exact basicOperands_getsTo hv (by simp [hoperands]) (by simp [hoperands])
      (by simpa [hoperands] using hc) hcpart (hplace (by rw [hk]; rfl))
  | arithmetic operation left right =>
    have hoperands : q.tree.children id = [left, right] := by rw [Tree.children, hk]; rfl
    exact basicOperands_getsTo hv (by simp [hoperands]) (by simp [hoperands])
      (by simpa [hoperands] using hc) hcpart (hplace (by rw [hk]; rfl))
  | schemaName | entityType => exact absurd (hchildren hk) List.not_mem_nil
  | logical => exact absurd (by rw [hk]; rfl) hchain
  | identifier | path =>
    have := q.isClean.isPathPart_of_child hc (by rw [hk]; rfl)
    rw [hcpart] at this
    cases this
  | index argument =>
    obtain rfl : child = argument := by simpa [NodeKind.children] using hchildren hk
    have htakes := q.isClean.takes (show (q.tree.kind id).argument? = some child by rw [hk]; rfl)
    rw [hk] at htakes
    have := NodeKind.isPathPart_of_isVariableOrPath htakes
    rw [hcpart] at this
    cases this
  | _ => exact absurd (by rw [hk]; rfl) huniform

end

/-! ## All nodes -/

/-- **Unless it leaves something out, a visit gets to every node below** that is no part of a path and no
connective. -/
theorem visitTo_getsTo {levels : Nat} (hinner : q.tree.Holds id inner)
    (hpart : (q.tree.kind inner).isPathPart = false)
    (hlogical : (q.tree.kind inner).isLogical = false) {s : State} (hs : s.context = q.context id)
    (hwhole : (visitTo levels id q.env s).2.exceeded = false) :
    ∃ below t, t.context = q.context inner ∧
      Retains (visitKind (visitTo below) inner q.env t).2 (visitTo levels id q.env s).2 := by
  have hwf := q.isClean.wellFormed
  induction levels generalizing id s with
  | zero =>
    have hrun := leaveOut_run id q.env s
    rw [visitTo, hrun] at hwhole
    split at hwhole
    · next h => exact absurd (hwhole.symm.trans h) Bool.false_ne_true
    · cases hwhole
  | succ levels ih =>
    by_cases hne : inner = id
    · subst hne
      exact ⟨levels, s, hs, .refl⟩
    · have hextends : ∀ inner < id, Extends q.tree (visitTo levels inner) (visitTo levels inner) :=
        fun inner _ => visitTo_extends hwf (Nat.le_refl levels) inner
      obtain ⟨child, hheld, hgets⟩ := visitKind_getsTo hextends hinner hne hpart hlogical
      obtain ⟨t, ht, hretains⟩ := hgets s hs
      have hinside : (visitTo levels child q.env t).2.exceeded = false := by
        rw [← Bool.not_eq_true]
        exact fun h => Bool.false_ne_true (hwhole.symm.trans (hretains.exceeded h))
      obtain ⟨below, u, hu, hretains'⟩ := ih hheld ht hinside
      exact ⟨below, u, hu, hretains'.trans hretains⟩

/-- **A check that leaves nothing out gets to all nodes** that are no parts of paths and no connectives: all
that is found at one is reported. -/
theorem checkTree_getsTo (hid : id < q.tree.size) (hpart : (q.tree.kind id).isPathPart = false)
    (hlogical : (q.tree.kind id).isLogical = false)
    (hwhole : ∀ problem ∈ checkTree (.ofTree q.tree q.metamodel) q.env,
      problem.key ≠ .traversalTooDeep) :
    ∃ below t, t.context = q.context id ∧ (visitKind (visitTo below) id q.env t).2.problems ⊆
      checkTree (.ofTree q.tree q.metamodel) q.env := by
  have hwf := q.isClean.wellFormed
  have hinside : (visitTo q.env.maxDepth q.tree.root q.env
      (.initial (.ofTree q.tree q.metamodel))).2.exceeded = false := by
    rw [← Bool.not_eq_true]
    refine fun h => ((visitTo_balanced hwf q.env.maxDepth q.tree.root).steady q.env
      (.initial (.ofTree q.tree q.metamodel)) rfl).exceeded (fun h => nomatch h) h ?_
    exact fun problem hmem hkey => hwhole problem hmem hkey
  have hcontext : q.context q.tree.root = .ofTree q.tree q.metamodel :=
    QueryContext.within_of_root hwf.root_parent
  obtain ⟨below, t, ht, hretains⟩ := visitTo_getsTo (.of_root hwf hid) hpart hlogical
    (s := .initial (.ofTree q.tree q.metamodel)) hcontext.symm hinside
  exact ⟨below, t, ht, hretains.problems⟩

end Input

end Jpql.Check
