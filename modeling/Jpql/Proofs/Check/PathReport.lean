import Jpql.Proofs.Check.Operand
import Jpql.Proofs.Check.Tally

/-! # Reports on paths

A check of a path visits the root of the path, and then reports what is wrong with the path itself:
what exactly depends on what is asked of it.

* `Check.Input.IsPlain`: the nodes at which a visit reports what is asked, and `Check.Input.Visits`,
  what a visitor promises for them.
* `Check.Input.statePath_reports`, `collectionPath_reports`, `updateTarget_reports`: the three ways to
  look at a path. -/

namespace Jpql

namespace NodeKind

/-- The node is a `TREAT`. -/
def isTreat : NodeKind → Bool
  | .treat .. => true
  | _ => false

end NodeKind

namespace Check.Input

variable {q : Input} {id child path root : Nat} {kind : PathKind} {segments : List (Located String)}
  {dot : Bool} {visit : Visitor}

/-! ## Children -/

theorem context_of_child (hc : child ∈ q.tree.children id)
    (hkind : (q.tree.kind id).isStatement = false) : q.context child = q.context id := by
  refine QueryContext.within_of_child q.isClean.wellFormed hc fun hsub => ?_
  rw [NodeKind.isStatement_of_isSubquery hsub] at hkind
  cases hkind

theorem held_of_child (hid : q.tree.Holds q.statement id) (hc : child ∈ q.tree.children id) :
    q.tree.Holds q.statement child := .up (q.isClean.wellFormed.child id child hc) hid

theorem child_ne_statement (hid : q.tree.Holds q.statement id) (hc : child ∈ q.tree.children id) :
    child ≠ q.statement := by
  have hle := hid.le q.isClean.wellFormed
  have hlt := q.isClean.wellFormed.child_lt hc
  omega

theorem parent_unique {other : Nat} (hc : child ∈ q.tree.children id)
    (ho : child ∈ q.tree.children other) : id = other := by
  have hp := q.isClean.wellFormed.child id child hc
  rw [q.isClean.wellFormed.child other child ho, Option.some_inj] at hp
  exact hp.symm

/-! ## Plain nodes -/

/-- **A node that a check visits as it is.** It is not the statement that the text consists of, the path
at it is asked for a value, and it is no `TREAT` that is joined. -/
structure IsPlain (q : Input) (id : Nat) : Prop where
  held : q.tree.Holds q.statement id
  inner : (q.tree.kind id).isStatement = true → id ≠ q.statement
  asked : ∀ path, q.tree.pathBehind? id = some path →
    q.findings path = (q.context path).pathProblems .value path
  joined : (q.tree.kind id).isTreat = true → ∀ parent, q.tree.parent? id = some parent →
    (q.tree.kind parent).isJoin = false

/-- **What a visitor promises**: it reports what is wrong at all that a plain node holds. -/
def Visits (q : Input) (visit : Visitor) : Prop :=
  ∀ id, q.IsPlain id → q.Reports (q.context id) (q.tree.scopeNode? id) (q.tree.Holds id) (visit id)
    fun _ => True

/-- Except in a statement, a child is the same place as its node. -/
theorem Visits.visit_child (hv : q.Visits visit) (hc : child ∈ q.tree.children id)
    (hkind : (q.tree.kind id).isStatement = false) (hchild : q.IsPlain child) :
    q.Reports (q.context id) (q.tree.scopeNode? id) (q.tree.Holds child) (visit child)
      fun _ => True := by
  rw [← context_of_child hc hkind,
    ← Scope.scopeNode?_of_child q.isClean.wellFormed hc hkind]
  exact hv child hchild

/-- A node with no path at it is plain, unless it is a `TREAT` that is joined. -/
theorem isPlain_of_child (hid : q.tree.Holds q.statement id) (hc : child ∈ q.tree.children id)
    (hasked : ∀ path, q.tree.pathBehind? child = some path →
      q.findings path = (q.context path).pathProblems .value path)
    (hjoined : (q.tree.kind child).isTreat = true → (q.tree.kind id).isJoin = false) :
    q.IsPlain child := by
  refine ⟨held_of_child hid hc, fun _ => child_ne_statement hid hc, hasked, fun htreat parent hp => ?_⟩
  rw [q.isClean.wellFormed.child id child hc, Option.some_inj] at hp
  exact hp ▸ hjoined htreat

/-! ## Findings of paths -/

theorem findings_path (hk : q.tree.kind id = .path kind root segments dot) :
    q.findings id = (q.context id).pathProblems (q.tree.demand id) id := by
  rw [findings, Tree.findings, hk]
  rfl

/-- Nothing is wrong at a node without a rule of its own. -/
theorem findings_eq_nil (hfrom : Scope.isFromClause (q.tree.kind id) = false)
    (hpath : (q.tree.kind id).isPath = false) (hschema : ∀ name, q.tree.kind id ≠ .schemaName name)
    (htype : ∀ name, q.tree.kind id ≠ .entityType name) : q.findings id = [] := by
  rw [findings, Tree.findings]
  split
  · next hk =>
    rw [hk] at hfrom
    cases hfrom
  · next hk =>
    rw [hk] at hfrom
    cases hfrom
  · next hk => exact absurd hk (hschema _)
  · next hk => exact absurd hk (htype _)
  · unfold QueryContext.pathProblems
    split
    · next hk =>
      have hk : q.tree.kind id = _ := hk
      rw [hk] at hpath
      cases hpath
    · rfl

/-- At a `FROM` clause the order of the declarations may be wrong. -/
theorem findings_clause (hfrom : Scope.isFromClause (q.tree.kind id) = true) :
    q.findings id = (q.context id).misplacedProblems id := by
  rw [findings, Tree.findings]
  cases hk : q.tree.kind id <;> rw [hk] at hfrom <;> first
    | exact absurd hfrom Bool.false_ne_true
    | rfl

theorem findings_identifier {name : String} {isVirtual : Bool} {behind : Option Nat}
    (hk : q.tree.kind id = .identifier name isVirtual behind) : q.findings id = [] := by
  refine findings_eq_nil ?_ ?_ ?_ ?_ <;> rw [hk] <;> simp [Scope.isFromClause, NodeKind.isPath]

/-! ## Roots -/

section

variable (hk : q.tree.kind id = .path kind root segments dot)

include hk

theorem root_mem : root ∈ q.tree.children id := by
  rw [Tree.children, hk]
  exact List.mem_cons_self

theorem holds_path {inner : Nat} : q.tree.Holds id inner ↔ inner = id ∨ q.tree.Holds root inner := by
  rw [Tree.holds_iff q.isClean.wellFormed, Tree.children, hk]
  simp [NodeKind.children]

/-- A path does not lie in its root. -/
theorem not_holds_root : ¬q.tree.Holds root id := fun h => by
  have hle := h.le q.isClean.wellFormed
  have hlt := q.isClean.wellFormed.child_lt (root_mem hk)
  omega

/-- No path stands at the root of a path. -/
theorem pathBehind_root : q.tree.pathBehind? root = none := by
  have hslot : (root, Slot.pathRoot) ∈ (q.tree.kind id).slots := by
    rw [hk]
    exact List.mem_cons_self
  have hadmits := q.isClean.admits hslot
  unfold Tree.pathBehind?
  split
  · next hr =>
    rw [hr] at hadmits
    cases hadmits
  · next hr =>
    rw [hr] at hadmits
    cases hadmits
  · rfl

/-- **The root of a path is visited as it is.** -/
theorem root_reports (hv : q.Visits visit) (hid : q.tree.Holds q.statement id) :
    q.Reports (q.context id) (q.tree.scopeNode? id) (q.tree.Holds root) (visit root)
      fun _ => True := by
  refine hv.visit_child (root_mem hk) (by rw [hk]; rfl) (isPlain_of_child hid (root_mem hk) ?_ ?_)
  · intro path hpath
    rw [pathBehind_root hk] at hpath
    cases hpath
  · rw [hk]
    exact fun _ => rfl

/-- After the root, the path itself is looked at. -/
theorem path_reports {α : Type} {post : α → Prop} {p : Checker α} (hv : q.Visits visit)
    (hid : q.tree.Holds q.statement id)
    (hp : q.Reports (q.context id) (q.tree.scopeNode? id) (· = id) p post) :
    q.Reports (q.context id) (q.tree.scopeNode? id) (q.tree.Holds id) (visit root >>= fun _ => p)
      post := by
  refine (root_reports hk hv hid).bind (fun _ _ => hp) ?_ fun _ _ inner => ?_
  · rintro - - inner hinner rfl
    exact not_holds_root hk hinner
  · rw [holds_path hk, or_comm]

end

/-! ## State-field paths -/

/-- Taking back the use of a variable reports nothing. -/
theorem unuse_reports {context : QueryContext} {scope : Option Nat} :
    q.Reports context scope (fun _ => False) (unuse root) fun _ => True := by
  intro s hs hnodup
  refine ⟨trivial, [], ⟨(List.append_nil _).symm, rfl, Nat.zero_add _, fun id hid => ?_,
    hnodup.filter _⟩, .nil, fun _ _ h => h.elim⟩
  exact .inl (List.mem_filter.mp hid).1

section

variable {context : QueryContext} {scope : Option Nat} {verdict : PathVerdict}

/-- **What a path comes to is reported**; nothing is if it is in order. -/
theorem settle_reports (h : q.tree.verdictProblems id segments verdict = q.findings id)
    (htree : context.tree = q.tree) :
    q.Reports context scope (· = id) (settle id root segments verdict)
      fun valid => valid = true → q.findings id = [] := by
  cases verdict with
  | valid => exact .of_nil h.symm fun _ => h.symm
  | invalid key =>
    refine (Reports.recordAt htree h.symm).bind_right fun _ _ => .pure fun hno => ?_
    cases hno
  | constant known enum =>
    refine unuse_reports.bind (K := fun _ => (· = id)) (fun _ _ => ?_) (fun _ _ _ h => h.elim)
      fun _ _ inner => by simp
    cases known with
    | true => exact .of_nil h.symm fun _ => h.symm
    | false =>
      refine (Reports.recordFindings h).bind_right fun _ _ => .pure fun hno => ?_
      cases hno

end

/-- **A state-field path is looked at**, and what is asked of it reported. -/
theorem statePath_reports (hk : q.tree.kind id = .path .stateField root segments dot)
    (hv : q.Visits visit) (hid : q.tree.Holds q.statement id) {demand : Demand}
    (hdemand : demand = .value ∨ demand = .basic)
    (hasked : q.findings id = (q.context id).pathProblems demand id) :
    q.Reports (q.context id) (q.tree.scopeNode? id) (q.tree.Holds id)
      (statePath visit id (demand != .basic)) fun valid => valid = true → q.findings id = [] := by
  have htree : (q.context id).tree.kind id = .path .stateField root segments dot := hk
  have hfindings : q.findings id =
      if dot || !q.tree.isResolvedRoot root then []
      else q.tree.verdictProblems id segments
        ((q.context id).statePath id segments (demand != .basic)) := by
    rw [hasked, QueryContext.pathProblems, htree]
    rcases hdemand with rfl | rfl <;> rfl
  refine Reports.kindOf_bind ?_
  rw [htree]
  refine path_reports hk hv hid (.inTree_bind ?_)
  rw [show (q.context id).tree = q.tree from rfl]
  split at hfindings
  · next hskip =>
    rw [if_pos hskip]
    exact .of_nil hfindings fun _ => hfindings
  · next hcheck =>
    rw [if_neg hcheck]
    exact .ask_bind (settle_reports hfindings.symm rfl)

/-! ## Paths to collections -/

/-- The node behind which a path stands. -/
theorem behind_cases (hb : q.tree.pathBehind? child = some path) :
    path = child ∨ ∃ name, q.tree.kind child = .identifier name true (some path) := by
  unfold Tree.pathBehind? at hb
  split at hb
  · exact .inl (Option.some.inj hb).symm
  · next hk =>
    obtain rfl := Option.some.inj hb
    exact .inr ⟨_, hk⟩
  · cases hb

/-- A path at a node is a path. -/
theorem isPath_behind (hb : q.tree.pathBehind? child = some path) :
    ∃ kind root segments dot, q.tree.kind path = .path kind root segments dot ∧
      (path ≠ child → kind = .stateField) := by
  have hcases := behind_cases hb
  unfold Tree.pathBehind? at hb
  split at hb
  · next hk =>
    obtain rfl := Option.some.inj hb
    exact ⟨_, _, _, _, hk, fun hne => absurd rfl hne⟩
  · next hk =>
    obtain rfl := Option.some.inj hb
    obtain ⟨root, segments, dot, owner, hpath, -⟩ := q.isClean.virtual_path hk
    exact ⟨_, _, _, _, hpath, fun _ => rfl⟩
  · cases hb

/-- **What is reported of a path is reported of the node at which it stands.** -/
theorem Reports.of_behind {α : Type} {p : Checker α} {post : α → Prop}
    (hb : q.tree.pathBehind? child = some path)
    (h : q.Reports (q.context path) (q.tree.scopeNode? path) (q.tree.Holds path) p post) :
    q.Reports (q.context child) (q.tree.scopeNode? child) (q.tree.Holds child) p post := by
  rcases behind_cases hb with rfl | ⟨name, hk⟩
  · exact h
  · have hc : path ∈ q.tree.children child := by
      rw [Tree.children, hk]
      exact List.mem_cons_self
    have hkind : (q.tree.kind child).isStatement = false := by rw [hk]; rfl
    rw [context_of_child hc hkind, Scope.scopeNode?_of_child q.isClean.wellFormed hc hkind] at h
    refine h.widen (fun inner hinner => hinner.of_child q.isClean.wellFormed hc)
      fun inner hinner hno => ?_
    rw [Tree.holds_iff q.isClean.wellFormed, Tree.children, hk] at hinner
    rcases hinner with rfl | hinner
    · exact findings_identifier hk
    · exact absurd (by simpa [NodeKind.children] using hinner) hno

/-- The path at a node lies in the statement if the node does. -/
theorem held_of_behind (hid : q.tree.Holds q.statement child)
    (hb : q.tree.pathBehind? child = some path) : q.tree.Holds q.statement path := by
  rcases behind_cases hb with rfl | ⟨name, hk⟩
  · exact hid
  · refine held_of_child hid ?_
    rw [Tree.children, hk]
    exact List.mem_cons_self

/-- **A path that must lead to a collection or an association is looked at.** -/
theorem collectionPath_reports (hv : q.Visits visit) (hid : q.tree.Holds q.statement child)
    (hplain : q.tree.pathBehind? child = none → q.IsPlain child) (collectionOnly : Bool)
    (hasked : ∀ path, q.tree.pathBehind? child = some path →
      q.tree.demand path = if collectionOnly then .collection else .association) :
    q.Reports (q.context child) (q.tree.scopeNode? child) (q.tree.Holds child)
      (collectionPath visit child collectionOnly) fun _ => True := by
  refine Reports.inTree_bind ?_
  rw [show (q.context child).tree = q.tree from rfl]
  cases hb : q.tree.pathBehind? child with
  | none => exact hv child (hplain hb)
  | some path =>
    obtain ⟨kind, root, segments, dot, hk, -⟩ := isPath_behind hb
    have hfindings : q.findings path = if dot || !q.tree.isResolvedRoot root then [] else
        ((q.context path).collectionPath? path collectionOnly).toList.map
          (q.tree.problemAt · path) := by
      have htree : (q.context path).tree.kind path = .path kind root segments dot := hk
      rw [findings_path hk, hasked path hb, QueryContext.pathProblems, htree]
      cases collectionOnly <;> rfl
    refine .of_behind hb (.kindOf_bind ?_)
    rw [show (q.context path).tree.kind path = _ from hk]
    refine path_reports hk hv (held_of_behind hid hb) (.inTree_bind ?_)
    rw [show (q.context path).tree = q.tree from rfl]
    split at hfindings
    · next hskip =>
      rw [if_pos hskip]
      exact .of_nil hfindings trivial
    · next hcheck =>
      rw [if_neg hcheck]
      exact .ask_bind (.recordOption rfl hfindings)

/-! ## Targets -/

/-- **The target of a `SET` item is looked at.** -/
theorem updateTarget_reports (hk : q.tree.kind id = .path .stateField root segments dot)
    (hv : q.Visits visit) (hid : q.tree.Holds q.statement id)
    (hasked : q.tree.demand id = .target) :
    q.Reports (q.context id) (q.tree.scopeNode? id) (q.tree.Holds id) (updateTarget visit id)
      fun _ => True := by
  have htree : (q.context id).tree.kind id = .path .stateField root segments dot := hk
  have hfindings : q.findings id = (q.context id).pathProblems .target id := by
    rw [findings_path hk, hasked]
  rw [QueryContext.pathProblems_target _ htree] at hfindings
  have hbehind : (q.context id).tree.pathBehind? id = some id := by rw [Tree.pathBehind?, htree]
  refine Reports.inTree_bind ?_
  rw [hbehind]
  refine Reports.kindOf_bind ?_
  rw [htree]
  refine path_reports hk hv hid (.kindOf_bind ?_)
  cases hr : (q.context id).tree.kind root with
  | identifier name isVirtual behind =>
    rw [hr] at hfindings
    exact .ask_bind (.recordOption rfl hfindings)
  | _ =>
    rw [hr] at hfindings
    exact .of_nil hfindings trivial

end Check.Input

end Jpql
