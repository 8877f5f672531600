import Jpql.Proofs.Check.Declaration

/-! # Checking statements and subqueries

The variables of a statement are looked up when all of it has been visited. In a subquery, those
first used there are.

* `Check.Subject.visitChildren_affects`: the children of a statement are accounted for.
* `Check.Subject.missing_checkVariables`: with the variables of the statement looked up, all uses in
  it are that no statement declares.
* `Check.Subject.checkSubquery_affects`: for the statement around it, a subquery changes nothing but
  the problems. -/

namespace Jpql.Check

/-! ## Runs -/

section

variable (visit : Visitor) (env : Env) (s : State)

theorem checkVariables_run (used : List Nat) :
    (checkVariables used env s).2 =
      { s with problems := s.problems ++ s.context.duplicates ++ s.context.undeclared used } := rfl

/-- A subquery is visited in its own scope. Afterwards the variables first used in it are looked up
and given up. -/
theorem checkSubquery_run (id : Nat) :
    (checkSubquery visit id env s).2 =
      let inner := (visitChildren visit id env { s with context := s.context.enter id }).2
      let checked := (checkVariables (inner.used.filter (!s.used.contains ·)) env inner).2
      { checked with
        context := checked.context.leave, used := checked.used.filter (s.used.contains ·) } := rfl

end

namespace Subject

variable {q : Subject} {node id : Nat} {N : Nat → Prop} {s t : State} {visit : Visitor}

/-! ## Statements -/

/-- **The children of a statement are accounted for.** -/
theorem visitChildren_affects (hv : q.Visits visit)
    (hkind : (q.tree.kind id).isStatement = true) (hnode : node ∈ q.tree.children id) :
    q.Affects node (q.tree.Below (q.tree.children id)) (visitChildren visit id) fun _ => True := by
  have hwf := q.isQuery.wellFormed
  have hscope : ∀ child ∈ q.tree.children id, q.tree.scopeNode? child = some id := fun child hc => by
    rw [Tree.scopeNode?, Tree.scopes_of_statement hwf hc hkind]
    rfl
  have hcontext : ∀ child ∈ q.tree.children id, q.context child = q.context node := by
    intro child hc
    cases hsub : (q.tree.kind id).isSubquery with
    | true =>
      rw [context, context, QueryContext.around_of_subquery hwf hc hsub,
        QueryContext.around_of_subquery hwf hnode hsub]
    | false =>
      rw [context, context, QueryContext.around_of_child hwf hc hsub,
        QueryContext.around_of_child hwf hnode hsub]
  refine Affects.inTree_bind (Handles.forM (fun child hc => ?_) (Tree.apart_children hwf id))
  have hplain : q.IsPlain child := by
    refine isPlain_of_child hc ⟨id, hscope child hc⟩ ?_
    cases hk : q.tree.kind id <;> rw [hk] at hkind <;> first
      | exact absurd hkind Bool.false_ne_true
      | simp [NodeKind.Marks, NodeKind.introduces?]
  exact (hv.affects child hplain).move (hcontext child hc) (by rw [hscope child hc, hscope node hnode])

/-! ## Looking variables up -/

theorem undeclaredNodes_duplicates (context : QueryContext) :
    undeclaredNodes context.duplicates = [] := by
  refine undeclaredNodes_eq_nil fun problem hmem => ?_
  obtain ⟨id, -, rfl⟩ := List.mem_map.mp hmem
  simp [QueryContext.variableProblem]

theorem undeclaredNodes_undeclared (context : QueryContext) (used : List Nat) :
    undeclaredNodes (context.undeclared used) =
      (used.filter fun id =>
        !context.allVariables.contains (context.tree.variableText id)).map some := by
  have hall : ∀ ids : List Nat, undeclaredNodes (ids.map
      (context.variableProblem .variableNotDeclared)) = ids.map some := fun ids => by
    induction ids with
    | nil => rfl
    | cons id ids ih => exact congrArg (some id :: ·) ih
  exact hall _

/-- Two nodes with the same nearest statement see the same variables. -/
theorem isVisible_congr {other : Nat} {name : String} {scope : Nat}
    (hid : q.tree.scopeNode? id = some scope) (hother : q.tree.scopeNode? other = some scope) :
    q.tree.IsVisible id name ↔ q.tree.IsVisible other name := by
  have hwf := q.isQuery.wellFormed
  rw [Tree.IsVisible, Tree.IsVisible, Tree.scopes_of_scopeNode? hwf hid,
    Tree.scopes_of_scopeNode? hwf hother]

/-- **With the variables of its statement looked up, all that lack a declaration are found.** -/
theorem missing_checkVariables (hnode : ∃ scope, q.tree.scopeNode? node = some scope)
    (hchange : q.Change node N s t) (hcontext : t.context = q.context node) {used : List Nat}
    (hnodup : used.Nodup)
    (hused : ∀ id, id ∈ used ↔ N id ∧ q.Uses id ∧ q.tree.scopeNode? id = q.tree.scopeNode? node) :
    ∃ new : List Nat, undeclaredNodes (checkVariables used q.env t).2.problems =
        undeclaredNodes s.problems ++ new.map some ∧ new.Nodup ∧
      ∀ id, id ∈ new ↔ N id ∧ q.Uses id ∧ q.tree.IsHidden id := by
  obtain ⟨scope, hscope⟩ := hnode
  obtain ⟨new, heq, hnew, hmem⟩ := hchange.missing
  have hquery := q.isQuery
  obtain ⟨hholds, hne⟩ := hquery.holds_of_scopeNode? hscope
  have hown : ∀ id ∈ used, ((!(q.context node).allVariables.contains
      ((q.context node).tree.variableText id)) = true ↔ q.tree.IsHidden id) := by
    intro id hid
    have hidscope := ((hused id).mp hid).2.2
    rw [hscope] at hidscope
    have hvisible : (q.context node).allVariables.contains (q.tree.variableText id) = true ↔ _ :=
      QueryContext.contains_allVariables hquery hholds hne _
    rw [Tree.IsHidden, isVisible_congr hidscope hscope, ← hvisible, Bool.not_eq_true',
      ← Bool.not_eq_true]
    rfl
  refine ⟨new ++ used.filter fun id => !(q.context node).allVariables.contains
    ((q.context node).tree.variableText id), ?_, ?_, fun id => ?_⟩
  · rw [checkVariables_run, hcontext]
    show undeclaredNodes (t.problems ++ _ ++ _) = _
    rw [undeclaredNodes_append, undeclaredNodes_append, undeclaredNodes_duplicates,
      undeclaredNodes_undeclared, heq, List.append_nil, List.map_append, List.append_assoc]
  · refine List.nodup_append.mpr ⟨hnew, hnodup.filter _, fun a ha b hb hab => ?_⟩
    subst hab
    exact ((hmem a).mp ha).2.2.1 ((hused a).mp (List.mem_filter.mp hb).1).2.2
  · rw [List.mem_append, hmem, List.mem_filter]
    constructor
    · rintro (⟨hn, huse, -, hhidden⟩ | ⟨hid, hhidden⟩)
      · exact ⟨hn, huse, hhidden⟩
      · obtain ⟨hn, huse, -⟩ := (hused id).mp hid
        exact ⟨hn, huse, (hown id hid).mp hhidden⟩
    · rintro ⟨hn, huse, hhidden⟩
      by_cases hsame : q.tree.scopeNode? id = q.tree.scopeNode? node
      · have hid := (hused id).mpr ⟨hn, huse, hsame⟩
        exact .inr ⟨hid, (hown id hid).mpr hhidden⟩
      · exact .inl ⟨hn, huse, hsame, hhidden⟩

/-! ## Subqueries -/

section

variable (hid : q.IsPlain id) (hkind : (q.tree.kind id).isSubquery = true) (hs : q.Fits id s)

include hid hkind

/-- **What is used in a subquery stands in a scope below that of the subquery.** -/
theorem scopeNode?_of_below {inner : Nat} (hinner : q.tree.Holds id inner) (huse : q.Uses inner) :
    q.tree.Below (q.tree.children id) inner ∧
      q.tree.scopeNode? inner ≠ q.tree.scopeNode? id := by
  have hwf := q.isQuery.wellFormed
  have hstatement := NodeKind.isStatement_of_isSubquery hkind
  have hne : inner ≠ id := by
    rintro rfl
    obtain ⟨⟨_, _, hk, -⟩, -⟩ := huse
    rw [hk] at hkind
    exact absurd hkind Bool.false_ne_true
  refine ⟨((Tree.holds_iff hwf).mp hinner).resolve_left hne, fun hsame => ?_⟩
  obtain ⟨outer, houter⟩ := hid.placed
  obtain ⟨scope, hscope, hle⟩ := Tree.scopeNode?_of_holds hwf hstatement hinner hne
  rw [hscope, houter, Option.some_inj] at hsame
  have := Tree.lt_of_scopeNode? hwf houter
  omega

include hs

/-- The state in which a subquery is entered. -/
theorem fits_enter (hnode : node ∈ q.tree.children id) :
    q.Fits node { s with context := s.context.enter id } := by
  have hwf := q.isQuery.wellFormed
  have hstatement := NodeKind.isStatement_of_isSubquery hkind
  refine ⟨?_, hs.registers, hs.exceeded, hs.nodup, hs.uses, fun hw used hused => ?_⟩
  · rw [hs.context, context, context, QueryContext.around_of_subquery hwf hnode hkind]
  · obtain ⟨outer, houter, hle⟩ := hs.scope hw used hused
    refine ⟨outer, houter, fun inner hinner => ?_⟩
    rw [Tree.scopeNode?, Tree.scopes_of_statement hwf hnode hstatement] at hinner
    obtain rfl : id = inner := by simpa using hinner
    obtain ⟨scope, hscope⟩ := hid.placed
    have := Tree.lt_of_scopeNode? hwf hscope
    have := hle scope hscope
    omega

end

/-- **For the statement around it, a subquery changes nothing but the problems.** -/
theorem checkSubquery_affects (hv : q.Visits visit) (hid : q.IsPlain id)
    (hkind : (q.tree.kind id).isSubquery = true) :
    q.Affects id (q.tree.Holds id) (checkSubquery visit id) fun _ => True := by
  intro s hs
  have hwf := q.isQuery.wellFormed
  have hstatement := NodeKind.isStatement_of_isSubquery hkind
  obtain ⟨node, hnode⟩ : ∃ node, node ∈ q.tree.children id := by
    cases hk : q.tree.kind id <;> rw [hk] at hkind <;>
      first | exact absurd hkind Bool.false_ne_true | skip
    exact ⟨_, by rw [Tree.children, hk]; exact List.mem_cons_self⟩
  have hscope : q.tree.scopeNode? node = some id := by
    rw [Tree.scopeNode?, Tree.scopes_of_statement hwf hnode hstatement]
    rfl
  have hfits := fits_enter hid hkind hs hnode
  obtain ⟨-, hsteady, hchange⟩ := visitChildren_affects hv hstatement hnode _ hfits
  have hrun := checkSubquery_run visit q.env s id
  dsimp only at hrun
  generalize (visitChildren visit id q.env { s with context := s.context.enter id }).2 = inner
    at hsteady hchange hrun
  generalize hfresh : inner.used.filter (!s.used.contains ·) = fresh at hrun
  have hcontext : inner.context = q.context node := hsteady.context.trans hfits.context
  rw [hrun]
  have hprefix : s.problems <+: (checkVariables fresh q.env inner).2.problems := by
    rw [checkVariables_run, List.append_assoc]
    exact hsteady.problems.trans (List.prefix_append _ _)
  have hinner : (checkVariables fresh q.env inner).2.IsWhole → inner.IsWhole := fun hw problem hp => by
    refine hw problem ?_
    rw [checkVariables_run]
    exact List.mem_append_left _ (List.mem_append_left _ hp)
  refine ⟨trivial, ⟨?_, hsteady.registers, hprefix, fun h he hw => ?_⟩, fun hw => ?_⟩
  · show inner.context.leave = s.context
    rw [hsteady.context]
    exact QueryContext.leave_enter _ _
  · exact hsteady.exceeded h he (hinner hw)
  · have hwhole := hinner hw
    have hswhole : s.IsWhole := hsteady.isWhole hwhole
    have hused := (hchange hwhole).used
    have hnodup := (hchange hwhole).nodup (hs.nodup hswhole)
    have hmem : ∀ used, used ∈ fresh ↔ q.tree.Below (q.tree.children id) used ∧ q.Uses used ∧
        q.tree.scopeNode? used = q.tree.scopeNode? node := by
      intro used
      rw [← hfresh, List.mem_filter, hused]
      simp only [Bool.not_eq_eq_eq_not, Bool.not_true, List.contains_eq_mem, decide_eq_false_iff_not]
      refine ⟨fun h => h.1.resolve_left h.2, fun h => ⟨.inr h, fun hold => ?_⟩⟩
      obtain ⟨outer, houter, hle⟩ := hs.scope hswhole used hold
      obtain ⟨scope, hid'⟩ := hid.placed
      have hlt := Tree.lt_of_scopeNode? hwf hid'
      have hsame := h.2.2
      rw [houter, hscope, Option.some_inj] at hsame
      have := hle scope hid'
      omega
    obtain ⟨new, heq, hnew, hiff⟩ := missing_checkVariables ⟨id, hscope⟩ (hchange hwhole) hcontext
      (by rw [← hfresh]; exact hnodup.filter _) hmem
    refine ⟨fun used => ?_, fun _ => hnodup.filter _, new, heq, hnew, fun used => ?_⟩
    · show used ∈ inner.used.filter (s.used.contains ·) ↔ _
      rw [List.mem_filter, hused]
      simp only [List.contains_eq_mem, decide_eq_true_eq]
      refine ⟨fun h => .inl h.2, ?_⟩
      rintro (hold | ⟨hholds, huse, hsame⟩)
      · exact ⟨.inl hold, hold⟩
      · exact absurd hsame (scopeNode?_of_below hid hkind hholds huse).2
    · rw [hiff]
      constructor
      · rintro ⟨hbelow, huse, hhidden⟩
        have hholds := (Tree.holds_iff hwf).mpr (.inr hbelow)
        exact ⟨hholds, huse, (scopeNode?_of_below hid hkind hholds huse).2, hhidden⟩
      · rintro ⟨hholds, huse, -, hhidden⟩
        exact ⟨(scopeNode?_of_below hid hkind hholds huse).1, huse, hhidden⟩

end Subject

end Jpql.Check
