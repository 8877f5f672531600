import Jpql.Proofs.Check.VariableReport

/-! # Reports on trees

* `Check.Input.visitKind_reports`: what a check does at a plain node reports on what the node holds,
  given a visitor for the nodes below that does.
* `Check.Input.visitTo_visits`: so does the visitor for any number of levels.
* `Check.Input.checkTree_step`: a check of a tree reports on all its nodes. -/

namespace Jpql.Check.Input

variable {q : Input} {id : Nat} {visit : Visitor} {context : QueryContext} {scope : Option Nat}

/-! ## All kinds -/

/-- A node below the statement is neither the query nor a statement that is no subquery. -/
theorem not_outer (hheld : q.tree.Holds q.statement id)
    (hinner : (q.tree.kind id).isStatement = true → id ≠ q.statement) :
    (∀ statement leftover, q.tree.kind id ≠ .query statement leftover) ∧
      (q.tree.kind id).isOuterStatement = false ∧
      ((q.tree.kind id).isSubquery = true → q.tree.parent? id ≠ some q.tree.root) := by
  have hwf := q.isClean.wellFormed
  have hle := hheld.le hwf
  have hlt := (hwf.of_parent q.isClean.parent_statement).1
  refine ⟨fun statement leftover hk => ?_, Bool.eq_false_iff.mpr fun houter => ?_, fun hsub hroot => ?_⟩
  · rw [q.isClean.eq_root hk] at hle
    omega
  · have hstatement := NodeKind.isStatement_of_isOuterStatement houter
    cases hheld with
    | refl => exact hinner hstatement rfl
    | up hp _ => exact hinner hstatement (q.isClean.eq_statement hp houter)
  · have hc := (hwf.of_parent hroot).2.2
    rw [Tree.children, q.isClean.root] at hc
    refine hinner (NodeKind.isStatement_of_isSubquery hsub) ?_
    simpa [NodeKind.children] using hc

/-- **What a check does at a plain node reports on what the node holds.** -/
theorem visitKind_reports (hv : q.Visits visit) (hid : q.IsPlain id) :
    q.Reports (q.context id) (q.tree.scopeNode? id) (q.tree.Holds id) (visitKind visit id)
      fun _ => True := by
  have hwf := q.isClean.wellFormed
  by_cases huniform : (q.tree.kind id).isUniform = true
  · exact uniform_reports hv hid (NodeKind.not_isStatement_of_isUniform huniform)
      (NodeKind.not_identifier_of_isUniform huniform) huniform
  obtain ⟨hquery, houter, hroot⟩ := not_outer hid.held hid.inner
  refine .kindOf_bind ?_
  rw [show (q.context id).tree = q.tree from rfl]
  have hfindings : ∀ {kind : NodeKind}, q.tree.kind id = kind → q.findings id =
      match kind with
      | .schemaName name => ((q.context id).schemaName? name).toList.map (q.tree.problemAt · id)
      | .entityType name =>
        if (q.metamodel.entity? name).isNone then [q.tree.problemAt .entityTypeNotResolvable id] else []
      | _ => q.findings id := by
    rintro _ rfl
    split
    · next hk => rw [findings, Tree.findings, hk]; rfl
    · next hk => rw [findings, Tree.findings, hk]
    · rfl
  cases hk : q.tree.kind id with
  | query statement leftover => exact absurd hk (hquery statement leftover)
  | selectStatement | updateStatement | deleteStatement =>
    rw [hk] at houter
    cases houter
  | simpleSelectStatement select fromClause whereClause groupBy having =>
    have hsub : (q.tree.kind id).isSubquery = true := by rw [hk]; rfl
    refine .inTree_bind ?_
    split
    · next hparent => exact absurd (beq_iff_eq.mp hparent) (hroot hsub)
    · exact checkSubquery_reports hv hid hsub
  | fromClause declarations | simpleFromClause declarations =>
    exact fromClause_reports hv hid (by rw [hk]; rfl)
  | schemaName name =>
    have hleaf : q.tree.children id = [] := by rw [Tree.children, hk]; rfl
    exact .of_leaf hleaf (.ask_bind (.recordOption rfl (hfindings hk)))
  | entityType name =>
    have hleaf : q.tree.children id = [] := by rw [Tree.children, hk]; rfl
    have h := hfindings hk
    refine .of_leaf hleaf (.ask_bind ?_)
    rw [show (q.context id).metamodel = q.metamodel from rfl]
    dsimp only at h
    split at h
    · next hnone =>
      rw [if_pos hnone]
      exact .recordAt rfl h
    · next hsome =>
      rw [if_neg hsome]
      exact .of_nil h trivial
  | identifier name isVirtual path => exact variableUse_reports hv hid hk
  | index argument => exact index_reports hv hid hk
  | logical connective left right => exact chain_reports hv hid
  | comparison left operator right =>
    have hordering : operator.isOrdering = true := by simpa [hk, NodeKind.isUniform] using huniform
    dsimp only
    rw [if_pos hordering]
    refine basicOperands_reports hv hid.held (by rw [Tree.children, hk]; rfl) ?_ ?_ <;>
      simp [hk, NodeKind.repeated, NodeKind.demands, hordering]
  | arithmetic operation left right =>
    exact basicOperands_reports hv hid.held (by rw [Tree.children, hk]; rfl) (by rw [hk]; rfl)
      (by rw [hk]; rfl)
  | path kind root segments dot =>
    have hasked := hid.asked id (by rw [Tree.pathBehind?, hk])
    cases kind with
    | stateField =>
      exact (statePath_reports hk hv hid.held (.inl rfl) hasked).discard
    | collectionValued =>
      have hnil : q.findings id = [] := by
        rw [hasked, QueryContext.pathProblems, show (q.context id).tree.kind id = _ from hk]
      refine .of_children hnil ((root_reports hk hv hid.held).congr fun inner => ?_)
      rw [Tree.children, hk]
      simp [NodeKind.children]
  | _ => exact absurd (by rw [hk]; rfl) huniform

/-! ## Levels -/

/-- **What lies too deep is left out**, and the first such node reported. -/
theorem leaveOut_step (s : State) (hnodup : s.used.Nodup) :
    ∃ new, q.Step scope (q.tree.Holds id) s (leaveOut id q.env s).2 new ∧
      ∀ problem ∈ new, problem.key = .traversalTooDeep := by
  obtain ⟨context, problems, used, registers, exceeded⟩ := s
  cases exceeded with
  | true =>
    refine ⟨[], ⟨.refl hnodup, .nil, fun hno => ?_⟩, by simp⟩
    cases hno
  | false =>
    refine ⟨[⟨.traversalTooDeep, [toString q.env.maxDepth], context.tree.span id, some id⟩],
      ⟨⟨rfl, rfl, rfl, fun _ => .inl, hnodup⟩, ⟨?_, fun inner => ⟨0, ?_, .inl (Nat.zero_le _)⟩, ?_, ?_⟩,
        fun hno => ?_⟩, by simp⟩
    · intro problem hmem
      rw [List.mem_singleton.mp hmem]
      exact ⟨id, rfl, .refl⟩
    · refine foundAt_eq_nil fun problem hmem hfinding => ?_
      rw [List.mem_singleton.mp hmem] at hfinding
      cases hfinding
    · exact List.nodup_nil
    · intro problem hmem hkey
      rw [List.mem_singleton.mp hmem] at hkey
      cases hkey
    · cases hno

/-- **The visitor for any number of levels reports what it should.** -/
theorem visitTo_visits (levels : Nat) : q.Visits (visitTo levels) := by
  induction levels with
  | zero =>
    intro id _ s _ hnodup
    obtain ⟨new, hstep, -⟩ := leaveOut_step s hnodup
    exact ⟨trivial, new, hstep⟩
  | succ levels ih => exact fun id hid => visitKind_reports ih hid

/-! ## The whole tree -/

/-- The context of the statement that the text consists of. -/
theorem context_statement : q.context q.statement = .ofTree q.tree q.metamodel := by
  have hc : q.statement ∈ q.tree.children q.tree.root := by
    rw [Tree.children, q.isClean.root]
    exact List.mem_cons_self
  have hkind : (q.tree.kind q.tree.root).isStatement = false := by
    rw [q.isClean.root]
    rfl
  rw [context_of_child hc hkind, context,
    QueryContext.within_of_root q.isClean.wellFormed.root_parent]

/-- What the text consists of is plain, unless it is a statement. -/
theorem isPlain_statement (hkind : (q.tree.kind q.statement).isStatement = false) :
    q.IsPlain q.statement := by
  have hp := q.isClean.parent_statement
  refine ⟨.refl, fun h => ?_, fun path hpath => ?_, fun _ parent hparent => ?_⟩
  · rw [hkind] at h
    cases h
  · have hmem : (q.statement, Demand.value) ∈ (q.tree.kind q.tree.root).demands := by
      rw [q.isClean.root]
      exact List.mem_cons_self
    obtain ⟨kind, root, segments, dot, hk, -⟩ := isPath_behind hpath
    rw [findings_path hk, demand_behind hmem ?_ ?_ hpath] <;> simp [q.isClean.root, NodeKind.isTreat]
  · rw [hp, Option.some_inj] at hparent
    rw [← hparent, q.isClean.root]
    rfl

/-- **A visit to the statement that the text consists of**, and to what comes below it. -/
theorem visitStatement_step (levels : Nat) (hkind : (q.tree.kind q.statement).isStatement = true)
    {s : State} (hs : s.context = .ofTree q.tree q.metamodel) (hnodup : s.used.Nodup) :
    ∃ M problems, q.Step (some q.statement) M s (visitTo levels q.statement q.env s).2 problems ∧
      (∀ id, M id → q.tree.Holds q.statement id) ∧
      (∀ id, q.tree.Holds q.statement id → ¬M id → q.findings id = []) ∧
      ∀ used : List Nat, (∀ id ∈ used, q.tree.scopeNode? id = some q.statement) →
        ∀ problem ∈ problems, problem.key.isVariable = true →
          problem ∉ s.context.duplicates ++ s.context.undeclared used := by
  have hwf := q.isClean.wellFormed
  cases levels with
  | zero =>
    obtain ⟨problems, hstep, hkeys⟩ := leaveOut_step (q := q) s hnodup
    refine ⟨_, problems, hstep, fun _ => id, fun _ h hno => absurd h hno, ?_⟩
    intro used hused problem hmem hkey
    rw [hkeys problem hmem] at hkey
    cases hkey
  | succ levels =>
    have hcontext : ∀ child ∈ q.tree.children q.statement, q.context child = s.context := by
      intro child hc
      rw [hs, ← context_statement]
      exact QueryContext.within_of_child hwf hc fun _ => q.isClean.statementOf_eq.symm
    have hchildren := statementChildren_reports (visitTo_visits levels) .refl hkind
      (by rw [hs]; rfl) hcontext
    have hrun : visitKind (visitTo levels) q.statement q.env s =
        visitChildren (visitTo levels) q.statement q.env s := by
      have hparent : (s.context.tree.parent? q.statement == some s.context.tree.root) = true := by
        rw [hs]
        exact beq_iff_eq.mpr q.isClean.parent_statement
      have htree : s.context.tree.kind q.statement = q.tree.kind q.statement := by rw [hs]; rfl
      rw [visitKind, kindOf_run, htree]
      cases hk : q.tree.kind q.statement <;> rw [hk] at hkind <;> first
        | exact absurd hkind Bool.false_ne_true
        | rfl
        | (dsimp only
           rw [inTree_run, if_pos hparent])
    obtain ⟨-, problems, hstep⟩ := hchildren s rfl hnodup
    rw [← hrun] at hstep
    refine ⟨_, problems, hstep, fun id h => (Tree.holds_iff hwf).mpr (.inr h), fun id hid hno => ?_,
      fun used hused => fresh_of_children hkind (by rw [hs, ← q.isClean.statementOf_eq]; rfl) hused
        hstep.tally⟩
    obtain rfl := ((Tree.holds_iff hwf).mp hid).resolve_right hno
    exact findings_statement hkind

/-- At the root the statement is visited, and then its variables looked up. -/
theorem visitRoot_run (levels : Nat) {s : State} (hs : s.context.tree = q.tree) :
    visitTo (levels + 1) q.tree.root q.env s =
      (do
        let kind ← kindOf q.statement
        if kind.isStatement then checkVariables (← get).used) q.env
        (visitTo levels q.statement q.env s).2 := by
  have hkind : s.context.tree.kind q.tree.root = .query (some q.statement) none := by
    rw [hs]
    exact q.isClean.root
  rw [visitTo, visitKind, kindOf_run, hkind]
  rfl

/-- **A check of a tree reports on all its nodes.** -/
theorem visitTo_root : ∃ scope new, q.Step scope (q.tree.Holds q.tree.root)
    (.initial (.ofTree q.tree q.metamodel))
    (visitTo q.env.maxDepth q.tree.root q.env (.initial (.ofTree q.tree q.metamodel))).2 new := by
  have hwf := q.isClean.wellFormed
  have hc : q.statement ∈ q.tree.children q.tree.root := by
    rw [Tree.children, q.isClean.root]
    exact List.mem_cons_self
  generalize hs : State.initial (.ofTree q.tree q.metamodel) = s
  have hcontext : s.context = .ofTree q.tree q.metamodel := by rw [← hs]; rfl
  have hused : s.used = [] := by rw [← hs]; rfl
  have hnodup : s.used.Nodup := by rw [hused]; exact List.nodup_nil
  have hroot : ∀ id, q.tree.Holds q.tree.root id → ¬q.tree.Holds q.statement id →
      q.findings id = [] := by
    intro id hid hno
    rw [Tree.holds_iff hwf, Tree.children, q.isClean.root] at hid
    obtain rfl := hid.resolve_right (by simpa [NodeKind.children] using hno)
    refine findings_eq_nil ?_ ?_ ?_ ?_ <;> rw [q.isClean.root] <;>
      simp [Scope.isFromClause, NodeKind.isPath]
  cases q.env.maxDepth with
  | zero =>
    obtain ⟨new, hstep, -⟩ : ∃ new, q.Step none (q.tree.Holds q.tree.root) s
        (leaveOut q.tree.root q.env s).2 new ∧ ∀ problem ∈ new, problem.key = .traversalTooDeep :=
      leaveOut_step s hnodup
    exact ⟨none, new, hstep⟩
  | succ levels =>
    rw [visitRoot_run levels (by rw [hcontext]; rfl), kindOf_run]
    cases hstatement : (q.tree.kind q.statement).isStatement with
    | false =>
      obtain ⟨-, new, hstep⟩ := visitTo_visits levels q.statement (isPlain_statement hstatement) s
        (by rw [hcontext, context_statement]) hnodup
      have htree : (visitTo levels q.statement q.env s).2.context.tree = q.tree := by
        rw [hstep.context, hcontext]
        rfl
      rw [htree, hstatement]
      exact ⟨_, new, hstep.widen (fun id h => h.of_child hwf hc) hroot⟩
    | true =>
      obtain ⟨M, problems, hstep, hM, hrest, hfresh⟩ :=
        visitStatement_step levels hstatement hcontext hnodup
      have htree : (visitTo levels q.statement q.env s).2.context.tree = q.tree := by
        rw [hstep.context, hcontext]
        rfl
      rw [htree, hstatement]
      have hplace : ∀ id ∈ (visitTo levels q.statement q.env s).2.used,
          q.tree.scopeNode? id = some q.statement := fun id hid =>
        ((hstep.used id hid).resolve_left (by simp [hused])).2
      have hend := statement_step hstatement
        (by rw [hcontext, ← q.isClean.statementOf_eq]; rfl) hstep.nodup hplace hstep hstep.context hM
        hrest (hfresh _ hplace)
      exact ⟨_, _, hend.widen (fun id h => h.of_child hwf hc) hroot⟩

/-- **What a check of a tree without gaps reports**: it tells of each node what is wrong there, once or
twice, and of all nodes unless one lies too deep; of the first such node it tells. -/
theorem checkTree_tally :
    q.Tally (q.tree.Holds q.tree.root) (checkTree (.ofTree q.tree q.metamodel) q.env) ∧
      (checkTree (.ofTree q.tree q.metamodel) q.env).countP (·.key == .traversalTooDeep) ≤ 1 ∧
      ((∀ problem ∈ checkTree (.ofTree q.tree q.metamodel) q.env, problem.key ≠ .traversalTooDeep) →
        ∀ id, q.tree.Holds q.tree.root id →
          q.findings id ⊆ checkTree (.ofTree q.tree q.metamodel) q.env) := by
  obtain ⟨scope, new, hstep⟩ := visitTo_root (q := q)
  have hproblems : checkTree (.ofTree q.tree q.metamodel) q.env = new := hstep.problems
  have hdepth : new.countP (·.key == .traversalTooDeep) = _ := hstep.depth
  rw [hproblems]
  refine ⟨hstep.tally, ?_, fun hnone => hstep.complete ?_⟩
  · rw [hdepth]
    exact Bool.toNat_le _
  · have hzero : new.countP (·.key == .traversalTooDeep) = 0 :=
      List.countP_eq_zero.mpr fun problem hmem hkey => hnone problem hmem (beq_iff_eq.mp hkey)
    rw [hzero] at hdepth
    exact Bool.toNat_eq_zero.mp hdepth.symm

end Jpql.Check.Input
