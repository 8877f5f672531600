import Jpql.Proofs.Check.NodeReport
import Jpql.Proofs.Check.Subquery
import Jpql.Proofs.Scope.Distinct

/-! # Reports on variables

At the end of a statement or subquery its variables are looked up: those declared twice, and those
used but not declared. Each of them stands in that statement and in none below, so none is reported
twice.

* `Check.Input.statement_step`: what the end of a statement adds.
* `Check.Input.checkSubquery_reports`: a subquery reports on all that it holds. -/

namespace Jpql

namespace QueryContext

variable {context : QueryContext} {used : List Nat}

/-- **Problems with variables of one statement**, as many as there are variables. -/
theorem nodup_variables (hdeclared : (context.innermost.names.map (·.2)).Nodup)
    (hused : used.Nodup) : (context.duplicates ++ context.undeclared used).Nodup := by
  have hinj : ∀ key, Function.Injective (context.variableProblem key) := fun key a b hab =>
    Option.some.inj (congrArg Problem.anchor hab)
  have hnodes : (context.localVariables.duplicates.flatMap (·.2)).Nodup := by
    refine (DeclaredVariables.sublist_duplicates _).nodup ?_
    exact (DeclaredVariables.perm_nodes _ _).nodup_iff.mpr hdeclared
  refine List.nodup_append.mpr ⟨hnodes.map (hinj _), (hused.filter _).map (hinj _), ?_⟩
  intro a ha b hb hab
  obtain ⟨_, -, rfl⟩ := List.mem_map.mp ha
  obtain ⟨_, -, rfl⟩ := List.mem_map.mp hb
  cases congrArg Problem.key hab

/-- A problem with a variable is about a variable of the scope, or one that is used. -/
theorem variables_cases {problem : Problem}
    (h : problem ∈ context.duplicates ++ context.undeclared used) :
    problem.key.isVariable = true ∧ problem.key ≠ .indexWrongVariable ∧
      ∃ id, problem.anchor = some id ∧ (id ∈ context.innermost.names.map (·.2) ∨ id ∈ used) := by
  rcases List.mem_append.mp h with h | h
  · obtain ⟨id, hid, rfl⟩ := List.mem_map.mp h
    refine ⟨rfl, by simp [variableProblem], id, rfl, .inl ?_⟩
    have hnode := (DeclaredVariables.sublist_duplicates _).subset hid
    simpa [DeclaredVariables.nodes, DeclaredVariables.empty] using
      (DeclaredVariables.perm_nodes context.innermost .empty).mem_iff.mp hnode
  · obtain ⟨id, hid, rfl⟩ := List.mem_map.mp h
    exact ⟨rfl, by simp [variableProblem], id, rfl, .inr (List.mem_filter.mp hid).1⟩

end QueryContext

namespace Check.Input

variable {q : Input} {id statement : Nat} {visit : Visitor} {M : Nat → Prop} {s t : State}
  {problems : List Problem} {context : QueryContext} {used : List Nat}

/-! ## The end of a statement -/

section

variable (hkind : (q.tree.kind statement).isStatement = true)
  (hscope : context.innermost = Scope.ofStatement q.tree statement) (hnodup : used.Nodup)
  (hused : ∀ id ∈ used, q.tree.scopeNode? id = some statement)

include hkind hscope hused

/-- Problems with the variables of a statement stand in the statement. -/
theorem variables_anchor (problem : Problem)
    (h : problem ∈ context.duplicates ++ context.undeclared used) :
    problem.key.isVariable = true ∧ problem.key ≠ .indexWrongVariable ∧
      ∃ id, problem.anchor = some id ∧ q.tree.scopeNode? id = some statement := by
  obtain ⟨hkey, hne, id, hanchor, hid⟩ := QueryContext.variables_cases h
  refine ⟨hkey, hne, id, hanchor, hid.elim (fun hname => ?_) (hused id)⟩
  rw [hscope] at hname
  obtain ⟨⟨name, node⟩, hmem, rfl⟩ := List.mem_map.mp hname
  have hlt : statement < q.tree.size := Tree.lt_size_of_kind fun hbad => by
    rw [hbad] at hkind
    cases hkind
  exact ((Scope.mem_names_ofStatement q.isClean.wellFormed q.isClean.schematic hlt hkind).mp hmem).2.1

include hnodup

/-- **What the end of a statement reports** tells of the statement. -/
theorem variables_tally :
    q.Tally (q.tree.Holds statement) (context.duplicates ++ context.undeclared used) := by
  have hwf := q.isClean.wellFormed
  have hanchor := variables_anchor hkind hscope hused
  have hpart : (q.tree.kind statement).isPathPart = false := by
    cases hk : q.tree.kind statement <;> rw [hk] at hkind <;> first
      | rfl
      | exact absurd hkind Bool.false_ne_true
  refine .of_variables (fun problem h => ?_) (fun problem h => (hanchor problem h).1)
    (QueryContext.nodup_variables (by rw [hscope]; exact Scope.nodup_names hwf statement) hnodup)
    fun problem h => ⟨statement, .refl, hpart, fun heq => absurd heq (hanchor problem h).2.1,
      fun _ => ⟨hkind, (hanchor problem h).2.2⟩⟩
  obtain ⟨-, -, id, hid, hin⟩ := hanchor problem h
  exact ⟨id, hid, (Tree.holds_of_scopeNode? hwf hin).2⟩

/-- **The end of a statement**: its variables are looked up. -/
theorem statement_step (hstep : q.Step (some statement) M s t problems) (ht : t.context = context)
    (hM : ∀ id, M id → q.tree.Holds statement id)
    (hrest : ∀ id, q.tree.Holds statement id → ¬M id → q.findings id = [])
    (hfresh : ∀ problem ∈ problems, problem.key.isVariable = true →
      problem ∉ context.duplicates ++ context.undeclared used) :
    q.Step (some statement) (q.tree.Holds statement) s (checkVariables used q.env t).2
      (problems ++ (context.duplicates ++ context.undeclared used)) := by
  have hnew := variables_anchor hkind hscope hused
  rw [checkVariables_run]
  refine ⟨⟨?_, hstep.context, ?_, fun id hid => (hstep.used id hid).imp_right (.imp_left (hM id)),
    hstep.nodup⟩, ?_, fun hexceeded id hid => ?_⟩
  · rw [ht, hstep.problems]
    simp only [List.append_assoc]
  · have hshallow : (context.duplicates ++ context.undeclared used).countP
        (·.key == .traversalTooDeep) = 0 := by
      refine List.countP_eq_zero.mpr fun problem h hkey => ?_
      have hvariable := (hnew problem h).1
      rw [beq_iff_eq.mp hkey] at hvariable
      cases hvariable
    rw [List.countP_append, hshallow]
    exact hstep.depth
  · refine (hstep.tally.mono hM).append (variables_tally hkind hscope hnodup hused)
      (fun id => .inr (foundAt_eq_nil fun problem h hfinding => ?_)) hfresh
    rw [ProblemKey.isFinding, (hnew problem h).1] at hfinding
    cases hfinding
  · by_cases hMid : M id
    · exact List.subset_append_of_subset_left _ (hstep.complete hexceeded id hMid)
    · rw [hrest id hid hMid]
      exact List.nil_subset _

omit hnodup in
/-- Problems below a statement are not with its variables. -/
theorem fresh_of_children (h : q.Tally (q.tree.Below (q.tree.children statement)) problems) :
    ∀ problem ∈ problems, problem.key.isVariable = true →
      problem ∉ context.duplicates ++ context.undeclared used := by
  intro problem hmem hvariable hnew
  obtain ⟨-, hne, id, hanchor, hid⟩ := variables_anchor hkind hscope hused problem hnew
  obtain ⟨owner, ⟨child, hc, howner⟩, -, howns⟩ := h.owned problem hmem hvariable
  obtain ⟨-, other, hother, hin⟩ := howns.statement hne
  rw [hanchor, Option.some_inj] at hother
  rw [← hother, hid, Option.some_inj] at hin
  have hle := howner.le q.isClean.wellFormed
  have hlt := q.isClean.wellFormed.child_lt hc
  omega

end

/-- Nothing is wrong at a statement itself. -/
theorem findings_statement (hkind : (q.tree.kind statement).isStatement = true) :
    q.findings statement = [] := by
  cases hk : q.tree.kind statement <;> rw [hk] at hkind <;> first
    | exact absurd hkind Bool.false_ne_true
    | (refine findings_eq_nil ?_ ?_ ?_ ?_ <;> rw [hk] <;> simp [Scope.isFromClause, NodeKind.isPath])

/-- The children of a statement stand in its scope. -/
theorem scopeNode?_of_statement {child : Nat} (hc : child ∈ q.tree.children statement)
    (hkind : (q.tree.kind statement).isStatement = true) : q.tree.scopeNode? child = some statement := by
  rw [Tree.scopeNode?, Tree.scopes_of_statement q.isClean.wellFormed hc hkind]
  rfl

/-- The children of a statement are plain. -/
theorem isPlain_of_statement {child : Nat} (hheld : q.tree.Holds q.statement statement)
    (hkind : (q.tree.kind statement).isStatement = true) (hc : child ∈ q.tree.children statement) :
    q.IsPlain child := by
  have hmem : (child, Demand.value) ∈ (q.tree.kind statement).demands := by
    rw [Tree.children] at hc
    cases hk : q.tree.kind statement <;> rw [hk] at hkind hc <;> first
      | exact absurd hkind Bool.false_ne_true
      | exact List.mem_map_of_mem hc
  refine isPlain_of_child hheld hc (fun path hpath => ?_) (not_join_of_demand hmem (by simp))
  obtain ⟨kind, root, segments, dot, hk, -⟩ := isPath_behind hpath
  rw [findings_path hk, demand_behind hmem ?_ ?_ hpath]
  · rintro name isVirtual behind hk
    rw [hk] at hkind
    cases hkind
  · intro htreat
    rw [NodeKind.not_isStatement_of_isPathPart (NodeKind.isPathPart_of_isTreat htreat)] at hkind
    cases hkind

/-- **The children of a statement are visited.** -/
theorem statementChildren_reports (hv : q.Visits visit)
    (hheld : q.tree.Holds q.statement statement)
    (hkind : (q.tree.kind statement).isStatement = true) (htree : context.tree = q.tree)
    (hcontext : ∀ child ∈ q.tree.children statement, q.context child = context) :
    q.Reports context (some statement) (q.tree.Below (q.tree.children statement))
      (visitChildren visit statement) fun _ => True := by
  have hwf := q.isClean.wellFormed
  refine Reports.inTree_bind ?_
  rw [htree]
  refine .visitAll (Tree.apart_children hwf statement) fun child hc => ?_
  rw [← hcontext child hc, ← scopeNode?_of_statement hc hkind]
  exact hv child (isPlain_of_statement hheld hkind hc)

/-! ## Subqueries -/

/-- **A subquery reports on all that it holds.** -/
theorem checkSubquery_reports (hv : q.Visits visit) (hid : q.IsPlain id)
    (hkind : (q.tree.kind id).isSubquery = true) :
    q.Reports (q.context id) (q.tree.scopeNode? id) (q.tree.Holds id) (checkSubquery visit id)
      fun _ => True := by
  have hwf := q.isClean.wellFormed
  have hstatement := NodeKind.isStatement_of_isSubquery hkind
  have hne : id ≠ QueryContext.statementOf q.tree := by
    rw [q.isClean.statementOf_eq]
    exact hid.inner hstatement
  intro s hs hnodup
  have hcontext : ∀ child ∈ q.tree.children id, q.context child = s.context.enter id :=
    fun child hc => by rw [hs]; exact QueryContext.within_of_subquery hwf hc hkind hne
  obtain ⟨-, problems, hstep⟩ := statementChildren_reports hv hid.held hstatement
    (by rw [hs]; rfl) hcontext { s with context := s.context.enter id } rfl hnodup
  have hrun := checkSubquery_run visit q.env s id
  dsimp only at hrun
  generalize (visitChildren visit id q.env { s with context := s.context.enter id }).2 = inner
    at hstep hrun
  have hused : ∀ used ∈ inner.used.filter (!s.used.contains ·), q.tree.scopeNode? used = some id := by
    intro used hmem
    obtain ⟨hmem, hnew⟩ := List.mem_filter.mp hmem
    exact ((hstep.used used hmem).resolve_left (by simpa using hnew)).2
  have hend := statement_step hstatement (by rw [hs]; rfl) (hstep.nodup.filter _) hused hstep
    hstep.context (fun inner h => (Tree.holds_iff hwf).mpr (.inr h)) (fun inner hinner hno => ?_)
    (fresh_of_children hstatement (by rw [hs]; rfl) hused hstep.tally)
  · rw [hrun]
    refine ⟨trivial, _, ⟨hend.problems, ?_, hend.depth, fun used hmem => ?_, hend.nodup.filter _⟩,
      hend.tally, hend.complete⟩
    · show (checkVariables _ q.env inner).2.context.leave = s.context
      rw [hend.context]
      exact QueryContext.leave_enter _ _
    · exact .inl (by simpa using (List.mem_filter.mp hmem).2)
  · obtain rfl := ((Tree.holds_iff hwf).mp hinner).resolve_right hno
    exact findings_statement hstatement

end Check.Input

end Jpql
