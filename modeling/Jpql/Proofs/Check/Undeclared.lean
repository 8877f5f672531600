import Jpql.Proofs.Check.Visit
import Jpql.Validate

/-! # Undeclared variables

`validate_undeclared` says which nodes a validation reports as variables that are not declared: each
use of a variable that no statement around it declares, once. The proof goes down the levels of the
visitor, and from the statement of a query to the query. -/

namespace Jpql

namespace Check.Subject

variable {q : Subject} {id node : Nat}

/-! ## Nodes that lie too deep -/

/-- A node that is left out makes the check incomplete. -/
theorem leaveOut_run (q : Subject) (id : Nat) (s : State) :
    Steady s (leaveOut id q.env s).2 ∧
      ((leaveOut id q.env s).2.IsWhole → s.exceeded = true ∧ (leaveOut id q.env s).2 = s) := by
  obtain ⟨context, problems, used, registers, exceeded⟩ := s
  cases exceeded with
  | true => exact ⟨.refl, fun _ => ⟨rfl, rfl⟩⟩
  | false =>
    have hrun : (leaveOut id q.env ⟨context, problems, used, registers, false⟩).2 =
        ⟨context, problems ++ [⟨.traversalTooDeep, [toString q.env.maxDepth], context.tree.span id,
          some id⟩], used, registers, true⟩ := rfl
    have hnot : ¬(leaveOut id q.env ⟨context, problems, used, registers, false⟩).2.IsWhole := by
      rw [hrun]
      exact fun hw => hw _ (List.mem_append_right _ (List.mem_singleton_self _)) rfl
    refine ⟨⟨rfl, rfl, ?_, fun _ _ => hnot⟩, fun hw => absurd hw hnot⟩
    rw [hrun]
    exact List.prefix_append _ _

/-- **The visitor for any number of levels keeps its promises.** -/
theorem visitTo_visits (levels : Nat) : q.Visits (visitTo levels) := by
  induction levels with
  | zero =>
    refine ⟨fun id hid s hs => ?_, fun id name isVirtual hk s htree => ?_⟩
    · obtain ⟨hsteady, hwhole⟩ := leaveOut_run q id s
      refine ⟨trivial, hsteady, fun hw => ?_⟩
      have hdeep := hs.exceeded (hwhole hw).1
      exact absurd (hsteady.isWhole hw) hdeep
    · obtain ⟨hsteady, hwhole⟩ := leaveOut_run q id s
      exact ⟨hsteady, fun hw => .inl (hwhole hw).2⟩
  | succ levels ih =>
    refine ⟨fun id hid => visitKind_affects ih hid, fun id name isVirtual hk s htree => ?_⟩
    have hrun : (visitTo (levels + 1) id q.env s).2 =
        (variableUse (visitTo levels) id name isVirtual none q.env s).2 := by
      show ((kindOf id >>= _) q.env s).2 = _
      rw [kindOf_run, htree, hk]
    rw [hrun]
    exact variableUse_touches isVirtual s

/-! ## From the statement to the query -/

/-- The statement of a query has children, at which its context is that of the query. -/
theorem exists_child_statement (q : Subject) :
    ∃ node, node ∈ q.tree.children q.statement ∧ q.tree.scopeNode? node = some q.statement ∧
      q.context node = .ofTree q.tree q.metamodel := by
  have hquery := q.isQuery
  have houter := hquery.outer
  have hkind := NodeKind.isStatement_of_isOuterStatement houter
  obtain ⟨node, hnode⟩ : ∃ node, node ∈ q.tree.children q.statement := by
    cases hk : q.tree.kind q.statement <;> rw [hk] at houter <;> first
      | exact absurd houter Bool.false_ne_true
      | exact ⟨_, by rw [Tree.children, hk]; exact List.mem_cons_self⟩
  refine ⟨node, hnode, ?_, ?_⟩
  · rw [Tree.scopeNode?, Tree.scopes_of_statement hquery.wellFormed hnode hkind]
    rfl
  · rw [context, QueryContext.around_of_child hquery.wellFormed hnode hquery.not_isSubquery,
      QueryContext.around_statement hquery]

theorem fits_initial (hcontext : q.context node = .ofTree q.tree q.metamodel) :
    q.Fits node (.initial (.ofTree q.tree q.metamodel)) := by
  refine ⟨hcontext.symm, rfl, fun h => absurd h Bool.false_ne_true, fun _ => List.nodup_nil, ?_, ?_⟩
  all_goals
    intro _ id hid
    cases hid

/-- **A visit to the statement of a query** accounts for all it holds. -/
theorem visit_statement (levels : Nat) (hnode : node ∈ q.tree.children q.statement) {s : State}
    (hs : q.Fits node s) :
    Steady s (visitTo levels q.statement q.env s).2 ∧
      ((visitTo levels q.statement q.env s).2.IsWhole →
        q.Change node (q.tree.Below (q.tree.children q.statement)) s
          (visitTo levels q.statement q.env s).2) := by
  cases levels with
  | zero =>
    obtain ⟨hsteady, hwhole⟩ := leaveOut_run q q.statement s
    exact ⟨hsteady, fun hw => absurd (hsteady.isWhole hw) (hs.exceeded (hwhole hw).1)⟩
  | succ levels =>
    have houter := q.isQuery.outer
    have hrun : visitTo (levels + 1) q.statement q.env s =
        visitChildren (visitTo levels) q.statement q.env s := by
      show (kindOf q.statement >>= _) q.env s = _
      have htree : s.context.tree = q.tree := by
        rw [hs.context]
        rfl
      rw [kindOf_run, htree]
      cases hk : q.tree.kind q.statement <;> rw [hk] at houter <;>
        first | rfl | exact absurd houter Bool.false_ne_true
    rw [hrun]
    exact (visitChildren_affects (visitTo_visits levels)
      (NodeKind.isStatement_of_isOuterStatement houter) hnode s hs).2

/-- The query is visited with its statement, whose variables are then looked up. -/
theorem visitTo_root_run (levels : Nat) (hnode : node ∈ q.tree.children q.statement) {s : State}
    (hs : q.Fits node s) :
    (visitTo (levels + 1) q.tree.root q.env s).2 =
      (checkVariables (visitTo levels q.statement q.env s).2.used q.env
        (visitTo levels q.statement q.env s).2).2 := by
  have htree : s.context.tree = q.tree := by
    rw [hs.context]
    rfl
  have hafter : (visitTo levels q.statement q.env s).2.context.tree = q.tree := by
    rw [(visit_statement levels hnode hs).1.context]
    exact htree
  show ((kindOf q.tree.root >>= _) q.env s).2 = _
  rw [kindOf_run, htree, q.isQuery.root]
  show ((visitTo levels q.statement >>= fun _ => kindOf q.statement >>= _) q.env s).2 = _
  rw [bind_run, kindOf_run, hafter, NodeKind.isStatement_of_isOuterStatement q.isQuery.outer]
  rfl

/-- A use of a variable lies below the statement of the query. -/
theorem Uses.below (huse : q.Uses id) : q.tree.Below (q.tree.children q.statement) id := by
  obtain ⟨scope, hscope⟩ := huse.scopeNode?
  obtain ⟨hholds, hne⟩ := q.isQuery.holds_of_scopeNode? hscope
  exact ((Tree.holds_iff q.isQuery.wellFormed).mp hholds).resolve_left hne

/-- **A check of a query that leaves nothing out reports the uses that no statement declares.** -/
theorem checkTree_undeclared (q : Subject)
    (hwhole : ∀ problem ∈ checkTree (.ofTree q.tree q.metamodel) q.env,
      problem.key ≠ .traversalTooDeep) :
    ∃ ids : List Nat,
      undeclaredNodes (checkTree (.ofTree q.tree q.metamodel) q.env) = ids.map some ∧ ids.Nodup ∧
        ∀ id, id ∈ ids ↔ q.tree.IsUndeclared q.metamodel id := by
  have hquery := q.isQuery
  obtain ⟨node, hnode, hscope, hcontext⟩ := exists_child_statement q
  have hfits := fits_initial hcontext
  have hcheck : checkTree (.ofTree q.tree q.metamodel) q.env =
      (visitTo q.env.maxDepth q.tree.root q.env (.initial (.ofTree q.tree q.metamodel))).2.problems :=
    rfl
  rw [hcheck] at hwhole ⊢
  cases hdepth : q.env.maxDepth with
  | zero =>
    rw [hdepth] at hwhole
    exact absurd ((leaveOut_run q q.tree.root _).2 hwhole).1 Bool.false_ne_true
  | succ levels =>
    rw [hdepth] at hwhole
    rw [visitTo_root_run levels hnode hfits] at hwhole ⊢
    obtain ⟨hsteady, hchange⟩ := visit_statement levels hnode hfits
    generalize (visitTo levels q.statement q.env
      (.initial (.ofTree q.tree q.metamodel))).2 = t at *
    have hchange' := hchange fun problem hp => hwhole problem (by
      rw [checkVariables_run]
      exact List.mem_append_left _ (List.mem_append_left _ hp))
    have hused : ∀ id, id ∈ t.used ↔ q.tree.Below (q.tree.children q.statement) id ∧ q.Uses id ∧
        q.tree.scopeNode? id = q.tree.scopeNode? node := fun id => by
      rw [hchange'.used]
      exact or_iff_right List.not_mem_nil
    obtain ⟨ids, heq, hnodup, hiff⟩ := missing_checkVariables ⟨_, hscope⟩ hchange'
      (hsteady.context.trans hfits.context) (hchange'.nodup List.nodup_nil) hused
    refine ⟨ids, heq, hnodup, fun id => ?_⟩
    rw [hiff, Tree.isUndeclared_iff]
    exact ⟨And.right, fun h => ⟨Uses.below h.1, h⟩⟩

end Check.Subject

/-! ## Validations -/

/-- **A validation reports the uses of variables that are not declared**, each once, if the text is
read without a problem and no part of the tree is left out of the check. -/
theorem validate_undeclared (source : String) (metamodel : Metamodel) (parsed : Parsed)
    (hparse : parse source RuleId.statement ValidationOptions.standard.maxNestingDepth = .ok parsed)
    (hclean : parsed.problems = []) :
    ∃ outcome, validate source RuleId.statement metamodel .standard = .ok outcome ∧
      ((∀ problem ∈ outcome.problems, problem.key ≠ .traversalTooDeep) →
        ∃ ids : List Nat, undeclaredNodes outcome.problems = ids.map some ∧ ids.Nodup ∧
          ∀ id, id ∈ ids ↔ parsed.tree.IsUndeclared metamodel id) := by
  obtain ⟨statement, hquery⟩ := parse_isQuery hparse hclean
  let q : Check.Subject :=
    ⟨parsed.tree, statement, hquery, metamodel, ValidationOptions.standard.checkEnv, rfl⟩
  let found := checkTree (.ofTree parsed.tree metamodel) ValidationOptions.standard.checkEnv
  refine ⟨{ parsed with problems := parsed.problems ++ found }, ?_, ?_⟩
  · rw [validate, hparse]
    rfl
  · rw [hclean]
    exact Check.Subject.checkTree_undeclared q

/-- The subquery sees the variable `e` of the query; `y` is not declared. -/
theorem validate_undeclared_subquery :
    ∃ parsed outcome, ∃ ids : List Nat,
      parse "SELECT y FROM E e WHERE EXISTS (SELECT E FROM F f)"
        RuleId.statement ValidationOptions.standard.maxNestingDepth = .ok parsed ∧
      parsed.problems = [] ∧
      validate "SELECT y FROM E e WHERE EXISTS (SELECT E FROM F f)"
        RuleId.statement .initial .standard = .ok outcome ∧
      undeclaredNodes outcome.problems = ids.map some ∧ ids.Nodup ∧ ids.length = 1 ∧
      ∀ id, id ∈ ids ↔ parsed.tree.IsUndeclared .initial id := by
  let source := "SELECT y FROM E e WHERE EXISTS (SELECT E FROM F f)"
  have hread : (match parse source RuleId.statement ValidationOptions.standard.maxNestingDepth with
      | .ok parsed => parsed.problems.isEmpty
      | .error _ => false) = true := by decide +kernel
  have hcheck : (match validate source RuleId.statement .initial .standard with
      | .ok outcome => outcome.problems.all (·.key != .traversalTooDeep) &&
          (undeclaredNodes outcome.problems).length == 1
      | .error _ => false) = true := by decide +kernel
  cases hparse : parse source RuleId.statement ValidationOptions.standard.maxNestingDepth with
  | error e =>
    rw [hparse] at hread
    cases hread
  | ok parsed =>
    rw [hparse] at hread
    have hclean : parsed.problems = [] := List.isEmpty_iff.mp hread
    obtain ⟨outcome, hvalidate, hreports⟩ := validate_undeclared source .initial parsed hparse hclean
    rw [hvalidate] at hcheck
    obtain ⟨hwhole, hlength⟩ := Bool.and_eq_true_iff.mp hcheck
    obtain ⟨ids, heq, hnodup, hiff⟩ := hreports fun problem hmem =>
      bne_iff_ne.mp (List.all_eq_true.mp hwhole problem hmem)
    refine ⟨parsed, outcome, ids, rfl, hclean, hvalidate, heq, hnodup, ?_, hiff⟩
    rw [heq, List.length_map] at hlength
    exact beq_iff_eq.mp hlength

end Jpql
