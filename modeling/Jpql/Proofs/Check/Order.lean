import Jpql.Proofs.Check.Report

/-! # The order of declarations is reported

A check reports each variable that a `FROM` clause uses to the left of a declaration of it, at the place
where it is used, and reports nothing else as a matter of order (`validate_order`). -/

namespace Jpql

/-- A variable of a clause stands to the left of a declaration. -/
def Problem.wrongOrder (clause : Nat) (root : Located String) : Problem :=
  ⟨.variableWrongOrder, [root.value], root.span, some clause⟩

namespace Check.Input

variable {q : Input} {clause path : Nat} {right : List Nat} {root : Located String}

/-- What is wrong with the order of a clause. -/
theorem mem_findings_clause (hfrom : Scope.isFromClause (q.tree.kind clause) = true)
    {problem : Problem} : problem ∈ q.findings clause ↔
      ∃ path right root, q.tree.LooksUp (q.tree.children clause) path right ∧
        q.tree.rootVariable? path = some root ∧ (∃ node ∈ right, q.tree.declares node root.value = true) ∧
        problem = .wrongOrder clause root := by
  have hentries : ∀ entry ∈ q.tree.children clause, Slot.entry.admits (q.tree.kind entry) = true :=
    fun entry => Scope.admits_entry q.isClean.schematic
      (Tree.lt_size_of_kind fun hbad => by rw [hbad] at hfrom; cases hfrom) hfrom
  rw [findings_clause hfrom, QueryContext.misplacedProblems, declarations_clause hfrom, List.mem_map]
  constructor
  · rintro ⟨root, hmem, rfl⟩
    obtain ⟨path, right, hlooks, hstart, hright⟩ := (q.isClean.mem_misplaced hentries).mp hmem
    exact ⟨path, right, root, hlooks, hstart, List.any_eq_true.mp hright, rfl⟩
  · rintro ⟨path, right, root, hlooks, hstart, hright, rfl⟩
    exact ⟨root, (q.isClean.mem_misplaced hentries).mpr
      ⟨path, right, hlooks, hstart, List.any_eq_true.mpr hright⟩, rfl⟩

/-- **The variable of a path is out of order** if something to the right of the path declares it. -/
theorem wrongOrder_mem_findings (hwritten : q.tree.WrittenApart)
    (hfrom : Scope.isFromClause (q.tree.kind clause) = true)
    (hlooks : q.tree.LooksUp (q.tree.children clause) path right)
    (hstart : q.tree.rootVariable? path = some root) :
    .wrongOrder clause root ∈ q.findings clause ↔
      ∃ node ∈ right, q.tree.declares node root.value = true := by
  rw [mem_findings_clause hfrom]
  constructor
  · rintro ⟨other, left, found, hlooks', hstart', hright, heq⟩
    -- The problem names the place of the variable, and so the path.
    obtain ⟨-, hvalue, hspan, -⟩ := Problem.mk.inj heq
    obtain rfl : root = found := by
      cases root
      cases found
      exact Located.mk.injEq .. ▸ ⟨(List.cons.inj hvalue).1, hspan⟩
    obtain ⟨node, hnode, hnode'⟩ := hwritten.exists_common q.isClean.wellFormed hstart hstart'
    obtain ⟨-, rfl⟩ := hlooks.unique q.isClean.wellFormed hlooks' hnode hnode'
    exact hright
  · exact fun hright => ⟨path, right, root, hlooks, hstart, hright, rfl⟩

end Check.Input

/-- **A validation reports the variables that a clause uses to the left of a declaration**, each at the
place of its use, if no part of the tree is left out of the check. -/
theorem validate_order {source rule : String} {parsed : Parsed} (metamodel : Metamodel)
    (hparse : parse source rule ValidationOptions.standard.maxNestingDepth = .ok parsed)
    (hclean : parsed.problems = []) :
    ∃ outcome, validate source rule metamodel .standard = .ok outcome ∧
      ((∀ problem ∈ outcome.problems, problem.key ≠ .traversalTooDeep) →
        (∀ clause path right root, Scope.isFromClause (parsed.tree.kind clause) = true →
          parsed.tree.LooksUp (parsed.tree.children clause) path right →
          parsed.tree.rootVariable? path = some root →
          (.wrongOrder clause root ∈ outcome.problems ↔
            ∃ node ∈ right, parsed.tree.declares node root.value = true)) ∧
        ∀ problem ∈ outcome.problems, problem.key = .variableWrongOrder →
          ∃ clause path right root, Scope.isFromClause (parsed.tree.kind clause) = true ∧
            parsed.tree.LooksUp (parsed.tree.children clause) path right ∧
            parsed.tree.rootVariable? path = some root ∧
            (∃ node ∈ right, parsed.tree.declares node root.value = true) ∧
            problem = .wrongOrder clause root) := by
  obtain ⟨q, htree, -, hwritten, hvalidate⟩ := validate_of_clean metamodel hparse hclean
  refine ⟨_, hvalidate, fun hwhole => ?_⟩
  rw [← htree]
  refine ⟨fun clause path right root hfrom hlooks hstart => ?_, fun problem hmem hkey => ?_⟩
  · have hlt : clause < q.tree.size := Tree.lt_size_of_kind fun hbad => by rw [hbad] at hfrom; cases hfrom
    rw [← Check.Input.wrongOrder_mem_findings hwritten hfrom hlooks hstart,
      Check.Input.mem_findings_iff hlt hwhole]
    exact ⟨fun h => ⟨h, rfl, rfl⟩, And.left⟩
  · obtain ⟨clause, hanchor, hheld⟩ := (q.checkTree_tally).1.anchored problem hmem
    have hlt : clause < q.tree.size :=
      Nat.lt_of_lt_of_eq (Nat.lt_succ_of_le (hheld.le q.isClean.wellFormed))
        q.isClean.wellFormed.root_last
    have hfound := (Check.Input.mem_findings_iff hlt hwhole).mpr ⟨hmem, by rw [hkey]; rfl, hanchor⟩
    have hfrom : Scope.isFromClause (q.tree.kind clause) = true := by
      rcases (Tree.mem_findings hfound).2 with hreference | ⟨-, hfrom⟩
      · exact absurd hkey (ProblemKey.ne_of_isReference hreference).2
      · exact hfrom
    obtain ⟨path, right, root, hrest⟩ := (Check.Input.mem_findings_clause hfrom).mp hfound
    exact ⟨clause, path, right, root, hfrom, hrest⟩

/-- The variable `r` is joined to an entity and reported. The variable `l` is not, since it is joined to
a derived declaration. -/
theorem validate_order_derived :
    ∃ parsed outcome, parse ("SELECT e FROM E e JOIN r.x q JOIN e.y r WHERE EXISTS " ++
        "(SELECT p FROM e.z p JOIN l.x s JOIN p.y l)") RuleId.statement
        ValidationOptions.standard.maxNestingDepth = .ok parsed ∧ parsed.problems = [] ∧
      validate ("SELECT e FROM E e JOIN r.x q JOIN e.y r WHERE EXISTS " ++
        "(SELECT p FROM e.z p JOIN l.x s JOIN p.y l)") RuleId.statement .initial .standard =
        .ok outcome ∧
      (outcome.problems.filter (·.key == .variableWrongOrder)).map (·.arguments) = [["r"]] ∧
      ∃ clause path right root, Scope.isFromClause (parsed.tree.kind clause) = true ∧
        parsed.tree.LooksUp (parsed.tree.children clause) path right ∧
        parsed.tree.rootVariable? path = some root ∧ root.value = "r" ∧
        .wrongOrder clause root ∈ outcome.problems ∧
        ∃ node ∈ right, parsed.tree.declares node root.value = true := by
  let source := "SELECT e FROM E e JOIN r.x q JOIN e.y r WHERE EXISTS " ++
    "(SELECT p FROM e.z p JOIN l.x s JOIN p.y l)"
  have hread : (match parse source RuleId.statement ValidationOptions.standard.maxNestingDepth with
      | .ok parsed => parsed.problems.isEmpty
      | .error _ => false) = true := by decide +kernel
  have hcheck : (match validate source RuleId.statement .initial .standard with
      | .ok outcome => outcome.problems.all (·.key != .traversalTooDeep) &&
          decide ((outcome.problems.filter (·.key == .variableWrongOrder)).map (·.arguments) = [["r"]])
      | .error _ => false) = true := by decide +kernel
  cases hparse : parse source RuleId.statement ValidationOptions.standard.maxNestingDepth with
  | error e =>
    rw [hparse] at hread
    cases hread
  | ok parsed =>
    rw [hparse] at hread
    have hclean : parsed.problems = [] := List.isEmpty_iff.mp hread
    obtain ⟨outcome, hvalidate, horder⟩ := validate_order .initial hparse hclean
    rw [hvalidate] at hcheck
    obtain ⟨hwhole, harguments⟩ := Bool.and_eq_true_iff.mp hcheck
    have harguments := of_decide_eq_true harguments
    obtain ⟨horder, hall⟩ := horder fun problem hmem =>
      bne_iff_ne.mp (List.all_eq_true.mp hwhole problem hmem)
    obtain ⟨problem, hfound, hvariable⟩ := List.mem_map.mp (harguments ▸ List.mem_singleton_self ["r"])
    obtain ⟨hmem, hkey⟩ := List.mem_filter.mp hfound
    obtain ⟨clause, path, right, root, hfrom, hlooks, hstart, -, rfl⟩ :=
      hall problem hmem (beq_iff_eq.mp hkey)
    exact ⟨parsed, outcome, rfl, hclean, hvalidate, harguments, clause, path, right, root, hfrom,
      hlooks, hstart, (List.cons.inj hvariable).1, hmem,
      (horder clause path right root hfrom hlooks hstart).mp hmem⟩

end Jpql
