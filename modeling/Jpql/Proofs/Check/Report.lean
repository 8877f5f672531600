import Jpql.Proofs.Check.TreeReport
import Jpql.Proofs.Scope.Order
import Jpql.Validate

/-! # How often a problem is reported

What is wrong at a node is reported once, whatever the check goes through to get there; only below the
root of a path that is an operand of an arithmetic operation or an ordering comparison it may be
reported twice (`Check.Input.count_checkTree`).

* `Check.Input.declarations_clause`: the declarations that a check looks at in a `FROM` clause.
* `Check.Input.nodup_findings`: no two things that are wrong at a node are the same.
* `validate_reported`: how often a validation reports a problem. -/

namespace Jpql

namespace Check.Input

variable {q : Input} {id clause : Nat} {N : Nat → Prop} {problems : List Problem}

/-! ## Clauses -/

/-- **The parts of a statement see its scope innermost.** -/
theorem innermost_of_child {statement child : Nat} (hc : child ∈ q.tree.children statement)
    (hkind : (q.tree.kind statement).isStatement = true) :
    (q.context child).innermost = .ofStatement q.tree statement := by
  have hwf := q.isClean.wellFormed
  by_cases he : statement = q.statement
  · have hcontext : q.context child = .ofTree q.tree q.metamodel := by
      rw [← context_statement, ← he]
      exact QueryContext.within_of_child hwf hc fun _ => he.trans q.isClean.statementOf_eq.symm
    rw [hcontext, he, ← q.isClean.statementOf_eq]
    rfl
  · have hne : statement ≠ q.tree.root := fun heq => by
      rw [heq, q.isClean.root] at hkind
      cases hkind
    obtain ⟨parent, hp, -⟩ := hwf.parent statement (hwf.of_parent (hwf.child _ _ hc)).2.1 hne
    have hsub : (q.tree.kind statement).isSubquery = true := by
      cases hk : q.tree.kind statement <;> rw [hk] at hkind <;> first
        | rfl
        | exact absurd hkind Bool.false_ne_true
        | exact absurd (q.isClean.eq_statement hp (by rw [hk]; rfl)) he
    have hcontext : q.context child = (q.context statement).enter statement :=
      QueryContext.within_of_subquery hwf hc hsub fun heq => he (heq.trans q.isClean.statementOf_eq)
    rw [hcontext]
    rfl

/-- **A `FROM` clause sees its own declarations.** -/
theorem declarations_clause (hfrom : Scope.isFromClause (q.tree.kind clause) = true) :
    (q.context clause).declarations = (q.tree.children clause).map q.tree.declaration := by
  have hwf := q.isClean.wellFormed
  have hne : clause ≠ q.tree.root := fun he => by
    rw [he, q.isClean.root] at hfrom
    cases hfrom
  have hlt : clause < q.tree.size := Tree.lt_size_of_kind fun hbad => by
    rw [hbad] at hfrom
    cases hfrom
  obtain ⟨parent, hp, -⟩ := hwf.parent clause hlt hne
  have hc := (hwf.of_parent hp).2.2
  obtain ⟨slot, hslot⟩ := NodeKind.exists_slot hc
  have hadmits := q.isClean.admits hslot
  have hplace : slot = .fromClause ∨ slot = .simpleFromClause := by
    cases hk : q.tree.kind clause <;> rw [hk] at hfrom hadmits <;> first
      | exact absurd hfrom Bool.false_ne_true
      | (cases slot <;> first | exact .inl rfl | exact .inr rfl | exact absurd hadmits Bool.false_ne_true)
  have hhost := Slot.isHost_of_mem hslot
  have hstatement : (q.tree.kind parent).isStatement = true ∧
      (Scope.ofStatement q.tree parent).declarations = q.tree.fromDeclarations (some clause) := by
    unfold Scope.ofStatement
    cases hk : q.tree.kind parent <;> rw [hk] at hslot hhost <;> rcases hplace with rfl | rfl <;> first
      | exact absurd hhost Bool.false_ne_true
      | skip
    all_goals
      refine ⟨rfl, ?_⟩
      obtain rfl : _ = some clause := by simpa [NodeKind.slots] using hslot
      rfl
  rw [QueryContext.declarations, innermost_of_child hc hstatement.1, hstatement.2,
    Scope.fromDeclarations_eq hfrom]

/-! ## Problems at one node -/

/-- A path has at most one problem of its own. -/
theorem length_pathProblems (context : QueryContext) (demand : Demand) (path : Nat) :
    (context.pathProblems demand path).length ≤ 1 := by
  have hoption : ∀ {α β : Type} (f : α → β) (a? : Option α), (a?.toList.map f).length ≤ 1 := by
    intro α β f a?
    cases a? <;> simp
  have hverdict : ∀ segments verdict,
      (context.tree.verdictProblems path segments verdict).length ≤ 1 := by
    intro segments verdict
    cases verdict with
    | valid => simp [Tree.verdictProblems]
    | invalid key => simp [Tree.verdictProblems]
    | constant known enum =>
      cases known with
      | true => simp [Tree.verdictProblems]
      | false => exact hoption _ _
  unfold QueryContext.pathProblems
  split
  · split
    · split
      · exact Nat.zero_le _
      · exact hoption _ _
    · split
      · exact Nat.zero_le _
      · exact hoption _ _
    · split
      · exact hoption _ _
      · exact Nat.zero_le _
    · split
      · split
        · exact Nat.zero_le _
        · exact hverdict _ _
      · exact Nat.zero_le _
  · exact Nat.zero_le _

/-- **No two things that are wrong at a node are the same.** -/
theorem nodup_findings (hwritten : q.tree.WrittenApart) (id : Nat) : (q.findings id).Nodup := by
  have hwf := q.isClean.wellFormed
  have hone : ∀ problems : List Problem, problems.length ≤ 1 → problems.Nodup := by
    intro problems hlength
    match problems with
    | [] => exact List.nodup_nil
    | [problem] => exact List.nodup_singleton problem
    | _ :: _ :: _ => simp at hlength
  cases hfrom : Scope.isFromClause (q.tree.kind id) with
  | true =>
    have hentries : ∀ entry ∈ q.tree.children id, Slot.entry.admits (q.tree.kind entry) = true :=
      fun entry => Scope.admits_entry q.isClean.schematic
        (Tree.lt_size_of_kind fun hbad => by rw [hbad] at hfrom; cases hfrom) hfrom
    have hnodup := q.isClean.nodup_misplaced hwritten hentries (Tree.apart_children hwf id)
    rw [findings_clause hfrom, QueryContext.misplacedProblems, declarations_clause hfrom]
    refine hnodup.map fun left right heq => ?_
    obtain ⟨-, hvalue, hspan, -⟩ := Problem.mk.inj heq
    cases left
    cases right
    exact Located.mk.injEq .. ▸ ⟨(List.cons.inj hvalue).1, hspan⟩
  | false =>
    refine hone _ ?_
    unfold findings Tree.findings
    split
    · next hk =>
      rw [hk] at hfrom
      cases hfrom
    · next hk =>
      rw [hk] at hfrom
      cases hfrom
    · cases (QueryContext.within q.tree q.metamodel id).schemaName? _ <;> simp
    · split <;> simp
    · exact length_pathProblems _ _ _

/-! ## Problems of a check -/

/-- **If nothing lies too deep, a check reports what is wrong at the nodes**, and what it reports of a
node is wrong there. -/
theorem mem_findings_iff (hid : id < q.tree.size)
    (hwhole : ∀ problem ∈ checkTree (.ofTree q.tree q.metamodel) q.env,
      problem.key ≠ .traversalTooDeep) {problem : Problem} :
    problem ∈ q.findings id ↔ problem ∈ checkTree (.ofTree q.tree q.metamodel) q.env ∧
      problem.key.isFinding = true ∧ problem.anchor = some id := by
  obtain ⟨htally, -, hcomplete⟩ := q.checkTree_tally
  constructor
  · intro hmem
    obtain ⟨hanchor, hkey⟩ := FindingsAt.findings q.tree q.metamodel id problem hmem
    exact ⟨hcomplete hwhole id (.of_root q.isClean.wellFormed hid) hmem, hkey, hanchor⟩
  · intro h
    obtain ⟨n, hfound, -⟩ := htally.times id
    have hmem := mem_foundAt.mpr h
    rw [hfound] at hmem
    obtain ⟨list, hlist, hmem⟩ := List.mem_flatten.mp hmem
    rwa [List.eq_of_mem_replicate hlist] at hmem

/-- **A tally has each problem once**, or twice if an operation looks twice at its node. -/
theorem Tally.count (h : q.Tally N problems) (hwritten : q.tree.WrittenApart) {problem : Problem}
    (hkey : problem.key ≠ .traversalTooDeep) : problems.count problem ≤ 1 ∨
      problems.count problem ≤ 2 ∧ ∃ operation id, q.tree.Repeats operation id ∧
        problem.anchor = some id := by
  by_cases hmem : problem ∈ problems
  swap
  · rw [List.count_eq_zero_of_not_mem hmem]
    exact .inl (Nat.zero_le 1)
  cases hvariable : problem.key.isVariable with
  | true =>
    have honce := List.nodup_iff_count_le_one.mp h.nodup problem
    have hsame : (problems.filter (·.key.isVariable)).count problem = problems.count problem :=
      List.count_filter hvariable
    exact .inl (hsame ▸ honce)
  | false =>
    obtain ⟨id, hanchor, -⟩ := h.anchored problem hmem
    obtain ⟨n, hfound, hn⟩ := h.times id
    have hfinding : (problem.key.isFinding && problem.anchor == some id) = true := by
      simp [ProblemKey.isFinding, hvariable, hkey, hanchor]
    have hcount : problems.count problem ≤ n := by
      have honce := List.nodup_iff_count_le_one.mp (nodup_findings hwritten id) problem
      have hsame : (foundAt problems id).count problem = problems.count problem :=
        List.count_filter hfinding
      rw [← hsame, hfound, List.count_flatten, List.map_replicate, List.sum_replicate_nat]
      exact Nat.le_trans (Nat.mul_le_mul_left n honce) (Nat.le_of_eq (Nat.mul_one n))
    rcases hn with hn | ⟨hn, operation, -, hrepeats⟩
    · exact .inl (Nat.le_trans hcount hn)
    · exact .inr ⟨Nat.le_trans hcount hn, operation, id, hrepeats, hanchor⟩

end Check.Input

/-! ## Validations -/

/-- **A text that is read without a problem is validated by a check of its tree**, which has no gaps,
with the standard switches. -/
theorem validate_input {source rule : String} {parsed : Parsed} (metamodel : Metamodel)
    (hparse : parse source rule ValidationOptions.standard.maxNestingDepth = .ok parsed)
    (hclean : parsed.problems = []) :
    ∃ q : Check.Input, q.tree = parsed.tree ∧ q.metamodel = metamodel ∧
      q.env = ValidationOptions.standard.checkEnv ∧ q.tree.WrittenApart ∧
      validate source rule metamodel .standard =
        .ok { parsed with problems := checkTree (.ofTree q.tree q.metamodel) q.env } := by
  obtain ⟨statement, htree, -⟩ := parse_isClean (isSome_rule_of_parse hparse) hparse hclean
  refine ⟨⟨parsed.tree, statement, htree, metamodel, ValidationOptions.standard.checkEnv, rfl⟩, rfl,
    rfl, rfl, fun id other => parse_written (isSome_rule_of_parse hparse) hparse, ?_⟩
  rw [validate, hparse]
  show Except.ok { parsed with problems := parsed.problems ++ _ } = _
  rw [hclean]
  rfl

/-- What is validated is a check of the tree, whatever the switches are. -/
theorem validate_of_clean {source rule : String} {parsed : Parsed} (metamodel : Metamodel)
    (hparse : parse source rule ValidationOptions.standard.maxNestingDepth = .ok parsed)
    (hclean : parsed.problems = []) :
    ∃ q : Check.Input, q.tree = parsed.tree ∧ q.metamodel = metamodel ∧ q.tree.WrittenApart ∧
      validate source rule metamodel .standard =
        .ok { parsed with problems := checkTree (.ofTree q.tree q.metamodel) q.env } := by
  obtain ⟨q, htree, hmodel, -, hwritten, hvalidate⟩ := validate_input metamodel hparse hclean
  exact ⟨q, htree, hmodel, hwritten, hvalidate⟩

/-- **A text that passes its validation** is read without a problem, and nothing is wrong at its nodes. -/
theorem validate_passed {source rule : String} {metamodel : Metamodel} {outcome : Parsed}
    (hvalidate : validate source rule metamodel .standard = .ok outcome)
    (hclean : outcome.problems = []) :
    ∃ q : Check.Input, q.tree = outcome.tree ∧ q.metamodel = metamodel ∧
      checkTree (.ofTree q.tree q.metamodel) q.env = [] ∧ ∀ id < q.tree.size, q.findings id = [] := by
  cases hparse : parse source rule ValidationOptions.standard.maxNestingDepth with
  | error error =>
    rw [validate, hparse] at hvalidate
    cases hvalidate
  | ok parsed =>
    have hread : parsed.problems = [] := by
      rw [validate, hparse] at hvalidate
      obtain rfl := Except.ok.inj hvalidate
      exact (List.append_eq_nil_iff.mp hclean).1
    obtain ⟨q, htree, rfl, -, hok⟩ := validate_of_clean metamodel hparse hread
    obtain rfl := Except.ok.inj (hok.symm.trans hvalidate)
    have hnothing : checkTree (.ofTree q.tree q.metamodel) q.env = [] := hclean
    refine ⟨q, htree, rfl, hnothing, fun id hid => List.eq_nil_iff_forall_not_mem.mpr fun problem h => ?_⟩
    have hreported := ((Check.Input.mem_findings_iff hid (by simp [hnothing])).mp h).1
    rw [hnothing] at hreported
    cases hreported

/-- **How often a validation reports a problem**: at most twice, and twice only at a node below the root
of a path that an arithmetic operation or an ordering comparison has as its operand. -/
theorem validate_reported {source rule : String} {parsed : Parsed} (metamodel : Metamodel)
    (hparse : parse source rule ValidationOptions.standard.maxNestingDepth = .ok parsed)
    (hclean : parsed.problems = []) :
    ∃ outcome, validate source rule metamodel .standard = .ok outcome ∧
      ∀ problem, outcome.problems.count problem ≤ 1 ∨
        outcome.problems.count problem ≤ 2 ∧ ∃ operation id, parsed.tree.Repeats operation id ∧
          problem.anchor = some id := by
  obtain ⟨q, htree, -, hwritten, hvalidate⟩ := validate_of_clean metamodel hparse hclean
  obtain ⟨htally, hdepth, -⟩ := q.checkTree_tally
  refine ⟨_, hvalidate, fun problem => ?_⟩
  rw [← htree]
  by_cases hkey : problem.key = .traversalTooDeep
  · refine .inl (Nat.le_trans ?_ hdepth)
    exact List.countP_mono_left fun other _ heq => by
      rw [beq_iff_eq.mp heq, hkey]
      rfl
  · exact htally.count hwritten hkey

/-- The root of the path is visited by the check of the operand, and again with the operand. -/
theorem validate_reported_twice :
    ∃ parsed outcome problem,
      parse "SELECT e FROM E e WHERE KEY(e.x).y > 1" RuleId.statement
        ValidationOptions.standard.maxNestingDepth = .ok parsed ∧ parsed.problems = [] ∧
      validate "SELECT e FROM E e WHERE KEY(e.x).y > 1" RuleId.statement .initial .standard =
        .ok outcome ∧
      outcome.problems.count problem = 2 ∧
      ∃ operation id, parsed.tree.Repeats operation id ∧ problem.anchor = some id := by
  let source := "SELECT e FROM E e WHERE KEY(e.x).y > 1"
  have hread : (match parse source RuleId.statement ValidationOptions.standard.maxNestingDepth with
      | .ok parsed => parsed.problems.isEmpty
      | .error _ => false) = true := by decide +kernel
  have hcheck : (match validate source RuleId.statement .initial .standard with
      | .ok outcome => outcome.problems.find? fun problem => outcome.problems.count problem == 2
      | .error _ => none).isSome = true := by decide +kernel
  cases hparse : parse source RuleId.statement ValidationOptions.standard.maxNestingDepth with
  | error e =>
    rw [hparse] at hread
    cases hread
  | ok parsed =>
    rw [hparse] at hread
    have hclean : parsed.problems = [] := List.isEmpty_iff.mp hread
    obtain ⟨outcome, hvalidate, hcount⟩ := validate_reported .initial hparse hclean
    rw [hvalidate] at hcheck
    obtain ⟨problem, hfind⟩ := Option.isSome_iff_exists.mp hcheck
    have htwice : outcome.problems.count problem = 2 :=
      beq_iff_eq.mp (List.find?_some (p := fun problem => outcome.problems.count problem == 2) hfind)
    obtain ⟨-, hrepeats⟩ := (hcount problem).resolve_left (by omega)
    exact ⟨parsed, outcome, problem, rfl, hclean, hvalidate, htwice, hrepeats⟩

end Jpql
