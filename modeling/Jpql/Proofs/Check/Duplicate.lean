import Jpql.Proofs.Check.Double
import Jpql.Proofs.Scope.Table
import Jpql.Validate

/-! # Variables that are declared twice

A variable that a statement or subquery declares more than once is reported at each of its declarations,
once, and no other variable is (`validate_duplicates`). What other statements or subqueries declare does
not count.

That nothing is reported twice comes from the tally of a check, and what is reported from a walk over the
tree (`Check.Input.mem_checkTree_iff`). -/

namespace Jpql

namespace Tree

variable {tree : Tree} {statement : NodeId} {name : String} {problem : Problem}

/-- **The node declares a name in a statement or subquery**, ignoring case: as the variable of a range, a
collection or a join, or as the name of a result. -/
def Declares (tree : Tree) (statement : NodeId) (name : String) (id : NodeId) : Prop :=
  tree.IsIntroduced id ∧ tree.scopeNode? id = some statement ∧
    ∃ other, tree.IsNamed id other ∧ Text.upperCase other = Text.upperCase name

/-- The nodes that declare a name in a statement, as its scope finds them. -/
def declaring (tree : Tree) (statement : NodeId) (name : String) : List NodeId :=
  (Scope.ofStatement tree statement).nodesNamed (Text.upperCase name)

theorem nodup_declaring (hwf : tree.WellFormed) : (tree.declaring statement name).Nodup :=
  (Scope.nodup_names hwf statement).sublist ((List.filter_sublist).map _)

theorem mem_declaring {clean : Prop} (hwf : tree.WellFormed) (hs : tree.Schematic clean)
    (hkind : (tree.kind statement).isStatement = true) {id : NodeId} :
    id ∈ tree.declaring statement name ↔ tree.Declares statement name id := by
  have hlt : statement < tree.size := lt_size_of_kind fun hbad => by
    rw [hbad] at hkind
    cases hkind
  constructor
  · intro hmem
    obtain ⟨⟨other, node⟩, hentry, rfl⟩ := List.mem_map.mp hmem
    obtain ⟨hentry, hsame⟩ := List.mem_filter.mp hentry
    obtain ⟨hintro, hscope, hname⟩ := (Scope.mem_names_ofStatement hwf hs hlt hkind).mp hentry
    exact ⟨hintro, hscope, other, hname, beq_iff_eq.mp hsame⟩
  · rintro ⟨hintro, hscope, other, hname, hsame⟩
    have hentry := (Scope.mem_names_ofStatement hwf hs hlt hkind).mpr ⟨hintro, hscope, hname⟩
    exact List.mem_map.mpr ⟨(other, id), List.mem_filter.mpr ⟨hentry, beq_iff_eq.mpr hsame⟩, rfl⟩

/-- **What a statement declares more than once**, name by name. -/
theorem mem_doubles : problem ∈ tree.doubles statement ↔ ∃ key,
    1 < ((Scope.ofStatement tree statement).nodesNamed key).length ∧
      problem ∈ ((Scope.ofStatement tree statement).nodesNamed key).map tree.duplicateAt := by
  rw [doubles, List.mem_map]
  constructor
  · rintro ⟨id, hid, rfl⟩
    obtain ⟨key, hmem, hlength⟩ := Scope.mem_duplicates.mp hid
    exact ⟨key, hlength, List.mem_map_of_mem hmem⟩
  · rintro ⟨key, hlength, hmem⟩
    obtain ⟨id, hid, rfl⟩ := List.mem_map.mp hmem
    exact ⟨id, Scope.mem_duplicates.mpr ⟨key, hid, hlength⟩, rfl⟩

/-- A node declares one name, in one statement. -/
theorem Declares.unique {other : NodeId} {spelling : String} {id : NodeId}
    (h : tree.Declares statement name id) (k : tree.Declares other spelling id) :
    statement = other ∧ Text.upperCase name = Text.upperCase spelling := by
  obtain ⟨-, hscope, first, ⟨_, _, hfirst⟩, hname⟩ := h
  obtain ⟨-, hother, last, ⟨_, _, hlast⟩, hspelling⟩ := k
  rw [hscope, Option.some_inj] at hother
  rw [hfirst] at hlast
  cases hlast
  exact ⟨hother, hname.symm.trans hspelling⟩

end Tree

namespace Check.Input

variable {q : Input} {statement : NodeId} {name : String} {problem : Problem}

/-- A problem of a name that is declared twice stands at a declaration of a statement. -/
theorem declares_of_doubles {other : NodeId} (hmem : problem ∈ q.tree.doubles other) :
    (q.tree.kind other).isStatement = true ∧ ∃ spelling id, problem = q.tree.duplicateAt id ∧
      q.tree.Declares other spelling id ∧ 1 < (q.tree.declaring other spelling).length := by
  have hkind : (q.tree.kind other).isStatement = true := by
    by_contra hno
    rw [Tree.doubles_eq_nil (Bool.eq_false_iff.mpr hno)] at hmem
    cases hmem
  obtain ⟨key, hlength, hmem⟩ := Tree.mem_doubles.mp hmem
  obtain ⟨id, hid, rfl⟩ := List.mem_map.mp hmem
  obtain ⟨⟨spelling, node⟩, hentry, rfl⟩ := List.mem_map.mp hid
  have hkey : Text.upperCase spelling = key := beq_iff_eq.mp (List.mem_filter.mp hentry).2
  subst hkey
  exact ⟨hkind, spelling, node, rfl,
    (Tree.mem_declaring q.isClean.wellFormed q.isClean.schematic hkind).mp hid, hlength⟩

/-- **The problems of one name in one statement**, as a check reports them. -/
theorem mem_reported_iff (hkind : (q.tree.kind statement).isStatement = true)
    (hshallow : ∀ problem ∈ checkTree (.ofTree q.tree q.metamodel) q.env,
      problem.key ≠ .traversalTooDeep) :
    (problem ∈ checkTree (.ofTree q.tree q.metamodel) q.env ∧ problem.key = .variableDuplicate ∧
        ∃ id ∈ q.tree.declaring statement name, problem.anchor = some id) ↔
      2 ≤ (q.tree.declaring statement name).length ∧
        ∃ id ∈ q.tree.declaring statement name, q.tree.duplicateAt id = problem := by
  have hdeclaring : ∀ id, id ∈ q.tree.declaring statement name ↔ q.tree.Declares statement name id :=
    fun id => Tree.mem_declaring q.isClean.wellFormed q.isClean.schematic hkind
  constructor
  · rintro ⟨hmem, hkey, id, hid, hanchor⟩
    obtain ⟨other, -, hdouble⟩ := (mem_checkTree_iff hshallow hkey).mp hmem
    obtain ⟨-, spelling, node, rfl, hdeclares, hlength⟩ := declares_of_doubles hdouble
    obtain rfl : node = id := Option.some.inj hanchor
    obtain ⟨rfl, hname⟩ := ((hdeclaring node).mp hid).unique hdeclares
    rw [Tree.declaring, ← hname] at hlength
    exact ⟨hlength, node, hid, rfl⟩
  · rintro ⟨hlength, id, hid, rfl⟩
    refine ⟨(mem_checkTree_iff hshallow rfl).mpr ⟨statement, Tree.lt_size_of_kind fun hbad => ?_,
      Tree.mem_doubles.mpr ⟨_, hlength, List.mem_map_of_mem hid⟩⟩, rfl, id, hid, rfl⟩
    rw [hbad] at hkind
    cases hkind

/-- **Each name that is declared more than once is reported at each of its declarations**, and no other
name is. -/
theorem duplicates_perm (hkind : (q.tree.kind statement).isStatement = true) (name : String)
    (hshallow : ∀ problem ∈ checkTree (.ofTree q.tree q.metamodel) q.env,
      problem.key ≠ .traversalTooDeep) :
    ((checkTree (.ofTree q.tree q.metamodel) q.env).filter fun problem =>
        problem.key == .variableDuplicate &&
          (q.tree.declaring statement name).any (problem.anchor == some ·)).Perm
      (if 2 ≤ (q.tree.declaring statement name).length then
        (q.tree.declaring statement name).map q.tree.duplicateAt else []) := by
  have hinj : Function.Injective q.tree.duplicateAt := fun a b hab =>
    Option.some.inj (congrArg Problem.anchor hab)
  -- Problems with variables are reported once.
  have honce : ((checkTree (.ofTree q.tree q.metamodel) q.env).filter fun problem =>
      problem.key == .variableDuplicate &&
        (q.tree.declaring statement name).any (problem.anchor == some ·)).Nodup := by
    refine q.checkTree_tally.1.nodup.sublist (List.monotone_filter_right _ fun problem h => ?_)
    rw [beq_iff_eq.mp (Bool.and_eq_true_iff.mp h).1]
    rfl
  have hreported : ((if 2 ≤ (q.tree.declaring statement name).length then
      (q.tree.declaring statement name).map q.tree.duplicateAt else []) : List Problem).Nodup := by
    split
    · exact (Tree.nodup_declaring q.isClean.wellFormed).map hinj
    · exact List.nodup_nil
  refine (List.perm_ext_iff_of_nodup honce hreported).mpr fun problem => ?_
  have hiff := @mem_reported_iff q statement name problem hkind hshallow
  rw [List.mem_filter, Bool.and_eq_true, beq_iff_eq, List.any_eq_true]
  simp only [beq_iff_eq]
  rw [hiff]
  split
  · next hlength => rw [List.mem_map, and_iff_right hlength]
  · next hlength => exact iff_of_false (fun h => hlength h.1) List.not_mem_nil

end Check.Input

/-- **Variables that are declared twice are reported exactly.** Take a text that is read without a problem,
and a validation of it that nothing lies too deep for. Of each name that a statement or subquery declares
at two nodes or more, a problem is reported at each of the nodes, once; of a name that it declares at
fewer nodes, none is. There are no other problems of this kind. -/
theorem validate_duplicates {source rule : String} {options : ValidationOptions} {parsed : Parsed}
    (metamodel : Metamodel) (hvalues : options.updateValues = true)
    (hparse : parse source rule options.maxNestingDepth = .ok parsed) (hclean : parsed.problems = []) :
    ∃ outcome, validate source rule metamodel options = .ok outcome ∧
      ((∀ problem ∈ outcome.problems, problem.key ≠ .traversalTooDeep) →
        (∀ statement, (parsed.tree.kind statement).isStatement = true → ∀ name,
          ∃ nodes : List NodeId, nodes.Nodup ∧
            (∀ id, id ∈ nodes ↔ parsed.tree.Declares statement name id) ∧
            (outcome.problems.filter fun problem => problem.key == .variableDuplicate &&
                nodes.any (problem.anchor == some ·)).Perm
              (if 2 ≤ nodes.length then nodes.map parsed.tree.duplicateAt else [])) ∧
        ∀ problem ∈ outcome.problems, problem.key = .variableDuplicate →
          ∃ statement name id, (parsed.tree.kind statement).isStatement = true ∧
            parsed.tree.Declares statement name id ∧ problem.anchor = some id) := by
  obtain ⟨statement, htree, -⟩ := parse_isClean (isSome_rule_of_parse hparse) hparse hclean
  let q : Check.Input := ⟨parsed.tree, statement, htree, metamodel, options.checkEnv, hvalues⟩
  have hvalidate : validate source rule metamodel options =
      .ok { parsed with problems := checkTree (.ofTree q.tree q.metamodel) q.env } := by
    rw [validate, hparse]
    show Except.ok { parsed with problems := parsed.problems ++ _ } = _
    rw [hclean]
    rfl
  refine ⟨_, hvalidate, fun hshallow => ⟨fun statement hkind name => ?_, fun problem hmem hkey => ?_⟩⟩
  · exact ⟨q.tree.declaring statement name, Tree.nodup_declaring htree.wellFormed,
      fun id => Tree.mem_declaring htree.wellFormed htree.schematic hkind,
      Check.Input.duplicates_perm hkind name hshallow⟩
  · obtain ⟨other, -, hdouble⟩ := (Check.Input.mem_checkTree_iff hshallow hkey).mp hmem
    obtain ⟨hkind, spelling, id, rfl, hdeclares, -⟩ := Check.Input.declares_of_doubles hdouble
    exact ⟨other, spelling, id, hkind, hdeclares, rfl⟩

/-- The name of a result and the variable of a join are the same; a subquery declares two of that name
again. -/
theorem validate_duplicates_nested :
    ∃ parsed outcome, parse
        "SELECT e.a AS X FROM E e JOIN e.b x WHERE EXISTS (SELECT x FROM E x, E X) AND e.c = 1"
        RuleId.statement ValidationOptions.standard.maxNestingDepth = .ok parsed ∧
      parsed.problems = [] ∧ validate
        "SELECT e.a AS X FROM E e JOIN e.b x WHERE EXISTS (SELECT x FROM E x, E X) AND e.c = 1"
        RuleId.statement .initial .standard = .ok outcome ∧
      (∀ problem ∈ outcome.problems, problem.key ≠ .traversalTooDeep) ∧
      (∀ statement, (parsed.tree.kind statement).isStatement = true → ∀ name,
        ∃ nodes : List NodeId, nodes.Nodup ∧
          (∀ id, id ∈ nodes ↔ parsed.tree.Declares statement name id) ∧
          (outcome.problems.filter fun problem => problem.key == .variableDuplicate &&
              nodes.any (problem.anchor == some ·)).Perm
            (if 2 ≤ nodes.length then nodes.map parsed.tree.duplicateAt else [])) ∧
      outcome.problems.countP (·.key == .variableDuplicate) = 4 := by
  let source := "SELECT e.a AS X FROM E e JOIN e.b x WHERE EXISTS (SELECT x FROM E x, E X) AND e.c = 1"
  have hread : (match parse source RuleId.statement ValidationOptions.standard.maxNestingDepth with
      | .ok parsed => parsed.problems.isEmpty
      | .error _ => false) = true := by decide +kernel
  have hcheck : (match validate source RuleId.statement .initial .standard with
      | .ok outcome => outcome.problems.all (·.key != .traversalTooDeep) &&
        outcome.problems.countP (·.key == .variableDuplicate) == 4
      | .error _ => false) = true := by decide +kernel
  cases hparse : parse source RuleId.statement ValidationOptions.standard.maxNestingDepth with
  | error e =>
    rw [hparse] at hread
    cases hread
  | ok parsed =>
    rw [hparse] at hread
    have hclean : parsed.problems = [] := List.isEmpty_iff.mp hread
    obtain ⟨outcome, hvalidate, hexact⟩ := validate_duplicates .initial rfl hparse hclean
    rw [hvalidate] at hcheck
    obtain ⟨hshallow, hcount⟩ := Bool.and_eq_true_iff.mp hcheck
    have hnone : ∀ problem ∈ outcome.problems, problem.key ≠ .traversalTooDeep := by
      simpa using hshallow
    exact ⟨parsed, outcome, rfl, hclean, hvalidate, hnone, (hexact hnone).1, beq_iff_eq.mp hcount⟩

end Jpql
