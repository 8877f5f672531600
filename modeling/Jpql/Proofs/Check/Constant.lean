import Jpql.Proofs.Check.Duplicate
import Jpql.Proofs.Check.Report
import Jpql.Proofs.Check.Undeclared
import Jpql.Proofs.Scope.Binding

/-! # Constants of enums

A value may be a constant of an enum, spelled out with the name of the enum in front of it. Where the
words start at a written name that no statement around declares, nothing is reported of them
(`validate_constants`). A statement without alias reads them as a path below its virtual variable; there
they are not found, unless the first of them is a field.

* `Tree.IsValue`: a value is asked of a node.
* `Check.Subject.variable_cases`: the problems with variables that a check reports, each at a variable. -/

namespace Jpql

/-! ## Values -/

/-- **Where a node has values**: the operands of a comparison, the new value of a `SET` item, the items of
a list, the arguments of `COALESCE` and `NULLIF`, the results of `CASE`, the items of a selection. -/
def NodeKind.values : NodeKind → List NodeId
  | .comparison left _ right | .nullif left right => [left, right]
  | .updateItem _ new => [new]
  | .inList _ _ items | .coalesce items => items
  | .when _ result => [result]
  | .caseOf _ _ otherwise => [otherwise]
  | .selectClause _ items | .simpleSelectClause _ items => items
  | .resultVariable expression _ _ => [expression]
  | _ => []

namespace Tree

variable {tree : Tree} {metamodel : Metamodel} {id holder statement : NodeId}

/-- **A value is asked of a node**, a basic one or any, by what is no part of a path. -/
def IsValue (tree : Tree) (id : NodeId) : Prop :=
  ∃ holder, ((id, Demand.value) ∈ (tree.kind holder).demands ∨
    (id, Demand.basic) ∈ (tree.kind holder).demands) ∧ (tree.kind holder).isPathPart = false

theorem isValue_of_mem (h : id ∈ (tree.kind holder).values) : tree.IsValue id := by
  refine ⟨holder, ?_, ?_⟩
  · cases hk : tree.kind holder with
    | comparison left operator right =>
      rw [hk] at h
      cases hop : operator.isOrdering <;> simpa [NodeKind.values, NodeKind.demands, hop] using h
    | _ =>
      rw [hk] at h
      simp_all [NodeKind.values, NodeKind.demands, NodeKind.children]
  · cases hk : tree.kind holder <;> rw [hk] at h <;> first | rfl | cases h

end Tree

/-- The context in which a check looks at a node of a query is that of all subqueries around it. -/
theorem QueryContext.within_eq_around {tree : Tree} {metamodel : Metamodel} {id statement : NodeId}
    (h : tree.IsQuery statement) : within tree metamodel id = around tree metamodel id := by
  have hsame : (tree.ancestors id).filter (fun outer =>
      (tree.kind outer).isSubquery && outer != statementOf tree) =
      (tree.ancestors id).filter fun outer => (tree.kind outer).isSubquery := by
    refine List.filter_congr fun outer _ => ?_
    cases hsub : (tree.kind outer).isSubquery with
    | false => rfl
    | true =>
      have hne : outer ≠ statementOf tree := fun he => by
        rw [he, h.statementOf_eq, h.not_isSubquery] at hsub
        cases hsub
      simpa using hne
  rw [within, around, hsame]

namespace Check

namespace Input

variable {q : Input} {path root : NodeId} {segments : List (Located String)}

/-- What is asked of a path that is a value. -/
theorem demand_value {kind : PathKind} {dot : Bool} (hpath : q.tree.kind path = .path kind root segments dot)
    (h : q.tree.IsValue path) : q.tree.demand path = .value ∨ q.tree.demand path = .basic := by
  obtain ⟨holder, hmem, hpart⟩ := h
  have hasked : ∀ demand, (path, demand) ∈ (q.tree.kind holder).demands → q.tree.demand path = demand := by
    intro demand hmem
    refine demand_behind hmem (fun _ _ _ hk => ?_) (fun htreat => ?_) (by rw [Tree.pathBehind?, hpath])
    · rw [hk] at hpart
      cases hpart
    · rw [NodeKind.isPathPart_of_isTreat htreat] at hpart
      cases hpart
  exact hmem.imp (hasked .value) (hasked .basic)

/-- **What is wrong with a path that is a value**, if it starts at a variable. -/
theorem findings_value (hpath : q.tree.kind path = .path .stateField root segments false)
    (hresolved : q.tree.isResolvedRoot root = true) (h : q.tree.IsValue path) :
    ∃ associationAllowed, q.findings path = q.tree.verdictProblems path segments
      ((q.context path).statePath path segments associationAllowed) := by
  have htree : (q.context path).tree = q.tree := rfl
  rw [findings_path hpath]
  rcases demand_value hpath h with hdemand | hdemand <;>
    rw [hdemand, QueryContext.pathProblems, htree, hpath] <;> simp only [hresolved] <;> exact ⟨_, rfl⟩

end Input

namespace Subject

variable {q : Subject} {path root : NodeId} {segments : List (Located String)} {problem : Problem}

/-- The tree of a query has no gaps. -/
def input (q : Subject) : Input :=
  ⟨q.tree, q.statement, q.isQuery.toIsClean, q.metamodel, q.env, q.updateValues⟩

section

variable (hwhole : ∀ problem ∈ checkTree (.ofTree q.tree q.metamodel) q.env,
  problem.key ≠ .traversalTooDeep)

include hwhole

/-- **Problems with variables are reported at variables**: at uses that nothing declares, at variables
where they are introduced, and at the arguments of `INDEX`. -/
theorem variable_cases (hmem : problem ∈ checkTree (.ofTree q.tree q.metamodel) q.env)
    (hkey : problem.key.isVariable = true) :
    ∃ id name isVirtual behind, problem.anchor = some id ∧
      q.tree.kind id = .identifier name isVirtual behind ∧
      (q.tree.IsUndeclared q.metamodel id ∨ q.tree.IsIntroduced id ∨
        ∃ owner, q.tree.kind owner = .index id) := by
  cases hk : problem.key <;> rw [hk] at hkey <;> try cases hkey
  case variableNotDeclared =>
    obtain ⟨ids, heq, -, hiff⟩ := checkTree_undeclared q hwhole
    have hanchor : problem.anchor ∈ ids.map some :=
      heq ▸ List.mem_map_of_mem (List.mem_filter.mpr ⟨hmem, beq_iff_eq.mpr hk⟩)
    obtain ⟨id, hid, hanchor⟩ := List.mem_map.mp hanchor
    have hundeclared := (hiff id).mp hid
    have ⟨name, behind, hkind, _⟩ := hundeclared
    exact ⟨id, name, false, behind, hanchor.symm, hkind, .inl hundeclared⟩
  case variableDuplicate =>
    obtain ⟨other, -, hdouble⟩ := (Input.mem_checkTree_iff (q := q.input) hwhole hk).mp hmem
    obtain ⟨-, spelling, id, rfl, ⟨hintro, -, name, ⟨isVirtual, behind, hkind⟩, -⟩, -⟩ :=
      Input.declares_of_doubles hdouble
    exact ⟨id, name, isVirtual, behind, rfl, hkind, .inr (.inl hintro)⟩
  case indexWrongVariable =>
    obtain ⟨owner, -, -, howns⟩ := q.input.checkTree_tally.1.owned problem hmem (by rw [hk]; rfl)
    obtain ⟨argument, name, behind, howner, hkind, hanchor⟩ := howns.index hk
    exact ⟨argument, name, false, behind, hanchor, hkind, .inr (.inr ⟨owner, howner⟩)⟩

/-- **Nothing is reported at a path that names a constant, or at its root**, if nothing is wrong with the
path. -/
theorem not_reported (hpath : q.tree.kind path = .path .stateField root segments false) {name : String}
    (hroot : q.tree.kind root = .identifier name false none)
    (hnames : q.tree.NamesConstant q.metamodel root) (hnothing : q.input.findings path = [])
    (hmem : problem ∈ checkTree (.ofTree q.tree q.metamodel) q.env) :
    problem.anchor ≠ some path ∧ problem.anchor ≠ some root := by
  have hsize : ∀ id, q.tree.kind id ≠ .bad → id < q.input.tree.size := fun id => Tree.lt_size_of_kind
  have hparent : root ∈ q.input.tree.children path := Input.root_mem hpath
  cases hfinding : problem.key.isFinding with
  | true =>
    have hfound : ∀ id, q.tree.kind id ≠ .bad → q.input.findings id = [] → problem.anchor ≠ some id := by
      intro id hlt hnone hanchor
      have hin := (Input.mem_findings_iff (hsize id hlt) hwhole).mpr ⟨hmem, hfinding, hanchor⟩
      rw [hnone] at hin
      cases hin
    exact ⟨hfound path (by rw [hpath]; simp) hnothing,
      hfound root (by rw [hroot]; simp) (Input.findings_identifier hroot)⟩
  | false =>
    have hkey : problem.key.isVariable = true := by
      have hdeep := hwhole problem hmem
      simpa [ProblemKey.isFinding, hdeep] using hfinding
    obtain ⟨id, other, isVirtual, behind, hanchor, hkind, hcases⟩ := variable_cases hwhole hmem hkey
    rw [hanchor, ne_eq, Option.some_inj, ne_eq, Option.some_inj]
    refine ⟨?_, ?_⟩
    · rintro rfl
      rw [hpath] at hkind
      cases hkind
    · rintro rfl
      rcases hcases with ⟨-, -, -, -, -, -, hno⟩ | ⟨parent, hp, hintro⟩ | ⟨owner, howner⟩
      · exact hno hnames
      · rw [q.isQuery.wellFormed.child path id hparent, Option.some_inj] at hp
        rw [← hp, hpath] at hintro
        cases hintro
      · have hc : id ∈ q.input.tree.children owner := by
          show id ∈ (q.tree.kind owner).children
          rw [howner]
          exact List.mem_cons_self
        obtain rfl := Input.parent_unique hparent hc
        rw [hpath] at howner
        cases howner

end

/-- A path in a query lies in its statement. -/
theorem held_of_path {kind : PathKind} {dot : Bool} (hpath : q.tree.kind path = .path kind root segments dot) :
    q.tree.Holds q.statement path ∧ path ≠ q.statement := by
  have houter := q.isQuery.outer
  refine ⟨q.isQuery.holds_of_ne_root (Tree.lt_size_of_kind (by rw [hpath]; simp)) ?_, ?_⟩
  · rintro rfl
    rw [q.isQuery.root] at hpath
    cases hpath
  · rintro rfl
    rw [hpath] at houter
    cases houter

/-- **A path that spells out a constant is in order**, if its first name is declared nowhere. -/
theorem findings_constant {name : String} {last : Located String} {type : TypeInfo}
    (hpath : q.tree.kind path = .path .stateField root (segments ++ [last]) false)
    (hroot : q.tree.kind root = .identifier name false none) (hvalue : q.tree.IsValue path)
    (htype : q.metamodel.type? (".".intercalate (name :: segments.map (·.value))) = some type)
    (hconstant : last.value ∈ type.constants) (hhidden : ¬q.tree.IsVisible path name) :
    q.input.findings path = [] ∧ q.tree.NamesConstant q.metamodel root := by
  obtain ⟨hheld, hne⟩ := held_of_path hpath
  have hcontext : q.input.context path = q.context path := QueryContext.within_eq_around q.isQuery
  have hunbound : (q.context path).binding? name = none :=
    QueryContext.binding?_eq_none q.isQuery hheld hne hhidden
  constructor
  · have hresolved : q.input.tree.isResolvedRoot root = true := by
      show q.tree.isResolvedRoot root = true
      rw [Tree.isResolvedRoot, hroot]
    obtain ⟨associationAllowed, hfindings⟩ := Input.findings_value (q := q.input) hpath hresolved hvalue
    rw [hfindings, hcontext, QueryContext.statePath_of_constant hpath hroot hunbound htype hconstant]
    rfl
  · obtain ⟨hmapping, hdenotes⟩ := QueryContext.qualified_of_unbound hpath hroot hunbound htype
    refine ⟨path, _, type, hpath, ?_, hmapping, hdenotes, QueryContext.isEnum_of_constant hconstant⟩
    -- Of the target of a `SET` item no value is asked.
    rintro ⟨item, new, hitem⟩
    have hkind : q.input.tree.kind item = .updateItem path new := hitem
    have hbehind : q.input.tree.pathBehind? path = some path := by
      show q.tree.pathBehind? path = some path
      rw [Tree.pathBehind?, hpath]
    have hmem : (path, Demand.target) ∈ (q.input.tree.kind item).demands := by
      rw [hkind]
      exact List.mem_cons_self
    have htarget := Input.demand_behind hmem (by simp [hkind]) (by simp [hkind, NodeKind.isTreat]) hbehind
    rcases Input.demand_value (q := q.input) hpath hvalue with hdemand | hdemand <;>
      rw [htarget] at hdemand <;> cases hdemand

/-- **A path below the virtual variable is not resolvable**, if the first of its names is no field. -/
theorem findings_no_field {name : String} {first : Located String}
    (hpath : q.tree.kind path = .path .stateField root (first :: segments) false)
    (hroot : q.tree.kind root = .identifier name true none) (hvalue : q.tree.IsValue path)
    (hsegments : segments ≠ [])
    (hfield : (q.context path).fieldOf? name first.value = none) :
    q.input.findings path = [q.tree.problemAt .statePathNotResolvable path] := by
  have hresolved : q.input.tree.isResolvedRoot root = true := by
    show q.tree.isResolvedRoot root = true
    rw [Tree.isResolvedRoot, hroot]
  have hcontext : q.input.context path = q.context path := QueryContext.within_eq_around q.isQuery
  obtain ⟨associationAllowed, hfindings⟩ := Input.findings_value (q := q.input) hpath hresolved hvalue
  rw [hfindings, hcontext, QueryContext.statePath_of_no_field hpath hroot hsegments hfield]
  rfl

end Subject

end Check

/-- **Constants of enums are accepted where a value is asked for.** Take a statement that is read without a
problem, and a validation of it that nothing lies too deep for.

* Where the words of a path start at a written name that no statement around it declares, and spell out a
  constant of an enum, nothing is reported at the path or at the name.
* Below the virtual variable of a statement without alias such words are not looked up: unless the first of
  them is a field, the path is reported as one that cannot be resolved. -/
theorem validate_constants {source : String} {options : ValidationOptions} {parsed : Parsed}
    (metamodel : Metamodel) (hvalues : options.updateValues = true)
    (hparse : parse source RuleId.statement options.maxNestingDepth = .ok parsed)
    (hclean : parsed.problems = []) :
    ∃ outcome, validate source RuleId.statement metamodel options = .ok outcome ∧
      ((∀ problem ∈ outcome.problems, problem.key ≠ .traversalTooDeep) →
        (∀ path root name segments last type, parsed.tree.IsValue path →
          parsed.tree.kind path = .path .stateField root (segments ++ [last]) false →
          parsed.tree.kind root = .identifier name false none →
          metamodel.type? (".".intercalate (name :: segments.map (·.value))) = some type →
          last.value ∈ type.constants → ¬parsed.tree.IsVisible path name →
          ∀ problem ∈ outcome.problems, problem.anchor ≠ some path ∧ problem.anchor ≠ some root) ∧
        ∀ path root owner first rest, parsed.tree.IsValue path → rest ≠ [] →
          parsed.tree.kind path = .path .stateField root (first :: rest) false →
          parsed.tree.kind root = .identifier owner true none →
          (QueryContext.around parsed.tree metamodel path).fieldOf? owner first.value = none →
          parsed.tree.problemAt .statePathNotResolvable path ∈ outcome.problems) := by
  obtain ⟨statement, hquery⟩ := parse_isQuery hparse hclean
  let q : Check.Subject := ⟨parsed.tree, statement, hquery, metamodel, options.checkEnv, hvalues⟩
  let found := checkTree (.ofTree parsed.tree metamodel) options.checkEnv
  have hvalidate : validate source RuleId.statement metamodel options =
      .ok { parsed with problems := found } := by
    rw [validate, hparse]
    show Except.ok { parsed with problems := parsed.problems ++ _ } = _
    rw [hclean]
    rfl
  refine ⟨_, hvalidate, fun hwhole => ⟨?_, ?_⟩⟩
  · intro path root name segments last type hvalue hpath hroot htype hconstant hhidden problem hmem
    obtain ⟨hnothing, hnames⟩ := Check.Subject.findings_constant (q := q) hpath hroot hvalue htype
      hconstant hhidden
    exact Check.Subject.not_reported (q := q) hwhole hpath hroot hnames hnothing hmem
  · intro path root owner first rest hvalue hrest hpath hroot hfield
    have hfindings := Check.Subject.findings_no_field (q := q) hpath hroot hvalue hrest hfield
    have hlt : path < q.input.tree.size := Tree.lt_size_of_kind (by
      show parsed.tree.kind path ≠ .bad
      rw [hpath]
      simp)
    refine ((Check.Input.mem_findings_iff hlt hwhole).mp ?_).1
    rw [hfindings]
    exact List.mem_singleton_self _

/-- An entity whose one field has an enum as its type. -/
def withGrades : Metamodel :=
  (Metamodel.initial.withManaged (.entity "E" "m.E" [⟨"t", .basic, "m.D"⟩])).withEnum "m.D" ["HR"]

/-- Of the tree, what makes its nodes 6 and 19 name a constant, the first one below an implied variable. -/
def namesConstants (tree : Tree) : Bool :=
  (match tree.kind 7 with
    | .updateItem 4 6 => true
    | _ => false) &&
  (match tree.kind 6 with
    | .path .stateField 5 (first :: _ :: _) false => first.value == "m"
    | _ => false) &&
  (match tree.kind 5 with
    | .identifier name true none => name == "e"
    | _ => false) &&
  (QueryContext.around tree withGrades 6).fieldOf? "e" "m" == none &&
  (match tree.kind 20 with
    | .comparison 17 .equal 19 => true
    | _ => false) &&
  (match tree.kind 19 with
    | .path .stateField 18 [enum, last] false => enum.value == "D" && last.value == "HR"
    | _ => false) &&
  (match tree.kind 18 with
    | .identifier name false none => name == "m"
    | _ => false) &&
  !(QueryContext.around tree withGrades 19).allVariables.contains "m"

/-- The same constant twice: as the new value of a field of a statement without alias, where it is reported,
and in a subquery, where it is not. -/
theorem validate_constants_nested : ∃ parsed outcome,
    parse "UPDATE E SET t = m.D.HR WHERE EXISTS (SELECT e FROM E e WHERE e.t = m.D.HR)"
      RuleId.statement ValidationOptions.standard.maxNestingDepth = .ok parsed ∧ parsed.problems = [] ∧
    validate "UPDATE E SET t = m.D.HR WHERE EXISTS (SELECT e FROM E e WHERE e.t = m.D.HR)"
      RuleId.statement withGrades .standard = .ok outcome ∧
    (∀ problem ∈ outcome.problems, problem.key ≠ .traversalTooDeep) ∧
    parsed.tree.kind 7 = .updateItem 4 6 ∧
    parsed.tree.problemAt .statePathNotResolvable 6 ∈ outcome.problems ∧
    parsed.tree.kind 20 = .comparison 17 .equal 19 ∧
    ∀ problem ∈ outcome.problems, problem.anchor ≠ some 19 ∧ problem.anchor ≠ some 18 := by
  let source := "UPDATE E SET t = m.D.HR WHERE EXISTS (SELECT e FROM E e WHERE e.t = m.D.HR)"
  have hread : (match parse source RuleId.statement ValidationOptions.standard.maxNestingDepth with
      | .ok parsed => parsed.problems.isEmpty && namesConstants parsed.tree
      | .error _ => false) = true := by decide +kernel
  have hcheck : (match validate source RuleId.statement withGrades .standard with
      | .ok outcome => outcome.problems.all (·.key != .traversalTooDeep)
      | .error _ => false) = true := by decide +kernel
  cases hparse : parse source RuleId.statement ValidationOptions.standard.maxNestingDepth with
  | error e =>
    rw [hparse] at hread
    cases hread
  | ok parsed =>
    rw [hparse] at hread
    simp only [namesConstants, Bool.and_eq_true] at hread
    obtain ⟨hempty, ⟨⟨⟨⟨⟨⟨hitem, hfirst⟩, howner⟩, hfield⟩, hcomparison⟩, hlast⟩, hname⟩, hhidden⟩ := hread
    have hclean : parsed.problems = [] := List.isEmpty_iff.mp hempty
    have hitem : parsed.tree.kind 7 = .updateItem 4 6 := by
      split at hitem <;> first | assumption | cases hitem
    have hcomparison : parsed.tree.kind 20 = .comparison 17 .equal 19 := by
      split at hcomparison <;> first | assumption | cases hcomparison
    obtain ⟨first, second, rest, hfield', hfirst⟩ : ∃ first second rest,
        parsed.tree.kind 6 = .path .stateField 5 (first :: second :: rest) false ∧ first.value = "m" := by
      split at hfirst
      · next hk => exact ⟨_, _, _, hk, beq_iff_eq.mp hfirst⟩
      · cases hfirst
    have howner : parsed.tree.kind 5 = .identifier "e" true none := by
      split at howner
      · next hk => rw [hk, beq_iff_eq.mp howner]
      · cases howner
    obtain ⟨enum, last, hconstant, henum, hlast⟩ : ∃ enum last,
        parsed.tree.kind 19 = .path .stateField 18 ([enum] ++ [last]) false ∧
          enum.value = "D" ∧ last.value = "HR" := by
      split at hlast
      · next hk => exact ⟨_, _, hk, by simpa using hlast⟩
      · cases hlast
    have hname : parsed.tree.kind 18 = .identifier "m" false none := by
      split at hname
      · next hk => rw [hk, beq_iff_eq.mp hname]
      · cases hname
    -- What the context of the query lists is all that is visible.
    have hinvisible : ¬parsed.tree.IsVisible 19 "m" := by
      obtain ⟨statement, hquery⟩ := parse_isQuery hparse hclean
      let q : Check.Subject := ⟨parsed.tree, statement, hquery, withGrades,
        ValidationOptions.standard.checkEnv, rfl⟩
      obtain ⟨hheld, hne⟩ := Check.Subject.held_of_path (q := q) hconstant
      intro hvisible
      rw [(QueryContext.contains_allVariables hquery hheld hne "m").mpr hvisible] at hhidden
      cases hhidden
    obtain ⟨outcome, hvalidate, hreports⟩ := validate_constants withGrades rfl hparse hclean
    rw [hvalidate] at hcheck
    have hwhole : ∀ problem ∈ outcome.problems, problem.key ≠ .traversalTooDeep := by simpa using hcheck
    obtain ⟨hwritten, hvirtual⟩ := hreports hwhole
    refine ⟨parsed, outcome, rfl, hclean, hvalidate, hwhole, hitem, ?_, hcomparison, ?_⟩
    · have hnew : 6 ∈ (parsed.tree.kind 7).values := by
        rw [hitem]
        exact List.mem_singleton_self _
      refine hvirtual 6 5 "e" first (second :: rest) (Tree.isValue_of_mem hnew) (by simp) hfield' howner ?_
      rw [hfirst]
      exact beq_iff_eq.mp hfield
    · have hoperand : 19 ∈ (parsed.tree.kind 20).values := by
        rw [hcomparison]
        simp [NodeKind.values]
      refine hwritten 19 18 "m" [enum] last ⟨"m.D", .enumeration ["HR"]⟩ (Tree.isValue_of_mem hoperand)
        hconstant hname ?_ ?_ hinvisible
      · rw [List.map_singleton, henum]
        decide +kernel
      · rw [hlast]
        exact List.mem_singleton_self _

end Jpql
