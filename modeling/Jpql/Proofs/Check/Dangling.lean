import Jpql.Proofs.Check.Exact
import Jpql.Proofs.Check.Report

/-! # Paths that stop behind a dot

A dot with nothing behind it ends a path. The reader notes it at the path and reports nothing, and the
check leaves the path alone: each takes it for the other's concern.

* `Check.records_dangling`: the check of such a path, and of a selection with it.
* `Lexeme.LeadsTo`: what can stand in front of a path at the end of a text.
* `validate_dangling`: a text that stops behind the dot of a path is validated without a problem. -/

namespace Jpql

open Parse (IsVariable StartsPath Selects)

/-! ## Selections -/

namespace Parse

variable {tree : Tree} {id condition : Nat} {entity var : String}

/-- **A selection declares its variable**, over its entity and nothing else. -/
theorem Selects.scope (h : Selects tree.kind id entity var condition) :
    ∃ entry schema declared, Scope.ofStatement tree id =
      ⟨[⟨.range, entry, schema, some entity, some var, some declared, []⟩], []⟩ := by
  obtain ⟨select, fromClause, whereClause, hid, hselect, ⟨entry, range, hclause, hentry, hrange⟩, -⟩ := h
  obtain ⟨schema, declared, hrange⟩ := hrange.declaration entry
  refine ⟨entry, schema, declared, ?_⟩
  simp only [Scope.ofStatement, hid, hselect.resultNames, Tree.fromDeclarations, Option.map_some, hclause,
    List.map_cons, List.map_nil, Tree.declaration, hentry, hrange, List.filterMap_nil]

/-- The context of a whole query whose statement is a selection. -/
theorem Selects.outermost (metamodel : Metamodel) (hroot : tree.kind tree.root = .query (some id) none)
    (h : Selects tree.kind id entity var condition) :
    ∃ entry schema declared, (QueryContext.ofTree tree metamodel).outermost =
      ⟨[⟨.range, entry, schema, some entity, some var, some declared, []⟩], []⟩ := by
  have hstatement : QueryContext.statementOf tree = id := by rw [QueryContext.statementOf, hroot]
  obtain ⟨entry, schema, declared, hscope⟩ := h.scope
  refine ⟨entry, schema, declared, ?_⟩
  rw [← hscope, ← hstatement]
  rfl

end Parse

namespace Check

variable {context : QueryContext} {known : NodeId → Prop} {visit : Visitor} {id condition levels : Nat}
  {entity var : String}

/-- **A path that stops behind a dot** is left alone. -/
theorem records_dangling {words : List Word} (hv : ∀ root, IsVariable context.tree.kind root var →
      Records context known (visit root) [])
    (hid : StartsPath context.tree.kind .stateField id var words true) :
    Records context known (visitKind visit id) [] := by
  obtain ⟨root, segments, hid, hroot, -⟩ := hid
  refine .kindOf_bind ?_
  rw [hid]
  refine .discard (.kindOf_bind ?_)
  rw [hid]
  exact .bind_left (hv root hroot) fun _ => .pure

/-- The variables of a selection are declared once each. -/
theorem records_selectVariables {node schema declared : Nat} (hsub : context.subqueries = [])
    (hscope : context.outermost =
      ⟨[⟨.range, node, schema, some entity, some var, some declared, []⟩], []⟩)
    {used : List Nat} (hused : ∀ id ∈ used, context.tree.variableText id = var) :
    Records context known (checkVariables used) [] := by
  have hlocal : context.localVariables = DeclaredVariables.empty.insert var declared := by
    rw [QueryContext.localVariables, QueryContext.innermost, hsub, List.headD_nil, hscope]
    rfl
  have hall : context.allVariables = DeclaredVariables.empty.insert var declared := by
    rw [QueryContext.allVariables, QueryContext.scopes, hsub, List.nil_append, hscope]
    rfl
  refine records_checkVariables ?_ fun id hid => ?_
  · rw [QueryContext.duplicates, hlocal]
    rfl
  · rw [hall, hused id hid, DeclaredVariables.contains_insert, beq_self_eq_true, Bool.true_or]

/-- **A check of a selection reports nothing** if the check of its condition does. -/
theorem records_selects {node schema declared : Nat}
    (hknown : ∀ id, IsVariable context.tree.kind id var → known id)
    (hdeclarations : context.declarations =
      [⟨.range, node, schema, some entity, some var, some declared, []⟩])
    (hentity : (context.metamodel.entity? entity).isSome = true)
    (hcondition : Records context known (visitTo (levels + 3) condition) [])
    (h : Selects context.tree.kind id entity var condition) :
    Records context known (visitTo (levels + 5) id) [] := by
  obtain ⟨select, fromClause, whereClause, hid, hselect, ⟨entry, range, hclause, hentry, hrange⟩, hwhere⟩ := h
  have hentry' : Records context known (visitTo (levels + 3) entry) [] := by
    refine .kindOf_bind ?_
    rw [hentry]
    exact .visitChildren hentry (.visitAll_cons (records_range hknown hentity hrange) .pure)
  have hclause' : Records context known (visitTo (levels + 4) fromClause) [] := by
    have horder : Records context known (declarationOrder fromClause) [] := by
      refine .ask_bind ?_
      rw [hdeclarations]
      exact .recordAll
    refine .kindOf_bind ?_
    rw [hclause]
    exact horder.bind_left fun _ => .visitChildren hclause (.visitAll_cons hentry' .pure)
  have hwhere' : Records context known (visitTo (levels + 4) whereClause) [] := by
    refine .kindOf_bind ?_
    rw [hwhere]
    exact .visitChildren hwhere (.visitAll_cons hcondition .pure)
  refine .kindOf_bind ?_
  rw [hid]
  exact .visitChildren hid (.visitAll_cons (records_select hknown hselect)
    (.visitAll_cons hclause' (.visitAll_cons hwhere' .pure)))

end Check

/-! ## Validation -/

/-- **What can stand in front of a path** at the end of a text: nothing under a rule for expressions that
start with a name, or a selection of the variable with which the path starts. -/
inductive Lexeme.LeadsTo (metamodel : Metamodel) (name : Name) : (rule : String) → List Lexeme → Prop
  | expression {rule : String} (h : Grammar.standard.dispatch rule .identifier = .ok (some .path)) :
      LeadsTo metamodel name rule []
  | condition (spelling : Keyword → List Char) {entity : Name}
      (h : (metamodel.entity? entity.text).isSome = true) :
      LeadsTo metamodel name RuleId.statement (Lexeme.selection spelling entity name)

namespace Parse

variable {env : Env} {deeper : Deeper} {s : State} {rule : String} {name : Name} {words : List Word}

/-- A path that stops behind a dot is a condition. -/
theorem Reads.dangling (hgrammar : env.grammar = .standard)
    (hrule : Grammar.standard.dispatch rule .identifier = .ok (some .path))
    (h : s.Ahead env (Lexeme.name name :: (Lexeme.dotted words ++ [Lexeme.dot]))) :
    Reads env (disjunction deeper rule) s [] fun id d =>
      StartsPath d.kind .stateField id name.text words true := by
  have hread : Reads env (expression deeper 0 rule) s [] fun id d =>
      if words = [] ∧ true = false then IsVariable d.kind id name.text
      else StartsPath d.kind .stateField id name.text words true :=
    path hgrammar hrule (Nat.zero_le 7) rfl (.of_none rfl) h
  exact hread.mono fun id d _ hid => by rwa [if_neg (by simp)] at hid

end Parse

/-- **A text that stops behind the dot of a path is read without a problem.** The path is the statement,
or the condition of a selection. -/
theorem parse_dangling {source rule : String} {metamodel : Metamodel} {front : List Lexeme}
    {name : Name} {words : List Word} (maxDepth : Nat)
    (hlexical : (tokenize source).problems = []) (hfront : Lexeme.LeadsTo metamodel name rule front)
    (hsource : Text.lexemes source =
      front ++ Lexeme.name name :: (Lexeme.dotted words ++ [Lexeme.dot])) :
    ∃ tree statement path, parse source rule maxDepth = .ok ⟨tree, []⟩ ∧
      tree.kind tree.root = .query (some statement) none ∧
      StartsPath tree.kind .stateField path name.text words true ∧
      (statement = path ∨ ∃ entity, (metamodel.entity? entity).isSome = true ∧
        Selects tree.kind statement entity name.text path) := by
  have hahead := Parse.State.ahead_lexemes source maxDepth
  rw [hsource] at hahead
  have hgrow : ∀ id (a b : Parse.Draft), a.Grows b →
      StartsPath a.kind .stateField id name.text words true →
        StartsPath b.kind .stateField id name.text words true := fun _ _ _ hg h => h.grows hg
  cases hfront with
  | expression hrule =>
    have hregistered : (Grammar.standard.rule? rule).isSome = true := by
      unfold Grammar.dispatch at hrule
      split at hrule
      · cases hrule
      · next h => rw [h]; rfl
    obtain ⟨tree, hparse, path, hroot, hpath⟩ := parse_of_reads
      (fun root kindOf => ∃ id, kindOf root = .query (some id) none ∧
        StartsPath kindOf .stateField id name.text words true)
      hlexical hregistered (.query hgrow (.start_condition hrule (.dangling rfl hrule hahead)))
    exact ⟨tree, path, path, hparse, hroot, hpath, .inl rfl⟩
  | @condition spelling entity hentity =>
    have hconditional : Grammar.standard.dispatch RuleId.conditional .identifier = .ok (some .path) := by
      decide +kernel
    have hregistered : (Grammar.standard.rule? RuleId.statement).isSome = true :=
      Grammar.standard_registers (by simp)
    obtain ⟨tree, hparse, statement, hroot, path, hselects, hpath⟩ := parse_of_reads
      (fun root kindOf => ∃ id, kindOf root = .query (some id) none ∧
        ∃ path, Selects kindOf id entity.text name.text path ∧
          StartsPath kindOf .stateField path name.text words true)
      hlexical hregistered (.query
        (fun id a b hg ⟨path, hselects, hpath⟩ => ⟨path, hselects.grows hg, hgrow _ _ _ hg hpath⟩)
        (.start_select rfl rfl (.selection rfl hgrow (fun t ht => .dangling rfl hconditional ht) hahead)
          hahead))
    exact ⟨tree, statement, path, hparse, hroot, hpath, .inr ⟨entity.text, hentity, hselects⟩⟩

/-- **A text that stops behind the dot of a path is validated without a problem**, whatever the metamodel
and the layout. The dot is only noted at the path. -/
theorem validate_dangling {source rule : String} {metamodel : Metamodel} {options : ValidationOptions}
    {front : List Lexeme} {name : Name} {words : List Word}
    (hlexical : (tokenize source).problems = []) (hfront : Lexeme.LeadsTo metamodel name rule front)
    (hsource : Text.lexemes source =
      front ++ Lexeme.name name :: (Lexeme.dotted words ++ [Lexeme.dot]))
    (hdepth : 6 ≤ options.maxTraversalDepth) :
    ∃ outcome id, validate source rule metamodel options = .ok outcome ∧ outcome.problems = [] ∧
      StartsPath outcome.tree.kind .stateField id name.text words true := by
  obtain ⟨tree, statement, path, hparse, hroot, hpath, hstatement⟩ :=
    parse_dangling options.maxNestingDepth hlexical hfront hsource
  obtain ⟨levels, hlevels⟩ : ∃ levels, options.maxTraversalDepth = levels + 6 :=
    Nat.exists_eq_add_of_le' hdepth
  let known (id : NodeId) : Prop := tree.variableText id = name.text
  have hknown : ∀ id, IsVariable tree.kind id name.text → known id := fun id hid => by
    show tree.variableText id = name.text
    rw [Tree.variableText, hid]
  have hvisits : ∀ levels, Check.Records (.ofTree tree metamodel) known (Check.visitTo (levels + 2) path) [] :=
    fun levels => Check.records_dangling
      (fun root hroot => Check.records_variable (hknown root hroot) hroot) hpath
  have hcheck : checkTree (.ofTree tree metamodel) options.checkEnv = [] := by
    rcases hstatement with rfl | ⟨entity, hentity, hselects⟩
    · refine Check.checkTree_eq hroot hlevels (hvisits (levels + 3)) fun hstatement => ?_
      obtain ⟨root, segments, hkind, -⟩ := hpath
      rw [hkind] at hstatement
      cases hstatement
    · obtain ⟨entry, schema, declared, hscope⟩ := hselects.outermost metamodel hroot
      have hvisit : Check.Records (.ofTree tree metamodel) known (Check.visitTo (levels + 5) statement) [] :=
        Check.records_selects hknown (congrArg Scope.declarations hscope) hentity (hvisits (levels + 1))
          hselects
      exact Check.checkTree_eq hroot hlevels hvisit fun _ used hused =>
        Check.records_selectVariables rfl hscope hused
  refine ⟨⟨tree, []⟩, path, ?_, rfl, hpath⟩
  rw [validate, hparse]
  show Except.ok (⟨tree, [] ++ checkTree _ _⟩ : Parsed) = _
  rw [hcheck]
  rfl

/-- A selection whose condition is a variable with a dot. -/
theorem validate_dangling_selection :
    let e : Name := ⟨⟨"e", by decide⟩, by decide⟩
    let employee : Name := ⟨⟨"Employee", by decide⟩, by decide⟩
    let source := "SELECT e FROM Employee e WHERE e."
    let metamodel := Metamodel.initial.withManaged (.entity "Employee" "acme.Employee" [])
    let front := Lexeme.selection (·.spelling.toList) employee e
    (tokenize source).problems = [] ∧ Lexeme.LeadsTo metamodel e RuleId.statement front ∧
      Text.lexemes source = front ++ Lexeme.name e :: (Lexeme.dotted [] ++ [Lexeme.dot]) ∧
      6 ≤ ValidationOptions.standard.maxTraversalDepth ∧
      ∃ outcome id, validate source RuleId.statement metamodel .standard = .ok outcome ∧
        outcome.problems = [] ∧ StartsPath outcome.tree.kind .stateField id "e" [] true := by
  intro e employee source metamodel front
  have hlexical : (tokenize source).problems = [] := List.isEmpty_iff.mp (by decide +kernel)
  have hfront : Lexeme.LeadsTo metamodel e RuleId.statement front :=
    .condition _ (by decide)
  have hsource : Text.lexemes source = front ++ Lexeme.name e :: (Lexeme.dotted [] ++ [Lexeme.dot]) := by
    decide +kernel
  have hdepth : 6 ≤ ValidationOptions.standard.maxTraversalDepth := by decide
  exact ⟨hlexical, hfront, hsource, hdepth, validate_dangling hlexical hfront hsource hdepth⟩

/-- **No check says anything about a path that stops behind a dot**, unless a value is assigned to it. -/
theorem validate_silent {source rule : String} {parsed : Parsed} (metamodel : Metamodel)
    (hparse : parse source rule ValidationOptions.standard.maxNestingDepth = .ok parsed)
    (hclean : parsed.problems = []) :
    ∃ outcome, validate source rule metamodel .standard = .ok outcome ∧
      ∀ id kind root segments, parsed.tree.kind id = .path kind root segments true →
        parsed.tree.demand id ≠ .target →
          ∀ problem ∈ outcome.problems, problem.key.isFinding = true → problem.anchor ≠ some id := by
  obtain ⟨q, htree, -, -, hvalidate⟩ := validate_of_clean metamodel hparse hclean
  refine ⟨_, hvalidate, fun id kind root segments hk hdemand problem hmem hkey hanchor => ?_⟩
  rw [← htree] at hk hdemand
  have hnone : q.findings id = [] := by
    rw [Check.Input.findings_path hk, QueryContext.pathProblems]
    have htree : (q.context id).tree.kind id = .path kind root segments true := hk
    rw [htree]
    cases hd : q.tree.demand id <;> cases kind <;> first
      | rfl
      | exact absurd hd hdemand
  obtain ⟨n, hfound, -⟩ := q.checkTree_tally.1.times id
  have hfoundAt := Check.mem_foundAt.mpr ⟨hmem, hkey, hanchor⟩
  rw [hfound, hnone, List.flatten_replicate_nil] at hfoundAt
  cases hfoundAt

end Jpql
