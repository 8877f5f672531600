import Jpql.Proofs.Check.Report
import Jpql.Proofs.Scope.Binding

/-! # Targets of `SET` items

The target of a `SET` item is followed from the type of the statement's variable, segment by segment.

* `Metamodel.Settable`: what a target may lead through and to.
* `Check.Input.Tells`: what an operation tells of one node. A visit tells of a node what the child tells
  in which the node lies (`Check.Input.uniform_tells`).
* `validate_target`: nothing is reported at a target just where it can be set or has no segment. -/

namespace Jpql

namespace Metamodel

/-- **What can be set** below a managed type: segments that lead through embedded fields to a field that
is no collection. -/
inductive Settable (metamodel : Metamodel) : ManagedType → List (Located String) → Prop
  | last {owner : ManagedType} {segment : Located String} {mapping : Mapping}
      (hmapping : owner.mapping? segment.value = some mapping)
      (hsingle : mapping.kind.isCollection = false) : Settable metamodel owner [segment]
  | through {owner embedded : ManagedType} {segment : Located String} {mapping : Mapping}
      {rest : List (Located String)} (hmapping : owner.mapping? segment.value = some mapping)
      (hembedded : mapping.kind.isEmbedded = true)
      (hmanaged : metamodel.managed? mapping.typeName = some embedded)
      (h : Settable metamodel embedded rest) : Settable metamodel owner (segment :: rest)

variable {metamodel : Metamodel} {owner : ManagedType} {segment next : Located String}
  {rest : List (Located String)} {mapping : Mapping}

theorem Settable.ne_nil {segments : List (Located String)} (h : metamodel.Settable owner segments) :
    segments ≠ [] := by
  cases h <;> exact List.cons_ne_nil _ _

theorem not_settable_of_none (hnone : owner.mapping? segment.value = none) :
    ¬metamodel.Settable owner (segment :: rest) := by
  rintro (⟨h, -⟩ | ⟨h, -⟩) <;> cases hnone.symm.trans h

theorem settable_single (hmapping : owner.mapping? segment.value = some mapping) :
    metamodel.Settable owner [segment] ↔ mapping.kind.isCollection = false := by
  refine ⟨?_, .last hmapping⟩
  rintro (⟨h, hsingle⟩ | ⟨-, -, -, h⟩)
  · rwa [Option.some.inj (hmapping.symm.trans h)]
  · exact absurd rfl h.ne_nil

theorem settable_cons (hmapping : owner.mapping? segment.value = some mapping) :
    metamodel.Settable owner (segment :: next :: rest) ↔ mapping.kind.isEmbedded = true ∧
      ∃ embedded, metamodel.managed? mapping.typeName = some embedded ∧
        metamodel.Settable embedded (next :: rest) := by
  constructor
  · intro h
    cases h with
    | through hother hembedded hmanaged hrest =>
      obtain rfl := Option.some.inj (hmapping.symm.trans hother)
      exact ⟨hembedded, _, hmanaged, hrest⟩
  · rintro ⟨hembedded, embedded, hmanaged, hrest⟩
    exact .through hmapping hembedded hmanaged hrest

end Metamodel

theorem MappingKind.not_isCollection_of_isEmbedded {kind : MappingKind} (h : kind.isEmbedded = true) :
    kind.isCollection = false := by
  cases kind <;> first | rfl | cases h

namespace QueryContext

variable {context : QueryContext}

/-- **Nothing is wrong with a target** that can be set, or that has no segment. -/
theorem targetBelow?_eq_none {owner : ManagedType} {segments : List (Located String)} :
    context.targetBelow? owner segments = none ↔
      segments = [] ∨ context.metamodel.Settable owner segments := by
  induction segments generalizing owner with
  | nil => exact iff_of_true rfl (.inl rfl)
  | cons segment rest ih =>
    rw [or_iff_right (List.cons_ne_nil segment rest), targetBelow?]
    cases hmapping : owner.mapping? segment.value with
    | none => exact iff_of_false (Option.some_ne_none _) (Metamodel.not_settable_of_none hmapping)
    | some mapping =>
      cases rest with
      | nil =>
        rw [Metamodel.settable_single hmapping]
        cases hkind : mapping.kind.isCollection <;> simp [hkind]
      | cons next rest =>
        rw [Metamodel.settable_cons hmapping]
        cases hembedded : mapping.kind.isEmbedded with
        | false => simp [hembedded]
        | true =>
          cases hmanaged : context.metamodel.managed? mapping.typeName with
          | none =>
            simp [hembedded, mappingManaged?, hmanaged,
              MappingKind.not_isCollection_of_isEmbedded hembedded]
          | some embedded =>
            simp [hembedded, mappingManaged?, hmanaged, ih,
              MappingKind.not_isCollection_of_isEmbedded hembedded]

end QueryContext

namespace Check

/-- The problems among some at a node. -/
def anchoredAt (problems : List Problem) (id : Nat) : List Problem :=
  problems.filter (·.anchor == some id)

theorem anchoredAt_append (problems others : List Problem) (id : Nat) :
    anchoredAt (problems ++ others) id = anchoredAt problems id ++ anchoredAt others id :=
  List.filter_append ..

theorem anchoredAt_eq_nil {problems : List Problem} {id : Nat} :
    anchoredAt problems id = [] ↔ ∀ problem ∈ problems, problem.anchor ≠ some id := by
  simp [anchoredAt, List.filter_eq_nil_iff]

namespace Input

variable {q : Input} {α β : Type} {context : QueryContext} {scope : Option Nat} {id child target : Nat}
  {visit : Visitor} {N : Nat → Prop} {problems more : List Problem}

/-- **What an operation tells of a node**: these of the problems that it adds are anchored there. The node
does not come into use. -/
def Tells (q : Input) (context : QueryContext) (id : Nat) (p : Checker α) (problems : List Problem) :
    Prop :=
  ∀ s, s.context = context → s.used.Nodup → id ∉ s.used →
    (p q.env s).2.context = context ∧ (p q.env s).2.used.Nodup ∧ id ∉ (p q.env s).2.used ∧
      anchoredAt (p q.env s).2.problems id = anchoredAt s.problems id ++ problems

namespace Tells

variable {p : Checker α} {f : α → Checker β}

theorem pure (a : α) : q.Tells context id (Pure.pure a) [] := fun _ hs hnodup hfresh =>
  ⟨hs, hnodup, hfresh, (List.append_nil _).symm⟩

/-- What reports on other nodes tells nothing of this one. -/
theorem of_reports {post : α → Prop} (h : q.Reports context scope N p post) (hid : ¬N id) :
    q.Tells context id p [] := by
  intro s hs hnodup hfresh
  obtain ⟨-, new, hstep⟩ := h s hs hnodup
  refine ⟨hstep.context.trans hs, hstep.nodup, fun hmem => ?_, ?_⟩
  · exact (hstep.used id hmem).elim hfresh fun h => hid h.1
  · rw [hstep.problems, anchoredAt_append]
    congr 1
    refine anchoredAt_eq_nil.mpr fun problem hmem hanchor => ?_
    obtain ⟨other, hother, hN⟩ := hstep.tally.anchored problem hmem
    rw [hanchor, Option.some_inj] at hother
    exact hid (hother ▸ hN)

theorem bind (hp : q.Tells context id p problems) (hf : ∀ a, q.Tells context id (f a) more) :
    q.Tells context id (p >>= f) (problems ++ more) := by
  intro s hs hnodup hfresh
  obtain ⟨hcontext, hnodup, hfresh, hproblems⟩ := hp s hs hnodup hfresh
  obtain ⟨hcontext, hnodup, hfresh, hmore⟩ := hf _ _ hcontext hnodup hfresh
  refine ⟨hcontext, hnodup, hfresh, ?_⟩
  rw [bind_run, hmore, hproblems, List.append_assoc]

/-- What comes first reports on other nodes. -/
theorem after {post : α → Prop} (hp : q.Reports context scope N p post) (hid : ¬N id)
    (hf : ∀ a, q.Tells context id (f a) problems) : q.Tells context id (p >>= f) problems :=
  (of_reports hp hid).bind hf

theorem ask_bind {g : QueryContext → α} (h : q.Tells context id (f (g context)) problems) :
    q.Tells context id (ask g >>= f) problems := by
  intro s hs
  have hrun := h s hs
  rw [← hs] at hrun ⊢
  exact hrun

theorem inTree_bind {g : Tree → α} (h : q.Tells context id (f (g context.tree)) problems) :
    q.Tells context id (inTree g >>= f) problems := ask_bind h

theorem kindOf_bind {node : Nat} {f : NodeKind → Checker β}
    (h : q.Tells context id (f (context.tree.kind node)) problems) :
    q.Tells context id (kindOf node >>= f) problems := inTree_bind (g := (·.kind node)) h

/-- What is wrong at the node is told, if anything is. -/
theorem recordOption {key? : Option ProblemKey} : q.Tells context id
    (match key? with
      | some key => Check.recordAt key id
      | none => Pure.pure ()) (key?.toList.map (context.tree.problemAt · id)) := by
  cases key? with
  | none => exact .pure ()
  | some key =>
    refine .inTree_bind fun s hs hnodup hfresh => ⟨hs, hnodup, hfresh, ?_⟩
    show anchoredAt (s.problems ++ _) id = _
    rw [anchoredAt_append]
    simp [anchoredAt, Tree.problemAt]

/-- **Of operations at nodes that lie apart, one tells of a node**: that at the node it lies in. -/
theorem forM {items : List α} (node : α → Nat) {op : α → Checker Unit} {item : α}
    (hapart : (items.map node).Pairwise q.tree.Apart) (hmem : item ∈ items)
    (hholds : q.tree.Holds (node item) id)
    (hreports : ∀ other ∈ items, q.Reports context scope (q.tree.Holds (node other)) (op other)
      fun _ => True)
    (hitem : q.Tells context id (op item) problems) : q.Tells context id (items.forM op) problems := by
  induction items with
  | nil => cases hmem
  | cons first rest ih =>
    rw [List.map_cons, List.pairwise_cons] at hapart
    obtain ⟨hfirst, hrest⟩ := List.forall_mem_cons.mp hreports
    rcases List.mem_cons.mp hmem with rfl | hmem
    · have hnone : q.Tells context id (rest.forM op) [] := by
        refine .of_reports (Reports.forM node hapart.2 hrest) ?_
        rintro ⟨other, hother, hheld⟩
        exact hapart.1 other hother id hholds hheld
      exact List.append_nil problems ▸ hitem.bind fun _ => hnone
    · have hnone : ¬q.tree.Holds (node first) id := fun hheld =>
        hapart.1 (node item) (List.mem_map_of_mem hmem) id hheld hholds
      exact .after hfirst hnone fun _ => ih hapart.2 hmem hrest

end Tells

/-! ## From the target up to the statement -/

section

variable (hv : q.Visits visit)

include hv

/-- **A plain node tells of a node below what the child tells in which it lies**, if a check does nothing
there but meet the children. -/
theorem uniform_tells {demand : Demand} (hid : q.IsPlain id)
    (huniform : (q.tree.kind id).isUniform = true) (hmem : (child, demand) ∈ (q.tree.kind id).demands)
    (hholds : q.tree.Holds child target)
    (hchild : q.Tells (q.context id) target (meet visit (child, demand)) problems) :
    q.Tells (q.context id) target (visitKind visit id) problems := by
  have hapart := Tree.apart_children q.isClean.wellFormed id
  rw [Tree.children, ← NodeKind.map_fst_demands] at hapart
  have hall := Tells.forM (fun entry : Nat × Demand => entry.1) hapart hmem hholds
    (fun other hother => meet_reports hv hid (NodeKind.not_isStatement_of_isUniform huniform)
      (NodeKind.not_identifier_of_isUniform huniform) hother) hchild
  intro s hs
  rw [visitKind_demands huniform (by rw [hs]; rfl)]
  exact hall s hs

/-- **What is told of a target**: what is wrong with it, followed from its variable. -/
theorem updateTarget_tells {root : Nat} {segments : List (Located String)} {dot : Bool} {name : String}
    {isVirtual : Bool} {behind : Option Nat} (htarget : q.tree.Holds q.statement target)
    (hk : q.tree.kind target = .path .stateField root segments dot)
    (hroot : q.tree.kind root = .identifier name isVirtual behind) :
    q.Tells (q.context target) target (updateTarget visit target)
      (((q.context target).updateTarget? name segments).toList.map (q.tree.problemAt · target)) := by
  have hbehind : (q.context target).tree.pathBehind? target = some target := by
    rw [Tree.pathBehind?, show (q.context target).tree.kind target = _ from hk]
  refine .inTree_bind ?_
  rw [hbehind]
  refine .kindOf_bind ?_
  rw [show (q.context target).tree.kind target = _ from hk]
  refine .after (root_reports hk hv htarget) (not_holds_root hk) fun _ => .kindOf_bind ?_
  rw [show (q.context target).tree.kind root = _ from hroot]
  exact .ask_bind .recordOption

end

section

variable {clause range item value root : Nat} {items : List Nat} {condition : Option Nat}
  {segments : List (Located String)} {dot : Bool} {name : String} {isVirtual : Bool} {behind : Option Nat}
  (hstatement : q.tree.kind q.statement = .updateStatement clause condition)
  (hclause : q.tree.kind clause = .updateClause range items) (hmem : item ∈ items)
  (hitem : q.tree.kind item = .updateItem target value)
  (hk : q.tree.kind target = .path .stateField root segments dot)
  (hroot : q.tree.kind root = .identifier name isVirtual behind)

include hstatement hclause hmem hitem

/-- A target lies in the statement, and is looked at in the context of the whole query. -/
theorem held_target : q.tree.Holds clause target ∧ q.tree.Holds q.statement target ∧
    q.context target = .ofTree q.tree q.metamodel := by
  have hwf := q.isClean.wellFormed
  have hc : clause ∈ q.tree.children q.statement := by
    rw [Tree.children, hstatement]
    exact List.mem_cons_self
  have hi : item ∈ q.tree.children clause := by
    rw [Tree.children, hclause]
    exact List.mem_cons_of_mem _ hmem
  have ht : target ∈ q.tree.children item := by
    rw [Tree.children, hitem]
    exact List.mem_cons_self
  have hheld : q.tree.Holds clause target := (Tree.Holds.refl.of_child hwf ht).of_child hwf hi
  refine ⟨hheld, hheld.of_child hwf hc, ?_⟩
  rw [context_of_child ht (by rw [hitem]; rfl), context_of_child hi (by rw [hclause]; rfl),
    ← context_statement]
  exact QueryContext.within_of_child hwf hc fun _ => q.isClean.statementOf_eq.symm

include hk hroot

/-- **What a visit to the statement tells of a target** is what is wrong with it. -/
theorem statement_tells (levels : Nat) :
    q.Tells (.ofTree q.tree q.metamodel) target (visitTo (levels + 3) q.statement)
      (((QueryContext.ofTree q.tree q.metamodel).updateTarget? name segments).toList.map
        (q.tree.problemAt · target)) := by
  have hwf := q.isClean.wellFormed
  obtain ⟨hheld, htarget, hcontext⟩ := held_target hstatement hclause hmem hitem
  have hkind : (q.tree.kind q.statement).isStatement = true := by rw [hstatement]; rfl
  have hc : clause ∈ q.tree.children q.statement := by
    rw [Tree.children, hstatement]
    exact List.mem_cons_self
  have hi : item ∈ q.tree.children clause := by
    rw [Tree.children, hclause]
    exact List.mem_cons_of_mem _ hmem
  have ht : target ∈ q.tree.children item := by
    rw [Tree.children, hitem]
    exact List.mem_cons_self
  have hplace : ∀ child ∈ q.tree.children q.statement,
      q.context child = .ofTree q.tree q.metamodel := fun child hc => by
    rw [← context_statement]
    exact QueryContext.within_of_child hwf hc fun _ => q.isClean.statementOf_eq.symm
  have hplain : q.IsPlain clause := isPlain_of_statement .refl hkind hc
  have hasked : (item, Demand.value) ∈ (q.tree.kind clause).demands := by
    rw [hclause]
    exact List.mem_map_of_mem (List.mem_cons_of_mem _ hmem)
  have htargeted : (target, Demand.target) ∈ (q.tree.kind item).demands := by
    rw [hitem]
    exact List.mem_cons_self
  have hitemContext : q.context item = .ofTree q.tree q.metamodel := by
    rw [context_of_child hi (by rw [hclause]; rfl), hplace clause hc]
  have hupdate := updateTarget_tells (visitTo_visits levels) htarget hk hroot
  have hvisitItem := uniform_tells (visitTo_visits levels) (hplain.of_value (by simp [hclause]) hasked)
    (by rw [hitem]; rfl) htargeted
    .refl (by rw [hitemContext, ← hcontext]; exact hupdate)
  have hvisitClause := uniform_tells (visitTo_visits (levels + 1)) hplain (by rw [hclause]; rfl) hasked
    (Tree.Holds.refl.of_child hwf ht) (by rw [hplace clause hc, ← hitemContext]; exact hvisitItem)
  rw [hplace clause hc, hcontext] at hvisitClause
  refine .kindOf_bind ?_
  rw [show (QueryContext.ofTree q.tree q.metamodel).tree.kind q.statement = _ from hstatement]
  have hreports : ∀ child ∈ q.tree.children q.statement, q.Reports (.ofTree q.tree q.metamodel)
      (some q.statement) (q.tree.Holds child) (visitTo (levels + 2) child) fun _ => True :=
    fun child hchild => by
      rw [← hplace child hchild, ← scopeNode?_of_statement hchild hkind]
      exact visitTo_visits (levels + 2) child (isPlain_of_statement .refl hkind hchild)
  have hall : q.Tells (.ofTree q.tree q.metamodel) target
      (visitAll (visitTo (levels + 2)) (q.tree.children q.statement)) _ :=
    Tells.forM (fun id : Nat => id) (by
      rw [List.map_id']
      exact Tree.apart_children hwf q.statement) hc hheld hreports hvisitClause
  exact .inTree_bind hall

/-- **What a check reports at a target** is what is wrong with it, however deep other parts are. -/
theorem anchoredAt_target {levels : Nat} (hlevels : q.env.maxDepth = levels + 4) :
    anchoredAt (checkTree (.ofTree q.tree q.metamodel) q.env) target =
      ((QueryContext.ofTree q.tree q.metamodel).updateTarget? name segments).toList.map
        (q.tree.problemAt · target) := by
  have hkind : (q.tree.kind q.statement).isStatement = true := by rw [hstatement]; rfl
  have hlt : q.statement < q.tree.size := Tree.lt_size_of_kind (by rw [hstatement]; simp)
  obtain ⟨hcontext, -, hfresh, htold⟩ := statement_tells hstatement hclause hmem hitem hk hroot levels
    (.initial (.ofTree q.tree q.metamodel)) rfl List.nodup_nil List.not_mem_nil
  rw [checkTree, hlevels]
  show anchoredAt (visitTo (levels + 3 + 1) q.tree.root q.env _).2.problems target = _
  rw [visitRoot_run _ rfl]
  generalize (visitTo (levels + 3) q.statement q.env _).2 = t at hcontext hfresh htold ⊢
  have hend : ((do
      let kind ← kindOf q.statement
      if kind.isStatement then checkVariables (← get).used : Checker Unit) q.env t).2 =
        (checkVariables t.used q.env t).2 := by
    rw [kindOf_run, hcontext, show (QueryContext.ofTree q.tree q.metamodel).tree = q.tree from rfl, hkind]
    rfl
  rw [hend, checkVariables_run, List.append_assoc, anchoredAt_append, htold]
  -- The variables that are looked up at the end are variables, and the target is none.
  have hnone : anchoredAt (t.context.duplicates ++ t.context.undeclared t.used) target = [] := by
    refine anchoredAt_eq_nil.mpr fun problem hmem hanchor => ?_
    obtain ⟨-, -, id, hid, hwhere⟩ := QueryContext.variables_cases hmem
    obtain rfl := Option.some.inj (hid.symm.trans hanchor)
    refine hwhere.elim (fun hname => ?_) hfresh
    rw [hcontext, show (QueryContext.ofTree q.tree q.metamodel).innermost =
      .ofStatement q.tree (QueryContext.statementOf q.tree) from rfl, q.isClean.statementOf_eq] at hname
    obtain ⟨⟨spelling, node⟩, hpair, rfl⟩ := List.mem_map.mp hname
    obtain ⟨⟨isVirtual, behind, hvariable⟩, -⟩ :=
      Scope.introduced_of_mem_names q.isClean.wellFormed q.isClean.schematic hlt hkind hpair
    cases hk.symm.trans hvariable
  rw [hnone, List.append_nil]
  rfl

end

end Input

end Check

/-! ## Texts -/

namespace Tree

/-- **An `UPDATE` of an entity**: the entity, the name of the variable, and the items of the `SET`
clause. -/
def update? (tree : Tree) (statement : NodeId) : Option (String × String × List NodeId) :=
  match tree.kind statement with
  | .updateStatement clause _ =>
    match tree.kind clause with
    | .updateClause range items =>
      match tree.kind range with
      | .rangeDeclaration root _ (some declared) =>
        match tree.kind root, tree.kind declared with
        | .schemaName entity, .identifier name _ _ => some (entity, name, items)
        | _, _ => none
      | _ => none
    | _ => none
  | _ => none

/-- **The target of a `SET` item**: the path, the name of the variable that it starts at, and the segments
behind that. -/
def setTarget? (tree : Tree) (item : NodeId) : Option (NodeId × String × List (Located String)) :=
  match tree.kind item with
  | .updateItem target _ =>
    match tree.kind target with
    | .path .stateField root segments _ =>
      match tree.kind root with
      | .identifier name _ _ => some (target, name, segments)
      | _ => none
    | _ => none
  | _ => none

variable {tree : Tree} {entity name other : String} {items : List Nat} {statement item target : Nat}
  {segments : List (Located String)}

theorem update?_cases (h : tree.update? statement = some (entity, name, items)) :
    ∃ clause condition range root hasAs declared isVirtual behind,
      tree.kind statement = .updateStatement clause condition ∧
      tree.kind clause = .updateClause range items ∧
      tree.kind range = .rangeDeclaration root hasAs (some declared) ∧
      tree.kind root = .schemaName entity ∧ tree.kind declared = .identifier name isVirtual behind := by
  unfold update? at h
  split at h <;> try cases h
  next clause condition hstatement =>
  split at h <;> try cases h
  next range items hclause =>
  split at h <;> try cases h
  next root hasAs declared hrange =>
  split at h <;> try cases h
  next entity name isVirtual behind hroot hdeclared =>
  exact ⟨clause, condition, range, root, hasAs, declared, isVirtual, behind, hstatement, hclause, hrange,
    hroot, hdeclared⟩

theorem setTarget?_cases (h : tree.setTarget? item = some (target, name, segments)) :
    ∃ value root dot isVirtual behind, tree.kind item = .updateItem target value ∧
      tree.kind target = .path .stateField root segments dot ∧
      tree.kind root = .identifier name isVirtual behind := by
  unfold setTarget? at h
  split at h <;> try cases h
  next target value hitem =>
  split at h <;> try cases h
  next root segments dot htarget =>
  split at h <;> try cases h
  next name isVirtual behind hroot =>
  exact ⟨value, root, dot, isVirtual, behind, hitem, htarget, hroot⟩

/-- The variable of an `UPDATE` ranges over its entity. -/
theorem variableType?_of_update {metamodel : Metamodel} {type : ManagedType}
    (h : tree.update? (QueryContext.statementOf tree) = some (entity, name, items))
    (hentity : metamodel.entity? entity = some type) (hname : Text.sameWord name other = true) :
    (QueryContext.ofTree tree metamodel).variableType? other = some type := by
  obtain ⟨clause, condition, range, root, hasAs, declared, isVirtual, behind, hstatement, hclause, hrange,
    hroot, hdeclared⟩ := update?_cases h
  have hscope : (QueryContext.ofTree tree metamodel).scopes.flatMap (·.declarations) =
      [⟨.range, range, root, some entity, some name, some declared, []⟩] := by
    simp [QueryContext.ofTree, QueryContext.scopes, Scope.ofStatement, hstatement, clauseDeclarations,
      hclause, rangeDeclaration, hrange, hroot, variableName?, hdeclared]
  have hbinding : (QueryContext.ofTree tree metamodel).binding? other = some (.entity entity) := by
    rw [QueryContext.binding?, hscope]
    simp [Declaration.declares, Declaration.declaresVariable, Declaration.binding?, isNamed, hname]
  exact QueryContext.variableType?_of_entity hbinding hentity

end Tree

/-- **Targets are checked exactly.** Where an `UPDATE` of a known entity sets what is below its variable,
nothing is reported at the target just where the segments lead through embedded fields to a field that is
no collection, or where there are none. A dot behind the last segment makes no difference. -/
theorem validate_target {source rule : String} {parsed : Parsed} (metamodel : Metamodel)
    (hparse : parse source rule ValidationOptions.standard.maxNestingDepth = .ok parsed)
    (hclean : parsed.problems = []) {statement item target : Nat} {items : List Nat}
    {entity name start : String} {segments : List (Located String)} {type : ManagedType}
    (hupdate : parsed.tree.update? statement = some (entity, name, items)) (hmem : item ∈ items)
    (htarget : parsed.tree.setTarget? item = some (target, start, segments))
    (hname : Text.sameWord name start = true) (hentity : metamodel.entity? entity = some type) :
    ∃ outcome, validate source rule metamodel .standard = .ok outcome ∧
      ((∀ problem ∈ outcome.problems, problem.anchor ≠ some target) ↔
        segments = [] ∨ metamodel.Settable type segments) := by
  obtain ⟨q, htree, rfl, henv, -, hvalidate⟩ := validate_input metamodel hparse hclean
  refine ⟨_, hvalidate, ?_⟩
  rw [← htree] at hupdate htarget
  obtain ⟨clause, condition, range, root, hasAs, declared, isVirtual, behind, hstatement, hclause, -⟩ :=
    Tree.update?_cases hupdate
  obtain ⟨value, root, dot, isVirtual, behind, hitem, hk, hroot⟩ := Tree.setTarget?_cases htarget
  obtain rfl : statement = q.statement := by
    have hne : statement ≠ q.tree.root := fun he => by
      rw [he, q.isClean.root] at hstatement
      cases hstatement
    have hlt : statement < q.tree.size := Tree.lt_size_of_kind (by rw [hstatement]; simp)
    obtain ⟨parent, hp, -⟩ := q.isClean.wellFormed.parent statement hlt hne
    exact q.isClean.eq_statement hp (by rw [hstatement]; rfl)
  have htype := Tree.variableType?_of_update (by rw [q.isClean.statementOf_eq]; exact hupdate) hentity hname
  have hdepth : q.env.maxDepth = 508 + 4 := by
    rw [henv]
    rfl
  rw [← Check.anchoredAt_eq_nil, Check.Input.anchoredAt_target hstatement hclause hmem hitem hk hroot
    hdepth, List.map_eq_nil_iff, Option.toList_eq_nil_iff, QueryContext.updateTarget?, htype]
  exact QueryContext.targetBelow?_eq_none

/-- An entity with a collection and an embedded field. -/
def withEmbedded : Metamodel :=
  (Metamodel.initial.withManaged (.entity "E" "m.E" [⟨"a", .oneToMany, "m.E"⟩,
    ⟨"b", .embedded, "m.B"⟩])).withManaged (.embeddable "m.B" [⟨"c", .basic, "long"⟩])

/-- A field of an embedded field is set, then a collection, then the variable itself. -/
theorem validate_target_embedded : ∃ parsed outcome,
    parse "UPDATE E SET b.c = 1, a = 2, e = 3" RuleId.statement
      ValidationOptions.standard.maxNestingDepth = .ok parsed ∧ parsed.problems = [] ∧
    validate "UPDATE E SET b.c = 1, a = 2, e = 3" RuleId.statement withEmbedded .standard =
      .ok outcome ∧
    parsed.tree.update? 16 = some ("E", "e", [6, 10, 14]) ∧
    (∀ problem ∈ outcome.problems, problem.anchor ≠ some 4) ∧
    (∃ problem ∈ outcome.problems, problem.anchor = some 8) ∧
    ∀ problem ∈ outcome.problems, problem.anchor ≠ some 12 := by
  let source := "UPDATE E SET b.c = 1, a = 2, e = 3"
  let type : ManagedType := .entity "E" "m.E" [⟨"a", .oneToMany, "m.E"⟩, ⟨"b", .embedded, "m.B"⟩]
  let part : ManagedType := .embeddable "m.B" [⟨"c", .basic, "long"⟩]
  have hread : (match parse source RuleId.statement ValidationOptions.standard.maxNestingDepth with
      | .ok parsed =>
        let target (item : Nat) : Option (Nat × String × List String) :=
          (parsed.tree.setTarget? item).map fun (target, start, segments) =>
            (target, start, segments.map (·.value))
        parsed.problems.isEmpty && parsed.tree.update? 16 == some ("E", "e", [6, 10, 14]) &&
          target 6 == some (4, "e", ["b", "c"]) && target 10 == some (8, "e", ["a"]) &&
          target 14 == some (12, "e", [])
      | .error _ => false) = true := by decide +kernel
  cases hparse : parse source RuleId.statement ValidationOptions.standard.maxNestingDepth with
  | error e =>
    rw [hparse] at hread
    cases hread
  | ok parsed =>
    rw [hparse] at hread
    simp only [Bool.and_eq_true, beq_iff_eq, List.isEmpty_iff, Option.map_eq_some_iff, Prod.exists,
      Prod.mk.injEq, List.map_eq_cons_iff, List.map_eq_nil_iff] at hread
    obtain ⟨⟨⟨⟨hclean, hupdate⟩, _, _, _, hembedded, rfl, rfl, b, _, rfl, hb, c, _, rfl, hc, rfl⟩,
      _, _, _, hcollection, rfl, rfl, a, _, rfl, ha, rfl⟩, _, _, _, hnone, rfl, rfl, rfl⟩ := hread
    have hname : Text.sameWord "e" "e" = true := by decide
    have hentity : withEmbedded.entity? "E" = some type := rfl
    obtain ⟨outcome, hvalidate, hthrough⟩ := validate_target withEmbedded hparse hclean hupdate
      (by decide) hembedded hname hentity
    obtain ⟨_, hsame, hsingle⟩ := validate_target withEmbedded hparse hclean hupdate (by decide)
      hcollection hname hentity
    obtain rfl := Except.ok.inj (hvalidate.symm.trans hsame)
    obtain ⟨_, hsame, hempty⟩ := validate_target withEmbedded hparse hclean hupdate (by decide) hnone
      hname hentity
    obtain rfl := Except.ok.inj (hvalidate.symm.trans hsame)
    refine ⟨parsed, outcome, rfl, hclean, hvalidate, hupdate, hthrough.mpr (.inr ?_), ?_,
      hempty.mpr (.inl rfl)⟩
    · have hembedded : type.mapping? b.value = some ⟨"b", .embedded, "m.B"⟩ := by rw [hb]; decide
      have hbasic : part.mapping? c.value = some ⟨"c", .basic, "long"⟩ := by rw [hc]; decide
      exact .through hembedded rfl rfl (.last hbasic rfl)
    · by_contra hfree
      rcases hsingle.mp (fun problem hmem hanchor => hfree ⟨problem, hmem, hanchor⟩) with h | h
      · cases h
      · have hmapping : type.mapping? a.value = some ⟨"a", .oneToMany, "m.E"⟩ := by rw [ha]; decide
        exact Bool.noConfusion ((Metamodel.settable_single hmapping).mp h)

end Jpql
