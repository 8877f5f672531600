import Jpql.Proofs.Check.Chain
import Jpql.Proofs.Depth.Operand

/-! # Visits at each depth

Every node that is not the root of a tree is visited along a trace, whatever is wrong with the tree.

* `Check.Trace.lookup`: at the end of a statement or subquery, what came into use in it is looked up.
* `Check.visitKind_traced`: what is done at a node follows a trace if the nodes below are visited along
  one.
* `Check.visits`: so all nodes are, by induction on their ids. -/

namespace Jpql.Check

/-! ## Looking variables up -/

/-- **The variables of a scope are looked up.** What was found stays in front; that a variable is not
declared is found at the depth at which it came into use. Nothing stays in use. -/
def Trace.lookup (t : Trace) (context : QueryContext) : Trace :=
  ⟨t.found ++ context.duplicates.map surface ++
      (t.uses.filter fun entry =>
          !context.allVariables.contains (context.tree.variableText entry.2)).map
        fun entry => (entry.1, context.variableProblem .variableNotDeclared entry.2),
    [], t.reach⟩

section

variable {t : Trace} {context : QueryContext}

theorem Trace.Sound.lookup (h : t.Sound) : (t.lookup context).Sound := by
  refine ⟨fun entry hmem => ?_, nofun, fun entry hmem => ?_, List.nodup_nil⟩ <;>
    rcases List.mem_append.mp hmem with hmem | hmem
  · rcases List.mem_append.mp hmem with hmem | hmem
    · exact h.found_le entry hmem
    · obtain ⟨problem, -, rfl⟩ := List.mem_map.mp hmem
      exact Nat.zero_le _
  · obtain ⟨use, huse, rfl⟩ := List.mem_map.mp hmem
    exact h.uses_le use (List.mem_filter.mp huse).1
  · rcases List.mem_append.mp hmem with hmem | hmem
    · exact h.key_ne entry hmem
    · obtain ⟨problem, hproblem, rfl⟩ := List.mem_map.mp hmem
      obtain ⟨declared, -, rfl⟩ := List.mem_map.mp hproblem
      simp [surface, QueryContext.variableProblem]
  · obtain ⟨use, -, rfl⟩ := List.mem_map.mp hmem
    simp [QueryContext.variableProblem]

/-- **What a look-up adds to the findings of a run.** -/
theorem Trace.Finds.lookup {levels : Nat} {s s' : State} (h : t.Finds levels s s')
    (context : QueryContext) :
    (t.lookup context).Finds levels s
      { s' with
        problems := s'.problems ++ context.duplicates ++ context.undeclared (upTo levels t.uses) } := by
  have hfound : upTo levels (t.lookup context).found =
      upTo levels t.found ++ (context.duplicates ++ context.undeclared (upTo levels t.uses)) := by
    rw [Trace.lookup, upTo_append, upTo_append, upTo_surface, QueryContext.undeclared, ← upTo_filter,
      ← upTo_map, List.append_assoc]
  have hkeys : ∀ problem ∈ context.duplicates ++ context.undeclared (upTo levels t.uses),
      problem.key ≠ .traversalTooDeep := by
    intro problem hmem
    rcases List.mem_append.mp hmem with hmem | hmem <;>
    · obtain ⟨node, -, rfl⟩ := List.mem_map.mp hmem
      simp [QueryContext.variableProblem]
  simp only [List.append_assoc]
  refine ⟨?_, h.exceeded, ?_⟩
  · rw [faults_append, faults_eq_self.mpr hkeys, h.found, hfound, List.append_assoc]
  · rw [marks_append, marks_eq_zero.mpr hkeys]
    exact h.marks

end

variable {tree : Tree} {setting : Setting tree} {id : NodeId} {ι : Type} [Limit ι]
  {visitor : ι → Visitor}

/-- **A subquery finds what its children find and what is looked up at its end**, and leaves nothing in
use. -/
theorem checkSubquery_traced
    (h : Traced (setting.enter id) (tree.Holds id) (fun limit => visitChildren (visitor limit) id) ()) :
    Traced setting (tree.Holds id) (fun limit => checkSubquery (visitor limit) id) () := by
  obtain ⟨t, ht⟩ := h
  refine ⟨t.lookup (setting.enter id).context, ht.sound.lookup, nofun,
    fun limit env s hs hclear => ⟨rfl, ?_⟩⟩
  have hnew : ∀ node ∈ upTo (Limit.levels limit) t.uses, node ∉ s.used := fun node hnode hused =>
    absurd (hclear node hused (ht.within node (Trace.mem_nodes_of_mem_upTo hnode))) List.not_mem_nil
  have hs' : (setting.enter id).Starts env { s with context := s.context.enter id } :=
    ⟨by rw [hs.context]; rfl, hs.registers, hs.updateValues⟩
  obtain ⟨-, hrun⟩ := ht.run limit env _ hs' fun node hused hin =>
    absurd (hclear node hused hin) List.not_mem_nil
  rw [checkSubquery_run]
  generalize (visitChildren (visitor limit) id env { s with context := s.context.enter id }).2 = inner
    at hrun ⊢
  have hused : inner.used = s.used ++ upTo (Limit.levels limit) t.uses := by
    rw [hrun.used]
    exact note_fresh (ht.sound.nodup_upTo _) hnew
  have hfirst : inner.used.filter (!s.used.contains ·) = upTo (Limit.levels limit) t.uses := by
    rw [hused, List.filter_append, List.filter_eq_nil_iff.mpr (by simp),
      List.filter_eq_self.mpr (by simpa using hnew), List.nil_append]
  have hlast : inner.used.filter (s.used.contains ·) = s.used := by
    rw [hused, List.filter_append, List.filter_eq_self.mpr (by simp),
      List.filter_eq_nil_iff.mpr (by simpa using hnew), List.append_nil]
  have hcontext : inner.context = (setting.enter id).context := (hs'.step hrun).context
  have hlookup := hrun.toFinds.lookup (setting.enter id).context
  simp only [checkVariables_run, hfirst, hcontext]
  refine ⟨⟨hlookup.found, hlookup.exceeded, hlookup.marks⟩, ?_, hrun.registers, hlast⟩
  exact (QueryContext.leave_enter _ _).trans hs.context.symm

/-! ## Nodes -/

section

variable (hread : tree.IsRead) (hchildren : ∀ child ∈ tree.children id, Visits tree visitor child)

include hread hchildren

theorem visitChildren_traced (setting : Setting tree) :
    Traced setting (tree.Holds id) (fun limit => visitChildren (visitor limit) id) () := by
  have hsweeps : Sweeps setting ((tree.children id).map fun child => child)
      (fun limit => (tree.children id).forM (visitor limit)) :=
    .forM fun child hc => (hchildren child hc).visit setting
  rw [List.map_id'] at hsweeps
  exact .inTree_bind (hsweeps.traced hread.wellFormed)

/-- **A child is looked at along a trace**, whatever is asked of it. -/
theorem meet_traced {item : NodeId × Demand} (hmem : item ∈ (tree.kind id).demands) :
    Traced setting (tree.Holds item.1) (fun limit => meet (visitor limit) item) () := by
  have hc : item.1 ∈ tree.children id := by
    rw [Tree.children, ← NodeKind.map_fst_demands]
    exact List.mem_map_of_mem hmem
  have hwf := hread.wellFormed
  have hitem := hchildren item.1 hc
  obtain ⟨child, demand⟩ := item
  cases demand with
  | value => exact hitem.visit setting
  | basic => exact basicOperand_traced hwf setting hitem
  | association => exact association_traced hwf setting hitem
  | collection => exact collectionPath_traced hwf setting hitem true
  | target => exact updateTarget_traced hwf setting hitem
  | declared => exact visitDeclared_traced setting hitem

/-- At most nodes the children are looked at in turn. -/
theorem uniform_traced (huniform : (tree.kind id).isUniform = true)
    (hvalues : ∀ target value, tree.kind id = .updateItem target value → setting.updateValues = true) :
    Traced setting (tree.Holds id) (fun limit => visitKind (visitor limit) id) () := by
  have hsweeps : Sweeps setting ((tree.kind id).demands.map (·.1))
      (fun limit => (tree.kind id).demands.forM (meet (visitor limit))) :=
    .forM fun item hmem => meet_traced hread hchildren hmem
  rw [NodeKind.map_fst_demands] at hsweeps
  refine (hsweeps.traced hread.wellFormed).congr fun limit env s hs => ?_
  have htree : s.context.tree = tree := by rw [hs.context, setting.context_tree]
  have hrange : ∀ root hasAs declared, tree.kind id = .rangeDeclaration root hasAs declared →
      Slot.rangeRoot.admits (tree.kind root) = true := fun root hasAs declared hk => by
    have hid : id < tree.size := Tree.lt_size_of_kind (by rw [hk]; simp)
    exact (hread.schematic.conforms id hid).admits (by rw [hk]; exact List.mem_cons_self)
  have hset : ∀ target value, tree.kind id = .updateItem target value → env.updateValues = true :=
    fun target value hk => hs.updateValues.trans (hvalues target value hk)
  rw [← htree] at huniform hset hrange ⊢
  exact visitKind_uniform hset huniform hrange

omit hread hchildren in
/-- The order of the declarations uses no variable. -/
theorem declarationOrder_traced (setting : Setting tree) (clause : NodeId) :
    Traced setting (fun _ => False) (fun _ : ι => declarationOrder clause) () :=
  .ask_bind (.recordAll (by simp))

/-- **A variable comes into use where it is visited**, if uses count there. -/
theorem variableUse_traced (setting : Setting tree) {name : String} {isVirtual : Bool}
    {path : Option NodeId} (hk : tree.kind id = .identifier name isVirtual path) :
    Traced setting (tree.Holds id)
      (fun limit => variableUse (visitor limit) id name isVirtual path) () := by
  cases isVirtual with
  | true =>
    have hpath : path.toList = tree.children id := by rw [Tree.children, hk]; rfl
    have hrun : ∀ limit, variableUse (visitor limit) id name true path =
        visitAll (visitor limit) (tree.children id) := fun limit => by rw [← hpath]; rfl
    refine (visitChildren_traced hread hchildren setting).congr fun limit env s hs => ?_
    rw [hrun, visitChildren, inTree_run, hs.context, setting.context_tree]
  | false =>
    have hread' : ∀ limit env s, setting.Starts env s →
        variableUse (visitor limit) id name false path env s = (if setting.registers then do
          let isEntity ← ask fun context => (context.metamodel.entity? name).isSome
          if !(isEntity && (← inTree (·.isCompared id))) then use id
        else pure () : Checker Unit) env s := fun limit env s hs => by
      rw [← hs.registers]
      rfl
    refine Traced.congr ?_ hread'
    split
    · refine .ask_bind (.inTree_bind ?_)
      split
      · exact .use .refl
      · exact .pure ()
    · exact .pure ()

/-- **The operands of a chain of connectives** are visited in its place. -/
theorem chainOperands_traced (setting : Setting tree) {connective : Connective} {left right : NodeId}
    (hk : tree.kind id = .logical connective left right) :
    Traced setting (tree.Holds id)
      (fun limit => visitAll (visitor limit) (tree.chainOperands id)) () := by
  have hwf := hread.wellFormed
  obtain ⟨ids, heq, hchain⟩ := Tree.chain_from hwf id left [right]
  have hoperands : tree.chainOperands id = ids ++ [right] := by
    rw [Tree.chainOperands, Tree.chainFrom, hk]
    exact heq
  have hstep := hchain.step hwf hk
  have hvisits : ∀ operand ∈ ids ++ [right], Visits tree visitor operand := by
    refine List.forall_mem_append.mpr ⟨fun operand hmem => ?_, ?_⟩
    · exact (hchildren left (by rw [Tree.children, hk]; simp [NodeKind.children])).of_holds
        (hchain.below operand hmem)
    · simpa using hchildren right (by rw [Tree.children, hk]; simp [NodeKind.children])
  have hsweeps : Sweeps setting ((ids ++ [right]).map fun operand => operand)
      (fun limit => (ids ++ [right]).forM (visitor limit)) :=
    .forM fun operand hmem => (hvisits operand hmem).visit setting
  rw [List.map_id'] at hsweeps
  rw [hoperands]
  refine (hsweeps hstep.apart).mono ?_
  rintro inner ⟨operand, hmem, hinner⟩
  exact (hstep.below operand hmem).trans hinner

/-- **What is done at a node follows a trace**, unless the node is the root of the tree. -/
theorem visitKind_traced (hdescends : Descends tree visitor) (setting : Setting tree)
    (hquery : ∀ statement leftover, tree.kind id ≠ .query statement leftover) :
    Traced setting (tree.Holds id) (fun limit => visitKind (visitor limit) id) () := by
  have hwf := hread.wellFormed
  have hall := visitChildren_traced hread hchildren setting
  have hc : ∀ {child : NodeId}, child ∈ (tree.kind id).children → Visits tree visitor child :=
    hchildren _
  have hholds : ∀ {child : NodeId}, child ∈ (tree.kind id).children → tree.Holds id child :=
    fun hmem => Tree.Holds.refl.of_child hwf hmem
  by_cases huniform : (tree.kind id).isUniform = true ∧
      ∀ target value, tree.kind id = .updateItem target value → setting.updateValues = true
  · exact uniform_traced hread hchildren huniform.1 huniform.2
  have hbasic : ∀ {left right : NodeId}, tree.children id = [left, right] →
      Traced setting (tree.Holds id) (fun limit => basicOperands (visitor limit) left right) () := by
    intro left right heq
    have hsweeps := basicOperands_sweeps hwf setting hdescends (hchildren left (by simp [heq]))
      (hchildren right (by simp [heq]))
    rw [← heq] at hsweeps
    exact hsweeps.traced hwf
  refine .kindOf_bind ?_
  cases hk : tree.kind id <;> rw [hk] at huniform hc hholds
  case query statement leftover => exact absurd hk (hquery statement leftover)
  case selectStatement | updateStatement | deleteStatement => exact hall
  case simpleSelectStatement =>
    refine .inTree_bind ?_
    split
    · exact hall
    · exact checkSubquery_traced (visitChildren_traced hread hchildren _)
  case fromClause | simpleFromClause => exact (declarationOrder_traced setting id).bind_left hall
  case schemaName name =>
    refine .ask_bind ?_
    split
    · next key hkey =>
      exact .recordAt (ProblemKey.ne_traversalTooDeep (QueryContext.schemaName?_isReference hkey))
    · exact .pure ()
  case entityType name =>
    refine .ask_bind ?_
    split
    · exact .recordAt (by simp)
    · exact .pure ()
  case identifier name isVirtual path => exact variableUse_traced hread hchildren setting hk
  case index argument =>
    have hargument := hholds List.mem_cons_self
    refine (((hc List.mem_cons_self).visit setting).lift hargument).bind_right (.kindOf_bind ?_)
    split
    · refine .ask_bind ?_
      split
      · exact .recordAt (by simp)
      · exact .pure ()
    · exact .pure ()
  case logical connective left right =>
    exact .inTree_bind (chainOperands_traced hread hchildren setting hk)
  case path kind root segments dot =>
    have hroot := hholds List.mem_cons_self
    cases kind with
    | stateField => exact statePath_traced hwf setting hk (hc List.mem_cons_self) true
    | collectionValued => exact ((hc List.mem_cons_self).visit setting).lift hroot
  case arithmetic operation left right => exact hbasic (by rw [Tree.children, hk]; rfl)
  case comparison left operator right =>
    cases hordering : operator.isOrdering with
    | true =>
      refine (hbasic (by rw [Tree.children, hk]; rfl)).congr fun limit env s _ => ?_
      show (if operator.isOrdering then _ else _ : Checker Unit) env s = _
      rw [hordering]
      rfl
    | false => exact absurd ⟨by simp [NodeKind.isUniform, hordering], by simp⟩ huniform
  case updateItem target value =>
    have hvalues : setting.updateValues = false := by
      simpa [NodeKind.isUniform] using huniform
    have htarget := hholds List.mem_cons_self
    refine ((updateTarget_traced hwf setting (hc List.mem_cons_self)).lift htarget).bind_right ?_
    refine (Traced.pure ()).congr fun limit env s hs => ?_
    show (if env.updateValues then visitor limit value else pure ()) env s = _
    rw [hs.updateValues, hvalues]
    rfl
  all_goals exact absurd ⟨rfl, by simp⟩ huniform

end

/-- **Every node that is not the root of a tree is visited along a trace**, if visits go one level down at
a time. -/
theorem visits (hread : tree.IsRead) (hdescends : Descends tree visitor) (id : NodeId)
    (hquery : ∀ statement leftover, tree.kind id ≠ .query statement leftover) :
    Visits tree visitor id := by
  have hwf := hread.wellFormed
  induction id using Nat.strong_induction_on with
  | _ id ih =>
    have hchildren : ∀ child ∈ tree.children id, Visits tree visitor child := fun child hc =>
      ih child (hwf.child_lt hc) (hread.query_ne hc)
    intro inner hholds setting
    rcases hholds.cases hwf with rfl | ⟨child, hc, hinner⟩
    · obtain ⟨t, ht⟩ := visitKind_traced hread hchildren hdescends setting hquery
      exact ⟨_, hdescends setting _ t hquery ht⟩
    · exact hchildren child hc inner hinner setting

end Jpql.Check
