import Jpql.Proofs.Check.Finding
import Jpql.Proofs.Reader.Select

/-! # What exactly a check reports

`Check.Records context known p problems` says that the operation `p` reports these problems, in this order
and nothing else, at a place with this context, and that the variables it meets are in `known`. There is
one rule for each way of putting operations together, so that the report of a tree of a known shape is
read off its nodes.

* `Check.Records.bind`, `Records.visitAll_map`: one operation after the other reports one list after the other.
* `Check.records_variable`, `records_range`, `records_select`: the nodes that every selection has.
* `Check.checkTree_eq`: the report of a query, from the report of its statement. -/

namespace Jpql

open Parse (IsVariable SelectsOne Ranges)

namespace Check

/-- **All variables in use are known**, at a place with this context. -/
structure Knows (context : QueryContext) (known : NodeId → Prop) (s : State) : Prop where
  used : ∀ id ∈ s.used, known id
  context : s.context = context

/-- **The operation reports exactly these problems**, and meets known variables only. -/
def Records {α : Type} (context : QueryContext) (known : NodeId → Prop) (p : Checker α)
    (problems : List Problem) : Prop :=
  ∀ env s, Knows context known s →
    Knows context known (p env s).2 ∧ (p env s).2.problems = s.problems ++ problems

variable {context : QueryContext} {known : NodeId → Prop} {visit : Visitor} {id : Nat}
  {problems more : List Problem}

namespace Records

variable {α β : Type} {p : Checker α}

theorem pure {a : α} : Records context known (Pure.pure a) [] :=
  fun _ _ h => ⟨h, (List.append_nil _).symm⟩

/-- **One operation after the other.** -/
theorem bind {f : α → Checker β} (hp : Records context known p problems)
    (hf : ∀ a, Records context known (f a) more) : Records context known (p >>= f) (problems ++ more) := by
  intro env s h
  obtain ⟨hknows, hproblems⟩ := hp env s h
  obtain ⟨hknows', hmore⟩ := hf _ env _ hknows
  refine ⟨hknows', hmore.trans ?_⟩
  rw [hproblems, List.append_assoc]

/-- An operation comes first that reports nothing. -/
theorem bind_left {f : α → Checker β} (hp : Records context known p [])
    (hf : ∀ a, Records context known (f a) problems) : Records context known (p >>= f) problems :=
  hp.bind hf

/-- An operation comes last that reports nothing. -/
theorem bind_right {f : α → Checker β} (hp : Records context known p problems)
    (hf : ∀ a, Records context known (f a) []) : Records context known (p >>= f) problems := by
  have hboth := hp.bind hf
  rwa [List.append_nil] at hboth

theorem discard (h : Records context known p problems) : Records context known (discard p) problems := h

theorem get_bind {f : State → Checker β}
    (h : ∀ s, Knows context known s → Records context known (f s) problems) :
    Records context known (get >>= f) problems := fun env s hs => h s hs env s hs

theorem ask_bind {g : QueryContext → α} {f : α → Checker β}
    (h : Records context known (f (g context)) problems) :
    Records context known (ask g >>= f) problems := by
  intro env s hs
  rw [ask_run, hs.context]
  exact h env s hs

theorem inTree_bind {g : Tree → α} {f : α → Checker β}
    (h : Records context known (f (g context.tree)) problems) :
    Records context known (inTree g >>= f) problems := ask_bind h

theorem kindOf_bind {f : NodeKind → Checker β}
    (h : Records context known (f (context.tree.kind id)) problems) :
    Records context known (kindOf id >>= f) problems := inTree_bind h

theorem recordAll : Records context known (recordAll problems) problems :=
  fun _ _ h => ⟨⟨h.used, h.context⟩, rfl⟩

theorem recordAt {key : ProblemKey} :
    Records context known (recordAt key id) [context.tree.problemAt key id] := inTree_bind recordAll

/-- A use of a known variable is noted. -/
theorem use (hid : known id) : Records context known (use id) [] := by
  intro env s hs
  show Knows context known (if s.used.contains id then s else { s with used := s.used ++ [id] }) ∧
    (if s.used.contains id then s else { s with used := s.used ++ [id] }).problems = _
  split
  · exact ⟨hs, (List.append_nil _).symm⟩
  · refine ⟨⟨fun other hmem => ?_, hs.context⟩, (List.append_nil _).symm⟩
    rcases List.mem_append.mp hmem with hmem | hmem
    · exact hs.used other hmem
    · exact List.mem_singleton.mp hmem ▸ hid

theorem visitAll_cons {ids : List Nat} (h : Records context known (visit id) problems)
    (hrest : Records context known (visitAll visit ids) more) :
    Records context known (visitAll visit (id :: ids)) (problems ++ more) := bind h fun _ => hrest

/-- **Nodes are visited in turn.** -/
theorem visitAll_map {ι : Type} {node : ι → Nat} {told : ι → List Problem} {xs : List ι}
    (h : ∀ x ∈ xs, Records context known (visit (node x)) (told x)) :
    Records context known (visitAll visit (xs.map node)) (xs.flatMap told) := by
  induction xs with
  | nil => exact pure
  | cons x xs ih =>
    rw [List.forall_mem_cons] at h
    exact visitAll_cons h.1 (ih h.2)

theorem visitChildren {kind : NodeKind} (hid : context.tree.kind id = kind)
    (h : Records context known (visitAll visit kind.children) problems) :
    Records context known (Check.visitChildren visit id) problems := by
  subst hid
  exact inTree_bind h

/-- Where a variable is declared, the mode is changed and changed back. -/
theorem visitDeclared (h : Records context known (visit id) problems) :
    Records context known (Check.visitDeclared visit (some id)) problems := by
  have hvisits : Records context known (Check.visitAll visit [id]) problems := h.bind_right fun _ => pure
  intro env s hs
  obtain ⟨hknows, hproblems⟩ := hvisits env { s with registers := false } ⟨hs.used, hs.context⟩
  exact ⟨⟨hknows.used, hknows.context⟩, hproblems⟩

end Records

/-! ## Nodes of a selection -/

end Check

namespace Parse

variable {tree : Tree} {id : Nat} {entity var : String}

/-- A selection of a variable names no result. -/
theorem SelectsOne.resultNames (h : SelectsOne tree.kind id var) : tree.resultNames id = [] := by
  obtain ⟨item, hid, hitem⟩ := h
  rw [Tree.resultNames, hid]
  show [item].filterMap tree.resultName? = []
  rw [List.filterMap_cons, Tree.resultName?, hitem]
  rfl

/-- A range over an entity declares its variable. -/
theorem Ranges.declaration (h : Ranges tree.kind id entity var) (node : Nat) :
    ∃ schema declared, tree.rangeDeclaration id node =
      ⟨.range, node, schema, some entity, some var, some declared, []⟩ := by
  obtain ⟨schema, declared, hid, hschema, hdeclared⟩ := h
  have hname : tree.variableName? (some declared) = some var :=
    Tree.variableName?_eq_some.mpr ⟨_, _, hdeclared⟩
  exact ⟨schema, declared, by simp only [Tree.rangeDeclaration, hid, hschema, hname]⟩

end Parse

namespace Check

variable {context : QueryContext} {known : NodeId → Prop} {visit : Visitor} {id levels : Nat}
  {problems : List Problem} {entity var : String}

/-- A variable that is written in the text is noted, and not reported. -/
theorem records_variable (hknown : known id) (hid : IsVariable context.tree.kind id var) :
    Records context known (visitKind visit id) [] := by
  refine .kindOf_bind ?_
  rw [hid]
  refine .get_bind fun s _ => ?_
  split
  · refine .ask_bind (.inTree_bind ?_)
    split
    · exact .use hknown
    · exact .pure
  · exact .pure

/-- A range over an entity is in order. -/
theorem records_range (hknown : ∀ id, IsVariable context.tree.kind id var → known id)
    (hentity : (context.metamodel.entity? entity).isSome = true)
    (h : Ranges context.tree.kind id entity var) :
    Records context known (visitTo (levels + 2) id) [] := by
  obtain ⟨schema, declared, hid, hschema, hdeclared⟩ := h
  refine .kindOf_bind ?_
  rw [hid]
  have hschema' : Records context known (visitTo (levels + 1) schema) [] := by
    refine .kindOf_bind ?_
    rw [hschema]
    refine .ask_bind ?_
    rw [QueryContext.schemaName?, if_pos hentity]
    exact .pure
  have hroot : Records context known (rangeRoot (visitTo (levels + 1)) schema) [] := by
    refine .kindOf_bind ?_
    rw [hschema]
    exact hschema'
  exact hroot.bind fun _ => .visitDeclared (records_variable (hknown _ hdeclared) hdeclared)

/-- The variable that is selected is in order. -/
theorem records_select (hknown : ∀ id, IsVariable context.tree.kind id var → known id)
    (h : SelectsOne context.tree.kind id var) : Records context known (visitTo (levels + 2) id) [] := by
  obtain ⟨item, hid, hitem⟩ := h
  refine .kindOf_bind ?_
  rw [hid]
  exact .visitChildren hid (.visitAll_cons (records_variable (hknown item hitem) hitem) .pure)

/-! ## The variables of a statement -/

/-- The variables of a statement are in order if they are declared once each, and all that are in use. -/
theorem records_checkVariables {used : List Nat} (honce : context.duplicates = [])
    (hdeclared : ∀ id ∈ used, context.allVariables.contains (context.tree.variableText id) = true) :
    Records context known (checkVariables used) [] := by
  have hundeclared : context.undeclared used = [] := by
    rw [QueryContext.undeclared, List.map_eq_nil_iff, List.filter_eq_nil_iff]
    intro id hid
    rw [hdeclared id hid]
    exact Bool.false_ne_true
  refine .ask_bind ?_
  rw [honce]
  refine Records.recordAll.bind fun _ => .ask_bind ?_
  rw [hundeclared]
  exact .recordAll

/-- **The report of a query** is that of its statement, if the variables of that are in order. -/
theorem checkTree_eq {tree : Tree} {metamodel : Metamodel} {env : Env}
    (hroot : tree.kind tree.root = .query (some id) none) (hlevels : env.maxDepth = levels + 1)
    (hvisit : Records (.ofTree tree metamodel) known (visitTo levels id) problems)
    (hvariables : (tree.kind id).isStatement = true → ∀ used, (∀ node ∈ used, known node) →
      Records (.ofTree tree metamodel) known (checkVariables used) []) :
    checkTree (.ofTree tree metamodel) env = problems := by
  have hstart : Knows (.ofTree tree metamodel) known (.initial (.ofTree tree metamodel)) := ⟨nofun, rfl⟩
  have hcheck : Records (.ofTree tree metamodel) known (visitTo (levels + 1) tree.root) problems := by
    refine .kindOf_bind ?_
    rw [show (QueryContext.ofTree tree metamodel).tree.kind tree.root = _ from hroot]
    refine hvisit.bind_right fun _ => .kindOf_bind ?_
    split
    · next hstatement => exact .get_bind fun s hs => hvariables hstatement _ hs.used
    · exact .pure
  rw [checkTree, hlevels]
  exact (hcheck env _ hstart).2

end Check

end Jpql
