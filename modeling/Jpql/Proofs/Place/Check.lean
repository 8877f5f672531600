import Jpql.Proofs.Check.Demand
import Jpql.Proofs.Place.Scope

/-! # Places of what a check finds

Whatever is wrong with a tree, a check of it only finds problems that lie at nodes of the tree.

* `Check.Confined`: an operation leaves the context as it is and notes nothing outside of the tree.
* `Check.Admits`: a visitor does so at the nodes that suit the context.
* `Check.visitKind_confined`, `Check.visitTo_confined`: one step of a check, and a check of any depth.
* `Tree.IsRead.checkTree_liesIn`: all problems of a check lie in the tree. -/

namespace Jpql

/-- The scopes of a context are those of statements of the tree. -/
structure QueryContext.IsOf (context : QueryContext) (tree : Tree) : Prop where
  tree_eq : context.tree = tree
  scope : ∀ scope ∈ context.scopes, ∃ statement, scope = .ofStatement tree statement

namespace QueryContext.IsOf

variable {context : QueryContext} {tree : Tree} (h : context.IsOf tree)

include h

theorem innermost : ∃ statement, context.innermost = .ofStatement tree statement := by
  refine h.scope _ ?_
  unfold QueryContext.innermost scopes
  cases context.subqueries with
  | nil => exact List.mem_singleton_self _
  | cons scope scopes => exact List.mem_cons_self

theorem enter (subquery : Nat) : (context.enter subquery).IsOf tree where
  tree_eq := h.tree_eq
  scope scope hmem := by
    rcases List.mem_cons.mp hmem with rfl | hmem
    · exact ⟨subquery, by rw [h.tree_eq]⟩
    · exact h.scope scope hmem

/-- **Problems with variables lie at nodes of the tree**: those of variables of the scope, and of those
in use. -/
theorem variables_liesIn (hread : tree.IsRead) {used : List Nat} (hused : ∀ id ∈ used, id < tree.size)
    {problem : Problem} (hmem : problem ∈ context.duplicates ++ context.undeclared used) :
    problem.LiesIn tree := by
  have hnode : ∀ key, ∀ id < tree.size, (context.variableProblem key id).LiesIn tree := by
    intro key id hid
    have hspan : (context.variableProblem key id).span = tree.span id := by rw [← h.tree_eq]; rfl
    exact ⟨hspan ▸ hread.placed.fits id hid, id, rfl, hid, hspan ▸ .refl _⟩
  rcases List.mem_append.mp hmem with hmem | hmem
  · obtain ⟨id, hid, rfl⟩ := List.mem_map.mp hmem
    obtain ⟨statement, hscope⟩ := h.innermost
    have hname : id ∈ (Scope.ofStatement tree statement).names.map (·.2) := by
      rw [← hscope]
      simpa [DeclaredVariables.nodes, DeclaredVariables.empty] using
        (DeclaredVariables.perm_nodes context.innermost .empty).mem_iff.mp
          ((DeclaredVariables.sublist_duplicates _).subset hid)
    exact hnode _ id (hread.lt_of_mem_names hname)
  · obtain ⟨id, hid, rfl⟩ := List.mem_map.mp hmem
    exact hnode _ id (hused id (List.mem_filter.mp hid).1)

end QueryContext.IsOf

namespace Check

/-- **What was noted so far lies in the tree**: problems, and uses of variables. -/
structure State.Inside (s : State) (tree : Tree) : Prop where
  problems : ∀ problem ∈ s.problems, problem.LiesIn tree
  used : ∀ id ∈ s.used, id < tree.size

/-- **An operation is confined to the tree**: it keeps the context, and what it notes lies in the tree. -/
def Confined {α : Type} (tree : Tree) (env : Env) (context : QueryContext) (p : Checker α) : Prop :=
  ∀ s, s.context = context → s.Inside tree →
    (p env s).2.context = context ∧ (p env s).2.Inside tree

/-- **A visitor is confined to the tree** at the nodes that suit a context. -/
def Admits (tree : Tree) (env : Env) (visit : Visitor) : Prop :=
  ∀ context, context.IsOf tree → ∀ id, tree.Suits context id → Confined tree env context (visit id)

variable {α β : Type} {tree : Tree} {env : Env} {context : QueryContext}

/-! ## Composition -/

namespace Confined

theorem pure (a : α) : Confined tree env context (Pure.pure a) := fun _ hcontext hs => ⟨hcontext, hs⟩

theorem bind {p : Checker α} {f : α → Checker β} (h : Confined tree env context p)
    (hf : ∀ a, Confined tree env context (f a)) : Confined tree env context (p >>= f) :=
  fun s hcontext hs => hf _ _ (h s hcontext hs).1 (h s hcontext hs).2

theorem discard {p : Checker α} (h : Confined tree env context p) : Confined tree env context (discard p) :=
  h

theorem ask {f : QueryContext → α} {k : α → Checker β} (h : Confined tree env context (k (f context))) :
    Confined tree env context (Check.ask f >>= k) := fun s hcontext hs => by
  have hrun : (Check.ask f >>= k) env s = k (f context) env s := by rw [← hcontext]; rfl
  rw [hrun]
  exact h s hcontext hs

theorem get {k : State → Checker β}
    (h : ∀ s, s.Inside tree → Confined tree env context (k s)) :
    Confined tree env context (MonadState.get >>= k) := fun s hcontext hs => h s hs s hcontext hs

theorem read {k : Env → Checker β} (h : Confined tree env context (k env)) :
    Confined tree env context (MonadReader.read >>= k) := h

theorem update {f : State → State} (hcontext : ∀ s, (f s).context = s.context)
    (hinside : ∀ s, s.Inside tree → (f s).Inside tree) : Confined tree env context (modify f) :=
  fun s hs hin => ⟨(hcontext s).trans hs, hinside s hin⟩

theorem forM {f : α → Checker Unit} (items : List α) (h : ∀ item ∈ items, Confined tree env context (f item)) :
    Confined tree env context (items.forM f) := by
  induction items with
  | nil => exact .pure _
  | cons item items ih =>
    exact (h item List.mem_cons_self).bind fun _ => ih fun other ho => h other (List.mem_cons_of_mem _ ho)

/-- Only the runs in the context matter. -/
theorem congr {p r : Checker α} (h : Confined tree env context p)
    (hrun : ∀ s, s.context = context → r env s = p env s) : Confined tree env context r := fun s hs hin => by
  rw [hrun s hs]
  exact h s hs hin

end Confined

/-! ## Notes -/

theorem recordAll_confined {problems : List Problem} (h : ∀ problem ∈ problems, problem.LiesIn tree) :
    Confined tree env context (recordAll problems) :=
  .update (fun _ => rfl) fun _ hs =>
    ⟨fun problem hmem => (List.mem_append.mp hmem).elim (hs.problems problem) (h problem), hs.used⟩

theorem use_confined {id : Nat} (hid : id < tree.size) : Confined tree env context (use id) := by
  refine .update (fun s => ?_) fun s hs => ?_
  · split <;> rfl
  · split
    · exact hs
    · refine ⟨hs.problems, fun other hmem => ?_⟩
      rcases List.mem_append.mp hmem with hmem | hmem
      · exact hs.used other hmem
      · rwa [List.mem_singleton.mp hmem]

theorem unuse_confined (id : Nat) : Confined tree env context (unuse id) :=
  .update (fun _ => rfl) fun _ hs =>
    ⟨hs.problems, fun other hmem => hs.used other (List.mem_filter.mp hmem).1⟩

section

variable (hread : tree.IsRead) (hcontext : context.IsOf tree)

include hcontext

theorem Confined.inTree {f : Tree → α} {k : α → Checker β} (h : Confined tree env context (k (f tree))) :
    Confined tree env context (Check.inTree f >>= k) := .ask (by rwa [hcontext.tree_eq])

theorem Confined.kindOf {id : Nat} {k : NodeKind → Checker β}
    (h : Confined tree env context (k (tree.kind id))) :
    Confined tree env context (Check.kindOf id >>= k) := .inTree hcontext h

include hread

/-- A problem at a node. -/
theorem recordAt_confined (key : ProblemKey) {id : Nat} (hid : id < tree.size) :
    Confined tree env context (recordAt key id) := by
  refine .inTree hcontext (recordAll_confined fun problem hmem => ?_)
  rw [List.mem_singleton.mp hmem]
  exact ⟨hread.placed.fits id hid, id, rfl, hid, .refl _⟩

/-- **Variables are looked up.** -/
theorem checkVariables_confined {used : List Nat} (hused : ∀ id ∈ used, id < tree.size) :
    Confined tree env context (checkVariables used) := by
  refine .ask ((recordAll_confined fun problem hmem => ?_).bind fun _ =>
    .ask (recordAll_confined fun problem hmem => ?_))
  · exact hcontext.variables_liesIn hread hused (List.mem_append_left _ hmem)
  · exact hcontext.variables_liesIn hread hused (List.mem_append_right _ hmem)

/-- **The order of the declarations** of a `FROM` clause. -/
theorem declarationOrder_confined {clause : Nat} (hclause : Scope.isFromClause (tree.kind clause) = true)
    (hlt : clause < tree.size) (hdeclarations : context.declarations = tree.fromDeclarations (some clause)) :
    Confined tree env context (declarationOrder clause) := by
  refine .ask (recordAll_confined fun problem hmem => ?_)
  rw [hdeclarations, hcontext.tree_eq] at hmem
  obtain ⟨root, hroot, rfl⟩ := List.mem_map.mp hmem
  obtain ⟨hfits, hinside⟩ := hread.misplaced_inside hclause hroot
  exact ⟨hfits, clause, rfl, hlt, hinside⟩

/-- A node that lies too deep is left out. -/
theorem leaveOut_confined {id : Nat} (hid : id < tree.size) : Confined tree env context (leaveOut id) := by
  refine .get fun s hs => ?_
  split
  · have hmark : Confined tree env context (modify ({ · with exceeded := true })) :=
      .update (fun _ => rfl) fun _ hs => ⟨hs.problems, hs.used⟩
    refine .inTree hcontext (.read (hmark.bind fun _ => recordAll_confined fun problem hmem => ?_))
    rw [List.mem_singleton.mp hmem]
    exact ⟨hread.placed.fits id hid, id, rfl, hid, .refl _⟩
  · exact .pure _

/-! ## Visits -/

variable {visit : Visitor} (hvisit : Admits tree env visit)

include hvisit

omit hread in
theorem visitAll_confined {ids : List Nat} (hids : ∀ id ∈ ids, tree.Suits context id) :
    Confined tree env context (visitAll visit ids) :=
  .forM ids fun id hmem => hvisit context hcontext id (hids id hmem)

omit hread in
theorem visitOption_confined {id : Option Nat} (hid : ∀ node ∈ id, tree.Suits context node) :
    Confined tree env context (visitOption visit id) :=
  .forM _ fun node hmem => hvisit context hcontext node (hid node (Option.mem_toList.mp hmem))

omit hread in
theorem visitChildren_confined {id : Nat} (hids : ∀ child ∈ tree.children id, tree.Suits context child) :
    Confined tree env context (visitChildren visit id) :=
  .inTree hcontext (visitAll_confined hcontext hvisit hids)

omit hread in
theorem visitDeclared_confined {id : Option Nat} (hid : ∀ node ∈ id, tree.Suits context node) :
    Confined tree env context (visitDeclared visit id) := by
  have hmode : ∀ registers, Confined tree env context (modify ({ · with registers })) := fun _ =>
    .update (fun _ => rfl) fun _ hs => ⟨hs.problems, hs.used⟩
  exact .get fun s _ => (hmode false).bind fun _ =>
    (visitOption_confined hcontext hvisit hid).bind fun _ => hmode s.registers

/-- **A subquery is checked in its own scope**, and the scope around it is restored. -/
theorem checkSubquery_confined {id : Nat} (hkind : (tree.kind id).isStatement = true) :
    Confined tree env context (checkSubquery visit id) := by
  intro s hs hin
  have henter := hcontext.enter id
  have hscope : (context.enter id).innermost = .ofStatement tree id := by rw [← hcontext.tree_eq]; rfl
  obtain ⟨hinner, hbelow⟩ := visitChildren_confined henter hvisit
    (fun child hc => hread.suits_of_statement hc hkind hscope)
    { s with context := s.context.enter id } (by rw [hs]) ⟨hin.problems, hin.used⟩
  generalize hrun : (visitChildren visit id env { s with context := s.context.enter id }).2 = t
    at hinner hbelow
  have hlookup : Confined tree env (context.enter id)
      (checkVariables (t.used.filter (!s.used.contains ·))) :=
    checkVariables_confined hread henter fun other hmem => hbelow.used other (List.mem_filter.mp hmem).1
  obtain ⟨hkept, hlooked⟩ := hlookup t hinner hbelow
  have hresult : (checkSubquery visit id env s).2 =
      { (checkVariables (t.used.filter (!s.used.contains ·)) env t).2 with
        context := (checkVariables (t.used.filter (!s.used.contains ·)) env t).2.context.leave
        used := (checkVariables (t.used.filter (!s.used.contains ·)) env t).2.used.filter
          (s.used.contains ·) } := by rw [← hrun]; rfl
  rw [hresult, hkept]
  exact ⟨QueryContext.leave_enter _ _, hlooked.problems, fun other hmem =>
    hlooked.used other (List.mem_filter.mp hmem).1⟩

/-! ## Paths and operands -/

omit hcontext hvisit in
/-- The parts of a path, and the path of a virtual variable, suit every context. -/
theorem suits_of_path {id : Nat} {kind : NodeKind} (hkind : tree.kind id = kind) (hpath : kind.isVariableOrPath = true)
    {child : Nat} (hc : child ∈ kind.children) : tree.Suits context child := by
  subst hkind
  refine (hread.isFree_of_child hc ?_ fun _ _ hk => ?_).suits context
  · cases hk : tree.kind id <;> rw [hk] at hpath <;> first
      | rfl
      | exact absurd hpath Bool.false_ne_true
  · rw [hk] at hpath
    exact absurd hpath Bool.false_ne_true

variable {id : Nat} (hid : tree.Suits context id)

include hid

omit hcontext hvisit in
/-- So does the path behind a node. -/
theorem suits_of_pathBehind {path : Nat} (hpath : tree.pathBehind? id = some path) :
    tree.Suits context path := by
  unfold Tree.pathBehind? at hpath
  split at hpath
  · exact Option.some.inj hpath ▸ hid
  · next hk =>
    obtain rfl := Option.some.inj hpath
    exact suits_of_path hread hk rfl List.mem_cons_self
  · cases hpath

/-- **A state-field path.** A constant of an enum that does not exist is placed at the last segment. -/
theorem statePath_confined (associationAllowed : Bool) :
    Confined tree env context (statePath visit id associationAllowed) := by
  refine .kindOf hcontext ?_
  split
  · next root segments endsWithDot hk =>
    have hroot : tree.Suits context root := suits_of_path hread hk rfl List.mem_cons_self
    refine (hvisit context hcontext root hroot).bind fun _ => .inTree hcontext ?_
    split
    · exact .pure _
    · refine .ask ?_
      cases context.statePath id segments associationAllowed with
      | valid => exact .pure _
      | invalid key => exact (recordAt_confined hread hcontext key hid.lt).bind fun _ => .pure _
      | constant known enum =>
        refine (unuse_confined root).bind fun _ => ?_
        cases known with
        | true => exact .pure _
        | false =>
          refine (recordAll_confined fun problem hmem => ?_).bind fun _ => .pure _
          obtain ⟨last, hlast, rfl⟩ := List.mem_map.mp hmem
          have hsegment : last ∈ (tree.kind id).segments := by
            rw [hk]
            exact List.mem_of_getLast? (Option.mem_toList.mp hlast)
          obtain ⟨hfits, hinside⟩ := hread.placed.segments id hid.lt last hsegment
          exact ⟨hfits, id, rfl, hid.lt, hinside⟩
  · exact (hvisit context hcontext id hid).bind fun _ => .pure _

/-- **A path that must denote a collection.** -/
theorem collectionPath_confined (collectionOnly : Bool) :
    Confined tree env context (collectionPath visit id collectionOnly) := by
  refine .inTree hcontext ?_
  split
  · exact hvisit context hcontext id hid
  · next path hpath =>
    have hbehind := suits_of_pathBehind hread hid hpath
    refine .kindOf hcontext ?_
    split
    · next root _ _ hk =>
      have hroot : tree.Suits context root := suits_of_path hread hk rfl List.mem_cons_self
      refine (hvisit context hcontext root hroot).bind fun _ => .inTree hcontext ?_
      split
      · exact .pure _
      · refine .ask ?_
        split
        · exact recordAt_confined hread hcontext _ hbehind.lt
        · exact .pure _
    · exact .pure _

/-- **The target of a `SET` item.** -/
theorem updateTarget_confined : Confined tree env context (updateTarget visit id) := by
  refine .inTree hcontext ?_
  split
  · exact hvisit context hcontext id hid
  · next path hpath =>
    have hbehind := suits_of_pathBehind hread hid hpath
    refine .kindOf hcontext ?_
    split
    · next root _ _ hk =>
      have hroot : tree.Suits context root := suits_of_path hread hk rfl List.mem_cons_self
      refine (hvisit context hcontext root hroot).bind fun _ => .kindOf hcontext ?_
      split
      · refine .ask ?_
        split
        · exact recordAt_confined hread hcontext _ hbehind.lt
        · exact .pure _
      · exact .pure _
    · exact hvisit context hcontext path hbehind

theorem index_confined : Confined tree env context (index visit id) := by
  refine (hvisit context hcontext id hid).bind fun _ => .kindOf hcontext ?_
  split
  · refine .ask ?_
    split
    · exact recordAt_confined hread hcontext _ hid.lt
    · exact .pure _
  · exact .pure _

omit hcontext hvisit in
theorem suits_of_statePathBehind {path : Nat} (hpath : tree.statePathBehind? id = some path) :
    tree.Suits context path :=
  suits_of_pathBehind hread hid (Option.filter_eq_some_iff.mp hpath).1

theorem basicPath_confined : Confined tree env context (basicPath visit id) := by
  refine .inTree hcontext ?_
  split
  · next path hpath =>
    exact statePath_confined hread hcontext hvisit (suits_of_statePathBehind hread hid hpath) false
  · exact .pure _

theorem basicOperand_confined : Confined tree env context (basicOperand visit id) := by
  refine .inTree hcontext ?_
  split
  · next path hpath =>
    exact (statePath_confined hread hcontext hvisit (suits_of_statePathBehind hread hid hpath) false).discard
  · exact hvisit context hcontext id hid

theorem basicOperands_confined {other : Nat} (hother : tree.Suits context other) :
    Confined tree env context (basicOperands visit id other) := by
  have hrest : ∀ valid : Bool, ∀ node, tree.Suits context node →
      Confined tree env context (if valid then visit node else pure ()) := by
    intro valid node hnode
    split
    · exact hvisit context hcontext node hnode
    · exact .pure _
  refine (basicPath_confined hread hcontext hvisit hid).bind fun left =>
    (basicPath_confined hread hcontext hvisit hother).bind fun right => ?_
  cases left with
  | false => exact hrest right other hother
  | true => exact (hvisit context hcontext id hid).bind fun _ => hrest right other hother

/-! ## Nodes -/

theorem variableUse_confined {name : String} {isVirtual : Bool} {path : Option Nat}
    (hk : tree.kind id = .identifier name isVirtual path) :
    Confined tree env context (variableUse visit id name isVirtual path) := by
  unfold variableUse
  split
  · refine visitOption_confined hcontext hvisit fun node hmem => ?_
    obtain rfl : path = some node := hmem
    exact suits_of_path hread hk (Bool.or_true _) List.mem_cons_self
  · refine .get fun s _ => ?_
    split
    · refine .ask (.inTree hcontext ?_)
      split
      · exact use_confined hid.lt
      · exact .pure _
    · exact .pure _

theorem rangeRoot_confined : Confined tree env context (rangeRoot visit id) := by
  refine .kindOf hcontext ?_
  split
  · exact collectionPath_confined hread hcontext hvisit hid false
  · exact hvisit context hcontext id hid

/-- **What a range goes over, or a join adds.** -/
theorem association_confined : Confined tree env context (association visit id) := by
  refine .kindOf hcontext ?_
  split
  · next inner hasAs entityType hk =>
    have hfree : ∀ child ∈ [inner, entityType], tree.Suits context child := by
      intro child hc
      have hchild : child ∈ tree.children id := by
        rw [Tree.children, hk]
        exact hc
      exact (hread.isFree_of_child hchild (by rw [hk]; rfl) (by rw [hk]; simp)).suits context
    exact (hvisit context hcontext entityType (hfree entityType (by simp))).bind fun _ =>
      collectionPath_confined hread hcontext hvisit (hfree inner (by simp)) false
  · exact collectionPath_confined hread hcontext hvisit hid false

/-- **A node is met**, whatever is asked of it. -/
theorem meet_confined (demand : Demand) : Confined tree env context (meet visit (id, demand)) := by
  cases demand with
  | value => exact hvisit context hcontext id hid
  | basic => exact basicOperand_confined hread hcontext hvisit hid
  | association => exact association_confined hread hcontext hvisit hid
  | collection => exact collectionPath_confined hread hcontext hvisit hid true
  | target => exact updateTarget_confined hread hcontext hvisit hid
  | declared =>
    refine visitDeclared_confined hcontext hvisit fun node hmem => ?_
    obtain rfl := Option.some.inj hmem
    exact hid

omit hcontext hvisit in
/-- **The operands of a chain of connectives** suit what the chain does. -/
theorem suits_of_mem_chain (depth : Nat) {rest : List Nat} (hrest : ∀ node ∈ rest, tree.Suits context node) :
    ∀ node ∈ tree.chainFrom depth id rest, tree.Suits context node := by
  have hcons : ∀ {first : Nat}, tree.Suits context first → ∀ {rest : List Nat},
      (∀ node ∈ rest, tree.Suits context node) → ∀ node ∈ first :: rest, tree.Suits context node := by
    intro first hfirst rest hrest node hmem
    rcases List.mem_cons.mp hmem with rfl | hmem
    · exact hfirst
    · exact hrest node hmem
  induction depth generalizing id rest with
  | zero => exact hcons hid hrest
  | succ depth ih =>
    unfold Tree.chainFrom
    split
    · next left right hk =>
      have hfree : ∀ child ∈ [left, right], tree.Suits context child := by
        intro child hc
        have hchild : child ∈ tree.children id := by
          rw [Tree.children, hk]
          exact hc
        exact (hread.isFree_of_child hchild (by rw [hk]; rfl) (by rw [hk]; simp)).suits context
      exact ih (hfree left List.mem_cons_self)
        (hcons (hfree right (List.mem_cons_of_mem _ List.mem_cons_self)) hrest)
    · exact hcons hid hrest

/-- **What is done at a node** keeps the context and notes nothing outside of the tree. -/
theorem visitKind_confined : Confined tree env context (visitKind visit id) := by
  have hfree : (tree.kind id).isStatement = false → (∀ a b, tree.kind id ≠ .query a b) →
      ∀ child ∈ (tree.kind id).children, tree.Suits context child := fun hkind hquery child hc =>
    (hread.isFree_of_child hc hkind hquery).suits context
  by_cases hmet : (tree.kind id).isMet = true
  · have hkind := NodeKind.not_isStatement_of_isUniform (NodeKind.isUniform_of_isMet hmet)
    have hquery : ∀ a b, tree.kind id ≠ .query a b := fun a b hk => by
      rw [hk] at hmet
      cases hmet
    have hall : Confined tree env context ((tree.kind id).demands.forM (meet visit)) := .forM _
      fun item hmem => meet_confined hread hcontext hvisit
        (hfree hkind hquery item.1 (NodeKind.mem_children_of_mem_demands hmem)) item.2
    refine hall.congr fun s hs => ?_
    have htree : s.context.tree = tree := by rw [hs, hcontext.tree_eq]
    rw [visitKind_met (by rwa [htree]), htree]
  have hpart : (tree.kind id).isStatement = true →
      context.innermost = .ofStatement tree id →
      ∀ child ∈ (tree.kind id).children, tree.Suits context child := fun hkind hscope child hc =>
    hread.suits_of_statement hc hkind hscope
  have hchildren : (∀ child ∈ (tree.kind id).children, tree.Suits context child) →
      Confined tree env context (visitChildren visit id) := visitChildren_confined hcontext hvisit
  have hat := hvisit context hcontext
  refine .kindOf hcontext ?_
  cases hk : tree.kind id <;> rw [hk] at hfree hpart hchildren
  case query statement leftover =>
    cases statement with
    | none => exact .pure _
    | some statement =>
      refine (hat statement (hread.suits_of_query hk (hid.query statement leftover hk))).bind fun _ =>
        .kindOf hcontext ?_
      split
      · exact .get fun s hs => checkVariables_confined hread hcontext hs.used
      · exact .pure _
  case selectStatement | updateStatement | deleteStatement =>
    exact hchildren (hpart rfl (hid.statement (by rw [hk]; rfl) (.inl (by rw [hk]; rfl))))
  case simpleSelectStatement =>
    refine .inTree hcontext ?_
    split
    · next htop =>
      exact hchildren (hpart rfl (hid.statement (by rw [hk]; rfl) (.inr (by simpa using htop))))
    · exact checkSubquery_confined hread hcontext hvisit (by rw [hk]; rfl)
  case fromClause | simpleFromClause =>
    have hclause : Scope.isFromClause (tree.kind id) = true := by rw [hk]; rfl
    exact (declarationOrder_confined hread hcontext hclause hid.lt (hid.clause hclause)).bind fun _ =>
      hchildren (hfree rfl (by simp))
  all_goals replace hfree := hfree rfl (by simp)
  case rangeDeclaration root hasAs declared =>
    exact (rangeRoot_confined hread hcontext hvisit (hfree root List.mem_cons_self)).bind fun _ =>
      visitDeclared_confined hcontext hvisit fun node hmem => hfree node (by simp_all [NodeKind.children])
  case schemaName name =>
    refine .ask ?_
    split
    · exact recordAt_confined hread hcontext _ hid.lt
    · exact .pure _
  case identifier name isVirtual path =>
    exact variableUse_confined hread hcontext hvisit hid hk
  case entityType name =>
    refine .ask ?_
    split
    · exact recordAt_confined hread hcontext _ hid.lt
    · exact .pure _
  case updateItem target value =>
    refine (updateTarget_confined hread hcontext hvisit (hfree target List.mem_cons_self)).bind fun _ =>
      .read ?_
    split
    · exact hat value (hfree value (by simp [NodeKind.children]))
    · exact .pure _
  case comparison left operator right =>
    have hordering : operator.isOrdering = true := by
      simpa [hk, NodeKind.isMet, NodeKind.isUniform] using hmet
    dsimp only
    rw [if_pos hordering]
    exact basicOperands_confined hread hcontext hvisit (hfree left List.mem_cons_self)
      (hfree right (by simp [NodeKind.children]))
  case arithmetic operation left right =>
    exact basicOperands_confined hread hcontext hvisit (hfree left List.mem_cons_self)
      (hfree right (by simp [NodeKind.children]))
  case index argument =>
    exact index_confined hread hcontext hvisit (hfree argument List.mem_cons_self)
  case logical connective left right =>
    exact .inTree hcontext (visitAll_confined hcontext hvisit
      (suits_of_mem_chain hread hid _ fun _ hmem => absurd hmem List.not_mem_nil))
  case path kind root segments endsWithDot =>
    cases kind with
    | stateField => exact (statePath_confined hread hcontext hvisit hid true).discard
    | collectionValued => exact hat root (hfree root List.mem_cons_self)
  all_goals exact absurd (by rw [hk]; rfl) hmet

end

/-- **A check of any depth** keeps the context and notes nothing outside of the tree. -/
theorem visitTo_confined (hread : tree.IsRead) (levels : Nat) : Admits tree env (visitTo levels) := by
  induction levels with
  | zero => exact fun context hcontext id hid => leaveOut_confined hread hcontext hid.lt
  | succ levels ih => exact fun context hcontext id hid => visitKind_confined hread hcontext ih hid

end Check

/-- **All problems of a check lie in the tree.** -/
theorem Tree.IsRead.checkTree_liesIn {tree : Tree} (h : tree.IsRead) (metamodel : Metamodel)
    (env : Check.Env) : ∀ problem ∈ checkTree (.ofTree tree metamodel) env, problem.LiesIn tree := by
  have hcontext : (QueryContext.ofTree tree metamodel).IsOf tree := by
    refine ⟨rfl, fun scope hmem => ⟨QueryContext.statementOf tree, ?_⟩⟩
    exact List.mem_singleton.mp hmem
  obtain ⟨statement, leftover, hroot⟩ := h.root
  have hsuits : tree.Suits (.ofTree tree metamodel) tree.root := by
    refine ⟨h.placed.root, fun hclause => ?_, fun inner rest hk => ?_, fun hkind => ?_⟩
    · rw [hroot] at hclause
      exact absurd hclause Bool.false_ne_true
    · show Scope.ofStatement tree (QueryContext.statementOf tree) = _
      rw [QueryContext.statementOf, hk]
    · rw [hroot] at hkind
      exact absurd hkind Bool.false_ne_true
  have hvisit : Check.Confined tree env (.ofTree tree metamodel) (Check.visitTo env.maxDepth tree.root) :=
    Check.visitTo_confined h env.maxDepth _ hcontext tree.root hsuits
  exact (hvisit _ rfl ⟨fun _ hmem => absurd hmem List.not_mem_nil,
    fun _ hmem => absurd hmem List.not_mem_nil⟩).2.problems

end Jpql
