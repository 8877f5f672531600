import Jpql.Proofs.Chain.Node
import Jpql.Proofs.Depth.Visit
import Jpql.Proofs.Place.Validate
import Jpql.Proofs.Scope.Visible
import Mathlib.Data.Fintype.EquivFin

/-! # Visits are balanced

Whatever a check has met before, a visit leaves the place as it found it, and a subquery leaves no trace
of the variables used in it. The number of levels left is no part of the state: a visit hands it down,
less one, to every visit that is made in its course.

* `Check.Meets`: in the course of an operation a node is visited in some state.
* `Check.Reached`: the visits of a check, each with the number of levels left and the state it starts in.
* `Check.Restores`: what a visit leaves behind.
* `Check.OnTrack`: a visit starts where no variable below its node is in use, unless the visit would bring
  it into use anyway.
* `Check.Reached.onTrack`: the visits of a check do, those to the root aside. A visitor that reports where
  no track leads is never heard, since all runs along a track find the same.
* `validate_balanced`: so all visits are balanced, for every text. -/

namespace Jpql

namespace Check

/-! ### Visits of a check -/

open scoped Classical in
/-- The visitor that reports a problem where it is called on a node in a state, and goes on as before. -/
noncomputable def reporting (visit : Visitor) (node : NodeId) (env : Env) (state : State)
    (problem : Problem) : Visitor := fun id env' s =>
  if id = node ∧ env' = env ∧ s = state then (recordAll [problem] >>= fun _ => visit id) env' s
  else visit id env' s

/-- **In the course of an operation a node is visited in a state**: whatever is reported there is among
the problems in the end. -/
def Meets (op : Visitor → Checker Unit) (visit : Visitor) (env : Env) (s : State) (node : NodeId)
    (state : State) : Prop :=
  ∀ problem, problem ∈ (op (reporting visit node env state problem) env s).2.problems

/-- **The visits of a check**, with the number of levels left for the node and the nodes below. -/
inductive Reached (context : QueryContext) (env : Env) : (levels : Nat) → NodeId → State → Prop
  | root : Reached context env env.maxDepth context.tree.root (.initial context)
  | met {levels : Nat} {id child : NodeId} {s t : State} (h : Reached context env (levels + 1) id s)
      (hmeets : Meets (visitKind · id) (visitTo levels) env s child t) :
      Reached context env levels child t

/-- **What a visit leaves behind.** The place is the one it started in, problems were only added, and so
were variables in use, each of them once and none that was in use before. -/
structure Restores (s t : State) : Prop where
  context : t.context = s.context
  registers : t.registers = s.registers
  problems : s.problems <+: t.problems
  used : ∃ new, t.used = s.used ++ new ∧ new.Nodup ∧ ∀ id ∈ new, id ∉ s.used

/-- Elsewhere nothing is reported. -/
theorem reporting_eq {visit : Visitor} {id node : NodeId} {env env' : Env} {s state : State}
    {problem : Problem} (h : ¬(id = node ∧ env' = env ∧ s = state)) :
    reporting visit node env state problem id env' s = visit id env' s := if_neg h

/-- Who reports is as balanced as the visitor. -/
theorem Balanced.reporting {tree : Tree} {visit : Visitor} {id node : NodeId} {env : Env} {state : State}
    {problem : Problem} (h : Balanced tree (visit id)) :
    Balanced tree (Check.reporting visit node env state problem id) := by
  have hreport : Balanced tree (recordAll [problem] >>= fun _ => visit id) :=
    Extends.recordAll.left.bind fun _ => h
  refine ⟨fun env' s hs => ?_, fun env' s hs => ?_⟩ <;> unfold Check.reporting <;> split
  · exact hreport.steady env' s hs
  · exact h.steady env' s hs
  · exact hreport.latch env' s hs
  · exact h.latch env' s hs

/-- What is reported is not taken back. -/
theorem mem_problems_of_reporting {tree : Tree} {p : Checker Unit} {visit : Visitor} {node : NodeId}
    {env : Env} {state : State} {problem : Problem} (h : Balanced tree (visit node))
    (hp : Balanced tree p) (hs : state.context.tree = tree) :
    problem ∈ ((reporting visit node env state problem node >>= fun _ => p) env state).2.problems := by
  rw [bind_run, show reporting visit node env state problem node env state =
    (recordAll [problem] >>= fun _ => visit node) env state from if_pos ⟨rfl, rfl, rfl⟩, bind_run]
  have hvisit := h.steady env (recordAll [problem] env state).2 hs
  have hrest := hp.steady env _ (hvisit.context ▸ hs)
  exact (hvisit.problems.trans hrest.problems).subset (List.mem_append_right _ List.mem_cons_self)

/-- **Nodes that are visited in turn are each visited in some state.** -/
theorem exists_meets {tree : Tree} (hwf : tree.WellFormed) (levels : Nat) {ids : List NodeId}
    {child : NodeId} (hc : child ∈ ids) (env : Env) {s : State} (hs : s.context.tree = tree) :
    ∃ state, Meets (fun visit => visitAll visit ids) (visitTo levels) env s child state := by
  have hkept : ∀ problem state ids, Balanced tree
      (visitAll (reporting (visitTo levels) child env state problem) ids) := fun _ _ _ =>
    .forM fun id _ => .reporting (visitTo_balanced hwf levels id)
  induction ids generalizing s with
  | nil => cases hc
  | cons first rest ih =>
    have hfirst := visitTo_balanced hwf levels first
    rcases List.mem_cons.mp hc with rfl | hc
    · exact ⟨s, fun problem => mem_problems_of_reporting hfirst (hkept problem s rest) hs⟩
    · obtain ⟨state, hmeets⟩ := ih hc (s := (visitTo levels first env s).2)
        (by rw [(hfirst.steady env s hs).context, hs])
      refine ⟨state, fun problem => ?_⟩
      by_cases hnow : first = child ∧ env = env ∧ s = state
      · obtain ⟨rfl, -, rfl⟩ := hnow
        exact mem_problems_of_reporting hfirst (hkept problem s rest) hs
      · show problem ∈ (visitAll _ rest env (reporting _ child env state problem first env s).2).2.problems
        rw [reporting_eq hnow]
        exact hmeets problem

/-! ### Visits along a trace -/

/-- Of several problems there is always another one. -/
theorem exists_unreported (problems : List Problem) :
    ∃ problem ∉ problems, problem.key ≠ .traversalTooDeep := by
  obtain ⟨start, hnew⟩ := Infinite.exists_notMem_finset (problems.map (·.span.start)).toFinset
  refine ⟨⟨.statePathInvalidConstant, [], ⟨start, start⟩, none⟩, fun hmem => hnew ?_, by simp⟩
  exact List.mem_toFinset.mpr (List.mem_map_of_mem hmem)

/-- What is noted is added, as far as it is new. -/
theorem note_eq_append {used ids : List NodeId} (hnodup : ids.Nodup) :
    note used ids = used ++ ids.filter (!used.contains ·) := by
  rw [← note_filter (p := (!used.contains ·)) (by simp)]
  exact note_fresh (hnodup.filter _) (by simp)

section

variable {tree : Tree}

/-- **Two traces of one operation** bring the same variables into use. -/
theorem Tracks.mem_nodes {α : Type} {setting : Setting tree} {N M : NodeId → Prop}
    {p : Nat → Checker α} {a b : α} {t u : Trace} (ht : Tracks setting N p a t)
    (hu : Tracks setting M p b u) {id : NodeId} (hid : id ∈ t.nodes) : id ∈ u.nodes := by
  obtain ⟨depth, hmem⟩ := Trace.mem_nodes.mp hid
  let env : Env := ⟨setting.updateValues, 0⟩
  let s : State := ⟨setting.context, [], [], setting.registers, false⟩
  have hs : setting.Starts env s := ⟨rfl, rfl, rfl⟩
  have hused := (ht.run depth env s hs (by simp [s])).2.used
  rw [(hu.run depth env s hs (by simp [s])).2.used] at hused
  have hnoted : id ∈ note [] (upTo depth u.uses) :=
    hused ▸ mem_note.mpr (.inr (mem_upTo.mpr ⟨depth, Nat.le_refl _, hmem⟩))
  exact Trace.mem_nodes_of_mem_upTo ((mem_note.mp hnoted).resolve_left List.not_mem_nil)

/-- **A visit starts on its track**: of the variables in use, those below the node would come into use
anyway. -/
structure OnTrack (tree : Tree) (env : Env) (id : NodeId) (s : State) : Prop where
  query_ne : ∀ statement leftover, tree.kind id ≠ .query statement leftover
  clear : ∃ (setting : Setting tree) (t : Trace), setting.Starts env s ∧
    Tracks setting (tree.Holds id) (fun levels => visitTo levels id) () t ∧
    ∀ node ∈ s.used, tree.Holds id node → node ∈ t.nodes

/-- What visits a node for a number of levels, and may report where it gets to a state. -/
noncomputable def watching (node : NodeId) (env : Env) (state : State) :
    Nat × Option Problem → Visitor
  | (levels, none) => visitTo levels
  | (levels, some problem) => reporting (visitTo levels) node env state problem

instance {α : Type} : Limit (Nat × α) where
  levels limit := limit.1

/-- **A visitor that reports off the track does so nowhere** on it. -/
theorem watching_descends {env : Env} {node : NodeId} {state : State}
    (hoff : ¬OnTrack tree env node state) : Descends tree (watching node env state) := by
  intro setting id t hquery h
  have hplain : Tracks setting (tree.Holds id) (fun levels => visitTo levels id) () t.deeper :=
    visitTo_descends setting id t hquery ⟨h.sound, h.within, fun levels => h.run (levels, none)⟩
  refine ⟨hplain.sound, hplain.within, fun ⟨levels, problem?⟩ env' s hs hclear => ?_⟩
  cases problem? with
  | none => exact hplain.run levels env' s hs hclear
  | some problem =>
    have hne : ¬(id = node ∧ env' = env ∧ s = state) := by
      rintro ⟨rfl, rfl, rfl⟩
      exact hoff ⟨hquery, setting, _, hs, hplain, hclear⟩
    show (reporting (visitTo levels) node env state problem id env' s).1 = _ ∧
      t.deeper.Run levels s (reporting (visitTo levels) node env state problem id env' s).2
    rw [reporting_eq hne]
    exact hplain.run levels env' s hs hclear

namespace OnTrack

variable {env : Env} {id : NodeId} {s : State}

/-- **From a node on its track only nodes on their tracks are visited.** If one were off, nothing that is
reported there would be found. -/
theorem meets (hread : tree.IsRead) (h : OnTrack tree env id s) {levels : Nat} {child : NodeId}
    {state : State} (hmeets : Meets (visitKind · id) (visitTo levels) env s child state) :
    OnTrack tree env child state := by
  by_contra hoff
  obtain ⟨hquery, setting, t, hs, ht, hclear⟩ := h
  have hdescends := watching_descends hoff
  obtain ⟨u, hu⟩ := visitKind_traced hread
    (fun child hc => visits hread hdescends child (hread.query_ne hc)) hdescends setting hquery
  have hsame : Tracks setting (tree.Holds id) (fun levels => visitTo levels id) () u.deeper :=
    visitTo_descends setting id u hquery ⟨hu.sound, hu.within, fun levels => hu.run (levels, none)⟩
  obtain ⟨problem, hnew, hkey⟩ := exists_unreported (faults s.problems ++ upTo levels u.found)
  have hrun := (hu.run (levels, some problem) env s hs fun node hnode hheld => by
    have := ht.mem_nodes hsame (hclear node hnode hheld)
    rwa [Trace.nodes_deeper] at this).2
  refine hnew ?_
  rw [show upTo levels u.found = upTo (Limit.levels (levels, some problem)) u.found from rfl,
    ← hrun.found]
  exact List.mem_filter.mpr ⟨hmeets problem, by simpa using hkey⟩

/-- **What a visit on its track leaves behind.** -/
theorem restores (hread : tree.IsRead) (h : OnTrack tree env id s) (levels : Nat) :
    Restores s (visitTo levels id env s).2 := by
  obtain ⟨-, setting, t, hs, ht, hclear⟩ := h
  obtain ⟨-, hrun⟩ := ht.run levels env s hs hclear
  have htree : s.context.tree = tree := by rw [hs.context, setting.context_tree]
  refine ⟨hrun.context, hrun.registers,
    ((visitTo_balanced hread.wellFormed levels id).steady env s htree).problems, _,
    hrun.used.trans (note_eq_append (ht.sound.nodup_upTo levels)),
    (ht.sound.nodup_upTo levels).filter _, ?_⟩
  simp

/-- **A subquery leaves the variables in use as they were.** -/
theorem used_subquery (hread : tree.IsRead) (h : OnTrack tree env id s) (levels : Nat)
    (hsubquery : (tree.kind id).isSubquery = true) (hroot : tree.parent? id ≠ some tree.root) :
    (visitTo levels id env s).2.used = s.used := by
  obtain ⟨new, hused, -, hnew⟩ := (h.restores hread levels).used
  obtain ⟨-, setting, -, hs, -⟩ := h
  have htree : s.context.tree = tree := by rw [hs.context, setting.context_tree]
  cases levels with
  | zero =>
    show (leaveOut id env s).2.used = s.used
    rw [leaveOut_run]
    split <;> rfl
  | succ levels =>
    have hrun : visitTo (levels + 1) id env s = checkSubquery (visitTo levels) id env s := by
      cases hk : tree.kind id with
      | simpleSelectStatement =>
        rw [visitTo, visitKind, kindOf_run, htree, hk]
        show (inTree _ >>= _) env s = _
        rw [inTree_run, htree, if_neg (by simpa using hroot)]
      | _ =>
        rw [hk] at hsubquery
        cases hsubquery
    -- At the end only variables are left that were in use before.
    have hold : new = [] := List.eq_nil_iff_forall_not_mem.mpr fun node hnode => by
      have hmem : node ∈ (visitTo (levels + 1) id env s).2.used :=
        hused ▸ List.mem_append_right _ hnode
      rw [hrun, checkSubquery_run] at hmem
      exact hnew node hnode (by simpa using (List.mem_filter.mp hmem).2)
    rw [hused, hold, List.append_nil]

end OnTrack

/-! ### A whole check -/

variable {metamodel : Metamodel} {env : Env}

/-- **The statement of a tree starts on its track**, if it is visited first. -/
theorem onTrack_statement (hread : tree.IsRead) {statement : NodeId} {leftover : Option NodeId}
    (hroot : tree.kind tree.root = .query (some statement) leftover) :
    OnTrack tree env statement (.initial (.ofTree tree metamodel)) := by
  have hc : statement ∈ tree.children tree.root := by
    rw [Tree.children, hroot]
    exact List.mem_cons_self
  have hquery := hread.query_ne hc
  obtain ⟨t, ht⟩ := (visits hread visitTo_descends statement hquery).visit
    ⟨.ofTree tree metamodel, rfl, true, env.updateValues⟩
  exact ⟨hquery, _, t, ⟨rfl, rfl, rfl⟩, ht, fun _ hmem => absurd hmem List.not_mem_nil⟩

/-- At the root the statement is visited, and its variables are looked up. -/
theorem visitKind_query {visit : Visitor} {id statement : NodeId} {leftover : Option NodeId} {s : State}
    (hk : s.context.tree.kind id = .query (some statement) leftover) :
    visitKind visit id env s = (visit statement >>= fun _ => kindOf statement >>= fun kind =>
      if kind.isStatement then get >>= fun state => checkVariables state.used else pure ()) env s := by
  rw [visitKind, kindOf_run, hk]

/-- **From the root only its statement is visited.** -/
theorem onTrack_of_meets_root (hread : tree.IsRead) {levels : Nat} {child : NodeId} {state : State}
    (hmeets : Meets (visitKind · tree.root) (visitTo levels) env (.initial (.ofTree tree metamodel)) child
      state) :
    OnTrack tree env child state := by
  by_contra hoff
  obtain ⟨statement?, leftover, hroot⟩ := hread.root
  let s : State := .initial (.ofTree tree metamodel)
  have hkind : s.context.tree.kind tree.root = .query statement? leftover := hroot
  have hsame : ∀ problem, visitKind (reporting (visitTo levels) child env state problem) tree.root env s =
      visitKind (visitTo levels) tree.root env s := by
    intro problem
    cases statement? with
    | none =>
      rw [visitKind, kindOf_run, visitKind, kindOf_run, hkind]
    | some statement =>
      have hne : ¬(statement = child ∧ env = env ∧ s = state) := by
        rintro ⟨rfl, -, rfl⟩
        exact hoff (onTrack_statement hread hroot)
      rw [visitKind_query hkind, visitKind_query hkind, bind_run, reporting_eq hne]
      rfl
  obtain ⟨problem, hnew, -⟩ := exists_unreported (visitKind (visitTo levels) tree.root env s).2.problems
  exact hnew (hsame problem ▸ hmeets problem)

/-- **Every visit of a check is to the root or on its track.** -/
theorem Reached.onTrack (hread : tree.IsRead) {levels : Nat} {id : NodeId} {s : State}
    (h : Reached (.ofTree tree metamodel) env levels id s) :
    id = tree.root ∧ s = .initial (.ofTree tree metamodel) ∨ OnTrack tree env id s := by
  induction h with
  | root => exact .inl ⟨rfl, rfl⟩
  | met _ hmeets ih =>
    refine .inr ?_
    rcases ih with ⟨rfl, rfl⟩ | htrack
    · exact onTrack_of_meets_root hread hmeets
    · exact htrack.meets hread hmeets

/-- The states of a check are about one tree. -/
theorem Reached.context_tree (hread : tree.IsRead) {levels : Nat} {id : NodeId} {s : State}
    (h : Reached (.ofTree tree metamodel) env levels id s) : s.context.tree = tree := by
  rcases h.onTrack hread with ⟨-, rfl⟩ | ⟨-, setting, -, hs, -⟩
  · rfl
  · rw [hs.context, setting.context_tree]

/-- **Where the children of a node are visited in turn**, each of them is. -/
theorem Reached.child (hread : tree.IsRead) {levels : Nat} {id child : NodeId} {s : State}
    (h : Reached (.ofTree tree metamodel) env (levels + 1) id s)
    (hvisit : ∀ visit s, s.context.tree = tree → visitKind visit id env s = visitChildren visit id env s)
    (hc : child ∈ tree.children id) :
    ∃ state, Reached (.ofTree tree metamodel) env levels child state := by
  have hs := h.context_tree hread
  obtain ⟨state, hmeets⟩ := exists_meets hread.wellFormed levels hc env hs
  refine ⟨state, .met h fun problem => ?_⟩
  show problem ∈ (visitKind _ id env s).2.problems
  rw [hvisit _ s hs, visitChildren, inTree_run, hs]
  exact hmeets problem

/-- **The statement of a tree is visited first.** -/
theorem reached_statement (hread : tree.IsRead) {statement : NodeId} {leftover : Option NodeId}
    (hroot : tree.kind tree.root = .query (some statement) leftover) {levels : Nat}
    (hdepth : env.maxDepth = levels + 1) :
    Reached (.ofTree tree metamodel) env levels statement (.initial (.ofTree tree metamodel)) := by
  have hstart : Reached (.ofTree tree metamodel) env (levels + 1) tree.root
      (.initial (.ofTree tree metamodel)) := hdepth ▸ .root
  refine .met hstart fun problem => ?_
  show problem ∈ (visitKind _ tree.root env _).2.problems
  rw [visitKind_query hroot]
  refine mem_problems_of_reporting (visitTo_balanced hread.wellFormed levels statement)
    (.inTree_bind ?_) rfl
  split
  · exact Extends.lookUp.left
  · exact .pure

/-- **What the visit to the root leaves behind.** -/
theorem restores_root (hread : tree.IsRead) (levels : Nat) :
    Restores (.initial (.ofTree tree metamodel))
      (visitTo levels tree.root env (.initial (.ofTree tree metamodel))).2 := by
  let s : State := .initial (.ofTree tree metamodel)
  have hsteady := (visitTo_balanced hread.wellFormed levels tree.root).steady env s rfl
  have hnodup : (visitTo levels tree.root env s).2.used.Nodup := by
    obtain ⟨statement?, leftover, hroot⟩ := hread.root
    have hkind : s.context.tree.kind tree.root = .query statement? leftover := hroot
    cases levels with
    | zero => exact List.nodup_nil
    | succ levels =>
      rw [visitTo]
      cases statement? with
      | none =>
        rw [visitKind, kindOf_run, hkind]
        exact List.nodup_nil
      | some statement =>
        have htrack : OnTrack tree env statement s := onTrack_statement hread hroot
        obtain ⟨new, hused, hnew, -⟩ := (htrack.restores hread levels).used
        have hstatement : (visitTo levels statement env s).2.used.Nodup := hused ▸ hnew
        rw [visitKind_query hkind, bind_run, kindOf_run]
        split
        · exact hstatement
        · exact hstatement
  exact ⟨hsteady.context, hsteady.registers, hsteady.problems, _, rfl, hnodup,
    fun _ _ => List.not_mem_nil⟩

end

end Check

/-- **Visits are balanced, and subqueries leave no trace.** Whatever the text is, and from whatever rule
it is read, the check of its tree is a visit to the root; and every visit in its course leaves the place
as it was, only adds problems, and adds variables in use behind those that were in use before. A visit to
a subquery adds none. -/
theorem validate_balanced (source rule : String) (metamodel : Metamodel) (options : ValidationOptions)
    (hrule : (Grammar.standard.rule? rule).isSome = true) :
    ∃ parsed, parse source rule options.maxNestingDepth = .ok parsed ∧
      let context : QueryContext := .ofTree parsed.tree metamodel
      let after levels id s := (Check.visitTo levels id options.checkEnv s).2
      validate source rule metamodel options = .ok { parsed with
        problems := parsed.problems ++
          (after options.maxTraversalDepth parsed.tree.root (.initial context)).problems } ∧
      ∀ levels id s, Check.Reached context options.checkEnv levels id s →
        Check.Restores s (after levels id s) ∧
          ((parsed.tree.kind id).isSubquery = true →
            parsed.tree.parent? id ≠ some parsed.tree.root → (after levels id s).used = s.used) := by
  obtain ⟨read, -, hparse, -, hread, -⟩ := parse_isRead source rule options.maxNestingDepth hrule
  refine ⟨_, hparse, ?_, fun levels id s hreached => ?_⟩
  · rw [validate, hparse]
    rfl
  rcases hreached.onTrack hread with ⟨rfl, rfl⟩ | htrack
  · refine ⟨Check.restores_root hread levels, fun hsubquery => ?_⟩
    obtain ⟨statement, leftover, hroot⟩ := hread.root
    rw [hroot] at hsubquery
    cases hsubquery
  · exact ⟨htrack.restores hread levels, htrack.used_subquery hread levels⟩

/-- A statement with a subquery below `EXISTS`, as nodes 21 and 18. -/
def Tree.asksForRows (tree : Tree) : Bool :=
  match tree.kind tree.root, tree.kind 21, tree.kind 20, tree.kind 19, tree.kind 18 with
  | .query (some 21) none, .selectStatement .., .whereClause 19, .existence _ 18,
      .simpleSelectStatement .. =>
    decide (tree.children 21 = [1, 6, 20] ∧ tree.parent? 18 ≠ some tree.root)
  | _, _, _, _, _ => false

/-- A subquery is reached below the condition of a statement, and what it uses does not stay in use. -/
theorem validate_balanced_existence :
    ∃ parsed, parse "SELECT e FROM E e WHERE EXISTS (SELECT f FROM E f WHERE f = g)" RuleId.statement
        100 = .ok parsed ∧
      ∃ levels subquery s,
        Check.Reached (.ofTree parsed.tree ⟨[], []⟩) ⟨true, 100⟩ levels subquery s ∧
        (parsed.tree.kind subquery).isSubquery = true ∧
        (Check.visitTo levels subquery ⟨true, 100⟩ s).2.used = s.used := by
  let source := "SELECT e FROM E e WHERE EXISTS (SELECT f FROM E f WHERE f = g)"
  have hrule : (Grammar.standard.rule? RuleId.statement).isSome = true :=
    Grammar.standard_registers (by simp)
  obtain ⟨parsed, hparse, -, hvisits⟩ :=
    validate_balanced source RuleId.statement ⟨[], []⟩ ⟨100, 100, true⟩ hrule
  obtain ⟨read, -, hsame, -, hread, -⟩ := parse_isRead source RuleId.statement 100 hrule
  have hshape : ((parse source RuleId.statement 100).toOption.any (·.tree.asksForRows)) = true := by
    decide +kernel
  rw [hparse] at hshape
  obtain rfl := Except.ok.inj (hparse.symm.trans hsame)
  simp only [Except.toOption, Option.any_some, Tree.asksForRows] at hshape
  split at hshape
  · next hroot hstatement hcondition hexistence hsubquery =>
    obtain ⟨hclauses, hparent⟩ := of_decide_eq_true hshape
    have hwhere : 20 ∈ read.tree.children 21 := by simp [hclauses]
    have hexists : 19 ∈ read.tree.children 20 := by simp [Tree.children, hcondition, NodeKind.children]
    have hbelow : 18 ∈ read.tree.children 19 := by simp [Tree.children, hexistence, NodeKind.children]
    let Reaches (levels id : Nat) : Prop :=
      ∃ s, Check.Reached (.ofTree read.tree ⟨[], []⟩) ⟨true, 100⟩ levels id s
    have hfirst : Reaches 99 21 := ⟨_, Check.reached_statement hread hroot rfl⟩
    have hsecond : Reaches 98 20 := hfirst.elim fun _ h => h.child hread
      (fun visit s hs => by rw [Check.visitKind, Check.kindOf_run, hs, hstatement]) hwhere
    have hthird : Reaches 97 19 := hsecond.elim fun _ h => h.child hread
      (fun visit s hs => by rw [Check.visitKind, Check.kindOf_run, hs, hcondition]) hexists
    obtain ⟨s, hreached⟩ : Reaches 96 18 := hthird.elim fun _ h => h.child hread
      (fun visit s hs => by rw [Check.visitKind, Check.kindOf_run, hs, hexistence]) hbelow
    have hkind : (read.tree.kind 18).isSubquery = true := by rw [hsubquery]; rfl
    exact ⟨_, hparse, _, 18, s, hreached, hkind, (hvisits _ _ _ hreached).2 hkind hparent⟩
  · cases hshape

end Jpql
