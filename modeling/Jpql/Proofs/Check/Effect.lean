import Jpql.Check.Visit
import Jpql.Proofs.Check.Rule
import Jpql.Proofs.Scope.Use

/-! # What a check does to its state

A check of a clean query collects the uses of variables of the statement it is in, and reports those
of the subqueries it has been through that are not declared.

* `Check.Subject`: a clean query, and what it is checked against.
* `Check.Subject.Fits`: the states that a check can be in at a node.
* `Check.Subject.Affects`: an operation accounts for certain nodes. It adds the uses among them that
  stand in the same statement, and reports those in subqueries that no statement declares. -/

namespace Jpql

/-- **The nodes that lack a declaration**, as far as problems tell. -/
def undeclaredNodes (problems : List Problem) : List (Option NodeId) :=
  (problems.filter (·.key == .variableNotDeclared)).map (·.anchor)

@[simp] theorem undeclaredNodes_append (problems others : List Problem) :
    undeclaredNodes (problems ++ others) = undeclaredNodes problems ++ undeclaredNodes others := by
  simp [undeclaredNodes]

theorem undeclaredNodes_eq_nil {problems : List Problem}
    (h : ∀ problem ∈ problems, problem.key ≠ .variableNotDeclared) :
    undeclaredNodes problems = [] := by
  simpa [undeclaredNodes] using h

namespace Check

/-- Nothing was left out so far. -/
def State.IsWhole (s : State) : Prop := ∀ problem ∈ s.problems, problem.key ≠ .traversalTooDeep

/-- **What every operation keeps**: the context, the mode, and the problems found before. What was
left out stays reported. -/
structure Steady (s t : State) : Prop where
  context : t.context = s.context
  registers : t.registers = s.registers
  problems : s.problems <+: t.problems
  exceeded : (s.exceeded = true → ¬s.IsWhole) → t.exceeded = true → ¬t.IsWhole

namespace Steady

variable {s t u : State}

theorem refl : Steady s s := ⟨rfl, rfl, List.prefix_refl _, id⟩

theorem isWhole (h : Steady s t) (ht : t.IsWhole) : s.IsWhole :=
  fun problem hmem => ht problem (h.problems.subset hmem)

theorem trans (hst : Steady s t) (htu : Steady t u) : Steady s u :=
  ⟨htu.context.trans hst.context, htu.registers.trans hst.registers,
    hst.problems.trans htu.problems, fun h => htu.exceeded (hst.exceeded h)⟩

/-- Problems may be added and uses changed. -/
theorem of_problems {problems : List Problem} {used : List Nat} :
    Steady s { s with problems := s.problems ++ problems, used } := by
  refine ⟨rfl, rfl, List.prefix_append _ _, fun h he hwhole => h he fun problem hmem => ?_⟩
  exact hwhole problem (List.mem_append_left _ hmem)

theorem of_used {used : List Nat} : Steady s { s with used } := ⟨rfl, rfl, List.prefix_refl _, id⟩

end Steady

/-- **A clean query under a check**: its tree, the metamodel it is checked against, and the switches
of the check, by which new values of `SET` items are checked. -/
structure Subject where
  tree : Tree
  statement : Nat
  isQuery : tree.IsQuery statement
  metamodel : Metamodel
  env : Env
  updateValues : env.updateValues = true

/-! ## Runs -/

section

variable {α β : Type} (p : Checker α) (f : α → Checker β) (env : Env) (s : State)

theorem bind_run : (p >>= f) env s = f (p env s).1 env (p env s).2 := rfl

theorem ask_run (g : QueryContext → α) : (ask g >>= f) env s = f (g s.context) env s := rfl

theorem inTree_run (g : Tree → α) : (inTree g >>= f) env s = f (g s.context.tree) env s := rfl

theorem kindOf_run (id : Nat) (f : NodeKind → Checker β) :
    (kindOf id >>= f) env s = f (s.context.tree.kind id) env s := rfl

end

/-- A node is left out once, and reported. -/
theorem leaveOut_run (id : NodeId) (env : Env) (s : State) : (leaveOut id env s).2 =
    if s.exceeded then s
    else
      { s with
        exceeded := true
        problems := s.problems ++
          [⟨.traversalTooDeep, [toString env.maxDepth], s.context.tree.span id, some id⟩] } := by
  have hrun : leaveOut id env s = (if !s.exceeded then
      (do
        let span ← inTree (·.span id)
        let maxDepth := (← read).maxDepth
        modify ({ · with exceeded := true })
        recordAll [⟨.traversalTooDeep, [toString maxDepth], span, some id⟩] : Checker Unit)
    else pure ()) env s := rfl
  rw [hrun]
  cases s.exceeded <;> rfl

namespace Subject

variable (q : Subject)

/-- The context of a node. -/
def context (node : Nat) : QueryContext := .around q.tree q.metamodel node

/-- A variable is used at the node. -/
def Uses (id : Nat) : Prop := q.tree.IsUse q.metamodel id

/-- **A state that a check can be in at a node.** All uses so far stand in the statement of the node
or in one around it. -/
structure Fits (node : Nat) (s : State) : Prop where
  context : s.context = q.context node
  registers : s.registers = true
  exceeded : s.exceeded = true → ¬s.IsWhole
  nodup : s.IsWhole → s.used.Nodup
  uses : s.IsWhole → ∀ id ∈ s.used, q.Uses id
  scope : s.IsWhole → ∀ id ∈ s.used, ∃ outer, q.tree.scopeNode? id = some outer ∧
    ∀ inner ∈ q.tree.scopeNode? node, inner ≤ outer

/-- **From `s` to `t` the nodes in `N` are accounted for**: the uses that stand in the statement of
`node` are added, those in subqueries are reported if no statement declares them. -/
structure Change (node : Nat) (N : Nat → Prop) (s t : State) : Prop where
  used : ∀ id, id ∈ t.used ↔
    id ∈ s.used ∨ N id ∧ q.Uses id ∧ q.tree.scopeNode? id = q.tree.scopeNode? node
  nodup : s.used.Nodup → t.used.Nodup
  missing : ∃ new : List Nat,
    undeclaredNodes t.problems = undeclaredNodes s.problems ++ new.map some ∧ new.Nodup ∧
      ∀ id, id ∈ new ↔ N id ∧ q.Uses id ∧ q.tree.scopeNode? id ≠ q.tree.scopeNode? node ∧
        q.tree.IsHidden id

/-- **An operation at a node accounts for the nodes in `N`.** -/
def Affects {α : Type} (node : Nat) (N : Nat → Prop) (p : Checker α) (post : α → Prop) : Prop :=
  ∀ s, q.Fits node s → post (p q.env s).1 ∧ Steady s (p q.env s).2 ∧
    ((p q.env s).2.IsWhole → q.Change node N s (p q.env s).2)

variable {q} {α β : Type} {node : Nat} {N M : Nat → Prop} {s t u : State}

/-- A variable that is used stands in some statement. -/
theorem Uses.scopeNode? {id : Nat} (h : q.Uses id) : ∃ scope, q.tree.scopeNode? id = some scope := by
  obtain ⟨⟨name, behind, hk, -⟩, -⟩ := h
  have hquery := q.isQuery
  have hlt : id < q.tree.size := Tree.lt_size_of_kind (by rw [hk]; simp)
  have hroot : id ≠ q.tree.root := fun he => by
    rw [he, hquery.root] at hk
    cases hk
  have hheld := hquery.holds_of_ne_root hlt hroot
  have houter := NodeKind.isStatement_of_isOuterStatement hquery.outer
  obtain ⟨scope, hscope, -⟩ := Tree.scopeNode?_of_holds hquery.wellFormed houter hheld fun he => by
    rw [← he, hk] at houter
    exact absurd houter Bool.false_ne_true
  exact ⟨scope, hscope⟩

/-! ## Changes -/

namespace Change

/-- Nothing has changed that matters. -/
theorem of_eq (hused : t.used = s.used)
    (hmissing : undeclaredNodes t.problems = undeclaredNodes s.problems) :
    q.Change node (fun _ => False) s t := by
  refine ⟨fun id => ?_, fun h => ?_, [], ?_, List.nodup_nil, fun id => ?_⟩
  · rw [hused]
    simp
  · rw [hused]
    exact h
  · rw [hmissing]
    simp
  · simp

/-- Only the uses matter. -/
theorem congr (h : q.Change node N s t) (hiff : ∀ id, q.Uses id → (N id ↔ M id)) :
    q.Change node M s t := by
  obtain ⟨new, heq, hnodup, hnew⟩ := h.missing
  refine ⟨fun id => ?_, h.nodup, new, heq, hnodup, fun id => ?_⟩
  · rw [h.used]
    have := hiff id
    tauto
  · rw [hnew]
    have := hiff id
    tauto

/-- **One change after the other.** What both account for stands in the statement itself. -/
theorem trans (hst : q.Change node N s t) (htu : q.Change node M t u)
    (hoverlap : ∀ id, q.Uses id → N id → M id → q.tree.scopeNode? id = q.tree.scopeNode? node) :
    q.Change node (fun id => N id ∨ M id) s u := by
  obtain ⟨new, heq, hnodup, hnew⟩ := hst.missing
  obtain ⟨more, heq', hnodup', hmore⟩ := htu.missing
  refine ⟨fun id => ?_, fun h => htu.nodup (hst.nodup h), new ++ more, ?_, ?_, fun id => ?_⟩
  · rw [htu.used, hst.used]
    tauto
  · rw [heq', heq, List.map_append, List.append_assoc]
  · refine List.nodup_append.mpr ⟨hnodup, hnodup', fun a ha b hb hab => ?_⟩
    subst hab
    obtain ⟨hn, huse, hscope, -⟩ := (hnew a).mp ha
    exact hscope (hoverlap a huse hn ((hmore a).mp hb).1)
  · rw [List.mem_append, hnew, hmore]
    tauto

end Change

/-- **A check goes on in a state that fits.** -/
theorem Fits.step (h : q.Fits node s) (hsteady : Steady s t)
    (hchange : t.IsWhole → q.Change node N s t) : q.Fits node t := by
  refine ⟨hsteady.context.trans h.context, hsteady.registers.trans h.registers,
    hsteady.exceeded h.exceeded, fun hw => (hchange hw).nodup (h.nodup (hsteady.isWhole hw)),
    fun hw id hid => ?_, fun hw id hid => ?_⟩
  · rcases ((hchange hw).used id).mp hid with hid | ⟨-, huse, -⟩
    · exact h.uses (hsteady.isWhole hw) id hid
    · exact huse
  · rcases ((hchange hw).used id).mp hid with hid | ⟨-, huse, hscope⟩
    · exact h.scope (hsteady.isWhole hw) id hid
    · obtain ⟨outer, houter⟩ := huse.scopeNode?
      refine ⟨outer, houter, fun inner hinner => ?_⟩
      rw [← hscope, houter] at hinner
      exact Nat.le_of_eq (Option.some.inj hinner).symm

/-! ## Operations -/

namespace Affects

variable {p : Checker α} {f : α → Checker β} {post : α → Prop} {post' : β → Prop}

theorem pure {a : α} (h : post a) : q.Affects node (fun _ => False) (pure a) post :=
  fun _ _ => ⟨h, .refl, fun _ => .of_eq rfl rfl⟩

/-- Only the uses matter. -/
theorem congr (h : q.Affects node N p post) (hiff : ∀ id, q.Uses id → (N id ↔ M id)) :
    q.Affects node M p post := fun s hs =>
  ⟨(h s hs).1, (h s hs).2.1, fun hw => ((h s hs).2.2 hw).congr hiff⟩

theorem weaken {post' : α → Prop} (h : q.Affects node N p post) (hpost : ∀ a, post a → post' a) :
    q.Affects node N p post' := fun s hs => ⟨hpost _ (h s hs).1, (h s hs).2⟩

/-- Two nodes with the same statement around them are the same place for a check. -/
theorem move {other : Nat} (h : q.Affects node N p post) (hcontext : q.context node = q.context other)
    (hscope : q.tree.scopeNode? node = q.tree.scopeNode? other) : q.Affects other N p post := by
  intro s hs
  have hfits : q.Fits node s := by
    refine ⟨hs.context.trans hcontext.symm, hs.registers, hs.exceeded, hs.nodup, hs.uses, ?_⟩
    rw [hscope]
    exact hs.scope
  refine ⟨(h s hfits).1, (h s hfits).2.1, fun hw => ?_⟩
  obtain ⟨hused, hnodup, hmissing⟩ := (h s hfits).2.2 hw
  rw [hscope] at hused hmissing
  exact ⟨hused, hnodup, hmissing⟩

/-- **One operation after the other.** -/
theorem bind {K : α → Nat → Prop} (hp : q.Affects node N p post)
    (hf : ∀ a, post a → q.Affects node (K a) (f a) post')
    (hM : ∀ a, post a → ∀ id, q.Uses id → (N id ∨ K a id ↔ M id))
    (hoverlap : ∀ a, post a → ∀ id, q.Uses id → N id → K a id →
      q.tree.scopeNode? id = q.tree.scopeNode? node) :
    q.Affects node M (p >>= f) post' := by
  intro s hs
  obtain ⟨hpost, hsteady, hchange⟩ := hp s hs
  obtain ⟨hpost', hsteady', hchange'⟩ := hf _ hpost _ (hs.step hsteady hchange)
  refine ⟨hpost', hsteady.trans hsteady', fun hw => ?_⟩
  exact ((hchange (hsteady'.isWhole hw)).trans (hchange' hw) (hoverlap _ hpost)).congr
    (hM _ hpost)

/-- An operation that accounts for nothing comes first. -/
theorem bind_left (hp : q.Affects node (fun _ => False) p post)
    (hf : ∀ a, post a → q.Affects node N (f a) post') : q.Affects node N (p >>= f) post' :=
  hp.bind hf (fun _ _ _ _ => by simp) fun _ _ _ _ h => h.elim

/-- An operation that accounts for nothing comes last. -/
theorem bind_right (hp : q.Affects node N p post)
    (hf : ∀ a, post a → q.Affects node (fun _ => False) (f a) post') :
    q.Affects node N (p >>= f) post' :=
  hp.bind hf (fun _ _ _ _ => by simp) fun _ _ _ _ _ h => h.elim

theorem discard (h : q.Affects node N p post) :
    q.Affects node N (discard p) fun _ => True := by
  have hmap : Functor.discard p = p >>= fun _ => Pure.pure PUnit.unit := rfl
  rw [hmap]
  exact h.bind_right fun _ _ => .pure trivial

/-! ### Questions -/

theorem ask_bind {g : QueryContext → α} (h : q.Affects node N (f (g (q.context node))) post') :
    q.Affects node N (ask g >>= f) post' := by
  intro s hs
  have hstep := h s hs
  rw [← hs.context] at hstep
  exact hstep

theorem inTree_bind {g : Tree → α} (h : q.Affects node N (f (g q.tree)) post') :
    q.Affects node N (inTree g >>= f) post' := ask_bind h

theorem kindOf_bind {id : Nat} {f : NodeKind → Checker β}
    (h : q.Affects node N (f (q.tree.kind id)) post') :
    q.Affects node N (kindOf id >>= f) post' := inTree_bind (g := (·.kind id)) h

/-! ### Problems -/

theorem recordAll {problems : List Problem}
    (h : ∀ problem ∈ problems, problem.key ≠ .variableNotDeclared) :
    q.Affects node (fun _ => False) (recordAll problems) fun _ => True := fun _ _ =>
  ⟨trivial, .of_problems, fun _ => .of_eq rfl (by
    show undeclaredNodes (_ ++ problems) = _
    rw [undeclaredNodes_append, undeclaredNodes_eq_nil h, List.append_nil])⟩

theorem recordAt {key : ProblemKey} {id : Nat} (h : key ≠ .variableNotDeclared) :
    q.Affects node (fun _ => False) (recordAt key id) fun _ => True :=
  inTree_bind (recordAll (by simpa using h))

end Affects

end Subject

end Check

end Jpql
