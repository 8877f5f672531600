import Jpql.Proofs.Check.Subquery
import Jpql.Proofs.Tree.Order

/-! # Checks that go as far as others

Two checks of a tree are compared that nest differently. The first may stop where nodes lie too deep,
and then nothing is said. Where it does not, the second does the same.

* `Check.Balanced`: what every operation on a tree keeps, whatever the tree looks like.
* `Check.Extends`: the second operation does what the first does, as long as the first leaves nothing
  out. Whether something is left out depends on the place alone, not on what was found before. -/

namespace Jpql.Check

/-- **Two states agree on what a check is about**: the problems, the variables in use and the mode. -/
structure Alike (s t : State) : Prop where
  problems : t.problems = s.problems
  used : t.used = s.used
  registers : t.registers = s.registers

/-- **An operation leaves the place where it found it**, and does not forget that something was left
out. -/
structure Balanced {α : Type} (tree : Tree) (p : Checker α) : Prop where
  steady : ∀ env s, s.context.tree = tree → Steady s (p env s).2
  latch : ∀ env s, s.context.tree = tree → s.exceeded = true → (p env s).2.exceeded = true

/-- **The second operation goes as far as the first.** Where the first leaves nothing out, the second
leaves nothing out either and has the same result, wherever it starts from in this place; and from
states that agree both come to states that agree. -/
structure Extends {α : Type} (tree : Tree) (p r : Checker α) : Prop where
  left : Balanced tree p
  right : Balanced tree r
  run : ∀ env s t, s.context.tree = tree → t.context = s.context → s.exceeded = false →
    (p env s).2.exceeded = false →
      (r env t).1 = (p env s).1 ∧ (r env t).2.exceeded = t.exceeded ∧
        (Alike s t → Alike (p env s).2 (r env t).2)

variable {α β : Type} {tree : Tree} {p r : Checker α} {f g : α → Checker β}

namespace Balanced

theorem bind (hp : Balanced tree p) (hf : ∀ a, Balanced tree (f a)) : Balanced tree (p >>= f) := by
  have htree : ∀ env s, s.context.tree = tree → (p env s).2.context.tree = tree :=
    fun env s hs => by rw [(hp.steady env s hs).context, hs]
  refine ⟨fun env s hs => ?_, fun env s hs he => ?_⟩
  · exact (hp.steady env s hs).trans ((hf _).steady env _ (htree env s hs))
  · exact (hf _).latch env _ (htree env s hs) (hp.latch env s hs he)

/-- Problems may be added and uses changed. -/
theorem of_run (h : ∀ env s, ∃ a problems used,
    p env s = (a, { s with problems := s.problems ++ problems, used })) : Balanced tree p := by
  refine ⟨fun env s _ => ?_, fun env s _ he => ?_⟩ <;> obtain ⟨a, problems, used, hrun⟩ := h env s <;>
    rw [hrun]
  · exact .of_problems
  · exact he

theorem pure {a : α} : Balanced tree (pure a) :=
  of_run fun _ s => ⟨a, [], s.used, by rw [List.append_nil]; rfl⟩

/-- Operations in turn. -/
theorem forM {items : List α} {op : α → Checker Unit} (h : ∀ item ∈ items, Balanced tree (op item)) :
    Balanced tree (items.forM op) := by
  induction items with
  | nil => exact pure
  | cons first rest ih =>
    rw [List.forall_mem_cons] at h
    exact h.1.bind fun _ => ih h.2

theorem congr {p' : Checker α} (h : Balanced tree p)
    (hrun : ∀ env s, s.context.tree = tree → p' env s = p env s) : Balanced tree p' := by
  refine ⟨fun env s hs => ?_, fun env s hs => ?_⟩ <;> rw [hrun env s hs]
  · exact h.steady env s hs
  · exact h.latch env s hs

theorem inTree_bind {q : Tree → α} (h : Balanced tree (f (q tree))) :
    Balanced tree (inTree q >>= f) := by
  refine ⟨fun env s hs => ?_, fun env s hs => ?_⟩ <;> rw [inTree_run, hs]
  · exact h.steady env s hs
  · exact h.latch env s hs

/-- Where a variable is declared, the mode is changed and changed back. -/
theorem visitDeclared {visit : Visitor} {declared : Option NodeId}
    (h : Balanced tree (visitOption visit declared)) :
    Balanced tree (visitDeclared visit declared) := by
  refine ⟨fun env s hs => ?_, fun env s hs he => ?_⟩
  · have hstep := h.steady env { s with registers := false } hs
    exact ⟨hstep.context, rfl, hstep.problems, hstep.exceeded⟩
  · exact h.latch env { s with registers := false } hs he

/-- A subquery is left again. -/
theorem checkSubquery {visit : Visitor} {id : NodeId} (h : Balanced tree (visitChildren visit id)) :
    Balanced tree (checkSubquery visit id) := by
  refine ⟨fun env s hs => ?_, fun env s hs he => ?_⟩
  · have hstep := h.steady env { s with context := s.context.enter id } hs
    rw [checkSubquery_run]
    generalize (visitChildren visit id env { s with context := s.context.enter id }).2 = inner at hstep
    simp only [checkVariables_run]
    refine ⟨?_, hstep.registers, ?_, fun h hend hwhole => ?_⟩
    · exact congrArg QueryContext.leave hstep.context
    · rw [List.append_assoc]
      exact hstep.problems.trans (List.prefix_append _ _)
    · refine hstep.exceeded h hend fun problem hmem => hwhole problem ?_
      rw [List.append_assoc]
      exact List.mem_append_left _ hmem
  · rw [checkSubquery_run]
    exact h.latch env { s with context := s.context.enter id } hs he

end Balanced

namespace Extends

theorem bind (hp : Extends tree p r) (hf : ∀ a, Extends tree (f a) (g a)) :
    Extends tree (p >>= f) (r >>= g) := by
  refine ⟨hp.left.bind fun a => (hf a).left, hp.right.bind fun a => (hf a).right, ?_⟩
  intro env s t hs ht he hend
  have hsteady := hp.left.steady env s hs
  have htree : (p env s).2.context.tree = tree := by rw [hsteady.context, hs]
  -- What the first part leaves out is not forgotten by the second.
  have hmid : (p env s).2.exceeded = false := by
    rw [← Bool.not_eq_true]
    exact fun hmid => Bool.false_ne_true (hend.symm.trans ((hf _).left.latch env _ htree hmid))
  obtain ⟨hvalue, hexceeded, halike⟩ := hp.run env s t hs ht he hmid
  have hcontext : (r env t).2.context = (p env s).2.context := by
    rw [(hp.right.steady env t (by rw [ht, hs])).context, ht, hsteady.context]
  obtain ⟨hvalue', hexceeded', halike'⟩ := (hf _).run env _ (r env t).2 htree hcontext hmid hend
  rw [bind_run, bind_run, hvalue]
  exact ⟨hvalue', hexceeded'.trans hexceeded, fun h => halike' (halike h)⟩

/-- **An operation of the place alone.** Its result depends on the context, what it adds also on the
variables in use. -/
theorem of_run (value : QueryContext → α) (problems : QueryContext → List NodeId → List Problem)
    (used : QueryContext → Bool → List NodeId → List NodeId)
    (h : ∀ env s, p env s = (value s.context,
      { s with
        problems := s.problems ++ problems s.context s.used
        used := used s.context s.registers s.used })) : Extends tree p p := by
  have hbalanced : Balanced tree p := .of_run fun env s => ⟨_, _, _, h env s⟩
  refine ⟨hbalanced, hbalanced, fun env s t _ ht _ _ => ?_⟩
  rw [h env s, h env t, ht]
  refine ⟨rfl, rfl, fun halike => ⟨?_, ?_, halike.registers⟩⟩
  · show t.problems ++ _ = s.problems ++ _
    rw [halike.problems, halike.used]
  · show used _ t.registers t.used = used _ s.registers s.used
    rw [halike.registers, halike.used]

theorem pure {a : α} : Extends tree (pure a) (pure a) :=
  of_run (fun _ => a) (fun _ _ => []) (fun _ _ used => used) fun _ _ => by rw [List.append_nil]; rfl

/-- Only the runs on the tree matter. -/
theorem congr {p' r' : Checker α} (h : Extends tree p r)
    (hp : ∀ env s, s.context.tree = tree → p' env s = p env s)
    (hr : ∀ env s, s.context.tree = tree → r' env s = r env s) : Extends tree p' r' := by
  refine ⟨h.left.congr hp, h.right.congr hr, fun env s t hs ht => ?_⟩
  rw [hp env s hs, hr env t (by rw [ht, hs])]
  exact h.run env s t hs ht

/-- Operations in turn. -/
theorem forM {items : List α} {op op' : α → Checker Unit}
    (h : ∀ item ∈ items, Extends tree (op item) (op' item)) :
    Extends tree (items.forM op) (items.forM op') := by
  induction items with
  | nil => exact pure
  | cons first rest ih =>
    rw [List.forall_mem_cons] at h
    exact h.1.bind fun _ => ih h.2

theorem recordAll {problems : List Problem} : Extends tree (recordAll problems) (recordAll problems) :=
  of_run (fun _ => ()) (fun _ _ => problems) (fun _ _ used => used) fun _ _ => rfl

theorem ask_bind {q : QueryContext → α} (h : ∀ a, Extends tree (f a) (g a)) :
    Extends tree (ask q >>= f) (ask q >>= g) := by
  refine bind (of_run q (fun _ _ => []) (fun _ _ used => used) fun _ _ => ?_) h
  rw [List.append_nil]
  rfl

/-- What is asked of the tree is known. -/
theorem inTree_bind {q : Tree → α} (h : Extends tree (f (q tree)) (g (q tree))) :
    Extends tree (inTree q >>= f) (inTree q >>= g) := by
  refine ⟨.inTree_bind h.left, .inTree_bind h.right, fun env s t hs ht => ?_⟩
  rw [inTree_run, inTree_run, ht, hs]
  exact h.run env s t hs ht

theorem kindOf_bind {id : NodeId} {f g : NodeKind → Checker β}
    (h : Extends tree (f (tree.kind id)) (g (tree.kind id))) :
    Extends tree (kindOf id >>= f) (kindOf id >>= g) := inTree_bind (q := (·.kind id)) h

/-- The switches are the same for both. -/
theorem read_bind {f g : Env → Checker β} (h : ∀ env, Extends tree (f env) (g env)) :
    Extends tree (read >>= f) (read >>= g) :=
  ⟨⟨fun env => (h env).left.steady env, fun env => (h env).left.latch env⟩,
    ⟨fun env => (h env).right.steady env, fun env => (h env).right.latch env⟩,
    fun env => (h env).run env⟩

theorem discard (h : Extends tree p r) : Extends tree (discard p) (discard r) :=
  h.bind fun _ => .pure

theorem recordAt {key : ProblemKey} {id : NodeId} :
    Extends tree (recordAt key id) (recordAt key id) := inTree_bind .recordAll

end Extends

/-! ## Visits -/

variable {visit visit' : Visitor} {id : NodeId}

namespace Extends

/-- One visitor at each of some nodes. -/
theorem visitAll {ids : List NodeId} (h : ∀ id ∈ ids, Extends tree (visit id) (visit' id)) :
    Extends tree (visitAll visit ids) (visitAll visit' ids) := forM h

theorem visitDeclared {declared : Option NodeId}
    (h : ∀ id ∈ declared.toList, Extends tree (visit id) (visit' id)) :
    Extends tree (visitDeclared visit declared) (visitDeclared visit' declared) := by
  have hall := visitAll h
  refine ⟨hall.left.visitDeclared, hall.right.visitDeclared, fun env s t hs ht he hend => ?_⟩
  obtain ⟨hvalue, hexceeded, halike⟩ := hall.run env { s with registers := false }
    { t with registers := false } hs ht he hend
  refine ⟨rfl, hexceeded, fun h => ?_⟩
  obtain ⟨hproblems, hused, -⟩ := halike ⟨h.problems, h.used, rfl⟩
  exact ⟨hproblems, hused, h.registers⟩

/-- In a subquery both look up the same variables. -/
theorem checkSubquery (h : Extends tree (visitChildren visit id) (visitChildren visit' id)) :
    Extends tree (checkSubquery visit id) (checkSubquery visit' id) := by
  refine ⟨h.left.checkSubquery, h.right.checkSubquery, fun env s t hs ht he hend => ?_⟩
  have hcontext : t.context.enter id = s.context.enter id := by rw [ht]
  obtain ⟨hvalue, hexceeded, halike⟩ := h.run env { s with context := s.context.enter id }
    { t with context := t.context.enter id } hs hcontext he hend
  rw [checkSubquery_run, checkSubquery_run]
  refine ⟨Subsingleton.elim _ _, hexceeded, fun h' => ?_⟩
  obtain ⟨hproblems, hused, hregisters⟩ := halike ⟨h'.problems, h'.used, h'.registers⟩
  have hplace := (h.left.steady env { s with context := s.context.enter id } hs).context
  have hplace' := (h.right.steady env { t with context := t.context.enter id }
    (show t.context.tree = tree by rw [ht, hs])).context
  generalize (visitChildren visit id env { s with context := s.context.enter id }).2 = inner
    at hproblems hused hregisters hplace
  generalize (visitChildren visit' id env { t with context := t.context.enter id }).2 = inner'
    at hproblems hused hregisters hplace'
  simp only [checkVariables_run]
  refine ⟨?_, ?_, hregisters⟩
  · show inner'.problems ++ _ ++ _ = inner.problems ++ _ ++ _
    rw [hproblems, hplace, hplace', hcontext, hused, h'.used]
  · show inner'.used.filter _ = inner.used.filter _
    rw [hused, h'.used]

end Extends

end Jpql.Check
