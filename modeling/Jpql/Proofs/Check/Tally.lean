import Jpql.Proofs.Check.Children
import Jpql.Proofs.Check.Finding

/-! # What a check reports

A check reports what is wrong at the nodes it looks at. It looks at most nodes once; only below the
root of a path that is an operand of an arithmetic operation or an ordering comparison it may look
twice.

* `Check.Input.Tally`: a list of problems tells of certain nodes, and of each what is wrong there.
* `Check.Input.Reports`: an operation reports what is wrong at certain nodes, all of it if nothing
  lies too deep. -/

namespace Jpql

/-- The operands that an operation looks at twice, if they are in order. -/
def NodeKind.repeated : NodeKind → List NodeId
  | .comparison left operator right => if operator.isOrdering then [left, right] else []
  | .arithmetic _ left right => [left, right]
  | _ => []

/-- **An operation looks twice at a node**: an operand of it is a state-field path, and the node lies in
the root of that. -/
def Tree.Repeats (tree : Tree) (operation id : Nat) : Prop :=
  ∃ operand ∈ (tree.kind operation).repeated, ∃ path root segments dot,
    tree.statePathBehind? operand = some path ∧
    tree.kind path = .path .stateField root segments dot ∧ tree.Holds root id

namespace Check

/-- The findings among some problems at a node. -/
def foundAt (problems : List Problem) (id : Nat) : List Problem :=
  problems.filter fun problem => problem.key.isFinding && problem.anchor == some id

@[simp] theorem foundAt_append (problems others : List Problem) (id : Nat) :
    foundAt (problems ++ others) id = foundAt problems id ++ foundAt others id :=
  List.filter_append ..

theorem mem_foundAt {problems : List Problem} {id : Nat} {problem : Problem} :
    problem ∈ foundAt problems id ↔
      problem ∈ problems ∧ problem.key.isFinding = true ∧ problem.anchor = some id := by
  simp [foundAt, List.mem_filter]

theorem foundAt_eq_nil {problems : List Problem} {id : Nat}
    (h : ∀ problem ∈ problems, problem.key.isFinding = true → problem.anchor ≠ some id) :
    foundAt problems id = [] :=
  List.eq_nil_iff_forall_not_mem.mpr fun problem hmem =>
    h problem (mem_foundAt.mp hmem).1 (mem_foundAt.mp hmem).2.1 (mem_foundAt.mp hmem).2.2

/-- **A tree without gaps under a check**: what it is checked against, and the switches of the check,
by which new values of `SET` items are checked. -/
structure Input where
  tree : Tree
  statement : Nat
  isClean : tree.IsClean statement
  metamodel : Metamodel
  env : Env
  updateValues : env.updateValues = true

namespace Input

variable (q : Input)

/-- The context of a node. -/
def context (id : Nat) : QueryContext := .within q.tree q.metamodel id

/-- What is wrong at a node. -/
def findings (id : Nat) : List Problem := q.tree.findings q.metamodel id

/-- **A node has a problem with a variable**: an `INDEX` with the variable it is given, a statement with
one that stands in it. -/
structure Owns (owner : Nat) (problem : Problem) : Prop where
  index : problem.key = .indexWrongVariable → ∃ argument name behind,
    q.tree.kind owner = .index argument ∧ q.tree.kind argument = .identifier name false behind ∧
      problem.anchor = some argument
  statement : problem.key ≠ .indexWrongVariable → (q.tree.kind owner).isStatement = true ∧
    ∃ id, problem.anchor = some id ∧ q.tree.scopeNode? id = some owner

/-- **Problems that tell of nodes in `N`**: of each what is wrong there, at most once, or twice if an
operation in `N` looks at it twice. Problems with variables are told once, and none of them comes from
a part of a path. -/
structure Tally (N : Nat → Prop) (problems : List Problem) : Prop where
  anchored : ∀ problem ∈ problems, ∃ id, problem.anchor = some id ∧ N id
  times : ∀ id, ∃ n, foundAt problems id = (List.replicate n (q.findings id)).flatten ∧
    (n ≤ 1 ∨ n ≤ 2 ∧ ∃ operation, N operation ∧ q.tree.Repeats operation id)
  nodup : (problems.filter (·.key.isVariable)).Nodup
  owned : ∀ problem ∈ problems, problem.key.isVariable = true → ∃ owner, N owner ∧
    (q.tree.kind owner).isPathPart = false ∧ q.Owns owner problem

/-- **What an operation does to the state besides**: it keeps the context, notes the first node that
lies too deep, and adds uses of variables in `N` that stand in the scope. -/
structure Change (scope : Option Nat) (N : Nat → Prop) (s t : State) (new : List Problem) : Prop where
  problems : t.problems = s.problems ++ new
  context : t.context = s.context
  depth : new.countP (·.key == .traversalTooDeep) + s.exceeded.toNat = t.exceeded.toNat
  used : ∀ id ∈ t.used, id ∈ s.used ∨ N id ∧ q.tree.scopeNode? id = scope
  nodup : t.used.Nodup

/-- **From `s` to `t` what is wrong at the nodes in `N` is reported.** -/
structure Step (scope : Option Nat) (N : Nat → Prop) (s t : State) (new : List Problem) : Prop
    extends q.Change scope N s t new where
  tally : q.Tally N new
  complete : t.exceeded = false → ∀ id, N id → q.findings id ⊆ new

/-- **An operation in a context reports what is wrong at the nodes in `N`.** -/
def Reports {α : Type} (context : QueryContext) (scope : Option Nat) (N : Nat → Prop) (p : Checker α)
    (post : α → Prop) : Prop :=
  ∀ s, s.context = context → s.used.Nodup →
    post (p q.env s).1 ∧ ∃ new, q.Step scope N s (p q.env s).2 new

variable {q} {α β : Type} {context : QueryContext} {scope : Option Nat} {N M : Nat → Prop}
  {s t u : State} {new more problems others : List Problem} {id : Nat}

/-! ## Tallies -/

namespace Tally

theorem nil : q.Tally N [] :=
  ⟨by simp, fun _ => ⟨0, rfl, .inl (Nat.zero_le _)⟩, by simp, by simp⟩

theorem mono (h : q.Tally N problems) (hsub : ∀ id, N id → M id) : q.Tally M problems where
  anchored problem hmem := by
    obtain ⟨id, hanchor, hid⟩ := h.anchored problem hmem
    exact ⟨id, hanchor, hsub id hid⟩
  times id := by
    obtain ⟨n, heq, hn⟩ := h.times id
    refine ⟨n, heq, hn.imp_right fun ⟨hle, operation, hop, hrepeats⟩ => ?_⟩
    exact ⟨hle, operation, hsub operation hop, hrepeats⟩
  nodup := h.nodup
  owned problem hmem hkey := by
    obtain ⟨owner, howner, hrest⟩ := h.owned problem hmem hkey
    exact ⟨owner, hsub owner howner, hrest⟩

/-- **Problems that have nothing to do with each other.** -/
theorem append (h : q.Tally N problems) (k : q.Tally N others)
    (hfound : ∀ id, foundAt problems id = [] ∨ foundAt others id = [])
    (hnodup : ∀ problem ∈ problems, problem.key.isVariable = true → problem ∉ others) :
    q.Tally N (problems ++ others) where
  anchored problem hmem :=
    (List.mem_append.mp hmem).elim (h.anchored problem) (k.anchored problem)
  times id := by
    rw [foundAt_append]
    rcases hfound id with hnil | hnil
    · rw [hnil, List.nil_append]
      exact k.times id
    · rw [hnil, List.append_nil]
      exact h.times id
  nodup := by
    rw [List.filter_append]
    refine List.nodup_append.mpr ⟨h.nodup, k.nodup, fun a ha b hb hab => ?_⟩
    obtain ⟨hmem, hkey⟩ := List.mem_filter.mp ha
    exact hnodup a hmem hkey (hab ▸ (List.mem_filter.mp hb).1)
  owned problem hmem :=
    (List.mem_append.mp hmem).elim (h.owned problem) (k.owned problem)

/-- Problems that tell of other nodes have nothing to do with each other. -/
theorem append_of_apart (h : q.Tally N problems) (k : q.Tally M others)
    (hapart : ∀ id, N id → ¬M id) : q.Tally (fun id => N id ∨ M id) (problems ++ others) := by
  refine (h.mono fun _ => .inl).append (k.mono fun _ => .inr) (fun id => ?_)
    fun problem hmem _ hother => ?_
  · by_cases hid : N id
    · refine .inr (foundAt_eq_nil fun problem hmem _ hanchor => ?_)
      obtain ⟨other, hother, hM⟩ := k.anchored problem hmem
      rw [hanchor, Option.some_inj] at hother
      exact hapart id hid (hother ▸ hM)
    · refine .inl (foundAt_eq_nil fun problem hmem _ hanchor => hid ?_)
      obtain ⟨other, hother, hN⟩ := h.anchored problem hmem
      rw [hanchor, Option.some_inj] at hother
      exact hother ▸ hN
  · obtain ⟨id, hid, hN⟩ := h.anchored problem hmem
    obtain ⟨other, hother, hM⟩ := k.anchored problem hother
    rw [hid, Option.some_inj] at hother
    exact hapart id hN (hother ▸ hM)

/-- The order among problems of different nodes does not matter. -/
theorem perm (h : q.Tally N problems) (hperm : problems.Perm others)
    (hfound : ∀ id, foundAt others id = foundAt problems id) : q.Tally N others where
  anchored problem hmem := h.anchored problem (hperm.mem_iff.mpr hmem)
  times id := by
    rw [hfound]
    exact h.times id
  nodup := (hperm.filter _).nodup_iff.mp h.nodup
  owned problem hmem := h.owned problem (hperm.mem_iff.mpr hmem)

/-- Only nodes in `N` are told of. -/
theorem foundAt_outside (h : q.Tally N problems) (hid : ¬N id) : foundAt problems id = [] := by
  refine Check.foundAt_eq_nil fun problem hmem _ hanchor => hid ?_
  obtain ⟨other, hother, hN⟩ := h.anchored problem hmem
  rw [hanchor, Option.some_inj] at hother
  exact hother ▸ hN

/-- Problems that are no findings tell of no node. -/
theorem of_variables (hanchored : ∀ problem ∈ problems, ∃ id, problem.anchor = some id ∧ N id)
    (hkey : ∀ problem ∈ problems, problem.key.isVariable = true) (hnodup : problems.Nodup)
    (howned : ∀ problem ∈ problems, ∃ owner, N owner ∧ (q.tree.kind owner).isPathPart = false ∧
      q.Owns owner problem) :
    q.Tally N problems where
  anchored := hanchored
  times id := by
    refine ⟨0, Check.foundAt_eq_nil fun problem hmem hfinding => ?_, .inl (Nat.zero_le _)⟩
    have hvariable := hkey problem hmem
    simp [ProblemKey.isFinding, hvariable] at hfinding
  nodup := hnodup.filter _
  owned problem hmem _ := howned problem hmem

/-- What is wrong at a node tells of that node, once. -/
theorem findings (hid : N id) : q.Tally N (q.findings id) where
  anchored problem hmem := ⟨id, (FindingsAt.findings _ _ _ problem hmem).1, hid⟩
  times other := by
    by_cases he : other = id
    · refine ⟨1, ?_, .inl (Nat.le_refl _)⟩
      rw [he, List.replicate_one, List.flatten_singleton]
      refine List.filter_eq_self.mpr fun problem hmem => ?_
      obtain ⟨hanchor, hfinding⟩ := FindingsAt.findings _ _ _ problem hmem
      simp [hanchor, hfinding]
    · refine ⟨0, Check.foundAt_eq_nil fun problem hmem _ hanchor => he ?_, .inl (Nat.zero_le _)⟩
      rw [(FindingsAt.findings _ _ _ problem hmem).1, Option.some_inj] at hanchor
      exact hanchor.symm
  nodup := by
    rw [List.filter_eq_nil_iff.mpr fun problem hmem => ?_]
    · exact List.nodup_nil
    · have hfinding := (FindingsAt.findings _ _ _ problem hmem).2
      cases hkey : problem.key <;> rw [hkey] at hfinding <;>
        first | exact Bool.false_ne_true | cases hfinding
  owned problem hmem hkey := by
    have hfinding := (FindingsAt.findings _ _ _ problem hmem).2
    simp [ProblemKey.isFinding, hkey] at hfinding

end Tally

/-! ## Steps -/

namespace Change

theorem refl (h : s.used.Nodup) : q.Change scope N s s [] :=
  ⟨by simp, rfl, by simp, fun _ => .inl, h⟩

theorem mono (h : q.Change scope N s t new) (hsub : ∀ id, N id → M id) : q.Change scope M s t new :=
  ⟨h.problems, h.context, h.depth, fun id hid => (h.used id hid).imp_right (.imp_left (hsub id)),
    h.nodup⟩

theorem trans (h : q.Change scope N s t new) (k : q.Change scope N t u more) :
    q.Change scope N s u (new ++ more) where
  problems := by rw [k.problems, h.problems, List.append_assoc]
  context := k.context.trans h.context
  depth := by
    have hfirst := h.depth
    have hlast := k.depth
    rw [List.countP_append]
    omega
  used id hid := (k.used id hid).elim (h.used id) .inr
  nodup := k.nodup

/-- If nothing lies too deep in the end, nothing did before. -/
theorem exceeded (h : q.Change scope N s t new) (ht : t.exceeded = false) : s.exceeded = false := by
  have hdepth := h.depth
  rw [ht] at hdepth
  cases hs : s.exceeded with
  | false => rfl
  | true =>
    rw [hs] at hdepth
    exact absurd hdepth (by simp)

end Change

namespace Step

/-- Nodes at which nothing is wrong may be added. -/
theorem widen (h : q.Step scope N s t new) (hsub : ∀ id, N id → M id)
    (hrest : ∀ id, M id → ¬N id → q.findings id = []) : q.Step scope M s t new where
  toChange := h.toChange.mono hsub
  tally := h.tally.mono hsub
  complete ht id hid := by
    by_cases hN : N id
    · exact h.complete ht id hN
    · rw [hrest id hid hN]
      exact List.nil_subset _

/-- **One step after the other**, for nodes that lie apart. -/
theorem trans (h : q.Step scope N s t new) (k : q.Step scope M t u more)
    (hapart : ∀ id, N id → ¬M id) : q.Step scope (fun id => N id ∨ M id) s u (new ++ more) where
  toChange := (h.toChange.mono fun _ => .inl).trans (k.toChange.mono fun _ => .inr)
  tally := h.tally.append_of_apart k.tally hapart
  complete hu id hid := by
    rcases hid with hid | hid
    · exact List.subset_append_of_subset_left _ (h.complete (k.toChange.exceeded hu) id hid)
    · exact List.subset_append_of_subset_right _ (k.complete hu id hid)

end Step

/-! ## Operations -/

namespace Reports

variable {p : Checker α} {f : α → Checker β} {post : α → Prop} {post' : β → Prop}

theorem pure {a : α} (h : post a) : q.Reports context scope (fun _ => False) (pure a) post :=
  fun _ _ hnodup => ⟨h, [], .refl hnodup, .nil, fun _ _ hid => hid.elim⟩

/-- Nodes at which nothing is wrong may be added. -/
theorem widen (h : q.Reports context scope N p post) (hsub : ∀ id, N id → M id)
    (hrest : ∀ id, M id → ¬N id → q.findings id = []) : q.Reports context scope M p post :=
  fun s hs hnodup => by
    obtain ⟨hpost, new, hstep⟩ := h s hs hnodup
    exact ⟨hpost, new, hstep.widen hsub hrest⟩

theorem congr (h : q.Reports context scope N p post) (hiff : ∀ id, N id ↔ M id) :
    q.Reports context scope M p post :=
  h.widen (fun id => (hiff id).mp) fun id hid hno => absurd ((hiff id).mpr hid) hno

theorem weaken {post' : α → Prop} (h : q.Reports context scope N p post)
    (hpost : ∀ a, post a → post' a) : q.Reports context scope N p post' := fun s hs hnodup =>
  ⟨hpost _ (h s hs hnodup).1, (h s hs hnodup).2⟩

/-- **One operation after the other**, for nodes that lie apart. -/
theorem bind {K : α → Nat → Prop} (hp : q.Reports context scope N p post)
    (hf : ∀ a, post a → q.Reports context scope (K a) (f a) post')
    (hapart : ∀ a, post a → ∀ id, N id → ¬K a id)
    (hM : ∀ a, post a → ∀ id, (N id ∨ K a id ↔ M id)) :
    q.Reports context scope M (p >>= f) post' := by
  intro s hs hnodup
  obtain ⟨hpost, new, hstep⟩ := hp s hs hnodup
  obtain ⟨hpost', more, hmore⟩ := hf _ hpost _ (hstep.context.trans hs) hstep.nodup
  refine ⟨hpost', new ++ more, (hstep.trans hmore (hapart _ hpost)).widen
    (fun id => (hM _ hpost id).mp) fun id hid hno => absurd ((hM _ hpost id).mpr hid) hno⟩

/-- An operation comes last that reports nothing. -/
theorem bind_right (hp : q.Reports context scope N p post)
    (hf : ∀ a, post a → q.Reports context scope (fun _ => False) (f a) post') :
    q.Reports context scope N (p >>= f) post' :=
  hp.bind hf (fun _ _ _ _ => id) fun _ _ _ => by simp

theorem discard (h : q.Reports context scope N p post) :
    q.Reports context scope N (discard p) fun _ => True := by
  have hmap : Functor.discard p = p >>= fun _ => Pure.pure PUnit.unit := rfl
  rw [hmap]
  exact h.bind_right fun _ _ => .pure trivial

theorem ask_bind {g : QueryContext → α} (h : q.Reports context scope N (f (g context)) post') :
    q.Reports context scope N (ask g >>= f) post' := by
  intro s hs hnodup
  have hstep := h s hs hnodup
  rw [← hs] at hstep
  exact hstep

theorem inTree_bind {g : Tree → α} (h : q.Reports context scope N (f (g context.tree)) post') :
    q.Reports context scope N (inTree g >>= f) post' := ask_bind h

theorem kindOf_bind {f : NodeKind → Checker β}
    (h : q.Reports context scope N (f (context.tree.kind id)) post') :
    q.Reports context scope N (kindOf id >>= f) post' := inTree_bind (g := (·.kind id)) h

/-- Nothing is reported of a node at which nothing is wrong. -/
theorem of_nil (h : q.findings id = []) {a : α} (hpost : post a) :
    q.Reports context scope (· = id) (Pure.pure a) post :=
  (pure hpost).widen (fun _ => False.elim) (by rintro _ rfl -; exact h)

/-- **What is wrong at a node is reported.** -/
theorem recordFindings (h : problems = q.findings id) :
    q.Reports context scope (· = id) (recordAll problems) fun _ => True := by
  intro s hs hnodup
  subst h
  have hshallow : (q.findings id).countP (·.key == .traversalTooDeep) = 0 := by
    refine List.countP_eq_zero.mpr fun problem hmem hkey => ?_
    have hfinding := (FindingsAt.findings _ _ _ problem hmem).2
    rw [beq_iff_eq.mp hkey] at hfinding
    cases hfinding
  refine ⟨trivial, q.findings id, ⟨rfl, rfl, ?_, fun _ => .inl, hnodup⟩, .findings rfl, ?_⟩
  · rw [hshallow, Nat.zero_add]
    rfl
  · rintro - _ rfl
    exact List.Subset.refl _

/-- What is wrong at a node is reported there, if it is one thing. -/
theorem recordAt {key : ProblemKey} (htree : context.tree = q.tree)
    (h : q.findings id = [q.tree.problemAt key id]) :
    q.Reports context scope (· = id) (recordAt key id) fun _ => True := by
  refine inTree_bind (recordFindings ?_)
  rw [h, htree]
  rfl

/-- What is wrong at a node is reported there, if anything is. -/
theorem recordOption {key? : Option ProblemKey} (htree : context.tree = q.tree)
    (h : q.findings id = key?.toList.map (q.tree.problemAt · id)) :
    q.Reports context scope (· = id)
      (match key? with
        | some key => Check.recordAt key id
        | none => Pure.pure ()) fun _ => True := by
  cases key? with
  | none => exact .of_nil h trivial
  | some key => exact recordAt htree h

end Reports

end Input

end Check

end Jpql
