import Jpql.Proofs.Nesting.Query
import Jpql.Proofs.Place.Tree
import Jpql.Proofs.Recovery.Account

/-! # The limit on nesting

* `parse_openLevels`: a tree is nowhere deeper than the limit, and text is cut off only at places where
  as many levels are open as the limit allows.
* `parse_allowing`: a limit at which nothing is cut off can be raised without any effect.

Both come from one run of the reader, or from two runs side by side (`Parse.nests_query`). -/

namespace Jpql

namespace Tree

variable {tree : Tree} {whole : Bool} {id parent : NodeId}

/-- **From the root downwards.** What holds of the root, and of every node whose parent it holds of, holds
of all nodes. -/
theorem WellFormed.downwards (h : tree.WellFormed) {holds : NodeId → Prop} (hroot : holds tree.root)
    (hchild : ∀ id parent, tree.parent? id = some parent → holds parent → holds id) :
    ∀ id < tree.size, holds id := by
  intro id hid
  induction hn : tree.size - id using Nat.strong_induction_on generalizing id with
  | _ n ih =>
    by_cases hr : id = tree.root
    · rwa [hr]
    · obtain ⟨parent, hp, hlt, hsize, -⟩ := h.parent id hid hr
      exact hchild id parent hp (ih (tree.size - parent) (by omega) parent hsize rfl)

/-- What a node opens depends on its parent. -/
theorem opensLevel_of_parent (hp : tree.parent? id = some parent) :
    (tree.opensLevel whole id).toNat = (tree.kind id).opens ((tree.kind parent).holdsSubquery whole) := by
  rw [opensLevel, hp]
  rfl

theorem WellFormed.openLevels_of_parent (h : tree.WellFormed) (hp : tree.parent? id = some parent) :
    tree.openLevels whole id = tree.openLevels whole parent +
      (tree.kind id).opens ((tree.kind parent).holdsSubquery whole) := by
  rw [openLevels, h.ancestors_eq hp, List.countP_cons, ← opensLevel_of_parent hp, openLevels]
  cases tree.opensLevel whole id <;> rfl

theorem WellFormed.openLevels_root (h : tree.WellFormed) :
    tree.openLevels whole tree.root = (tree.kind tree.root).opens false := by
  have hnone : tree.ancestors tree.root = [] := by
    rw [ancestors, h.root_parent]
    cases tree.size <;> rfl
  have hopens : tree.opensLevel whole tree.root =
      ((tree.kind tree.root).opensLevel || ((tree.kind tree.root).isSubquery && !false)) := by
    rw [opensLevel, h.root_parent]
    rfl
  rw [openLevels, hnone, List.countP_cons, List.countP_nil, hopens, NodeKind.opens]
  cases (tree.kind tree.root).opensLevel || ((tree.kind tree.root).isSubquery && !false) <;> rfl

/-- Constructs other than subqueries are some of those that open a level. -/
theorem countP_opensLevel_le (tree : Tree) (whole : Bool) (id : NodeId) :
    (id :: tree.ancestors id).countP (fun node => (tree.kind node).opensLevel) ≤
      tree.openLevels whole id :=
  List.countP_mono_left fun node _ hopens => by rw [opensLevel, hopens, Bool.true_or]

end Tree

/-- **The levels that are left below a node** are those that are allowed without those that are open. -/
theorem Parse.Draft.Within.openLevels {draft : Draft} {whole : Bool} {levels : Nat} {root : NodeId}
    (hroot : draft.Within whole false levels root) (source : String)
    (hwf : (draft.builder.finish source root).WellFormed) :
    ∀ id < (draft.builder.finish source root).size, ∃ left,
      (draft.builder.finish source root).openLevels whole id + left = levels ∧
        draft.Below whole left id := by
  have hkind : ∀ id, (draft.builder.finish source root).kind id = draft.kind id :=
    Tree.kind_finish draft.builder source root
  refine hwf.downwards ?_ fun id parent hp ⟨left, hsum, hbelow⟩ => ?_
  · refine ⟨_, ?_, hroot.below⟩
    rw [hwf.openLevels_root, hkind]
    exact Nat.add_sub_cancel' hroot.opens_le
  · have hchild : id ∈ draft.children parent := by
      rw [← Tree.children_finish draft source root]
      exact (hwf.of_parent hp).2.2
    have hwithin := hbelow.children id hchild
    refine ⟨_, ?_, hwithin.below⟩
    rw [hwf.openLevels_of_parent hp, hkind, hkind, Nat.add_assoc,
      Nat.add_sub_cancel' hwithin.opens_le, hsum]

/-- One run of the reader, with what the limit has to do with it. -/
theorem parse_descent (source rule : String) (limit more : Nat) (hle : limit ≤ more)
    (hrule : (Grammar.standard.rule? rule).isSome = true) :
    ∃ (root : NodeId) (state : Parse.State), parse source rule limit = .ok ⟨state.builder.finish source root,
        (tokenize source).problems ++ state.problems.map (·.anchoredAt root)⟩ ∧
      state.draft.Within (Parse.isWhole rule) false limit root ∧ state.draft.CutsNodes ∧
      (state.IsShallow → parse source rule more = .ok ⟨state.builder.finish source root,
        (tokenize source).problems ++ state.problems.map (·.anchoredAt root)⟩) := by
  obtain ⟨root, state, hrun, hparse⟩ := parse_run source rule limit hrule
  obtain ⟨other, stopped, hother, hparse'⟩ := parse_run source rule more hrule
  have hfitting : (Parse.level limit).Fitting (Parse.textEnv source limit) more (Parse.isWhole rule)
      limit (Parse.level more) := Parse.level_fitting Grammar.standard_selectsByWord hle
  have hempty : Parse.State.initial.Proper (Parse.textEnv source limit) :=
    ⟨Nat.zero_le _, fun _ hmem => absurd hmem List.not_mem_nil⟩
  obtain ⟨honward, hsame, hroot⟩ :=
    Parse.nests_query hfitting rfl .initial hempty trivial root state hrun
  refine ⟨root, state, hparse, hroot, honward.proper.cuts, fun hshallow => ?_⟩
  have hagree := (hsame hshallow).symm.trans hother
  cases hagree
  exact hparse'

/-- **No text is read deeper than the limit allows.** From a registered rule, on the way from any node up
to the root there are at most `maxDepth` nodes that open a level, also if subqueries are counted, and
text is cut off exactly where `maxDepth` levels are open. So the levels that are left are the same before
and after each nested construct: a reader that gave back too few of them would cut text off where fewer
levels are open, and one that gave back too many would go deeper. -/
theorem parse_openLevels (source rule : String) (maxDepth : Nat)
    (hrule : (Grammar.standard.rule? rule).isSome = true) :
    ∃ parsed, parse source rule maxDepth = .ok parsed ∧
      (∀ id < parsed.tree.size,
        (id :: parsed.tree.ancestors id).countP (fun node => (parsed.tree.kind node).opensLevel) ≤
            parsed.tree.openLevels (Parse.isWhole rule) id ∧
          parsed.tree.openLevels (Parse.isWhole rule) id ≤ maxDepth) ∧
      ∀ problem ∈ parsed.problems, problem.key = .nestingTooDeep →
        ∃ id < parsed.tree.size, problem.anchor = some id ∧
          parsed.tree.openLevels (Parse.isWhole rule) id = maxDepth := by
  obtain ⟨root, state, hparse, hroot, hcuts, -⟩ :=
    parse_descent source rule maxDepth maxDepth (Nat.le_refl _) hrule
  have hlevels := hroot.openLevels source (wellFormed_of_parse hparse)
  refine ⟨_, hparse, fun id hid => ⟨Tree.countP_opensLevel_le _ _ id, ?_⟩, fun problem hmem hkey => ?_⟩
  · obtain ⟨left, hsum, -⟩ := hlevels id hid
    exact Nat.le.intro hsum
  · rcases List.mem_append.mp hmem with hscanned | hread
    · have hplain := Scan.scan_problems 0 0 _ problem hscanned
      rw [hkey] at hplain
      cases hplain
    · obtain ⟨found, hfound, rfl⟩ := List.mem_map.mp hread
      obtain ⟨id, hid, hanchor⟩ := hcuts found hfound hkey
      obtain ⟨left, hsum, hbelow⟩ := hlevels id hid
      have hzero : left = 0 := hbelow.cut ⟨found, hfound, hkey, hanchor⟩
      refine ⟨id, hid, ?_, by rwa [hzero] at hsum⟩
      rw [Problem.anchor_anchoredAt, hanchor]
      rfl

/-- A text in which a parenthesis lies too deep, below a sign. -/
theorem parse_openLevels_reached :
    ∃ parsed, parse "SELECT - (e.a) FROM E e WHERE (" RuleId.statement 1 = .ok parsed ∧
      (∀ id < parsed.tree.size,
        (id :: parsed.tree.ancestors id).countP (fun node => (parsed.tree.kind node).opensLevel) ≤
            parsed.tree.openLevels (Parse.isWhole RuleId.statement) id ∧
          parsed.tree.openLevels (Parse.isWhole RuleId.statement) id ≤ 1) ∧
      ∀ problem ∈ parsed.problems, problem.key = .nestingTooDeep →
        ∃ id < parsed.tree.size, problem.anchor = some id ∧
          parsed.tree.openLevels (Parse.isWhole RuleId.statement) id = 1 :=
  parse_openLevels "SELECT - (e.a) FROM E e WHERE (" RuleId.statement 1 (by decide +kernel)

/-- **Raising the limit has no effect unless text was cut off.** From a registered rule every text is read
with every limit, and if nothing was cut off, every higher limit leads to the same tree and to the same
problems in the same order. -/
theorem parse_allowing (source rule : String) (limit more : Nat) (hle : limit ≤ more)
    (hrule : (Grammar.standard.rule? rule).isSome = true) :
    ∃ parsed, parse source rule limit = .ok parsed ∧
      ((∀ problem ∈ parsed.problems, problem.key ≠ .nestingTooDeep) →
        parse source rule more = .ok parsed) := by
  obtain ⟨root, state, hparse, -, -, hsame⟩ := parse_descent source rule limit more hle hrule
  refine ⟨_, hparse, fun hshallow => hsame fun problem hmem => ?_⟩
  have hanchored : problem.anchoredAt root ∈ state.problems.map (·.anchoredAt root) :=
    List.mem_map_of_mem hmem
  exact hshallow (problem.anchoredAt root) (List.mem_append_right _ hanchored)

/-- A text with problems of other kinds, with as many levels as the lower limit allows. -/
theorem parse_allowing_reached :
    ∃ parsed, parse "SELECT - (e.a FROM E e, WHERE" RuleId.statement 2 = .ok parsed ∧
      parse "SELECT - (e.a FROM E e, WHERE" RuleId.statement 9 = .ok parsed := by
  obtain ⟨parsed, hparse, hsame⟩ :=
    parse_allowing "SELECT - (e.a FROM E e, WHERE" RuleId.statement 2 9 (by decide) (by decide +kernel)
  refine ⟨parsed, hparse, hsame ?_⟩
  have hshallow : (match parse "SELECT - (e.a FROM E e, WHERE" RuleId.statement 2 with
      | .ok parsed => parsed.problems.all (·.key != .nestingTooDeep)
      | .error _ => false) = true := by decide +kernel
  rw [hparse] at hshallow
  simpa using hshallow

end Jpql
