import Jpql.Proofs.Place.Query
import Jpql.Proofs.Tree.Order

/-! # Places in the tree of a text

Every tree that is read has its nodes in their places (`parse_placed`): their spans fit the text, and
those of the problems of the reader lie in the spans of the nodes they are anchored at.

Children lie in the order of the text (`parse_ordered`). A node lies in its parent, with two exceptions
that both come from a missing part (`parse_nests`): a range and an item of `SET` may start behind the part
they begin with if that is missing, and if nothing else was read for them, they lie behind the end of the
clause around them. -/

namespace Jpql

/-- **The nodes of a tree are in their places.** -/
structure Tree.Placed (tree : Tree) : Prop where
  root : tree.root < tree.size
  whole : tree.span tree.root = ⟨0, Text.byteLength tree.source.toList⟩
  fits : ∀ id < tree.size, (tree.span id).Fits tree.source
  segments : ∀ id < tree.size, ∀ segment ∈ (tree.kind id).segments,
    segment.span.Fits tree.source ∧ segment.span.Inside (tree.span id)
  child_lt : ∀ id, ∀ child ∈ tree.children id, child < id
  nests : ∀ id, ∀ child ∈ tree.children id, Nests tree.kind tree.span id child

/-- **A problem lies at a node of the tree**: it is anchored there, and its span fits the text and lies in
the span of the node. -/
def Problem.LiesIn (problem : Problem) (tree : Tree) : Prop :=
  problem.span.Fits tree.source ∧
    ∃ node, problem.anchor = some node ∧ node < tree.size ∧ problem.span.Inside (tree.span node)

namespace Parse.Draft.Placed

variable {draft : Draft} {env : Env} {root : NodeId}

/-- A draft with a root makes a tree in which everything is in its place. -/
theorem tree (h : draft.Placed env) (hroot : root < draft.size)
    (hwhole : draft.span root = ⟨0, Text.byteLength env.source.toList⟩) :
    (draft.builder.finish env.source root).Placed := by
  have hkind : (draft.builder.finish env.source root).kind = draft.kind :=
    funext (Tree.kind_finish draft.builder env.source root)
  have hspan : (draft.builder.finish env.source root).span = draft.span :=
    funext (Tree.span_finish draft.builder env.source root)
  have hchildren := Tree.children_finish draft env.source root
  refine ⟨hroot, ?_, ?_, ?_, ?_, ?_⟩
  · rw [hspan]
    exact hwhole
  · rw [hspan]
    exact h.fits
  · rw [hspan, hkind]
    exact h.segments
  · rw [hchildren]
    exact h.child_lt
  · rw [hchildren, hkind, hspan]
    exact h.nests

/-- Problems without a node of their own lie at the root. -/
theorem liesIn (h : draft.Placed env) (hroot : root < draft.size)
    (hwhole : draft.span root = ⟨0, Text.byteLength env.source.toList⟩) :
    ∀ problem ∈ draft.problems.map (·.anchoredAt root),
      problem.LiesIn (draft.builder.finish env.source root) := by
  intro problem hmem
  obtain ⟨found, hfound, rfl⟩ := List.mem_map.mp hmem
  obtain ⟨hfits, hanchor⟩ := h.problems found hfound
  refine ⟨hfits, found.anchor.getD root, rfl, ?_⟩
  rw [Tree.span_finish]
  cases hnode : found.anchor with
  | none =>
    refine ⟨hroot, ?_⟩
    show found.span.Inside (draft.span root)
    rw [hwhole]
    exact hfits.inside_whole
  | some node => exact hanchor node hnode

end Parse.Draft.Placed

/-! ## The trees that are read -/

/-- The standard grammar builds subqueries from the word `SELECT` only. -/
theorem Grammar.standard_selectsByWord : Grammar.standard.SelectsByWord := by
  unfold SelectsByWord
  decide +kernel

/-- **Every text is read into a draft with everything in its place**, and the tree is made of that. If
nothing is reported, the nodes below the root mark tokens. -/
theorem parse_draft_placed (source rule : String) (maxDepth : Nat)
    (hrule : (Grammar.standard.rule? rule).isSome = true) :
    ∃ (root : NodeId) (state : Parse.State), parse source rule maxDepth = .ok ⟨state.builder.finish source root,
        (tokenize source).problems ++ state.problems.map (·.anchoredAt root)⟩ ∧
      state.draft.Placed (Parse.textEnv source maxDepth) ∧ root < state.draft.size ∧
      state.draft.span root = ⟨0, Text.byteLength source.toList⟩ ∧
      (state.draft.problems = [] → ∀ id < root,
        (Parse.textEnv source maxDepth).Exact (state.draft.kind id) (state.draft.span id)) := by
  have h := Parse.textEnv_ofText source maxDepth
  obtain ⟨root, state, hrun, hparse⟩ := parse_run source rule maxDepth hrule
  exact ⟨root, state, hparse, Parse.query_placed
    (Parse.level_placing h Grammar.standard_selectsByWord maxDepth) rule (Nat.zero_le _)
    (Parse.Draft.Exact.empty _) root state hrun⟩

/-- **Every text is read into a tree with everything in its place.** The problems of the scanner belong
to no node, those of the reader to one each. -/
theorem parse_placed (source rule : String) (maxDepth : Nat)
    (hrule : (Grammar.standard.rule? rule).isSome = true) :
    ∃ parsed, parse source rule maxDepth = .ok parsed ∧ parsed.tree.source = source ∧
      parsed.tree.Placed ∧ ∃ read, parsed.problems = (tokenize source).problems ++ read ∧
        ∀ problem ∈ read, problem.LiesIn parsed.tree := by
  obtain ⟨root, state, hparse, hplaced, hroot, hwhole, -⟩ :=
    parse_draft_placed source rule maxDepth hrule
  exact ⟨_, hparse, rfl, hplaced.tree hroot hwhole, _, rfl, hplaced.liesIn hroot hwhole⟩

/-- Where nothing is reported nothing is missing, so no node lacks its head. -/
theorem Tree.Schematic.not_lacksHead {tree : Tree} {clean : Prop} (h : tree.Schematic clean)
    (hclean : clean) {id : NodeId} (hid : ∀ child ∈ tree.children id, child < tree.size) :
    ¬(tree.kind id).LacksHead tree.kind := by
  have hbad : ∀ child ∈ tree.children id, tree.kind child ≠ .bad := fun child hc hk => by
    have hwhole := (h.complete hclean child (hid child hc)).1
    rw [hk] at hwhole
    cases hwhole
  intro hlacks
  unfold NodeKind.LacksHead at hlacks
  split at hlacks
  · next root _ _ hk => exact hbad root (by rw [Tree.children, hk]; simp [NodeKind.children]) hlacks
  · next target _ hk => exact hbad target (by rw [Tree.children, hk]; simp [NodeKind.children]) hlacks
  · exact hlacks

/-- **Nodes lie in their parents**, whatever the text. The exceptions are a node that lacks its head,
which may start behind a child, and an empty child that lacks its own, which may lie behind the end of
its parent. If nothing is reported, there are no exceptions. -/
theorem parse_nests (source rule : String) (maxDepth : Nat)
    (hrule : (Grammar.standard.rule? rule).isSome = true) :
    ∃ parsed, parse source rule maxDepth = .ok parsed ∧
      (∀ id parent, parsed.tree.parent? id = some parent →
        Nests parsed.tree.kind parsed.tree.span parent id) ∧
      (parsed.problems = [] → ∀ id parent, parsed.tree.parent? id = some parent →
        (parsed.tree.span id).Inside (parsed.tree.span parent)) := by
  obtain ⟨parsed, hparsed, -, hplaced, -⟩ := parse_placed source rule maxDepth hrule
  have hwf := wellFormed_of_parse hparsed
  obtain ⟨_, hsame, hschema⟩ := parse_schematic source rule maxDepth hrule
  obtain rfl := Except.ok.inj (hparsed.symm.trans hsame)
  refine ⟨_, hparsed, fun id parent hp => hplaced.nests parent id (hwf.of_parent hp).2.2,
    fun hclean id parent hp => ?_⟩
  obtain ⟨-, hlt, hc⟩ := hwf.of_parent hp
  have hhead : ∀ node < parsed.tree.size, ¬(parsed.tree.kind node).LacksHead parsed.tree.kind :=
    fun node hnode => hschema.not_lacksHead hclean fun child hchild =>
      Nat.lt_trans (hplaced.child_lt node child hchild) hnode
  have hadrift : ∀ node < parsed.tree.size, ¬Adrift parsed.tree.kind node := by
    rintro node hnode (hlacks | ⟨range, joins, hk, hlacks⟩)
    · exact hhead node hnode hlacks
    · refine hhead range (Nat.lt_trans (hplaced.child_lt node range ?_) hnode) hlacks
      rw [Tree.children, hk]
      exact List.mem_cons_self
  have hnests := hplaced.nests parent id hc
  exact ⟨hnests.start.resolve_right (hhead parent hlt),
    hnests.stop.resolve_right fun h => hadrift id (Nat.lt_trans (hplaced.child_lt parent id hc) hlt) h.1⟩

/-- A `FROM` clause that nothing follows but a blank: its declaration lies behind it. -/
theorem parse_nests_adrift :
    ∃ parsed, parse "SELECT e FROM " RuleId.statement 1 = .ok parsed ∧
      (∀ id parent, parsed.tree.parent? id = some parent →
        Nests parsed.tree.kind parsed.tree.span parent id) ∧
      (parsed.problems = [] → ∀ id parent, parsed.tree.parent? id = some parent →
        (parsed.tree.span id).Inside (parsed.tree.span parent)) :=
  parse_nests "SELECT e FROM " RuleId.statement 1 (Grammar.standard_registers (by simp))

/-- **Children lie in the order of the text**, whatever the text: one ends before the next starts, or where
it does. -/
theorem parse_ordered (source rule : String) (maxDepth : Nat)
    (hrule : (Grammar.standard.rule? rule).isSome = true) :
    ∃ parsed, parse source rule maxDepth = .ok parsed ∧ ∀ id,
      (parsed.tree.children id).Pairwise (Precedes parsed.tree.span) ∧
        ∀ child ∈ parsed.tree.children id,
          (parsed.tree.span child).start ≤ (parsed.tree.span child).stop := by
  obtain ⟨root, state, hparse, hplaced, -⟩ := parse_draft_placed source rule maxDepth hrule
  have hspan : (state.builder.finish source root).span = state.draft.span :=
    funext (Tree.span_finish state.builder source root)
  have hchildren : (state.builder.finish source root).children = state.draft.children :=
    Tree.children_finish state.draft source root
  refine ⟨_, hparse, fun id => ?_⟩
  rw [hchildren, hspan]
  exact ⟨hplaced.ordered id, fun child hc => (hplaced.fits child (hplaced.child_lt_size hc)).ordered⟩

/-- An `UPDATE` whose range is missing and whose first item is empty. -/
theorem parse_ordered_adrift :
    ∃ parsed, parse "UPDATE  SET , e. = (SELECT ( ,   " RuleId.statement 3 = .ok parsed ∧ ∀ id,
      (parsed.tree.children id).Pairwise (Precedes parsed.tree.span) ∧
        ∀ child ∈ parsed.tree.children id,
          (parsed.tree.span child).start ≤ (parsed.tree.span child).stop :=
  parse_ordered "UPDATE  SET , e. = (SELECT ( ,   " RuleId.statement 3
    (Grammar.standard_registers (by simp))

end Jpql
