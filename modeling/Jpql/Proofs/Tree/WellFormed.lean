import Jpql.Proofs.Reader.Query

/-! # Trees are well formed

* `Tree.WellFormed`: the nodes of the arena make up one rooted tree, whose root is the last node.
  `parse_wellFormed` says so of every tree that is read.
* `Tree.Schematic`: every node follows the schema, and is complete if nothing was reported.
  `parse_schematic` says so of every tree that is read.

Both come from the draft that the reader leaves at its end, in which only the root is loose. -/

namespace Jpql

namespace Tree

/-- **The nodes make up one tree.** The root is the last node; every child has its node for a parent;
every other node than the root has one parent, which was added after it and lists it once; no other
node lists it; and a walk from the root meets every node once. -/
structure WellFormed (tree : Tree) : Prop where
  root_last : tree.root + 1 = tree.size
  root_parent : tree.parent? tree.root = none
  child : ∀ id child, child ∈ tree.children id → tree.parent? child = some id
  parent : ∀ id < tree.size, id ≠ tree.root → ∃ parent, tree.parent? id = some parent ∧
    id < parent ∧ parent < tree.size ∧ (tree.children parent).count id = 1 ∧
    ∀ other, other ≠ parent → id ∉ tree.children other
  descendants : (tree.descendants tree.root).Perm (List.range tree.size)

/-- **Every node follows the schema**, and where `clean` holds none lacks anything. -/
structure Schematic (tree : Tree) (clean : Prop) : Prop where
  conforms : ∀ id < tree.size, (tree.kind id).Conforms tree.kind
  complete : clean → ∀ id < tree.size, (tree.kind id).Complete tree.kind

/-! ## Walks from the root -/

/-- The walk from the last node of a forest with a single tree meets every node once. -/
theorem descendants_perm {tree : Tree} {root : Nat}
    (h : Forest tree.children 0 (root + 1) [root]) :
    (tree.descendants root).Perm (List.range (root + 1)) := by
  obtain ⟨listing, hperm, hlisting⟩ := preorder_append h
  have hlength : listing.length = tree.weight (root + 1) root := by
    have hweight := sum_weight h (Nat.le_refl _)
    rw [List.map_singleton, List.sum_singleton] at hweight
    rw [hperm.length_eq, List.length_range', hweight]
  have hwalk := hlisting 0 []
  rw [Nat.add_zero, List.append_nil, preorder, List.append_nil] at hwalk
  rw [descendants, ← hlength, hwalk, List.range_eq_range']
  exact hperm

end Tree

/-! ## From drafts to trees -/

section

variable (builder : TreeBuilder) (source : String) (root : Nat)

theorem Tree.kind_finish (id : Nat) : (builder.finish source root).kind id = builder.kind id := by
  show (builder.nodes[id]?.getD _).kind = (builder.nodes[id]?.map (·.kind)).getD .bad
  cases builder.nodes[id]? <;> rfl

theorem Tree.parent?_finish (id : Nat) :
    (builder.finish source root).parent? id = builder.parent? id := by
  show (builder.nodes[id]?.getD _).parent = builder.nodes[id]?.bind (·.parent)
  cases builder.nodes[id]? <;> rfl

end

theorem Tree.children_finish (draft : Parse.Draft) (source : String) (root : Nat) :
    (draft.builder.finish source root).children = draft.children :=
  funext fun id => by rw [Tree.children, Tree.kind_finish]; rfl

namespace Parse.Draft.Sound

variable {draft : Draft} {root : Nat}

theorem wellFormed (h : draft.Sound [root]) (source : String) :
    (draft.builder.finish source root).WellFormed := by
  have hlast : root + 1 = draft.size := h.forest.next_eq.symm
  refine ⟨hlast, ?_, fun id child hc => ?_, fun id hi hne => ?_, ?_⟩
  · rw [Tree.parent?_finish]
    exact h.parent_loose root (List.mem_singleton_self _)
  · rw [Tree.children_finish] at hc
    rw [Tree.parent?_finish]
    exact h.parent_child id child hc
  · rcases h.forest.parent_exists (Nat.zero_le id) hi with hr | ⟨parent, hlt, hp, hc⟩
    · exact absurd (List.mem_singleton.mp hr) hne
    · refine ⟨parent, ?_, hlt, hp, ?_, fun other ho hother => ?_⟩
      · rw [Tree.parent?_finish]
        exact h.parent_child parent id hc
      · rw [Tree.children_finish]
        rw [(h.forest.children_nodup (Nat.zero_le _) hp).count, if_pos hc]
      · rw [Tree.children_finish] at hother
        have hparent := h.parent_child other id hother
        rw [h.parent_child parent id hc, Option.some_inj] at hparent
        exact ho hparent.symm
  · show (Tree.descendants _ root).Perm (List.range draft.size)
    rw [← hlast]
    refine Tree.descendants_perm ?_
    rw [Tree.children_finish, hlast]
    exact h.forest

theorem schematic (h : draft.Sound [root]) (source : String) {clean : Prop}
    (hclean : clean → draft.problems = []) :
    (draft.builder.finish source root).Schematic clean := by
  have hkind : (draft.builder.finish source root).kind = draft.kind :=
    funext (Tree.kind_finish draft.builder source root)
  constructor
  · rw [hkind]
    exact h.conforms
  · rw [hkind]
    exact fun hc => h.complete (hclean hc)

end Parse.Draft.Sound

/-! ## The trees that are read -/

theorem wellFormed_of_parse {source rule : String} {maxDepth : Nat} {parsed : Parsed}
    (hparse : parse source rule maxDepth = .ok parsed) : parsed.tree.WellFormed := by
  obtain ⟨_, hsame, draft, htree, hsound, -⟩ :=
    parse_draft source rule maxDepth (isSome_rule_of_parse hparse)
  obtain rfl := Except.ok.inj (hparse.symm.trans hsame)
  rw [htree]
  exact hsound.wellFormed source

/-- **Every text is read into one well-formed tree**, from every rule there is and with every limit
on nesting. -/
theorem parse_wellFormed (source rule : String) (maxDepth : Nat)
    (hrule : (Grammar.standard.rule? rule).isSome = true) :
    ∃ parsed, parse source rule maxDepth = .ok parsed ∧ parsed.tree.WellFormed := by
  obtain ⟨parsed, hparsed, -⟩ := parse_draft source rule maxDepth hrule
  exact ⟨parsed, hparsed, wellFormed_of_parse hparsed⟩

/-- A text that stops in the middle, and goes too deep before. -/
theorem parse_wellFormed_malformed :
    ∃ parsed, parse "SELECT ((e. FROM" RuleId.statement 1 = .ok parsed ∧ parsed.tree.WellFormed :=
  parse_wellFormed "SELECT ((e. FROM" RuleId.statement 1 (by decide +kernel)

/-- **Every tree that is read follows the schema.** If no problem is reported, nothing is left out
of it. -/
theorem parse_schematic (source rule : String) (maxDepth : Nat)
    (hrule : (Grammar.standard.rule? rule).isSome = true) :
    ∃ parsed, parse source rule maxDepth = .ok parsed ∧
      parsed.tree.Schematic (parsed.problems = []) := by
  obtain ⟨parsed, hparsed, draft, htree, hsound, hclean, -⟩ := parse_draft source rule maxDepth hrule
  refine ⟨parsed, hparsed, ?_⟩
  rw [htree]
  exact hsound.schematic source hclean

end Jpql
