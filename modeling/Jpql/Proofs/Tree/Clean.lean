import Jpql.Proofs.Tree.Order

/-! # Clean trees

A text that is read without a problem gives a tree that lacks nothing: `Tree.IsClean`, and
`parse_isClean`, which says so for every rule. The rest reads off what the schema then says of a node
and its children.

* `Tree.IsClean.admits`: a child fits its slot.
* `Tree.IsClean.virtual_path`: a virtual variable stands for a path below a virtual variable.
* `Tree.IsClean.isPathPart_of_holds`: paths hold nothing but parts of paths. -/

namespace Jpql

namespace NodeKind

/-- The kinds of nodes that paths are made of. -/
def isPathPart : NodeKind → Bool
  | .identifier .. | .path .. | .key _ | .value _ | .treat .. | .entityType _ => true
  | _ => false

theorem isPathPart_of_isVariableOrPath {kind : NodeKind} (h : kind.isVariableOrPath = true) :
    kind.isPathPart = true := by
  cases kind <;> first | rfl | exact absurd h Bool.false_ne_true

theorem isPathPart_of_admits {kind : NodeKind} {slot : Slot}
    (hslot : slot = .pathRoot ∨ slot = .virtualPath ∨ slot = .entityType)
    (hadmits : slot.admits kind = true) (hbad : kind ≠ .bad) : kind.isPathPart = true := by
  rcases hslot with rfl | rfl | rfl
  all_goals
    cases kind <;> first
      | rfl
      | exact absurd rfl hbad
      | exact absurd hadmits Bool.false_ne_true

theorem not_isStatement_of_isPathPart {kind : NodeKind} (h : kind.isPathPart = true) :
    kind.isStatement = false := by
  cases kind <;> first | rfl | exact absurd h Bool.false_ne_true

end NodeKind

namespace Tree

variable {tree : Tree}

/-- A node without children holds itself alone. -/
theorem Holds.eq_of_leaf (hwf : tree.WellFormed) {id inner : Nat} (hleaf : tree.children id = [])
    (h : tree.Holds id inner) : inner = id := by
  rcases h.cases hwf with he | ⟨child, hc, -⟩
  · exact he
  · rw [hleaf] at hc
    cases hc

/-- Outside of the tree there are no nodes of a kind of their own. -/
theorem lt_size_of_kind {id : Nat} (hkind : tree.kind id ≠ .bad) : id < tree.size := by
  by_contra hge
  have hnone : tree.nodes[id]? = none := Array.getElem?_eq_none (Nat.le_of_not_lt hge)
  exact hkind (by rw [Tree.kind, Tree.node, hnone]; rfl)

/-- **The tree of a text without problems**: it is well formed, follows the schema, and lacks nothing;
its root holds what was read, and no text behind it. -/
structure IsClean (tree : Tree) (statement : Nat) : Prop where
  wellFormed : tree.WellFormed
  schematic : tree.Schematic True
  root : tree.kind tree.root = .query (some statement) none

namespace IsClean

variable {statement : Nat} (h : tree.IsClean statement)

include h

theorem complete {id : Nat} (hlt : id < tree.size) : (tree.kind id).Complete tree.kind :=
  h.schematic.complete trivial id hlt

theorem ne_bad {id : Nat} (hlt : id < tree.size) : tree.kind id ≠ .bad := fun hbad => by
  have hwhole := (h.complete hlt).1
  rw [hbad] at hwhole
  exact absurd hwhole Bool.false_ne_true

theorem lt_of_child {id child : Nat} (hc : child ∈ tree.children id) : child < tree.size := by
  have hparent := h.wellFormed.of_parent (h.wellFormed.child id child hc)
  exact Nat.lt_trans hparent.1 hparent.2.1

theorem admits {id child : Nat} {slot : Slot} (hs : (child, slot) ∈ (tree.kind id).slots) :
    slot.admits (tree.kind child) = true :=
  (h.schematic.conforms id (h.wellFormed.of_parent (h.wellFormed.child id child
    (NodeKind.mem_children_of_mem_slots hs))).2.1).admits hs

/-- The argument of what is written with a variable or a path. -/
theorem takes {id argument : Nat} (ha : (tree.kind id).argument? = some argument) :
    (tree.kind id).Takes tree.kind argument :=
  (h.complete (h.wellFormed.of_parent (h.wellFormed.child id argument
    (NodeKind.argument?_mem_children ha))).2.1).2 argument ha

/-- The path of a virtual variable starts from a virtual variable. -/
theorem virtual_path {id path : Nat} {name : String} {isVirtual : Bool}
    (hk : tree.kind id = .identifier name isVirtual (some path)) :
    ∃ root segments dot owner, tree.kind path = .path .stateField root segments dot ∧
      tree.kind root = .identifier owner true none := by
  have htakes := h.takes (show (tree.kind id).argument? = some path by rw [hk]; rfl)
  rw [hk] at htakes
  exact htakes

/-- A written variable stands for nothing else. -/
theorem behind_eq_none {id : Nat} {name : String} {behind : Option Nat}
    (hk : tree.kind id = .identifier name false behind) : behind = none := by
  have hwhole := (h.complete (lt_size_of_kind (by rw [hk]; simp))).1
  rw [hk] at hwhole
  simpa [NodeKind.isWhole] using hwhole

theorem isPathPart_of_child {id child : Nat} (hc : child ∈ tree.children id)
    (hk : (tree.kind id).isPathPart = true) : (tree.kind child).isPathPart = true := by
  have hbad := h.ne_bad (h.lt_of_child hc)
  obtain ⟨slot, hslot⟩ := NodeKind.exists_slot hc
  have hadmits := h.admits hslot
  have htakes := @IsClean.takes tree statement h id child
  cases hkid : tree.kind id <;> rw [hkid] at hk hslot htakes <;>
    first | exact absurd hk Bool.false_ne_true | skip
  case key | value =>
    obtain ⟨rfl, -⟩ : child = _ ∧ _ := by simpa [NodeKind.slots] using hslot
    exact NodeKind.isPathPart_of_isVariableOrPath (htakes rfl)
  case treat =>
    simp only [NodeKind.slots, List.mem_cons, Prod.mk.injEq, List.not_mem_nil, or_false] at hslot
    rcases hslot with ⟨rfl, rfl⟩ | ⟨rfl, rfl⟩
    · exact NodeKind.isPathPart_of_isVariableOrPath (htakes rfl)
    · exact NodeKind.isPathPart_of_admits (by simp) hadmits hbad
  case identifier | path =>
    refine NodeKind.isPathPart_of_admits ?_ hadmits hbad
    simp only [NodeKind.slots, List.mem_map, List.mem_cons, List.not_mem_nil, Prod.mk.injEq] at hslot
    grind
  case entityType => simp [NodeKind.slots] at hslot

theorem isPathPart_of_holds {id inner : Nat} (hk : (tree.kind id).isPathPart = true)
    (hh : tree.Holds id inner) : (tree.kind inner).isPathPart = true := by
  induction hh with
  | refl => exact hk
  | up hp _ ih => exact h.isPathPart_of_child (h.wellFormed.of_parent hp).2.2 ih

end IsClean

end Tree

/-- **What is read without a problem is clean**, from any rule there is. -/
theorem parse_isClean {source rule : String} {maxDepth : Nat} {parsed : Parsed}
    (hrule : (Grammar.standard.rule? rule).isSome = true)
    (hparse : parse source rule maxDepth = .ok parsed) (hclean : parsed.problems = []) :
    ∃ statement, parsed.tree.IsClean statement ∧ (rule = RuleId.statement →
      (parsed.tree.kind statement).isOuterStatement = true) := by
  obtain ⟨other, hother, draft, htree, hsound, hproblems, statement, leftover, hroot, houter⟩ :=
    parse_draft source rule maxDepth hrule
  obtain rfl := Except.ok.inj (hparse.symm.trans hother)
  have hkind : ∀ id, parsed.tree.kind id = draft.kind id := fun id => by
    rw [htree]
    exact Tree.kind_finish draft.builder source _ id
  have hwf : parsed.tree.WellFormed := by
    rw [htree]
    exact hsound.wellFormed source
  have hschematic : parsed.tree.Schematic True := by
    rw [htree]
    exact hsound.schematic source fun _ => hproblems hclean
  have hlt : parsed.tree.root < parsed.tree.size :=
    Nat.lt_of_lt_of_eq (Nat.lt_succ_self _) hwf.root_last
  have hwhole := (hschematic.complete trivial _ hlt).1
  rw [hkind, hroot] at hwhole
  obtain ⟨hstatement, hleftover⟩ : statement.isSome = true ∧ leftover = none := by
    simpa [NodeKind.isWhole] using hwhole
  obtain ⟨statement, rfl⟩ := Option.isSome_iff_exists.mp hstatement
  refine ⟨statement, ⟨hwf, hschematic, ?_⟩, fun hstart => ?_⟩
  · rw [hkind, hroot, hleftover]
  · rw [hkind]
    exact houter hstart statement rfl

end Jpql
