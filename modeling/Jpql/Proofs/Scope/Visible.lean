import Jpql.Check.NameRule
import Jpql.Proofs.Scope.Names
import Jpql.Proofs.Tree.Clean

/-! # The names visible at a node

* `QueryContext.around`: the context of a node, read off the tree.
* `Tree.DeclaresName`: a statement declares a name, ignoring case.
* `Tree.IsQuery`: the tree of a query that was read without a problem; `parse_isQuery` says that it
  is one.
* `QueryContext.contains_allVariables`: the table of all variables at a node has the names that the
  statements around it declare. -/

namespace Jpql

namespace NodeKind

/-- The node is a subquery. -/
def isSubquery : NodeKind → Bool
  | .simpleSelectStatement .. => true
  | _ => false

theorem isStatement_of_isSubquery {kind : NodeKind} (h : kind.isSubquery = true) :
    kind.isStatement = true := by
  cases kind <;> first | rfl | exact absurd h Bool.false_ne_true

end NodeKind

/-- **The context of a node**: that of the query, with the subqueries around the node entered. -/
def QueryContext.around (tree : Tree) (metamodel : Metamodel) (id : Nat) : QueryContext :=
  { QueryContext.ofTree tree metamodel with
    subqueries := ((tree.ancestors id).filter fun outer => (tree.kind outer).isSubquery).map
      (Scope.ofStatement tree) }

/-! ## Tables of variables -/

namespace Scope

/-- A table with the names of a scope added. -/
theorem contains_addTo (scope : Scope) (table : DeclaredVariables) (name : String) :
    (scope.addTo table).contains name = true ↔
      (∃ entry ∈ scope.names, Text.upperCase entry.1 = Text.upperCase name) ∨
        table.contains name = true := by
  unfold addTo
  induction scope.names generalizing table with
  | nil => simp
  | cons entry rest ih =>
    rw [List.foldl_cons, ih, DeclaredVariables.contains_insert, Bool.or_eq_true, beq_iff_eq]
    simp only [List.mem_cons, exists_eq_or_imp]
    rw [or_left_comm, or_assoc]

theorem contains_foldr (scopes : List Scope) (name : String) :
    (scopes.foldr addTo .empty).contains name = true ↔
      ∃ scope ∈ scopes, ∃ entry ∈ scope.names, Text.upperCase entry.1 = Text.upperCase name := by
  induction scopes with
  | nil => simp [DeclaredVariables.contains, DeclaredVariables.empty]
  | cons scope scopes ih =>
    rw [List.foldr_cons, contains_addTo, ih]
    simp

end Scope

namespace Tree

variable {tree : Tree}

/-- **A statement or subquery declares a name**, ignoring case. -/
def DeclaresName (tree : Tree) (statement : Nat) (name : String) : Prop :=
  ∃ id other, tree.IsIntroduced id ∧ tree.scopeNode? id = some statement ∧
    tree.IsNamed id other ∧ Text.upperCase other = Text.upperCase name

/-- A name is declared by the statement that most closely encloses a node, or by one around it. -/
def IsVisible (tree : Tree) (id : Nat) (name : String) : Prop :=
  ∃ statement ∈ tree.scopes id, tree.DeclaresName statement name

/-! ## Where statements stand -/

theorem statement_of_mem_scopes {id outer : Nat} (hmem : outer ∈ tree.scopes id) :
    outer < tree.size ∧ (tree.kind outer).isStatement = true := by
  have hkind := (List.mem_filter.mp hmem).2
  refine ⟨lt_size_of_kind fun hbad => ?_, hkind⟩
  rw [hbad] at hkind
  exact absurd hkind Bool.false_ne_true

namespace IsClean

variable {statement : Nat} (h : tree.IsClean statement)

include h

theorem parent_statement : tree.parent? statement = some tree.root := by
  refine h.wellFormed.child tree.root statement ?_
  rw [Tree.children, h.root]
  exact List.mem_cons_self

/-- A query lies in no other node. -/
theorem eq_root {id : Nat} {child other : Option Nat} (hk : tree.kind id = .query child other) :
    id = tree.root := by
  by_contra hne
  obtain ⟨parent, hp, -⟩ := h.wellFormed.parent id (lt_size_of_kind (by rw [hk]; simp)) hne
  have hparent := h.wellFormed.of_parent hp
  obtain ⟨slot, hslot⟩ := NodeKind.exists_slot hparent.2.2
  have hadmits := (h.schematic.conforms parent hparent.2.1).admits hslot
  rw [hk] at hadmits
  cases slot <;> exact absurd hadmits Bool.false_ne_true

/-- **All but the query itself lies in its statement.** -/
theorem holds_of_ne_root {id : Nat} (hlt : id < tree.size) (hne : id ≠ tree.root) :
    tree.Holds statement id := by
  rcases (Holds.of_root h.wellFormed hlt).cases h.wellFormed with he | ⟨child, hc, hheld⟩
  · exact absurd he hne
  · rw [Tree.children, h.root] at hc
    obtain rfl : child = statement := by simpa [NodeKind.children] using hc
    exact hheld

/-- The statement of the query is the only one that is no subquery. -/
theorem eq_statement {id parent : Nat} (hp : tree.parent? id = some parent)
    (hk : (tree.kind id).isOuterStatement = true) : id = statement := by
  have hparent := h.wellFormed.of_parent hp
  obtain ⟨slot, hslot⟩ := NodeKind.exists_slot hparent.2.2
  have hadmits := (h.schematic.conforms parent hparent.2.1).admits hslot
  have hstart : slot = .start := by
    cases hkid : tree.kind id <;> rw [hkid] at hk hadmits <;> first
      | exact absurd hk Bool.false_ne_true
      | (cases slot <;> first | rfl | exact absurd hadmits Bool.false_ne_true)
  subst hstart
  have hhost := Slot.isHost_of_mem hslot
  cases hkp : tree.kind parent with
  | query child other =>
    obtain rfl := h.eq_root hkp
    rw [h.root] at hslot
    simpa [NodeKind.slots] using hslot
  | _ =>
    rw [hkp] at hhost
    exact absurd hhost Bool.false_ne_true

theorem statementOf_eq : QueryContext.statementOf tree = statement := by
  rw [QueryContext.statementOf, h.root]

theorem ancestors_statement : tree.ancestors statement = [tree.root] := by
  rw [h.wellFormed.ancestors_eq h.parent_statement, ancestors, h.wellFormed.root_parent]
  cases tree.size <;> rfl

end IsClean

/-- **The tree of a clean query**: its root holds a statement. -/
structure IsQuery (tree : Tree) (statement : Nat) : Prop extends tree.IsClean statement where
  outer : (tree.kind statement).isOuterStatement = true

namespace IsQuery

variable {statement : Nat} (h : tree.IsQuery statement)

include h

/-- Every other statement is a subquery. -/
theorem isStatement_eq {id parent : Nat} (hp : tree.parent? id = some parent)
    (hne : id ≠ statement) : (tree.kind id).isStatement = (tree.kind id).isSubquery := by
  cases hk : tree.kind id <;> first
    | rfl
    | exact absurd (h.eq_statement hp (by rw [hk]; rfl)) hne

theorem not_isSubquery : (tree.kind statement).isSubquery = false := by
  have houter := h.outer
  cases hk : tree.kind statement <;> rw [hk] at houter <;>
    first | rfl | exact absurd houter Bool.false_ne_true

theorem scopes_statement : tree.scopes statement = [] := by
  have hnone : tree.scopes tree.root = [] := by
    rw [scopes, ancestors, h.wellFormed.root_parent]
    cases tree.size <;> rfl
  rw [scopes_of_parent h.wellFormed h.parent_statement, h.root]
  exact hnone

/-- What lies in a scope lies in the statement. -/
theorem holds_of_scopeNode? {id scope : Nat} (hscope : tree.scopeNode? id = some scope) :
    tree.Holds statement id ∧ id ≠ statement := by
  obtain ⟨parent, hp, -⟩ := scopeNode?_cases h.wellFormed hscope
  have hlt := (h.wellFormed.of_parent hp).1
  have hsize := (h.wellFormed.of_parent hp).2.1
  have hne : id ≠ statement := fun he => by
    rw [scopeNode?, he, h.scopes_statement] at hscope
    cases hscope
  refine ⟨h.holds_of_ne_root (Nat.lt_trans hlt hsize) ?_, hne⟩
  rintro rfl
  rw [h.wellFormed.root_parent] at hp
  cases hp

/-- **The scopes around a node of the statement** are the subqueries around it and the statement. -/
theorem scopes_eq {id : Nat} (hholds : tree.Holds statement id) (hne : id ≠ statement) :
    tree.scopes id =
      ((tree.ancestors id).filter fun outer => (tree.kind outer).isSubquery) ++ [statement] := by
  induction hholds with
  | refl => exact absurd rfl hne
  | @up inner parent hp hholds ih =>
    rw [scopes_of_parent h.wellFormed hp, h.wellFormed.ancestors_eq hp, List.filter_cons]
    by_cases hs : parent = statement
    · subst hs
      rw [NodeKind.isStatement_of_isOuterStatement h.outer, h.not_isSubquery, h.scopes_statement,
        h.ancestors_statement]
      simp [h.root, NodeKind.isSubquery]
    · obtain ⟨above, ha⟩ : ∃ above, tree.parent? parent = some above := by
        cases hholds with
        | refl => exact absurd rfl hs
        | up hp' _ => exact ⟨_, hp'⟩
      rw [h.isStatement_eq ha hs, ih hs]
      split <;> rfl

end IsQuery

end Tree

/-- **What is read as a statement without a problem is a query.** -/
theorem parse_isQuery {source : String} {maxDepth : Nat} {parsed : Parsed}
    (hparse : parse source RuleId.statement maxDepth = .ok parsed) (hclean : parsed.problems = []) :
    ∃ statement, parsed.tree.IsQuery statement := by
  obtain ⟨statement, htree, houter⟩ := parse_isClean (by decide) hparse hclean
  exact ⟨statement, htree, houter rfl⟩

/-! ## The context of a node -/

namespace QueryContext

variable {tree : Tree} {metamodel : Metamodel} {id child statement : Nat}

@[simp] theorem tree_around : (around tree metamodel id).tree = tree := rfl

@[simp] theorem metamodel_around : (around tree metamodel id).metamodel = metamodel := rfl

/-- Outside of subqueries nothing is entered. -/
theorem around_of_child (hwf : tree.WellFormed) (hc : child ∈ tree.children id)
    (hkind : (tree.kind id).isSubquery = false) :
    around tree metamodel child = around tree metamodel id := by
  rw [around, around, hwf.ancestors_eq (hwf.child id child hc), List.filter_cons, hkind]
  rfl

/-- **The children of a subquery have its scope.** -/
theorem around_of_subquery (hwf : tree.WellFormed) (hc : child ∈ tree.children id)
    (hkind : (tree.kind id).isSubquery = true) :
    around tree metamodel child = (around tree metamodel id).enter id := by
  rw [around, around, enter, hwf.ancestors_eq (hwf.child id child hc), List.filter_cons, hkind]
  rfl

@[simp] theorem leave_enter (context : QueryContext) (subquery : Nat) :
    (context.enter subquery).leave = context := rfl

/-- The context of the statement is that of the query. -/
theorem around_statement (h : tree.IsQuery statement) :
    around tree metamodel statement = ofTree tree metamodel := by
  rw [around, h.ancestors_statement, List.filter_cons, h.root]
  rfl

theorem scopes_around (h : tree.IsQuery statement) (hholds : tree.Holds statement id)
    (hne : id ≠ statement) :
    (around tree metamodel id).scopes = (tree.scopes id).map (Scope.ofStatement tree) := by
  rw [h.scopes_eq hholds hne, List.map_append, List.map_singleton]
  have hstatement : statementOf tree = statement := h.statementOf_eq
  rw [← hstatement]
  rfl

/-- **The variables at a node are those that the statements around it declare.** -/
theorem contains_allVariables (h : tree.IsQuery statement) (hholds : tree.Holds statement id)
    (hne : id ≠ statement) (name : String) :
    (around tree metamodel id).allVariables.contains name = true ↔ tree.IsVisible id name := by
  rw [allVariables, Scope.contains_foldr, scopes_around h hholds hne]
  simp only [List.mem_map, exists_exists_and_eq_and]
  constructor
  · rintro ⟨outer, hmem, ⟨other, node⟩, hentry, hsame⟩
    have hstatement := Tree.statement_of_mem_scopes hmem
    obtain ⟨hintro, hscope, hname⟩ := (Scope.mem_names_ofStatement h.wellFormed h.schematic
      hstatement.1 hstatement.2).mp hentry
    exact ⟨outer, hmem, node, other, hintro, hscope, hname, hsame⟩
  · rintro ⟨outer, hmem, node, other, hintro, hscope, hname, hsame⟩
    have hstatement := Tree.statement_of_mem_scopes hmem
    exact ⟨outer, hmem, (other, node), (Scope.mem_names_ofStatement h.wellFormed h.schematic
      hstatement.1 hstatement.2).mpr ⟨hintro, hscope, hname⟩, hsame⟩

end QueryContext

end Jpql
