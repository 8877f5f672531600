import Jpql.Proofs.Place.Tree
import Jpql.Proofs.Scope.Distinct
import Jpql.Proofs.Scope.Visible

/-! # Scopes of trees with mistakes

A check takes the declarations of a scope for those of the `FROM` clause that it visits, whatever is
wrong with the tree. This is right because scopes change at subqueries only, and `FROM` clauses stand in
statements only.

* `Tree.IsRead`: the tree of any text.
* `Tree.Suits`: the innermost scope of a context is that of the place of a node.
* `Tree.IsRead.misplaced_inside`: variables that are used too early stand in the `FROM` clause. -/

namespace Jpql

namespace Declaration

/-- **The paths whose first variables have to be declared before**: those of the joins of a range, or
what another declaration is over. -/
def LooksAt (declaration : Declaration) (path : Nat) : Prop :=
  (declaration.isRange = true ∧ ∃ join ∈ declaration.joins, join.path = path) ∨
    (declaration.isRange = false ∧ declaration.base = path)

variable {tree : Tree} {root : Located String}

theorem rootVariable_of_misplacedJoins {later : List Declaration} {joins : List JoinDeclaration}
    (h : root ∈ misplacedJoins tree later joins) :
    ∃ join ∈ joins, tree.rootVariable? join.path = some root := by
  induction joins with
  | nil => cases h
  | cons join joins ih =>
    rcases List.mem_append.mp h with h | h
    · exact ⟨join, List.mem_cons_self, (Option.mem_filter_iff.mp (Option.mem_toList.mp h)).1⟩
    · obtain ⟨other, hmem, hroot⟩ := ih h
      exact ⟨other, List.mem_cons_of_mem _ hmem, hroot⟩

/-- What is found to be misplaced is what some path starts from. -/
theorem rootVariable_of_misplaced {declarations : List Declaration}
    (h : root ∈ misplaced tree declarations) :
    ∃ declaration ∈ declarations, ∃ path, declaration.LooksAt path ∧
      tree.rootVariable? path = some root := by
  induction declarations with
  | nil => cases h
  | cons declaration later ih =>
    rcases List.mem_append.mp h with h | h
    · refine ⟨declaration, List.mem_cons_self, ?_⟩
      split at h
      · next hrange =>
        obtain ⟨join, hmem, hroot⟩ := rootVariable_of_misplacedJoins h
        exact ⟨_, .inl ⟨hrange, join, hmem, rfl⟩, hroot⟩
      · next hrange =>
        exact ⟨_, .inr ⟨Bool.eq_false_iff.mpr hrange, rfl⟩,
          (Option.mem_filter_iff.mp (Option.mem_toList.mp h)).1⟩
    · obtain ⟨other, hmem, hpath⟩ := ih h
      exact ⟨other, List.mem_cons_of_mem _ hmem, hpath⟩

end Declaration

namespace Tree

variable {tree : Tree} {context : QueryContext} {id child : Nat}

/-- **The tree of a text**, with mistakes or without. -/
structure IsRead (tree : Tree) : Prop where
  wellFormed : tree.WellFormed
  schematic : tree.Schematic False
  placed : tree.Placed
  root : ∃ statement leftover, tree.kind tree.root = .query statement leftover

/-! ## What suits a context -/

/-- **A node does not depend on a scope**: it is neither a `FROM` clause nor a statement that is visited
in a scope entered before. -/
structure IsFree (tree : Tree) (id : Nat) : Prop where
  lt : id < tree.size
  clause : Scope.isFromClause (tree.kind id) = false
  query : ∀ statement leftover, tree.kind id ≠ .query statement leftover
  outer : (tree.kind id).isOuterStatement = false
  inner : (tree.kind id).isStatement = true → tree.parent? id ≠ some tree.root

/-- **The innermost scope of a context is that of the node**, if the node depends on a scope. -/
structure Suits (tree : Tree) (context : QueryContext) (id : Nat) : Prop where
  lt : id < tree.size
  clause : Scope.isFromClause (tree.kind id) = true →
    context.declarations = tree.fromDeclarations (some id)
  query : ∀ statement leftover, tree.kind id = .query (some statement) leftover →
    context.innermost = .ofStatement tree statement
  statement : (tree.kind id).isStatement = true →
    (tree.kind id).isSubquery = false ∨ tree.parent? id = some tree.root →
    context.innermost = .ofStatement tree id

/-- A node that is free suits every context. -/
theorem IsFree.suits (h : tree.IsFree id) (context : QueryContext) : tree.Suits context id where
  lt := h.lt
  clause hc := absurd hc (by rw [h.clause]; exact Bool.false_ne_true)
  query statement leftover hk := absurd hk (h.query _ _)
  statement hs hp := by
    refine absurd hp (not_or.mpr ⟨fun hsub => ?_, h.inner hs⟩)
    have houter := h.outer
    cases hk : tree.kind id <;> rw [hk] at hs hsub houter <;> first
      | exact absurd hs Bool.false_ne_true
      | exact absurd hsub.symm Bool.false_ne_true
      | exact absurd houter.symm Bool.false_ne_true

/-- Only a path, or a variable, starts from a variable: nothing that could be adrift. -/
theorem not_adrift_of_rootVariable {depth : Nat} {root : Located String}
    (hroot : tree.rootVariableTo? depth id = some root) : ¬Adrift tree.kind id := by
  cases depth with
  | zero => cases hroot
  | succ depth =>
    unfold rootVariableTo? at hroot
    unfold Adrift
    cases hk : tree.kind id <;> rw [hk] at hroot <;> first
      | cases hroot
      | (rintro (hlacks | ⟨_, _, heq, -⟩)
         · exact hlacks
         · cases heq)

namespace IsRead

variable (h : tree.IsRead)

include h

theorem lt_of_child (hc : child ∈ tree.children id) : child < tree.size := by
  obtain ⟨hlt, hsize, -⟩ := h.wellFormed.of_parent (h.wellFormed.child id child hc)
  exact Nat.lt_trans hlt hsize

/-- A child fits a slot of its parent. -/
theorem exists_slot (hc : child ∈ tree.children id) :
    ∃ slot, (child, slot) ∈ (tree.kind id).slots ∧ slot.admits (tree.kind child) = true ∧
      slot.isHost (tree.kind id) = true := by
  have hlt := (h.wellFormed.of_parent (h.wellFormed.child id child hc)).2.1
  obtain ⟨slot, hslot⟩ := NodeKind.exists_slot hc
  exact ⟨slot, hslot, (h.schematic.conforms id hlt).admits hslot, Slot.isHost_of_mem hslot⟩

/-- The root is no child. -/
theorem query_ne (hc : child ∈ tree.children id) (statement leftover : Option Nat) :
    tree.kind child ≠ .query statement leftover := by
  obtain ⟨slot, -, hadmits, -⟩ := h.exists_slot hc
  intro hk
  rw [hk] at hadmits
  cases slot <;> exact absurd hadmits Bool.false_ne_true

/-- **Below anything but a statement or the root, nodes are free.** -/
theorem isFree_of_child (hc : child ∈ tree.children id) (hkind : (tree.kind id).isStatement = false)
    (hquery : ∀ statement leftover, tree.kind id ≠ .query statement leftover) : tree.IsFree child := by
  obtain ⟨slot, -, hadmits, hhost⟩ := h.exists_slot hc
  refine ⟨h.lt_of_child hc, ?_, h.query_ne hc, ?_, fun _ hparent => ?_⟩
  · by_contra hclause
    have hplace : (tree.kind child).place? = some .fromClause ∨
        (tree.kind child).place? = some .simpleFromClause := by
      cases hk : tree.kind child <;> rw [hk] at hclause <;> first
        | exact .inl rfl
        | exact .inr rfl
        | exact absurd rfl hclause
    rcases hplace with hplace | hplace <;>
    · obtain rfl := NodeKind.eq_of_place? hplace hadmits
      rw [Slot.isStatement_of_isHost rfl hhost] at hkind
      exact absurd hkind.symm Bool.false_ne_true
  · by_contra houter
    obtain rfl : slot = .start := by
      cases hk : tree.kind child <;> rw [hk] at hadmits houter <;> first
        | exact absurd rfl houter
        | (cases slot <;> first | rfl | exact absurd hadmits Bool.false_ne_true)
    cases hk : tree.kind id <;> rw [hk] at hhost <;> first
      | exact hquery _ _ hk
      | exact absurd hhost Bool.false_ne_true
  · rw [h.wellFormed.child id child hc, Option.some_inj] at hparent
    obtain ⟨statement, leftover, hroot⟩ := h.root
    exact hquery statement leftover (hparent ▸ hroot)

/-- **The parts of a statement suit the scope of the statement.** -/
theorem suits_of_statement (hc : child ∈ tree.children id)
    (hkind : (tree.kind id).isStatement = true)
    (hscope : context.innermost = .ofStatement tree id) : tree.Suits context child := by
  obtain ⟨slot, hslot, hadmits, hhost⟩ := h.exists_slot hc
  have hplain : (tree.kind child).isStatement = false := by
    cases hk : tree.kind id <;> rw [hk] at hkind hhost hslot <;> first
      | exact absurd hkind Bool.false_ne_true
      | (cases hkc : tree.kind child <;> rw [hkc] at hadmits <;> first
          | rfl
          | (cases slot <;> first
              | exact absurd hadmits Bool.false_ne_true
              | exact absurd hhost Bool.false_ne_true
              | simp [NodeKind.slots] at hslot))
  refine ⟨h.lt_of_child hc, fun hclause => ?_, fun _ _ hk => absurd hk (h.query_ne hc _ _),
    fun hs => absurd hs (by rw [hplain]; exact Bool.false_ne_true)⟩
  show context.innermost.declarations = _
  rw [hscope, Scope.ofStatement]
  cases hk : tree.kind id <;> rw [hk] at hkind hslot hhost <;> first
    | exact absurd hkind Bool.false_ne_true
    | (cases hkc : tree.kind child <;> rw [hkc] at hclause hadmits <;> first
        | exact absurd hclause Bool.false_ne_true
        | (cases slot <;> first
            | exact absurd hadmits Bool.false_ne_true
            | exact absurd hhost Bool.false_ne_true
            | (simp only [NodeKind.slots, List.mem_cons, List.mem_append, List.mem_map] at hslot
               simp_all)))

/-- The statement of a query suits its own scope. -/
theorem suits_of_query {statement : Nat} {leftover : Option Nat}
    (hk : tree.kind id = .query (some statement) leftover)
    (hscope : context.innermost = .ofStatement tree statement) : tree.Suits context statement := by
  have hc : statement ∈ tree.children id := by
    rw [children, hk]
    exact List.mem_cons_self
  obtain ⟨slot, -, hadmits, hhost⟩ := h.exists_slot hc
  refine ⟨h.lt_of_child hc, fun hclause => ?_, fun _ _ he => absurd he (h.query_ne hc _ _),
    fun _ _ => hscope⟩
  rw [hk] at hhost
  cases hks : tree.kind statement <;> rw [hks] at hclause hadmits <;> first
    | exact absurd hclause Bool.false_ne_true
    | (cases slot <;> first
        | exact absurd hadmits Bool.false_ne_true
        | exact absurd hhost Bool.false_ne_true)

/-! ## Places in a scope -/

/-- **The names of a scope stand at nodes of the tree.** -/
theorem lt_of_mem_names {statement node : Nat}
    (hmem : node ∈ (Scope.ofStatement tree statement).names.map (·.2)) : node < tree.size := by
  obtain ⟨⟨name, _⟩, hentry, rfl⟩ := List.mem_map.mp hmem
  have hkind : (tree.kind statement).isStatement = true := by
    by_contra hno
    unfold Scope.ofStatement Scope.names at hentry
    cases hk : tree.kind statement <;> rw [hk] at hno hentry <;> first
      | exact absurd rfl hno
      | exact absurd hentry List.not_mem_nil
  have hlt : statement < tree.size := lt_size_of_kind fun hbad => by
    rw [hbad] at hkind
    exact absurd hkind Bool.false_ne_true
  obtain ⟨⟨_, _, hnamed⟩, -⟩ :=
    Scope.introduced_of_mem_names h.wellFormed h.schematic hlt hkind hentry
  exact lt_size_of_kind (by rw [hnamed]; exact fun he => by cases he)

/-- Nodes that do not lack their head lie in their parents. -/
theorem inside_of_child (hc : child ∈ tree.children id)
    (hparent : ¬(tree.kind id).LacksHead tree.kind) (hchild : ¬Adrift tree.kind child) :
    (tree.span child).Inside (tree.span id) := by
  have hnests := h.placed.nests id child hc
  exact ⟨hnests.start.resolve_right hparent, hnests.stop.resolve_right fun hstop => hchild hstop.1⟩

/-- **The variable that a path starts from stands in the path.** -/
theorem rootVariable_inside {root : Located String} (hid : id < tree.size)
    (hroot : tree.rootVariable? id = some root) :
    root.span.Fits tree.source ∧ root.span.Inside (tree.span id) := by
  unfold rootVariable? at hroot
  generalize id + 1 = depth at hroot
  induction depth generalizing id with
  | zero => cases hroot
  | succ depth ih =>
    have hdeeper : ∀ child ∈ tree.children id, ¬(tree.kind id).LacksHead tree.kind →
        tree.rootVariableTo? depth child = some root →
        root.span.Fits tree.source ∧ root.span.Inside (tree.span id) := by
      intro child hc hhead hfound
      obtain ⟨hfits, hinside⟩ := ih (h.lt_of_child hc) hfound
      exact ⟨hfits, hinside.trans (h.inside_of_child hc hhead (not_adrift_of_rootVariable hfound))⟩
    unfold rootVariableTo? at hroot
    split at hroot
    · obtain rfl := Option.some.inj hroot
      exact ⟨h.placed.fits id hid, .refl _⟩
    all_goals first
      | cases hroot
      | (next hk =>
          refine hdeeper _ ?_ ?_ hroot
          · rw [Tree.children, hk]
            exact List.mem_cons_self
          · rw [hk]
            exact fun hlacks => hlacks)

/-- **What an entry of a `FROM` clause looks at**: the path of a collection, that of a range, or those of
the joins of a range over an entity. -/
theorem looksAt_cases {entry path : Nat} (hentry : Slot.entry.admits (tree.kind entry) = true)
    (hlt : entry < tree.size) (hpath : (tree.declaration entry).LooksAt path)
    (hbad : tree.kind path ≠ .bad) :
    (∃ hasAs declared, tree.kind entry = .collectionDeclaration path hasAs declared) ∨
    ∃ range joins start hasAs declared, tree.kind entry = .variableDeclaration range joins ∧
      tree.kind range = .rangeDeclaration start hasAs declared ∧ tree.kind start ≠ .bad ∧
      (path = start ∨ ∃ join ∈ joins, ∃ type fetch hasAs declared on,
        tree.kind join = .join type fetch path hasAs declared on) := by
  have hslots : ∀ child slot, (child, slot) ∈ (tree.kind entry).slots →
      slot.admits (tree.kind child) = true := fun _ _ =>
    (h.schematic.conforms entry hlt).admits
  cases hk : tree.kind entry <;> rw [hk] at hentry <;> first
    | exact absurd hentry Bool.false_ne_true
    | skip
  case collectionDeclaration base hasAs declared =>
    simp only [declaration, hk] at hpath
    rcases hpath with ⟨hrange, -⟩ | ⟨-, rfl⟩
    · exact absurd hrange Bool.false_ne_true
    · exact .inl ⟨hasAs, declared, rfl⟩
  case variableDeclaration range joins =>
    have hrange := hslots range .range (by rw [hk]; exact List.mem_cons_self)
    cases hkr : tree.kind range <;> rw [hkr] at hrange <;> first
      | exact absurd hrange Bool.false_ne_true
      | skip
    case rangeDeclaration start hasAs declared =>
      refine .inr ⟨range, joins, start, hasAs, declared, rfl, hkr, ?_⟩
      by_cases hschema : ∃ name, tree.kind start = .schemaName name
      · obtain ⟨name, hks⟩ := hschema
        simp only [declaration, hk, rangeDeclaration, hkr, hks] at hpath
        rcases hpath with ⟨-, join, hmem, rfl⟩ | ⟨hrange, -⟩
        · obtain ⟨node, hnode, hjoin⟩ := List.mem_filterMap.mp hmem
          refine ⟨by rw [hks]; simp, .inr ⟨node, hnode, ?_⟩⟩
          unfold joinDeclaration? at hjoin
          split at hjoin
          · next hkj =>
            obtain rfl := Option.some.inj hjoin
            exact ⟨_, _, _, _, _, hkj⟩
          · cases hjoin
        · exact absurd hrange.symm Bool.false_ne_true
      · have hbase : (tree.declaration entry).isRange = false ∧
            (tree.declaration entry).base = start := by
          simp only [declaration, hk, rangeDeclaration, hkr]
          split
          · next hks => exact absurd ⟨_, hks⟩ hschema
          · exact ⟨rfl, trivial⟩
          · exact ⟨rfl, trivial⟩
        rcases hpath with ⟨hrange, -⟩ | ⟨-, rfl⟩
        · rw [hbase.1] at hrange
          exact absurd hrange Bool.false_ne_true
        · rw [hbase.2] at hbad ⊢
          exact ⟨hbad, .inl rfl⟩

/-- **What an entry of a `FROM` clause looks at lies in the clause**, if it starts from a variable. An
entry that lies behind the clause looks at nothing. -/
theorem entry_inside {clause entry path : Nat} {root : Located String}
    (hclause : Scope.isFromClause (tree.kind clause) = true) (hentry : entry ∈ tree.children clause)
    (hpath : (tree.declaration entry).LooksAt path) (hroot : tree.rootVariable? path = some root) :
    path < tree.size ∧ (tree.span path).Inside (tree.span clause) := by
  have hlt := (h.wellFormed.of_parent (h.wellFormed.child clause entry hentry)).2.1
  have hplain := not_adrift_of_rootVariable hroot
  have hheadless : ∀ {node : Nat} {kind : NodeKind}, tree.kind node = kind →
      ¬kind.LacksHead tree.kind → ∀ child ∈ kind.children, ¬Adrift tree.kind child →
      child < tree.size ∧ (tree.span child).Inside (tree.span node) := by
    rintro node _ rfl hhead child hc hchild
    exact ⟨h.lt_of_child hc, h.inside_of_child hc hhead hchild⟩
  have hinside : ¬Adrift tree.kind entry → (tree.span entry).Inside (tree.span clause) := by
    refine h.inside_of_child hentry ?_
    cases hk : tree.kind clause <;> rw [hk] at hclause <;> first
      | exact fun hlacks => hlacks
      | exact absurd hclause Bool.false_ne_true
  have hbad : tree.kind path ≠ .bad := fun hk => by
    rw [rootVariable?, rootVariableTo?, hk] at hroot
    cases hroot
  rcases h.looksAt_cases (Scope.admits_entry h.schematic hlt hclause hentry) (h.lt_of_child hentry)
    hpath hbad with ⟨hasAs, declared, hk⟩ | ⟨range, joins, start, hasAs, declared, hk, hrange, hstart, hcase⟩
  · obtain ⟨hsize, hin⟩ := hheadless hk id path List.mem_cons_self hplain
    refine ⟨hsize, hin.trans (hinside ?_)⟩
    unfold Adrift
    rw [hk]
    rintro (hlacks | ⟨_, _, heq, -⟩)
    · exact hlacks
    · cases heq
  · have hhead : ¬(NodeKind.rangeDeclaration start hasAs declared).LacksHead tree.kind := hstart
    have hnotAdrift : ¬Adrift tree.kind entry := by
      unfold Adrift
      rw [hk]
      rintro (hlacks | ⟨_, _, heq, hlacks⟩)
      · exact hlacks
      · obtain ⟨rfl, -⟩ := NodeKind.variableDeclaration.inj heq
        rw [hrange] at hlacks
        exact hhead hlacks
    have hentryInside := hinside hnotAdrift
    rcases hcase with rfl | ⟨join, hmem, type, fetch, hasAs, declared, on, hkj⟩
    · have hrangeAdrift : ¬Adrift tree.kind range := by
        unfold Adrift
        rw [hrange]
        rintro (hlacks | ⟨_, _, heq, -⟩)
        · exact hhead hlacks
        · cases heq
      obtain ⟨hsize, hin⟩ := hheadless hrange hhead path List.mem_cons_self hplain
      exact ⟨hsize, (hin.trans (hheadless hk id range List.mem_cons_self hrangeAdrift).2).trans
        hentryInside⟩
    · have hjoinAdrift : ¬Adrift tree.kind join := by
        unfold Adrift
        rw [hkj]
        rintro (hlacks | ⟨_, _, heq, -⟩)
        · exact hlacks
        · cases heq
      obtain ⟨hsize, hin⟩ := hheadless hkj id path List.mem_cons_self hplain
      exact ⟨hsize, (hin.trans (hheadless hk id join (List.mem_cons_of_mem _ hmem) hjoinAdrift).2).trans
        hentryInside⟩

/-- **Variables that are used too early stand in the `FROM` clause.** -/
theorem misplaced_inside {clause : Nat} {root : Located String}
    (hclause : Scope.isFromClause (tree.kind clause) = true)
    (hroot : root ∈ Declaration.misplaced tree (tree.fromDeclarations (some clause))) :
    root.span.Fits tree.source ∧ root.span.Inside (tree.span clause) := by
  obtain ⟨declaration, hmem, path, hpath, hvariable⟩ := Declaration.rootVariable_of_misplaced hroot
  rw [Scope.fromDeclarations_eq hclause] at hmem
  obtain ⟨entry, hentry, rfl⟩ := List.mem_map.mp hmem
  obtain ⟨hlt, hinside⟩ := h.entry_inside hclause hentry hpath hvariable
  obtain ⟨hfits, hin⟩ := h.rootVariable_inside hlt hvariable
  exact ⟨hfits, hin.trans hinside⟩

end IsRead

end Tree

end Jpql
