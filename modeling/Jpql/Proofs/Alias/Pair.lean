import Jpql.Proofs.Alias.Reading
import Jpql.Proofs.Check.NodeReport
import Jpql.Proofs.Scope.Visible

/-! # The two trees of a statement

A statement without alias has a clean tree, and with its alias written out it has another one
(`Aliasing`). Each node of the first is to be found in the second, with its children; only a path may
have another reading there, if it is that of a bare field at which a collection is expected.

* `Aliasing.kind_image`, `Aliasing.path_image`: the kind of a node in the other tree.
* `Aliasing.Kept`, `Aliasing.kept_of_child`: the nodes whose path is read the same way in both trees.
* `Aliasing.exists_over`: both statements range over the same entity, once under a virtual name and once
  under the alias. -/

namespace Jpql

/-- What a range goes over stands in a range. -/
theorem NodeKind.eq_rangeDeclaration_of_mem {kind : NodeKind} {id : Nat}
    (h : (id, Slot.rangeRoot) ∈ kind.slots) :
    ∃ hasAs declared, kind = .rangeDeclaration id hasAs declared := by
  cases kind with
  | rangeDeclaration root hasAs declared =>
    obtain rfl : id = root := by simpa [slots] using h
    exact ⟨hasAs, declared, rfl⟩
  | logical connective => cases connective <;> simp [slots] at h
  | arithmetic operation => cases operation <;> simp [slots] at h
  | _ => simp [slots] at h

/-- The node itself, or the path that a bare field stands for. -/
def Tree.behind (tree : Tree) (id : NodeId) : NodeId :=
  match tree.kind id with
  | .identifier _ _ (some path) => path
  | _ => id

/-- **A clean statement without alias, and the same with its alias written out.** -/
structure Aliasing where
  left : Tree
  right : Tree
  v : String
  statement : NodeId
  isQuery : left.IsQuery statement
  omits : left.OmitsAlias
  aliased : left.Aliased right v

namespace Aliasing

variable (A : Aliasing)

/-- The node for a node where the alias is written out. -/
def image (id : NodeId) : NodeId := A.left.image id

variable {A} {id child : Nat}

/-! ## Nodes of the statement without alias -/

theorem omitsAlias (id : Nat) : (A.left.kind id).omitsAlias A.left.kind = true := by
  by_cases hlt : id < A.left.size
  · exact A.omits id hlt
  · have hbad : A.left.kind id = .bad := by
      by_contra hne
      exact hlt (Tree.lt_size_of_kind hne)
    rw [hbad]
    rfl

/-- Its variables are virtual. -/
theorem isVirtual_of_kind {name : String} {isVirtual : Bool} {behind : Option Nat}
    (hk : A.left.kind id = .identifier name isVirtual behind) : isVirtual = true := by
  have homits := A.omitsAlias id
  rwa [hk] at homits

theorem field_cases (hfield : (A.left.kind id).isField = true) :
    ∃ name path root segments dot owner, A.left.kind id = .identifier name true (some path) ∧
      path + 1 = id ∧ A.left.kind path = .path .stateField root segments dot ∧
      A.left.kind root = .identifier owner true none := by
  cases hk : A.left.kind id <;> rw [hk] at hfield <;>
    first | exact absurd hfield Bool.false_ne_true | skip
  next name isVirtual behind =>
    cases behind with
    | none => cases hfield
    | some path =>
      obtain rfl := isVirtual_of_kind hk
      obtain ⟨root, segments, dot, owner, hpath, hroot⟩ := A.isQuery.virtual_path hk
      exact ⟨name, path, root, segments, dot, owner, rfl, A.aliased.field id _ _ path hk, hpath, hroot⟩

theorem behind_eq_self (hfield : (A.left.kind id).isField = false) : A.left.behind id = id := by
  unfold Tree.behind
  split
  · next hk =>
    rw [hk] at hfield
    cases hfield
  · rfl

theorem behind_of_kind {name : String} {isVirtual : Bool} {path : Nat}
    (hk : A.left.kind id = .identifier name isVirtual (some path)) : A.left.behind id = path := by
  rw [Tree.behind, hk]

/-- No bare field stands behind another. -/
theorem not_isField_behind (id : Nat) : (A.left.kind (A.left.behind id)).isField = false := by
  rcases Bool.eq_false_or_eq_true (A.left.kind id).isField with hfield | hfield
  · obtain ⟨_, _, _, _, _, _, hk, -, hpath, -⟩ := field_cases hfield
    rw [behind_of_kind hk, hpath]
    rfl
  · rw [behind_eq_self hfield]
    exact hfield

/-- A bare field and its path are one node where the alias is written out. -/
theorem image_behind (id : Nat) : A.image (A.left.behind id) = A.image id := by
  rcases Bool.eq_false_or_eq_true (A.left.kind id).isField with hfield | hfield
  · obtain ⟨_, path, _, _, _, _, hk, rfl, -, -⟩ := field_cases hfield
    rw [behind_of_kind hk]
    exact (Tree.image_succ hfield).symm
  · rw [behind_eq_self hfield]

theorem behind_le (id : Nat) : A.left.behind id ≤ id := by
  rcases Bool.eq_false_or_eq_true (A.left.kind id).isField with hfield | hfield
  · obtain ⟨_, path, _, _, _, _, hk, rfl, -, -⟩ := field_cases hfield
    rw [behind_of_kind hk]
    exact Nat.le_succ path
  · rw [behind_eq_self hfield]

/-- **A path starts at a virtual variable.** -/
theorem kind_root {path root : Nat} {kind : PathKind} {segments : List (Located String)} {dot : Bool}
    (hk : A.left.kind path = .path kind root segments dot) :
    ∃ owner, A.left.kind root = .identifier owner true none := by
  have hadmits := A.isQuery.admits (show (root, Slot.pathRoot) ∈ (A.left.kind path).slots by
    rw [hk]; exact List.mem_cons_self)
  have homits := A.omitsAlias root
  cases hroot : A.left.kind root <;> rw [hroot] at hadmits homits <;>
    first | exact absurd hadmits Bool.false_ne_true | exact absurd homits Bool.false_ne_true | skip
  next owner isVirtual behind =>
    obtain rfl : isVirtual = true := homits
    cases behind with
    | none => exact ⟨owner, rfl⟩
    | some path => exact absurd hadmits Bool.false_ne_true

/-! ## Nodes of the statement with its alias -/

/-- **A node that is no path has the same kind in the other tree**, with other ids. -/
theorem kind_image (hlt : id < A.left.size) (hfield : (A.left.kind id).isField = false)
    (hpath : (A.left.kind id).isPath = false) :
    A.right.kind (A.image id) = (A.left.kind id).renamed A.v A.image := by
  have hunknown : ∀ text, A.left.kind id ≠ .unknown text := fun text hk => by
    have hwhole := (A.isQuery.complete hlt).1
    rw [hk] at hwhole
    cases hwhole
  have hsame : (A.left.kind id).asCollection = A.left.kind id := by
    cases hk : A.left.kind id <;> first | rfl | (rw [hk] at hpath; cases hpath)
  have hmatches : ((A.left.kind id).renamed A.v A.image).Alike (A.right.kind (A.image id)) := by
    rcases A.aliased.kind id hlt hfield with h | ⟨h, -⟩
    · exact h
    · rwa [hsame] at h
  exact hmatches.eq_of_solid ((NodeKind.isPath_renamed _ _ _).trans hpath) fun text h =>
    hunknown text (NodeKind.eq_unknown_of_renamed _ _ h)

/-- A path is one in the other tree, too, with the same words. It may be read as collection-valued
there, if it is that of a bare field at which a collection is expected. -/
theorem path_image {root : Nat} {kind : PathKind} {segments : List (Located String)} {dot : Bool}
    (hk : A.left.kind id = .path kind root segments dot) : ∃ other others,
      A.right.kind (A.image id) = .path other (A.image root) others dot ∧
        segments.map (·.value) = others.map (·.value) ∧
        (other = kind ∨ ∃ field name isVirtual,
          A.left.kind field = .identifier name isVirtual (some id) ∧ A.left.Collects field) := by
  have hlt : id < A.left.size := Tree.lt_size_of_kind (by rw [hk]; simp)
  have hmatches := A.aliased.kind id hlt (by rw [hk]; rfl)
  rw [hk] at hmatches
  have halike : ∀ {kind : PathKind} {other : NodeKind},
      (NodeKind.path kind (A.image root) segments dot).Alike other → ∃ others,
        other = .path kind (A.image root) others dot ∧ segments.map (·.value) = others.map (·.value) := by
    intro kind other h
    cases h with
    | refl => exact ⟨segments, rfl, rfl⟩
    | path _ _ _ h => exact ⟨_, rfl, h⟩
  rcases hmatches with h | ⟨h, hcollects⟩
  · obtain ⟨others, hother, hvalues⟩ := halike h
    exact ⟨kind, others, hother, hvalues, .inl rfl⟩
  · obtain ⟨others, hother, hvalues⟩ := halike h
    exact ⟨_, others, hother, hvalues, .inr hcollects⟩

variable (A) in
/-- **The path of a node is read the same way in both trees**, if there is one. -/
def Kept (id : Nat) : Prop :=
  (A.right.kind (A.image id)).isStatePath = (A.left.kind (A.left.behind id)).isStatePath

theorem Kept.path_image {root : Nat} {kind : PathKind} {segments : List (Located String)} {dot : Bool}
    (h : A.Kept id) (hk : A.left.kind id = .path kind root segments dot) : ∃ others,
      A.right.kind (A.image id) = .path kind (A.image root) others dot ∧
        segments.map (·.value) = others.map (·.value) := by
  obtain ⟨other, others, hother, hvalues, -⟩ := Aliasing.path_image hk
  rw [Kept, hother, behind_eq_self (by rw [hk]; rfl), hk] at h
  refine ⟨others, ?_, hvalues⟩
  rw [hother]
  cases other <;> cases kind <;> first | rfl | exact absurd h (by simp [NodeKind.isStatePath])

/-- **The child of a node keeps its reading** unless a collection is expected of it. -/
theorem kept_of_child (hc : child ∈ A.left.children id) (hfield : (A.left.kind id).isField = false)
    (hcollection : ∀ strength, (child, Slot.collection strength) ∉ (A.left.kind id).slots) :
    A.Kept child := by
  have hwf := A.isQuery.wellFormed
  have hparent := hwf.child id child hc
  have hlt := A.isQuery.lt_of_child hc
  rw [Kept, ← image_behind]
  rcases Bool.eq_false_or_eq_true (A.left.kind (A.left.behind child)).isPath with hpath | hpath
  · cases hk : A.left.kind (A.left.behind child) <;> rw [hk] at hpath <;>
      first | exact absurd hpath Bool.false_ne_true | skip
    next kind root segments dot =>
    obtain ⟨other, others, hother, -, rfl | ⟨field, name, isVirtual, hbare, outer, strength, hmem⟩⟩ :=
      Aliasing.path_image hk
    · rw [hother]
      cases other <;> rfl
    · -- the bare field is the child itself
      have hinner : A.left.parent? (A.left.behind child) = some field :=
        hwf.child field _ (by rw [Tree.children, hbare]; exact List.mem_cons_self)
      exfalso
      rcases Bool.eq_false_or_eq_true (A.left.kind child).isField with hchild | hchild
      · obtain ⟨_, path, _, _, _, _, hkc, -, -, -⟩ := field_cases hchild
        have hown := hwf.child child path (by rw [Tree.children, hkc]; exact List.mem_cons_self)
        rw [← behind_of_kind hkc, hinner, Option.some_inj] at hown
        subst hown
        have houter := hwf.child outer field (NodeKind.mem_children_of_mem_slots hmem)
        rw [hparent, Option.some_inj] at houter
        subst houter
        exact hcollection strength hmem
      · rw [behind_eq_self hchild, hparent, Option.some_inj] at hinner
        rw [hinner, hbare] at hfield
        cases hfield
  · have hbehind : A.left.behind child < A.left.size := Nat.lt_of_le_of_lt (behind_le child) hlt
    rw [kind_image hbehind (not_isField_behind child) hpath]
    exact NodeKind.isStatePath_renamed _ _ _

/-! ## What the statement ranges over -/

variable (A) in
/-- The node is the range of the statement. -/
def IsRange (range : NodeId) : Prop :=
  ∃ clause condition, A.left.kind A.statement = .updateStatement clause condition ∧
      (∃ items, A.left.kind clause = .updateClause range items) ∨
    A.left.kind A.statement = .deleteStatement clause condition ∧
      A.left.kind clause = .deleteClause range

theorem IsRange.unique {range other : Nat} (h : A.IsRange range) (k : A.IsRange other) :
    range = other := by
  obtain ⟨_, _, ⟨hs, _, hc⟩ | ⟨hs, hc⟩⟩ := h <;> obtain ⟨_, _, ⟨hs', _, hc'⟩ | ⟨hs', hc'⟩⟩ := k <;>
    rw [hs] at hs' <;> cases hs' <;> rw [hc] at hc' <;> cases hc' <;> rfl

/-- Every declaration of a range is that of the statement. -/
theorem isRange_of_kind {range root : Nat} {hasAs : Bool} {declared : Option Nat}
    (hk : A.left.kind range = .rangeDeclaration root hasAs declared) : A.IsRange range := by
  have hwf := A.isQuery.wellFormed
  have hparent : ∀ {id : Nat} {place : Slot}, (A.left.kind id).place? = some place →
      ∃ parent, A.left.parent? id = some parent ∧ (id, place) ∈ (A.left.kind parent).slots ∧
        place.isHost (A.left.kind parent) = true := by
    intro id place hplace
    have hlt : id < A.left.size := Tree.lt_size_of_kind fun hbad => by
      rw [hbad] at hplace
      cases hplace
    have hne : id ≠ A.left.root := fun heq => by
      rw [heq, A.isQuery.root] at hplace
      cases hplace
    obtain ⟨parent, hp, -⟩ := hwf.parent id hlt hne
    exact ⟨parent, hp, A.isQuery.schematic.of_place hwf hp hplace⟩
  obtain ⟨clause, hclause, hslot, hhost⟩ := hparent (show (A.left.kind range).place? = some .range by
    rw [hk]; rfl)
  have homits := A.omitsAlias clause
  have hstatement : ∀ place : Slot, (A.left.kind clause).place? = some place →
      (∀ kind : NodeKind, place.isHost kind = true → kind.isOuterStatement = true) →
      (clause, place) ∈ (A.left.kind A.statement).slots := by
    intro place hplace houter
    obtain ⟨parent, hp, hmem, hhost⟩ := hparent hplace
    have hkind := houter _ hhost
    have hne : parent ≠ A.left.root := fun heq => by
      rw [heq, A.isQuery.root] at hkind
      cases hkind
    obtain ⟨above, habove, -⟩ := hwf.parent parent (hwf.of_parent hp).2.1 hne
    obtain rfl := A.isQuery.eq_statement habove hkind
    exact hmem
  cases hc : A.left.kind clause <;> rw [hc] at hslot hhost homits <;>
    first | exact absurd hhost Bool.false_ne_true | exact absurd homits Bool.false_ne_true | skip
  case updateClause root items =>
    obtain rfl : range = root := by simpa [NodeKind.slots] using hslot
    have hmem := hstatement .updateClause (by rw [hc]; rfl) fun kind h => by
      cases kind <;> first | rfl | exact absurd h Bool.false_ne_true
    have hhost := Slot.isHost_of_mem hmem
    cases hs : A.left.kind A.statement <;> rw [hs] at hmem hhost <;>
      first | exact absurd hhost Bool.false_ne_true | skip
    next update condition =>
    obtain rfl : clause = update := by simpa [NodeKind.slots] using hmem
    exact ⟨clause, condition, .inl ⟨hs, items, hc⟩⟩
  case deleteClause root =>
    obtain rfl : range = root := by simpa [NodeKind.slots] using hslot
    have hmem := hstatement .deleteClause (by rw [hc]; rfl) fun kind h => by
      cases kind <;> first | rfl | exact absurd h Bool.false_ne_true
    have hhost := Slot.isHost_of_mem hmem
    cases hs : A.left.kind A.statement <;> rw [hs] at hmem hhost <;>
      first | exact absurd hhost Bool.false_ne_true | skip
    next delete condition =>
    obtain rfl : clause = delete := by simpa [NodeKind.slots] using hmem
    exact ⟨clause, condition, .inr ⟨hs, hc⟩⟩

/-- **The statement has a range**, which declares a variable. -/
theorem exists_isRange : ∃ range root hasAs declared, A.IsRange range ∧
    A.left.kind range = .rangeDeclaration root hasAs (some declared) := by
  have hadmits : ∀ {id child : Nat} {slot : Slot}, (child, slot) ∈ (A.left.kind id).slots →
      slot.admits (A.left.kind child) = true := fun h => A.isQuery.admits h
  have hrange : ∀ clause range : Nat, (range, Slot.range) ∈ (A.left.kind clause).slots →
      ∃ root hasAs declared, A.left.kind range = .rangeDeclaration root hasAs (some declared) := by
    intro clause range hmem
    have hfits := hadmits hmem
    have hwhole := (A.isQuery.complete
      (A.isQuery.lt_of_child (NodeKind.mem_children_of_mem_slots hmem))).1
    cases hr : A.left.kind range <;> rw [hr] at hfits hwhole <;>
      first | exact absurd hfits Bool.false_ne_true | skip
    next root hasAs declared =>
    obtain ⟨declared, rfl⟩ := Option.isSome_iff_exists.mp hwhole
    exact ⟨root, hasAs, declared, rfl⟩
  have houter := A.isQuery.outer
  have homits := A.omitsAlias A.statement
  cases hs : A.left.kind A.statement <;> rw [hs] at houter homits <;>
    first | exact absurd houter Bool.false_ne_true | exact absurd homits Bool.false_ne_true | skip
  case updateStatement clause condition =>
    have hfits := hadmits (show (clause, Slot.updateClause) ∈ (A.left.kind A.statement).slots by
      rw [hs]; exact List.mem_cons_self)
    cases hc : A.left.kind clause <;> rw [hc] at hfits <;>
      first | exact absurd hfits Bool.false_ne_true | skip
    next range items =>
    obtain ⟨root, hasAs, declared, hr⟩ := hrange clause range (by
      rw [hc]; exact List.mem_cons_self)
    exact ⟨range, root, hasAs, declared, ⟨clause, condition, .inl ⟨hs, items, hc⟩⟩, hr⟩
  case deleteStatement clause condition =>
    have hfits := hadmits (show (clause, Slot.deleteClause) ∈ (A.left.kind A.statement).slots by
      rw [hs]; exact List.mem_cons_self)
    cases hc : A.left.kind clause <;> rw [hc] at hfits <;>
      first | exact absurd hfits Bool.false_ne_true | skip
    next range =>
    obtain ⟨root, hasAs, declared, hr⟩ := hrange clause range (by
      rw [hc]; exact List.mem_cons_self)
    exact ⟨range, root, hasAs, declared, ⟨clause, condition, .inr ⟨hs, hc⟩⟩, hr⟩

/-- A node of a kind of its own is to be found in the other tree. -/
theorem kind_image_of {kind : NodeKind} (hk : A.left.kind id = kind) (hbad : kind ≠ .bad)
    (hfield : kind.isField = false) (hpath : kind.isPath = false) :
    A.right.kind (A.image id) = kind.renamed A.v A.image := by
  subst hk
  exact kind_image (Tree.lt_size_of_kind hbad) hfield hpath

/-- **Both statements declare their range**, and nothing else. -/
theorem IsRange.scope {range : Nat} (h : A.IsRange range) :
    Scope.ofStatement A.left A.statement = ⟨[A.left.rangeDeclaration range range], []⟩ ∧
      Scope.ofStatement A.right (A.image A.statement) =
        ⟨[A.right.rangeDeclaration (A.image range) (A.image range)], []⟩ := by
  obtain ⟨clause, condition, ⟨hs, items, hc⟩ | ⟨hs, hc⟩⟩ := h
  · have hs' := kind_image_of hs (by simp) rfl rfl
    have hc' := kind_image_of hc (by simp) rfl rfl
    constructor
    · rw [Scope.ofStatement, hs]
      dsimp only
      rw [Tree.clauseDeclarations, hc]
    · rw [Scope.ofStatement, hs']
      dsimp only [NodeKind.renamed]
      rw [Tree.clauseDeclarations, hc']
      rfl
  · have hs' := kind_image_of hs (by simp) rfl rfl
    have hc' := kind_image_of hc (by simp) rfl rfl
    constructor
    · rw [Scope.ofStatement, hs]
      dsimp only
      rw [Tree.clauseDeclarations, hc]
    · rw [Scope.ofStatement, hs']
      dsimp only [NodeKind.renamed]
      rw [Tree.clauseDeclarations, hc']
      rfl

variable (A) in
/-- **Both statements range over an entity**, the one under a virtual name, the other under the
alias. -/
structure Over (entity name : String) : Prop where
  before : ∃ range root declared, A.left.kind declared = .identifier name true none ∧
    Scope.ofStatement A.left A.statement =
      ⟨[⟨.range, range, root, some entity, some name, some declared, []⟩], []⟩
  after : ∃ range root declared, A.right.kind declared = .identifier A.v false none ∧
    Scope.ofStatement A.right (A.image A.statement) =
      ⟨[⟨.range, range, root, some entity, some A.v, some declared, []⟩], []⟩
  name : ∀ id other, A.left.kind id = .identifier other true none → other = name
  entity : ∀ id other, A.left.kind id = .schemaName other → other = entity

theorem exists_over : ∃ entity name, A.Over entity name := by
  obtain ⟨range, root, hasAs, declared, hrange, hk⟩ := A.exists_isRange
  have hsame : ∀ {other : Nat} {kind : NodeKind}, A.left.kind other = kind →
      (∃ root hasAs declared, kind = .rangeDeclaration root hasAs declared) →
      kind = .rangeDeclaration root hasAs (some declared) := by
    rintro other _ hother ⟨_, _, _, rfl⟩
    obtain rfl := (isRange_of_kind hother).unique hrange
    exact hother.symm.trans hk
  obtain ⟨name, hdeclared⟩ : ∃ name, A.left.kind declared = .identifier name true none := by
    have hfits := A.isQuery.admits (show (declared, Slot.declared) ∈ (A.left.kind range).slots by
      rw [hk]; simp [NodeKind.slots])
    cases hd : A.left.kind declared <;> rw [hd] at hfits <;>
      first | exact absurd hfits Bool.false_ne_true | skip
    next name isVirtual behind =>
    obtain rfl := isVirtual_of_kind hd
    cases behind with
    | none => exact ⟨name, rfl⟩
    | some path => exact absurd hfits Bool.false_ne_true
  have howns : ∀ id other, A.left.kind id = .identifier other true none → other = name ∧
      ∃ entity, A.left.kind root = .schemaName entity := by
    intro id other hid
    obtain ⟨_, _, _, _, entity, hr, he, hd⟩ := A.aliased.owner id other hid
    have heq := hsame hr ⟨_, _, _, rfl⟩
    rw [NodeKind.rangeDeclaration.injEq, Option.some_inj] at heq
    obtain ⟨rfl, -, rfl⟩ := heq
    rw [hdeclared] at hd
    cases hd
    exact ⟨rfl, entity, he⟩
  obtain ⟨-, entity, hroot⟩ := howns declared name hdeclared
  have hk' := kind_image_of hk (by simp) rfl rfl
  have hroot' := kind_image_of hroot (by simp) rfl rfl
  have hdeclared' := kind_image_of hdeclared (by simp) rfl rfl
  refine ⟨entity, name, ⟨range, root, declared, hdeclared, ?_⟩,
    ⟨A.image range, A.image root, A.image declared, hdeclared', ?_⟩, fun id other hid =>
      (howns id other hid).1, fun id other hid => ?_⟩
  · have hname := Tree.variableName?_eq_some.mpr ⟨true, none, hdeclared⟩
    rw [hrange.scope.1, Tree.rangeDeclaration, hk]
    simp only [hroot, hname]
  · have hname := Tree.variableName?_eq_some.mpr ⟨false, none, hdeclared'⟩
    rw [hrange.scope.2, Tree.rangeDeclaration, hk']
    simp only [NodeKind.renamed, Option.map_some, hroot', hname]
  · have hlt : id < A.left.size := Tree.lt_size_of_kind (by rw [hid]; simp)
    have hne : id ≠ A.left.root := fun heq => by
      rw [heq, A.isQuery.root] at hid
      cases hid
    obtain ⟨parent, hp, -⟩ := A.isQuery.wellFormed.parent id hlt hne
    obtain ⟨slot, hslot⟩ := NodeKind.exists_slot (A.isQuery.wellFormed.of_parent hp).2.2
    have hfits := A.isQuery.admits hslot
    rw [hid] at hfits
    obtain rfl : slot = .rangeRoot := by
      cases slot <;> first | rfl | exact absurd hfits Bool.false_ne_true
    obtain ⟨_, _, hdeclares⟩ := NodeKind.eq_rangeDeclaration_of_mem hslot
    have heq := hsame hdeclares ⟨_, _, _, rfl⟩
    rw [NodeKind.rangeDeclaration.injEq] at heq
    rw [heq.1, hroot] at hid
    cases hid
    rfl

end Aliasing

end Jpql
