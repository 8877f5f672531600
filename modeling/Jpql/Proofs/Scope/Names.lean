import Jpql.Proofs.Tree.Order
import Jpql.Scope.Context

/-! # The names a statement declares

`Tree.IsIntroduced` says of a node that it is the variable of a range, a collection or a join, or
the name of a result. A scope is read off the tree in another way, from the statement down.
`Scope.mem_names_ofStatement` says that it finds the same nodes: those whose nearest statement it
is. -/

namespace Jpql

/-! ## The places of declarations -/

namespace Slot

/-- The kinds of nodes that have children in a slot, for the slots of declarations and of what holds
them. -/
def isHost : Slot → NodeKind → Bool
  | .range, .variableDeclaration .. | .range, .updateClause .. | .range, .deleteClause _ => true
  | .entry, .fromClause _ | .entry, .simpleFromClause _ => true
  | .join, .variableDeclaration .. => true
  | .selectItem, .selectClause .. => true
  | .selectClause, .selectStatement .. | .fromClause, .selectStatement .. => true
  | .simpleFromClause, .simpleSelectStatement .. => true
  | .updateClause, .updateStatement .. => true
  | .deleteClause, .deleteStatement .. => true
  | .start, .query .. => true
  | .start, _ | .range, _ | .entry, _ | .join, _ | .selectItem, _ | .selectClause, _
  | .fromClause, _ | .simpleFromClause, _ | .updateClause, _ | .deleteClause, _ => false
  | _, _ => true

/-- The slots of a statement for the clauses that declare something. -/
def isClause : Slot → Bool
  | .selectClause | .fromClause | .simpleFromClause | .updateClause | .deleteClause => true
  | _ => false

theorem isStatement_of_isHost {slot : Slot} {kind : NodeKind} (h : slot.isClause = true)
    (hhost : slot.isHost kind = true) : kind.isStatement = true := by
  cases slot <;> first
    | exact absurd h Bool.false_ne_true
    | (cases kind <;> first | rfl | exact absurd hhost Bool.false_ne_true)

/-- The slots for declarations and items inside clauses. -/
def isPart : Slot → Bool
  | .range | .entry | .join | .selectItem => true
  | _ => false

theorem not_isStatement_of_isHost {slot : Slot} {kind : NodeKind} (h : slot.isPart = true)
    (hhost : slot.isHost kind = true) : kind.isStatement = false := by
  cases slot <;> first
    | exact absurd h Bool.false_ne_true
    | (cases kind <;> first | rfl | exact absurd hhost Bool.false_ne_true)

theorem isHost_of_mem {kind : NodeKind} {id : Nat} {slot : Slot} (h : (id, slot) ∈ kind.slots) :
    slot.isHost kind = true := by
  have hall : ∀ entry ∈ kind.slots, entry.2.isHost kind = true := by
    unfold NodeKind.slots
    split <;> simp only [List.forall_mem_cons, List.forall_mem_append, List.forall_mem_map,
      List.not_mem_nil, false_imp_iff, implies_true, and_true] <;>
      and_intros <;> intros <;> rfl
  exact hall _ h

end Slot

namespace NodeKind

/-- The only slot for a declaration or what holds declarations. -/
def place? : NodeKind → Option Slot
  | .rangeDeclaration .. => some .range
  | .variableDeclaration .. | .collectionDeclaration .. => some .entry
  | .join .. => some .join
  | .resultVariable .. => some .selectItem
  | .selectClause .. => some .selectClause
  | .fromClause _ => some .fromClause
  | .simpleFromClause _ => some .simpleFromClause
  | .updateClause .. => some .updateClause
  | .deleteClause _ => some .deleteClause
  | _ => none

theorem eq_of_place? {kind : NodeKind} {slot place : Slot} (h : kind.place? = some place)
    (hadmits : slot.admits kind = true) : slot = place := by
  cases kind <;> cases h <;> cases slot <;>
    first | rfl | exact absurd hadmits Bool.false_ne_true

/-- The variable that a node introduces. -/
def introduces? : NodeKind → Option Nat
  | .rangeDeclaration _ _ declared | .collectionDeclaration _ _ declared
  | .join _ _ _ _ declared _ => declared
  | .resultVariable _ _ declared => some declared
  | _ => none

theorem introduces?_mem_children {kind : NodeKind} {id : Nat} (h : kind.introduces? = some id) :
    id ∈ kind.children := by
  cases kind <;> simp_all [introduces?, children]

/-- What introduces a variable stands in one of four places. -/
theorem slot_of_introduces? {kind : NodeKind} {id : Nat} {slot : Slot}
    (h : kind.introduces? = some id) (hadmits : slot.admits kind = true) :
    slot = .range ∨ slot = .entry ∨ slot = .join ∨ slot = .selectItem := by
  have hplace : kind.place? = some .range ∨ kind.place? = some .entry ∨
      kind.place? = some .join ∨ kind.place? = some .selectItem := by
    cases kind <;> first | cases h; done | simp [place?]
  rcases hplace with hp | hp | hp | hp <;> simp [eq_of_place? hp hadmits]

theorem not_isStatement_of_introduces? {kind : NodeKind} {id : Nat}
    (h : kind.introduces? = some id) : kind.isStatement = false := by
  cases kind <;> first | rfl | cases h

end NodeKind

namespace Tree

variable {tree : Tree}

/-! ## Variables where they are declared -/

/-- **The node is the variable of a range, a collection or a join, or the name of a result.** -/
def IsIntroduced (tree : Tree) (id : Nat) : Prop :=
  ∃ parent, tree.parent? id = some parent ∧ (tree.kind parent).introduces? = some id

/-- The node is a variable of that name. -/
def IsNamed (tree : Tree) (id : Nat) (name : String) : Prop :=
  ∃ isVirtual behind, tree.kind id = .identifier name isVirtual behind

theorem variableName?_eq_some {id : Nat} {name : String} :
    tree.variableName? (some id) = some name ↔ tree.IsNamed id name := by
  unfold Tree.variableName? IsNamed
  rw [Option.bind_eq_bind, Option.bind_some]
  split
  · next h => simp [h]
  · next h =>
    simp only [reduceCtorEq, false_iff, not_exists]
    exact fun isVirtual behind he => h _ _ _ he

/-- A declaration with its place in the parent. -/
theorem Schematic.of_place (hwf : tree.WellFormed) {clean : Prop} (hs : tree.Schematic clean)
    {id parent : Nat} {place : Slot} (hp : tree.parent? id = some parent)
    (hplace : (tree.kind id).place? = some place) :
    (id, place) ∈ (tree.kind parent).slots ∧ place.isHost (tree.kind parent) = true := by
  have hparent := hwf.of_parent hp
  obtain ⟨slot, hslot⟩ := NodeKind.exists_slot hparent.2.2
  have hadmits := (hs.conforms parent hparent.2.1).admits hslot
  obtain rfl := NodeKind.eq_of_place? hplace hadmits
  exact ⟨hslot, Slot.isHost_of_mem hslot⟩

end Tree

namespace Scope

variable {tree : Tree}

theorem mem_namedNode? {name : String} {node : Nat} {name? : Option String}
    {node? : Option Nat} :
    (name, node) ∈ (namedNode? name? node?).toList ↔ name? = some name ∧ node? = some node := by
  cases name? <;> cases node? <;> simp [namedNode?, eq_comm]

/-- The names of a declaration are those of its own variable and of its joins. -/
theorem mem_declarationNames {declaration : Declaration} {name : String} {node : Nat} :
    (name, node) ∈ declarationNames declaration ↔
      (declaration.name = some name ∧ declaration.nameNode = some node) ∨
        ∃ join ∈ declaration.joins, join.name = some name ∧ join.nameNode = some node := by
  unfold declarationNames
  rw [List.mem_append, mem_namedNode?, List.mem_filterMap]
  refine or_congr_right (exists_congr fun join => and_congr_right fun _ => ?_)
  rw [← mem_namedNode?, Option.mem_toList]

theorem declaration_of_range {range node root : Nat} {hasAs : Bool} {declared : Option Nat}
    (hk : tree.kind range = .rangeDeclaration root hasAs declared) :
    (tree.rangeDeclaration range node).name = tree.variableName? declared ∧
      (tree.rangeDeclaration range node).nameNode = declared ∧
      (tree.rangeDeclaration range node).joins = [] := by
  unfold Tree.rangeDeclaration
  rw [hk]
  exact ⟨rfl, rfl, rfl⟩

/-- A named node that a node introduces. -/
theorem named_iff {name : String} {node : Nat} {declared : Option Nat} :
    tree.variableName? declared = some name ∧ declared = some node ↔
      declared = some node ∧ tree.IsNamed node name := by
  constructor
  · rintro ⟨hname, rfl⟩
    exact ⟨rfl, Tree.variableName?_eq_some.mp hname⟩
  · rintro ⟨rfl, hname⟩
    exact ⟨Tree.variableName?_eq_some.mpr hname, rfl⟩

/-- What a range declares without joins. -/
theorem name_of_range {range node node' : Nat} {name : String}
    (hrange : Slot.range.admits (tree.kind range) = true) :
    ((tree.rangeDeclaration range node').name = some name ∧
      (tree.rangeDeclaration range node').nameNode = some node) ↔
      (tree.kind range).introduces? = some node ∧ tree.IsNamed node name := by
  cases hk : tree.kind range with
  | rangeDeclaration root hasAs declared =>
    obtain ⟨hname, hnode, -⟩ := declaration_of_range hk
    rw [hname, hnode]
    exact named_iff
  | _ => rw [hk] at hrange; exact absurd hrange Bool.false_ne_true

/-- What a join declares. -/
theorem name_of_join {join node : Nat} {name : String}
    (hjoin : Slot.join.admits (tree.kind join) = true) :
    (∃ declaration, tree.joinDeclaration? join = some declaration ∧
      declaration.name = some name ∧ declaration.nameNode = some node) ↔
      (tree.kind join).introduces? = some node ∧ tree.IsNamed node name := by
  unfold Tree.joinDeclaration?
  cases hk : tree.kind join with
  | join type fetch path hasAs declared on =>
    refine Iff.trans ?_ named_iff
    constructor
    · rintro ⟨_, ⟨⟩, h⟩
      exact h
    · exact fun h => ⟨_, rfl, h⟩
  | _ => rw [hk] at hjoin; exact absurd hjoin Bool.false_ne_true

/-- What an entry of a `FROM` clause declares, the entry or one of its children introduces. -/
theorem mem_declarationNames_entry {clean : Prop} (hs : tree.Schematic clean) {entry : Nat}
    (hlt : entry < tree.size) (hentry : Slot.entry.admits (tree.kind entry) = true) {name : String}
    {node : Nat} : (name, node) ∈ declarationNames (tree.declaration entry) ↔
      tree.IsNamed node name ∧ ∃ parent, (parent = entry ∨ parent ∈ tree.children entry) ∧
        (tree.kind parent).introduces? = some node := by
  have hconforms := hs.conforms entry hlt
  rw [mem_declarationNames]
  unfold Tree.declaration Tree.children
  cases hk : tree.kind entry with
  | variableDeclaration range joins =>
    rw [hk] at hconforms
    have hrange : Slot.range.admits (tree.kind range) = true :=
      hconforms.admits List.mem_cons_self
    have hjoin : ∀ join ∈ joins, Slot.join.admits (tree.kind join) = true := fun join hj =>
      hconforms.admits (List.mem_cons_of_mem _ (List.mem_map_of_mem hj))
    constructor
    · rintro (h | ⟨declaration, hd, h⟩)
      · obtain ⟨hintro, hname⟩ := (name_of_range hrange).mp h
        exact ⟨hname, range, .inr List.mem_cons_self, hintro⟩
      · obtain ⟨join, hj, hd⟩ := List.mem_filterMap.mp hd
        obtain ⟨hintro, hname⟩ := (name_of_join (hjoin join hj)).mp ⟨declaration, hd, h⟩
        exact ⟨hname, join, .inr (List.mem_cons_of_mem _ hj), hintro⟩
    · rintro ⟨hname, parent, rfl | hparent, hintro⟩
      · rw [hk] at hintro
        cases hintro
      · rcases List.mem_cons.mp hparent with rfl | hj
        · exact .inl ((name_of_range hrange).mpr ⟨hintro, hname⟩)
        · obtain ⟨declaration, hd, h⟩ := (name_of_join (hjoin parent hj)).mpr ⟨hintro, hname⟩
          exact .inr ⟨declaration, List.mem_filterMap.mpr ⟨parent, hj, hd⟩, h⟩
  | collectionDeclaration path hasAs declared =>
    rw [hk] at hconforms
    constructor
    · rintro (h | ⟨_, hj, -⟩)
      · obtain ⟨hintro, hname⟩ := named_iff.mp h
        exact ⟨hname, entry, .inl rfl, by rw [hk]; exact hintro⟩
      · cases hj
    · rintro ⟨hname, parent, rfl | hparent, hintro⟩
      · rw [hk] at hintro
        exact .inl (named_iff.mpr ⟨hintro, hname⟩)
      · -- The path and the variable introduce nothing themselves.
        obtain ⟨slot, hslot⟩ := NodeKind.exists_slot hparent
        have hplace := NodeKind.slot_of_introduces? hintro (hconforms.admits hslot)
        simp only [NodeKind.slots, List.mem_cons, Prod.mk.injEq, List.mem_map] at hslot
        grind
  | _ => rw [hk] at hentry; exact absurd hentry Bool.false_ne_true

/-- The kinds of `FROM` clauses. -/
def isFromClause : NodeKind → Bool
  | .fromClause _ | .simpleFromClause _ => true
  | _ => false

theorem fromDeclarations_eq {clause : Nat} (hkind : isFromClause (tree.kind clause) = true) :
    tree.fromDeclarations (some clause) = (tree.children clause).map tree.declaration := by
  unfold Tree.fromDeclarations Tree.children
  cases hk : tree.kind clause <;> first
    | (rw [hk] at hkind; exact absurd hkind Bool.false_ne_true)
    | (rw [Option.map_some, hk]; rfl)

theorem admits_entry {clean : Prop} (hs : tree.Schematic clean) {clause entry : Nat}
    (hlt : clause < tree.size) (hkind : isFromClause (tree.kind clause) = true)
    (he : entry ∈ tree.children clause) : Slot.entry.admits (tree.kind entry) = true := by
  have hconforms := hs.conforms clause hlt
  unfold Tree.children at he
  cases hk : tree.kind clause <;> first
    | (rw [hk] at hkind; exact absurd hkind Bool.false_ne_true)
    | (rw [hk] at hconforms he; exact hconforms.admits (List.mem_map_of_mem he))

/-- What a `FROM` clause declares. -/
theorem mem_names_from {clean : Prop} (hwf : tree.WellFormed) (hs : tree.Schematic clean)
    {clause : Nat} (hlt : clause < tree.size) (hkind : isFromClause (tree.kind clause) = true)
    {name : String} {node : Nat} :
    (name, node) ∈ (tree.fromDeclarations (some clause)).flatMap declarationNames ↔
      tree.IsNamed node name ∧ ∃ entry ∈ tree.children clause, ∃ parent,
        (parent = entry ∨ parent ∈ tree.children entry) ∧
          (tree.kind parent).introduces? = some node := by
  have hentry : ∀ entry ∈ tree.children clause, Slot.entry.admits (tree.kind entry) = true :=
    fun entry => admits_entry hs hlt hkind
  rw [fromDeclarations_eq hkind, List.mem_flatMap]
  constructor
  · rintro ⟨_, hd, h⟩
    obtain ⟨entry, he, rfl⟩ := List.mem_map.mp hd
    obtain ⟨hname, hparent⟩ := (mem_declarationNames_entry hs
      (Nat.lt_trans (hwf.child_lt he) hlt) (hentry entry he)).mp h
    exact ⟨hname, entry, he, hparent⟩
  · rintro ⟨hname, entry, he, hparent⟩
    exact ⟨_, List.mem_map_of_mem he, (mem_declarationNames_entry hs
      (Nat.lt_trans (hwf.child_lt he) hlt) (hentry entry he)).mpr ⟨hname, hparent⟩⟩

/-! ## From the node up -/

/-- The step from a declaration, or what holds one, to its parent. -/
theorem climb {clean : Prop} (hwf : tree.WellFormed) (hs : tree.Schematic clean)
    {id statement : Nat} {place : Slot} (hscope : tree.scopeNode? id = some statement)
    (hplace : (tree.kind id).place? = some place) :
    ∃ parent, (id, place) ∈ (tree.kind parent).slots ∧ place.isHost (tree.kind parent) = true ∧
      id ∈ tree.children parent ∧ ((tree.kind parent).isStatement = true ∧ parent = statement ∨
        (tree.kind parent).isStatement = false ∧ tree.scopeNode? parent = some statement) := by
  obtain ⟨parent, hp, hcases⟩ := Tree.scopeNode?_cases hwf hscope
  obtain ⟨hslot, hhost⟩ := hs.of_place hwf hp hplace
  exact ⟨parent, hslot, hhost, (hwf.of_parent hp).2.2, hcases⟩

/-- From a clause to its statement. -/
theorem climb_clause {clean : Prop} (hwf : tree.WellFormed) (hs : tree.Schematic clean)
    {clause statement : Nat} {slot : Slot} (hscope : tree.scopeNode? clause = some statement)
    (hplace : (tree.kind clause).place? = some slot) (hslot : slot.isClause = true) :
    (clause, slot) ∈ (tree.kind statement).slots := by
  obtain ⟨parent, hmem, hhost, -, ⟨-, rfl⟩ | ⟨hno, -⟩⟩ := climb hwf hs hscope hplace
  · exact hmem
  · rw [Slot.isStatement_of_isHost hslot hhost] at hno
    cases hno

/-- From a part of a clause to what holds it. -/
theorem climb_part {clean : Prop} (hwf : tree.WellFormed) (hs : tree.Schematic clean)
    {id statement : Nat} {place : Slot} (hscope : tree.scopeNode? id = some statement)
    (hplace : (tree.kind id).place? = some place) (hpart : place.isPart = true) :
    ∃ parent, (id, place) ∈ (tree.kind parent).slots ∧ place.isHost (tree.kind parent) = true ∧
      id ∈ tree.children parent ∧ tree.scopeNode? parent = some statement := by
  obtain ⟨parent, hmem, hhost, hchild, ⟨hyes, -⟩ | ⟨-, hparent⟩⟩ := climb hwf hs hscope hplace
  · rw [Slot.not_isStatement_of_isHost hpart hhost] at hyes
    cases hyes
  · exact ⟨parent, hmem, hhost, hchild, hparent⟩

/-- A slot of a statement for its `FROM` clause. -/
def isFromSlot : Slot → Bool
  | .fromClause | .simpleFromClause => true
  | _ => false

theorem place?_of_isHost_entry {kind : NodeKind} (h : Slot.entry.isHost kind = true) :
    ∃ slot, isFromSlot slot = true ∧ slot.isClause = true ∧ kind.place? = some slot := by
  cases kind <;> first | exact absurd h Bool.false_ne_true | exact ⟨_, rfl, rfl, rfl⟩

/-- From an entry of a `FROM` clause to the statement. -/
theorem climb_entry {clean : Prop} (hwf : tree.WellFormed) (hs : tree.Schematic clean)
    {entry statement : Nat} (hscope : tree.scopeNode? entry = some statement)
    (hplace : (tree.kind entry).place? = some .entry) :
    ∃ clause slot, isFromSlot slot = true ∧ (clause, slot) ∈ (tree.kind statement).slots ∧
      entry ∈ tree.children clause := by
  obtain ⟨clause, -, hhost, hentry, hclause⟩ := climb_part hwf hs hscope hplace rfl
  obtain ⟨slot, hfrom, hslot, hplace⟩ := place?_of_isHost_entry hhost
  exact ⟨clause, slot, hfrom, climb_clause hwf hs hclause hplace hslot, hentry⟩

/-- **Where a variable of a statement is introduced**: in its `FROM` clause, by an item of its
`SELECT` clause, or by the range of an `UPDATE` or `DELETE`. -/
theorem introducer_cases {clean : Prop} (hwf : tree.WellFormed) (hs : tree.Schematic clean)
    {parent node statement : Nat} (hintro : (tree.kind parent).introduces? = some node)
    (hscope : tree.scopeNode? parent = some statement) :
    (∃ clause slot entry, isFromSlot slot = true ∧ (clause, slot) ∈ (tree.kind statement).slots ∧
      entry ∈ tree.children clause ∧ (parent = entry ∨ parent ∈ tree.children entry)) ∨
    (∃ clause, (clause, .selectClause) ∈ (tree.kind statement).slots ∧
      parent ∈ tree.children clause) ∨
    (∃ clause, ((clause, .updateClause) ∈ (tree.kind statement).slots ∨
      (clause, .deleteClause) ∈ (tree.kind statement).slots) ∧
      (parent, .range) ∈ (tree.kind clause).slots) := by
  have hentry : ∀ entry, (tree.kind entry).place? = some .entry →
      tree.scopeNode? entry = some statement →
      (parent = entry ∨ parent ∈ tree.children entry) →
      ∃ clause slot entry, isFromSlot slot = true ∧
        (clause, slot) ∈ (tree.kind statement).slots ∧
        entry ∈ tree.children clause ∧ (parent = entry ∨ parent ∈ tree.children entry) := by
    intro entry hplace hscope hparent
    obtain ⟨clause, slot, hfrom, hmem, hclause⟩ := climb_entry hwf hs hscope hplace
    exact ⟨clause, slot, entry, hfrom, hmem, hclause, hparent⟩
  cases hk : tree.kind parent with
  | collectionDeclaration path hasAs declared =>
    exact .inl (hentry parent (by rw [hk]; rfl) hscope (.inl rfl))
  | join type fetch path hasAs declared on =>
    obtain ⟨entry, hmem, hhost, hchild, hentryScope⟩ :=
      climb_part hwf hs hscope (by rw [hk]; rfl) rfl
    refine .inl (hentry entry ?_ hentryScope (.inr hchild))
    cases hke : tree.kind entry <;> rw [hke] at hhost <;>
      first | rfl | exact absurd hhost Bool.false_ne_true
  | resultVariable expression hasAs declared =>
    obtain ⟨clause, hmem, hhost, hchild, hclause⟩ :=
      climb_part hwf hs hscope (by rw [hk]; rfl) rfl
    refine .inr (.inl ⟨clause, climb_clause hwf hs hclause ?_ rfl, hchild⟩)
    cases hke : tree.kind clause <;> rw [hke] at hhost <;>
      first | rfl | exact absurd hhost Bool.false_ne_true
  | rangeDeclaration root hasAs declared =>
    obtain ⟨host, hmem, hhost, hchild, hhostScope⟩ :=
      climb_part hwf hs hscope (by rw [hk]; rfl) rfl
    cases hkh : tree.kind host with
    | variableDeclaration range joins =>
      exact .inl (hentry host (by rw [hkh]; rfl) hhostScope (.inr hchild))
    | updateClause range items =>
      exact .inr (.inr ⟨host, .inl (climb_clause hwf hs hhostScope (by rw [hkh]; rfl) rfl), hmem⟩)
    | deleteClause range =>
      exact .inr (.inr ⟨host, .inr (climb_clause hwf hs hhostScope (by rw [hkh]; rfl) rfl), hmem⟩)
    | _ => rw [hkh] at hhost; exact absurd hhost Bool.false_ne_true
  | _ => rw [hk] at hintro; cases hintro

/-! ## From the statement down -/

theorem scopeNode?_of_child (hwf : tree.WellFormed) {id child : Nat}
    (hc : child ∈ tree.children id) (hkind : (tree.kind id).isStatement = false) :
    tree.scopeNode? child = tree.scopeNode? id := by
  rw [Tree.scopeNode?, Tree.scopes_of_child hwf hc hkind, Tree.scopeNode?]

/-- A variable is introduced in the statement in which its declaration stands. -/
theorem introduced_iff (hwf : tree.WellFormed) {node statement : Nat} :
    tree.IsIntroduced node ∧ tree.scopeNode? node = some statement ↔
      ∃ parent, (tree.kind parent).introduces? = some node ∧
        tree.scopeNode? parent = some statement := by
  have hscope : ∀ parent, (tree.kind parent).introduces? = some node →
      tree.scopeNode? node = tree.scopeNode? parent := fun parent hi =>
    scopeNode?_of_child hwf (NodeKind.introduces?_mem_children hi)
      (NodeKind.not_isStatement_of_introduces? hi)
  constructor
  · rintro ⟨⟨parent, -, hi⟩, hs⟩
    exact ⟨parent, hi, by rw [← hscope parent hi]; exact hs⟩
  · rintro ⟨parent, hi, hs⟩
    exact ⟨⟨parent, hwf.child parent node (NodeKind.introduces?_mem_children hi), hi⟩,
      by rw [hscope parent hi]; exact hs⟩

/-- What is introduced in a `FROM` clause is introduced in its statement. -/
theorem scopeNode?_of_from {clean : Prop} (hwf : tree.WellFormed) (hs : tree.Schematic clean)
    {statement clause entry parent : Nat} (hlt : statement < tree.size)
    (hkind : (tree.kind statement).isStatement = true) (hclause : clause ∈ tree.children statement)
    (hfrom : isFromClause (tree.kind clause) = true) (hentry : entry ∈ tree.children clause)
    (hparent : parent = entry ∨ parent ∈ tree.children entry) :
    tree.scopeNode? parent = some statement := by
  have hclauseKind : (tree.kind clause).isStatement = false := by
    cases hk : tree.kind clause <;> rw [hk] at hfrom <;>
      first | rfl | exact absurd hfrom Bool.false_ne_true
  have hentryKind : (tree.kind entry).isStatement = false := by
    have hadmits := admits_entry hs (Nat.lt_trans (hwf.child_lt hclause) hlt) hfrom hentry
    cases hk : tree.kind entry <;> rw [hk] at hadmits <;>
      first | rfl | exact absurd hadmits Bool.false_ne_true
  have hscope : tree.scopeNode? entry = some statement := by
    rw [scopeNode?_of_child hwf hentry hclauseKind, Tree.scopeNode?,
      Tree.scopes_of_statement hwf hclause hkind]
    rfl
  rcases hparent with rfl | hparent
  · exact hscope
  · rw [scopeNode?_of_child hwf hparent hentryKind, hscope]

/-- The names of the results in a `SELECT` clause. -/
theorem mem_resultNames {clean : Prop} (hs : tree.Schematic clean) {clause : Nat}
    (hlt : clause < tree.size) (hkind : Slot.selectClause.admits (tree.kind clause) = true)
    {name : String} {node : Nat} :
    (name, node) ∈ tree.resultNames clause ↔ tree.IsNamed node name ∧
      ∃ parent ∈ tree.children clause, (tree.kind parent).introduces? = some node := by
  have hconforms := hs.conforms clause hlt
  unfold Tree.resultNames Tree.children
  cases hk : tree.kind clause with
  | selectClause distinct items =>
    rw [hk] at hconforms
    rw [List.mem_filterMap]
    constructor
    · rintro ⟨item, hi, hname⟩
      unfold Tree.resultName? at hname
      split at hname
      · next expression hasAs declared hki =>
        cases hv : tree.variableName? (some declared) with
        | none => simp [hv] at hname
        | some other =>
          simp only [hv, Option.bind_eq_bind, Option.bind_some, Option.pure_def, Option.some_inj,
            Prod.mk.injEq] at hname
          obtain ⟨rfl, rfl⟩ := hname
          exact ⟨Tree.variableName?_eq_some.mp hv, item, hi, by rw [hki]; rfl⟩
      · cases hname
    · rintro ⟨hname, item, hi, hintro⟩
      refine ⟨item, hi, ?_⟩
      have hadmits : Slot.selectItem.admits (tree.kind item) = true :=
        hconforms.admits (List.mem_map_of_mem hi)
      unfold Tree.resultName?
      cases hki : tree.kind item with
      | resultVariable expression hasAs declared =>
        rw [hki] at hintro
        obtain rfl : declared = node := Option.some_inj.mp hintro
        simp [Tree.variableName?_eq_some.mpr hname]
      | _ =>
        rw [hki] at hadmits hintro
        first | cases hintro; done | exact absurd hadmits Bool.false_ne_true
  | _ => rw [hk] at hkind; exact absurd hkind Bool.false_ne_true

/-- What the range of an `UPDATE` or `DELETE` declares. -/
theorem mem_names_clause {clean : Prop} (hs : tree.Schematic clean) {clause range : Nat}
    (hlt : clause < tree.size) (hdeclarations : tree.clauseDeclarations clause =
      [tree.rangeDeclaration range range]) (hslot : (range, .range) ∈ (tree.kind clause).slots)
    {name : String} {node : Nat} :
    (name, node) ∈ (tree.clauseDeclarations clause).flatMap declarationNames ↔
      tree.IsNamed node name ∧ (tree.kind range).introduces? = some node := by
  have hrange := (hs.conforms clause hlt).admits hslot
  rw [hdeclarations, List.flatMap_singleton, mem_declarationNames]
  refine Iff.trans (or_iff_left ?_) ((name_of_range hrange).trans and_comm)
  rintro ⟨join, hj, -⟩
  cases hk : tree.kind range with
  | rangeDeclaration root hasAs declared =>
    rw [(declaration_of_range hk).2.2] at hj
    cases hj
  | _ => rw [hk] at hrange; exact absurd hrange Bool.false_ne_true

/-- The range of an `UPDATE` or `DELETE` clause. -/
theorem range_of_clause {clause : Nat} (h : Slot.updateClause.admits (tree.kind clause) = true ∨
      Slot.deleteClause.admits (tree.kind clause) = true) :
    (tree.kind clause).isStatement = false ∧ ∃ range,
      tree.clauseDeclarations clause = [tree.rangeDeclaration range range] ∧
        (range, .range) ∈ (tree.kind clause).slots := by
  unfold Tree.clauseDeclarations
  cases hk : tree.kind clause <;> rw [hk] at h <;> first
    | exact ⟨rfl, _, rfl, List.mem_cons_self⟩
    | exact absurd h (by rintro (h | h) <;> exact absurd h Bool.false_ne_true)

/-- What a statement with a `FROM` clause declares in that clause. -/
theorem mem_names_fromClause {clean : Prop} (hwf : tree.WellFormed) (hs : tree.Schematic clean)
    {statement : Nat} (hlt : statement < tree.size)
    (hkind : (tree.kind statement).isStatement = true) {fromClause : Option Nat} (slot : Slot)
    (hslot : isFromSlot slot = true)
    (hclause : ∀ clause ∈ fromClause, (clause, slot) ∈ (tree.kind statement).slots) {name : String}
    {node : Nat}
    (h : (name, node) ∈ (tree.fromDeclarations fromClause).flatMap declarationNames) :
    tree.IsNamed node name ∧ ∃ parent, (tree.kind parent).introduces? = some node ∧
      tree.scopeNode? parent = some statement := by
  cases fromClause with
  | none => simp [Tree.fromDeclarations] at h
  | some clause =>
    have hmem := hclause clause rfl
    have hchild : clause ∈ tree.children statement := NodeKind.mem_children_of_mem_slots hmem
    have hadmits := (hs.conforms statement hlt).admits hmem
    have hfrom : isFromClause (tree.kind clause) = true := by
      cases slot <;> first | exact absurd hslot Bool.false_ne_true | skip
      all_goals
        cases hk : tree.kind clause <;> rw [hk] at hadmits <;>
          first | rfl | exact absurd hadmits Bool.false_ne_true
    obtain ⟨hname, entry, hentry, parent, hparent, hintro⟩ :=
      (mem_names_from hwf hs (Nat.lt_trans (hwf.child_lt hchild) hlt) hfrom).mp h
    exact ⟨hname, parent, hintro,
      scopeNode?_of_from hwf hs hlt hkind hchild hfrom hentry hparent⟩

section

variable {clean : Prop} (hwf : tree.WellFormed) (hs : tree.Schematic clean) {statement : Nat}
  (hlt : statement < tree.size) (hkind : (tree.kind statement).isStatement = true)
  {name : String} {node : Nat}

include hwf hs hlt hkind

/-- Every name of a scope is introduced in the statement. -/
theorem introduced_of_mem_names (h : (name, node) ∈ (Scope.ofStatement tree statement).names) :
    tree.IsNamed node name ∧ ∃ parent, (tree.kind parent).introduces? = some node ∧
      tree.scopeNode? parent = some statement := by
  have hconforms := hs.conforms statement hlt
  have hchildLt : ∀ child ∈ tree.children statement, child < tree.size := fun child hc =>
    Nat.lt_trans (hwf.child_lt hc) hlt
  have hscope : ∀ clause ∈ tree.children statement, (tree.kind clause).isStatement = false →
      ∀ child ∈ tree.children clause, tree.scopeNode? child = some statement := by
    intro clause hc hno child hchild
    rw [scopeNode?_of_child hwf hchild hno, Tree.scopeNode?,
      Tree.scopes_of_statement hwf hc hkind]
    rfl
  have hclauseNames : ∀ clause, (Slot.updateClause.admits (tree.kind clause) = true ∨
        Slot.deleteClause.admits (tree.kind clause) = true) → clause ∈ tree.children statement →
      (name, node) ∈ (tree.clauseDeclarations clause).flatMap declarationNames →
      tree.IsNamed node name ∧ ∃ parent, (tree.kind parent).introduces? = some node ∧
        tree.scopeNode? parent = some statement := by
    intro clause hclause hchild h
    obtain ⟨hno, range, hdeclarations, hslot⟩ := range_of_clause hclause
    obtain ⟨hname, hintro⟩ :=
      (mem_names_clause hs (hchildLt clause hchild) hdeclarations hslot).mp h
    exact ⟨hname, range, hintro, hscope clause hchild hno range
      (NodeKind.mem_children_of_mem_slots hslot)⟩
  unfold Scope.ofStatement names at h
  cases hk : tree.kind statement with
  | selectStatement select fromClause whereClause groupBy having orderBy =>
    rw [hk] at h hconforms
    have hselect : Slot.selectClause.admits (tree.kind select) = true :=
      hconforms.admits List.mem_cons_self
    have hchild : select ∈ tree.children statement := by
      rw [Tree.children, hk]
      exact List.mem_cons_self
    rcases List.mem_append.mp h with h | h
    · refine mem_names_fromClause hwf hs hlt hkind .fromClause rfl (fun clause hc => ?_) h
      obtain rfl := Option.mem_def.mp hc
      rw [hk]
      simp [NodeKind.slots]
    · obtain ⟨hname, parent, hparent, hintro⟩ :=
        (mem_resultNames hs (hchildLt select hchild) hselect).mp h
      refine ⟨hname, parent, hintro, hscope select hchild ?_ parent hparent⟩
      cases hks : tree.kind select <;> rw [hks] at hselect <;>
        first | rfl | exact absurd hselect Bool.false_ne_true
  | simpleSelectStatement select fromClause whereClause groupBy having =>
    rw [hk] at h hconforms
    have hselect : Slot.simpleSelectClause.admits (tree.kind select) = true :=
      hconforms.admits List.mem_cons_self
    rcases List.mem_append.mp h with h | h
    · refine mem_names_fromClause hwf hs hlt hkind .simpleFromClause rfl
        (fun clause hc => ?_) h
      obtain rfl := Option.mem_def.mp hc
      rw [hk]
      simp [NodeKind.slots]
    · -- The items of the `SELECT` clause of a subquery have no names.
      have hnone : tree.resultNames select = [] := by
        unfold Tree.resultNames
        cases hks : tree.kind select <;> rw [hks] at hselect
        all_goals first | rfl | exact absurd hselect Bool.false_ne_true
      have h : (name, node) ∈ tree.resultNames select := h
      rw [hnone] at h
      cases h
  | updateStatement clause whereClause =>
    rw [hk] at h hconforms
    have hclause : Slot.updateClause.admits (tree.kind clause) = true :=
      hconforms.admits List.mem_cons_self
    have hchild : clause ∈ tree.children statement := by
      rw [Tree.children, hk]
      exact List.mem_cons_self
    exact hclauseNames clause (.inl hclause) hchild (by simpa using h)
  | deleteStatement clause whereClause =>
    rw [hk] at h hconforms
    have hclause : Slot.deleteClause.admits (tree.kind clause) = true :=
      hconforms.admits List.mem_cons_self
    have hchild : clause ∈ tree.children statement := by
      rw [Tree.children, hk]
      exact List.mem_cons_self
    exact hclauseNames clause (.inr hclause) hchild (by simpa using h)
  | _ => rw [hk] at hkind; exact absurd hkind Bool.false_ne_true

/-- Every variable that is introduced in the statement is in its scope. -/
theorem mem_names_of_introduced {parent : Nat} (hname : tree.IsNamed node name)
    (hintro : (tree.kind parent).introduces? = some node)
    (hscope : tree.scopeNode? parent = some statement) :
    (name, node) ∈ (Scope.ofStatement tree statement).names := by
  have hconforms := hs.conforms statement hlt
  have hchildLt : ∀ child ∈ tree.children statement, child < tree.size := fun child hc =>
    Nat.lt_trans (hwf.child_lt hc) hlt
  rcases introducer_cases hwf hs hintro hscope with
    ⟨clause, slot, entry, hslot, hmem, hentry, hparent⟩ | ⟨clause, hmem, hparent⟩ |
      ⟨clause, hmem, hrange⟩
  · have hadmits := hconforms.admits hmem
    have hfrom : isFromClause (tree.kind clause) = true := by
      cases slot <;> first | exact absurd hslot Bool.false_ne_true | skip
      all_goals
        cases hk : tree.kind clause <;> rw [hk] at hadmits <;>
          first | rfl | exact absurd hadmits Bool.false_ne_true
    have hnames := (mem_names_from hwf hs
      (hchildLt clause (NodeKind.mem_children_of_mem_slots hmem)) hfrom).mpr
      ⟨hname, entry, hentry, parent, hparent, hintro⟩
    have hclause : ∃ fromClause rest, fromClause = some clause ∧ Scope.ofStatement tree statement =
        ⟨tree.fromDeclarations fromClause, rest⟩ := by
      unfold Scope.ofStatement
      cases hk : tree.kind statement <;> rw [hk] at hkind hmem <;> first
        | exact absurd hkind Bool.false_ne_true
        | (refine ⟨_, _, ?_, rfl⟩
           cases slot <;> simp_all [NodeKind.slots, isFromSlot])
        | (cases slot <;> simp_all [NodeKind.slots, isFromSlot])
    obtain ⟨_, rest, rfl, hscope⟩ := hclause
    rw [hscope]
    exact List.mem_append_left _ hnames
  · have hresults := (mem_resultNames hs
      (hchildLt clause (NodeKind.mem_children_of_mem_slots hmem)) (hconforms.admits hmem)).mpr
      ⟨hname, parent, hparent, hintro⟩
    have hselect : ∃ declarations,
        Scope.ofStatement tree statement = ⟨declarations, tree.resultNames clause⟩ := by
      have hhost := Slot.isHost_of_mem hmem
      unfold Scope.ofStatement
      cases hk : tree.kind statement <;> rw [hk] at hhost hmem <;> first
        | exact absurd hhost Bool.false_ne_true
        | (obtain rfl : clause = _ := by simpa [NodeKind.slots] using hmem
           exact ⟨_, rfl⟩)
    obtain ⟨declarations, hscope⟩ := hselect
    rw [hscope]
    exact List.mem_append_right _ hresults
  · have hchild : clause ∈ tree.children statement := by
      rcases hmem with hmem | hmem <;> exact NodeKind.mem_children_of_mem_slots hmem
    have hadmits : Slot.updateClause.admits (tree.kind clause) = true ∨
        Slot.deleteClause.admits (tree.kind clause) = true :=
      hmem.imp (hconforms.admits ·) (hconforms.admits ·)
    obtain ⟨-, range, hdeclarations, hslot⟩ := range_of_clause hadmits
    obtain rfl : parent = range := by
      rcases hadmits with hadmits | hadmits
      all_goals
        cases hk : tree.kind clause <;> rw [hk] at hadmits hrange hslot <;> first
          | exact absurd hadmits Bool.false_ne_true
          | (simp only [NodeKind.slots, List.mem_cons, Prod.mk.injEq, List.mem_map] at hrange hslot
             grind)
    have hnames := (mem_names_clause hs (hchildLt clause hchild) hdeclarations hslot).mpr
      ⟨hname, hintro⟩
    have hclause :
        Scope.ofStatement tree statement = ⟨tree.clauseDeclarations clause, []⟩ := by
      unfold Scope.ofStatement
      rcases hmem with hmem | hmem
      all_goals
        have hhost := Slot.isHost_of_mem hmem
        cases hk : tree.kind statement <;> rw [hk] at hhost hmem <;> first
          | exact absurd hhost Bool.false_ne_true
          | (obtain rfl : clause = _ := by simpa [NodeKind.slots] using hmem
             rfl)
    rw [hclause]
    exact List.mem_append_left _ hnames

/-- **A scope has the variables that are introduced in its statement**, and no others. -/
theorem mem_names_ofStatement :
    (name, node) ∈ (Scope.ofStatement tree statement).names ↔
      tree.IsIntroduced node ∧ tree.scopeNode? node = some statement ∧ tree.IsNamed node name := by
  constructor
  · intro h
    obtain ⟨hname, hparent⟩ := introduced_of_mem_names hwf hs hlt hkind h
    obtain ⟨hintro, hscope⟩ := (introduced_iff hwf).mpr hparent
    exact ⟨hintro, hscope, hname⟩
  · rintro ⟨hintro, hscope, hname⟩
    obtain ⟨parent, hparent, hparentScope⟩ := (introduced_iff hwf).mp ⟨hintro, hscope⟩
    exact mem_names_of_introduced hwf hs hlt hkind hname hparent hparentScope

end

end Scope

end Jpql
