import Jpql.Parse.Basic
import Jpql.Proofs.Tree.Forest
import Jpql.Proofs.Tree.Schema

/-! # Drafts of a tree

A *draft* is what a reader has written at some point of its run: nodes and problems. Some of its
nodes are *loose*, they have no parent yet. `Draft.Sound` is the invariant of drafts: the nodes are
trees in post-order whose roots are the loose nodes, parents and children agree, and every node
follows the schema. Adding a node takes its children off the end of the list of loose nodes and puts
the new node there (`Draft.Sound.push`).

* `Draft.Grows`: a later draft keeps the nodes of an earlier one with their kinds, and its problems.
* `Draft.Adds`: a later draft has new loose nodes besides the old ones.
* `Draft.span`: the spans of the nodes. -/

namespace Jpql

/-! ## Nodes of a builder -/

namespace TreeBuilder

/-- The parent of a node. -/
def parent? (builder : TreeBuilder) (id : Nat) : Option Nat :=
  builder.nodes[id]?.bind (·.parent)

theorem kind_of_size_le {builder : TreeBuilder} {id : Nat} (h : builder.nodes.size ≤ id) :
    builder.kind id = .bad := by
  simp [kind, Array.getElem?_eq_none h]

theorem getElem?_adopt (parent : Nat) (children : List Nat) (nodes : Array Node) (id : Nat) :
    (adopt parent children nodes)[id]? =
      if id ∈ children then nodes[id]?.map ({ · with parent := some parent }) else nodes[id]? := by
  induction children generalizing nodes with
  | nil => simp [adopt]
  | cons child children ih =>
    rw [adopt, List.foldl_cons, ← adopt, ih]
    by_cases hc : child = id
    · subst hc
      by_cases hm : child ∈ children <;>
        simp [hm, Array.getElem?_modify, Option.map_map, Function.comp_def]
    · have hne : id ≠ child := Ne.symm hc
      simp [hc, hne, Array.getElem?_modify]

variable (builder : TreeBuilder) (new : NodeKind) (span : Span)

theorem getElem?_push_of_lt {id : Nat} (h : id < builder.nodes.size) :
    (builder.push new span).2.nodes[id]? =
      if id ∈ new.children then
        builder.nodes[id]?.map ({ · with parent := some builder.nodes.size })
      else builder.nodes[id]? := by
  simp only [push]
  rw [Array.getElem?_push_lt (by simpa using h), ← Array.getElem?_eq_getElem, getElem?_adopt]

theorem kind_push_of_lt {id : Nat} (h : id < builder.nodes.size) :
    (builder.push new span).2.kind id = builder.kind id := by
  unfold kind
  rw [getElem?_push_of_lt builder new span h]
  split
  · rw [Option.map_map]
    rfl
  · rfl

theorem getElem?_push_self :
    (builder.push new span).2.nodes[builder.nodes.size]? = some ⟨new, span, none⟩ := by
  have h : ((adopt builder.nodes.size new.children builder.nodes).push ⟨new, span, none⟩)[(adopt
      builder.nodes.size new.children builder.nodes).size]? = some ⟨new, span, none⟩ :=
    Array.getElem?_push_size
  rwa [size_adopt] at h

theorem kind_push_self : (builder.push new span).2.kind builder.nodes.size = new := by
  rw [kind, getElem?_push_self]
  rfl

theorem parent?_push_of_lt {id : Nat} (h : id < builder.nodes.size) :
    (builder.push new span).2.parent? id =
      if id ∈ new.children then some builder.nodes.size else builder.parent? id := by
  unfold parent?
  rw [getElem?_push_of_lt builder new span h, Array.getElem?_eq_getElem h]
  split <;> rfl

theorem parent?_push_self : (builder.push new span).2.parent? builder.nodes.size = none := by
  rw [parent?, getElem?_push_self]
  rfl

theorem size_retag (id : Nat) : (builder.retag id new).nodes.size = builder.nodes.size := by
  simp [retag]

theorem kind_retag_of_ne {id other : Nat} (h : other ≠ id) :
    (builder.retag id new).kind other = builder.kind other := by
  simp [retag, kind, Array.getElem?_modify, h.symm]

theorem parent?_retag (id other : Nat) :
    (builder.retag id new).parent? other = builder.parent? other := by
  unfold parent? retag
  rw [Array.getElem?_modify]
  split
  · cases builder.nodes[other]? <;> rfl
  · rfl

end TreeBuilder

namespace Parse

/-- **What a reader has written so far.** -/
structure Draft where
  builder : TreeBuilder
  problems : List Problem

/-- What has been written at a state. -/
def State.draft (state : State) : Draft := ⟨state.builder, state.problems⟩

namespace Draft

/-- How many nodes there are. -/
def size (draft : Draft) : Nat := draft.builder.nodes.size

/-- The kind of a node. -/
def kind (draft : Draft) (id : Nat) : NodeKind := draft.builder.kind id

/-- The children of a node. -/
def children (draft : Draft) (id : Nat) : List Nat := (draft.kind id).children

/-- The parent of a node. -/
def parent? (draft : Draft) (id : Nat) : Option Nat := draft.builder.parent? id

/-- The draft with one more node. -/
def push (draft : Draft) (new : NodeKind) (span : Span) : Draft :=
  { draft with builder := (draft.builder.push new span).2 }

/-- The draft with one more problem. -/
def record (draft : Draft) (problem : Problem) : Draft :=
  { draft with problems := draft.problems ++ [problem] }

/-- The draft with a path read as collection-valued. -/
def asCollection (draft : Draft) (id : Nat) : Draft :=
  { draft with builder := draft.builder.retag id (draft.builder.kind id).asCollection }

theorem kind_push (draft : Draft) (new : NodeKind) (span : Span) :
    (draft.push new span).kind draft.size = new :=
  TreeBuilder.kind_push_self _ _ _

theorem size_push (draft : Draft) (new : NodeKind) (span : Span) :
    (draft.push new span).size = draft.size + 1 :=
  TreeBuilder.size_push _ _ _

theorem lt_size_of_mem_children {draft : Draft} {id child : Nat} (h : child ∈ draft.children id) :
    id < draft.size := by
  by_contra hc
  rw [children, kind, TreeBuilder.kind_of_size_le (Nat.le_of_not_lt hc)] at h
  simp [NodeKind.children] at h

/-! ## Growth -/

/-- **A later draft keeps the nodes of an earlier one**, with their kinds, and its problems. -/
structure Grows (before after : Draft) : Prop where
  size_le : before.size ≤ after.size
  kind_eq : ∀ id < before.size, after.kind id = before.kind id
  problems : before.problems <+: after.problems

namespace Grows

variable {a b c : Draft}

theorem refl (a : Draft) : a.Grows a := ⟨Nat.le_refl _, fun _ _ => rfl, List.prefix_refl _⟩

theorem trans (h : a.Grows b) (k : b.Grows c) : a.Grows c :=
  ⟨Nat.le_trans h.size_le k.size_le,
    fun id hi => (k.kind_eq id (Nat.lt_of_lt_of_le hi h.size_le)).trans (h.kind_eq id hi),
    h.problems.trans k.problems⟩

/-- A draft without problems comes from drafts without problems. -/
theorem clean (h : a.Grows b) (hb : b.problems = []) : a.problems = [] :=
  List.prefix_nil.mp (hb ▸ h.problems)

end Grows

theorem grows_push (draft : Draft) (new : NodeKind) (span : Span) :
    draft.Grows (draft.push new span) where
  size_le := by rw [size_push]; exact Nat.le_succ _
  kind_eq id hi := TreeBuilder.kind_push_of_lt _ _ _ hi
  problems := List.prefix_refl _

theorem grows_record (draft : Draft) (problem : Problem) : draft.Grows (draft.record problem) where
  size_le := Nat.le_refl _
  kind_eq _ _ := rfl
  problems := List.prefix_append _ _

/-! ## The invariant -/

/-- **The nodes are trees whose roots are loose, and follow the schema.** -/
structure Sound (draft : Draft) (loose : List Nat) : Prop where
  forest : Forest draft.children 0 draft.size loose
  parent_loose : ∀ id ∈ loose, draft.parent? id = none
  parent_child : ∀ id child, child ∈ draft.children id → draft.parent? child = some id
  conforms : ∀ id < draft.size, (draft.kind id).Conforms draft.kind
  complete : draft.problems = [] → ∀ id < draft.size, (draft.kind id).Complete draft.kind

theorem sound_empty : Sound ⟨.empty, []⟩ [] where
  forest := .nil 0
  parent_loose _ h := absurd h List.not_mem_nil
  parent_child _ _ h := absurd (lt_size_of_mem_children h) (Nat.not_lt_zero _)
  conforms _ h := absurd h (Nat.not_lt_zero _)
  complete _ _ h := absurd h (Nat.not_lt_zero _)

namespace Sound

variable {draft : Draft} {loose : List Nat}

theorem lt_size (h : draft.Sound loose) {id : Nat} (hi : id ∈ loose) : id < draft.size :=
  (h.forest.root_bounds id hi).2

theorem child_lt (h : draft.Sound loose) {id child : Nat} (hc : child ∈ draft.children id) :
    child < id :=
  (h.forest.child_bounds (Nat.zero_le _) (lt_size_of_mem_children hc) hc).2

/-- A loose node is nobody's child. -/
theorem not_child (h : draft.Sound loose) {id : Nat} (hi : id ∈ loose) (other : Nat) :
    id ∉ draft.children other := by
  intro hc
  have hp := h.parent_child other id hc
  rw [h.parent_loose id hi] at hp
  cases hp

/-- A node that conforms to the schema before it is added does so afterwards. -/
theorem conforms_push (h : draft.Sound loose) (new : NodeKind) (span : Span) {id : Nat}
    (hi : id < draft.size) :
    ((draft.push new span).kind id).Conforms (draft.push new span).kind := by
  rw [(draft.grows_push new span).kind_eq id hi]
  refine (h.conforms id hi).congr fun child hc => ?_
  exact (draft.grows_push new span).kind_eq child (Nat.lt_trans (h.child_lt hc) hi)

/-- **Adding a node** takes its children off the end of the loose nodes. -/
theorem push {new : NodeKind} (h : draft.Sound (loose ++ new.children)) (span : Span)
    (hconforms : new.Conforms draft.kind)
    (hcomplete : draft.problems = [] → new.Complete draft.kind) :
    (draft.push new span).Sound (loose ++ [draft.size]) := by
  have hgrows := draft.grows_push new span
  have hself := draft.kind_push new span
  have hsize := draft.size_push new span
  have hlt : ∀ child ∈ new.children, child < draft.size := fun child hc =>
    h.lt_size (List.mem_append_right _ hc)
  have hkind : ∀ child ∈ new.children, (draft.push new span).kind child = draft.kind child :=
    fun child hc => hgrows.kind_eq child (hlt child hc)
  have hparent : ∀ id < draft.size, (draft.push new span).parent? id =
      if id ∈ new.children then some draft.size else draft.parent? id :=
    fun id hi => TreeBuilder.parent?_push_of_lt draft.builder new span hi
  obtain ⟨middle, hbefore, hbelow⟩ := h.forest.split
  have hmiddle : middle ≤ draft.size := hbelow.le
  have hchildren : ∀ id, id < draft.size →
      (draft.push new span).children id = draft.children id := by
    intro id hi
    rw [children, children, hgrows.kind_eq id hi]
  refine ⟨?_, ?_, ?_, ?_, ?_⟩
  · rw [hsize]
    refine .snoc (hbefore.congr fun id _ hi => hchildren id (by omega)) ?_
    have : (draft.push new span).children draft.size = new.children := by rw [children, hself]
    rw [this]
    exact hbelow.congr fun id _ hi => hchildren id hi
  · intro id hi
    rcases List.mem_append.mp hi with hl | hl
    · have hlow := (hbefore.root_bounds id hl).2
      have hnot : id ∉ new.children := fun hc => by
        have := (hbelow.root_bounds id hc).1
        omega
      rw [hparent id (by omega), if_neg hnot]
      exact h.parent_loose id (List.mem_append_left _ hl)
    · rw [List.mem_singleton.mp hl]
      exact TreeBuilder.parent?_push_self draft.builder new span
  · intro id child hc
    have hid := lt_size_of_mem_children hc
    rw [hsize] at hid
    rcases Nat.lt_or_ge id draft.size with hlt' | hge
    · -- An old parent: its children were not loose, so they are not adopted again.
      rw [hchildren id hlt'] at hc
      have hcs : child < draft.size := Nat.lt_trans (h.child_lt hc) hlt'
      have hnot : child ∉ new.children := fun hn =>
        h.not_child (List.mem_append_right _ hn) id hc
      rw [hparent child hcs, if_neg hnot]
      exact h.parent_child id child hc
    · obtain rfl : id = draft.size := by omega
      rw [children, hself] at hc
      rw [hparent child (hlt child hc), if_pos hc]
  · intro id hi
    rcases Nat.lt_or_ge id draft.size with hlt' | hge
    · exact h.conforms_push new span hlt'
    · obtain rfl : id = draft.size := by omega
      rw [hself]
      exact hconforms.congr hkind
  · intro hproblems id hi
    rcases Nat.lt_or_ge id draft.size with hlt' | hge
    · rw [hgrows.kind_eq id hlt']
      have hold : ∀ other child, other < draft.size → child ∈ draft.children other →
          (draft.push new span).kind child = draft.kind child := fun other child ho hc =>
        hgrows.kind_eq child (Nat.lt_trans (h.child_lt hc) ho)
      exact (h.complete hproblems id hlt').congr (fun child hc => hold id child hlt' hc)
        fun child hc other ho => hold child other (Nat.lt_trans (h.child_lt hc) hlt') ho
    · obtain rfl : id = draft.size := by omega
      rw [hself]
      refine (hcomplete hproblems).congr hkind fun child hc other ho => ?_
      exact hgrows.kind_eq other (Nat.lt_trans (h.child_lt ho) (hlt child hc))

theorem record (h : draft.Sound loose) (problem : Problem) : (draft.record problem).Sound loose where
  forest := h.forest
  parent_loose := h.parent_loose
  parent_child := h.parent_child
  conforms := h.conforms
  complete hproblems := absurd hproblems (List.append_ne_nil_of_right_ne_nil _ (by simp))

end Sound

/-! ## Paths read as collections -/

theorem kind_asCollection (draft : Draft) {id : Nat} (hi : id < draft.size) (other : Nat) :
    (draft.asCollection id).kind other =
      if other = id then (draft.kind id).asCollection else draft.kind other := by
  split
  · next h => rw [h]; exact TreeBuilder.kind_retag _ _ hi
  · next h => exact TreeBuilder.kind_retag_of_ne _ _ h

theorem children_asCollection (draft : Draft) {id : Nat} (hi : id < draft.size) (other : Nat) :
    (draft.asCollection id).children other = draft.children other := by
  rw [children, children, kind_asCollection draft hi]
  split
  · next h => rw [h, NodeKind.children_asCollection]
  · rfl

theorem size_asCollection (draft : Draft) (id : Nat) :
    (draft.asCollection id).size = draft.size :=
  TreeBuilder.size_retag _ _ _

/-- Nothing changes at a node that is not a path of the other sort. -/
theorem asCollection_eq_self {draft : Draft} {id : Nat}
    (h : (draft.kind id).isStatePath = false) : draft.asCollection id = draft := by
  have hsame : (draft.kind id).asCollection = draft.kind id := by
    cases hk : draft.kind id with
    | path kind root segments dot => cases kind <;> simp_all [NodeKind.isStatePath,
        NodeKind.asCollection]
    | _ => rfl
  have hnodes : draft.builder.nodes.modify id ({ · with kind := draft.kind id }) =
      draft.builder.nodes := by
    refine Array.ext_getElem? fun other => ?_
    rw [Array.getElem?_modify]
    split
    · next ho =>
      subst ho
      rcases hn : draft.builder.nodes[id]? with _ | node
      · rfl
      · simp [kind, TreeBuilder.kind, hn]
    · rfl
  show Draft.mk ⟨draft.builder.nodes.modify id ({ · with kind := (draft.kind id).asCollection })⟩
    draft.problems = draft
  rw [hsame, hnodes]

/-- A path may be read anew as long as nobody relies on its kind. -/
theorem Grows.asCollection {before draft : Draft} (h : before.Grows draft) {id : Nat}
    (hnew : before.size ≤ id) (hi : id < draft.size) :
    before.Grows (draft.asCollection id) where
  size_le := by rw [size_asCollection]; exact h.size_le
  kind_eq other ho := by
    rw [kind_asCollection draft hi, if_neg (by omega), h.kind_eq other ho]
  problems := h.problems

theorem Sound.asCollection {draft : Draft} {loose : List Nat} (h : draft.Sound loose) {id : Nat}
    (hi : id ∈ loose) : (draft.asCollection id).Sound loose := by
  have hlt := h.lt_size hi
  have hchild : ∀ other child, child ∈ draft.children other →
      (draft.asCollection id).kind child = draft.kind child := fun other child hc => by
    have hne : child ≠ id := fun he => h.not_child hi other (he ▸ hc)
    rw [kind_asCollection draft hlt, if_neg hne]
  have hparent : ∀ other, (draft.asCollection id).parent? other = draft.parent? other :=
    fun other => TreeBuilder.parent?_retag _ _ _ _
  refine ⟨?_, ?_, ?_, ?_, ?_⟩
  · rw [size_asCollection]
    exact h.forest.congr fun other _ _ => children_asCollection draft hlt other
  · intro other ho
    rw [hparent]
    exact h.parent_loose other ho
  · intro other child hc
    rw [children_asCollection draft hlt] at hc
    rw [hparent]
    exact h.parent_child other child hc
  · intro other ho
    rw [size_asCollection] at ho
    have hc := (h.conforms other ho).congr (hchild other)
    rw [kind_asCollection draft hlt]
    split
    · next he =>
      subst he
      rw [NodeKind.Conforms, NodeKind.slots_asCollection]
      exact hc
    · exact hc
  · intro hproblems other ho
    rw [size_asCollection] at ho
    have hc := (h.complete hproblems other ho).congr (hchild other) fun child _ => hchild child
    rw [kind_asCollection draft hlt]
    split
    · next he =>
      subst he
      exact ⟨by simpa using hc.1, by simpa using hc.2⟩
    · exact hc

/-! ## Additions -/

/-- **A later draft has new loose nodes** behind those of an earlier one. -/
structure Adds (before after : Draft) (loose ids : List Nat) : Prop where
  grows : before.Grows after
  sound : after.Sound (loose ++ ids)
  new : ∀ id ∈ ids, before.size ≤ id

namespace Adds

variable {a b c : Draft} {loose us vs : List Nat}

theorem refl (h : a.Sound loose) : a.Adds a loose [] :=
  ⟨.refl a, by simpa using h, by simp⟩

theorem trans (h : a.Adds b loose us) (k : b.Adds c (loose ++ us) vs) :
    a.Adds c loose (us ++ vs) where
  grows := h.grows.trans k.grows
  sound := by rw [← List.append_assoc]; exact k.sound
  new id hi := by
    rcases List.mem_append.mp hi with hu | hv
    · exact h.new id hu
    · exact Nat.le_trans h.grows.size_le (k.new id hv)

theorem lt_size (h : a.Adds b loose us) {id : Nat} (hi : id ∈ us) : id < b.size :=
  h.sound.lt_size (List.mem_append_right _ hi)

theorem record (h : a.Adds b loose us) (problem : Problem) :
    a.Adds (b.record problem) loose us :=
  ⟨h.grows.trans (b.grows_record problem), h.sound.record problem, h.new⟩

/-- **The nodes that were added become the children of a new node.** -/
theorem push (h : a.Adds b loose us) (new : NodeKind) (hnew : new.children = us) (span : Span)
    (hconforms : new.Conforms b.kind) (hcomplete : b.problems = [] → new.Complete b.kind) :
    a.Adds (b.push new span) loose [b.size] where
  grows := h.grows.trans (b.grows_push new span)
  sound := (hnew ▸ h.sound : b.Sound (loose ++ new.children)).push span hconforms hcomplete
  new id hi := by
    rw [List.mem_singleton.mp hi]
    exact h.grows.size_le

theorem asCollection (h : a.Adds b loose us) {id : Nat} (hi : id ∈ us) :
    a.Adds (b.asCollection id) loose us :=
  ⟨h.grows.asCollection (h.new id hi) (h.lt_size hi),
    h.sound.asCollection (List.mem_append_right _ hi), h.new⟩

end Adds

end Draft

end Parse

/-! ## Spans of nodes

A node gets its span when it is added, and keeps it: adding a node, recording a problem and reading a
path as collection-valued leave the spans of the nodes there are. -/

namespace TreeBuilder

variable (builder : TreeBuilder) (new : NodeKind) (place : Span)

theorem span_push_of_lt {id : Nat} (h : id < builder.nodes.size) :
    (builder.push new place).2.span id = builder.span id := by
  unfold span
  rw [getElem?_push_of_lt builder new place h]
  split
  · rw [Option.map_map]
    rfl
  · rfl

theorem span_push_self : (builder.push new place).2.span builder.nodes.size = place := by
  rw [span, getElem?_push_self]
  rfl

theorem span_retag (id other : Nat) : (builder.retag id new).span other = builder.span other := by
  unfold span retag
  rw [Array.getElem?_modify]
  split
  · cases builder.nodes[other]? <;> rfl
  · rfl

end TreeBuilder

theorem Tree.span_finish (builder : TreeBuilder) (source : String) (root id : Nat) :
    (builder.finish source root).span id = builder.span id := by
  show (builder.nodes[id]?.getD _).span = (builder.nodes[id]?.map (·.span)).getD (.point 0)
  cases builder.nodes[id]? <;> rfl

namespace Parse.Draft

/-- The span of a node. -/
def span (draft : Draft) (id : Nat) : Span := draft.builder.span id

variable (draft : Draft)

theorem span_push_of_lt (new : NodeKind) (place : Span) {id : Nat} (h : id < draft.size) :
    (draft.push new place).span id = draft.span id :=
  TreeBuilder.span_push_of_lt _ _ _ h

theorem span_push (new : NodeKind) (place : Span) : (draft.push new place).span draft.size = place :=
  TreeBuilder.span_push_self _ _ _

theorem span_asCollection (id other : Nat) : (draft.asCollection id).span other = draft.span other :=
  TreeBuilder.span_retag _ _ _ _

end Parse.Draft

end Jpql
