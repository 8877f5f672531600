import Jpql.Proofs.Nesting.Level
import Jpql.Proofs.Place.Draft

/-! # Where virtual variables stand in a draft

The *owner* is the variable that stands for the entity of an `UPDATE` or `DELETE` without alias. A node
is virtual if it is the owner itself, or a bare name in the place of a field of it.

* `VirtualAt`: what a virtual node and the nodes behind it look like.
* `Draft.Walled`: below a subquery there is nothing virtual.
* `Draft.Marked`: both, for the nodes of a draft from some id on. Without an owner none of them is
  virtual.
* `Draft.Marked.extend`: what is asked of the nodes that a later draft has in addition. -/

namespace Jpql

namespace NodeKind

/-- Variables that stand for the entity of a statement, or for a field of it. -/
def isVirtual : NodeKind → Bool
  | .identifier _ true _ => true
  | _ => false

theorem isVirtual_asCollection (kind : NodeKind) : kind.asCollection.isVirtual = kind.isVirtual := by
  cases kind <;> rfl

end NodeKind

/-- **A virtual variable of an owner**: the owner itself, which takes up no text, or a bare name other
than the owner's, with the path from the owner that it stands for. -/
inductive VirtualAt (source : String) (kind : NodeId → NodeKind) (span : NodeId → Span) (owner : String)
    (id : NodeId) : Prop
  | owner (hkind : kind id = .identifier owner true none) (hempty : (span id).start = (span id).stop)
  | field {name : String} {path root : NodeId} {type : PathKind}
      (hkind : kind id = .identifier name true (some path))
      (hname : name = Text.slice source (span id)) (hother : Text.sameWord name owner = false)
      (hpath : kind path = .path type root [⟨name, span id⟩] false)
      (hroot : kind root = .identifier owner true none) (hempty : (span root).start = (span root).stop)

namespace Parse.Draft

variable {source : String} {owner : Option String} {low high : Nat} {draft later : Draft}

/-- Only nodes that have been added are of a kind. -/
theorem lt_size_of_kind {id : NodeId} (h : draft.kind id ≠ .bad) : id < draft.size := by
  by_contra hge
  exact h (TreeBuilder.kind_of_size_le (Nat.le_of_not_lt hge))

/-- A later draft has the virtual variables that there were. -/
theorem Stays.virtualAt (h : draft.Stays later) {name : String} {id : NodeId}
    (hid : VirtualAt source draft.kind draft.span name id) :
    VirtualAt source later.kind later.span name id := by
  have hkept : ∀ {id : NodeId} {kind : NodeKind}, draft.kind id = kind → kind ≠ .bad →
      id < draft.size ∧ (kind.asCollection = kind → later.kind id = kind) ∧
        later.span id = draft.span id := by
    intro id kind hkind hne
    have hlt : id < draft.size := lt_size_of_kind (hkind ▸ hne)
    exact ⟨hlt, h.kind_eq_of hlt hkind, h.span_eq id hlt⟩
  cases hid with
  | owner hkind hempty =>
    obtain ⟨-, hsame, hspan⟩ := hkept hkind NodeKind.noConfusion
    exact .owner (hsame rfl) (hspan ▸ hempty)
  | @field field path root type hkind hname hother hpath hroot hempty =>
    obtain ⟨-, hsame, hspan⟩ := hkept hkind NodeKind.noConfusion
    obtain ⟨hlt, -⟩ := hkept hpath NodeKind.noConfusion
    obtain ⟨-, hsameRoot, hspanRoot⟩ := hkept hroot NodeKind.noConfusion
    obtain ⟨type, hpath⟩ : ∃ type,
        later.kind path = .path type root [⟨field, draft.span id⟩] false := by
      rcases h.kind_eq path hlt with he | he <;> rw [he, hpath]
      · exact ⟨type, rfl⟩
      · exact ⟨.collectionValued, rfl⟩
    exact .field (hsame rfl) (hspan ▸ hname) hother (hspan ▸ hpath) (hsameRoot rfl) (hspanRoot ▸ hempty)

/-- **Nothing virtual lies below a node**: it is the last of some nodes without virtual ones that have
their children among themselves. -/
def Walled (draft : Draft) (id : NodeId) : Prop :=
  ∃ low ≤ id, ∀ inner, low ≤ inner → inner ≤ id →
    (draft.kind inner).isVirtual = false ∧ ∀ child ∈ draft.children inner, low ≤ child

theorem Walled.stays {id : NodeId} (h : draft.Walled id) (hlt : id < draft.size)
    (k : draft.Stays later) : later.Walled id := by
  obtain ⟨low, hle, hwall⟩ := h
  refine ⟨low, hle, fun inner hlow hinner => ?_⟩
  have hlt : inner < draft.size := Nat.lt_of_le_of_lt hinner hlt
  obtain ⟨hplain, hchildren⟩ := hwall inner hlow hinner
  refine ⟨?_, k.children_eq hlt ▸ hchildren⟩
  rcases k.kind_eq inner hlt with he | he <;> rw [he]
  · exact hplain
  · rw [NodeKind.isVirtual_asCollection, hplain]

/-- **Virtual variables stand where they belong**, among the nodes from an id on: they are those of the
owner, none lies below a subquery, and the children of these nodes are among them. -/
structure Marked (source : String) (owner : Option String) (low : Nat) (draft : Draft) : Prop where
  low_le : low ≤ draft.size
  child : ∀ id, low ≤ id → ∀ child ∈ draft.children id, low ≤ child
  virtual : ∀ id, low ≤ id → (draft.kind id).isVirtual = true →
    ∃ name ∈ owner, VirtualAt source draft.kind draft.span name id
  subquery : ∀ id, low ≤ id → (draft.kind id).isSubquery = true → draft.Walled id

namespace Marked

/-- No node has been added yet. -/
theorem start (source : String) (owner : Option String) (draft : Draft) :
    Marked source owner draft.size draft := by
  have hbad : ∀ id, draft.size ≤ id → draft.kind id = .bad := fun id hid =>
    TreeBuilder.kind_of_size_le hid
  refine ⟨Nat.le_refl _, fun id hid => ?_, fun id hid => ?_, fun id hid => ?_⟩
  · rw [Draft.children, hbad id hid]
    exact fun child hc => absurd hc List.not_mem_nil
  · rw [hbad id hid]
    exact fun h => absurd h Bool.false_ne_true
  · rw [hbad id hid]
    exact fun h => absurd h Bool.false_ne_true

/-- **A later draft is marked if its new nodes are.** -/
theorem extend (h : Marked source owner low draft) (k : draft.Stays later)
    (hchild : ∀ id, draft.size ≤ id → ∀ child ∈ later.children id, low ≤ child)
    (hvirtual : ∀ id, draft.size ≤ id → (later.kind id).isVirtual = true →
      ∃ name ∈ owner, VirtualAt source later.kind later.span name id)
    (hsubquery : ∀ id, draft.size ≤ id → (later.kind id).isSubquery = true → later.Walled id) :
    Marked source owner low later := by
  refine ⟨Nat.le_trans h.low_le k.size_le, fun id hid => ?_, fun id hid hkind => ?_,
    fun id hid hkind => ?_⟩
  · rcases Nat.lt_or_ge id draft.size with hlt | hge
    · exact k.children_eq hlt ▸ h.child id hid
    · exact hchild id hge
  · rcases Nat.lt_or_ge id draft.size with hlt | hge
    · have hold : (draft.kind id).isVirtual = true := by
        rcases k.kind_eq id hlt with he | he <;> rw [he] at hkind
        · exact hkind
        · rwa [NodeKind.isVirtual_asCollection] at hkind
      obtain ⟨name, hname, hat⟩ := h.virtual id hid hold
      exact ⟨name, hname, k.virtualAt hat⟩
    · exact hvirtual id hge hkind
  · rcases Nat.lt_or_ge id draft.size with hlt | hge
    · have hold : (draft.kind id).isSubquery = true := by
        rcases k.kind_eq id hlt with he | he <;> rw [he] at hkind
        · exact hkind
        · rwa [NodeKind.isSubquery_asCollection] at hkind
      exact (h.subquery id hid hold).stays hlt k
    · exact hsubquery id hge hkind

/-- The draft may change as long as no node is added. -/
theorem stays (h : Marked source owner low draft) (k : draft.Stays later)
    (hsize : later.size = draft.size) : Marked source owner low later := by
  have hstart := start source owner later
  rw [hsize] at hstart
  refine h.extend k (fun id hid child hc => Nat.le_trans h.low_le (hstart.child id hid child hc))
    (fun id hid => hstart.virtual id hid) fun id hid => hstart.subquery id hid

/-- **A new node** above nodes that are marked. -/
theorem push (h : Marked source owner low draft) {kind : NodeKind} (span : Span)
    (hchildren : ∀ child ∈ kind.children, low ≤ child)
    (hvirtual : kind.isVirtual = true → ∃ name ∈ owner,
      VirtualAt source (draft.push kind span).kind (draft.push kind span).span name draft.size)
    (hsubquery : kind.isSubquery = true → (draft.push kind span).Walled draft.size) :
    Marked source owner low (draft.push kind span) := by
  have hnew := start source owner (draft.push kind span)
  rw [size_push] at hnew
  refine h.extend (.push draft kind span) (fun id hid child hc => ?_) (fun id hid hkind => ?_)
    fun id hid hkind => ?_
  all_goals rcases Nat.lt_or_eq_of_le hid with hlt | rfl
  · have := hnew.child id hlt child hc
    have := h.low_le
    omega
  · rw [Draft.children, kind_push] at hc
    exact hchildren child hc
  · exact hnew.virtual id hlt hkind
  · rw [kind_push] at hkind
    exact hvirtual hkind
  · exact hnew.subquery id hlt hkind
  · rw [kind_push] at hkind
    exact hsubquery hkind

/-- A new node that is neither virtual nor a subquery. -/
theorem push_plain (h : Marked source owner low draft) {kind : NodeKind} (span : Span)
    (hchildren : ∀ child ∈ kind.children, low ≤ child) (hvirtual : kind.isVirtual = false)
    (hsubquery : kind.isSubquery = false) : Marked source owner low (draft.push kind span) :=
  h.push span hchildren (fun hk => absurd hk (by simp [hvirtual]))
    fun hk => absurd hk (by simp [hsubquery])

/-- **Without an owner no node is virtual.** -/
theorem not_virtual (h : Marked source none low draft) {id : NodeId} (hid : low ≤ id) :
    (draft.kind id).isVirtual = false := by
  by_contra hkind
  obtain ⟨name, hname, -⟩ := h.virtual id hid (by simpa using hkind)
  cases hname

/-- There may be an owner from now on. -/
theorem weaken (h : Marked source none low draft) (owner : Option String) :
    Marked source owner low draft :=
  ⟨h.low_le, h.child, fun _ hid hkind => absurd hkind (by simp [h.not_virtual hid]), h.subquery⟩

/-- **Where there is no owner, a subquery may be added**: no node from the id on is virtual. -/
theorem push_subquery (h : Marked source none low draft) {kind : NodeKind} (span : Span)
    (hchildren : ∀ child ∈ kind.children, low ≤ child) (hvirtual : kind.isVirtual = false) :
    Marked source none low (draft.push kind span) := by
  refine h.push span hchildren (fun hk => absurd hk (by simp [hvirtual])) fun _ => ?_
  refine ⟨low, h.low_le, fun inner hlow hinner => ?_⟩
  rcases Nat.lt_or_eq_of_le hinner with hlt | rfl
  · rw [Draft.children, (draft.grows_push kind span).kind_eq inner hlt]
    exact ⟨h.not_virtual hlow, h.child inner hlow⟩
  · rw [Draft.children, kind_push]
    exact ⟨hvirtual, hchildren⟩

/-- **What was added without an owner is marked for any owner.** -/
theorem join (h : Marked source owner low draft) (k : draft.Stays later)
    (hinner : Marked source none draft.size later) : Marked source owner low later :=
  h.extend k (fun id hid child hc => Nat.le_trans h.low_le (hinner.child id hid child hc))
    (fun id hid hkind => absurd hkind (by simp [hinner.not_virtual hid]))
    fun id hid => hinner.subquery id hid

end Marked

end Parse.Draft

end Jpql
