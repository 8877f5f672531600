import Jpql.Proofs.Alias.Lockstep
import Mathlib.Data.List.Nodup

/-! # Nodes with and without the alias

What a check does at a node keeps the checks of both statements aligned, given that what it does below
the node keeps them so.

* `AliasedCheck.statePath_keeps`, `AliasedCheck.collectionPath_keeps`, `AliasedCheck.updateTarget_keeps`:
  paths, from whichever node they are reached.
* `AliasedCheck.meet_keeps`: whatever a node asks of a child.
* `AliasedCheck.visitKind_keeps`, `AliasedCheck.visitTo_keeps`: all nodes, at every level. -/

namespace Jpql

namespace NodeKind

variable (v : String) (f : NodeId → NodeId) (kind : NodeKind)

/-- The same is asked of the same children. -/
theorem demands_renamed :
    (kind.renamed v f).demands = kind.demands.map fun asked => (f asked.1, asked.2) := by
  cases kind with
  | aggregate function distinct a => cases function <;> rfl
  | identifier name isVirtual path => cases isVirtual <;> cases path <;> rfl
  | comparison a operator b =>
    rw [renamed, demands, demands]
    split <;> rfl
  | _ => simp [renamed, demands, children, Option.toList_map, Function.comp_def]

theorem isUniform_renamed : (kind.renamed v f).isUniform = kind.isUniform := by
  unfold renamed
  split <;> rfl

variable {v f kind}

theorem eq_updateItem_of_renamed {target value : Nat} (h : kind.renamed v f = .updateItem target value) :
    ∃ target value, kind = .updateItem target value := by
  unfold renamed at h
  split at h <;> first | exact ⟨_, _, rfl⟩ | cases h

theorem eq_rangeDeclaration_of_renamed {root : Nat} {hasAs : Bool} {declared : Option Nat}
    (h : kind.renamed v f = .rangeDeclaration root hasAs declared) :
    ∃ root' declared', kind = .rangeDeclaration root' hasAs declared' ∧ root = f root' := by
  unfold renamed at h
  split at h <;> first | cases h; exact ⟨_, _, rfl, rfl⟩ | cases h

/-- Where a collection is expected, a collection or an association is asked for. -/
theorem demand_of_collection {child strength : Nat}
    (h : (child, Slot.collection strength) ∈ kind.slots) (htreat : kind.isTreat = false) :
    (child, Demand.collection) ∈ kind.demands ∨ (child, Demand.association) ∈ kind.demands := by
  cases kind with
  | logical connective => cases connective <;> simp [slots] at h
  | arithmetic operation => cases operation <;> simp [slots] at h
  | treat => cases htreat
  | _ => simp_all [slots, demands]

end NodeKind

open Check

namespace AliasedCheck

variable {c : AliasedCheck} {id child root : Nat} {segments others : List (Located String)} {dot : Bool}

theorem not_isTreat (id : Nat) : (c.left.kind id).isTreat = false := by
  have homits := Aliasing.omitsAlias (A := c.toAliasing) id
  cases hk : c.left.kind id <;> first | rfl | (rw [hk] at homits; cases homits)

/-! ## Nodes whose paths are kept -/

theorem kept_behind (h : c.Kept id) : c.Kept (c.left.behind id) := by
  have hkept : (c.right.kind (c.image id)).isStatePath = _ := h
  show (c.right.kind (c.image (c.left.behind id))).isStatePath = _
  rw [Aliasing.image_behind, hkept, Aliasing.behind_eq_self (Aliasing.not_isField_behind id)]

/-- What is no path is no state-field path in the other tree. -/
theorem kept_of_not_path (hlt : id < c.left.size) (h : c.left.pathBehind? id = none) : c.Kept id := by
  have hnone : ∀ {tree : Tree} {id : Nat}, tree.pathBehind? id = none →
      (tree.kind id).isStatePath = false := by
    intro tree id h
    unfold Tree.pathBehind? at h
    split at h
    · cases h
    · cases h
    · next hpath _ =>
      cases hk : tree.kind id <;> first | rfl | exact absurd hk (hpath _ _ _ _)
  have hfield : (c.left.kind id).isField = false := by
    refine Bool.eq_false_iff.mpr fun hfield => ?_
    obtain ⟨_, _, _, _, _, _, hk, -⟩ := Aliasing.field_cases hfield
    rw [Tree.pathBehind?, hk] at h
    cases h
  have himage := Aliasing.pathBehind?_image hlt
  rw [h] at himage
  show (c.right.kind (c.image id)).isStatePath = _
  rw [Aliasing.behind_eq_self hfield, hnone himage, hnone h]

theorem kept_root {kind : PathKind} (hk : c.left.kind id = .path kind root segments dot) :
    root < c.left.size ∧ c.Kept root := by
  have hc : root ∈ c.left.children id := by
    rw [Tree.children, hk]
    exact List.mem_cons_self
  exact ⟨c.isQuery.lt_of_child hc,
    Aliasing.kept_of_child hc (by rw [hk]; rfl) (by simp [hk, NodeKind.slots])⟩

/-- What the range goes over fits its place in both trees. -/
theorem admits_rangeRoot {hasAs : Bool} {declared : Option Nat}
    (hk : c.left.kind id = .rangeDeclaration root hasAs declared) :
    Slot.rangeRoot.admits (c.left.kind root) = true ∧
      Slot.rangeRoot.admits (c.right.kind (c.image root)) = true := by
  have hmem : (root, Slot.rangeRoot) ∈ (c.left.kind id).slots := by
    rw [hk]
    exact List.mem_cons_self
  have hadmits := c.isQuery.admits hmem
  refine ⟨hadmits, ?_⟩
  have hbad := c.isQuery.ne_bad (c.isQuery.lt_of_child (NodeKind.mem_children_of_mem_slots hmem))
  cases hr : c.left.kind root <;> rw [hr] at hadmits hbad <;>
    first | exact absurd hadmits Bool.false_ne_true | exact absurd rfl hbad | skip
  case schemaName =>
    have hr' := Aliasing.kind_image_of hr (by simp) rfl rfl
    rw [hr']
    rfl
  case path kind segments dot =>
    obtain ⟨other, _, hr', -, rfl | ⟨field, _, _, hfield, -⟩⟩ := Aliasing.path_image hr
    · rw [hr']
      cases other <;> first | rfl | exact absurd hadmits Bool.false_ne_true
    · obtain ⟨_, _, _, _, hstate, -⟩ := c.isQuery.virtual_path hfield
      rw [hr] at hstate
      cases hstate
      exact absurd hadmits Bool.false_ne_true

/-! ## Paths -/

theorem settle_keeps (id root other otherRoot : Nat) (verdict : PathVerdict)
    (hvalues : segments.map (·.value) = others.map (·.value)) :
    c.Keeps (settle id root segments verdict) (settle other otherRoot others verdict) := by
  cases verdict with
  | valid => exact .pure _
  | invalid key => exact (Keeps.recordAt key id other).bind fun _ => .pure _
  | constant known enum =>
    refine (Keeps.unuse root otherRoot).bind fun _ => ?_
    cases known with
    | true => exact .pure _
    | false =>
      refine (Keeps.recordAll ?_).bind fun _ => .pure _
      have hlast := Located.getLast?_of_values hvalues
      cases hl : segments.getLast? <;> cases hr : others.getLast? <;> rw [hl, hr] at hlast
      · rfl
      · cases hlast
      · cases hlast
      · rfl

section

variable {visit visit' : Visitor} (hv : c.Visits visit visit')

include hv

/-- **A state-field path comes to the same.** -/
theorem statePath_keeps (hk : c.left.kind id = .path .stateField root segments dot) (hkept : c.Kept id)
    (associationAllowed : Bool) :
    c.Keeps (statePath visit id associationAllowed)
      (statePath visit' (c.image id) associationAllowed) := by
  obtain ⟨others, hk', hvalues⟩ := hkept.path_image hk
  obtain ⟨hresolved, hresolved'⟩ := Aliasing.isResolvedRoot hk
  obtain ⟨hlt, hroot⟩ := kept_root hk
  refine .kindOf ?_
  rw [hk, hk']
  refine (hv root hlt hroot).bind fun _ => .inTree ?_
  rw [hresolved, hresolved']
  cases dot with
  | true => exact .pure _
  | false =>
    refine .ask ?_
    have hverdict : c.contextAfter.statePath (c.image id) others associationAllowed =
        c.contextBefore.statePath id segments associationAllowed :=
      c.ranges.statePath c.free hk hk' hvalues associationAllowed
    rw [hverdict]
    exact settle_keeps id root _ _ _ hvalues

/-- **A path that must denote a collection comes to the same**, however it is read. -/
theorem collectionPath_keeps (hlt : id < c.left.size) (collectionOnly : Bool) :
    c.Keeps (collectionPath visit id collectionOnly)
      (collectionPath visit' (c.image id) collectionOnly) := by
  refine .inTree ?_
  rw [Aliasing.pathBehind?_image hlt]
  cases hpath : c.left.pathBehind? id with
  | none => exact hv id hlt (kept_of_not_path hlt hpath)
  | some path =>
    refine .kindOf ?_
    have hbehind := (Aliasing.behind_of_pathBehind? hpath).2
    cases hk : c.left.kind path <;> rw [hk] at hbehind <;>
      first | exact absurd hbehind Bool.false_ne_true | skip
    next kind root segments dot =>
    obtain ⟨other, others, hk', hvalues, -⟩ := Aliasing.path_image hk
    obtain ⟨hresolved, hresolved'⟩ := Aliasing.isResolvedRoot hk
    obtain ⟨hroot, hkept⟩ := kept_root hk
    rw [hk']
    refine (hv root hroot hkept).bind fun _ => .inTree ?_
    rw [hresolved, hresolved']
    cases dot with
    | true => exact .pure _
    | false =>
      refine .ask ?_
      have hsame : c.contextAfter.collectionPath? (c.image path) collectionOnly =
          c.contextBefore.collectionPath? path collectionOnly := c.ranges.collectionPath? hk collectionOnly
      rw [hsame]
      cases c.contextBefore.collectionPath? path collectionOnly with
      | none => exact .pure _
      | some key => exact .recordAt key path _

/-- **The target of a `SET` item comes to the same.** -/
theorem updateTarget_keeps (hlt : id < c.left.size) (hkept : c.Kept id) :
    c.Keeps (updateTarget visit id) (updateTarget visit' (c.image id)) := by
  refine .inTree ?_
  rw [Aliasing.pathBehind?_image hlt]
  cases hpath : c.left.pathBehind? id with
  | none => exact hv id hlt hkept
  | some path =>
    refine .kindOf ?_
    obtain ⟨rfl, hbehind⟩ := Aliasing.behind_of_pathBehind? hpath
    cases hk : c.left.kind (c.left.behind id) <;> rw [hk] at hbehind <;>
      first | exact absurd hbehind Bool.false_ne_true | skip
    next kind root segments dot =>
    obtain ⟨others, hk', hvalues⟩ := (kept_behind hkept).path_image hk
    rw [hk']
    cases kind with
    | collectionValued =>
      exact hv _ (Nat.lt_of_le_of_lt (Aliasing.behind_le id) hlt) (kept_behind hkept)
    | stateField =>
      obtain ⟨hroot, hkept'⟩ := kept_root hk
      obtain ⟨hleft, hright⟩ := c.ranges.kind_root hk
      refine (hv root hroot hkept').bind fun _ => .kindOf ?_
      rw [hleft, hright]
      refine .ask ?_
      have hsame : c.contextAfter.updateTarget? c.v others =
          c.contextBefore.updateTarget? c.name segments := c.ranges.updateTarget? hvalues
      rw [hsame]
      cases c.contextBefore.updateTarget? c.name segments with
      | none => exact .pure _
      | some key => exact .recordAt key _ _

/-! ## Operands -/

/-- The state-field path at a node is checked as such. -/
theorem statePathBehind_keeps {path : Nat} (h : c.left.statePathBehind? id = some path)
    (hkept : c.Kept id) :
    c.Keeps (statePath visit path false) (statePath visit' (c.image path) false) := by
  obtain ⟨hpath, hstate⟩ := Option.filter_eq_some_iff.mp h
  obtain ⟨rfl, -⟩ := Aliasing.behind_of_pathBehind? hpath
  unfold Tree.isStatePath at hstate
  split at hstate
  · next hk => exact statePath_keeps hv hk (kept_behind hkept) false
  · cases hstate

theorem basicPath_keeps (hlt : id < c.left.size) (hkept : c.Kept id) :
    c.Keeps (basicPath visit id) (basicPath visit' (c.image id)) := by
  refine .inTree ?_
  rw [Aliasing.statePathBehind?_image hlt hkept]
  cases hpath : c.left.statePathBehind? id with
  | none => exact .pure _
  | some path => exact statePathBehind_keeps hv hpath hkept

theorem basicOperands_keeps {left right : Nat} (hlt : left < c.left.size) (hkept : c.Kept left)
    (hlt' : right < c.left.size) (hkept' : c.Kept right) :
    c.Keeps (basicOperands visit left right)
      (basicOperands visit' (c.image left) (c.image right)) := by
  refine (basicPath_keeps hv hlt hkept).bind fun leftValid =>
    (basicPath_keeps hv hlt' hkept').bind fun rightValid => ?_
  have hright : c.Keeps (if rightValid then visit right else pure ())
      (if rightValid then visit' (c.image right) else pure ()) := by
    split
    · exact hv right hlt' hkept'
    · exact .pure _
  dsimp only
  split
  · exact (hv left hlt hkept).bind fun _ => hright
  · exact hright

theorem basicOperand_keeps (hlt : id < c.left.size) (hkept : c.Kept id) :
    c.Keeps (basicOperand visit id) (basicOperand visit' (c.image id)) := by
  refine .inTree ?_
  rw [Aliasing.statePathBehind?_image hlt hkept]
  cases hpath : c.left.statePathBehind? id with
  | none => exact hv id hlt hkept
  | some path => exact (statePathBehind_keeps hv hpath hkept).discard

/-! ## Children -/

theorem association_keeps (hlt : id < c.left.size) :
    c.Keeps (association visit id) (association visit' (c.image id)) := by
  have hpath := collectionPath_keeps hv hlt false
  have htreat := not_isTreat (c := c) id
  have htreat' : (c.right.kind (c.image id)).isTreat = false :=
    (Aliasing.isTreat_image hlt).trans htreat
  refine .kindOf ?_
  split
  · next hk => rw [hk] at htreat; cases htreat
  · split
    · next hk => rw [hk] at htreat'; cases htreat'
    · exact hpath

/-- **Whatever a node asks of a child comes to the same.** -/
theorem meet_keeps {demand : Demand} (hmem : (child, demand) ∈ (c.left.kind id).demands)
    (hfield : (c.left.kind id).isField = false) :
    c.Keeps (meet visit (child, demand)) (meet visit' (c.image child, demand)) := by
  have hc : child ∈ c.left.children id := NodeKind.mem_children_of_mem_demands hmem
  have hlt := c.isQuery.lt_of_child hc
  have hkept : demand ≠ .collection → demand ≠ .association → c.Kept child := by
    intro hcollection hassociation
    refine Aliasing.kept_of_child hc hfield fun strength hslot => ?_
    have hnodup := c.isQuery.wellFormed.children_nodup id
    rw [Tree.children, ← NodeKind.map_fst_demands] at hnodup
    rcases NodeKind.demand_of_collection hslot (not_isTreat id) with hother | hother
    · exact hcollection (congrArg Prod.snd (List.inj_on_of_nodup_map hnodup hmem hother rfl))
    · exact hassociation (congrArg Prod.snd (List.inj_on_of_nodup_map hnodup hmem hother rfl))
  cases demand with
  | value => exact hv child hlt (hkept (by simp) (by simp))
  | basic => exact basicOperand_keeps hv hlt (hkept (by simp) (by simp))
  | association => exact association_keeps hv hlt
  | collection => exact collectionPath_keeps hv hlt true
  | target => exact updateTarget_keeps hv hlt (hkept (by simp) (by simp))
  | declared => exact .visitDeclared (hv child hlt (hkept (by simp) (by simp)))

/-- **Where a check does nothing but look at the children**, they come to the same. -/
theorem uniform_keeps (hlt : id < c.left.size) (hfield : (c.left.kind id).isField = false)
    (hkind : (c.left.kind id).isUniform = true)
    (hitem : ∀ target value, c.left.kind id ≠ .updateItem target value) :
    c.Keeps (visitKind visit id) (visitKind visit' (c.image id)) := by
  have hpath : (c.left.kind id).isPath = false := by
    cases hk : c.left.kind id <;> first | rfl | (rw [hk] at hkind; cases hkind)
  have hk' : c.right.kind (c.image id) = (c.left.kind id).renamed c.v c.image :=
    Aliasing.kind_image hlt hfield hpath
  have hdemands : c.Keeps ((c.left.kind id).demands.forM (meet visit))
      ((c.right.kind (c.image id)).demands.forM (meet visit')) := by
    rw [hk', NodeKind.demands_renamed]
    have hmeet := fun asked (hmem : asked ∈ (c.left.kind id).demands) => meet_keeps hv hmem hfield
    revert hmeet
    generalize (c.left.kind id).demands = asked
    intro hmeet
    induction asked with
    | nil => exact .pure _
    | cons first rest ih =>
      exact (hmeet first List.mem_cons_self).bind fun _ =>
        ih fun asked hmem => hmeet asked (List.mem_cons_of_mem _ hmem)
  have huniform : ∀ {tree : Tree} {visit : Visitor} {id : Nat} {s : State}, s.context.tree = tree →
      (tree.kind id).isUniform = true → (∀ target value, tree.kind id ≠ .updateItem target value) →
      (∀ root hasAs declared, tree.kind id = .rangeDeclaration root hasAs declared →
        Slot.rangeRoot.admits (tree.kind root) = true) →
      visitKind visit id c.env s = ((tree.kind id).demands.forM (meet visit)) c.env s := by
    rintro _ visit id s rfl hkind hitem hrange
    exact visitKind_uniform (fun target value h => absurd h (hitem target value)) hkind hrange
  refine hdemands.congr (fun s hs => ?_) fun t ht => ?_
  · exact huniform (congrArg QueryContext.tree hs) hkind hitem fun _ _ _ hk => (admits_rangeRoot hk).1
  · refine huniform (congrArg QueryContext.tree ht) ?_ (fun target value h => ?_)
      fun root hasAs declared h => ?_
    · rw [hk', NodeKind.isUniform_renamed]
      exact hkind
    · rw [hk'] at h
      obtain ⟨target, value, hk⟩ := NodeKind.eq_updateItem_of_renamed h
      exact hitem target value hk
    · rw [hk'] at h
      obtain ⟨root, declared, hk, rfl⟩ := NodeKind.eq_rangeDeclaration_of_renamed h
      exact (admits_rangeRoot hk).2

/-- **Children of which no collection is expected are visited in turn.** -/
theorem visitChildren_keeps (hlt : id < c.left.size) (hfield : (c.left.kind id).isField = false)
    (hpath : (c.left.kind id).isPath = false)
    (hslots : ∀ child strength, (child, Slot.collection strength) ∉ (c.left.kind id).slots) :
    c.Keeps (visitChildren visit id) (visitChildren visit' (c.image id)) := by
  have hchildren : c.right.children (c.image id) = (c.left.children id).map c.image := by
    have hk' : c.right.kind (c.image id) = (c.left.kind id).renamed c.v c.image :=
      Aliasing.kind_image hlt hfield hpath
    rw [Tree.children, hk', NodeKind.children_renamed]
    rfl
  refine .inTree ?_
  rw [hchildren]
  exact hv.visitAll fun child hc =>
    ⟨c.isQuery.lt_of_child hc, Aliasing.kept_of_child hc hfield (hslots child)⟩

/-- **A chain of connectives has the same operands.** -/
theorem chain_keeps (hlt : id < c.left.size) (hkept : c.Kept id) :
    c.Keeps (visitAll visit (c.left.chainOperands id))
      (visitAll visit' (c.right.chainOperands (c.image id))) := by
  have hchain := Tree.chain_operands c.isQuery.wellFormed id
  have himage : c.right.chainOperands (c.image id) = (c.left.chainOperands id).map c.image :=
    Aliasing.chainOperands_image hlt
  rw [himage]
  refine hv.visitAll fun operand hmem =>
    hchain.closed (fun id => id < c.left.size ∧ c.Kept id) ⟨hlt, hkept⟩ ?_ operand hmem
  intro node child hlogical hc _
  obtain ⟨connective, left, right, hk⟩ := NodeKind.exists_of_isLogical hlogical
  refine ⟨c.isQuery.lt_of_child hc, Aliasing.kept_of_child hc (by rw [hk]; rfl) fun strength hslot => ?_⟩
  rw [hk] at hslot
  cases connective <;> simp [NodeKind.slots] at hslot

/-! ## All kinds -/

/-- `INDEX` is written with a name, so its argument is a bare field or a path. -/
theorem index_keeps {argument : Nat} (hk : c.left.kind id = .index argument) :
    c.Keeps (index visit argument) (index visit' (c.image argument)) := by
  have hc : argument ∈ c.left.children id := by
    rw [Tree.children, hk]
    exact List.mem_cons_self
  have hlt := c.isQuery.lt_of_child hc
  have hkept : c.Kept argument :=
    Aliasing.kept_of_child hc (by rw [hk]; rfl) (by simp [hk, NodeKind.slots])
  have htakes : (c.left.kind argument).isVariableOrPath = true := by
    have htakes := c.isQuery.takes (show (c.left.kind id).argument? = some argument by rw [hk]; rfl)
    rwa [hk] at htakes
  obtain ⟨path, hpath⟩ : ∃ path, c.left.pathBehind? argument = some path := by
    cases ha : c.left.kind argument <;> rw [ha] at htakes <;>
      first | exact absurd htakes Bool.false_ne_true | skip
    case identifier name isVirtual behind =>
      obtain rfl := Aliasing.isVirtual_of_kind ha
      cases behind with
      | none => exact absurd htakes Bool.false_ne_true
      | some path => exact ⟨path, by rw [Tree.pathBehind?, ha]⟩
    case path => exact ⟨argument, by rw [Tree.pathBehind?, ha]⟩
  have hpath' := Aliasing.pathBehind?_image hlt
  rw [hpath] at hpath'
  have hno : ∀ {tree : Tree} {id path : Nat}, tree.pathBehind? id = some path →
      ∀ name behind, tree.kind id ≠ .identifier name false behind := fun h name behind hk => by
    rw [Tree.pathBehind?, hk] at h
    cases h
  refine (hv argument hlt hkept).bind fun _ => .kindOf ?_
  split
  · next ha => exact absurd ha (hno hpath _ _)
  · split
    · next ha => exact absurd ha (hno hpath' _ _)
    · exact .pure _

/-- **What is done at a node comes to the same**, a bare field aside. -/
theorem visitKind_keeps (hlt : id < c.left.size) (hkept : c.Kept id)
    (hfield : (c.left.kind id).isField = false) :
    c.Keeps (visitKind visit id) (visitKind visit' (c.image id)) := by
  have huniform := uniform_keeps hv hlt hfield
  have hchild : ∀ {child : Nat}, child ∈ c.left.children id →
      (∀ strength, (child, Slot.collection strength) ∉ (c.left.kind id).slots) →
      child < c.left.size ∧ c.Kept child := fun hc hslots =>
    ⟨c.isQuery.lt_of_child hc, Aliasing.kept_of_child hc hfield hslots⟩
  have homits := Aliasing.omitsAlias (A := c.toAliasing) id
  cases hk : c.left.kind id <;> rw [hk] at homits <;>
    first | exact absurd homits Bool.false_ne_true | skip
  case query statement leftover =>
    have hk' : c.right.kind (c.image id) = .query (statement.map c.image) (leftover.map c.image) :=
      Aliasing.kind_image_of hk (by simp) rfl rfl
    refine .kindOf ?_
    rw [hk, hk']
    cases statement with
    | none => exact .pure _
    | some statement =>
      obtain ⟨hless, hkept⟩ := @hchild statement (by simp [Tree.children, hk, NodeKind.children])
        (by simp [hk, NodeKind.slots])
      refine (hv statement hless hkept).bind fun _ => .kindOf ?_
      rw [Aliasing.isStatement_image hless]
      split
      · exact .checkVariables
      · exact .pure _
  case updateStatement clause condition =>
    have hk' : c.right.kind (c.image id) = .updateStatement (c.image clause) (condition.map c.image) :=
      Aliasing.kind_image_of hk (by simp) rfl rfl
    refine .kindOf ?_
    rw [hk, hk']
    exact visitChildren_keeps hv hlt hfield (by rw [hk]; rfl) (by simp [hk, NodeKind.slots])
  case deleteStatement clause condition =>
    have hk' : c.right.kind (c.image id) = .deleteStatement (c.image clause) (condition.map c.image) :=
      Aliasing.kind_image_of hk (by simp) rfl rfl
    refine .kindOf ?_
    rw [hk, hk']
    exact visitChildren_keeps hv hlt hfield (by rw [hk]; rfl) (by simp [hk, NodeKind.slots])
  case schemaName name =>
    have hk' : c.right.kind (c.image id) = .schemaName name := Aliasing.kind_image_of hk (by simp) rfl rfl
    refine .kindOf ?_
    rw [hk, hk']
    refine .ask ?_
    have hsame : c.contextAfter.schemaName? name = c.contextBefore.schemaName? name :=
      c.ranges.schemaName? hk
    rw [hsame]
    cases c.contextBefore.schemaName? name with
    | none => exact .pure _
    | some key => exact .recordAt key id _
  case identifier name isVirtual behind =>
    obtain rfl := Aliasing.isVirtual_of_kind hk
    cases behind with
    | some path => rw [hk] at hfield; cases hfield
    | none =>
      have hk' : c.right.kind (c.image id) = .identifier c.v false none :=
        Aliasing.kind_image_of hk (by simp) rfl rfl
      obtain rfl := c.ranges.name id name hk
      refine .kindOf ?_
      rw [hk, hk']
      exact .variableUse hk' visit visit' id
  case entityType name =>
    have hk' : c.right.kind (c.image id) = .entityType name := Aliasing.kind_image_of hk (by simp) rfl rfl
    refine .kindOf ?_
    rw [hk, hk']
    refine .ask ?_
    show c.Keeps (if (c.metamodel.entity? name).isNone then _ else _)
      (if (c.metamodel.entity? name).isNone then _ else _)
    split
    · exact .recordAt _ id _
    · exact .pure _
  case updateItem target value =>
    have hk' : c.right.kind (c.image id) = .updateItem (c.image target) (c.image value) :=
      Aliasing.kind_image_of hk (by simp) rfl rfl
    obtain ⟨htarget, hkept⟩ := @hchild target (by simp [Tree.children, hk, NodeKind.children])
      (by simp [hk, NodeKind.slots])
    obtain ⟨hvalue, hkept'⟩ := @hchild value (by simp [Tree.children, hk, NodeKind.children])
      (by simp [hk, NodeKind.slots])
    refine .kindOf ?_
    rw [hk, hk']
    refine (updateTarget_keeps hv htarget hkept).bind fun _ => .read ?_
    split
    · exact hv value hvalue hkept'
    · exact .pure _
  case comparison left operator right =>
    cases hordering : operator.isOrdering with
    | false => exact huniform (by simp [hk, NodeKind.isUniform, hordering]) (by rw [hk]; simp)
    | true =>
      have hk' : c.right.kind (c.image id) = .comparison (c.image left) operator (c.image right) :=
        Aliasing.kind_image_of hk (by simp) rfl rfl
      obtain ⟨hleft, hkept⟩ := @hchild left (by simp [Tree.children, hk, NodeKind.children])
        (by simp [hk, NodeKind.slots])
      obtain ⟨hright, hkept'⟩ := @hchild right (by simp [Tree.children, hk, NodeKind.children])
        (by simp [hk, NodeKind.slots])
      refine .kindOf ?_
      rw [hk, hk']
      simp only [hordering, if_true]
      exact basicOperands_keeps hv hleft hkept hright hkept'
  case arithmetic operation left right =>
    have hk' : c.right.kind (c.image id) = .arithmetic operation (c.image left) (c.image right) :=
      Aliasing.kind_image_of hk (by simp) rfl rfl
    have hslots : ∀ child strength, (child, Slot.collection strength) ∉ (c.left.kind id).slots := by
      rw [hk]
      cases operation <;> simp [NodeKind.slots]
    obtain ⟨hleft, hkept⟩ := @hchild left (by simp [Tree.children, hk, NodeKind.children]) (hslots _)
    obtain ⟨hright, hkept'⟩ := @hchild right (by simp [Tree.children, hk, NodeKind.children]) (hslots _)
    refine .kindOf ?_
    rw [hk, hk']
    exact basicOperands_keeps hv hleft hkept hright hkept'
  case logical connective left right =>
    have hk' : c.right.kind (c.image id) = .logical connective (c.image left) (c.image right) :=
      Aliasing.kind_image_of hk (by simp) rfl rfl
    refine .kindOf ?_
    rw [hk, hk']
    exact .inTree (chain_keeps hv hlt hkept)
  case index argument =>
    have hk' : c.right.kind (c.image id) = .index (c.image argument) :=
      Aliasing.kind_image_of hk (by simp) rfl rfl
    refine .kindOf ?_
    rw [hk, hk']
    exact index_keeps hv hk
  case path kind root segments dot =>
    obtain ⟨others, hk', -⟩ := hkept.path_image hk
    refine .kindOf ?_
    rw [hk, hk']
    cases kind with
    | stateField => exact (statePath_keeps hv hk hkept true).discard
    | collectionValued =>
      obtain ⟨hroot, hkept'⟩ := kept_root hk
      exact hv root hroot hkept'
  all_goals exact huniform (by rw [hk]; rfl) (by rw [hk]; simp)

end

/-! ## Levels -/

/-- **Nodes come to the same at every level**, if there are as many levels with the alias as without. A
bare field takes one level more than its path. -/
theorem visitTo_keeps {levels others : Nat} (hle : levels ≤ others) (hlt : id < c.left.size)
    (hkept : c.Kept id) : c.Keeps (visitTo levels id) (visitTo others (c.image id)) := by
  induction levels generalizing id others with
  | zero => exact .leaveOut id _
  | succ levels ih =>
    rcases Bool.eq_false_or_eq_true (c.left.kind id).isField with hfield | hfield
    · obtain ⟨_, path, _, _, _, _, hk, -, -, -⟩ := Aliasing.field_cases hfield
      have hbehind : c.left.behind id = path := Aliasing.behind_of_kind hk
      have himage : c.image path = c.image id := by rw [← hbehind]; exact Aliasing.image_behind id
      have hpath : c.Keeps (visitTo levels path) (visitTo others (c.image path)) := ih (by omega)
        (Nat.lt_of_le_of_lt (hbehind ▸ Aliasing.behind_le id) hlt) (hbehind ▸ kept_behind hkept)
      rw [himage] at hpath
      refine hpath.congr (fun s hs => ?_) fun _ _ => rfl
      have hs' : s.context.tree = c.left := congrArg QueryContext.tree hs
      show visitKind (visitTo levels) id c.env s = _
      rw [visitKind, kindOf_run, hs', hk]
      rfl
    · cases others with
      | zero => exact absurd hle (Nat.not_succ_le_zero levels)
      | succ others =>
        exact visitKind_keeps (fun child hc hkept => ih (Nat.le_of_succ_le_succ hle) hc hkept) hlt hkept
          hfield

end AliasedCheck

end Jpql
