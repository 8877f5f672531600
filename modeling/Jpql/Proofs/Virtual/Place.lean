import Jpql.Proofs.Tree.Order
import Jpql.Proofs.Virtual.Statement

/-! # Virtual variables stay where they belong

Whatever text is read, its virtual variables are those of its statement, which is an `UPDATE` or
`DELETE` of an entity without alias, and none of them lies in a subquery (`parse_virtual`). -/

namespace Jpql

namespace Text

theorem toLower_toLower (c : Char) : c.toLower.toLower = c.toLower := by
  by_cases hc : c.toNat < 128
  · have hascii : ∀ n < 128, (Char.ofNat n).toLower.toLower = (Char.ofNat n).toLower := by decide
    have hsame := hascii c.toNat hc
    rwa [Char.ofNat_toNat] at hsame
  · have hno : ¬(c.val ≥ 'A'.val ∧ c.val ≤ 'Z'.val) := fun h =>
      hc (Nat.lt_of_le_of_lt (UInt32.le_iff_toNat_le.mp h.2) (by decide))
    have hsame : c.toLower = c := dif_neg hno
    rw [hsame, hsame]

/-- A name is the same as a word in lower case if it is the same as the word. -/
theorem sameWord_asciiLower (name word : String) :
    sameWord name (asciiLower word) = sameWord name word := by
  have htwice : Char.toLower ∘ Char.toLower = Char.toLower := funext toLower_toLower
  rw [Bool.eq_iff_iff, sameWord_iff, sameWord_iff, asciiLower, String.toList_ofList, List.map_map, htwice]

end Text

/-- A statement that changes what is stored. -/
def NodeKind.isModification : NodeKind → Bool
  | .updateStatement .. | .deleteStatement .. => true
  | _ => false

theorem RangeOf.isModification {kind : NodeId → NodeKind} {statement range : NodeId}
    (h : RangeOf kind statement range) : (kind statement).isModification = true := by
  rcases h with ⟨_, _, _, hkind, _⟩ | ⟨_, _, hkind, _⟩ <;> rw [hkind] <;> rfl

namespace Tree

variable {tree : Tree}

/-- **The statement of the tree is an `UPDATE` or `DELETE` of an entity**, without `AS` and without
alias. -/
def Modifies (tree : Tree) (statement : NodeId) (entity : String) : Prop :=
  (∃ leftover, tree.kind tree.root = .query (some statement) leftover) ∧
    ∃ range, RangeOf tree.kind statement range ∧ Unaliased tree.kind tree.span range entity

/-- **A virtual variable of a statement over an entity**: it lies in the statement, and in no subquery.
Either it is the variable that stands for the entity, named like it in lower case, and takes up no text.
Or it is a bare field as it is written, with the path that it stands for: from such a variable to that
field. -/
structure IsVirtualIn (tree : Tree) (statement : NodeId) (entity : String) (id : NodeId) (name : String)
    (path? : Option NodeId) : Prop where
  below : tree.Holds statement id
  outside : ∀ subquery, (tree.kind subquery).isSubquery = true → ¬tree.Holds subquery id
  owner : path? = none → name = Text.asciiLower entity ∧ (tree.span id).start = (tree.span id).stop
  field : ∀ path ∈ path?, name = tree.text id ∧ Text.sameWord name entity = false ∧
    ∃ root, tree.kind path = .path .stateField root [⟨name, tree.span id⟩] false ∧
      tree.kind root = .identifier (Text.asciiLower entity) true none ∧
      (tree.span root).start = (tree.span root).stop

/-- **Virtual variables stay where they belong**: in an `UPDATE` or `DELETE` of an entity without alias.
A tree with another statement, or none, has no virtual variables. -/
structure VirtualInPlace (tree : Tree) : Prop where
  virtual : ∀ id name path?, tree.kind id = .identifier name true path? →
    ∃ statement entity, tree.Modifies statement entity ∧
      tree.IsVirtualIn statement entity id name path?
  without : ∀ statement leftover, tree.kind tree.root = .query statement leftover →
    (∀ id ∈ statement, (tree.kind id).isModification = false) → ∀ id, (tree.kind id).isVirtual = false

theorem lt_size_of_isVirtual {id : NodeId} (h : (tree.kind id).isVirtual = true) : id < tree.size :=
  lt_size_of_kind fun hbad => by rw [hbad] at h; cases h

/-- What a root holds lies in the statement, unless it is left over. -/
theorem holds_statement (hwf : tree.WellFormed) {clean : Prop} (hschematic : tree.Schematic clean)
    {statement : NodeId} {leftover : Option NodeId}
    (hroot : tree.kind tree.root = .query (some statement) leftover) {id : NodeId}
    (hvirtual : (tree.kind id).isVirtual = true) : tree.Holds statement id := by
  have hlt := lt_size_of_isVirtual hvirtual
  rcases (Holds.of_root hwf hlt).cases hwf with rfl | ⟨child, hc, hheld⟩
  · rw [hroot] at hvirtual
    cases hvirtual
  · rw [Tree.children, hroot] at hc
    rcases List.mem_cons.mp hc with rfl | hc
    · exact hheld
    · -- Text that is left over has no nodes of its own.
      have hslot : (child, Slot.leftover) ∈ (tree.kind tree.root).slots := by
        rw [hroot]
        exact List.mem_cons_of_mem _ (List.mem_map_of_mem hc)
      have hadmits := (hschematic.conforms tree.root (hwf.root_last ▸ Nat.lt_succ_self _)).admits hslot
      cases hkind : tree.kind child <;> rw [hkind] at hadmits <;> try cases hadmits
      rcases hheld.cases hwf with rfl | ⟨inner, hinner, -⟩
      · rw [hkind] at hvirtual
        cases hvirtual
      · rw [Tree.children, hkind] at hinner
        exact absurd hinner List.not_mem_nil

/-- What lies below a wall lies behind it. -/
theorem Holds.walled (hwf : tree.WellFormed) {low last id : NodeId} (hle : low ≤ last)
    (hwall : ∀ inner, low ≤ inner → inner ≤ last → ∀ child ∈ tree.children inner, low ≤ child)
    (h : tree.Holds last id) : low ≤ id ∧ id ≤ last := by
  refine ⟨?_, h.le hwf⟩
  induction h with
  | refl => exact hle
  | @up inner parent hp h ih => exact hwall parent ih (h.le hwf) inner (hwf.of_parent hp).2.2

theorem IsVirtualIn.of_virtualAt {clean : Prop} (hschematic : tree.Schematic clean)
    {statement id : NodeId} {entity name : String} {path? : Option NodeId}
    (hkind : tree.kind id = .identifier name true path?)
    (hat : VirtualAt tree.source tree.kind tree.span (Text.asciiLower entity) id)
    (hbelow : tree.Holds statement id)
    (houtside : ∀ subquery, (tree.kind subquery).isSubquery = true → ¬tree.Holds subquery id) :
    tree.IsVirtualIn statement entity id name path? := by
  cases hat with
  | owner hown hempty =>
    obtain ⟨rfl, -, rfl⟩ := NodeKind.identifier.inj (hkind.symm.trans hown)
    exact ⟨hbelow, houtside, fun _ => ⟨rfl, hempty⟩, fun _ hpath => by cases hpath⟩
  | @field field path root type hfield hname hother hpath hroot hempty =>
    obtain ⟨rfl, -, rfl⟩ := NodeKind.identifier.inj (hkind.symm.trans hfield)
    refine ⟨hbelow, houtside, fun hnone => absurd hnone (by simp), ?_⟩
    rintro _ ⟨⟩
    -- The schema tells which of its two readings the path has.
    have hlt := lt_size_of_kind (hkind ▸ NodeKind.noConfusion : tree.kind id ≠ .bad)
    have hslot : (path, Slot.virtualPath) ∈ (tree.kind id).slots := by
      rw [hkind]
      exact List.mem_singleton_self _
    have hadmits := (hschematic.conforms id hlt).admits hslot
    rw [hpath] at hadmits
    cases type with
    | collectionValued => cases hadmits
    | stateField =>
      rw [Text.sameWord_asciiLower] at hother
      exact ⟨hname, hother, root, hpath, hroot, hempty⟩

end Tree

namespace Parse.Draft

variable {source : String} {draft : Draft} {root : NodeId} {statement leftover : Option NodeId}

/-- **A tree has the virtual variables of its statement in their places.** -/
theorem Owned.inPlace (h : draft.Owned source statement) (hsound : draft.Sound [root])
    (hroot : draft.kind root = .query statement leftover) :
    (draft.builder.finish source root).VirtualInPlace := by
  have hwf := hsound.wellFormed source
  have hschematic : (draft.builder.finish source root).Schematic False :=
    hsound.schematic source False.elim
  have hkind : (draft.builder.finish source root).kind = draft.kind :=
    funext (Tree.kind_finish draft.builder source root)
  have hspan : (draft.builder.finish source root).span = draft.span :=
    funext (Tree.span_finish draft.builder source root)
  have hwhole : (draft.builder.finish source root).kind (draft.builder.finish source root).root =
      .query statement leftover := (congrFun hkind root).trans hroot
  rcases h with h | ⟨id, hid, range, entity, hrange, hunaliased, h⟩
  · have hnone : ∀ id, ((draft.builder.finish source root).kind id).isVirtual = false := fun id =>
      hkind ▸ h.not_virtual (Nat.zero_le id)
    refine ⟨fun id name path? hk => ?_, fun _ _ _ _ => hnone⟩
    have hvirtual := hnone id
    rw [hk] at hvirtual
    cases hvirtual
  · obtain rfl := Option.mem_def.mp hid
    refine ⟨fun inner name path? hk => ?_, fun other rest hother hmodification => ?_⟩
    · have hvirtual : ((draft.builder.finish source root).kind inner).isVirtual = true := by
        rw [hk]
        rfl
      refine ⟨id, entity, ⟨⟨leftover, hwhole⟩, range, hkind ▸ hrange, ?_⟩, ?_⟩
      · rw [hkind, hspan]
        exact hunaliased
      · obtain ⟨_, ⟨⟩, hat⟩ := h.virtual inner (Nat.zero_le _) (hkind ▸ hvirtual)
        rw [← hkind, ← hspan] at hat
        refine .of_virtualAt hschematic hk hat (Tree.holds_statement hwf hschematic hwhole hvirtual) ?_
        intro subquery hsubquery hheld
        obtain ⟨low, hle, hwall⟩ := h.subquery subquery (Nat.zero_le _) (hkind ▸ hsubquery)
        rw [← Tree.children_finish draft source root, ← hkind] at hwall
        obtain ⟨hlow, hlast⟩ := hheld.walled hwf hle fun inner hlow hlast => (hwall inner hlow hlast).2
        rw [(hwall inner hlow hlast).1] at hvirtual
        cases hvirtual
    · obtain ⟨rfl, -⟩ := NodeKind.query.inj (hwhole.symm.trans hother)
      have hplain := hmodification id rfl
      rw [(hkind ▸ hrange : RangeOf _ id range).isModification] at hplain
      cases hplain

end Parse.Draft

/-- **Whatever is read, virtual variables stay where they belong**, with every rule there is and with
every limit on nesting. -/
theorem parse_virtual (source rule : String) (maxDepth : Nat)
    (hrule : (Grammar.standard.rule? rule).isSome = true) :
    ∃ parsed, parse source rule maxDepth = .ok parsed ∧ parsed.tree.VirtualInPlace := by
  obtain ⟨root, state, hrun, hparse⟩ := parse_run source rule maxDepth hrule
  have hlevel : (Parse.level maxDepth).Sound (Parse.textEnv source maxDepth) :=
    Parse.level_sound rfl maxDepth
  obtain ⟨hadds, -⟩ :=
    (Parse.query_writes hlevel hrule Parse.Draft.sound_empty .initial rfl).of_eq hrun
  obtain ⟨statement, leftover, hroot, howned⟩ :=
    Parse.query_owned (Parse.textEnv_ofText source maxDepth) maxDepth rule root state hrun
  exact ⟨_, hparse, howned.inPlace hadds.sound hroot⟩

/-- An update without alias, with a subquery that has bare names of its own. -/
theorem parse_virtual_update : ∃ parsed,
    parse "UPDATE Employee SET salary = (SELECT MAX(m.salary) FROM Manager m WHERE id > 1) WHERE dept = 2"
      RuleId.statement 5 = .ok parsed ∧ parsed.tree.VirtualInPlace :=
  parse_virtual _ RuleId.statement 5 (by decide +kernel)

end Jpql
