import Jpql.Proofs.Tree.WellFormed

/-! # Precedence and associativity

The schema asks every operand for a least strength. What that means for the operators of the
language is spelled out here, for direct children: parentheses make a node of their own, below
which everything can stand again.

* `Tree.Precedence`: which operator is never the operand of which.
* `parse_precedence`: so it is in every tree that is read, malformed text or not. -/

namespace Jpql

/-- The strength an operand needs to fit a slot. -/
def Slot.required : Slot → Nat
  | .expression strength | .collection strength => strength
  | _ => 0

theorem Slot.required_le {slot : Slot} {kind : NodeKind} (h : slot.admits kind = true) :
    slot.required ≤ kind.strength := by
  cases slot with
  | expression strength =>
    rw [admits_expression, Bool.and_eq_true, decide_eq_true_eq] at h
    exact h.2
  | collection strength =>
    rw [admits_collection, Bool.and_eq_true, Bool.and_eq_true, decide_eq_true_eq] at h
    exact h.1.2
  | _ => exact Nat.zero_le _

namespace NodeKind

/-- The node is a condition: a simple one, or conditions joined or negated. -/
def isCondition : NodeKind → Bool
  | .logical .. | .not _ | .comparison .. | .between .. | .like .. | .inList .. | .nullCheck ..
  | .emptyCheck .. | .member .. => true
  | _ => false

/-- The node is a simple condition or arithmetic: its operands are values. -/
def takesValues : NodeKind → Bool
  | .comparison .. | .between .. | .like .. | .inList .. | .nullCheck .. | .emptyCheck ..
  | .member .. | .arithmetic .. | .sign .. => true
  | _ => false

/-- What the node joins conditions with. -/
def connective? : NodeKind → Option Connective
  | .logical connective _ _ => some connective
  | _ => none

/-- The node is `+` or `-` between two operands. -/
def isSum : NodeKind → Bool
  | .arithmetic .add _ _ | .arithmetic .subtract _ _ => true
  | _ => false

/-- The node is `*` or `/` between two operands. -/
def isProduct : NodeKind → Bool
  | .arithmetic .multiply _ _ | .arithmetic .divide _ _ => true
  | _ => false

/-! ### Operators by their strength -/

section

variable {kind : NodeKind}

theorem strength_le_of_isCondition (h : kind.isCondition = true) : kind.strength ≤ 3 := by
  cases kind with
  | logical connective left right => cases connective <;> simp [strength]
  | _ => first | exact Nat.le_of_ble_eq_true rfl | exact absurd h Bool.false_ne_true

theorem strength_of_isSum (h : kind.isSum = true) : kind.strength = 4 := by
  cases kind with
  | arithmetic operation left right => cases operation <;> first | rfl | cases h
  | _ => cases h

theorem strength_of_isProduct (h : kind.isProduct = true) : kind.strength = 5 := by
  cases kind with
  | arithmetic operation left right => cases operation <;> first | rfl | cases h
  | _ => cases h

theorem strength_of_connective {connective : Connective} (h : kind.connective? = some connective) :
    kind.strength = match connective with | .or => 0 | .and => 1 := by
  cases kind with
  | logical connective' left right =>
    cases h
    cases connective <;> rfl
  | _ => cases h

theorem not_isCondition (h : 4 ≤ kind.strength) : kind.isCondition = false :=
  Bool.eq_false_iff.mpr fun hc => absurd (strength_le_of_isCondition hc) (by omega)

theorem not_isSum (h : 5 ≤ kind.strength) : kind.isSum = false :=
  Bool.eq_false_iff.mpr fun hs => absurd (strength_of_isSum hs) (by omega)

theorem not_isProduct (h : 6 ≤ kind.strength) : kind.isProduct = false :=
  Bool.eq_false_iff.mpr fun hp => absurd (strength_of_isProduct hp) (by omega)

theorem connective?_ne_or (h : 1 ≤ kind.strength) : kind.connective? ≠ some .or :=
  fun hc => absurd (strength_of_connective hc) (Nat.ne_of_gt h)

theorem connective?_eq_none (h : 2 ≤ kind.strength) : kind.connective? = none := by
  cases hc : kind.connective? with
  | none => rfl
  | some connective => cases connective <;> simp [strength_of_connective hc] at h

end

/-- Values bind more tightly than conditions. -/
theorem required_of_takesValues {kind : NodeKind} (h : kind.takesValues = true) {child : NodeId}
    {slot : Slot} (hs : (child, slot) ∈ kind.slots) : 4 ≤ slot.required := by
  suffices hall : ∀ entry ∈ kind.slots, 4 ≤ entry.2.required from hall _ hs
  cases kind with
  | arithmetic operation left right => cases operation <;> simp [slots, Slot.required]
  | comparison | between | nullCheck | emptyCheck | member | sign => simp [slots, Slot.required]
  | like _ _ _ escape => cases escape <;> simp [slots, Slot.required]
  | inList _ _ items => simp +contextual [slots, Slot.required, or_imp]
  | _ => cases h

end NodeKind

namespace Tree

/-- **Which operator is never the operand of which**, without parentheses in between. Simple
conditions and arithmetic have values for operands; operators that bind equally tightly associate
to the left. -/
structure Precedence (tree : Tree) : Prop where
  value : ∀ id, (tree.kind id).takesValues = true → ∀ operand ∈ tree.children id,
    (tree.kind operand).isCondition = false
  disjunction : ∀ id left right, tree.kind id = .logical .or left right →
    (tree.kind right).connective? ≠ some .or
  conjunction : ∀ id left right, tree.kind id = .logical .and left right →
    (tree.kind left).connective? ≠ some .or ∧ (tree.kind right).connective? = none
  negation : ∀ id operand, tree.kind id = .not operand → (tree.kind operand).connective? = none
  sum : ∀ id left right,
    tree.kind id = .arithmetic .add left right ∨ tree.kind id = .arithmetic .subtract left right →
    (tree.kind right).isSum = false
  product : ∀ id left right,
    tree.kind id = .arithmetic .multiply left right ∨
      tree.kind id = .arithmetic .divide left right →
    (tree.kind left).isSum = false ∧ (tree.kind right).isSum = false ∧
      (tree.kind right).isProduct = false
  sign : ∀ id negative operand, tree.kind id = .sign negative operand →
    (tree.kind operand).isSum = false ∧ (tree.kind operand).isProduct = false

variable {tree : Tree}

theorem Schematic.conforms_all {clean : Prop} (h : tree.Schematic clean) (id : NodeId) :
    (tree.kind id).Conforms tree.kind := by
  by_cases hid : id < tree.size
  · exact h.conforms id hid
  · have hbad : tree.kind id = .bad := by
      rw [kind, node, Array.getElem?_eq_none (Nat.le_of_not_lt hid), Option.getD_none]
    rw [hbad]
    exact trivial

/-- An operand is as strong as its slot requires. -/
theorem Schematic.required_le {clean : Prop} (h : tree.Schematic clean) {id child : NodeId}
    {kind : NodeKind} (slot : Slot) (hkind : tree.kind id = kind) (hs : (child, slot) ∈ kind.slots) :
    slot.required ≤ (tree.kind child).strength :=
  Slot.required_le ((h.conforms_all id).admits (hkind ▸ hs))

/-- The schema keeps the operators in order. -/
theorem Schematic.precedence {clean : Prop} (h : tree.Schematic clean) : tree.Precedence where
  value id htakes operand hmem := by
    obtain ⟨slot, hs⟩ := NodeKind.exists_slot hmem
    have hfour := NodeKind.required_of_takesValues htakes hs
    exact NodeKind.not_isCondition (Nat.le_trans hfour (h.required_le slot rfl hs))
  disjunction id left right hkind := by
    have hright : 1 ≤ (tree.kind right).strength :=
      h.required_le (.expression 1) hkind (by simp [NodeKind.slots])
    exact NodeKind.connective?_ne_or hright
  conjunction id left right hkind := by
    have hleft : 1 ≤ (tree.kind left).strength :=
      h.required_le (.expression 1) hkind (by simp [NodeKind.slots])
    have hright : 2 ≤ (tree.kind right).strength :=
      h.required_le (.expression 2) hkind (by simp [NodeKind.slots])
    exact ⟨NodeKind.connective?_ne_or hleft, NodeKind.connective?_eq_none hright⟩
  negation id operand hkind := by
    have hoperand : 2 ≤ (tree.kind operand).strength :=
      h.required_le (.expression 2) hkind (by simp [NodeKind.slots])
    exact NodeKind.connective?_eq_none hoperand
  sum id left right hkind := by
    have hright : 5 ≤ (tree.kind right).strength := by
      rcases hkind with hkind | hkind <;>
        exact h.required_le (.expression 5) hkind (by simp [NodeKind.slots])
    exact NodeKind.not_isSum hright
  product id left right hkind := by
    have hleft : 5 ≤ (tree.kind left).strength := by
      rcases hkind with hkind | hkind <;>
        exact h.required_le (.expression 5) hkind (by simp [NodeKind.slots])
    have hright : 6 ≤ (tree.kind right).strength := by
      rcases hkind with hkind | hkind <;>
        exact h.required_le (.expression 6) hkind (by simp [NodeKind.slots])
    exact ⟨NodeKind.not_isSum hleft, NodeKind.not_isSum (Nat.le_of_succ_le hright),
      NodeKind.not_isProduct hright⟩
  sign id negative operand hkind := by
    have hoperand : 6 ≤ (tree.kind operand).strength :=
      h.required_le (.expression 6) hkind (by simp [NodeKind.slots])
    exact ⟨NodeKind.not_isSum (Nat.le_of_succ_le hoperand), NodeKind.not_isProduct hoperand⟩

end Tree

/-- **Operators are nested by how tightly they bind, and associate to the left,** in the tree of
every text, from every rule there is and with every limit on nesting. -/
theorem parse_precedence (source rule : String) (maxDepth : Nat)
    (hrule : (Grammar.standard.rule? rule).isSome = true) :
    ∃ parsed, parse source rule maxDepth = .ok parsed ∧ parsed.tree.Precedence := by
  obtain ⟨parsed, hparsed, hschematic⟩ := parse_schematic source rule maxDepth hrule
  exact ⟨parsed, hparsed, hschematic.precedence⟩

/-- A condition without parentheses that lacks its last operand. -/
theorem parse_precedence_unfinished :
    ∃ parsed, parse "NOT a = 1 + 2 * - 3 AND b > 4 - 5 - 6 OR c +" RuleId.conditional 100 = .ok parsed ∧
      parsed.tree.Precedence :=
  parse_precedence "NOT a = 1 + 2 * - 3 AND b > 4 - 5 - 6 OR c +" RuleId.conditional 100
    (by decide +kernel)

end Jpql
