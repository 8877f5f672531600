import Jpql.Proofs.Check.Finding
import Jpql.Proofs.Check.Operand

/-! # Checking variables and declarations

* `Check.Subject.variableUse_affects`: a written variable counts itself.
* `Check.Subject.visitDeclared_affects`: a variable does not count where it is introduced.
* `Check.Subject.meet_affects`: whatever a node asks of a child, the child is accounted for. -/

namespace Jpql

namespace Check

/-! ## Runs -/

section

variable (visit : Visitor) (env : Env) (s : State)

theorem use_run (id : Nat) :
    (use id env s).2 = if s.used.contains id then s else { s with used := s.used ++ [id] } := rfl

/-- A written variable counts where variables are registered, except as an entity in a comparison. -/
theorem variableUse_run (id : Nat) (name : String) (behind : Option Nat) :
    (variableUse visit id name false behind env s).2 =
      if s.registers = true ∧
        ¬(s.context.tree.isCompared id = true ∧ (s.context.metamodel.entity? name).isSome = true)
      then (use id env s).2 else s := by
  obtain ⟨context, problems, used, registers, exceeded⟩ := s
  cases registers with
  | false => rfl
  | true =>
    have hrun : variableUse visit id name false behind env ⟨context, problems, used, true, exceeded⟩ =
        ((if !((context.metamodel.entity? name).isSome && context.tree.isCompared id) then use id
          else pure () : Checker Unit)) env ⟨context, problems, used, true, exceeded⟩ := rfl
    rw [hrun]
    cases (context.metamodel.entity? name).isSome <;> cases context.tree.isCompared id <;> rfl

end

namespace Subject

variable {q : Subject} {node id : Nat} {name : String} {visit : Visitor}

/-! ## Uses -/

section

variable {behind : Option Nat} (hk : q.tree.kind id = .identifier name false behind)

include hk

/-- A written variable is all that its node holds. -/
theorem holds_written {inner : Nat} : q.tree.Holds id inner ↔ inner = id := by
  obtain rfl := q.isQuery.behind_eq_none hk
  have hleaf : q.tree.children id = [] := by rw [Tree.children, hk]; rfl
  refine ⟨fun h => h.eq_of_leaf q.isQuery.wellFormed hleaf, ?_⟩
  rintro rfl
  exact .refl

/-- A use is added once. -/
theorem use_change (huse : q.Uses id) (s : State) :
    q.Change id (q.tree.Holds id) s (Check.use id q.env s).2 := by
  have hnone : undeclaredNodes (Check.use id q.env s).2.problems = undeclaredNodes s.problems := by
    rw [use_run]
    split <;> rfl
  refine ⟨fun inner => ?_, fun hnodup => ?_, [], by rw [hnone]; simp, List.nodup_nil, fun inner => ?_⟩
  · rw [use_run, holds_written hk]
    split
    · next hmem =>
      refine ⟨.inl, ?_⟩
      rintro (h | ⟨rfl, -⟩)
      · exact h
      · simpa using hmem
    · show inner ∈ s.used ++ [id] ↔ _
      rw [List.mem_append, List.mem_singleton]
      refine or_congr_right ⟨?_, And.left⟩
      rintro rfl
      exact ⟨rfl, huse, rfl⟩
  · rw [use_run]
    split
    · exact hnodup
    · next hmem =>
      refine List.nodup_append.mpr ⟨hnodup, by simp, fun a ha b hb hab => hmem ?_⟩
      rw [List.mem_singleton.mp hb] at hab
      subst hab
      simpa using ha
  · rw [holds_written hk]
    simp only [List.not_mem_nil, false_iff, not_and]
    rintro rfl - hscope
    exact absurd rfl hscope

theorem variableUse_written (hid : q.IsPlain id) :
    q.Affects id (q.tree.Holds id) (variableUse visit id name false behind) fun _ => True := by
  intro s hs
  have hrun := variableUse_run visit q.env s id name behind
  have hmetamodel : (q.context id).metamodel = q.metamodel := rfl
  have htree : (q.context id).tree = q.tree := rfl
  rw [hs.context, hmetamodel, htree, hs.registers] at hrun
  have hcompared : q.tree.isCompared id = true ↔ q.tree.Compares id :=
    Tree.isCompared_iff q.isQuery.wellFormed
  by_cases hentity : q.tree.isCompared id = true ∧ (q.metamodel.entity? name).isSome = true
  · rw [if_neg fun h => h.2 hentity] at hrun
    rw [hrun]
    refine ⟨trivial, .refl, fun _ => (Change.of_eq rfl rfl).congr fun inner huse => ?_⟩
    refine ⟨False.elim, fun hinner => ?_⟩
    rw [(holds_written hk).mp hinner] at huse
    obtain ⟨⟨_, _, hk', -, hno⟩, -⟩ := huse
    rw [hk] at hk'
    cases hk'
    exact hno ⟨hcompared.mp hentity.1, hentity.2⟩
  · have hcounts : q.tree.Counts q.metamodel id :=
      ⟨name, behind, hk, hid.introduced, fun h => hentity ⟨hcompared.mpr h.1, h.2⟩⟩
    rw [if_pos ⟨rfl, hentity⟩] at hrun
    rw [hrun]
    refine ⟨trivial, ?_, fun _ => use_change hk ⟨hcounts, hid.constant hcounts⟩ s⟩
    rw [use_run]
    split
    · exact .refl
    · exact .of_used

end

theorem variableUse_affects (hv : q.Visits visit) (hid : q.IsPlain id) {isVirtual : Bool}
    {behind : Option Nat} (hk : q.tree.kind id = .identifier name isVirtual behind) :
    q.Affects id (q.tree.Holds id) (variableUse visit id name isVirtual behind) fun _ => True := by
  cases isVirtual with
  | true =>
    refine Handles.affects (not_uses fun name behind => by rw [hk]; simp) ?_
    have hchildren : q.tree.children id = behind.toList := by rw [Tree.children, hk]; rfl
    rw [hchildren]
    refine Handles.forM fun child hc => ?_
    rw [← hchildren] at hc
    exact hv.visit_child hid.placed hc (by rw [hk]; rfl) (by
      rw [hk]
      simp [NodeKind.Marks, NodeKind.introduces?])
  | false => exact variableUse_written hk hid

/-- A variable only touches the uses, wherever it stands. -/
theorem variableUse_touches (isVirtual : Bool) (s : State) :
    Touches id s (variableUse visit id name isVirtual none q.env s).2 := by
  have hsame : Touches id s s := ⟨.refl, fun _ => .inl rfl⟩
  cases isVirtual with
  | true => exact hsame
  | false =>
    rw [variableUse_run]
    split
    · next h =>
      rw [use_run]
      split
      · exact hsame
      · next hmem => exact ⟨.of_used, fun _ => .inr ⟨h.1, by simpa using hmem, rfl⟩⟩
    · exact hsame

/-! ## Declared variables -/

/-- What a node introduces is a variable that stands for nothing else. -/
theorem kind_of_declared {declared : Nat}
    (hmem : (declared, Demand.declared) ∈ (q.tree.kind id).demands) :
    ∃ name isVirtual, q.tree.kind declared = .identifier name isVirtual none := by
  have hbad := q.isQuery.ne_bad (q.isQuery.lt_of_child (NodeKind.mem_children_of_mem_demands hmem))
  rcases NodeKind.slots_of_declared hmem with hslot | hslot
  all_goals
    have hadmits := q.isQuery.admits hslot
    cases hk : q.tree.kind declared <;> rw [hk] at hadmits hbad <;>
      first | exact absurd rfl hbad | exact absurd hadmits Bool.false_ne_true | skip
    next name isVirtual behind =>
    cases behind with
    | none => exact ⟨name, isVirtual, rfl⟩
    | some behind => cases isVirtual <;> exact absurd hadmits Bool.false_ne_true

/-- **A variable does not count where it is introduced.** -/
theorem visitDeclared_affects (hv : q.Visits visit) {declared : Nat}
    (hmem : (declared, Demand.declared) ∈ (q.tree.kind id).demands) :
    q.Affects node (q.tree.Holds declared) (visitDeclared visit (some declared)) fun _ => True := by
  intro s hs
  obtain ⟨name, isVirtual, hk⟩ := kind_of_declared hmem
  have htree : s.context.tree = q.tree := by
    rw [hs.context]
    rfl
  have htouch := hv.touches declared name isVirtual hk { s with registers := false } htree
  have hrun : (visitDeclared visit (some declared) q.env s).2 =
      { (visit declared q.env { s with registers := false }).2 with registers := s.registers } := rfl
  rw [hrun]
  have hsteady : Steady s
      { (visit declared q.env { s with registers := false }).2 with registers := s.registers } :=
    ⟨htouch.steady.context, rfl, htouch.steady.problems, htouch.steady.exceeded⟩
  refine ⟨trivial, hsteady, fun hw => ?_⟩
  rcases htouch.eq hw with he | ⟨hregisters, -⟩
  · rw [he]
    refine (Change.of_eq rfl rfl).congr fun inner huse => ⟨False.elim, fun hinner => ?_⟩
    have hleaf : q.tree.children declared = [] := by rw [Tree.children, hk]; rfl
    rw [hinner.eq_of_leaf q.isQuery.wellFormed hleaf] at huse
    obtain ⟨⟨_, _, -, hno, -⟩, -⟩ := huse
    exact hno ⟨id, q.isQuery.wellFormed.child id declared
      (NodeKind.mem_children_of_mem_demands hmem), NodeKind.introduces?_eq_some.mpr hmem⟩
  · exact absurd hregisters Bool.false_ne_true

/-! ## What is asked of a child -/

/-- A child is plain, unless it is declared or set. -/
theorem isPlain_of_demand {child : Nat} {demand : Demand}
    (hplaced : ∃ scope, q.tree.scopeNode? id = some scope)
    (hkind : (q.tree.kind id).isStatement = false) (hpath : (q.tree.kind id).isPath = false)
    (hmem : (child, demand) ∈ (q.tree.kind id).demands) (hdeclared : demand ≠ .declared)
    (htarget : demand ≠ .target) : q.IsPlain child := by
  have hc : child ∈ q.tree.children id := NodeKind.mem_children_of_mem_demands hmem
  have hnodup := q.isQuery.wellFormed.children_nodup id
  have hunique : ∀ {other}, (child, other) ∈ (q.tree.kind id).demands → demand = other := fun hother =>
    (NodeKind.demand_eq hnodup hmem).symm.trans (NodeKind.demand_eq hnodup hother)
  refine isPlain_of_child hc (placed_of_child hc hkind hplaced) ?_
  rintro (hintro | ⟨value, hk⟩ | ⟨segments, hk⟩)
  · exact hdeclared (hunique (NodeKind.introduces?_eq_some.mp hintro))
  · exact htarget (hunique (by rw [hk]; exact List.mem_cons_self))
  · rw [hk] at hpath
    cases hpath

theorem not_isStatePath_of_collection {child : Nat} {strength : Nat}
    (hmem : (child, Slot.collection strength) ∈ (q.tree.kind id).slots) :
    (q.tree.kind child).isStatePath = false := by
  have hadmits := q.isQuery.admits hmem
  rw [Slot.admits_collection] at hadmits
  simp only [Bool.and_eq_true, Bool.not_eq_eq_eq_not, Bool.not_true] at hadmits
  exact hadmits.2

/-- What an association is asked of is no path of values. -/
theorem not_isStatePath_of_association {child : Nat}
    (hmem : (child, Demand.association) ∈ (q.tree.kind id).demands) :
    (q.tree.kind child).isStatePath = false := by
  rcases NodeKind.slots_of_association hmem with hslot | ⟨-, hslot⟩
  · have hadmits := q.isQuery.admits hslot
    cases hk : q.tree.kind child with
    | path kind root segments dot =>
      rw [hk] at hadmits
      cases kind with
      | collectionValued => rfl
      | stateField => exact absurd hadmits Bool.false_ne_true
    | _ => rfl
  · exact not_isStatePath_of_collection hslot

section

variable (hv : q.Visits visit) (hid : q.IsPlain id)

include hv hid

/-- **A `TREAT` that is joined**: its type is visited before its path is checked. -/
theorem treat_affects {inner entityType : Nat} {hasAs : Bool}
    (hk : q.tree.kind id = .treat inner hasAs entityType) :
    q.Affects id (q.tree.Holds id) (visit entityType >>= fun _ => collectionPath visit inner false)
      fun _ => True := by
  have hkind : (q.tree.kind id).isStatement = false := by rw [hk]; rfl
  have hpath : (q.tree.kind id).isPath = false := by rw [hk]; rfl
  have hchildren : q.tree.children id = [inner, entityType] := by rw [Tree.children, hk]; rfl
  have hslot : (inner, Slot.collection 7) ∈ (q.tree.kind id).slots := by
    rw [hk]
    exact List.mem_cons_self
  have hplain : ∀ child ∈ q.tree.children id, q.IsPlain child := by
    intro child hc
    have hmem : (child, Demand.value) ∈ (q.tree.kind id).demands := by
      rw [Tree.children, hk] at hc
      rw [hk]
      exact List.mem_map_of_mem hc
    exact isPlain_of_demand hid.placed hkind hpath hmem (by simp) (by simp)
  rw [hchildren] at hplain
  have hinner := collectionPath_affects hv (hplain inner (by simp)) (not_isStatePath_of_collection hslot) false
  have htype := hv.affects entityType (hplain entityType (by simp))
  have hparts : q.Handles id [entityType, inner] (visit entityType >>= fun _ =>
      collectionPath visit inner false) :=
    .cons (htype.of_child (by simp [hchildren]) hkind) (.single (hinner.of_child (by simp [hchildren]) hkind))
  have hapart : q.tree.Apart inner entityType := Tree.apart_of_children q.isQuery.wellFormed hchildren
  refine (hparts (by simpa using hapart.symm)).congr fun below huse => ?_
  have hne : below ≠ id := by
    rintro rfl
    exact not_uses (fun name behind => by rw [hk]; simp) huse
  rw [Tree.holds_iff q.isQuery.wellFormed, hchildren]
  simp [hne, or_comm]

/-- **What a range goes over, or a join adds.** -/
theorem association_affects (hstate : (q.tree.kind id).isStatePath = false) :
    q.Affects id (q.tree.Holds id) (association visit id) fun _ => True := by
  refine .kindOf_bind ?_
  split
  · next hk => exact treat_affects hv hid hk
  · exact collectionPath_affects hv hid hstate false

end

/-- **A child is met.** -/
theorem meet_affects (hv : q.Visits visit) (hplaced : ∃ scope, q.tree.scopeNode? id = some scope)
    (hkind : (q.tree.kind id).isStatement = false) (hpath : (q.tree.kind id).isPath = false)
    {child : Nat} {demand : Demand} (hmem : (child, demand) ∈ (q.tree.kind id).demands) :
    q.Affects id (q.tree.Holds child) (meet visit (child, demand)) fun _ => True := by
  have hc : child ∈ q.tree.children id := NodeKind.mem_children_of_mem_demands hmem
  have hplain := isPlain_of_demand hplaced hkind hpath hmem
  refine Affects.of_child hc hkind ?_
  cases demand with
  | value => exact hv.affects child (hplain (by simp) (by simp))
  | basic => exact basicOperand_affects hv (hplain (by simp) (by simp))
  | association =>
    exact association_affects hv (hplain (by simp) (by simp)) (not_isStatePath_of_association hmem)
  | collection =>
    obtain ⟨strength, hslot⟩ := NodeKind.slots_of_collection hmem
    exact collectionPath_affects hv (hplain (by simp) (by simp)) (not_isStatePath_of_collection hslot) true
  | target =>
    obtain ⟨value, hk⟩ := NodeKind.eq_updateItem_of_target hmem
    exact updateTarget_affects hv hk (placed_of_child hc hkind hplaced)
  | declared => exact visitDeclared_affects hv hmem

end Subject

end Check

end Jpql
