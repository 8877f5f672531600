import Jpql.Proofs.Chain.Extend
import Jpql.Proofs.Check.Chain

/-! # What is done at a node goes as far as its visitors

A check of a node leaves to a visitor what lies below. If one visitor goes as far as another on all
smaller nodes, so does what is done at the node: `Check.visitKind_extends`. It follows that a visit with
more levels goes as far as one with fewer, and that every visit is balanced.

A chain of connectives is read from the top down its left sides, and its operands are put in front of
those met before. At each connective the operands are those of the left side, followed by the right
side (`Tree.mem_chainOperands`). -/

namespace Jpql

/-! ## The operands of a chain -/

namespace Tree

variable {tree : Tree} {id left right operand : Nat} {connective : Connective}

/-- **A node is an operand of a chain**: what a connective of the chain has on its right, and what the
last one has on its left. -/
inductive IsOperand (tree : Tree) : Nat → Nat → Prop
  | first {id left right : Nat} {connective : Connective}
      (hk : tree.kind id = .logical connective left right)
      (hleft : (tree.kind left).isLogical = false) : IsOperand tree id left
  | further {id left right operand : Nat} {connective : Connective}
      (hk : tree.kind id = .logical connective left right)
      (h : IsOperand tree left operand) : IsOperand tree id operand
  | last {id left right : Nat} {connective : Connective}
      (hk : tree.kind id = .logical connective left right) : IsOperand tree id right

theorem IsOperand.isLogical (h : tree.IsOperand id operand) : (tree.kind id).isLogical = true := by
  cases h with
  | first hk | further hk | last hk =>
    rw [hk]
    rfl

theorem chainFrom_append (depth id : Nat) (rest : List Nat) :
    tree.chainFrom depth id rest = tree.chainFrom depth id [] ++ rest := by
  induction depth generalizing id rest with
  | zero => rfl
  | succ depth ih =>
    rw [chainFrom, chainFrom]
    split
    · next left right _ =>
      rw [ih left (right :: rest), ih left [right], List.append_assoc]
      rfl
    · rfl

theorem chainOperands_of_not_isLogical (h : (tree.kind id).isLogical = false) :
    tree.chainOperands id = [id] := by
  rw [chainOperands, chainFrom]
  split
  · next hk =>
    rw [hk] at h
    cases h
  · rfl

section

variable (hwf : tree.WellFormed)

include hwf

theorem left_lt (hk : tree.kind id = .logical connective left right) : left < id :=
  hwf.child_lt (by rw [children, hk]; exact List.mem_cons_self)

theorem right_lt (hk : tree.kind id = .logical connective left right) : right < id :=
  hwf.child_lt (by rw [children, hk]; simp [NodeKind.children])

/-- A chain is read to its end, however far it may be read. -/
theorem chainFrom_eq_of_lt {depth further : Nat} (h : id < depth) (h' : id < further)
    (rest : List Nat) : tree.chainFrom depth id rest = tree.chainFrom further id rest := by
  induction depth generalizing further id rest with
  | zero => exact absurd h (Nat.not_lt_zero _)
  | succ depth ih =>
    cases further with
    | zero => exact absurd h' (Nat.not_lt_zero _)
    | succ further =>
      rw [chainFrom, chainFrom]
      split
      · next hk =>
        have hlt := left_lt hwf hk
        exact ih (Nat.lt_of_lt_of_le hlt (Nat.le_of_lt_succ h))
          (Nat.lt_of_lt_of_le hlt (Nat.le_of_lt_succ h')) _
      · rfl

/-- **The operands at a connective** are those of its left side, followed by its right side. -/
theorem chainOperands_logical (hk : tree.kind id = .logical connective left right) :
    tree.chainOperands id = tree.chainOperands left ++ [right] := by
  rw [chainOperands, chainFrom, hk]
  show tree.chainFrom id left [right] = _
  rw [chainFrom_append, chainOperands, chainFrom_eq_of_lt hwf (left_lt hwf hk) (Nat.lt_succ_self left)]

/-- **What is visited in place of a chain are its operands.** -/
theorem mem_chainOperands (h : (tree.kind id).isLogical = true) :
    operand ∈ tree.chainOperands id ↔ tree.IsOperand id operand := by
  induction id using Nat.strongRecOn with
  | _ id ih =>
    obtain ⟨connective, left, right, hk⟩ := NodeKind.exists_of_isLogical h
    rw [chainOperands_logical hwf hk, List.mem_append, List.mem_singleton]
    constructor
    · rintro (hmem | rfl)
      · cases hleft : (tree.kind left).isLogical with
        | true => exact .further hk ((ih left (left_lt hwf hk) hleft).mp hmem)
        | false =>
          rw [chainOperands_of_not_isLogical hleft, List.mem_singleton] at hmem
          rw [hmem]
          exact .first hk hleft
      · exact .last hk
    · rintro (⟨hk', hleft⟩ | ⟨hk', hinner⟩ | hk') <;> rw [hk] at hk' <;> obtain ⟨-, rfl, rfl⟩ := hk'
      · rw [chainOperands_of_not_isLogical hleft]
        exact .inl List.mem_cons_self
      · exact .inl ((ih left (left_lt hwf hk) hinner.isLogical).mpr hinner)
      · exact .inr rfl

theorem IsOperand.lt (h : tree.IsOperand id operand) : operand < id := by
  induction h with
  | first hk => exact left_lt hwf hk
  | further hk _ ih => exact Nat.lt_trans ih (left_lt hwf hk)
  | last hk => exact right_lt hwf hk

end

end Tree

/-! ## Nodes below a node -/

namespace Tree

variable {tree : Tree} {id path : Nat}

/-- A path that a node stands for is the node or lies below it. -/
theorem le_of_pathBehind (hwf : tree.WellFormed) (h : tree.pathBehind? id = some path) : path ≤ id := by
  unfold pathBehind? at h
  split at h
  · exact Nat.le_of_eq (Option.some.inj h).symm
  · next hk =>
    obtain rfl := Option.some.inj h
    refine Nat.le_of_lt (hwf.child_lt ?_)
    rw [children, hk]
    exact List.mem_singleton_self _
  · cases h

/-- The root of a path lies below it. -/
theorem root_le (hwf : tree.WellFormed) {kind : PathKind} {root : NodeId}
    {segments : List (Located String)} {dot : Bool}
    (hk : tree.kind path = .path kind root segments dot) : root ≤ path :=
  Nat.le_of_lt (hwf.child_lt (by rw [children, hk]; exact List.mem_singleton_self _))

end Tree

namespace Check.Extends

variable {tree : Tree} {visit visit' : Visitor} {id child : Nat}

/-! ## Operations without a visitor -/

theorem unuse : Extends tree (unuse id) (unuse id) :=
  .of_run (fun _ => ()) (fun _ _ => []) (fun _ _ used => used.filter (· != id)) fun _ s => by
    rw [List.append_nil]
    rfl

/-- The variables in use are looked up. -/
theorem lookUp : Extends tree (get >>= fun s : State => checkVariables s.used)
    (get >>= fun s : State => checkVariables s.used) :=
  .of_run (fun _ => ()) (fun context used => context.duplicates ++ context.undeclared used)
    (fun _ _ used => used) fun _ _ => by
      rw [← List.append_assoc]
      rfl

theorem declarationOrder : Extends tree (declarationOrder id) (declarationOrder id) :=
  ask_bind fun _ => recordAll

/-- What a verdict adds. -/
theorem settle {root : NodeId} {segments : List (Located String)} {verdict : PathVerdict} :
    Extends tree (settle id root segments verdict) (settle id root segments verdict) := by
  cases verdict with
  | valid => exact pure
  | invalid key => exact recordAt.bind fun _ => pure
  | constant known enum =>
    cases known with
    | true => exact unuse.bind fun _ => pure
    | false => exact unuse.bind fun _ => recordAll.bind fun _ => pure

/-! ## Paths -/

/-- **A state-field path**, given what is done at its root. -/
theorem statePath {root : NodeId} {segments : List (Located String)} {dot allowed : Bool}
    (hk : tree.kind id = .path .stateField root segments dot)
    (hroot : Extends tree (visit root) (visit' root)) :
    Extends tree (statePath visit id allowed) (statePath visit' id allowed) := by
  refine .kindOf_bind ?_
  rw [hk]
  refine hroot.bind fun _ => inTree_bind ?_
  split
  · exact pure
  · exact ask_bind fun _ => settle

section

variable (hwf : tree.WellFormed) (hv : ∀ inner ≤ child, Extends tree (visit inner) (visit' inner))

include hwf hv

/-- **A path that must denote a collection**, or at least an association. -/
theorem collectionPath {collectionOnly : Bool} :
    Extends tree (collectionPath visit child collectionOnly)
      (collectionPath visit' child collectionOnly) := by
  refine .inTree_bind ?_
  split
  · exact hv child (Nat.le_refl _)
  · next path hpath =>
    have hle := Tree.le_of_pathBehind hwf hpath
    refine .kindOf_bind ?_
    split
    · next hk =>
      refine (hv _ (Nat.le_trans (Tree.root_le hwf hk) hle)).bind fun _ => .inTree_bind ?_
      split
      · exact pure
      · refine .ask_bind fun found => ?_
        split
        · exact recordAt
        · exact pure
    · exact pure

/-- **The target of a `SET` item.** -/
theorem updateTarget : Extends tree (updateTarget visit child) (updateTarget visit' child) := by
  refine .inTree_bind ?_
  split
  · exact hv child (Nat.le_refl _)
  · next path hpath =>
    have hle := Tree.le_of_pathBehind hwf hpath
    refine .kindOf_bind ?_
    split
    · next hk =>
      refine (hv _ (Nat.le_trans (Tree.root_le hwf hk) hle)).bind fun _ => .kindOf_bind ?_
      split
      · refine .ask_bind fun found => ?_
        split
        · exact recordAt
        · exact pure
      · exact pure
    · exact hv _ hle

/-! ## Operands -/

/-- The path at an operand. -/
theorem statePathBehind {path : NodeId} (hpath : tree.statePathBehind? child = some path)
    {allowed : Bool} :
    Extends tree (Check.statePath visit path allowed) (Check.statePath visit' path allowed) := by
  obtain ⟨hbehind, hstate⟩ := Option.filter_eq_some_iff.mp hpath
  unfold Tree.isStatePath at hstate
  split at hstate
  · next hk =>
    have hroot := Nat.le_trans (Tree.root_le hwf hk) (Tree.le_of_pathBehind hwf hbehind)
    exact statePath hk (hv _ hroot)
  · cases hstate

theorem basicPath : Extends tree (basicPath visit child) (basicPath visit' child) := by
  refine .inTree_bind ?_
  split
  · next path hpath => exact statePathBehind hwf hv hpath
  · exact pure

theorem basicOperand : Extends tree (basicOperand visit child) (basicOperand visit' child) := by
  refine .inTree_bind ?_
  split
  · next path hpath => exact (statePathBehind hwf hv hpath).discard
  · exact hv child (Nat.le_refl _)

/-! ## Declarations -/

theorem rangeRoot : Extends tree (rangeRoot visit child) (rangeRoot visit' child) := by
  refine .kindOf_bind ?_
  split
  · exact collectionPath hwf hv
  · exact hv child (Nat.le_refl _)

/-- **What a range goes over, or a join adds.** -/
theorem association : Extends tree (association visit child) (association visit' child) := by
  refine .kindOf_bind ?_
  cases hk : tree.kind child
  case treat path hasAs entityType =>
    have hbelow : ∀ part ∈ [path, entityType], part < child := fun part hpart =>
      hwf.child_lt (by rw [Tree.children, hk]; exact hpart)
    rw [List.forall_mem_cons, List.forall_mem_singleton] at hbelow
    exact (hv _ (Nat.le_of_lt hbelow.2)).bind fun _ => .collectionPath hwf fun other hother =>
      hv other (Nat.le_trans hother (Nat.le_of_lt hbelow.1))
  all_goals exact .collectionPath hwf hv

end

end Check.Extends

namespace Check

section

variable {tree : Tree} {visit visit' : Visitor} {id : Nat} (hwf : tree.WellFormed)
  (hv : ∀ inner < id, Extends tree (visit inner) (visit' inner))

include hwf hv

namespace Extends

theorem visitChild {child : NodeId} (hc : child ∈ tree.children id) :
    ∀ inner ≤ child, Extends tree (visit inner) (visit' inner) :=
  fun inner hle => hv inner (Nat.lt_of_le_of_lt hle (hwf.child_lt hc))

/-- **A child is met**, whatever is asked of it. -/
theorem meet {item : NodeId × Demand} (hmem : item ∈ (tree.kind id).demands) :
    Extends tree (meet visit item) (meet visit' item) := by
  obtain ⟨child, demand⟩ := item
  have hbelow := visitChild hwf hv (NodeKind.mem_children_of_mem_demands hmem)
  cases demand with
  | value => exact hbelow child (Nat.le_refl _)
  | basic => exact .basicOperand hwf hbelow
  | association => exact .association hwf hbelow
  | collection => exact .collectionPath hwf hbelow
  | target => exact .updateTarget hwf hbelow
  | declared =>
    refine .visitDeclared fun inner hinner => ?_
    obtain rfl := List.mem_singleton.mp hinner
    exact hbelow _ (Nat.le_refl _)

theorem visitSome {ids : List NodeId} (h : ∀ child ∈ ids, child ∈ tree.children id) :
    Extends tree (Check.visitAll visit ids) (Check.visitAll visit' ids) :=
  visitAll fun child hc => hv child (hwf.child_lt (h child hc))

theorem visitChildren : Extends tree (visitChildren visit id) (visitChildren visit' id) :=
  inTree_bind (visitSome hwf hv fun _ hc => hc)

/-- Both operands, when they are in order. -/
theorem basicOperands {left right : NodeId} (hleft : left ∈ tree.children id)
    (hright : right ∈ tree.children id) :
    Extends tree (basicOperands visit left right) (basicOperands visit' left right) := by
  have hl := visitChild hwf hv hleft
  have hr := visitChild hwf hv hright
  refine (basicPath hwf hl).bind fun leftValid => (basicPath hwf hr).bind fun rightValid => ?_
  have hlast : Extends tree (if rightValid then visit right else Pure.pure ())
      (if rightValid then visit' right else Pure.pure ()) := by
    split
    · exact hr right (Nat.le_refl _)
    · exact pure
  cases leftValid with
  | true => exact (hl left (Nat.le_refl _)).bind fun _ => hlast
  | false => exact hlast

/-- A variable. Whether it comes into use depends on the mode. -/
theorem variableUse {name : String} {isVirtual : Bool} {path : Option NodeId}
    (hk : tree.kind id = .identifier name isVirtual path) :
    Extends tree (variableUse visit id name isVirtual path)
      (variableUse visit' id name isVirtual path) := by
  cases isVirtual with
  | true =>
    refine visitSome hwf hv fun child hc => ?_
    rw [Tree.children, hk]
    exact hc
  | false =>
    refine .of_run (fun _ => ()) (fun _ _ => []) (fun context registers used =>
      if registers && !((context.metamodel.entity? name).isSome && context.tree.isCompared id) &&
        !used.contains id then used ++ [id] else used) fun env s => ?_
    obtain ⟨context, problems, noted, registers, exceeded⟩ := s
    rw [List.append_nil]
    show (if registers then do
        let isEntity ← ask fun context => (context.metamodel.entity? name).isSome
        if !(isEntity && (← inTree (·.isCompared id))) then Check.use id
      else Pure.pure () : Checker Unit) env ⟨context, problems, noted, registers, exceeded⟩ = _
    cases registers with
    | false => rfl
    | true =>
      rw [if_pos rfl, ask_run, inTree_run, Bool.true_and]
      cases (context.metamodel.entity? name).isSome && context.tree.isCompared id with
      | true => rfl
      | false =>
        show ((), if noted.contains id then _ else _) = _
        cases noted.contains id <;> rfl

end Extends

/-- **What is done at a node goes as far as its visitors.** -/
theorem visitKind_extends : Extends tree (visitKind visit id) (visitKind visit' id) := by
  by_cases hmet : (tree.kind id).isMet = true
  · have hall : Extends tree ((tree.kind id).demands.forM (meet visit))
        ((tree.kind id).demands.forM (meet visit')) := .forM fun item hmem => .meet hwf hv hmem
    refine hall.congr (fun env s hs => ?_) fun env s hs => ?_ <;>
      rw [visitKind_met (by rwa [hs]), hs]
  have hall := Extends.visitChildren hwf hv
  have hbelow : ∀ {kind : NodeKind} {child : NodeId}, tree.kind id = kind → child ∈ kind.children →
      ∀ inner ≤ child, Extends tree (visit inner) (visit' inner) := by
    rintro _ child rfl hc
    exact Extends.visitChild hwf hv hc
  have hvisit : ∀ {kind : NodeKind} {child : NodeId}, tree.kind id = kind → child ∈ kind.children →
      Extends tree (visit child) (visit' child) := fun hk hc => hbelow hk hc _ (Nat.le_refl _)
  have hbasics : ∀ {kind : NodeKind} {left right : NodeId}, tree.kind id = kind →
      kind.children = [left, right] →
      Extends tree (basicOperands visit left right) (basicOperands visit' left right) := by
    rintro _ left right rfl hchildren
    exact .basicOperands hwf hv (by simp [Tree.children, hchildren]) (by simp [Tree.children, hchildren])
  refine .kindOf_bind ?_
  cases hk : tree.kind id
  case query statement leftover =>
    cases statement with
    | none => exact .pure
    | some statement =>
      refine (hvisit hk List.mem_cons_self).bind fun _ => .kindOf_bind ?_
      split
      · exact .lookUp
      · exact .pure
  case selectStatement | updateStatement | deleteStatement => exact hall
  case simpleSelectStatement =>
    refine .inTree_bind ?_
    split
    · exact hall
    · exact .checkSubquery hall
  case fromClause | simpleFromClause => exact Extends.declarationOrder.bind fun _ => hall
  case rangeDeclaration root hasAs declared =>
    exact (Extends.rangeRoot hwf (hbelow hk List.mem_cons_self)).bind fun _ =>
      .visitDeclared fun child hc => hvisit hk (List.mem_cons_of_mem _ hc)
  case schemaName name =>
    refine .ask_bind fun found => ?_
    split
    · exact .recordAt
    · exact .pure
  case entityType name =>
    refine .ask_bind fun missing => ?_
    split
    · exact .recordAt
    · exact .pure
  case identifier name isVirtual path => exact .variableUse hwf hv hk
  case updateItem target value =>
    refine (Extends.updateTarget hwf (hbelow hk List.mem_cons_self)).bind fun _ =>
      .read_bind fun env => ?_
    split
    · exact hvisit hk (by simp [NodeKind.children])
    · exact .pure
  case comparison left operator right =>
    have hordering : operator.isOrdering = true := by
      simpa [hk, NodeKind.isMet, NodeKind.isUniform] using hmet
    dsimp only
    rw [if_pos hordering, if_pos hordering]
    exact hbasics hk rfl
  case arithmetic operation left right => exact hbasics hk rfl
  case index argument =>
    refine (hvisit hk List.mem_cons_self).bind fun _ => .kindOf_bind ?_
    split
    · refine .ask_bind fun collection => ?_
      split
      · exact .recordAt
      · exact .pure
    · exact .pure
  case logical connective left right =>
    refine .inTree_bind (.visitAll fun operand hmem => hv operand ?_)
    exact ((Tree.mem_chainOperands hwf (by rw [hk]; rfl)).mp hmem).lt hwf
  case path kind root segments dot =>
    have hroot := hvisit hk List.mem_cons_self
    cases kind with
    | stateField => exact (Extends.statePath hk hroot).discard
    | collectionValued => exact hroot
  all_goals exact absurd (by rw [hk]; rfl) hmet

end

/-! ## Levels -/

theorem Balanced.leaveOut {tree : Tree} {id : NodeId} : Balanced tree (leaveOut id) := by
  refine ⟨fun env s _ => ?_, fun env s _ he => ?_⟩ <;> rw [leaveOut_run]
  · cases hs : s.exceeded with
    | true => exact .refl
    | false =>
      refine ⟨rfl, rfl, List.prefix_append _ _, fun _ _ hwhole => ?_⟩
      exact hwhole _ (List.mem_append_right _ List.mem_cons_self) rfl
  · rw [he]
    exact he

/-- Where a node is left out, nothing has to be said. -/
theorem Extends.leaveOut {tree : Tree} {id : NodeId} {r : Checker Unit} (hr : Balanced tree r) :
    Extends tree (leaveOut id) r := by
  refine ⟨.leaveOut, hr, fun env s t _ _ he hend => ?_⟩
  rw [leaveOut_run, he] at hend
  exact absurd hend.symm Bool.false_ne_true

section

variable {tree : Tree} (hwf : tree.WellFormed)

include hwf

/-- **More levels go as far.** -/
theorem visitTo_extends {levels more : Nat} (hle : levels ≤ more) (id : Nat) :
    Extends tree (visitTo levels id) (visitTo more id) := by
  have hself : ∀ levels id, Extends tree (visitTo levels id) (visitTo levels id) := fun levels => by
    induction levels with
    | zero => exact fun id => .leaveOut .leaveOut
    | succ levels ih => exact fun id => visitKind_extends hwf fun inner _ => ih inner
  induction levels generalizing more id with
  | zero => exact .leaveOut (hself more id).left
  | succ levels ih =>
    obtain _ | more := more
    · exact absurd hle (Nat.not_succ_le_zero _)
    · exact visitKind_extends hwf fun inner _ => ih (Nat.le_of_succ_le_succ hle) inner

/-- **A visit is balanced**, whatever it comes to. -/
theorem visitTo_balanced (levels id : Nat) : Balanced tree (visitTo levels id) :=
  (visitTo_extends hwf (Nat.le_refl levels) id).left

end

end Check

end Jpql
