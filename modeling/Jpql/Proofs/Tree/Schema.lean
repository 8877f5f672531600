import Jpql.Tree.Basic

/-! # The node schema

Node ids are untyped: what the child of a node may be follows from the way trees are built alone.
`NodeKind.slots` writes it down, one `Slot` for each child, and `Slot.admits` says which kinds fit.

* `NodeKind.strength` orders the kinds of expressions by how tightly they bind; a slot for an
  operand asks for a least strength.
* `NodeKind.Conforms`: every child fits its slot. This holds of every tree, malformed text or not.
* `NodeKind.Complete`: nothing that is required was left out. This holds where no problem is
  reported. -/

namespace Jpql

namespace NodeKind

/-- Kinds that can stand where an expression is read. What recovery puts there counts. -/
def isExpression : NodeKind → Bool
  | .query .. | .selectStatement .. | .updateStatement .. | .deleteStatement ..
  | .selectClause .. | .simpleSelectClause .. | .fromClause _ | .simpleFromClause _
  | .whereClause _ | .havingClause _ | .groupByClause _ | .orderByClause _ | .orderByItem ..
  | .updateClause .. | .updateItem .. | .deleteClause _ | .onClause _ | .variableDeclaration ..
  | .rangeDeclaration .. | .collectionDeclaration .. | .join .. | .schemaName _
  | .resultVariable .. | .when .. => false
  | _ => true

/-- **How tightly an expression binds**: `OR`, `AND`, `NOT`, the simple conditions, sums, products,
signs, and what needs no parentheses anywhere. -/
def strength : NodeKind → Nat
  | .logical .or _ _ => 0
  | .logical .and _ _ => 1
  | .not _ => 2
  | .comparison .. | .between .. | .like .. | .inList .. | .nullCheck .. | .emptyCheck ..
  | .member .. => 3
  | .arithmetic .add _ _ | .arithmetic .subtract _ _ => 4
  | .arithmetic .multiply _ _ | .arithmetic .divide _ _ => 5
  | .sign .. => 6
  | _ => 7

/-- The node is a path that must denote a single value. -/
def isStatePath : NodeKind → Bool
  | .path .stateField .. => true
  | _ => false

/-- The node is a variable or a path. A virtual variable is one if it stands for a path. -/
def isVariableOrPath : NodeKind → Bool
  | .identifier _ isVirtual behind => !isVirtual || behind.isSome
  | .path .. => true
  | _ => false

/-- A statement that is no subquery. -/
def isOuterStatement : NodeKind → Bool
  | .selectStatement .. | .updateStatement .. | .deleteStatement .. => true
  | _ => false

theorem isStatement_of_isOuterStatement {kind : NodeKind} (h : kind.isOuterStatement = true) :
    kind.isStatement = true := by
  cases kind <;> first | rfl | exact h

end NodeKind

/-- What a child of a node stands for. -/
inductive Slot where
  | start | leftover
  | selectClause | simpleSelectClause | fromClause | simpleFromClause | whereClause
  | groupByClause | havingClause | orderByClause | updateClause | deleteClause | onClause
  | selectItem | entry | range | rangeRoot | join | updateItem | target | orderByItem | when
  /-- A variable where it is declared. -/
  | declared
  /-- The name of a result, which may be missing. -/
  | resultName
  | pathRoot | virtualPath | subquery | entityType
  /-- An expression of at least this strength. -/
  | expression (strength : Nat)
  /-- The same, but a path here must denote a collection. -/
  | collection (strength : Nat)
deriving DecidableEq

namespace Slot

/-- **The kinds that fit a slot.** -/
def admits : Slot → NodeKind → Bool
  | .start, kind => kind.isStatement || kind.isExpression
  | .leftover, .unknown _ => true
  | .selectClause, .selectClause .. => true
  | .simpleSelectClause, .simpleSelectClause .. => true
  | .fromClause, .fromClause _ => true
  | .simpleFromClause, .simpleFromClause _ => true
  | .whereClause, .whereClause _ => true
  | .groupByClause, .groupByClause _ => true
  | .havingClause, .havingClause _ => true
  | .orderByClause, .orderByClause _ => true
  | .updateClause, .updateClause .. => true
  | .deleteClause, .deleteClause _ => true
  | .onClause, .onClause _ => true
  | .selectItem, .resultVariable .. => true
  | .selectItem, kind => kind.isExpression && 4 ≤ kind.strength
  | .entry, .variableDeclaration .. | .entry, .collectionDeclaration .. => true
  | .range, .rangeDeclaration .. => true
  | .rangeRoot, .schemaName _ | .rangeRoot, .path .collectionValued .. | .rangeRoot, .bad => true
  | .join, .join .. => true
  | .updateItem, .updateItem .. => true
  | .target, .path .stateField .. | .target, .bad => true
  | .orderByItem, .orderByItem .. => true
  | .when, .when .. => true
  | .declared, .identifier _ _ none => true
  | .resultName, .identifier _ false none | .resultName, .bad => true
  | .pathRoot, .identifier _ _ none | .pathRoot, .key _ | .pathRoot, .value _
  | .pathRoot, .treat .. => true
  | .virtualPath, .path .stateField .. => true
  | .subquery, .simpleSelectStatement .. | .subquery, .bad => true
  | .entityType, .entityType _ | .entityType, .bad => true
  | .expression strength, kind => kind.isExpression && strength ≤ kind.strength
  | .collection strength, kind =>
    kind.isExpression && strength ≤ kind.strength && !kind.isStatePath
  | _, _ => false

theorem admits_expression (strength : Nat) (kind : NodeKind) :
    (expression strength).admits kind = (kind.isExpression && strength ≤ kind.strength) := rfl

theorem admits_collection (strength : Nat) (kind : NodeKind) :
    (collection strength).admits kind =
      (kind.isExpression && strength ≤ kind.strength && !kind.isStatePath) := rfl

/-- What binds more tightly than required fits, too. -/
theorem admits_of_le {weak strong : Nat} {kind : NodeKind} (hle : weak ≤ strong)
    (h : (expression strong).admits kind = true) : (expression weak).admits kind = true := by
  rw [admits_expression, Bool.and_eq_true, decide_eq_true_eq] at h ⊢
  exact ⟨h.1, Nat.le_trans hle h.2⟩

end Slot

namespace NodeKind

/-- **The children of a node with what each stands for.** -/
def slots : NodeKind → List (Nat × Slot)
  | .query a b => a.toList.map (·, .start) ++ b.toList.map (·, .leftover)
  | .selectStatement a b c d e f =>
    (a, .selectClause) :: (b.toList.map (·, .fromClause) ++ c.toList.map (·, .whereClause) ++
      d.toList.map (·, .groupByClause) ++ e.toList.map (·, .havingClause) ++
      f.toList.map (·, .orderByClause))
  | .simpleSelectStatement a b c d e =>
    (a, .simpleSelectClause) :: (b.toList.map (·, .simpleFromClause) ++
      c.toList.map (·, .whereClause) ++ d.toList.map (·, .groupByClause) ++
      e.toList.map (·, .havingClause))
  | .updateStatement a b => (a, .updateClause) :: b.toList.map (·, .whereClause)
  | .deleteStatement a b => (a, .deleteClause) :: b.toList.map (·, .whereClause)
  | .selectClause _ as => as.map (·, .selectItem)
  | .simpleSelectClause _ as | .groupByClause as => as.map (·, .expression 4)
  | .orderByClause as => as.map (·, .orderByItem)
  | .fromClause as | .simpleFromClause as => as.map (·, .entry)
  | .whereClause a | .havingClause a | .onClause a | .group a => [(a, .expression 0)]
  | .orderByItem a _ _ => [(a, .expression 4)]
  | .deleteClause a => [(a, .range)]
  | .updateClause a bs => (a, .range) :: bs.map (·, .updateItem)
  | .variableDeclaration a bs => (a, .range) :: bs.map (·, .join)
  | .updateItem a b => [(a, .target), (b, .expression 4)]
  | .resultVariable a _ b => [(a, .expression 4), (b, .resultName)]
  | .rangeDeclaration a _ b => (a, .rangeRoot) :: b.toList.map (·, .declared)
  | .collectionDeclaration a _ b => (a, .collection 7) :: b.toList.map (·, .declared)
  | .join _ _ a _ b c =>
    (a, .collection 7) :: (b.toList.map (·, .declared) ++ c.toList.map (·, .onClause))
  | .identifier _ _ a => a.toList.map (·, .virtualPath)
  | .constructor _ as | .concat as | .coalesce as | .call _ as => as.map (·, .expression 4)
  | .object a | .index a | .key a | .value a | .entry a | .type a => [(a, .expression 7)]
  | .not a => [(a, .expression 2)]
  | .nullCheck a _ | .basicFunction _ a | .aggregate _ _ a => [(a, .expression 4)]
  | .emptyCheck a _ | .size a => [(a, .collection 4)]
  | .sign _ a => [(a, .expression 6)]
  | .existence _ a | .quantified _ a => [(a, .subquery)]
  | .path _ a _ _ => [(a, .pathRoot)]
  | .logical .or a b => [(a, .expression 0), (b, .expression 1)]
  | .logical .and a b => [(a, .expression 1), (b, .expression 2)]
  | .comparison a _ b | .mod a b | .nullif a b => [(a, .expression 4), (b, .expression 4)]
  | .arithmetic .add a b | .arithmetic .subtract a b => [(a, .expression 4), (b, .expression 5)]
  | .arithmetic .multiply a b | .arithmetic .divide a b =>
    [(a, .expression 5), (b, .expression 6)]
  | .when a b => [(a, .expression 0), (b, .expression 4)]
  | .member a _ _ b => [(a, .expression 4), (b, .collection 4)]
  | .treat a _ b => [(a, .collection 7), (b, .entityType)]
  | .between a _ b c => [(a, .expression 4), (b, .expression 4), (c, .expression 4)]
  | .like a _ b c | .locate a b c | .substring a b c =>
    (a, .expression 4) :: (b, .expression 4) :: c.toList.map (·, .expression 4)
  | .inList a _ bs => (a, .expression 4) :: bs.map (·, .expression 4)
  | .trim _ a _ b => a.toList.map (·, .expression 7) ++ [(b, .expression 4)]
  | .caseOf a bs c =>
    a.toList.map (·, .expression 4) ++ bs.map (·, .when) ++ [(c, .expression 4)]
  | .schemaName _ | .entityType _ | .number _ | .string _ | .wordLiteral _ | .moment _
  | .parameter _ _ | .unknown _ | .bad => []

theorem map_fst_slots (kind : NodeKind) : kind.slots.map (·.1) = kind.children := by
  unfold slots children
  split <;> simp [Function.comp_def]

theorem mem_children_of_mem_slots {kind : NodeKind} {child : Nat} {slot : Slot}
    (h : (child, slot) ∈ kind.slots) : child ∈ kind.children := by
  rw [← map_fst_slots]
  exact List.mem_map_of_mem (f := (·.1)) h

theorem exists_slot {kind : NodeKind} {child : Nat} (h : child ∈ kind.children) :
    ∃ slot, (child, slot) ∈ kind.slots := by
  rw [← map_fst_slots] at h
  obtain ⟨⟨_, slot⟩, hs, rfl⟩ := List.mem_map.mp h
  exact ⟨slot, hs⟩

/-- The nodes of a list fit their slots. -/
def AllFit (kindOf : Nat → NodeKind) : List (Nat × Slot) → Prop
  | [] => True
  | (child, slot) :: rest => slot.admits (kindOf child) = true ∧ AllFit kindOf rest

/-- **Every child fits its slot.** -/
def Conforms (kindOf : Nat → NodeKind) (kind : NodeKind) : Prop := AllFit kindOf kind.slots

theorem allFit_iff {kindOf : Nat → NodeKind} {entries : List (Nat × Slot)} :
    AllFit kindOf entries ↔ ∀ entry ∈ entries, entry.2.admits (kindOf entry.1) = true := by
  induction entries with
  | nil => simp [AllFit]
  | cons entry rest ih => simp [AllFit, ih]

theorem allFit_append {kindOf : Nat → NodeKind} {as bs : List (Nat × Slot)} :
    AllFit kindOf (as ++ bs) ↔ AllFit kindOf as ∧ AllFit kindOf bs := by
  simp only [allFit_iff, List.forall_mem_append]

theorem Conforms.admits {kindOf : Nat → NodeKind} {kind : NodeKind} (h : kind.Conforms kindOf)
    {child : Nat} {slot : Slot} (hs : (child, slot) ∈ kind.slots) :
    slot.admits (kindOf child) = true :=
  allFit_iff.mp h _ hs

/-- The argument of a construct that is written with a variable or a path, or the path that a
virtual variable stands for. -/
def argument? : NodeKind → Option Nat
  | .object a | .index a | .key a | .value a | .entry a | .treat a _ _
  | .collectionDeclaration a _ _ => some a
  | .identifier _ _ a => a
  | _ => none

/-- No part of the node is left out that its construct requires. -/
def isWhole : NodeKind → Bool
  | .query statement leftover => statement.isSome && leftover.isNone
  | .selectStatement _ source _ _ _ _ | .simpleSelectStatement _ source _ _ _ => source.isSome
  | .rangeDeclaration _ _ declared | .collectionDeclaration _ _ declared => declared.isSome
  | .join _ fetch _ hasAs declared _ => declared.isSome || (fetch && !hasAs)
  | .identifier _ isVirtual behind => isVirtual || behind.isNone
  | .caseOf _ whens _ => !whens.isEmpty
  | .updateClause _ items | .selectClause _ items | .simpleSelectClause _ items
  | .fromClause items | .simpleFromClause items | .groupByClause items | .orderByClause items
  | .inList _ _ items | .concat items | .coalesce items | .constructor _ items => !items.isEmpty
  | .unknown _ | .bad => false
  | _ => true

/-- What the argument of a node must be: a variable or a path. A virtual variable stands for a path
below the entity of the statement, which is virtual, too. -/
def Takes (kindOf : Nat → NodeKind) (kind : NodeKind) (argument : Nat) : Prop :=
  match kind with
  | .identifier .. => ∃ root segments dot name,
      kindOf argument = .path .stateField root segments dot ∧
        kindOf root = .identifier name true none
  | _ => (kindOf argument).isVariableOrPath = true

/-- **The node is whole, and its argument is what it must be.** -/
def Complete (kindOf : Nat → NodeKind) (kind : NodeKind) : Prop :=
  kind.isWhole = true ∧ ∀ argument, kind.argument? = some argument → kind.Takes kindOf argument

/-- Most kinds have no part that could be left out or be the wrong thing. -/
theorem Complete.of_plain {kindOf : Nat → NodeKind} {kind : NodeKind}
    (hwhole : kind.isWhole = true) (harg : kind.argument? = none) : kind.Complete kindOf :=
  ⟨hwhole, fun _ h => by rw [harg] at h; cases h⟩

theorem argument?_mem_children {kind : NodeKind} {argument : Nat}
    (h : kind.argument? = some argument) : argument ∈ kind.children := by
  cases kind <;> simp_all [argument?, children]

/-! ### Paths read as collections -/

@[simp] theorem slots_asCollection (kind : NodeKind) : kind.asCollection.slots = kind.slots := by
  cases kind <;> rfl

@[simp] theorem isWhole_asCollection (kind : NodeKind) :
    kind.asCollection.isWhole = kind.isWhole := by
  cases kind <;> rfl

@[simp] theorem argument?_asCollection (kind : NodeKind) :
    kind.asCollection.argument? = kind.argument? := by
  cases kind <;> rfl

@[simp] theorem takes_asCollection (kindOf : Nat → NodeKind) (kind : NodeKind) (argument : Nat) :
    kind.asCollection.Takes kindOf argument ↔ kind.Takes kindOf argument := by
  cases kind <;> rfl

@[simp] theorem isExpression_asCollection (kind : NodeKind) :
    kind.asCollection.isExpression = kind.isExpression := by
  cases kind <;> rfl

@[simp] theorem strength_asCollection (kind : NodeKind) :
    kind.asCollection.strength = kind.strength := by
  cases kind <;> rfl

@[simp] theorem isStatePath_asCollection (kind : NodeKind) :
    kind.asCollection.isStatePath = false := by
  cases kind <;> rfl

@[simp] theorem isVariableOrPath_asCollection (kind : NodeKind) :
    kind.asCollection.isVariableOrPath = kind.isVariableOrPath := by
  cases kind <;> rfl

/-- An expression fits where a collection is expected once it is read as one. -/
theorem admits_asCollection {kind : NodeKind} {strength : Nat}
    (h : (Slot.expression strength).admits kind = true) :
    (Slot.collection strength).admits kind.asCollection = true := by
  rw [Slot.admits_expression] at h
  rw [Slot.admits_collection]
  simpa using h

/-! ### Other drafts of the same nodes -/

/-- Only the kinds of the children matter. -/
theorem Conforms.congr {kindOf other : Nat → NodeKind} {kind : NodeKind}
    (h : kind.Conforms kindOf) (heq : ∀ child ∈ kind.children, other child = kindOf child) :
    kind.Conforms other := by
  refine allFit_iff.mpr fun entry hs => ?_
  rw [heq entry.1 (mem_children_of_mem_slots hs)]
  exact h.admits hs

/-- For the path of a virtual variable, so does the kind of its root. -/
theorem Complete.congr {kindOf other : Nat → NodeKind} {kind : NodeKind}
    (h : kind.Complete kindOf) (heq : ∀ child ∈ kind.children, other child = kindOf child)
    (hdeep : ∀ child ∈ kind.children, ∀ node ∈ (kindOf child).children,
      other node = kindOf node) : kind.Complete other := by
  refine ⟨h.1, fun argument ha => ?_⟩
  have hmem := argument?_mem_children ha
  have htakes := h.2 argument ha
  unfold Takes at htakes ⊢
  split
  · obtain ⟨root, segments, dot, name, hpath, hroot⟩ := htakes
    refine ⟨root, segments, dot, name, (heq argument hmem).trans hpath, ?_⟩
    rw [hdeep argument hmem root (by rw [hpath]; exact List.mem_singleton_self _)]
    exact hroot
  · rw [heq argument hmem]
    split at htakes
    · simp_all
    · exact htakes

end NodeKind

end Jpql
