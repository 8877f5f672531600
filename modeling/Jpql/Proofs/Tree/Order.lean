import Jpql.Proofs.Tree.WellFormed

/-! # What lies below a node, and what surrounds it

* `Tree.Holds`: a node lies at or below another. Children hold different nodes
  (`Tree.Holds.unique`), and together all that their parent holds (`Tree.Holds.cases`). Nodes lie
  apart (`Tree.Apart`) if they hold nothing in common.
* `Tree.scopes`: the statements and subqueries around a node, nearest first, and
  `Tree.scopeNode?`, the nearest. -/

namespace Jpql

namespace Tree

variable {tree : Tree}

/-! ## Parents -/

/-- What a parent is. -/
theorem WellFormed.of_parent (h : tree.WellFormed) {id parent : Nat}
    (hp : tree.parent? id = some parent) :
    id < parent ∧ parent < tree.size ∧ id ∈ tree.children parent := by
  have hlt : id < tree.size := by
    by_contra hge
    have hnone : tree.nodes[id]? = none := Array.getElem?_eq_none (Nat.le_of_not_lt hge)
    simp [Tree.parent?, Tree.node, hnone] at hp
  have hne : id ≠ tree.root := fun he => by
    rw [he, h.root_parent] at hp
    cases hp
  obtain ⟨other, ho, hid, hsize, hcount, -⟩ := h.parent id hlt hne
  rw [hp, Option.some_inj] at ho
  subst ho
  exact ⟨hid, hsize, List.count_pos_iff.mp (by omega)⟩

theorem WellFormed.child_lt (h : tree.WellFormed) {id child : Nat}
    (hc : child ∈ tree.children id) : child < id :=
  (h.of_parent (h.child id child hc)).1

/-- No node lists a child twice. -/
theorem WellFormed.children_nodup (h : tree.WellFormed) (id : Nat) : (tree.children id).Nodup := by
  refine List.nodup_iff_count.mpr fun child => ?_
  by_cases hc : child ∈ tree.children id
  · have hp := h.child id child hc
    have hlt := h.of_parent hp
    have hne : child ≠ tree.root := fun he => by
      rw [he, h.root_parent] at hp
      cases hp
    obtain ⟨other, ho, -, -, hcount, -⟩ := h.parent child (by omega) hne
    rw [hp, Option.some_inj] at ho
    subst ho
    omega
  · rw [List.count_eq_zero_of_not_mem hc]
    omega

/-- A chain of parents that is long enough is not cut off. -/
theorem WellFormed.chain_eq (h : tree.WellFormed) (long short : Nat) (id : Option Nat)
    (hid : ∀ i ∈ id, i < tree.size ∧ tree.size ≤ i + short) (hle : short ≤ long) :
    tree.chain long id = tree.chain short id := by
  induction short generalizing long id with
  | zero =>
    cases id with
    | none => cases long <;> rfl
    | some id =>
      have := hid id rfl
      omega
  | succ short ih =>
    cases id with
    | none => cases long <;> rfl
    | some id =>
      obtain ⟨long, rfl⟩ : ∃ l, long = l + 1 := ⟨long - 1, by omega⟩
      rw [chain, chain, ih long _ (fun parent hp => ?_) (by omega)]
      have hlt := h.of_parent hp
      have := hid id rfl
      exact ⟨hlt.2.1, by omega⟩

/-- **The ancestors of a node** are its parent and the ancestors of that. -/
theorem WellFormed.ancestors_eq (h : tree.WellFormed) {id parent : Nat}
    (hp : tree.parent? id = some parent) :
    tree.ancestors id = parent :: tree.ancestors parent := by
  have hlt := h.of_parent hp
  obtain ⟨bound, hbound⟩ : ∃ bound, tree.size = bound + 1 := ⟨tree.size - 1, by omega⟩
  rw [ancestors, ancestors, hp, hbound, chain]
  refine congrArg (parent :: ·) (h.chain_eq (bound + 1) bound _ (fun above ha => ?_) (by omega)).symm
  have hpa := h.of_parent ha
  exact ⟨hpa.2.1, by omega⟩

/-! ## What a node holds -/

/-- **The node `inner` lies at or below `id`.** -/
inductive Holds (tree : Tree) (id : Nat) : Nat → Prop
  | refl : Holds tree id id
  | up {inner parent : Nat} (hp : tree.parent? inner = some parent) (h : Holds tree id parent) :
      Holds tree id inner

namespace Holds

variable {id inner child : Nat}

theorem le (hwf : tree.WellFormed) (h : tree.Holds id inner) : inner ≤ id := by
  induction h with
  | refl => exact Nat.le_refl _
  | up hp _ ih => exact Nat.le_trans (Nat.le_of_lt (hwf.of_parent hp).1) ih

theorem trans (h : tree.Holds id child) (k : tree.Holds child inner) : tree.Holds id inner := by
  induction k with
  | refl => exact h
  | up hp _ ih => exact .up hp ih

/-- A node holds what its children hold. -/
theorem of_child (hwf : tree.WellFormed) (hc : child ∈ tree.children id)
    (h : tree.Holds child inner) : tree.Holds id inner := by
  induction h with
  | refl => exact .up (hwf.child id child hc) .refl
  | up hp _ ih => exact .up hp ih

/-- **A node holds itself and what its children hold**, nothing else. -/
theorem cases (hwf : tree.WellFormed) (h : tree.Holds id inner) :
    inner = id ∨ ∃ child ∈ tree.children id, tree.Holds child inner := by
  induction h with
  | refl => exact .inl rfl
  | @up inner parent hp h ih =>
    rcases ih with rfl | ⟨child, hc, hchild⟩
    · exact .inr ⟨inner, (hwf.of_parent hp).2.2, .refl⟩
    · exact .inr ⟨child, hc, .up hp hchild⟩

/-- **What a node holds, only one child holds.** -/
theorem unique (hwf : tree.WellFormed) {other : Nat} (hc : child ∈ tree.children id)
    (ho : other ∈ tree.children id) (h : tree.Holds child inner) (k : tree.Holds other inner) :
    child = other := by
  have hpc := hwf.child id child hc
  have hpo := hwf.child id other ho
  have hroot : ∀ a b, tree.parent? a = some id → tree.parent? b = some id →
      tree.Holds b a → a = b := by
    intro a b ha hb hab
    cases hab with
    | refl => rfl
    | up hp hi =>
      rw [ha, Option.some_inj] at hp
      subst hp
      have := hi.le hwf
      have := (hwf.of_parent hb).1
      omega
  induction h with
  | refl => exact hroot child other hpc hpo k
  | up hp h ih =>
    cases k with
    | refl => exact (hroot other child hpo hpc (.up hp h)).symm
    | up hk k =>
      rw [hp, Option.some_inj] at hk
      subst hk
      exact ih k

/-- The root holds every node. -/
theorem of_root (hwf : tree.WellFormed) {inner : Nat} (h : inner < tree.size) :
    tree.Holds tree.root inner := by
  by_cases he : inner = tree.root
  · exact he ▸ .refl
  · obtain ⟨parent, hp, hlt, hsize, -⟩ := hwf.parent inner h he
    exact .up hp (of_root hwf hsize)
termination_by tree.size - inner

end Holds

/-! ## Nodes that lie apart -/

/-- A node lies at or below one of some nodes. -/
def Below (tree : Tree) (ids : List Nat) (inner : Nat) : Prop := ∃ id ∈ ids, tree.Holds id inner

/-- No node is held by both. -/
def Apart (tree : Tree) (a b : Nat) : Prop := ∀ inner, tree.Holds a inner → ¬tree.Holds b inner

theorem Apart.symm {a b : Nat} (h : tree.Apart a b) : tree.Apart b a :=
  fun inner hb ha => h inner ha hb

@[simp] theorem below_nil {inner : Nat} : tree.Below [] inner ↔ False := by simp [Below]

@[simp] theorem below_cons {id : Nat} {ids : List Nat} {inner : Nat} :
    tree.Below (id :: ids) inner ↔ tree.Holds id inner ∨ tree.Below ids inner := by simp [Below]

@[simp] theorem below_append {ids others : List Nat} {inner : Nat} :
    tree.Below (ids ++ others) inner ↔ tree.Below ids inner ∨ tree.Below others inner := by
  simp [Below, or_and_right, exists_or]

/-- **The children of a node lie apart.** -/
theorem apart_children (hwf : tree.WellFormed) (id : Nat) :
    (tree.children id).Pairwise tree.Apart := by
  refine (hwf.children_nodup id).imp_of_mem fun {a b} ha hb hne inner hha hhb => ?_
  exact hne (Holds.unique hwf ha hb hha hhb)

theorem apart_of_children (hwf : tree.WellFormed) {id left right : Nat}
    (h : tree.children id = [left, right]) : tree.Apart left right := by
  have hpairwise := apart_children hwf id
  rw [h] at hpairwise
  simpa using hpairwise

theorem holds_iff (hwf : tree.WellFormed) {id inner : Nat} :
    tree.Holds id inner ↔ inner = id ∨ tree.Below (tree.children id) inner := by
  refine ⟨fun h => h.cases hwf, ?_⟩
  rintro (rfl | ⟨child, hc, h⟩)
  · exact .refl
  · exact h.of_child hwf hc

/-! ## What surrounds a node -/

/-- **The statements and subqueries around a node**, nearest first. -/
def scopes (tree : Tree) (id : Nat) : List Nat :=
  (tree.ancestors id).filter fun outer => (tree.kind outer).isStatement

/-- The statement or subquery that most closely encloses a node. -/
def scopeNode? (tree : Tree) (id : Nat) : Option Nat := (tree.scopes id).head?

theorem scopes_of_parent (hwf : tree.WellFormed) {id parent : Nat}
    (hp : tree.parent? id = some parent) :
    tree.scopes id =
      if (tree.kind parent).isStatement then parent :: tree.scopes parent
      else tree.scopes parent := by
  rw [scopes, hwf.ancestors_eq hp, List.filter_cons]
  rfl

/-- A node in no statement itself has the scope of its parent. -/
theorem scopes_of_child (hwf : tree.WellFormed) {id child : Nat}
    (hc : child ∈ tree.children id) (hkind : (tree.kind id).isStatement = false) :
    tree.scopes child = tree.scopes id := by
  rw [scopes_of_parent hwf (hwf.child id child hc), hkind]
  rfl

theorem scopes_of_statement (hwf : tree.WellFormed) {id child : Nat}
    (hc : child ∈ tree.children id) (hkind : (tree.kind id).isStatement = true) :
    tree.scopes child = id :: tree.scopes id := by
  rw [scopes_of_parent hwf (hwf.child id child hc), hkind]
  rfl

/-- **The scope of a node** is its parent, or the scope of its parent. -/
theorem scopeNode?_cases (hwf : tree.WellFormed) {id statement : Nat}
    (h : tree.scopeNode? id = some statement) : ∃ parent, tree.parent? id = some parent ∧
      ((tree.kind parent).isStatement = true ∧ parent = statement ∨
        (tree.kind parent).isStatement = false ∧ tree.scopeNode? parent = some statement) := by
  rcases hp : tree.parent? id with _ | parent
  · have hnone : tree.scopes id = [] := by
      rw [scopes, ancestors, hp]
      cases tree.size <;> rfl
    rw [scopeNode?, hnone] at h
    cases h
  · refine ⟨parent, rfl, ?_⟩
    rw [scopeNode?, scopes_of_parent hwf hp] at h
    split at h
    · next hkind => exact .inl ⟨hkind, by simpa using h⟩
    · next hkind => exact .inr ⟨by simpa using hkind, h⟩

/-- The scope of a node lies above it. -/
theorem lt_of_scopeNode? (hwf : tree.WellFormed) {id statement : Nat}
    (h : tree.scopeNode? id = some statement) : id < statement := by
  obtain ⟨parent, hp, ⟨-, rfl⟩ | ⟨-, hparent⟩⟩ := scopeNode?_cases hwf h
  · exact (hwf.of_parent hp).1
  · have hlt := hwf.of_parent hp
    exact Nat.lt_trans hlt.1 (lt_of_scopeNode? hwf hparent)
termination_by tree.size - id

/-- **The scope of a node holds it**, and is a statement. -/
theorem holds_of_scopeNode? (hwf : tree.WellFormed) {id statement : Nat}
    (h : tree.scopeNode? id = some statement) :
    (tree.kind statement).isStatement = true ∧ tree.Holds statement id := by
  obtain ⟨parent, hp, ⟨hkind, rfl⟩ | ⟨-, hparent⟩⟩ := scopeNode?_cases hwf h
  · exact ⟨hkind, .up hp .refl⟩
  · have hlt := hwf.of_parent hp
    obtain ⟨hkind, hholds⟩ := holds_of_scopeNode? hwf hparent
    exact ⟨hkind, .up hp hholds⟩
termination_by tree.size - id

/-- Around a node there is its scope, and what is around that. -/
theorem scopes_of_scopeNode? (hwf : tree.WellFormed) {id statement : Nat}
    (h : tree.scopeNode? id = some statement) :
    tree.scopes id = statement :: tree.scopes statement := by
  obtain ⟨parent, hp, ⟨hkind, rfl⟩ | ⟨hkind, hparent⟩⟩ := scopeNode?_cases hwf h
  · rw [scopes_of_parent hwf hp, hkind]
    rfl
  · have hlt := hwf.of_parent hp
    rw [scopes_of_parent hwf hp, hkind]
    exact scopes_of_scopeNode? hwf hparent
termination_by tree.size - id

/-- What a statement holds besides itself has a scope at or below the statement. -/
theorem scopeNode?_of_holds (hwf : tree.WellFormed) {statement inner : Nat}
    (hkind : (tree.kind statement).isStatement = true) (h : tree.Holds statement inner)
    (hne : inner ≠ statement) :
    ∃ scope, tree.scopeNode? inner = some scope ∧ scope ≤ statement := by
  induction h with
  | refl => exact absurd rfl hne
  | @up inner parent hp h ih =>
    rw [scopeNode?, scopes_of_parent hwf hp]
    split
    · exact ⟨parent, rfl, h.le hwf⟩
    · next hno =>
      refine ih fun he => hno ?_
      rw [he]
      exact hkind

end Tree

end Jpql
