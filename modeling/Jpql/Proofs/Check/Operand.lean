import Jpql.Proofs.Check.Path

/-! # Checking operands

An operand is visited, or checked as a path if it is one, or both. No statement lies in a path, so
that nothing is reported twice. -/

namespace Jpql.Check.Subject

variable {q : Subject} {id path left right : Nat} {visit : Visitor}

/-! ## Paths behind operands -/

theorem pathBehind_cases (hb : q.tree.pathBehind? id = some path) :
    (path = id ∧ (q.tree.kind id).isPath = true) ∨
      ∃ name, q.tree.kind id = .identifier name true (some path) := by
  unfold Tree.pathBehind? at hb
  split at hb
  · next hk =>
    cases hb
    exact .inl ⟨rfl, by rw [hk]; rfl⟩
  · next name _ hk =>
    cases hb
    exact .inr ⟨name, hk⟩
  · cases hb

section

variable {name : String} (hk : q.tree.kind id = .identifier name true (some path))

include hk

theorem behind_mem : path ∈ q.tree.children id := by
  rw [Tree.children, hk]
  exact List.mem_cons_self

theorem virtual_not_statement : (q.tree.kind id).isStatement = false := by
  rw [hk]
  rfl

theorem behind_not_target : ¬q.tree.IsTarget path := by
  rintro ⟨item, value, hitem⟩
  obtain rfl := parent_unique (behind_mem hk)
    (show path ∈ q.tree.children item by rw [Tree.children, hitem]; exact List.mem_cons_self)
  rw [hk] at hitem
  cases hitem

theorem holds_behind {inner : Nat} (huse : q.Uses inner) :
    q.tree.Holds path inner ↔ q.tree.Holds id inner :=
  holds_single (not_uses fun name behind => by rw [hk]; simp) (by rw [Tree.children, hk]; rfl) huse

theorem behind_placed (hid : q.IsPlain id) : ∃ scope, q.tree.scopeNode? path = some scope :=
  placed_of_child (behind_mem hk) (virtual_not_statement hk) hid.placed

end

/-! ## Operands that must be basic -/

/-- **An operand with a state-field path is checked as that path.** -/
theorem statePathBehind_affects (hv : q.Visits visit) (hid : q.IsPlain id)
    (hb : q.tree.statePathBehind? id = some path) (associationAllowed : Bool) :
    q.Affects id (q.tree.Holds id) (statePath visit path associationAllowed) fun _ => True := by
  obtain ⟨hbehind, hstate⟩ := Option.filter_eq_some_iff.mp hb
  obtain ⟨root, segments, dot, hpath⟩ :
      ∃ root segments dot, q.tree.kind path = .path .stateField root segments dot := by
    unfold Tree.isStatePath at hstate
    split at hstate
    · next root segments dot hk => exact ⟨root, segments, dot, hk⟩
    · exact absurd hstate Bool.false_ne_true
  rcases pathBehind_cases hbehind with ⟨rfl, -⟩ | ⟨name, hk⟩
  · exact statePath_affects hv hpath hid.placed hid.target associationAllowed
  · have haffects := statePath_affects hv hpath (behind_placed hk hid) (behind_not_target hk)
      associationAllowed
    exact (haffects.of_child (behind_mem hk) (virtual_not_statement hk)).congr
      fun inner huse => holds_behind hk huse

/-- An operand with a state-field path is a path, or stands for one. -/
theorem isPathPart_of_statePathBehind (hb : (q.tree.statePathBehind? id).isSome = true) :
    (q.tree.kind id).isPathPart = true := by
  obtain ⟨path, hpath⟩ := Option.isSome_iff_exists.mp hb
  rcases pathBehind_cases (Option.filter_eq_some_iff.mp hpath).1 with ⟨-, hk⟩ | ⟨name, hk⟩
  · cases h : q.tree.kind id <;> rw [h] at hk <;> first | rfl | exact absurd hk Bool.false_ne_true
  · rw [hk]
    rfl

theorem basicOperand_affects (hv : q.Visits visit) (hid : q.IsPlain id) :
    q.Affects id (q.tree.Holds id) (basicOperand visit id) fun _ => True := by
  refine Affects.inTree_bind ?_
  split
  · next path hpath => exact (statePathBehind_affects hv hid hpath false).discard
  · exact hv.affects id hid

/-- The first look at an operand accounts for it if it is checked as a path. -/
theorem basicPath_affects (hv : q.Visits visit) (hid : q.IsPlain id) :
    q.Affects id (fun inner => (q.tree.statePathBehind? id).isSome = true ∧ q.tree.Holds id inner)
      (basicPath visit id) fun valid => valid = true ∨ (q.tree.statePathBehind? id).isSome = true := by
  refine Affects.inTree_bind ?_
  split
  · next path hpath =>
    refine ((statePathBehind_affects hv hid hpath false).weaken fun _ _ => ?_).congr fun inner _ => ?_
    · right
      rw [hpath]
      rfl
    · rw [hpath]
      simp
  · next hnone =>
    refine (Affects.pure (.inl rfl)).congr fun inner _ => ?_
    rw [hnone]
    simp

/-- A visit under a condition. -/
theorem visit_if {node : Nat} (hvisit : q.Affects node (q.tree.Holds id) (visit id) fun _ => True)
    (condition : Bool) :
    q.Affects node (fun inner => condition = true ∧ q.tree.Holds id inner)
      (if condition then visit id else pure ()) fun _ => True := by
  cases condition with
  | true => exact hvisit.congr fun _ _ => by simp
  | false => exact (Affects.pure trivial).congr fun _ _ => by simp

theorem visit_if_bind {node : Nat} {N : Nat → Prop} {f : PUnit → Checker Unit}
    (hvisit : q.Affects node (q.tree.Holds id) (visit id) fun _ => True)
    (hf : q.Affects node N (f ()) fun _ => True) (hoverlap : ∀ inner, q.tree.Holds id inner → ¬N inner)
    (condition : Bool) :
    q.Affects node (fun inner => (condition = true ∧ q.tree.Holds id inner) ∨ N inner)
      (if condition then visit id >>= f else f ()) fun _ => True := by
  cases condition with
  | true =>
    exact hvisit.bind (fun _ _ => hf) (fun _ _ inner _ => by simp) fun _ _ inner _ hinner hn =>
      absurd hn (hoverlap inner hinner)
  | false => exact hf.congr fun _ _ => by simp

section

variable (hv : q.Visits visit) (hkind : (q.tree.kind id).isStatement = false)
  (hleft : left ∈ q.tree.children id) (hright : right ∈ q.tree.children id)
  (hplainLeft : q.IsPlain left) (hplainRight : q.IsPlain right)

include hv hkind hleft hright hplainLeft hplainRight

/-- **Two operands are looked at, and then visited where they are in order.** -/
theorem basicOperands_handles : q.Handles id [left, right] (basicOperands visit left right) := by
  intro hpairwise
  have hapart : q.tree.Apart left right := by simpa using hpairwise
  -- what is accounted for twice lies in a path
  have hscope : ∀ child ∈ q.tree.children id, (q.tree.statePathBehind? child).isSome = true →
      ∀ inner, q.tree.Holds child inner → q.tree.scopeNode? inner = q.tree.scopeNode? id := by
    intro child hc hsome inner hinner
    rw [q.isQuery.scopeNode?_of_part (isPathPart_of_statePathBehind hsome) hinner,
      scopeNode?_of_child hc hkind]
  have hvisitLeft := (hv.affects left hplainLeft).of_child hleft hkind
  have hvisitRight := (hv.affects right hplainRight).of_child hright hkind
  refine ((basicPath_affects hv hplainLeft).of_child hleft hkind).bind
    (K := fun valid inner => (valid = true ∧ q.tree.Holds left inner) ∨ q.tree.Holds right inner)
    (fun leftValid _ => ?_) ?_ ?_
  · refine ((basicPath_affects hv hplainRight).of_child hright hkind).bind
      (K := fun valid inner => (leftValid = true ∧ q.tree.Holds left inner) ∨
        (valid = true ∧ q.tree.Holds right inner))
      (fun rightValid _ => ?_) ?_ ?_
    · exact visit_if_bind hvisitLeft (visit_if hvisitRight rightValid)
        (fun inner hl hr => hapart inner hl hr.2) leftValid
    · rintro rightValid hvalid inner -
      have hcases : rightValid = true ∨ (q.tree.statePathBehind? right).isSome = true := hvalid
      tauto
    · rintro rightValid - inner - ⟨hsome, hinner⟩ -
      exact hscope right hright hsome inner hinner
  · rintro leftValid hvalid inner -
    rw [Tree.below_cons, Tree.below_cons, Tree.below_nil]
    have hcases : leftValid = true ∨ (q.tree.statePathBehind? left).isSome = true := hvalid
    tauto
  · rintro leftValid - inner - ⟨hsome, hinner⟩ -
    exact hscope left hleft hsome inner hinner

end

/-! ## Paths that must denote a collection -/

/-- Behind an operand that is no state-field path there is a root to visit as it is. -/
theorem pathBehind_root (hv : q.Visits visit) (hid : q.IsPlain id)
    (hstate : (q.tree.kind id).isStatePath = false) (hb : q.tree.pathBehind? id = some path) :
    ∃ kind root segments dot, q.tree.kind path = .path kind root segments dot ∧
      q.Affects id (q.tree.Holds id) (visit root) fun _ => True := by
  rcases pathBehind_cases hb with ⟨rfl, hpath⟩ | ⟨name, hk⟩
  · cases hk : q.tree.kind path <;> rw [hk] at hpath hstate <;>
      first | exact absurd hpath Bool.false_ne_true | skip
    next kind root segments dot =>
    obtain rfl : kind = .collectionValued := by
      cases kind with
      | collectionValued => rfl
      | stateField => exact absurd hstate.symm Bool.false_ne_true
    refine ⟨_, root, segments, dot, rfl, ?_⟩
    have hc : root ∈ q.tree.children path := by
      rw [Tree.children, hk]
      exact List.mem_cons_self
    have hroot := hv.visit_child hid.placed hc (by rw [hk]; rfl) (by
      rw [hk]
      simp [NodeKind.Marks, NodeKind.introduces?])
    exact hroot.congr fun inner huse =>
      holds_single (not_uses fun name behind => by rw [hk]; simp)
        (by rw [Tree.children, hk]; rfl) huse
  · obtain ⟨root, segments, dot, owner, hpath, hroot⟩ := q.isQuery.virtual_path hk
    refine ⟨_, root, segments, dot, hpath, ?_⟩
    have hc := root_mem hpath
    have hkind : (q.tree.kind path).isStatement = false := by rw [hpath]; rfl
    have hplaced := placed_of_child hc hkind (behind_placed hk hid)
    have hplain : q.IsPlain root := by
      refine isPlain_of_parent hc hplaced (by rw [hpath]; simp [NodeKind.introduces?])
        (by rw [hpath]; simp) ?_
      rintro ⟨_, _, hwritten, -⟩
      rw [hroot] at hwritten
      cases hwritten
    have haffects := (hv.affects root hplain).of_child hc hkind
    refine (haffects.of_child (behind_mem hk) (virtual_not_statement hk)).congr fun inner huse => ?_
    rw [holds_path hpath inner huse, holds_behind hk huse]

theorem collectionPath_affects (hv : q.Visits visit) (hid : q.IsPlain id)
    (hstate : (q.tree.kind id).isStatePath = false) (collectionOnly : Bool) :
    q.Affects id (q.tree.Holds id) (collectionPath visit id collectionOnly) fun _ => True := by
  refine Affects.inTree_bind ?_
  split
  · exact hv.affects id hid
  · next path hpath =>
    obtain ⟨kind, root, segments, dot, hk, hroot⟩ := pathBehind_root hv hid hstate hpath
    refine Affects.kindOf_bind ?_
    rw [hk]
    refine hroot.bind_right fun _ _ => Affects.inTree_bind ?_
    split
    · exact .pure trivial
    · refine Affects.ask_bind ?_
      split
      · next key hkey =>
        have hreference := QueryContext.collectionPath?_isReference hkey
        exact .recordAt (ProblemKey.ne_of_isReference hreference).1
      · exact .pure trivial

/-! ## Targets and arguments -/

/-- **The target of a `SET` item** is accounted for by its root, whatever it spells out. -/
theorem updateTarget_affects (hv : q.Visits visit) {item value : Nat}
    (hitem : q.tree.kind item = .updateItem id value)
    (hplaced : ∃ scope, q.tree.scopeNode? id = some scope) :
    q.Affects id (q.tree.Holds id) (updateTarget visit id) fun _ => True := by
  have hmem : (id, Slot.target) ∈ (q.tree.kind item).slots := by
    rw [hitem]
    exact List.mem_cons_self
  have hadmits := q.isQuery.admits hmem
  have hbad := q.isQuery.ne_bad (q.isQuery.lt_of_child (NodeKind.mem_children_of_mem_slots hmem))
  obtain ⟨root, segments, dot, hk⟩ :
      ∃ root segments dot, q.tree.kind id = .path .stateField root segments dot := by
    cases hk : q.tree.kind id <;> rw [hk] at hadmits hbad <;>
      first | exact absurd rfl hbad | exact absurd hadmits Bool.false_ne_true | skip
    next kind root segments dot =>
    cases kind with
    | stateField => exact ⟨root, segments, dot, rfl⟩
    | collectionValued => exact absurd hadmits Bool.false_ne_true
  have hc := root_mem hk
  have hkind : (q.tree.kind id).isStatement = false := by rw [hk]; rfl
  have hplain : q.IsPlain root := by
    refine isPlain_of_parent hc (placed_of_child hc hkind hplaced) ?_ (by rw [hk]; simp) ?_
    · rw [hk]
      simp [NodeKind.introduces?]
    · rintro - ⟨path, others, type, hpath, htarget, -⟩
      obtain rfl := parent_unique hc (root_mem hpath)
      exact htarget ⟨item, value, hitem⟩
  have hroot := ((hv.affects root hplain).of_child hc hkind).congr (holds_path hk)
  refine Affects.inTree_bind ?_
  have hbehind : q.tree.pathBehind? id = some id := by rw [Tree.pathBehind?, hk]
  rw [hbehind]
  refine Affects.kindOf_bind ?_
  rw [hk]
  refine hroot.bind_right fun _ _ => Affects.kindOf_bind ?_
  split
  · refine Affects.ask_bind ?_
    split
    · next key hkey =>
      have hreference := QueryContext.updateTarget?_isReference hkey
      exact .recordAt (ProblemKey.ne_of_isReference hreference).1
    · exact .pure trivial
  · exact .pure trivial

theorem index_affects (hv : q.Visits visit) (hid : q.IsPlain id) :
    q.Affects id (q.tree.Holds id) (index visit id) fun _ => True := by
  refine (hv.affects id hid).bind_right fun _ _ => Affects.kindOf_bind ?_
  split
  · refine Affects.ask_bind ?_
    split
    · exact .recordAt (by simp)
    · exact .pure trivial
  · exact .pure trivial

end Jpql.Check.Subject
