import Jpql.Proofs.Check.PathReport

/-! # Reports on operands

What is asked of an operand is asked of the path at it (`Check.Input.demand_behind`). An operand that
must be basic is looked at as a path if it is one, and visited otherwise. The operands of an arithmetic
operation or an ordering comparison are looked at as paths, and then visited if they are in order: what
is wrong in the root of such a path is reported twice. -/

namespace Jpql

/-- A path that is in order where it must be basic is in order where it need not. -/
theorem QueryContext.pathProblems_value {context : QueryContext} {id : Nat}
    (h : context.pathProblems .basic id = []) : context.pathProblems .value id = [] := by
  unfold pathProblems at h ⊢
  split at h
  · next kind root segments dot hk =>
    cases kind with
    | collectionValued => rfl
    | stateField =>
      dsimp only at h ⊢
      split at h
      · next hskip => rw [if_pos hskip]
      · next hcheck =>
        rw [if_neg hcheck]
        unfold statePath at h ⊢
        split
        · next mapping hmapping =>
          rw [hmapping] at h
          dsimp only at h
          unfold mappedVerdict at h ⊢
          simp only [show (Demand.value != .basic) = true from rfl, Bool.not_true, Bool.and_false,
            Bool.false_eq_true, if_false]
          split_ifs at h ⊢ <;> first | rfl | cases h
        · next hmapping =>
          rw [hmapping] at h
          exact h
  · rfl

namespace NodeKind

theorem not_isPathPart_of_repeated {kind : NodeKind} {operand : Nat} (h : operand ∈ kind.repeated) :
    kind.isPathPart = false := by
  cases kind <;> first | rfl | cases h

theorem not_isStatement_of_repeated {kind : NodeKind} {operand : Nat} (h : operand ∈ kind.repeated) :
    kind.isStatement = false := by
  cases kind <;> first | rfl | cases h

theorem not_isJoin_of_repeated {kind : NodeKind} {operand : Nat} (h : operand ∈ kind.repeated) :
    kind.isJoin = false := by
  cases kind <;> first | rfl | cases h

theorem isPathPart_of_isTreat {kind : NodeKind} (h : kind.isTreat = true) : kind.isPathPart = true := by
  cases kind <;> first | rfl | cases h

end NodeKind

namespace Check.Input

variable {q : Input} {id operand path : Nat} {demand : Demand} {visit : Visitor}

/-! ## What is asked of a path -/

/-- A path stands for the child that holds it. -/
theorem holder_behind (hc : operand ∈ q.tree.children id)
    (hvar : ∀ name isVirtual behind, q.tree.kind id ≠ .identifier name isVirtual behind)
    (hb : q.tree.pathBehind? operand = some path) : q.tree.holder path = operand := by
  have hwf := q.isClean.wellFormed
  rcases behind_cases hb with rfl | ⟨name, hk⟩
  · rw [Tree.holder, hwf.child id path hc]
    dsimp only
    split
    · next hk => exact absurd hk (hvar _ _ _)
    · rfl
  · have hpath : q.tree.parent? path = some operand := by
      refine hwf.child operand path ?_
      rw [Tree.children, hk]
      exact List.mem_cons_self
    rw [Tree.holder, hpath]
    dsimp only
    rw [hk]

/-- **What is asked of a child is asked of the path at it.** -/
theorem demand_behind (hmem : (operand, demand) ∈ (q.tree.kind id).demands)
    (hvar : ∀ name isVirtual behind, q.tree.kind id ≠ .identifier name isVirtual behind)
    (hjoined : (q.tree.kind id).isTreat = true → ∀ parent, q.tree.parent? id = some parent →
      (q.tree.kind parent).isJoin = false)
    (hb : q.tree.pathBehind? operand = some path) : q.tree.demand path = demand := by
  have hwf := q.isClean.wellFormed
  have hc := NodeKind.mem_children_of_mem_demands hmem
  rw [Tree.demand, holder_behind hc hvar hb, hwf.child id operand hc]
  dsimp only
  split
  · next hk hjoin =>
    rw [hk] at hjoined
    obtain ⟨parent, hparent, hkind⟩ := Option.map_eq_some_iff.mp hjoin
    have hno := hjoined rfl parent hparent
    rw [hkind] at hno
    cases hno
  · exact NodeKind.demand_eq (hwf.children_nodup id) hmem

/-- A `TREAT` that is joined passes on what is asked of it. -/
theorem demand_joined {joined entityType : Nat} {hasAs : Bool}
    (hk : q.tree.kind joined = .treat operand hasAs entityType)
    (hp : q.tree.parent? joined = some id) (hjoin : (q.tree.kind id).isJoin = true)
    (hb : q.tree.pathBehind? operand = some path) : q.tree.demand path = .association := by
  have hc : operand ∈ q.tree.children joined := by
    rw [Tree.children, hk]
    exact List.mem_cons_self
  have hvar : ∀ name isVirtual behind, q.tree.kind joined ≠ .identifier name isVirtual behind := by
    simp [hk]
  rw [Tree.demand, holder_behind hc hvar hb, q.isClean.wellFormed.child joined operand hc]
  dsimp only
  rw [hk, hp, Option.map_some]
  cases hid : q.tree.kind id <;> rw [hid] at hjoin
  all_goals exact absurd hjoin Bool.false_ne_true

/-! ## Operands that must be basic -/

/-- The path that an operand is looked at as. -/
theorem kind_statePathBehind (hb : q.tree.statePathBehind? operand = some path) :
    q.tree.pathBehind? operand = some path ∧
      ∃ root segments dot, q.tree.kind path = .path .stateField root segments dot := by
  obtain ⟨hbehind, hstate⟩ := Option.filter_eq_some_iff.mp hb
  refine ⟨hbehind, ?_⟩
  unfold Tree.isStatePath at hstate
  split at hstate
  · next hk => exact ⟨_, _, _, hk⟩
  · cases hstate

/-- A path that is in order is visited as it is. -/
theorem asked_of_nil (hb : q.tree.pathBehind? operand = some path)
    (hasked : q.tree.demand path = .basic) (h : q.findings path = []) :
    q.findings path = (q.context path).pathProblems .value path := by
  obtain ⟨kind, root, segments, dot, hk, -⟩ := isPath_behind hb
  rw [h, QueryContext.pathProblems_value]
  rw [← hasked, ← findings_path hk]
  exact h

/-- Nothing is wrong with a path that is read as a collection and must be basic. -/
theorem findings_of_not_state (hb : q.tree.pathBehind? operand = some path)
    (hnone : q.tree.statePathBehind? operand = none) (hasked : q.tree.demand path = .basic) :
    q.findings path = [] := by
  obtain ⟨kind, root, segments, dot, hk, -⟩ := isPath_behind hb
  rw [Tree.statePathBehind?, hb, Option.filter_eq_none_iff] at hnone
  have hno := hnone path rfl
  rw [Tree.isStatePath, hk] at hno
  cases kind with
  | stateField => exact absurd rfl hno
  | collectionValued =>
    have htree : (q.context path).tree.kind path = _ := hk
    rw [findings_path hk, hasked, QueryContext.pathProblems, htree]

section

variable (hv : q.Visits visit) (hid : q.tree.Holds q.statement operand)
  (hasked : ∀ path, q.tree.pathBehind? operand = some path → q.tree.demand path = .basic)

include hv hid hasked

/-- **An operand with a state-field path is looked at as that path.** -/
theorem statePathBehind_reports (hb : q.tree.statePathBehind? operand = some path) :
    q.Reports (q.context operand) (q.tree.scopeNode? operand) (q.tree.Holds operand)
      (statePath visit path false) fun valid => valid = true → q.findings path = [] := by
  obtain ⟨hbehind, root, segments, dot, hk⟩ := kind_statePathBehind hb
  have hbasic : q.findings path = (q.context path).pathProblems .basic path := by
    rw [findings_path hk, hasked path hbehind]
  have hreports := statePath_reports hk hv (held_of_behind hid hbehind) (.inr rfl) hbasic
  exact .of_behind hbehind hreports

variable (hinner : operand ≠ q.statement)
  (hjoined : (q.tree.kind operand).isTreat = true → ∀ parent, q.tree.parent? operand = some parent →
    (q.tree.kind parent).isJoin = false)

include hinner hjoined

theorem basicOperand_reports :
    q.Reports (q.context operand) (q.tree.scopeNode? operand) (q.tree.Holds operand)
      (basicOperand visit operand) fun _ => True := by
  refine Reports.inTree_bind ?_
  rw [show (q.context operand).tree = q.tree from rfl]
  cases hb : q.tree.statePathBehind? operand with
  | some path => exact (statePathBehind_reports hv hid hasked hb).discard
  | none =>
    refine hv operand ⟨hid, fun _ => hinner, fun path hpath => ?_, hjoined⟩
    exact asked_of_nil hpath (hasked path hpath) (findings_of_not_state hpath hb (hasked path hpath))

/-- The first look at an operand reports what is wrong there if it is a state-field path; what is in
order may be visited. -/
theorem basicPath_reports :
    q.Reports (q.context operand) (q.tree.scopeNode? operand)
      (fun inner => (q.tree.statePathBehind? operand).isSome = true ∧ q.tree.Holds operand inner)
      (basicPath visit operand) fun valid =>
        (valid = true → q.IsPlain operand ∧
          ∀ path, q.tree.statePathBehind? operand = some path → q.findings path = []) ∧
        (valid = false → (q.tree.statePathBehind? operand).isSome = true) := by
  refine Reports.inTree_bind ?_
  rw [show (q.context operand).tree = q.tree from rfl]
  cases hb : q.tree.statePathBehind? operand with
  | some path =>
    have hbehind := (Option.filter_eq_some_iff.mp hb).1
    refine ((statePathBehind_reports hv hid hasked hb).weaken fun valid hvalid => ?_).congr
      fun inner => by simp
    refine ⟨fun h => ⟨⟨hid, fun _ => hinner, fun other hother => ?_, hjoined⟩, ?_⟩, fun _ => rfl⟩
    · obtain rfl : path = other := by rwa [hbehind, Option.some_inj] at hother
      exact asked_of_nil hbehind (hasked path hbehind) (hvalid h)
    · rintro other ⟨⟩
      exact hvalid h
  | none =>
    refine (Reports.pure ⟨fun _ => ⟨⟨hid, fun _ => hinner, fun path hpath => ?_, hjoined⟩, ?_⟩,
      fun h => ?_⟩).congr fun inner => by simp
    · exact asked_of_nil hpath (hasked path hpath) (findings_of_not_state hpath hb (hasked path hpath))
    · rintro path ⟨⟩
    · cases h

end

/-! ## Two looks -/

/-- Nothing is wrong at an operation itself. -/
theorem findings_of_repeated (h : operand ∈ (q.tree.kind id).repeated) : q.findings id = [] := by
  cases hk : q.tree.kind id <;> rw [hk] at h <;> first | exact absurd h List.not_mem_nil | skip
  all_goals refine findings_eq_nil ?_ ?_ ?_ ?_ <;> rw [hk] <;> simp [Scope.isFromClause, NodeKind.isPath]

/-- Problems of parts of paths are told once, and none of them is one with a variable. -/
theorem Tally.of_parts {N : Nat → Prop} {problems : List Problem} (h : q.Tally N problems)
    (hparts : ∀ id, N id → (q.tree.kind id).isPathPart = true) :
    (∀ problem ∈ problems, problem.key.isVariable = false) ∧
      ∀ id, ∃ n ≤ 1, foundAt problems id = (List.replicate n (q.findings id)).flatten := by
  refine ⟨fun problem hmem => ?_, fun id => ?_⟩
  · by_contra hkey
    obtain ⟨owner, howner, hno, -⟩ := h.owned problem hmem (by simpa using hkey)
    rw [hparts owner howner] at hno
    cases hno
  · obtain ⟨n, heq, hn | ⟨-, operation, hoperation, operand, hrepeated, -⟩⟩ := h.times id
    · exact ⟨n, hn, heq⟩
    · have hno := NodeKind.not_isPathPart_of_repeated hrepeated
      rw [hparts operation hoperation] at hno
      cases hno

/-- Besides what its root holds, only the path itself may have something wrong with it. -/
theorem findings_of_operand {root : Nat} {kind : PathKind} {segments : List (Located String)}
    {dot : Bool} (hb : q.tree.pathBehind? operand = some path)
    (hk : q.tree.kind path = .path kind root segments dot) {inner : Nat}
    (hinner : q.tree.Holds operand inner) (hroot : ¬q.tree.Holds root inner) :
    inner = path ∨ q.findings inner = [] := by
  rcases behind_cases hb with rfl | ⟨name, hvirtual⟩
  · exact .inl (((holds_path hk).mp hinner).resolve_right hroot)
  · rw [Tree.holds_iff q.isClean.wellFormed, Tree.children, hvirtual] at hinner
    rcases hinner with rfl | hinner
    · exact .inr (findings_identifier hvirtual)
    · have hpath : q.tree.Holds path inner := by simpa [NodeKind.children] using hinner
      exact .inl (((holds_path hk).mp hpath).resolve_right hroot)

/-- A node at which a path stands holds nothing but parts of paths. -/
theorem isPathPart_of_operand (hb : q.tree.pathBehind? operand = some path) {inner : Nat}
    (hinner : q.tree.Holds operand inner) : (q.tree.kind inner).isPathPart = true := by
  refine q.isClean.isPathPart_of_holds ?_ hinner
  rcases behind_cases hb with rfl | ⟨name, hk⟩
  · obtain ⟨kind, root, segments, dot, hk, -⟩ := isPath_behind hb
    rw [hk]
    rfl
  · rw [hk]
    rfl

/-- **Two looks at an operand of an operation**: what is wrong with the path at it is told once, what
is wrong in the root of that perhaps twice. -/
theorem Tally.twice {valid : Bool} {first second : List Problem}
    (hrepeated : operand ∈ (q.tree.kind id).repeated) (hc : operand ∈ q.tree.children id)
    (hfirst : q.Tally (fun inner => (q.tree.statePathBehind? operand).isSome = true ∧
      q.tree.Holds operand inner) first)
    (hsecond : q.Tally (fun inner => valid = true ∧ q.tree.Holds operand inner) second)
    (hvalid : valid = true →
      ∀ path, q.tree.statePathBehind? operand = some path → q.findings path = []) :
    q.Tally (q.tree.Holds id) (first ++ second) := by
  have hwf := q.isClean.wellFormed
  have hbelow : ∀ {inner}, q.tree.Holds operand inner → q.tree.Holds id inner :=
    fun h => h.of_child hwf hc
  have hnone : ∀ {N : Nat → Prop} {problems : List Problem}, q.Tally N problems →
      (∀ id, ¬N id) → problems = [] := fun h hno => List.eq_nil_iff_forall_not_mem.mpr
    fun problem hmem => by
      obtain ⟨id, -, hid⟩ := h.anchored problem hmem
      exact hno id hid
  cases hb : q.tree.statePathBehind? operand with
  | none =>
    rw [hnone hfirst (by simp [hb]), List.nil_append]
    exact hsecond.mono fun _ h => hbelow h.2
  | some path =>
    cases valid with
    | false =>
      rw [hnone hsecond (by simp), List.append_nil]
      exact hfirst.mono fun _ h => hbelow h.2
    | true =>
      obtain ⟨hbehind, root, segments, dot, hk⟩ := kind_statePathBehind hb
      have hparts : ∀ inner, q.tree.Holds operand inner →
          (q.tree.kind inner).isPathPart = true := fun _ => isPathPart_of_operand hbehind
      obtain ⟨hplain, honce⟩ := hfirst.of_parts fun inner h => hparts inner h.2
      obtain ⟨hplain', honce'⟩ := hsecond.of_parts fun inner h => hparts inner h.2
      have hboth : ∀ problem ∈ first ++ second, problem.key.isVariable = false :=
        List.forall_mem_append.mpr ⟨hplain, hplain'⟩
      refine ⟨fun problem hmem => ?_, fun inner => ?_, ?_, fun problem hmem hkey => ?_⟩
      · rcases List.mem_append.mp hmem with hmem | hmem
        · obtain ⟨inner, hanchor, -, hinner⟩ := hfirst.anchored problem hmem
          exact ⟨inner, hanchor, hbelow hinner⟩
        · obtain ⟨inner, hanchor, -, hinner⟩ := hsecond.anchored problem hmem
          exact ⟨inner, hanchor, hbelow hinner⟩
      · obtain ⟨m, hm, hfound⟩ := honce inner
        obtain ⟨n, hn, hfound'⟩ := honce' inner
        rw [foundAt_append, hfound, hfound', ← List.flatten_append, List.replicate_append_replicate]
        by_cases hroot : q.tree.Holds root inner
        · exact ⟨m + n, rfl, .inr ⟨by omega, id, .refl, operand, hrepeated, path, root, segments, dot,
            hb, hk, hroot⟩⟩
        · -- outside of the root there is nothing to tell, as the path is in order
          refine ⟨0, ?_, .inl (Nat.zero_le _)⟩
          rw [List.replicate_zero, List.flatten_nil, ← List.replicate_append_replicate,
            List.flatten_append, ← hfound, ← hfound']
          by_cases hinner : q.tree.Holds operand inner
          · have hnil : q.findings inner = [] :=
              (findings_of_operand hbehind hk hinner hroot).elim
                (fun he => he ▸ hvalid rfl path hb) fun h => h
            rw [hfound, hfound', hnil]
            simp
          · rw [hfirst.foundAt_outside (fun h => hinner h.2),
              hsecond.foundAt_outside (fun h => hinner h.2), List.append_nil]
      · rw [List.filter_eq_nil_iff.mpr fun problem hmem => by simp [hboth problem hmem]]
        exact List.nodup_nil
      · rw [hboth problem hmem] at hkey
        cases hkey

/-- A visit under a condition. -/
theorem visit_if {context : QueryContext} {scope : Option Nat} (valid : Bool)
    (h : valid = true →
      q.Reports context scope (q.tree.Holds operand) (visit operand) fun _ => True) :
    q.Reports context scope (fun inner => valid = true ∧ q.tree.Holds operand inner)
      (if valid then visit operand else pure ()) fun _ => True := by
  cases valid with
  | true => exact (h rfl).congr fun _ => by simp
  | false => exact (Reports.pure trivial).congr fun _ => by simp

/-- **Two operands are looked at in turn**, each of them twice. -/
theorem Tally.interleave {N L R : Nat → Prop} {l₁ l₂ r₁ r₂ : List Problem}
    (hl : q.Tally N (l₁ ++ l₂)) (hr : q.Tally N (r₁ ++ r₂))
    (hleft : ∀ problem ∈ l₁ ++ l₂, ∃ inner, problem.anchor = some inner ∧ L inner)
    (hright : ∀ problem ∈ r₁ ++ r₂, ∃ inner, problem.anchor = some inner ∧ R inner)
    (hapart : ∀ inner, L inner → ¬R inner) : q.Tally N (l₁ ++ r₁ ++ l₂ ++ r₂) := by
  have hother : ∀ {a b : Problem}, a ∈ l₁ ++ l₂ → b ∈ r₁ ++ r₂ → a.anchor ≠ b.anchor := by
    intro a b ha hb he
    obtain ⟨inner, hanchor, hinner⟩ := hleft a ha
    obtain ⟨other, hanchor', hother⟩ := hright b hb
    rw [he, hanchor', Option.some_inj] at hanchor
    exact hapart inner hinner (hanchor ▸ hother)
  have hfound : ∀ inner, foundAt (l₁ ++ l₂) inner = [] ∨ foundAt (r₁ ++ r₂) inner = [] := fun inner => by
    rw [or_iff_not_imp_left]
    intro hsome
    obtain ⟨a, ha⟩ := List.exists_mem_of_ne_nil _ hsome
    obtain ⟨hmem, -, hanchor⟩ := mem_foundAt.mp ha
    exact foundAt_eq_nil fun b hb _ hanchor' => hother hmem hb (hanchor.trans hanchor'.symm)
  refine (hl.append hr hfound fun a ha _ hb => hother ha hb rfl).perm ?_ fun inner => ?_
  · rw [List.append_assoc, List.append_assoc, List.append_assoc]
    refine List.Perm.append_left _ ?_
    rw [← List.append_assoc, ← List.append_assoc]
    exact List.perm_append_comm.append_right _
  · have h := hfound inner
    simp only [foundAt_append, List.append_eq_nil_iff] at h ⊢
    rcases h with ⟨h₁, h₂⟩ | ⟨h₁, h₂⟩ <;> simp [h₁, h₂]

theorem subset_interleave (l₁ l₂ r₁ r₂ : List Problem) :
    l₁ ++ l₂ ⊆ l₁ ++ r₁ ++ l₂ ++ r₂ ∧ r₁ ++ r₂ ⊆ l₁ ++ r₁ ++ l₂ ++ r₂ := by
  constructor <;> intro problem hproblem <;> simp only [List.mem_append] at hproblem ⊢ <;> tauto

section

variable (hrepeated : operand ∈ (q.tree.kind id).repeated)
  (hdemand : (operand, Demand.basic) ∈ (q.tree.kind id).demands)

include hrepeated hdemand

/-- An operand of an operation is no `TREAT` that is joined, and a path at it must be basic. -/
theorem operand_asked :
    (∀ path, q.tree.pathBehind? operand = some path → q.tree.demand path = .basic) ∧
      ((q.tree.kind operand).isTreat = true → ∀ parent, q.tree.parent? operand = some parent →
        (q.tree.kind parent).isJoin = false) := by
  have hpart := NodeKind.not_isPathPart_of_repeated hrepeated
  refine ⟨fun path hpath => demand_behind hdemand (fun name isVirtual behind hk => ?_)
    (fun htreat => ?_) hpath, fun _ parent hp => ?_⟩
  · rw [hk] at hpart
    cases hpart
  · rw [NodeKind.isPathPart_of_isTreat htreat] at hpart
    cases hpart
  · rw [q.isClean.wellFormed.child id operand (NodeKind.mem_children_of_mem_demands hdemand),
      Option.some_inj] at hp
    rw [← hp]
    exact NodeKind.not_isJoin_of_repeated hrepeated

variable (hv : q.Visits visit) (hid : q.tree.Holds q.statement id)

include hv hid

/-- **The first look at an operand of an operation**, and what a second one then does. -/
theorem operand_reports :
    q.Reports (q.context id) (q.tree.scopeNode? id)
      (fun inner => (q.tree.statePathBehind? operand).isSome = true ∧ q.tree.Holds operand inner)
      (basicPath visit operand) fun valid =>
        (valid = true →
          ∀ path, q.tree.statePathBehind? operand = some path → q.findings path = []) ∧
        (valid = false → (q.tree.statePathBehind? operand).isSome = true) ∧
        q.Reports (q.context id) (q.tree.scopeNode? id)
          (fun inner => valid = true ∧ q.tree.Holds operand inner)
          (if valid then visit operand else pure ()) fun _ => True := by
  have hc := NodeKind.mem_children_of_mem_demands hdemand
  have hkind := NodeKind.not_isStatement_of_repeated hrepeated
  obtain ⟨hasked, hjoined⟩ := operand_asked hrepeated hdemand
  rw [← context_of_child hc hkind, ← Scope.scopeNode?_of_child q.isClean.wellFormed hc hkind]
  refine (basicPath_reports hv (held_of_child hid hc) hasked (child_ne_statement hid hc)
    hjoined).weaken fun valid hvalid => ?_
  exact ⟨fun h => (hvalid.1 h).2, hvalid.2, visit_if valid fun h => hv operand (hvalid.1 h).1⟩

end

/-- The four looks one after the other. -/
theorem basicOperands_eq {left right : Nat} :
    basicOperands visit left right = basicPath visit left >>= fun leftValid =>
      basicPath visit right >>= fun rightValid =>
        (if leftValid then visit left else pure ()) >>= fun _ =>
          if rightValid then visit right else pure () := by
  unfold basicOperands
  congr 1
  funext leftValid
  congr 1
  funext rightValid
  cases leftValid <;> rfl

/-- **The operands of an operation are looked at, and then visited if they are in order.** -/
theorem basicOperands_reports {left right : Nat} (hv : q.Visits visit)
    (hid : q.tree.Holds q.statement id) (hchildren : q.tree.children id = [left, right])
    (hrepeated : (q.tree.kind id).repeated = [left, right])
    (hdemands : (q.tree.kind id).demands = [(left, .basic), (right, .basic)]) :
    q.Reports (q.context id) (q.tree.scopeNode? id) (q.tree.Holds id)
      (basicOperands visit left right) fun _ => True := by
  have hwf := q.isClean.wellFormed
  have hleft : left ∈ (q.tree.kind id).repeated := by simp [hrepeated]
  have hright : right ∈ (q.tree.kind id).repeated := by simp [hrepeated]
  have hleft' : left ∈ q.tree.children id := by simp [hchildren]
  have hright' : right ∈ q.tree.children id := by simp [hchildren]
  intro s hs hnodup
  obtain ⟨⟨hnil₁, hpath₁, hvisit₁⟩, l₁, hl₁⟩ :=
    operand_reports hleft (by simp [hdemands]) hv hid s hs hnodup
  obtain ⟨⟨hnil₂, hpath₂, hvisit₂⟩, r₁, hr₁⟩ :=
    operand_reports hright (by simp [hdemands]) hv hid _ (hl₁.context.trans hs) hl₁.nodup
  obtain ⟨-, l₂, hl₂⟩ :=
    hvisit₁ _ (hr₁.context.trans (hl₁.context.trans hs)) hr₁.nodup
  obtain ⟨-, r₂, hr₂⟩ :=
    hvisit₂ _ (hl₂.context.trans (hr₁.context.trans (hl₁.context.trans hs))) hl₂.nodup
  have hbelow₁ : ∀ {P : Prop} inner, P ∧ q.tree.Holds left inner → q.tree.Holds id inner :=
    fun _ h => h.2.of_child hwf hleft'
  have hbelow₂ : ∀ {P : Prop} inner, P ∧ q.tree.Holds right inner → q.tree.Holds id inner :=
    fun _ h => h.2.of_child hwf hright'
  rw [basicOperands_eq]
  refine ⟨trivial, l₁ ++ r₁ ++ l₂ ++ r₂, ?_, ?_, fun ht inner hinner => ?_⟩
  · exact (((hl₁.toChange.mono hbelow₁).trans (hr₁.toChange.mono hbelow₂)).trans
      (hl₂.toChange.mono hbelow₁)).trans (hr₂.toChange.mono hbelow₂)
  · exact Tally.interleave
      (.twice hleft hleft' hl₁.tally hl₂.tally hnil₁) (.twice hright hright' hr₁.tally hr₂.tally hnil₂)
      (List.forall_mem_append.mpr ⟨(hl₁.tally.mono fun _ h => h.2).anchored,
        (hl₂.tally.mono fun _ h => h.2).anchored⟩)
      (List.forall_mem_append.mpr ⟨(hr₁.tally.mono fun _ h => h.2).anchored,
        (hr₂.tally.mono fun _ h => h.2).anchored⟩)
      (Tree.apart_of_children hwf hchildren)
  · -- what is no path is looked at in the second round only
    have hl := hr₂.toChange.exceeded ht
    have hr := hl₂.toChange.exceeded hl
    have hl' := hr₁.toChange.exceeded hr
    have hcover : ∀ {operand : Nat} {valid : Bool} {first second : List Problem},
        (valid = false → (q.tree.statePathBehind? operand).isSome = true) →
        ((q.tree.statePathBehind? operand).isSome = true ∧ q.tree.Holds operand inner →
          q.findings inner ⊆ first) →
        (valid = true ∧ q.tree.Holds operand inner → q.findings inner ⊆ second) →
        q.tree.Holds operand inner → q.findings inner ⊆ first ++ second := by
      intro operand valid first second hpath hfirst hsecond hoperand
      cases valid with
      | true => exact List.subset_append_of_subset_right _ (hsecond ⟨rfl, hoperand⟩)
      | false => exact List.subset_append_of_subset_left _ (hfirst ⟨hpath rfl, hoperand⟩)
    rw [Tree.holds_iff hwf, hchildren] at hinner
    rcases hinner with rfl | ⟨operand, hmem, hinner⟩
    · rw [findings_of_repeated hleft]
      exact List.nil_subset _
    · simp only [List.mem_cons, List.not_mem_nil, or_false] at hmem
      rcases hmem with rfl | rfl
      · exact List.Subset.trans
          (hcover hpath₁ (hl₁.complete hl' inner) (hl₂.complete hl inner) hinner)
          (subset_interleave l₁ l₂ r₁ r₂).1
      · exact List.Subset.trans
          (hcover hpath₂ (hr₁.complete hr inner) (hr₂.complete ht inner) hinner)
          (subset_interleave l₁ l₂ r₁ r₂).2

end Check.Input

end Jpql
