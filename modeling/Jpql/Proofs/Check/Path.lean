import Jpql.Proofs.Check.Children

/-! # Checking paths

A check of a state-field path accounts for its root, except where the path names a constant: then
the use of the root is taken back. The other checks of paths only visit the root. -/

namespace Jpql.Check.Subject

variable {q : Subject} {node id root : Nat} {segments : List (Located String)} {dot : Bool}
  {visit : Visitor}

/-! ## Taking back a use -/

/-- What counts as no use is not there to be taken back. -/
theorem unuse_affects (h : ¬q.Uses root) :
    q.Affects node (fun _ => False) (unuse root) fun _ => True := by
  intro s hs
  refine ⟨trivial, .of_used, fun hw => .of_eq ?_ rfl⟩
  refine List.filter_eq_self.mpr fun id hid => bne_iff_ne.mpr fun he => h ?_
  rw [← he]
  exact hs.uses hw id hid

theorem wrongConstant_key (enum : String) :
    ∀ problem ∈ segments.getLast?.toList.map fun last =>
      (⟨.statePathInvalidConstant, [last.value, enum], last.span, some id⟩ : Problem),
      problem.key ≠ .variableNotDeclared := by
  intro problem hmem
  obtain ⟨last, -, rfl⟩ := List.mem_map.mp hmem
  simp

/-- **What a path comes to is settled** without an effect on uses that count. -/
theorem settle_affects {verdict : PathVerdict}
    (hkey : ∀ key, verdict = .invalid key → key ≠ .variableNotDeclared)
    (hconstant : ∀ known enum, verdict = .constant known enum → ¬q.Uses root) :
    q.Affects node (fun _ => False) (settle id root segments verdict) fun _ => True := by
  cases verdict with
  | valid => exact .pure trivial
  | invalid key => exact (Affects.recordAt (hkey key rfl)).bind_left fun _ _ => .pure trivial
  | constant known enum =>
    refine (unuse_affects (hconstant known enum rfl)).bind_left fun _ _ => ?_
    cases known with
    | true => exact .pure trivial
    | false =>
      exact (Affects.recordAll (wrongConstant_key enum)).bind_left fun _ _ => .pure trivial

/-- The use of a root that names a constant is taken back. -/
theorem settle_constant (id root : Nat) (segments : List (Located String)) (known : Bool)
    (enum : String) (s : State) :
    Steady s (settle id root segments (.constant known enum) q.env s).2 ∧
      (settle id root segments (.constant known enum) q.env s).2.used =
        s.used.filter (· != root) ∧
      undeclaredNodes (settle id root segments (.constant known enum) q.env s).2.problems =
        undeclaredNodes s.problems := by
  cases known with
  | true => exact ⟨.of_used, rfl, rfl⟩
  | false =>
    refine ⟨.of_problems, rfl, ?_⟩
    show undeclaredNodes (s.problems ++ segments.getLast?.toList.map _) = _
    rw [undeclaredNodes_append, undeclaredNodes_eq_nil (wrongConstant_key enum), List.append_nil]

/-! ## What a path comes to -/

theorem statePath_constant {context : QueryContext} {associationAllowed known : Bool} {enum : String}
    (h : context.statePath id segments associationAllowed = .constant known enum) :
    context.mapping? id = none ∧ ∃ type, context.pathType? id = some type ∧ type.isEnum = true := by
  unfold QueryContext.statePath QueryContext.mappedVerdict QueryContext.unmappedVerdict at h
  split at h
  · split_ifs at h
  · next hmapping =>
    split at h
    · cases h
    · next type htype =>
      split_ifs at h with henum
      exact ⟨hmapping, type, htype, henum⟩

theorem statePath_of_constant {context : QueryContext} {type : TypeInfo} (associationAllowed : Bool)
    (hmapping : context.mapping? id = none) (htype : context.pathType? id = some type)
    (henum : type.isEnum = true) (segments : List (Located String)) :
    ∃ known, context.statePath id segments associationAllowed = .constant known type.name := by
  unfold QueryContext.statePath QueryContext.unmappedVerdict
  rw [hmapping, htype]
  simp [henum]

/-! ## State-field paths -/

section

variable (hv : q.Visits visit) (hk : q.tree.kind id = .path .stateField root segments dot)
  (hplaced : ∃ scope, q.tree.scopeNode? id = some scope) (htarget : ¬q.tree.IsTarget id)
  (associationAllowed : Bool)

include hk

theorem root_mem : root ∈ q.tree.children id := by
  rw [Tree.children, hk]
  exact List.mem_cons_self

/-- A path accounts for what its root accounts for. -/
theorem holds_path (inner : Nat) (huse : q.Uses inner) :
    q.tree.Holds root inner ↔ q.tree.Holds id inner :=
  holds_single (not_uses fun name behind => by rw [hk]; simp) (by rw [Tree.children, hk]; rfl) huse

include hv hplaced htarget

/-- The root of a path that names no constant is visited as it is. -/
theorem statePath_affects_plain
    (hroot : q.tree.Counts q.metamodel root → ¬q.tree.NamesConstant q.metamodel root) :
    q.Affects id (q.tree.Holds id) (statePath visit id associationAllowed) fun _ => True := by
  have hc := root_mem hk
  have hkind : (q.tree.kind id).isStatement = false := by rw [hk]; rfl
  have hplain : q.IsPlain root := by
    refine isPlain_of_parent hc (placed_of_child hc hkind hplaced) ?_ (by rw [hk]; simp) hroot
    rw [hk]
    simp [NodeKind.introduces?]
  refine Affects.kindOf_bind ?_
  rw [hk]
  refine (((hv.affects root hplain).of_child hc hkind).bind_right fun _ _ => ?_).congr
    (holds_path hk)
  refine Affects.inTree_bind ?_
  split
  · exact .pure trivial
  · next hcheck =>
    refine Affects.ask_bind (settle_affects
      (fun key h => (ProblemKey.ne_of_isReference (QueryContext.statePath_isReference h)).1) ?_)
    rintro known enum h ⟨-, hnames⟩
    obtain ⟨hmapping, type, htype, henum⟩ := statePath_constant h
    have hdot : dot = false := by
      cases dot with
      | false => rfl
      | true => simp at hcheck
    subst hdot
    exact hnames ⟨id, segments, type, hk, htarget, hmapping, htype, henum⟩

omit hplaced htarget in
/-- The root of a path that names a constant is visited, and then taken back. -/
theorem statePath_affects_constant (hcounts : q.tree.Counts q.metamodel root)
    (hnames : q.tree.NamesConstant q.metamodel root) :
    q.Affects id (q.tree.Holds id) (statePath visit id associationAllowed) fun _ => True := by
  obtain ⟨name, behind, hroot, -⟩ := hcounts
  obtain rfl := q.isQuery.behind_eq_none hroot
  have hunused : ¬q.Uses root := fun huse => huse.2 hnames
  obtain ⟨path, others, type, hpath, -, hmapping, htype, henum⟩ := hnames
  obtain rfl := parent_unique (root_mem hk) (root_mem hpath)
  obtain ⟨rfl, rfl⟩ : others = segments ∧ dot = false := by
    rw [hk] at hpath
    cases hpath
    exact ⟨rfl, rfl⟩
  obtain ⟨known, hverdict⟩ :=
    statePath_of_constant associationAllowed hmapping htype henum others
  intro s hs
  have hcontext : s.context.tree = q.tree := by
    rw [hs.context]
    rfl
  have htouch := hv.touches root name false hroot s hcontext
  obtain ⟨hsteady, hused, hmissing⟩ := settle_constant (q := q) id root others known type.name
    (visit root q.env s).2
  have hrun : (statePath visit id associationAllowed q.env s).2 =
      (settle id root others (.constant known type.name) q.env (visit root q.env s).2).2 := by
    have hresolved : q.tree.isResolvedRoot root = true := by
      rw [Tree.isResolvedRoot, hroot]
    rw [statePath, kindOf_run, hcontext, hk]
    show ((visit root >>= fun _ => inTree (·.isResolvedRoot root) >>= _) q.env s).2 = _
    rw [bind_run, inTree_run, htouch.steady.context, hcontext, hresolved]
    show ((ask _ >>= settle id root others) q.env _).2 = _
    rw [ask_run, htouch.steady.context, hs.context]
    show (settle id root others ((q.context id).statePath id others _) q.env _).2 = _
    rw [Subject.context, hverdict]
  rw [hrun]
  refine ⟨trivial, htouch.steady.trans hsteady, fun hw => (Change.of_eq ?_ ?_).congr ?_⟩
  · have hwhole := hsteady.isWhole hw
    have hkeep : s.used.filter (· != root) = s.used := by
      refine List.filter_eq_self.mpr fun used hmem => bne_iff_ne.mpr fun he => hunused ?_
      rw [← he]
      exact hs.uses (htouch.steady.isWhole hwhole) used hmem
    rw [hused]
    rcases htouch.eq hwhole with he | ⟨-, -, he⟩
    · rw [he, hkeep]
    · rw [he, List.filter_append, hkeep]
      simp
  · rw [hmissing]
    rcases htouch.eq (hsteady.isWhole hw) with he | ⟨-, -, he⟩
    · rw [he]
    · rw [he]
  · intro inner huse
    refine ⟨False.elim, fun hinner => hunused ?_⟩
    have hleaf : q.tree.children root = [] := by
      rw [Tree.children, hroot]
      rfl
    rw [← ((holds_path hk inner huse).mpr hinner).eq_of_leaf q.isQuery.wellFormed hleaf]
    exact huse

/-- **A check of a state-field path accounts for what the path holds.** -/
theorem statePath_affects :
    q.Affects id (q.tree.Holds id) (statePath visit id associationAllowed) fun _ => True := by
  by_cases h : q.tree.Counts q.metamodel root ∧ q.tree.NamesConstant q.metamodel root
  · exact statePath_affects_constant hv hk associationAllowed h.1 h.2
  · exact statePath_affects_plain hv hk hplaced htarget associationAllowed fun hcounts hnames =>
      h ⟨hcounts, hnames⟩

end

end Jpql.Check.Subject
