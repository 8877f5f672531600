import Jpql.Proofs.Check.Demand
import Jpql.Proofs.Depth.Track
import Jpql.Proofs.Place.Scope

/-! # Paths and operands at each depth

* `Check.Descends`: visits go one level down at a time.
* `Check.Visits`: whatever lies below a node, a visit to it follows a trace.
* `Check.statePath_tracks`: a path uses the same variables whether or not it may be an association. A
  constant of an enum uses none, and takes back what its root used.
* `Check.basicOperands_sweeps`: operands that are paths are checked first and visited again further
  down. By then their variables are in use already. -/

namespace Jpql

/-- Whether a path spells out a constant does not depend on what else it may be. -/
theorem QueryContext.statePath_constant {context : QueryContext} {id : NodeId}
    {segments : List (Located String)} {known : Bool} {enum : String} {allowed : Bool}
    (h : context.statePath id segments allowed = .constant known enum) (other : Bool) :
    context.statePath id segments other = .constant known enum := by
  unfold statePath at h ⊢
  split at h
  · unfold mappedVerdict at h
    split_ifs at h
  · exact h

namespace Check

variable {tree : Tree} {ι : Type} [Limit ι] {visitor : ι → Visitor}

/-- **Visits go one level down.** What is done at a node is found one level further down by a visit. -/
def Descends (tree : Tree) (visitor : ι → Visitor) : Prop :=
  ∀ (setting : Setting tree) (id : NodeId) (t : Trace),
    (∀ statement leftover, tree.kind id ≠ .query statement leftover) →
    Tracks setting (tree.Holds id) (fun limit => visitKind (visitor limit) id) () t →
      Tracks setting (tree.Holds id) (fun limit => visitor limit id) () t.deeper

theorem visitTo_descends : Descends tree visitTo := fun _ _ _ _ h => h.visit

/-- **Whatever lies at or below a node is visited along a trace**, in every setting. -/
def Visits (tree : Tree) (visitor : ι → Visitor) (id : NodeId) : Prop :=
  ∀ inner, tree.Holds id inner → ∀ setting : Setting tree,
    Traced setting (tree.Holds inner) (fun limit => visitor limit inner) ()

namespace Visits

variable {id child : NodeId} (h : Visits tree visitor id)

include h

theorem visit (setting : Setting tree) :
    Traced setting (tree.Holds id) (fun limit => visitor limit id) () :=
  h id .refl setting

theorem of_holds (hholds : tree.Holds id child) : Visits tree visitor child :=
  fun inner hinner => h inner (hholds.trans hinner)

end Visits

section

variable {setting : Setting tree} {id : NodeId}

/-- What is followed below a node is followed at the node. -/
theorem Traced.lift {α : Type} {p : ι → Checker α} {a : α} {inner : NodeId}
    (h : Traced setting (tree.Holds inner) p a) (hholds : tree.Holds id inner) :
    Traced setting (tree.Holds id) p a :=
  h.mono fun _ hinner => hholds.trans hinner

/-- What a verdict finds, unless it is a constant. -/
theorem settle_tracks (ι : Type) [Limit ι] (setting : Setting tree) (id root : NodeId)
    (segments : List (Located String)) {verdict : PathVerdict}
    (hkey : ∀ key, verdict = .invalid key → key.isReference = true)
    (hconstant : ∀ known enum, verdict ≠ .constant known enum) : ∃ valid problems,
    Tracks setting (fun _ => False) (fun _ : ι => settle id root segments verdict) valid
      (.finds problems) := by
  cases verdict with
  | valid => exact ⟨true, [], .pure true⟩
  | invalid key =>
    have hne := ProblemKey.ne_traversalTooDeep (hkey key rfl)
    exact ⟨false, _, (Tracks.recordAt hne).answer false⟩
  | constant known enum => exact absurd rfl (hconstant known enum)

/-- **What follows a root** that was visited: the path is open or rooted at something else, or it is
settled. -/
theorem settled_run {env : Env} {s : State} (hs : setting.Starts env s) {root : NodeId}
    {segments : List (Located String)} {dot allowed : Bool} :
    (do
      if dot || !(← inTree (·.isResolvedRoot root)) then return true
      settle id root segments (← ask (·.statePath id segments allowed)) : Checker Bool) env s =
    (if dot || !tree.isResolvedRoot root then pure true
      else settle id root segments (setting.context.statePath id segments allowed) : Checker Bool)
        env s := by
  rw [inTree_run, hs.context, setting.context_tree]
  split
  · rfl
  · rw [ask_run, hs.context]

end

section

variable {id : NodeId} (hwf : tree.WellFormed)

include hwf

/-! ## Paths -/

theorem holds_root {kind : PathKind} {root : NodeId} {segments : List (Located String)} {dot : Bool}
    (hk : tree.kind id = .path kind root segments dot) : tree.Holds id root :=
  Tree.Holds.refl.of_child hwf (by rw [Tree.children, hk]; exact List.mem_singleton_self _)

theorem holds_of_pathBehind {path : NodeId} (hpath : tree.pathBehind? id = some path) :
    tree.Holds id path := by
  unfold Tree.pathBehind? at hpath
  split at hpath
  · exact Option.some.inj hpath ▸ .refl
  · next hk =>
    obtain rfl := Option.some.inj hpath
    exact Tree.Holds.refl.of_child hwf (by rw [Tree.children, hk]; exact List.mem_singleton_self _)
  · cases hpath

variable (setting : Setting tree)

/-- **A state-field path.** What it uses does not depend on whether it may be an association. -/
theorem statePath_tracks {root : NodeId} {segments : List (Located String)} {dot : Bool}
    (hk : tree.kind id = .path .stateField root segments dot) (hroot : Visits tree visitor root) :
    ∃ uses reach, ∀ allowed, ∃ valid found, Tracks setting (tree.Holds id)
      (fun limit => statePath (visitor limit) id allowed) valid ⟨found, uses, reach⟩ := by
  have hholds := holds_root hwf hk
  obtain ⟨t, ht⟩ := hroot.visit setting
  replace ht := ht.mono fun _ hinner => hholds.trans hinner
  have hstart : ∀ {allowed valid : Bool} {t : Trace},
      Tracks setting (tree.Holds id) (fun limit => visitor limit root >>= fun _ => do
        if dot || !(← inTree (·.isResolvedRoot root)) then return true
        settle id root segments (← ask (·.statePath id segments allowed))) valid t →
      Tracks setting (tree.Holds id) (fun limit => statePath (visitor limit) id allowed) valid t :=
    fun h => .kindOf_bind (by rw [hk]; exact h)
  by_cases hopen : (dot || !tree.isResolvedRoot root) = true
  · refine ⟨t.uses, t.reach, fun allowed => ⟨true, _, hstart (ht.bind_finds
      ((Tracks.pure true).congr fun _ env s hs => ?_))⟩⟩
    rw [settled_run hs, if_pos hopen]
  by_cases hconstant : ∃ known enum, setting.context.statePath id segments true = .constant known enum
  · obtain ⟨known, enum, hconstant⟩ := hconstant
    refine ⟨(t.without root).uses, t.reach, fun allowed => ?_⟩
    obtain ⟨problems, hproblems⟩ : ∃ problems, Tracks setting (fun _ => False) (fun _ : ι => do
        if !known then
          recordAll (segments.getLast?.toList.map fun last =>
            ⟨.statePathInvalidConstant, [last.value, enum], last.span, some id⟩)
        return known) known (.finds problems) := by
      cases known with
      | true => exact ⟨[], .pure true⟩
      | false => exact ⟨_, (Tracks.recordAll (by simp)).answer false⟩
    refine ⟨known, _, hstart (ht.bind_unuse hholds (fun limit env s hs => ?_) hproblems)⟩
    rw [settled_run hs, if_neg hopen, QueryContext.statePath_constant hconstant allowed]
    rfl
  · refine ⟨t.uses, t.reach, fun allowed => ?_⟩
    obtain ⟨valid, problems, hsettle⟩ := settle_tracks ι setting id root segments
      (fun key (h : setting.context.statePath id segments allowed = .invalid key) =>
        QueryContext.statePath_isReference h)
      fun known enum h => hconstant ⟨known, enum, QueryContext.statePath_constant h true⟩
    refine ⟨valid, _, hstart (ht.bind_finds (hsettle.congr fun _ env s hs => ?_))⟩
    rw [settled_run hs, if_neg hopen]

/-- A state-field path as an operand or on its own. -/
theorem statePath_traced {root : NodeId} {segments : List (Located String)} {dot : Bool}
    (hk : tree.kind id = .path .stateField root segments dot) (hroot : Visits tree visitor root)
    (allowed : Bool) :
    Traced setting (tree.Holds id)
      (fun limit => discard (statePath (visitor limit) id allowed)) () := by
  obtain ⟨uses, reach, h⟩ := statePath_tracks hwf setting hk hroot
  obtain ⟨valid, found, htracks⟩ := h allowed
  exact ⟨_, htracks.discard⟩

/-- **A path that must denote a collection**, or at least an association. -/
theorem collectionPath_traced (hid : Visits tree visitor id) (collectionOnly : Bool) :
    Traced setting (tree.Holds id)
      (fun limit => collectionPath (visitor limit) id collectionOnly) () := by
  refine .inTree_bind ?_
  split
  · exact hid.visit setting
  · next path hpath =>
    refine .kindOf_bind ?_
    split
    · next root segments dot hk =>
      have hroot : tree.Holds id root := (holds_of_pathBehind hwf hpath).trans (holds_root hwf hk)
      refine (((hid.of_holds hroot).visit setting).lift hroot).bind_right (.inTree_bind ?_)
      split
      · exact .pure ()
      · refine .ask_bind ?_
        split
        · next key hkey =>
          exact .recordAt (ProblemKey.ne_traversalTooDeep (QueryContext.collectionPath?_isReference hkey))
        · exact .pure ()
    · exact .pure ()

/-- **The target of a `SET` item.** -/
theorem updateTarget_traced (hid : Visits tree visitor id) :
    Traced setting (tree.Holds id) (fun limit => updateTarget (visitor limit) id) () := by
  refine .inTree_bind ?_
  split
  · exact hid.visit setting
  · next path hpath =>
    have hbehind := holds_of_pathBehind hwf hpath
    refine .kindOf_bind ?_
    split
    · next root segments dot hk =>
      have hroot : tree.Holds id root := hbehind.trans (holds_root hwf hk)
      refine (((hid.of_holds hroot).visit setting).lift hroot).bind_right (.kindOf_bind ?_)
      split
      · refine .ask_bind ?_
        split
        · next key hkey =>
          exact .recordAt (ProblemKey.ne_traversalTooDeep (QueryContext.updateTarget?_isReference hkey))
        · exact .pure ()
      · exact .pure ()
    · exact ((hid.of_holds hbehind).visit setting).lift hbehind

/-- What a range or a join goes over. Of `TREAT` the type is visited before the path is checked. -/
theorem association_traced (hid : Visits tree visitor id) :
    Traced setting (tree.Holds id) (fun limit => association (visitor limit) id) () := by
  refine .kindOf_bind ?_
  split
  · next inner hasAs entityType hk =>
    have hchildren : tree.children id = [inner, entityType] := by rw [Tree.children, hk]; rfl
    have hinner : tree.Holds id inner := Tree.Holds.refl.of_child hwf (by simp [hchildren])
    have htype : tree.Holds id entityType := Tree.Holds.refl.of_child hwf (by simp [hchildren])
    have hapart := (Tree.apart_of_children hwf hchildren).symm
    have hpath := collectionPath_traced hwf setting (hid.of_holds hinner) false
    exact (((hid.of_holds htype).visit setting).bind hpath hapart).mono fun _ h =>
      h.elim htype.trans hinner.trans
  · exact collectionPath_traced hwf setting hid false

omit hwf in
/-- A variable where it is declared is visited without coming into use. -/
theorem visitDeclared_traced (hid : Visits tree visitor id) :
    Traced setting (tree.Holds id) (fun limit => visitDeclared (visitor limit) (some id)) () := by
  obtain ⟨t, ht⟩ := hid.visit setting.silent
  refine ⟨t, ht.sound, ht.within, fun limit env s hs hclear => ⟨rfl, ?_⟩⟩
  obtain ⟨-, hrun⟩ := ht.run limit env { s with registers := false }
    ⟨hs.context, rfl, hs.updateValues⟩ hclear
  exact ⟨⟨hrun.found, hrun.exceeded, hrun.marks⟩, hrun.context, rfl, hrun.used⟩

/-! ## Operands -/

omit hwf in
theorem statePathBehind_cases {path : NodeId} (hpath : tree.statePathBehind? id = some path) :
    ∃ root segments dot, tree.kind path = .path .stateField root segments dot ∧
      (path = id ∨ ∃ name, tree.kind id = .identifier name true (some path)) := by
  obtain ⟨hbehind, hstate⟩ := Option.filter_eq_some_iff.mp hpath
  unfold Tree.isStatePath at hstate
  split at hstate
  · next root segments dot hk =>
    refine ⟨root, segments, dot, hk, ?_⟩
    unfold Tree.pathBehind? at hbehind
    split at hbehind
    · exact .inl (Option.some.inj hbehind).symm
    · next name _ hid => exact .inr ⟨name, Option.some.inj hbehind ▸ hid⟩
    · cases hbehind
  · cases hstate

/-- **An operand that must be basic.** -/
theorem basicOperand_traced (hid : Visits tree visitor id) :
    Traced setting (tree.Holds id) (fun limit => basicOperand (visitor limit) id) () := by
  refine .inTree_bind ?_
  split
  · next path hpath =>
    obtain ⟨root, segments, dot, hk, -⟩ := statePathBehind_cases hpath
    have hbehind := holds_of_pathBehind hwf (Option.filter_eq_some_iff.mp hpath).1
    have hroot := (hid.of_holds hbehind).of_holds (holds_root hwf hk)
    exact (statePath_traced hwf setting hk hroot false).lift hbehind
  · exact hid.visit setting

/-- **An operand is checked, and visited again if it is in order.** If it is a path, its variables come
into use when it is checked, and are met again further down. If not, the check does nothing. -/
theorem operand_tracks (hdescends : Descends tree visitor) (hid : Visits tree visitor id) :
    ∃ valid N t M u,
      (∀ inner, N inner → tree.Holds id inner) ∧ (∀ inner, M inner → tree.Holds id inner) ∧
        Tracks setting N (fun limit => basicPath (visitor limit) id) valid t ∧
        Tracks setting M (fun limit => if valid then visitor limit id else pure ()) () u ∧
        t.Before N M u := by
  cases hpath : tree.statePathBehind? id with
  | none =>
    obtain ⟨u, hu⟩ := hid.visit setting
    refine ⟨true, fun _ => False, .empty, _, u, fun _ h => h.elim, fun _ h => h, ?_, hu, ?_⟩
    · exact .inTree_bind (by rw [hpath]; exact .pure true)
    · exact .of_apart (fun _ h => absurd h List.not_mem_nil) hu.within fun _ h => h.elim
  | some path =>
    obtain ⟨root, segments, dot, hk, hcases⟩ := statePathBehind_cases hpath
    have hbehind := holds_of_pathBehind hwf (Option.filter_eq_some_iff.mp hpath).1
    have hinside : ∀ inner, tree.Holds path inner → tree.Holds id inner := fun _ => hbehind.trans
    obtain ⟨uses, reach, htracks⟩ := statePath_tracks hwf setting hk
      ((hid.of_holds hbehind).of_holds (holds_root hwf hk))
    obtain ⟨valid, found, hfirst⟩ := htracks false
    replace hfirst := hfirst.mono hinside
    have hcheck : Tracks setting (tree.Holds id) (fun limit => basicPath (visitor limit) id) valid
        ⟨found, uses, reach⟩ := .inTree_bind (by rw [hpath]; exact hfirst)
    cases valid with
    | false =>
      refine ⟨false, _, _, fun _ => False, .empty, fun _ h => h, fun _ h => h.elim, hcheck, .pure (), ?_⟩
      exact .of_apart hcheck.within (fun _ h => absurd h List.not_mem_nil) fun _ _ h => h
    | true =>
      obtain ⟨valid, found', hsecond⟩ := htracks true
      -- The path lies one level further down, and two below a virtual variable.
      obtain ⟨u, depth, huses, hagain⟩ : ∃ u depth,
          u.uses = uses.map (fun entry => (entry.1 + depth, entry.2)) ∧
          Tracks setting (tree.Holds id) (fun limit => visitor limit id) () u := by
        have hvisit : Tracks setting (tree.Holds path) (fun limit => visitor limit path) ()
            (Trace.deeper ⟨found', uses, reach⟩) :=
          hdescends setting path _ (by simp [hk]) (.kindOf_bind (by rw [hk]; exact hsecond.discard))
        rcases hcases with rfl | ⟨name, hvirtual⟩
        · exact ⟨_, 1, rfl, hvisit⟩
        · refine ⟨_, 2, ?_, hdescends setting id _ (by simp [hvirtual])
            (.kindOf_bind (by rw [hvirtual]; exact (hvisit.mono hinside).answer ()))⟩
          simp [Trace.deeper, sink, Function.comp_def]
      have hnodes : u.nodes = (⟨found, uses, reach⟩ : Trace).nodes := by
        rw [Trace.nodes, huses, List.map_map]
        rfl
      refine ⟨true, _, _, _, u, fun _ h => h, fun _ h => h, hcheck, hagain,
        ⟨fun entry hmem _ => ?_, ?_, ?_⟩⟩
      · rw [huses] at hmem
        obtain ⟨first, hfirst, rfl⟩ := List.mem_map.mp hmem
        exact ⟨first, hfirst, rfl, Nat.le_add_right _ _⟩
      · exact fun inner hmem _ => hnodes ▸ hmem
      · exact fun inner hmem _ => hnodes ▸ hmem

/-- **Both operands are checked first**, then those that are in order are visited. -/
theorem basicOperands_sweeps (hdescends : Descends tree visitor) {left right : NodeId}
    (hleft : Visits tree visitor left) (hright : Visits tree visitor right) :
    Sweeps setting [left, right] (fun limit => basicOperands (visitor limit) left right) := by
  intro hpairwise
  have hapart : tree.Apart left right := by simpa using hpairwise
  obtain ⟨valid, N, t, M, u, hN, hM, hp, hv, hbefore⟩ := operand_tracks hwf setting hdescends hleft
  obtain ⟨valid', N', t', M', u', hN', hM', hp', hv', hbefore'⟩ :=
    operand_tracks hwf setting hdescends hright
  have happart : ∀ {K K' : NodeId → Prop}, (∀ inner, K inner → tree.Holds left inner) →
      (∀ inner, K' inner → tree.Holds right inner) → ∀ inner, K inner → ¬K' inner :=
    fun hK hK' inner hk hk' => hapart inner (hK inner hk) (hK' inner hk')
  have hvisits := hv.bind (f := fun limit _ => if valid' then visitor limit right else pure ()) hv'
    (.of_apart hv.within hv'.within (happart hM hM'))
  have hright := hp'.bind (f := fun limit valid' => (if valid then visitor limit left else pure ()) >>=
    fun _ => if valid' then visitor limit right else pure ()) hvisits
    (.andThen (.of_apart hp'.within hv.within fun inner hn hm => happart hM hN' inner hm hn) hbefore')
  have hall := hp.bind (f := fun limit valid => basicPath (visitor limit) right >>= fun valid' =>
    (if valid then visitor limit left else pure ()) >>=
      fun _ => if valid' then visitor limit right else pure ()) hright
    (.andThen (.of_apart hp.within hp'.within (happart hN hN'))
      (.andThen hbefore (.of_apart hp.within hv'.within (happart hN hM'))))
  refine ⟨_, (hall.congr fun limit env s _ => ?_).mono fun inner h => ?_⟩
  · show basicOperands (visitor limit) left right env s = _
    rw [basicOperands, bind_run, bind_run, bind_run, bind_run]
    cases (basicPath (visitor limit) left env s).1 <;> rfl
  · rw [Tree.below_cons, Tree.below_cons]
    rcases h with h | h | h | h
    · exact .inl (hN inner h)
    · exact .inr (.inl (hN' inner h))
    · exact .inl (hM inner h)
    · exact .inr (.inl (hM' inner h))

end

end Check

end Jpql
