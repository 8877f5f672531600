import Jpql.Proofs.Check.Chain
import Jpql.Proofs.Check.TreeReport

/-! # Reports on variables that are declared twice

Only the end of a statement or subquery reports variables that are declared more than once, each at each
of its declarations (`Tree.doubles`). All that a check does on its way reports what the subqueries it has
been through declare twice, and nothing else of that kind.

* `Check.Input.Doubles`: an operation reports what is declared twice below certain nodes.
* `Check.Input.visitTo_doubles`: so does the visitor for any number of levels, at its node.
* `Check.Input.mem_checkTree_iff`: a check of a tree reports what is declared twice in its statements. -/

namespace Jpql

namespace Tree

/-- The problem of a variable that is declared more than once, at one of its declarations. -/
def duplicateAt (tree : Tree) (id : NodeId) : Problem :=
  ⟨.variableDuplicate, [tree.variableText id], tree.span id, some id⟩

/-- **What a statement or subquery declares more than once**: a problem at each of the declarations. -/
def doubles (tree : Tree) (statement : NodeId) : List Problem :=
  (((Scope.ofStatement tree statement).addTo .empty).duplicates.flatMap (·.2)).map tree.duplicateAt

/-- Other nodes declare nothing. -/
theorem doubles_eq_nil {tree : Tree} {id : NodeId} (h : (tree.kind id).isStatement = false) :
    tree.doubles id = [] := by
  have hscope : Scope.ofStatement tree id = ⟨[], []⟩ := by
    unfold Scope.ofStatement
    cases hk : tree.kind id <;> rw [hk] at h <;> first | rfl | cases h
  rw [doubles, hscope]
  rfl

end Tree

theorem QueryContext.duplicates_eq {context : QueryContext} {statement : NodeId}
    (h : context.innermost = Scope.ofStatement context.tree statement) :
    context.duplicates = context.tree.doubles statement := by
  rw [duplicates, localVariables, h]
  rfl

namespace Check.Input

variable (q : Input)

/-- The problem is with a variable that a statement below one of the nodes declares twice. -/
def Doubled (ids : List NodeId) (problem : Problem) : Prop :=
  ∃ statement, q.tree.Below ids statement ∧ problem ∈ q.tree.doubles statement

/-- **From `s` to `t` it is reported what is declared twice below the nodes**, and nothing else of that
kind, unless something lies too deep. -/
structure Doubling (ids : List NodeId) (s t : State) : Prop where
  context : t.context = s.context
  exceeded : t.exceeded = false → s.exceeded = false
  reported : t.exceeded = false → ∀ problem, problem.key = .variableDuplicate →
    (problem ∈ t.problems ↔ problem ∈ s.problems ∨ q.Doubled ids problem)

/-- **An operation reports what is declared twice below the nodes.** -/
def Doubles {α : Type} (ids : List NodeId) (p : Checker α) : Prop :=
  ∀ s, s.context.tree = q.tree → q.Doubling ids s (p q.env s).2

/-- A node of the statement, but not the statement itself. -/
structure IsInner (id : NodeId) : Prop where
  held : q.tree.Holds q.statement id
  inner : (q.tree.kind id).isStatement = true → id ≠ q.statement

/-- **What a visitor promises**: it reports what is declared twice at or below an inner node. -/
def Doubler (visit : Visitor) : Prop := ∀ id, q.IsInner id → q.Doubles [id] (visit id)

variable {q} {α β : Type} {ids others : List NodeId} {id child : NodeId} {visit : Visitor}
  {problem : Problem}

/-! ## Nodes with statements below -/

theorem not_doubled_nil : ¬q.Doubled [] problem := by
  rintro ⟨statement, h, -⟩
  exact Tree.below_nil.mp h

theorem doubled_append :
    q.Doubled (ids ++ others) problem ↔ q.Doubled ids problem ∨ q.Doubled others problem := by
  simp only [Doubled, Tree.below_append, or_and_right, exists_or]

/-- **What is declared twice at a node and below.** -/
theorem doubled_singleton :
    q.Doubled [id] problem ↔ problem ∈ q.tree.doubles id ∨ q.Doubled (q.tree.children id) problem := by
  constructor
  · rintro ⟨statement, hbelow, hmem⟩
    rw [Tree.below_cons, Tree.holds_iff q.isClean.wellFormed] at hbelow
    rcases hbelow with (rfl | hbelow) | hnil
    · exact .inl hmem
    · exact .inr ⟨statement, hbelow, hmem⟩
    · exact absurd hnil (by simp)
  · rintro (hmem | ⟨statement, hbelow, hmem⟩)
    · exact ⟨id, Tree.below_cons.mpr (.inl .refl), hmem⟩
    · exact ⟨statement, Tree.below_cons.mpr
        (.inl ((Tree.holds_iff q.isClean.wellFormed).mpr (.inr hbelow))), hmem⟩

/-- A node that is no statement declares nothing itself. -/
theorem doubled_children (h : (q.tree.kind id).isStatement = false) :
    q.Doubled [id] problem ↔ q.Doubled (q.tree.children id) problem := by
  rw [doubled_singleton, Tree.doubles_eq_nil h]
  exact or_iff_right List.not_mem_nil

/-- **No statement lies in a path.** -/
theorem not_doubled_part (h : (q.tree.kind id).isPathPart = true) : ¬q.Doubled [id] problem := by
  rintro ⟨statement, ⟨_, hid, hheld⟩, hmem⟩
  obtain rfl := List.mem_singleton.mp hid
  rw [Tree.doubles_eq_nil
    (NodeKind.not_isStatement_of_isPathPart (q.isClean.isPathPart_of_holds h hheld))] at hmem
  cases hmem

theorem IsInner.of_child (hid : q.tree.Holds q.statement id) (hc : child ∈ q.tree.children id) :
    q.IsInner child := ⟨held_of_child hid hc, fun _ => child_ne_statement hid hc⟩

theorem IsInner.of_part (hid : q.tree.Holds q.statement id) (h : (q.tree.kind id).isPathPart = true) :
    q.IsInner id := by
  refine ⟨hid, fun hstatement => ?_⟩
  rw [NodeKind.not_isStatement_of_isPathPart h] at hstatement
  cases hstatement

/-! ## Operations -/

namespace Doubles

variable {p : Checker α} {f : α → Checker β}

/-- Only what is declared twice matters. -/
theorem congr (h : q.Doubles ids p)
    (hsame : ∀ problem, q.Doubled ids problem ↔ q.Doubled others problem) : q.Doubles others p :=
  fun s hs => ⟨(h s hs).context, (h s hs).exceeded, fun ht problem hkey =>
    ((h s hs).reported ht problem hkey).trans (or_congr_right (hsame problem))⟩

/-- An operation that neither reports variables nor moves. -/
theorem quiet (h : ∀ s, (p q.env s).2.context = s.context ∧ (p q.env s).2.exceeded = s.exceeded ∧
      ∃ new, (p q.env s).2.problems = s.problems ++ new ∧
        ∀ problem ∈ new, problem.key ≠ .variableDuplicate) : q.Doubles [] p := by
  intro s _
  obtain ⟨hcontext, hexceeded, new, hproblems, hnew⟩ := h s
  refine ⟨hcontext, fun ht => hexceeded ▸ ht, fun _ problem hkey => ?_⟩
  rw [hproblems, List.mem_append]
  exact or_congr_right (iff_of_false (fun hmem => hnew problem hmem hkey) not_doubled_nil)

theorem pure {a : α} : q.Doubles [] (Pure.pure a) :=
  quiet fun _ => ⟨rfl, rfl, [], (List.append_nil _).symm, by simp⟩

theorem recordAll {problems : List Problem} (h : ∀ problem ∈ problems, problem.key ≠ .variableDuplicate) :
    q.Doubles [] (recordAll problems) := quiet fun _ => ⟨rfl, rfl, problems, rfl, h⟩

theorem recordAt {key : ProblemKey} (h : key ≠ .variableDuplicate) : q.Doubles [] (recordAt key id) :=
  quiet fun _ => ⟨rfl, rfl, [_], rfl, by simpa using h⟩

theorem unuse : q.Doubles [] (unuse id) :=
  quiet fun _ => ⟨rfl, rfl, [], (List.append_nil _).symm, by simp⟩

theorem use : q.Doubles [] (use id) := by
  refine quiet fun s => ?_
  rw [use_run]
  split <;> exact ⟨rfl, rfl, [], (List.append_nil _).symm, by simp⟩

/-- **One operation after the other.** -/
theorem bind (hp : q.Doubles ids p) (hf : ∀ a, q.Doubles others (f a)) :
    q.Doubles (ids ++ others) (p >>= f) := by
  intro s hs
  have hfirst := hp s hs
  have hlast := hf (p q.env s).1 (p q.env s).2 (by rw [hfirst.context, hs])
  refine ⟨hlast.context.trans hfirst.context, fun ht => hfirst.exceeded (hlast.exceeded ht),
    fun ht problem hkey => ?_⟩
  rw [doubled_append, ← or_assoc, ← hfirst.reported (hlast.exceeded ht) problem hkey]
  exact hlast.reported ht problem hkey

/-- An operation that reports no variables comes last. -/
theorem bind_right (hp : q.Doubles ids p) (hf : ∀ a, q.Doubles [] (f a)) : q.Doubles ids (p >>= f) :=
  List.append_nil ids ▸ hp.bind hf

theorem discard (hp : q.Doubles ids p) : q.Doubles ids (discard p) :=
  show q.Doubles ids (p >>= fun _ => Pure.pure PUnit.unit) from hp.bind_right fun _ => .pure

theorem get_bind {f : State → Checker β} (h : ∀ s, q.Doubles ids (f s)) : q.Doubles ids (get >>= f) :=
  fun s hs => h s s hs

theorem ask_bind {g : QueryContext → α} (h : ∀ context, q.Doubles ids (f (g context))) :
    q.Doubles ids (ask g >>= f) := fun s hs => h s.context s hs

theorem inTree_bind {g : Tree → α} (h : q.Doubles ids (f (g q.tree))) : q.Doubles ids (inTree g >>= f) :=
  fun s hs => by
    rw [inTree_run, hs]
    exact h s hs

theorem kindOf_bind {f : NodeKind → Checker β} (h : q.Doubles ids (f (q.tree.kind id))) :
    q.Doubles ids (kindOf id >>= f) := inTree_bind h

/-- **What is reported below a node that is no statement** is reported at the node. -/
theorem of_children (h : q.Doubles (q.tree.children id) p)
    (hkind : (q.tree.kind id).isStatement = false) : q.Doubles [id] p :=
  h.congr fun _ => (doubled_children hkind).symm

/-- In a path there is nothing to report. -/
theorem of_part (h : q.Doubles [] p) (hpart : (q.tree.kind id).isPathPart = true) : q.Doubles [id] p :=
  h.congr fun _ => iff_of_false not_doubled_nil (not_doubled_part hpart)

/-- An operation at each of some nodes. -/
theorem forM {items : List α} (target : α → NodeId) {op : α → Checker Unit}
    (h : ∀ item ∈ items, q.Doubles [target item] (op item)) :
    q.Doubles (items.map target) (items.forM op) := by
  induction items with
  | nil => exact .pure
  | cons item items ih =>
    exact (h item List.mem_cons_self).bind fun _ => ih fun other ho => h other (List.mem_cons_of_mem _ ho)

theorem visitAll (h : ∀ id ∈ ids, q.Doubles [id] (visit id)) : q.Doubles ids (visitAll visit ids) := by
  have hall := forM (fun id : NodeId => id) h
  rwa [List.map_id'] at hall

/-- A reference that is not in order is no problem with a variable. -/
theorem recordOption {key? : Option ProblemKey} (h : ∀ key, key? = some key → key.isReference = true) :
    q.Doubles [] (match key? with
      | some key => Check.recordAt key id
      | none => Pure.pure ()) := by
  cases key? with
  | none => exact .pure
  | some key =>
    refine .recordAt ?_
    rintro rfl
    cases h _ rfl

end Doubles

/-! ## Paths and operands -/

section

variable (hv : q.Doubler visit)

include hv

/-- A visit to a part of a path. -/
theorem Doubler.part (hid : q.tree.Holds q.statement id) (hpart : (q.tree.kind id).isPathPart = true) :
    q.Doubles [] (visit id) :=
  (hv id (.of_part hid hpart)).congr fun _ => iff_of_false (not_doubled_part hpart) not_doubled_nil

/-- A visit to the root of a path. -/
theorem Doubler.root {kind : PathKind} {root : NodeId} {segments : List (Located String)} {dot : Bool}
    (hid : q.tree.Holds q.statement id) (hk : q.tree.kind id = .path kind root segments dot) :
    q.Doubles [] (visit root) :=
  have hc := root_mem hk
  hv.part (held_of_child hid hc) (q.isClean.isPathPart_of_child hc (by rw [hk]; rfl))

theorem statePath_doubles (hid : q.IsInner id) (associationAllowed : Bool) :
    q.Doubles [id] (statePath visit id associationAllowed) := by
  refine .kindOf_bind ?_
  split
  · next hk =>
    refine .of_part ((hv.root hid.held hk).bind fun _ => .inTree_bind ?_) (by rw [hk]; rfl)
    split
    · exact .pure
    · refine .ask_bind fun context => ?_
      generalize hverdict : context.statePath _ _ _ = verdict
      cases verdict with
      | valid => exact .pure
      | invalid key =>
        refine (Doubles.recordAt ?_).bind fun _ => .pure
        rintro rfl
        cases QueryContext.statePath_isReference hverdict
      | constant known enum =>
        refine Doubles.unuse.bind fun _ => ?_
        split
        · exact (Doubles.recordAll (by simp)).bind fun _ => .pure
        · exact .pure
  · exact (hv id hid).bind_right fun _ => .pure

omit hv in
/-- What has a path behind it is part of a path. -/
theorem isPathPart_of_behind {path : NodeId} (hb : q.tree.pathBehind? id = some path) :
    (q.tree.kind id).isPathPart = true := by
  rcases behind_cases hb with rfl | ⟨name, hk⟩
  · obtain ⟨kind, root, segments, dot, hk, -⟩ := isPath_behind hb
    rw [hk]
    rfl
  · rw [hk]
    rfl

theorem collectionPath_doubles (hid : q.IsInner id) (collectionOnly : Bool) :
    q.Doubles [id] (collectionPath visit id collectionOnly) := by
  refine .inTree_bind ?_
  cases hb : q.tree.pathBehind? id with
  | none => exact hv id hid
  | some path =>
    refine .of_part (.kindOf_bind ?_) (isPathPart_of_behind hb)
    split
    · next hk =>
      refine (hv.root (held_of_behind hid.held hb) hk).bind fun _ => .inTree_bind ?_
      split
      · exact .pure
      · exact .ask_bind fun context => .recordOption fun key =>
          QueryContext.collectionPath?_isReference
    · exact .pure

theorem updateTarget_doubles (hid : q.IsInner id) : q.Doubles [id] (updateTarget visit id) := by
  refine .inTree_bind ?_
  cases hb : q.tree.pathBehind? id with
  | none => exact hv id hid
  | some path =>
    have hheld := held_of_behind hid.held hb
    refine .of_part (.kindOf_bind ?_) (isPathPart_of_behind hb)
    split
    · next hk =>
      refine (hv.root hheld hk).bind fun _ => .kindOf_bind ?_
      split
      · exact .ask_bind fun context => .recordOption fun key => QueryContext.updateTarget?_isReference
      · exact .pure
    · obtain ⟨kind, root, segments, dot, hk, -⟩ := isPath_behind hb
      exact hv.part hheld (by rw [hk]; rfl)

/-- A path that must be basic is part of a path with all that it holds. -/
theorem statePathBehind_doubles {path : NodeId} (hid : q.IsInner id)
    (hb : q.tree.statePathBehind? id = some path) :
    (q.tree.kind id).isPathPart = true ∧ q.Doubles [] (statePath visit path false) := by
  obtain ⟨hbehind, -⟩ := Option.filter_eq_some_iff.mp hb
  obtain ⟨kind, root, segments, dot, hk, -⟩ := isPath_behind hbehind
  have hpart : (q.tree.kind path).isPathPart = true := by rw [hk]; rfl
  refine ⟨isPathPart_of_behind hbehind, ?_⟩
  exact (statePath_doubles hv (.of_part (held_of_behind hid.held hbehind) hpart) false).congr
    fun _ => iff_of_false (not_doubled_part hpart) not_doubled_nil

theorem basicOperand_doubles (hid : q.IsInner id) : q.Doubles [id] (basicOperand visit id) := by
  refine .inTree_bind ?_
  cases hb : q.tree.statePathBehind? id with
  | none => exact hv id hid
  | some path =>
    obtain ⟨hpart, hpath⟩ := statePathBehind_doubles hv hid hb
    exact .of_part hpath.discard hpart

/-- **An operand is checked as a path, or visited later.** -/
theorem basicPath_bind {f : Bool → Checker β} (hid : q.IsInner id)
    (hf : ∀ valid, (valid = false → (q.tree.kind id).isPathPart = true) → q.Doubles ids (f valid)) :
    q.Doubles ids (basicPath visit id >>= f) := by
  intro s hs
  cases hb : q.tree.statePathBehind? id with
  | none =>
    have hrun : (basicPath visit id >>= f) q.env s = f true q.env s := by
      rw [bind_run, basicPath, inTree_run, hs, hb]
      rfl
    rw [hrun]
    exact hf true (fun h => nomatch h) s hs
  | some path =>
    have hrun : (basicPath visit id >>= f) q.env s = (statePath visit path false >>= f) q.env s := by
      rw [bind_run, basicPath, inTree_run, hs, hb]
      rfl
    obtain ⟨hpart, hpath⟩ := statePathBehind_doubles hv hid hb
    rw [hrun]
    exact hpath.bind (fun valid => hf valid fun _ => hpart) s hs

theorem basicOperands_doubles {left right : NodeId} (hleft : q.IsInner left) (hright : q.IsInner right) :
    q.Doubles [left, right] (basicOperands visit left right) := by
  have hvisit : ∀ {id : NodeId} (valid : Bool), q.IsInner id →
      (valid = false → (q.tree.kind id).isPathPart = true) →
      q.Doubles [id] (if valid then visit id else pure ()) := by
    intro id valid hid hpart
    cases valid with
    | true => exact hv id hid
    | false => exact .of_part .pure (hpart rfl)
  refine basicPath_bind hv hleft fun leftValid hleftPart => ?_
  refine basicPath_bind hv hright fun rightValid hrightPart => ?_
  have hboth : q.Doubles ([left] ++ [right]) ((if leftValid then visit left else pure ()) >>= fun _ =>
      if rightValid then visit right else pure ()) :=
    (hvisit leftValid hleft hleftPart).bind fun _ => hvisit rightValid hright hrightPart
  cases leftValid <;> exact hboth

/-! ## Children -/

theorem association_doubles (hid : q.IsInner id) : q.Doubles [id] (association visit id) := by
  refine .kindOf_bind ?_
  split
  · next inner _ entityType hk =>
    have hchildren : q.tree.children id = [inner, entityType] := by rw [Tree.children, hk]; rfl
    have hpart : (q.tree.kind id).isPathPart = true := by rw [hk]; rfl
    have hinner : inner ∈ q.tree.children id := by simp [hchildren]
    have htype : entityType ∈ q.tree.children id := by simp [hchildren]
    have hpath : (q.tree.kind inner).isPathPart = true := q.isClean.isPathPart_of_child hinner hpart
    refine .of_part ((hv.part (held_of_child hid.held htype)
      (q.isClean.isPathPart_of_child htype hpart)).bind fun _ => ?_) hpart
    exact (collectionPath_doubles hv (.of_child hid.held hinner) false).congr fun _ =>
      iff_of_false (not_doubled_part hpath) not_doubled_nil
  · exact collectionPath_doubles hv hid false

theorem meet_doubles {demand : Demand} (hid : q.IsInner id) : q.Doubles [id] (meet visit (id, demand)) := by
  cases demand with
  | value => exact hv id hid
  | basic => exact basicOperand_doubles hv hid
  | association => exact association_doubles hv hid
  | collection => exact collectionPath_doubles hv hid true
  | target => exact updateTarget_doubles hv hid
  | declared =>
    have hset : ∀ registers, q.Doubles [] (modify ({ · with registers }) : Checker Unit) := fun _ =>
      .quiet fun _ => ⟨rfl, rfl, [], (List.append_nil _).symm, by simp⟩
    have hvisit : q.Doubles [id] (visitOption visit (some id)) :=
      .visitAll fun other ho => List.mem_singleton.mp ho ▸ hv id hid
    exact .get_bind fun s => (hset false).bind fun _ => hvisit.bind_right fun _ => hset s.registers

theorem visitChildren_doubles (hid : q.tree.Holds q.statement id) :
    q.Doubles (q.tree.children id) (visitChildren visit id) :=
  .inTree_bind (.visitAll fun child hc => hv child (.of_child hid hc))

theorem demands_doubles (hid : q.tree.Holds q.statement id) :
    q.Doubles (q.tree.children id) ((q.tree.kind id).demands.forM (meet visit)) := by
  rw [Tree.children, ← NodeKind.map_fst_demands]
  exact .forM (fun item : NodeId × Demand => item.1) fun item hmem =>
    meet_doubles hv (.of_child hid (NodeKind.mem_children_of_mem_demands hmem))

theorem chain_doubles (hid : q.IsInner id) :
    q.Doubles [id] (inTree (·.chainOperands id) >>= visitAll visit) := by
  have hwf := q.isClean.wellFormed
  have hchain := Tree.chain_operands hwf id
  have hplace : ∀ operand ∈ q.tree.chainOperands id, q.IsInner operand :=
    hchain.closed q.IsInner hid fun node child _ hc hnode => .of_child hnode.held hc
  have hall : q.Doubles (q.tree.chainOperands id) (visitAll visit (q.tree.chainOperands id)) :=
    .visitAll fun operand hmem => hv operand (hplace operand hmem)
  refine .inTree_bind (hall.congr fun problem => exists_congr fun statement => and_congr_left fun hmem => ?_)
  rw [Tree.below_cons]
  refine ⟨fun ⟨operand, ho, hheld⟩ => .inl ((hchain.below operand ho).trans hheld), fun h => ?_⟩
  have hheld : q.tree.Holds id statement := h.resolve_right (by simp)
  refine (hchain.covers statement hheld).resolve_right fun hlogical => ?_
  rw [Tree.doubles_eq_nil (NodeKind.not_isStatement_of_isOrdinary
    (NodeKind.isOrdinary_of_isLogical hlogical))] at hmem
  cases hmem

/-! ## Statements -/

omit hv in
/-- **The end of a statement** reports what it declares twice. -/
theorem checkVariables_doubled {used : List NodeId} {s : State} {statement : NodeId}
    (htree : s.context.tree = q.tree) (hscope : s.context.innermost = Scope.ofStatement q.tree statement)
    (hkey : problem.key = .variableDuplicate) :
    problem ∈ (checkVariables used q.env s).2.problems ↔
      problem ∈ s.problems ∨ problem ∈ q.tree.doubles statement := by
  rw [checkVariables_run, List.mem_append, List.mem_append,
    QueryContext.duplicates_eq (by rw [hscope, htree]), htree]
  refine or_iff_left fun hmem => ?_
  obtain ⟨_, -, rfl⟩ := List.mem_map.mp hmem
  cases hkey

/-- **A subquery reports what is declared twice in it and below.** -/
theorem checkSubquery_doubles (hid : q.IsInner id) : q.Doubles [id] (checkSubquery visit id) := by
  intro s hs
  have hinner := visitChildren_doubles hv hid.held { s with context := s.context.enter id } hs
  rw [checkSubquery_run]
  dsimp only at hinner ⊢
  generalize (visitChildren visit id q.env { s with context := s.context.enter id }).2 = inner at hinner ⊢
  refine ⟨?_, hinner.exceeded, fun ht problem hkey => ?_⟩
  · show inner.context.leave = s.context
    rw [hinner.context]
    exact QueryContext.leave_enter _ _
  · have htree : inner.context.tree = q.tree := by rw [hinner.context]; exact hs
    have hscope : inner.context.innermost = Scope.ofStatement q.tree id := by
      rw [hinner.context, ← hs]
      rfl
    refine (checkVariables_doubled htree hscope hkey).trans ?_
    rw [hinner.reported ht problem hkey, or_assoc, doubled_singleton]
    exact or_congr_right or_comm

/-! ## All kinds -/

theorem index_doubles {argument : NodeId} (hid : q.IsInner argument) :
    q.Doubles [argument] (index visit argument) := by
  refine (hv argument hid).bind_right fun _ => .kindOf_bind ?_
  split
  · refine .ask_bind fun context => ?_
    split
    · exact .recordAt (by simp)
    · exact .pure
  · exact .pure

theorem variableUse_doubles {name : String} {isVirtual : Bool} {path : Option NodeId} (hid : q.IsInner id)
    (hk : q.tree.kind id = .identifier name isVirtual path) :
    q.Doubles [id] (variableUse visit id name isVirtual path) := by
  cases isVirtual with
  | true =>
    have hchildren : q.tree.children id = path.toList := by rw [Tree.children, hk]; rfl
    refine .of_children ?_ (by rw [hk]; rfl)
    rw [hchildren]
    exact .visitAll fun child hc => hv child (.of_child hid.held (hchildren ▸ hc))
  | false =>
    refine .of_part (.get_bind fun s => ?_) (by rw [hk]; rfl)
    split
    · refine .ask_bind fun context => .inTree_bind ?_
      split
      · exact .use
      · exact .pure
    · exact .pure

/-- **What a check does at an inner node** reports what is declared twice there and below. -/
theorem visitKind_doubles (hid : q.IsInner id) : q.Doubles [id] (visitKind visit id) := by
  have hleaf : ∀ {p : Checker Unit}, q.tree.children id = [] → (q.tree.kind id).isStatement = false →
      q.Doubles [] p → q.Doubles [id] p := fun hchildren hkind h => .of_children (hchildren ▸ h) hkind
  by_cases huniform : (q.tree.kind id).isUniform = true
  · intro s hs
    rw [visitKind_demands huniform hs]
    exact Doubles.of_children (demands_doubles hv hid.held)
      (NodeKind.not_isStatement_of_isUniform huniform) s hs
  obtain ⟨hquery, houter, hroot⟩ := not_outer hid.held hid.inner
  refine .kindOf_bind ?_
  cases hk : q.tree.kind id with
  | query statement leftover => exact absurd hk (hquery statement leftover)
  | selectStatement | updateStatement | deleteStatement =>
    rw [hk] at houter
    cases houter
  | simpleSelectStatement =>
    refine .inTree_bind ?_
    split
    · next hparent => exact absurd (beq_iff_eq.mp hparent) (hroot (by rw [hk]; rfl))
    · exact checkSubquery_doubles hv hid
  | fromClause | simpleFromClause =>
    have horder : q.Doubles [] (declarationOrder id) := .ask_bind fun _ => .recordAll (by simp)
    exact .of_children (horder.bind fun _ => visitChildren_doubles hv hid.held) (by rw [hk]; rfl)
  | schemaName =>
    exact hleaf (by rw [Tree.children, hk]; rfl) (by rw [hk]; rfl)
      (.ask_bind fun context => .recordOption fun key => QueryContext.schemaName?_isReference)
  | entityType =>
    refine hleaf (by rw [Tree.children, hk]; rfl) (by rw [hk]; rfl) (.ask_bind fun context => ?_)
    split
    · exact .recordAt (by simp)
    · exact .pure
  | identifier => exact variableUse_doubles hv hid hk
  | index argument =>
    have hchildren : q.tree.children id = [argument] := by rw [Tree.children, hk]; rfl
    refine .of_children ?_ (by rw [hk]; rfl)
    rw [hchildren]
    exact index_doubles hv (.of_child hid.held (by rw [hchildren]; exact List.mem_cons_self))
  | logical => exact chain_doubles hv hid
  | comparison left operator right =>
    have hordering : operator.isOrdering = true := by simpa [hk, NodeKind.isUniform] using huniform
    have hchildren : q.tree.children id = [left, right] := by rw [Tree.children, hk]; rfl
    refine .of_children ?_ (by rw [hk]; rfl)
    dsimp only
    rw [hchildren, if_pos hordering]
    exact basicOperands_doubles hv (.of_child hid.held (by simp [hchildren]))
      (.of_child hid.held (by simp [hchildren]))
  | arithmetic operation left right =>
    have hchildren : q.tree.children id = [left, right] := by rw [Tree.children, hk]; rfl
    refine .of_children ?_ (by rw [hk]; rfl)
    rw [hchildren]
    exact basicOperands_doubles hv (.of_child hid.held (by simp [hchildren]))
      (.of_child hid.held (by simp [hchildren]))
  | path kind =>
    cases kind with
    | stateField => exact (statePath_doubles hv hid true).discard
    | collectionValued => exact .of_part (hv.root hid.held hk) (by rw [hk]; rfl)
  | _ => exact absurd (by rw [hk]; rfl) huniform

end

/-! ## Levels -/

/-- What is left out is noted, so that nothing is claimed from there on. -/
theorem leaveOut_exceeded (id : NodeId) (env : Env) (s : State) :
    (leaveOut id env s).2.context = s.context ∧ (leaveOut id env s).2.exceeded = true := by
  obtain ⟨context, problems, used, registers, exceeded⟩ := s
  cases exceeded <;> exact ⟨rfl, rfl⟩

theorem leaveOut_doubles (id : NodeId) : q.Doubles ids (leaveOut id) := by
  intro s _
  obtain ⟨hcontext, hexceeded⟩ := leaveOut_exceeded id q.env s
  refine ⟨hcontext, fun ht => ?_, fun ht => ?_⟩ <;>
  · rw [hexceeded] at ht
    cases ht

/-- **The visitor for any number of levels** reports what is declared twice. -/
theorem visitTo_doubles (levels : Nat) : q.Doubler (visitTo levels) := by
  induction levels with
  | zero => exact fun id _ => leaveOut_doubles id
  | succ levels ih => exact fun id hid => visitKind_doubles ih hid

/-! ## The whole tree -/

/-- A visit to the statement that the text consists of leaves its own variables to the root. -/
theorem visitStatement_doubles (levels : Nat) (hkind : (q.tree.kind q.statement).isStatement = true) :
    q.Doubles (q.tree.children q.statement) (visitTo levels q.statement) := by
  cases levels with
  | zero => exact leaveOut_doubles _
  | succ levels =>
    have hchildren := visitChildren_doubles (visitTo_doubles levels) (.refl : q.tree.Holds q.statement _)
    refine .kindOf_bind ?_
    cases hk : q.tree.kind q.statement <;> rw [hk] at hkind <;> first
      | exact absurd hkind Bool.false_ne_true
      | exact hchildren
      | (refine .inTree_bind ?_
         rw [if_pos (beq_iff_eq.mpr q.isClean.parent_statement)]
         exact hchildren)

/-- **A check from the root on** reports what is declared twice in the tree. -/
theorem visitRoot_doubling (levels : Nat) {s : State} (hs : s.context = .ofTree q.tree q.metamodel) :
    q.Doubling [q.tree.root] s (visitTo levels q.tree.root q.env s).2 := by
  have htree : s.context.tree = q.tree := by rw [hs]; rfl
  have hroot : ∀ problem, q.Doubled [q.tree.root] problem ↔ q.Doubled [q.statement] problem :=
    fun problem => by
      have hchildren : q.tree.children q.tree.root = [q.statement] := by
        rw [Tree.children, q.isClean.root]
        rfl
      rw [doubled_children (by rw [q.isClean.root]; rfl), hchildren]
  cases levels with
  | zero => exact leaveOut_doubles _ s htree
  | succ levels =>
    rw [visitRoot_run levels htree, kindOf_run]
    cases hkind : (q.tree.kind q.statement).isStatement with
    | false =>
      have hvisit := ((visitTo_doubles levels q.statement ⟨.refl, fun h => by
        rw [hkind] at h
        cases h⟩).congr fun problem => (hroot problem).symm) s htree
      rw [hvisit.context, htree, hkind]
      exact hvisit
    | true =>
      have hvisit := visitStatement_doubles levels hkind s htree
      rw [hvisit.context, htree, hkind]
      generalize (visitTo levels q.statement q.env s).2 = t at hvisit
      refine ⟨hvisit.context, hvisit.exceeded, fun ht problem hkey => ?_⟩
      have hscope : t.context.innermost = Scope.ofStatement q.tree q.statement := by
        rw [hvisit.context, hs, ← q.isClean.statementOf_eq]
        rfl
      refine (checkVariables_doubled (by rw [hvisit.context, htree]) hscope hkey).trans ?_
      rw [hvisit.reported ht problem hkey, or_assoc, hroot, doubled_singleton]
      exact or_congr_right or_comm

/-- **A check of a tree reports what is declared twice** in the statements of the tree, unless something
lies too deep. -/
theorem mem_checkTree_iff
    (hshallow : ∀ problem ∈ checkTree (.ofTree q.tree q.metamodel) q.env, problem.key ≠ .traversalTooDeep)
    (hkey : problem.key = .variableDuplicate) :
    problem ∈ checkTree (.ofTree q.tree q.metamodel) q.env ↔
      ∃ statement < q.tree.size, problem ∈ q.tree.doubles statement := by
  have hwf := q.isClean.wellFormed
  obtain ⟨scope, new, hstep⟩ := visitTo_root (q := q)
  have hproblems : checkTree (.ofTree q.tree q.metamodel) q.env = new := hstep.problems
  rw [hproblems] at hshallow
  have hnone : new.countP (·.key == .traversalTooDeep) = 0 :=
    List.countP_eq_zero.mpr fun problem hmem htoo => hshallow problem hmem (beq_iff_eq.mp htoo)
  have hdepth := hstep.depth
  rw [hnone, Nat.zero_add] at hdepth
  have hinside := Bool.toNat_eq_zero.mp hdepth.symm
  have hreported := (visitRoot_doubling q.env.maxDepth (s := .initial (.ofTree q.tree q.metamodel))
    rfl).reported hinside problem hkey
  refine hreported.trans ((or_iff_right List.not_mem_nil).trans ?_)
  refine exists_congr fun statement => and_congr_left fun hmem => ?_
  rw [Tree.below_cons]
  refine ⟨fun h => ?_, fun hlt => .inl (.of_root hwf hlt)⟩
  have hle := (h.resolve_right (by simp)).le hwf
  exact hwf.root_last ▸ Nat.lt_succ_of_le hle

end Check.Input

end Jpql
