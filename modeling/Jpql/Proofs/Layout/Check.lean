import Jpql.Proofs.Layout.Scope

/-! # Checks do not depend on the layout

A check of two trees that are alike goes through the same steps: it asks the same questions, gets the
same answers, and finds problems with the same causes at the same nodes.

* `Check.Together`: two checks have come equally far.
* `Check.Agree`, `Check.Lockstep`: two operations, or one operation on both sides, keep them together.
* `Check.visitKind_lockstep`: so does what is done at a node, given a visitor that does.
* `Tree.Alike.checkTree`: the problems of both trees have the same outlines. -/

namespace Jpql

namespace Check

/-- **Two checks, of `x` and `y`, have come equally far.** All uses noted so far are variables. -/
structure Together (x y : Tree) (s t : State) : Prop where
  context : s.context.Alike t.context
  left : s.context.tree = x
  right : t.context.tree = y
  problems : s.problems.map Problem.outline = t.problems.map Problem.outline
  used : s.used = t.used
  uses : ∀ id ∈ s.used, x.IsVariable id
  registers : s.registers = t.registers
  exceeded : s.exceeded = t.exceeded

theorem Together.tree {x y : Tree} {s t : State} (h : Together x y s t) : x.Alike y := by
  have htree := h.context.tree
  rwa [h.left, h.right] at htree

/-- **Two operations keep checks together** and end with results that satisfy `post`. -/
def Agree {α β : Type} (x y : Tree) (env : Env) (p : Checker α) (q : Checker β)
    (post : α → β → Prop) : Prop :=
  ∀ s t, Together x y s t → post (p env s).1 (q env t).1 ∧ Together x y (p env s).2 (q env t).2

/-- **An operation keeps checks together** and ends with the same result. -/
def Lockstep {α : Type} (x y : Tree) (env : Env) (p : Checker α) : Prop := Agree x y env p p Eq

variable {α β γ δ : Type} {x y : Tree} {env : Env}

/-! ## Composition -/

namespace Agree

variable {p : Checker α} {q : Checker β} {post : α → β → Prop}

theorem pure {a : α} {b : β} (h : post a b) :
    Agree x y env (Pure.pure a) (Pure.pure b) post := fun _ _ hs => ⟨h, hs⟩

theorem bind {f : α → Checker γ} {g : β → Checker δ} {last : γ → δ → Prop}
    (h : Agree x y env p q post) (hf : ∀ a b, post a b → Agree x y env (f a) (g b) last) :
    Agree x y env (p >>= f) (q >>= g) last := fun s t hs =>
  hf _ _ (h s t hs).1 _ _ (h s t hs).2

/-- Where the results are the same, what follows is compared for one result. -/
theorem same {p q : Checker α} {f : α → Checker γ} {g : α → Checker δ} {last : γ → δ → Prop}
    (h : Agree x y env p q Eq) (hf : ∀ a, Agree x y env (f a) (g a) last) :
    Agree x y env (p >>= f) (q >>= g) last :=
  h.bind fun a _ hab => hab ▸ hf a

theorem discard {p q : Checker α} (h : Agree x y env p q Eq) :
    Agree x y env (discard p) (discard q) Eq := fun s t hs => ⟨rfl, (h s t hs).2⟩

/-- A question to the trees has answers of its own on each side. -/
theorem inTree {f : Tree → α} {g : Tree → β} {k : α → Checker γ} {l : β → Checker δ}
    {last : γ → δ → Prop} (h : x.Alike y → Agree x y env (k (f x)) (l (g y)) last) :
    Agree x y env (Check.inTree f >>= k) (Check.inTree g >>= l) last := fun s t hs => by
  have hleft : (Check.inTree f >>= k) env s = k (f x) env s := by rw [← hs.left]; rfl
  have hright : (Check.inTree g >>= l) env t = l (g y) env t := by rw [← hs.right]; rfl
  rw [hleft, hright]
  exact h hs.tree s t hs

theorem kindOf {id : Nat} {k : NodeKind → Checker γ} {l : NodeKind → Checker δ}
    {last : γ → δ → Prop}
    (h : x.Alike y → Agree x y env (k (x.kind id)) (l (y.kind id)) last) :
    Agree x y env (Check.kindOf id >>= k) (Check.kindOf id >>= l) last := inTree h

/-- Each side sees its own state. -/
theorem get {k : State → Checker γ} {l : State → Checker δ} {last : γ → δ → Prop}
    (h : ∀ s t, Together x y s t → Agree x y env (k s) (l t) last) :
    Agree x y env (MonadState.get >>= k) (MonadState.get >>= l) last := fun s t hs => h s t hs s t hs

theorem read {k : Env → Checker γ} {l : Env → Checker δ} {last : γ → δ → Prop}
    (h : Agree x y env (k env) (l env) last) :
    Agree x y env (MonadReader.read >>= k) (MonadReader.read >>= l) last := h

end Agree

/-! ## Questions and notes -/

/-- A question whose answer does not depend on the layout. -/
theorem ask_same {f g : QueryContext → α} (h : ∀ a b : QueryContext, a.Alike b → f a = g b) :
    Agree x y env (ask f) (ask g) Eq := fun _ _ hs => ⟨h _ _ hs.context, hs⟩

theorem inTree_same {f : Tree → α} (h : ∀ a b : Tree, a.Alike b → f a = f b) :
    Lockstep x y env (inTree f) := ask_same fun _ _ h' => h _ _ h'.tree

/-- Problems with the same outlines are added. -/
theorem recordAll_agree {problems others : List Problem}
    (h : problems.map Problem.outline = others.map Problem.outline) :
    Agree x y env (recordAll problems) (recordAll others) Eq := fun s t hs =>
  ⟨rfl, { hs with
    problems := by
      show (s.problems ++ problems).map _ = (t.problems ++ others).map _
      rw [List.map_append, List.map_append, hs.problems, h] }⟩

theorem recordAt_lockstep (key : ProblemKey) (id : Nat) : Lockstep x y env (recordAt key id) :=
  .inTree fun _ => recordAll_agree rfl

theorem use_lockstep {id : Nat} (hid : x.IsVariable id) : Lockstep x y env (use id) := by
  intro s t hs
  refine ⟨rfl, ?_⟩
  have hleft : (use id env s).2 = if s.used.contains id then s
      else { s with used := s.used ++ [id] } := rfl
  have hright : (use id env t).2 = if t.used.contains id then t
      else { t with used := t.used ++ [id] } := rfl
  rw [hleft, hright, ← hs.used]
  split
  · exact hs
  · refine { hs with used := rfl, uses := fun other hmem => ?_ }
    rcases List.mem_append.mp hmem with hmem | hmem
    · exact hs.uses other hmem
    · rwa [List.mem_singleton.mp hmem]

theorem unuse_lockstep (id : Nat) : Lockstep x y env (unuse id) := fun s t hs =>
  ⟨rfl, { hs with
    used := by
      show s.used.filter _ = t.used.filter _
      rw [hs.used]
    uses := fun other hmem => hs.uses other (List.mem_filter.mp hmem).1 }⟩

/-- The variables of a statement or subquery are looked up with the same result. -/
theorem checkVariables_lockstep {used : List Nat} (hused : ∀ id ∈ used, x.IsVariable id) :
    Lockstep x y env (checkVariables used) := by
  intro s t hs
  refine ⟨rfl, { hs with problems := ?_ }⟩
  show (s.problems ++ s.context.duplicates ++ s.context.undeclared used).map Problem.outline =
    (t.problems ++ t.context.duplicates ++ t.context.undeclared used).map Problem.outline
  rw [List.map_append, List.map_append, List.map_append, List.map_append, hs.problems,
    hs.context.duplicates, hs.context.undeclared (hs.left.symm ▸ hused)]

theorem declarationOrder_lockstep (fromClause : Nat) :
    Lockstep x y env (declarationOrder fromClause) := by
  have hmisplaced : Agree x y env
      (ask fun context => Declaration.misplaced context.tree context.declarations)
      (ask fun context => Declaration.misplaced context.tree context.declarations)
      fun left right => left.map (·.value) = right.map (·.value) :=
    fun _ _ hs => ⟨hs.context.misplaced, hs⟩
  refine hmisplaced.bind fun left right h => recordAll_agree ?_
  rw [List.map_map, List.map_map]
  have hlength : left.length = right.length := by
    rw [← List.length_map (f := (·.value)), h, List.length_map]
  have houtline : ∀ places : List (Located String),
      places.map (Problem.outline ∘ fun root =>
        ⟨.variableWrongOrder, [root.value], root.span, some fromClause⟩) =
        List.replicate places.length (.variableWrongOrder, some fromClause) := fun places =>
    List.map_eq_replicate_iff.mpr fun _ _ => rfl
  rw [houtline, houtline, hlength]

section

variable {visit : Visitor} (hv : ∀ id, Lockstep x y env (visit id))

include hv

theorem forM_lockstep (ids : List Nat) : Lockstep x y env (ids.forM visit) := by
  induction ids with
  | nil => exact .pure rfl
  | cons id ids ih => exact (hv id).same fun _ => ih

theorem visitAll_lockstep (ids : List Nat) : Lockstep x y env (visitAll visit ids) :=
  forM_lockstep hv ids

theorem visitOption_lockstep (id : Option Nat) : Lockstep x y env (visitOption visit id) :=
  forM_lockstep hv _

theorem visitChildren_lockstep (id : Nat) : Lockstep x y env (visitChildren visit id) :=
  (inTree_same fun _ _ h => h.children id).same fun _ => visitAll_lockstep hv _

theorem visitDeclared_lockstep (id : Option Nat) : Lockstep x y env (visitDeclared visit id) := by
  intro s t hs
  have hrun := visitOption_lockstep hv id { s with registers := false }
    { t with registers := false } { hs with registers := rfl }
  exact ⟨rfl, { hrun.2 with registers := hs.registers }⟩

/-- **A subquery is checked in step.** -/
theorem checkSubquery_lockstep (id : Nat) : Lockstep x y env (checkSubquery visit id) := by
  intro s t hs
  have henter := hs.context.enter id
  obtain ⟨-, hinside⟩ := visitChildren_lockstep hv id
    { s with context := s.context.enter id } { t with context := t.context.enter id }
    { hs with context := henter }
  generalize hleft : (visitChildren visit id env { s with context := s.context.enter id }).2 = s'
    at hinside
  generalize hright : (visitChildren visit id env { t with context := t.context.enter id }).2 = t'
    at hinside
  have hlookup : Lockstep x y env (checkVariables (s'.used.filter (!s.used.contains ·))) :=
    checkVariables_lockstep fun other hmem => hinside.uses other (List.mem_filter.mp hmem).1
  have hl : (checkSubquery visit id env s).2 =
      { (checkVariables (s'.used.filter (!s.used.contains ·)) env s').2 with
        context := s'.context.leave
        used := s'.used.filter (s.used.contains ·) } := by rw [← hleft]; rfl
  have hr : (checkSubquery visit id env t).2 =
      { (checkVariables (s'.used.filter (!s.used.contains ·)) env t').2 with
        context := t'.context.leave
        used := t'.used.filter (s.used.contains ·) } := by
    rw [hinside.used, hs.used, ← hright]
    rfl
  refine ⟨rfl, ?_⟩
  rw [hl, hr]
  exact { (hlookup s' t' hinside).2 with
    context := hinside.context.leave
    left := hinside.left
    right := hinside.right
    used := by rw [hinside.used]
    uses := fun other hmem => hinside.uses other (List.mem_filter.mp hmem).1 }

/-! ## Paths -/

omit hv in
theorem settle_agree (id root : Nat) {left right : List (Located String)} (verdict : PathVerdict)
    (hvalues : left.map (·.value) = right.map (·.value)) :
    Agree x y env (settle id root left verdict) (settle id root right verdict) Eq := by
  cases verdict with
  | valid => exact .pure rfl
  | invalid key => exact (recordAt_lockstep key id).same fun _ => .pure rfl
  | constant known enum =>
    refine (unuse_lockstep root).same fun _ => ?_
    cases known with
    | true => exact .pure rfl
    | false =>
      refine (recordAll_agree ?_).same fun _ => .pure rfl
      have hlast := Located.getLast?_of_values hvalues
      cases hl : left.getLast? <;> cases hr : right.getLast? <;> rw [hl, hr] at hlast
      · cases hlast
      · cases hlast
      · rfl

/-- **A state-field path is checked in step.** -/
theorem statePath_lockstep (id : Nat) (associationAllowed : Bool) :
    Lockstep x y env (statePath visit id associationAllowed) := by
  have hpath : ∀ (root : Nat) (dot : Bool) {left right : List (Located String)},
      left.map (·.value) = right.map (·.value) →
      Agree x y env
        (visit root >>= fun _ => inTree (·.isResolvedRoot root) >>= fun resolved =>
          if dot || !resolved then pure true
          else ask (·.statePath id left associationAllowed) >>= settle id root left)
        (visit root >>= fun _ => inTree (·.isResolvedRoot root) >>= fun resolved =>
          if dot || !resolved then pure true
          else ask (·.statePath id right associationAllowed) >>= settle id root right) Eq := by
    intro root dot left right hvalues
    refine (hv root).same fun _ =>
      (inTree_same fun _ _ h => h.isResolvedRoot root).same fun resolved => ?_
    split
    · exact .pure rfl
    · exact (ask_same fun _ _ h => h.statePath id associationAllowed hvalues).same fun verdict =>
        settle_agree id root verdict hvalues
  have hother : Lockstep x y env (visit id >>= fun _ => pure true : Checker Bool) :=
    (hv id).same fun _ => .pure rfl
  refine .kindOf fun h => ?_
  rcases h.kind_cases id with e | ⟨kind, root, left, right, dot, e, e', hvalues⟩ | ⟨_, _, e, e'⟩
  · rw [e]
    split
    · exact hpath _ _ rfl
    · exact hother
  · rw [e, e']
    cases kind with
    | stateField => exact hpath root dot hvalues
    | collectionValued => exact hother
  · rw [e, e']
    exact hother

/-- A path is looked at behind its root, which is visited first. -/
theorem collectionRoot_lockstep (path root : Nat) (dot collectionOnly : Bool) :
    Lockstep x y env
      (visit root >>= fun _ => inTree (·.isResolvedRoot root) >>= fun resolved =>
        if dot || !resolved then pure ()
        else ask (·.collectionPath? path collectionOnly) >>= fun key? =>
          match key? with
          | some key => recordAt key path
          | none => pure () : Checker Unit) := by
  refine (hv root).same fun _ =>
    (inTree_same fun _ _ h => h.isResolvedRoot root).same fun resolved => ?_
  split
  · exact .pure rfl
  · refine (ask_same fun _ _ h => h.collectionPath? path collectionOnly).same fun key? => ?_
    cases key? with
    | none => exact .pure rfl
    | some key => exact recordAt_lockstep key path

theorem collectionPath_lockstep (id : Nat) (collectionOnly : Bool) :
    Lockstep x y env (collectionPath visit id collectionOnly) := by
  refine (inTree_same fun _ _ h => h.pathBehind? id).same fun path? => ?_
  cases path? with
  | none => exact hv id
  | some path =>
    refine .kindOf fun h => ?_
    rcases h.kind_cases path with e | ⟨_, root, _, _, dot, e, e', -⟩ | ⟨_, _, e, e'⟩
    · rw [e]
      split
      · exact collectionRoot_lockstep hv path _ _ collectionOnly
      · exact .pure rfl
    · rw [e, e']
      exact collectionRoot_lockstep hv path root dot collectionOnly
    · rw [e, e']
      exact .pure rfl

omit hv in
/-- What a target comes to does not depend on where its segments stand. -/
theorem namedTarget_same (name : String) (path : Nat) {left right : List (Located String)}
    (hvalues : left.map (·.value) = right.map (·.value)) :
    Agree x y env
      (ask (·.updateTarget? name left) >>= fun key? =>
        match key? with
        | some key => recordAt key path
        | none => pure ())
      (ask (·.updateTarget? name right) >>= fun key? =>
        match key? with
        | some key => recordAt key path
        | none => pure ()) Eq := by
  refine (ask_same fun _ _ h => h.updateTarget? name hvalues).same fun key? => ?_
  cases key? with
  | none => exact .pure rfl
  | some key => exact recordAt_lockstep key path

/-- **The target of a `SET` item is checked in step.** -/
theorem updateTarget_lockstep (id : Nat) : Lockstep x y env (updateTarget visit id) := by
  refine (inTree_same fun _ _ h => h.pathBehind? id).same fun path? => ?_
  cases path? with
  | none => exact hv id
  | some path =>
    refine .kindOf fun h => ?_
    rcases h.kind_cases path with e | ⟨kind, root, left, right, _, e, e', hvalues⟩ | ⟨_, _, e, e'⟩
    · rw [e]
      split
      · next root _ _ _ =>
        refine (hv root).same fun _ => .kindOf fun h => ?_
        rcases h.kind_cases root with e | ⟨_, _, _, _, _, e, e', -⟩ | ⟨_, _, e, e'⟩
        · rw [e]
          split
          · exact namedTarget_same _ path rfl
          · exact .pure rfl
        · rw [e, e']
          exact .pure rfl
        · rw [e, e']
          exact .pure rfl
      · exact hv path
    · rw [e, e']
      cases kind with
      | collectionValued => exact hv path
      | stateField =>
        refine (hv root).same fun _ => .kindOf fun h => ?_
        rcases h.kind_cases root with e | ⟨_, _, _, _, _, e, e', -⟩ | ⟨_, _, e, e'⟩
        · rw [e]
          split
          · exact namedTarget_same _ path hvalues
          · exact .pure rfl
        · rw [e, e']
          exact .pure rfl
        · rw [e, e']
          exact .pure rfl
    · rw [e, e']
      exact hv path

theorem index_lockstep (argument : Nat) : Lockstep x y env (index visit argument) := by
  refine (hv argument).same fun _ => .kindOf fun h => ?_
  rcases h.kind_cases argument with e | ⟨_, _, _, _, _, e, e', -⟩ | ⟨_, _, e, e'⟩
  · rw [e]
    split
    · refine (ask_same fun _ _ h => h.isCollectionVariable _).same fun isCollection => ?_
      split
      · exact recordAt_lockstep _ _
      · exact .pure rfl
    · exact .pure rfl
  · rw [e, e']
    exact .pure rfl
  · rw [e, e']
    exact .pure rfl

/-! ## Operands -/

theorem basicPath_lockstep (id : Nat) : Lockstep x y env (basicPath visit id) := by
  refine (inTree_same fun _ _ h => h.statePathBehind? id).same fun path? => ?_
  cases path? with
  | none => exact .pure rfl
  | some path => exact statePath_lockstep hv path false

theorem basicOperands_lockstep (left right : Nat) :
    Lockstep x y env (basicOperands visit left right) := by
  have hif : ∀ (valid : Bool) (id : Nat),
      Lockstep x y env (if valid then visit id else pure () : Checker Unit) := by
    intro valid id
    split
    · exact hv id
    · exact .pure rfl
  refine (basicPath_lockstep hv left).same fun leftValid =>
    (basicPath_lockstep hv right).same fun rightValid => ?_
  dsimp only
  split
  · exact (hv left).same fun _ => hif rightValid right
  · exact hif rightValid right

theorem basicOperand_lockstep (id : Nat) : Lockstep x y env (basicOperand visit id) := by
  refine (inTree_same fun _ _ h => h.statePathBehind? id).same fun path? => ?_
  cases path? with
  | none => exact hv id
  | some path => exact (statePath_lockstep hv path false).discard

/-! ## Variables and declarations -/

/-- Whether a variable counts as used does not depend on the layout. -/
theorem variableUse_lockstep {id : Nat} {name : String} {isVirtual : Bool} {path : Option Nat}
    (hkind : x.kind id = .identifier name isVirtual path) :
    Lockstep x y env (variableUse visit id name isVirtual path) := by
  cases isVirtual with
  | true => exact visitOption_lockstep hv path
  | false =>
    refine .get fun s t hs => ?_
    rw [hs.registers]
    split
    · refine (ask_same fun a b h => by rw [h.metamodel]).same fun isEntity => ?_
      refine (inTree_same fun _ _ h => h.isCompared id).same fun isCompared => ?_
      split
      · exact use_lockstep ⟨name, false, path, hkind⟩
      · exact .pure rfl
    · exact .pure rfl

theorem rangeRoot_lockstep (root : Nat) : Lockstep x y env (rangeRoot visit root) := by
  refine .kindOf fun h => ?_
  rw [h.isPath]
  split
  · exact collectionPath_lockstep hv root false
  · exact hv root

theorem join_lockstep (path : Nat) (declared on : Option Nat) :
    Lockstep x y env (join visit path declared on) := by
  have hlast : Lockstep x y env (visitDeclared visit declared >>= fun _ => visitOption visit on) :=
    (visitDeclared_lockstep hv declared).same fun _ => visitOption_lockstep hv on
  have hpath : Lockstep x y env (collectionPath visit path false >>= fun _ =>
      visitDeclared visit declared >>= fun _ => visitOption visit on) :=
    (collectionPath_lockstep hv path false).same fun _ => hlast
  refine .kindOf fun h => ?_
  rcases h.kind_cases path with e | ⟨_, _, _, _, _, e, e', -⟩ | ⟨_, _, e, e'⟩
  · rw [e]
    split
    · next inner _ entityType _ =>
      exact (hv entityType).same fun _ => (collectionPath_lockstep hv inner false).same fun _ => hlast
    · exact hpath
  · rw [e, e']
    exact hpath
  · rw [e, e']
    exact hpath

/-! ## All kinds -/

/-- **What is done at a node is done in step.** -/
theorem visitKind_lockstep (id : Nat) : Lockstep x y env (visitKind visit id) := by
  have hbasic := basicOperand_lockstep hv
  have hoption := visitOption_lockstep hv
  have hdeclared := visitDeclared_lockstep hv
  refine .kindOf fun h => ?_
  rcases h.kind_cases id with e | ⟨kind, root, left, right, _, e, e', hvalues⟩ | ⟨_, _, e, e'⟩
  · rw [← e]
    cases hk : x.kind id with
    | query statement leftover =>
      cases statement with
      | none => exact .pure rfl
      | some statement =>
        refine (hv statement).same fun _ => .kindOf fun h => ?_
        rw [h.isStatement]
        split
        · refine .get fun s t hs => ?_
          rw [← hs.used]
          exact checkVariables_lockstep hs.uses
        · exact .pure rfl
    | simpleSelectStatement =>
      refine (inTree_same fun _ _ h => by rw [h.parent, h.root]).same fun isRoot => ?_
      split
      · exact visitChildren_lockstep hv id
      · exact checkSubquery_lockstep hv id
    | fromClause | simpleFromClause =>
      exact (declarationOrder_lockstep id).same fun _ => visitChildren_lockstep hv id
    | rangeDeclaration root hasAs declared =>
      exact (rangeRoot_lockstep hv root).same fun _ => hdeclared declared
    | collectionDeclaration path hasAs declared =>
      exact (collectionPath_lockstep hv path true).same fun _ => hdeclared declared
    | join type fetch path hasAs declared on => exact join_lockstep hv path declared on
    | schemaName name =>
      refine (ask_same fun _ _ h => h.schemaName? name).same fun key? => ?_
      cases key? with
      | none => exact .pure rfl
      | some key => exact recordAt_lockstep key id
    | identifier name isVirtual path => exact variableUse_lockstep hv hk
    | resultVariable expression hasAs declared => exact (hv expression).same fun _ => hdeclared _
    | entityType name =>
      refine (ask_same fun a b h => by rw [h.metamodel]).same fun isNone => ?_
      split
      · exact recordAt_lockstep _ id
      · exact .pure rfl
    | updateItem target value =>
      refine (updateTarget_lockstep hv target).same fun _ => .read ?_
      split
      · exact hv value
      · exact .pure rfl
    | comparison left operator right =>
      dsimp only
      split
      · exact basicOperands_lockstep hv left right
      · exact visitAll_lockstep hv [left, right]
    | arithmetic operation left right => exact basicOperands_lockstep hv left right
    | sign | basicFunction | orderByItem => exact hbasic _
    | aggregate function distinct expression =>
      cases function <;> first | exact hv expression | exact hbasic expression
    | concat arguments => exact forM_lockstep hbasic arguments
    | trim side character hasFrom string => exact (hoption character).same fun _ => hbasic string
    | like expression negated pattern escape =>
      exact (hbasic expression).same fun _ => (hv pattern).same fun _ => hoption escape
    | mod first second => exact (hbasic first).same fun _ => hv second
    | locate first second third | substring first second third =>
      exact (hbasic first).same fun _ => (hv second).same fun _ => hoption third
    | size | emptyCheck => exact collectionPath_lockstep hv _ true
    | member entity negated hasOf collection =>
      exact (hv entity).same fun _ => collectionPath_lockstep hv collection true
    | index argument => exact index_lockstep hv argument
    | logical =>
      exact (inTree_same fun _ _ h => h.chainFrom (id + 1) id []).same fun ids =>
        visitAll_lockstep hv ids
    | path kind root segments dot =>
      cases kind with
      | stateField => exact (statePath_lockstep hv id true).discard
      | collectionValued => exact hv root
    | number | string | wordLiteral | moment | parameter | unknown | bad => exact .pure rfl
    | _ => exact visitChildren_lockstep hv id
  · rw [e, e']
    cases kind with
    | stateField => exact (statePath_lockstep hv id true).discard
    | collectionValued => exact hv root
  · rw [e, e']
    exact .pure rfl

end

theorem leaveOut_lockstep (id : Nat) : Lockstep x y env (leaveOut id) := by
  refine .get fun s t hs => ?_
  rw [hs.exceeded]
  split
  · have hmark : Lockstep x y env (modify ({ · with exceeded := true })) := fun _ _ hs =>
      ⟨rfl, { hs with exceeded := rfl }⟩
    exact .inTree fun _ => .read (hmark.same fun _ => recordAll_agree rfl)
  · exact .pure rfl

/-- **Nodes are visited in step at every level.** -/
theorem visitTo_lockstep (levels id : Nat) : Lockstep x y env (visitTo levels id) := by
  induction levels generalizing id with
  | zero => exact leaveOut_lockstep id
  | succ levels ih => exact visitKind_lockstep ih id

end Check

/-- **The same problems are found in trees that are alike**, at the same nodes and in the same order. -/
theorem Tree.Alike.checkTree {x y : Tree} (h : x.Alike y) (metamodel : Metamodel) (env : Check.Env) :
    (Jpql.checkTree (.ofTree x metamodel) env).map Problem.outline =
      (Jpql.checkTree (.ofTree y metamodel) env).map Problem.outline := by
  have hstatement : QueryContext.statementOf x = QueryContext.statementOf y := by
    unfold QueryContext.statementOf
    rw [← h.root]
    rcases h.kind_cases x.root with e | ⟨_, _, _, _, _, e, e', -⟩ | ⟨_, _, e, e'⟩
    · rw [e]
    · rw [e, e']
    · rw [e, e']
  have hcontext : (QueryContext.ofTree x metamodel).Alike (.ofTree y metamodel) :=
    ⟨h, rfl, by
      show Scope.ofStatement x _ = Scope.ofStatement y _
      rw [h.ofStatement, hstatement], rfl⟩
  have hstart : Check.Together x y (.initial (.ofTree x metamodel)) (.initial (.ofTree y metamodel)) :=
    ⟨hcontext, rfl, rfl, rfl, rfl, fun _ hmem => absurd hmem List.not_mem_nil, rfl, rfl⟩
  have hrun : Check.Lockstep x y env (Check.visitTo env.maxDepth x.root) :=
    Check.visitTo_lockstep _ _
  have hroot : Jpql.checkTree (.ofTree y metamodel) env =
      ((Check.visitTo env.maxDepth x.root).run env
        (.initial (.ofTree y metamodel))).2.problems := by
    rw [h.root]
    rfl
  rw [hroot]
  exact (hrun _ _ hstart).2.problems

end Jpql
