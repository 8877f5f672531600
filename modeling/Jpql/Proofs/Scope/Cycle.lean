import Jpql.Scope.Context
import Mathlib.Logic.Relation

/-! # Declarations in a circle

In `FROM Employee e JOIN b.x a JOIN a.y b` each of two joins starts at the variable of the other. To find what
a variable ranges over, its binding is followed: to the path that binds it, to the variable this path is
rooted at, and on from there. This ends well at a range or at a `TREAT` only.

* `QueryContext.IsGrounded`: following the binding of a name comes to a range or a `TREAT`.
* `QueryContext.IsAdrift`: it comes back to a name, or stops at one that is bound to nothing. Such a name is
  not grounded (`IsAdrift.not_isGrounded`).
* `QueryContext.unresolved`: a name that is not grounded has no type, and the paths rooted at it lead to no
  field, in any number of steps. So the limit on the steps decides about no such name. -/

namespace Jpql

open Relation

/-- The node that an expression is built on, looking through paths and `VALUE`. -/
def NodeKind.beneath? : NodeKind → Option NodeId
  | .identifier _ _ field => field
  | .path _ root _ _ => some root
  | .value expression => some expression
  | _ => none

/-- **An expression starts at a node.** -/
inductive Tree.StartsAt (tree : Tree) : NodeId → NodeId → Prop
  | here {id : NodeId} (h : (tree.kind id).beneath? = none) : tree.StartsAt id id
  | beneath {id next start : NodeId} (h : (tree.kind id).beneath? = some next)
      (hnext : tree.StartsAt next start) : tree.StartsAt id start

/-- An expression starts at one node. -/
theorem Tree.StartsAt.unique {tree : Tree} {id a b : NodeId} (ha : tree.StartsAt id a)
    (hb : tree.StartsAt id b) : a = b := by
  induction ha with
  | here h =>
    cases hb with
    | here => rfl
    | beneath h' => exact nomatch h.symm.trans h'
  | beneath h _ ih =>
    cases hb with
    | here h' => exact nomatch h'.symm.trans h
    | beneath h' hnext => exact ih (Option.some.inj (h'.symm.trans h) ▸ hnext)

/-! ## Names that are the same up to case -/

theorem isNamed_congr {bound? : Option String} {a b : String} (h : Text.sameWord a b = true) :
    isNamed bound? a = isNamed bound? b := by
  cases bound? with
  | none => rfl
  | some bound =>
    show Text.sameWord bound a = Text.sameWord bound b
    rw [Bool.eq_iff_iff, Text.sameWord_iff, Text.sameWord_iff, Text.sameWord_iff.mp h]

namespace QueryContext

variable {context : QueryContext} {name next other : String} {id : NodeId}

/-- **A binding does not depend on the case of the name.** -/
theorem binding?_congr {a b : String} (h : Text.sameWord a b = true) :
    context.binding? a = context.binding? b := by
  have hjoin : (fun join : JoinDeclaration => join.declares a) = (·.declares b) :=
    funext fun join => isNamed_congr h
  have hown : ∀ declaration : Declaration,
      declaration.declaresVariable a = declaration.declaresVariable b := fun _ => isNamed_congr h
  have hdeclares : (fun declaration : Declaration => declaration.declares a) = (·.declares b) :=
    funext fun declaration => by rw [Declaration.declares, Declaration.declares, hown, hjoin]
  have hbinding : ∀ declaration : Declaration, declaration.binding? a = declaration.binding? b :=
    fun declaration => by rw [Declaration.binding?, Declaration.binding?, hown, hjoin]
  rw [binding?, binding?, hdeclares]
  exact congrArg _ (funext hbinding)

/-! ## Following bindings -/

/-- The expression is rooted at the variable. -/
def RootedAt (context : QueryContext) (id : NodeId) (name : String) : Prop :=
  ∃ start isVirtual, context.tree.StartsAt id start ∧
    context.tree.kind start = .identifier name isVirtual none

/-- The expression is rooted at a `TREAT`. -/
def RootedAtTreat (context : QueryContext) (id : NodeId) : Prop :=
  ∃ start path hasAs entityType, context.tree.StartsAt id start ∧
    context.tree.kind start = .treat path hasAs entityType

/-- **The binding of a variable leads on to another one**, at which the path is rooted. -/
def Follows (context : QueryContext) (name next : String) : Prop :=
  ∃ path member, context.binding? name = some (.path path member) ∧ context.RootedAt path next

/-- The binding of a variable is a range, or leads to a `TREAT`. -/
def IsGround (context : QueryContext) (name : String) : Prop :=
  (∃ entity, context.binding? name = some (.entity entity)) ∨
    ∃ path member, context.binding? name = some (.path path member) ∧ context.RootedAtTreat path

/-- **Following the bindings from a name comes to a range or a `TREAT`.** -/
def IsGrounded (context : QueryContext) (name : String) : Prop :=
  ∃ last, ReflTransGen context.Follows name last ∧ context.IsGround last

/-- **Following the bindings from a name comes back to a name, or stops at one bound to nothing.** -/
def IsAdrift (context : QueryContext) (name : String) : Prop :=
  ∃ last, ReflTransGen context.Follows name last ∧ (context.binding? last = none ∨
    ∃ again, TransGen context.Follows last again ∧ Text.sameWord last again = true)

theorem RootedAt.unique (h : context.RootedAt id name) (k : context.RootedAt id other) :
    name = other := by
  obtain ⟨start, _, hstart, hkind⟩ := h
  obtain ⟨start', _, hstart', hkind'⟩ := k
  obtain rfl := hstart.unique hstart'
  cases hkind.symm.trans hkind'
  rfl

/-- Bindings lead on in one way. -/
theorem Follows.unique (h : context.Follows name next) (k : context.Follows name other) :
    next = other := by
  obtain ⟨path, member, hbinding, hrooted⟩ := h
  obtain ⟨path', member', hbinding', hrooted'⟩ := k
  cases hbinding.symm.trans hbinding'
  exact hrooted.unique hrooted'

theorem Follows.congr (h : context.Follows name next) (hsame : Text.sameWord name other = true) :
    context.Follows other next := by
  obtain ⟨path, member, hbinding, hrooted⟩ := h
  exact ⟨path, member, (binding?_congr hsame).symm.trans hbinding, hrooted⟩

/-- A range, or a `TREAT`, leads on to no variable. -/
theorem IsGround.not_follows (h : context.IsGround name) : ¬context.Follows name next := by
  rintro ⟨path, member, hbinding, start, _, hstart, hkind⟩
  obtain ⟨entity, hentity⟩ | ⟨path', member', hbinding', start', _, _, _, hstart', hkind'⟩ := h
  · cases hbinding.symm.trans hentity
  · cases hbinding.symm.trans hbinding'
    obtain rfl := hstart.unique hstart'
    cases hkind.symm.trans hkind'

theorem IsGrounded.congr (h : context.IsGrounded name) (hsame : Text.sameWord name other = true) :
    context.IsGrounded other := by
  obtain ⟨last, hpath, hground⟩ := h
  rcases hpath.cases_head with rfl | ⟨next, hfollows, hpath⟩
  · rw [IsGround, binding?_congr hsame] at hground
    exact ⟨other, .refl, hground⟩
  · exact ⟨last, .head (hfollows.congr hsame) hpath, hground⟩

/-- **A grounded name leads on to grounded names only.** -/
theorem IsGrounded.follows (h : context.IsGrounded name) (hfollows : context.Follows name next) :
    context.IsGrounded next := by
  obtain ⟨last, hpath, hground⟩ := h
  rcases hpath.cases_head with rfl | ⟨next', hfollows', hpath⟩
  · exact absurd hfollows hground.not_follows
  · exact ⟨last, hfollows'.unique hfollows ▸ hpath, hground⟩

theorem IsGrounded.reaches (h : context.IsGrounded name) (hpath : ReflTransGen context.Follows name other) :
    context.IsGrounded other := by
  induction hpath with
  | refl => exact h
  | tail _ hfollows ih => exact ih.follows hfollows

/-- The binding of the name leads back to it. -/
def IsTurning (context : QueryContext) (name : String) : Prop :=
  ∃ again, TransGen context.Follows name again ∧ Text.sameWord name again = true

/-- **A circle is never left.** -/
theorem IsTurning.follows (h : context.IsTurning name) (hfollows : context.Follows name next) :
    context.IsTurning next := by
  obtain ⟨again, hpath, hsame⟩ := h
  obtain ⟨first, hfirst, hrest⟩ := TransGen.head'_iff.mp hpath
  obtain rfl := hfirst.unique hfollows
  exact ⟨first, .tail' hrest (hfollows.congr hsame), Text.sameWord_refl first⟩

theorem IsTurning.not_isGrounded (h : context.IsTurning name) : ¬context.IsGrounded name := by
  rintro ⟨last, hpath, hground⟩
  have hlast : context.IsTurning last := by
    clear hground
    induction hpath with
    | refl => exact h
    | tail _ hfollows ih => exact ih.follows hfollows
  obtain ⟨again, hturn, -⟩ := hlast
  obtain ⟨first, hfirst, -⟩ := TransGen.head'_iff.mp hturn
  exact hground.not_follows hfirst

/-- **A name that is adrift is not grounded.** -/
theorem IsAdrift.not_isGrounded (h : context.IsAdrift name) : ¬context.IsGrounded name := by
  intro hgrounded
  obtain ⟨last, hpath, hnone | hturning⟩ := h
  · obtain ⟨ground, hrest, hground⟩ := hgrounded.reaches hpath
    rcases hrest.cases_head with rfl | ⟨next, ⟨path, member, hbinding, -⟩, -⟩
    · rcases hground with ⟨entity, hbinding⟩ | ⟨path, member, hbinding, -⟩
      · cases hnone.symm.trans hbinding
      · cases hnone.symm.trans hbinding
    · cases hnone.symm.trans hbinding
  · exact IsTurning.not_isGrounded hturning (hgrounded.reaches hpath)

/-! ## What is resolved is grounded -/

/-- The expression is rooted at a `TREAT`, or at a variable that is grounded. -/
def IsAnchored (context : QueryContext) (id : NodeId) : Prop :=
  context.RootedAtTreat id ∨ ∃ name, context.RootedAt id name ∧ context.IsGrounded name

theorem IsAnchored.beneath {below : NodeId} (h : context.IsAnchored below)
    (hbeneath : (context.tree.kind id).beneath? = some below) : context.IsAnchored id := by
  rcases h with ⟨start, path, hasAs, type, hstart, hkind⟩ | ⟨name, ⟨start, isVirtual, hstart, hkind⟩, h⟩
  · exact .inl ⟨start, path, hasAs, type, .beneath hbeneath hstart, hkind⟩
  · exact .inr ⟨name, ⟨start, isVirtual, .beneath hbeneath hstart, hkind⟩, h⟩

/-- A variable that is bound to an anchored path is grounded. -/
theorem IsAnchored.isGrounded {path : NodeId} {member : Bool} (h : context.IsAnchored path)
    (hbinding : context.binding? name = some (.path path member)) : context.IsGrounded name := by
  rcases h with htreat | ⟨next, hrooted, last, hpath, hground⟩
  · exact ⟨name, .refl, .inr ⟨path, member, hbinding, htreat⟩⟩
  · exact ⟨last, .head ⟨path, member, hbinding, hrooted⟩ hpath, hground⟩

/-- A field is found behind a root with a type only. -/
theorem exists_of_pathMapping? {rootType? : NodeId → Option ManagedType} {root : NodeId}
    {segments : List (Located String)} {mapping : Mapping}
    (h : context.pathMapping? rootType? root segments = some mapping) :
    ∃ type, rootType? root = some type := by
  obtain ⟨_, -, h⟩ := Option.bind_eq_some_iff.mp h
  obtain ⟨type, hroot, -⟩ := Option.bind_eq_some_iff.mp h
  exact ⟨type, hroot⟩

/-- **What has a type in some number of steps is grounded.** -/
theorem grounded_of_type (steps : Nat) :
    (∀ name type, context.variableTypeIn? steps name = some type → context.IsGrounded name) ∧
      ∀ id type, context.expressionTypeIn? steps id = some type → context.IsAnchored id := by
  induction steps using Nat.strongRecOn with
  | ind steps ih =>
    cases steps with
    | zero => exact ⟨nofun, nofun⟩
    | succ steps =>
      obtain ⟨hvariable, hexpression⟩ := ih steps (Nat.lt_succ_self steps)
      refine ⟨fun name type h => ?_, fun id type h => ?_⟩
      · rw [variableTypeIn?] at h
        cases hbinding : context.binding? name with
        | none =>
          rw [hbinding] at h
          cases h
        | some binding =>
          cases binding with
          | entity entity => exact ⟨name, .refl, .inl ⟨entity, hbinding⟩⟩
          | path path member =>
            rw [hbinding] at h
            exact (hexpression path type h).isGrounded hbinding
      · rw [expressionTypeIn?] at h
        split at h
        · next field hkind =>
          exact (hexpression field type h).beneath (by rw [hkind]; rfl)
        · next name _ hkind =>
          exact .inr ⟨name, ⟨id, _, .here (by rw [hkind]; rfl), hkind⟩, hvariable name type h⟩
        · next root segments _ hkind =>
          cases steps with
          | zero => cases h
          | succ steps =>
            obtain ⟨mapping, hmapping, -⟩ := Option.bind_eq_some_iff.mp h
            obtain ⟨owner, hroot⟩ := exists_of_pathMapping? hmapping
            exact ((ih steps (by omega)).2 root owner hroot).beneath (by rw [hkind]; rfl)
        · next hkind => exact .inl ⟨id, _, _, _, .here (by rw [hkind]; rfl), hkind⟩
        · next expression hkind =>
          exact (hexpression expression type h).beneath (by rw [hkind]; rfl)
        · cases h

/-- **What leads to a field in some number of steps is grounded.** -/
theorem grounded_of_mapping (steps : Nat) :
    ∀ id mapping, context.mappingIn? steps id = some mapping → context.IsAnchored id := by
  induction steps with
  | zero => exact nofun
  | succ steps ih =>
    intro id mapping h
    rw [mappingIn?] at h
    split at h
    · next root segments _ hkind =>
      obtain ⟨owner, hroot⟩ := exists_of_pathMapping? h
      exact ((grounded_of_type (steps + 1 - 1 - 1)).2 root owner hroot).beneath (by rw [hkind]; rfl)
    · next field hkind => exact (ih field mapping h).beneath (by rw [hkind]; rfl)
    · next name _ hkind =>
      split at h
      · next path member hbinding =>
        exact .inr ⟨name, ⟨id, _, .here (by rw [hkind]; rfl), hkind⟩,
          (ih path mapping h).isGrounded hbinding⟩
      · cases h
    · next hkind => exact .inl ⟨id, _, _, _, .here (by rw [hkind]; rfl), hkind⟩
    · next expression hkind => exact (ih expression mapping h).beneath (by rw [hkind]; rfl)
    · cases h

/-- An expression that is rooted at a variable is anchored only if the variable is grounded. -/
theorem IsAnchored.isGrounded_of_rootedAt (h : context.IsAnchored id) (hrooted : context.RootedAt id name) :
    context.IsGrounded name := by
  rcases h with ⟨start, path, hasAs, type, hstart, hkind⟩ | ⟨other, hother, hgrounded⟩
  · obtain ⟨start', isVirtual, hstart', hkind'⟩ := hrooted
    obtain rfl := hstart.unique hstart'
    cases hkind.symm.trans hkind'
  · exact hother.unique hrooted ▸ hgrounded

end QueryContext

/-- **Declarations in a circle resolve to nothing.** If following the binding of a name comes back to a name,
or stops at one that is bound to nothing, then it never comes to a range or a `TREAT`. And if it never
does, then the name has no managed type, and no path that is rooted at it leads to a field, in any number
of steps. -/
theorem QueryContext.unresolved (context : QueryContext) (name : String) :
    (context.IsAdrift name → ¬context.IsGrounded name) ∧
      (¬context.IsGrounded name →
        (context.variableType? name = none ∧ ∀ field, context.fieldOf? name field = none) ∧
        (∀ id other, context.RootedAt id other → Text.sameWord name other = true →
          context.expressionType? id = none ∧ context.mapping? id = none) ∧
        (∀ steps, context.variableTypeIn? steps name = none) ∧
        ∀ steps id other, context.RootedAt id other → Text.sameWord name other = true →
          context.expressionTypeIn? steps id = none ∧ context.mappingIn? steps id = none) := by
  refine ⟨IsAdrift.not_isGrounded, fun hnot => ?_⟩
  have hvariable : ∀ steps, context.variableTypeIn? steps name = none := fun steps =>
    Option.eq_none_iff_forall_ne_some.mpr fun type h => hnot ((grounded_of_type steps).1 name type h)
  have hanchored : ∀ id other, context.RootedAt id other → Text.sameWord name other = true →
      ¬context.IsAnchored id := fun id other hrooted hsame h =>
    hnot ((h.isGrounded_of_rootedAt hrooted).congr (Text.sameWord_comm name other ▸ hsame))
  have hexpression : ∀ steps id other, context.RootedAt id other → Text.sameWord name other = true →
      context.expressionTypeIn? steps id = none ∧ context.mappingIn? steps id = none :=
    fun steps id other hrooted hsame =>
      ⟨Option.eq_none_iff_forall_ne_some.mpr fun type h =>
          hanchored id other hrooted hsame ((grounded_of_type steps).2 id type h),
        Option.eq_none_iff_forall_ne_some.mpr fun mapping h =>
          hanchored id other hrooted hsame (grounded_of_mapping steps id mapping h)⟩
  refine ⟨⟨hvariable _, fun field => ?_⟩, fun id other => hexpression _ id other, hvariable, hexpression⟩
  rw [fieldOf?, variableType?, hvariable]
  rfl

/-- **A query with a circle**: `FROM Employee e JOIN b.x a JOIN a.y b`. -/
def QueryContext.circle : QueryContext :=
  ⟨⟨"", #[⟨.identifier "b" false none, .point 0, some 1⟩,
      ⟨.path .collectionValued 0 [⟨"x", .point 0⟩] false, .point 0, none⟩,
      ⟨.identifier "a" false none, .point 0, some 3⟩,
      ⟨.path .collectionValued 2 [⟨"y", .point 0⟩] false, .point 0, none⟩], 3⟩,
    .initial, ⟨[⟨.range, 0, 0, some "Employee", some "e", none,
      [⟨1, 1, some "a", none⟩, ⟨3, 3, some "b", none⟩]⟩], []⟩, []⟩

/-- Neither of the two joined variables has a type. -/
theorem QueryContext.unresolved_circle :
    (circle.IsAdrift "a" ∧ ¬circle.IsGrounded "a") ∧ circle.variableType? "a" = none ∧
      circle.mapping? 3 = none ∧ ∀ steps, circle.variableTypeIn? steps "a" = none ∧
        circle.mappingIn? steps 3 = none := by
  have hb : circle.RootedAt 1 "b" := ⟨0, false, .beneath rfl (.here rfl), rfl⟩
  have ha : circle.RootedAt 3 "a" := ⟨2, false, .beneath rfl (.here rfl), rfl⟩
  have hto : circle.Follows "a" "b" := ⟨1, false, rfl, hb⟩
  have hfrom : circle.Follows "b" "a" := ⟨3, false, rfl, ha⟩
  have hadrift : circle.IsAdrift "a" :=
    ⟨"a", .refl, .inr ⟨"a", .tail (.single hto) hfrom, Text.sameWord_refl "a"⟩⟩
  obtain ⟨hnot, hnothing⟩ := unresolved circle "a"
  obtain ⟨⟨htype, -⟩, hpaths, hsteps, hall⟩ := hnothing (hnot hadrift)
  exact ⟨⟨hadrift, hnot hadrift⟩, htype, (hpaths 3 "a" ha (Text.sameWord_refl "a")).2,
    fun steps => ⟨hsteps steps, (hall steps 3 "a" ha (Text.sameWord_refl "a")).2⟩⟩

end Jpql
