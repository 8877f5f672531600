import Jpql.Proofs.Elide.Expression

/-! # What an optional `AS` introduces

Four constructs name a variable behind an optional `AS`: ranges, collections, joins, and the results of a
`SELECT` clause. In each of them the word is looked for, then the variable is read, and then the node that
declares it is added (`Elision.follows_introducing`).

Where the `AS` is omitted, the second run does not find it and goes on with the name. That it then does the
same has a condition in the case of a result: its name is no keyword. -/

namespace Jpql.Elision

open Parse

variable {M : Elision} {s s' t : State} {first mid last known : Bool}

/-! ## The word and the variable -/

/-- The state behind the current token. -/
def behind (M : Elision) (s : State) : State :=
  { s with position := (s.stream M.left).advance.position }

/-- The state behind `AS` and the variable that follows it. -/
def named (M : Elision) (s : State) (name : String) : State :=
  (M.behind (M.behind s)).write
    (s.draft.push (.identifier name false none) ((M.behind s).stream M.left).current.span)

/-- **`AS` and a name stand at the current position.** -/
structure Introduces (M : Elision) (s : State) (name : String) : Prop where
  check : (s.stream M.left).check (.keyword .as) = true
  name : ((M.behind s).stream M.left).identifier? = some name

namespace Introduces

variable {name : String} (h : M.Introduces s name)

include h

theorem kind_eq : TokenStream.kind ⟨M.left.source, M.left.tokens, s.position⟩ = .keyword .as :=
  beq_iff_eq.mp h.check

theorem lt_size : s.position < M.left.tokens.size :=
  M.elided.inOrder.lt_of_kind (by rw [h.kind_eq]; rintro ⟨⟩)

theorem position_behind : (M.behind s).position = s.position + 1 :=
  congrArg TokenStream.position
    (Env.advance_eq (M.elided.inOrder.succ_lt h.lt_size (by rw [h.kind_eq]; rintro ⟨⟩)))

theorem names : M.left.Names (M.behind s).position := Option.isSome_iff_exists.mpr ⟨name, h.name⟩

theorem position_named : (M.named s name).position = s.position + 2 := by
  have hmove := Env.advance_eq (h.names.succ_lt M.elided.inOrder (h.names.lt M.elided.inOrder))
  exact (congrArg TokenStream.position hmove).trans (congrArg (· + 1) h.position_behind)

/-- The name is not omitted. -/
theorem kept : ¬M.Omits (M.behind s).position := fun homits =>
  TokenKind.ne_as_of_isNaming h.names.isNaming (M.elided.isAs homits)

theorem course : M.Course s (M.named s name) := by
  have hstill : M.Course s (M.behind (M.behind s)) := by
    refine .still ?_ rfl
    have hposition := h.position_named
    change (M.behind (M.behind s)).position = _ at hposition
    omega
  exact hstill.trans (Course.push rfl _)

omit h in
theorem size_named : (M.named s name).draft.size = s.draft.size + 1 := Draft.size_push _ _ _

/-- The variable starts where its name does. -/
theorem span_named : ((M.named s name).draft.span s.draft.size).start = M.left.startAt (s.position + 1) := by
  show ((s.draft.push _ _).span _).start = _
  rw [Draft.span_push, ← h.position_behind]
  rfl

/-- **The other run is at the same name**, whether it has moved over the word or not, and adds the same
variable. -/
theorem follows (hrel : M.Rel s t) : ∃ hasAs t₁ t₂, consumeKeyword .as M.right t = .ok (hasAs, t₁) ∧
    declaredVariable? M.right t₁ = .ok (some s.draft.size, t₂) ∧ M.Rel (M.named s name) t₂ ∧
    (hasAs = false → M.Omits s.position ∧ (t₁.stream M.right).kind =
      TokenStream.kind ⟨M.left.source, M.left.tokens, s.position + 1⟩) := by
  have hlt := h.names.lt M.elided.inOrder
  have hdeclare : ∀ {t₁ : State}, M.Rel (M.behind s) t₁ → ∃ t₂,
      declaredVariable? M.right t₁ = .ok (some s.draft.size, t₂) ∧ M.Rel (M.named s name) t₂ := by
    intro t₁ hrel₁
    have hname := (hrel₁.agrees hlt h.kept).identifier?.trans h.name
    refine ⟨_, ?_, (hrel₁.advance hlt h.kept).push (.refl _) _ (t₁.stream M.right).current.span⟩
    rw [declaredVariable?_of_some hname, ← hrel₁.draft.size]
    rfl
  by_cases homits : M.Omits s.position
  · have hnot : (t.stream M.right).check (.keyword .as) = false := by
      rw [hrel.stream]
      exact beq_eq_false_iff_ne.mpr (TokenKind.ne_as_of_isNaming (M.elided.kind_of_omits homits))
    have hrel₁ : M.Rel (M.behind s) t := hrel.move (m := t.position) <| by
      rw [hrel.position]
      exact (Env.kept_succ_of_omits homits).symm.trans (congrArg M.place h.position_behind.symm)
    obtain ⟨t₂, hrun, hrel₂⟩ := hdeclare hrel₁
    refine ⟨false, t, t₂, consume_of_not_check hnot, hrun, hrel₂, fun _ => ⟨homits, ?_⟩⟩
    rw [(hrel₁.agrees hlt h.kept).kind, ← h.position_behind]
    rfl
  · have hrel₁ := hrel.advance h.lt_size homits
    obtain ⟨t₂, hrun, hrel₂⟩ := hdeclare hrel₁
    refine ⟨true, _, t₂, consume_of_check ?_, hrun, hrel₂, nofun⟩
    rw [TokenStream.check, (hrel.agrees h.lt_size homits).kind]
    exact h.check

end Introduces

/-! ## The node that declares it -/

section

variable {kind : NodeKind} {span : Span} {declared i : Nat} {name : String}

/-- **A new node introduces its variable only**, with the token in front of that. -/
theorem Introduced.eq_of_push {p : Nat}
    (h : M.Introduced s.draft.size (s.write (s.draft.push kind span)) i)
    (hkind : kind.introduced? = some declared) (hdeclared : declared < s.draft.size)
    (hspan : (s.draft.span declared).start = M.left.startAt (p + 1))
    (hp : p + 1 < M.left.tokens.size) (hi : i + 1 < M.left.tokens.size) :
    i = p ∧ (kind.isResult = true →
      (TokenStream.kind ⟨M.left.source, M.left.tokens, i + 1⟩).keyword? = none) := by
  obtain ⟨id, other, hge, hlt, -, hother, hstart, hresult⟩ := h
  have hsize : (s.draft.push kind span).size = s.draft.size + 1 := Draft.size_push _ _ _
  change id < (s.draft.push kind span).size at hlt
  obtain rfl : id = s.draft.size := by omega
  change ((s.draft.push kind span).kind _).introduced? = _ at hother
  change ((s.draft.push kind span).kind _).isResult = true → _ at hresult
  change ((s.draft.push kind span).span _).start = _ at hstart
  rw [Draft.kind_push] at hother hresult
  obtain rfl : declared = other := Option.some.inj (hkind.symm.trans hother)
  rw [Draft.span_push_of_lt _ _ _ hdeclared, hspan] at hstart
  exact ⟨Nat.succ.inj (M.elided.inOrder.startAt_inj hi hp hstart.symm), hresult⟩

/-- **What the node that declares the variable adds to what is introduced**: the `AS` in front of the
variable, and nothing else. -/
theorem Introduces.split (h : M.Introduces s name) (hcourse : M.Course (M.named s name) s')
    (hkind : kind.introduced? = some s.draft.size) (hi : i + 1 < M.left.tokens.size)
    (hintroduced : M.Introduced s.draft.size (s'.write (s'.draft.push kind span)) i) :
    M.Introduced s.draft.size s' i ∨ i = s.position ∧ (kind.isResult = true →
      (TokenStream.kind ⟨M.left.source, M.left.tokens, i + 1⟩).keyword? = none) := by
  have hlt : s.draft.size < (M.named s name).draft.size := by
    rw [size_named]
    exact Nat.lt_succ_self _
  refine (hintroduced.split (Draft.Stays.push s'.draft kind span)).imp_right fun hnew => ?_
  refine hnew.eq_of_push hkind (Nat.lt_of_lt_of_le hlt hcourse.stays.size_le) ?_ ?_ hi
  · rw [hcourse.stays.span_eq _ hlt]
    exact h.span_named
  · rw [← h.position_behind]
    exact h.names.lt M.elided.inOrder

theorem Introduces.course_push (h : M.Introduces s name) (hcourse : M.Course (M.named s name) s')
    (hkind : kind.introduced? = some s.draft.size) :
    M.Course s (s'.write (s'.draft.push kind span)) := by
  have hall := h.course.trans hcourse
  refine ⟨hall.position_le, hall.stays.trans (Draft.Stays.push _ _ _), fun i hi hintroduced => ?_,
    fun i hi hintroduced => ?_⟩
  · rcases h.split hcourse hkind hi hintroduced with hold | ⟨rfl, -⟩
    · exact hall.within i hi hold
    · have hle := hcourse.position_le
      rw [h.position_named] at hle
      exact ⟨Nat.le_refl _, hle⟩
  · rcases h.split hcourse hkind hi hintroduced with hold | ⟨rfl, -⟩
    · exact hall.names i hi hold
    · rw [← h.position_behind]
      exact h.names.isNaming

/-- What lies behind the variable is accounted for without the node; if the `AS` is omitted, it is by the
node. -/
theorem Introduces.covers (h : M.Introduces s name) (hcourse : M.Course (M.named s name) s')
    (hkind : kind.introduced? = some s.draft.size)
    (hcovers : M.Covers s (s'.write (s'.draft.push kind span))) :
    M.Covers (M.named s name) s' ∧ (M.Omits s.position → kind.isResult = true →
      (TokenStream.kind ⟨M.left.source, M.left.tokens, s.position + 1⟩).keyword? = none) := by
  have hle := hcourse.position_le
  have hnamed := h.position_named
  have hnext : ∀ {i}, M.Omits i → i + 1 < M.left.tokens.size := fun h => (M.elided.succ_of_omits h).1
  constructor
  · intro i hge hlt homits
    rcases h.split hcourse hkind (hnext homits) (hcovers i (by omega) hlt homits) with hold | ⟨rfl, -⟩
    · rcases hold.split hcourse.stays with hfirst | hsecond
      · have hwithin := (h.course.within i (hnext homits) hfirst).2
        omega
      · exact hsecond
    · omega
  · intro homits
    rcases h.split hcourse hkind (hnext homits) (hcovers _ (Nat.le_refl _) (by
      show s.position < s'.position
      omega) homits) with hold | ⟨-, hresult⟩
    · -- nothing that was added before the node introduces a variable at this place
      exfalso
      rcases hold.split hcourse.stays with hfirst | hsecond
      · refine hfirst.absurd_of_plain fun id hge hid => ?_
        rw [size_named] at hid
        obtain rfl : id = s.draft.size := by omega
        show ((s.draft.push _ _).kind _).introduced? = none
        rw [Draft.kind_push]
        rfl
      · have hwithin := (hcourse.within _ (hnext homits) hsecond).1
        omega
    · exact hresult

end

/-! ## The construct -/

namespace FollowsAt

/-- A token that is known not to be omitted shows the same in both runs. -/
theorem lookKept {α β : Type} {f g : α → Parser β} {look' : TokenStream → α}
    (hkept : ¬M.Omits s.position) (hlook : ∀ a b : TokenStream, a.Agrees b → look' b = look' a)
    (h : M.FollowsAt s t first (f (look' (s.stream M.left))) (g (look' (s.stream M.left))) last) :
    M.FollowsAt s t first (Parse.look look' >>= f) (Parse.look look' >>= g) last :=
  .look (fun hs _ hrel => hlook _ _ (hrel.agrees hs hkept)) h

/-- A variable, if the current token declares one. -/
theorem declaredVariable? (hkept : ¬M.Omits s.position) :
    M.FollowsAt s t false Parse.declaredVariable? Parse.declaredVariable? false := by
  refine .lookKept hkept (fun _ _ h => h.identifier?) ?_
  cases (s.stream M.left).identifier? with
  | none => exact .pure none
  | some name => exact (follows_declare name s t).loose

end FollowsAt

/-- **What an optional `AS` introduces is followed.** Behind the word, `body` goes on with the variable;
without it, that has to be so if the word is omitted. `after` is what stands between the variable and the
end of the construct. -/
theorem follows_introducing {β : Type} {head : Nat → Bool → Parser NodeId}
    {body : Nat → Bool → Option NodeId → Parser NodeId} (kind : Bool → NodeId → β → NodeKind)
    (after : Parser β) (result : Bool)
    (hhead : ∀ m hasAs env s,
      (hasAs = false → result = true → ∃ name, (s.stream env).kind = .identifier name) →
      head m hasAs env s = (declaredVariable? >>= body m hasAs) env s)
    (hbody : ∀ m hasAs declared,
      body m hasAs (some declared) = after >>= fun y => pushFrom (kind hasAs declared y) m)
    (hnone : ∀ m, M.Never (body m true none)) (hafter : M.Follows false after after false)
    (hkind : ∀ hasAs declared y, (kind true declared y).ButAs (kind hasAs declared y))
    (hintroduced : ∀ declared y, (kind true declared y).introduced? = some declared)
    (hresult : ∀ declared y, (kind true declared y).isResult = result)
    (hwithout : ∀ m n s t, ¬M.Omits s.position →
      M.FollowsAt s t false (head m false) (head n false) false) (m n : Nat) :
    M.Follows false (consumeKeyword .as >>= head m) (consumeKeyword .as >>= head n) false := by
  intro s t y s' hrun hclean hinside
  obtain ⟨hasAs, s₁, hconsume, hrest⟩ := bind_eq_ok hrun
  cases hcheck : (s.stream M.left).check (.keyword .as) with
  | false =>
    rw [consumeKeyword, consume_of_not_check hcheck] at hconsume
    obtain ⟨rfl, rfl⟩ := Prod.mk.inj (Except.ok.inj hconsume)
    have hkept : ¬M.Omits s.position := not_omits_of_kind (beq_eq_false_iff_ne.mp hcheck)
    obtain ⟨hcourse, hmore⟩ := hwithout m n s t hkept y s' hrest hclean hinside
    refine ⟨hcourse, fun hcovers hclear => ⟨Clear.loose s, fun hrel => ?_⟩⟩
    obtain ⟨t', hother, hrel'⟩ := (hmore hcovers hclear).2 hrel
    refine ⟨t', (bind_of_eq_ok (consume_of_not_check ?_)).trans hother, hrel'⟩
    rw [TokenStream.check,
      (hrel.agrees (Nat.lt_of_le_of_lt hcourse.position_le hinside) hkept).kind]
    exact hcheck
  | true =>
    rw [consumeKeyword, consume_of_check hcheck] at hconsume
    obtain ⟨rfl, rfl⟩ := Prod.mk.inj (Except.ok.inj hconsume)
    change head m true M.left (M.behind s) = _ at hrest
    rw [hhead m true M.left (M.behind s) fun hfalse => absurd hfalse (by simp)] at hrest
    obtain ⟨declared?, s₂, hdeclare, hrest⟩ := bind_eq_ok hrest
    cases hname : ((M.behind s).stream M.left).identifier? with
    | none =>
      rw [declaredVariable?_of_none hname] at hdeclare
      obtain ⟨rfl, rfl⟩ := Prod.mk.inj (Except.ok.inj hdeclare)
      exact absurd hclean (hnone m _ y s' hrest hinside)
    | some name =>
      have h : M.Introduces s name := ⟨hcheck, hname⟩
      rw [declaredVariable?_of_some hname] at hdeclare
      obtain ⟨rfl, rfl⟩ := Prod.mk.inj (Except.ok.inj hdeclare)
      change body m true (some s.draft.size) M.left (M.named s name) = _ at hrest
      rw [hbody] at hrest
      obtain ⟨x, s₃, hlast, hpush⟩ := bind_eq_ok hrest
      obtain ⟨rfl, rfl⟩ := After.pushFrom _ _ _ _ hpush
      have hthrough := fun t => hafter (M.named s name) t x s₃ hlast hclean hinside
      obtain ⟨hcourse, -⟩ := hthrough t
      refine ⟨h.course_push hcourse (hintroduced _ x), fun hcovers _ =>
        ⟨Clear.loose s, fun hrel => ?_⟩⟩
      obtain ⟨hbehind, hword⟩ := h.covers hcourse (hintroduced _ x) hcovers
      obtain ⟨hasAs, t₁, t₂, hconsume, hdeclare, hrel₂, homitted⟩ := h.follows hrel
      obtain ⟨t₃, hother, hrel₃⟩ := ((hthrough t₂).2 hbehind (Clear.loose s₃)).2 hrel₂
      refine ⟨_, (bind_of_eq_ok hconsume).trans ?_, hrel₃.push (hkind hasAs _ x) _
        ⟨n, max (M.right.endBefore t₃.position) n⟩⟩
      rw [hhead n hasAs M.right t₁ fun hfalse hnamed => ?_, bind_of_eq_ok hdeclare, hbody,
        bind_of_eq_ok hother, hrel₃.draft.size]
      · rfl
      · obtain ⟨homits, hsame⟩ := homitted hfalse
        have hnaming := h.names.isNaming
        rw [h.position_behind] at hnaming
        rw [hsame]
        exact TokenKind.exists_identifier hnaming (hword homits ((hresult _ x).trans hnamed))

/-! ## Ranges -/

theorem follows_rangeRoot : M.Follows first rangeRoot rangeRoot false := by
  refine .starts (.identifier? (fun name => ?_) ((never_missing _).gives fun id => (id, none)).follows)
  refine .place fun span place => follows_advance.bind fun _ => .check rfl fun found => ?_
  cases found with
  | true =>
    exact (follows_pushVariable name span place).bind fun root => .segments fun left right dot hvalues =>
      (follows_pushPath .collectionValued root dot hvalues _ _).gives fun id => (id, none)
  | false => exact (follows_push (.refl _) rfl span place).gives fun id => (id, some name)

theorem follows_virtualVariable (entity : String) :
    M.Follows known (virtualVariable entity) (virtualVariable entity) known :=
  .place fun span place => (follows_setVirtual _).bind fun _ => follows_push (.refl _) rfl span place

/-- A range behind its variable, if it has one. -/
def rangeBody (allowVirtual : Bool) (root : NodeId × Option String) (start : Nat) (hasAs : Bool)
    (declared? : Option NodeId) : Parser NodeId := do
  let declared ← match declared? with
    | some declared => pure (some declared)
    | none =>
      match root.2 with
      | some name =>
        if allowVirtual && !hasAs then some <$> virtualVariable name
        else missingVariable *> pure none
      | none => missingVariable *> pure none
  pushFrom (.rangeDeclaration root.1 hasAs declared) start

/-- **A range with its variable is followed.** -/
theorem follows_rangeDeclaration (allowVirtual : Bool) :
    M.Follows first (rangeDeclaration allowVirtual) (rangeDeclaration allowVirtual) false := by
  have htail : ∀ root m n, M.Follows false
      (consumeKeyword .as >>= fun hasAs => declaredVariable? >>= rangeBody allowVirtual root m hasAs)
      (consumeKeyword .as >>= fun hasAs => declaredVariable? >>= rangeBody allowVirtual root n hasAs)
      false := by
    intro root m n
    have hmissing : ∀ m hasAs, M.Never (do
        let declared ← missingVariable *> pure none
        pushFrom (.rangeDeclaration root.1 hasAs declared) m) := fun m hasAs =>
      never_missingVariable.pushFrom (fun _ => .rangeDeclaration root.1 hasAs none) m
    refine follows_introducing (fun hasAs declared _ => .rangeDeclaration root.1 hasAs (some declared))
      (pure ()) false (fun _ _ _ _ _ => rfl) (fun _ _ _ => rfl) (fun m => ?_) (.pure ())
      (fun _ _ _ => .refl _) (fun _ _ => rfl) (fun _ _ => rfl) (fun m n s t hkept => ?_) m n
    · -- with `AS` the variable has to be there
      obtain ⟨root, entity⟩ := root
      cases entity with
      | none => exact hmissing m true
      | some name => cases allowVirtual <;> exact hmissing m true
    · refine (FollowsAt.declaredVariable? hkept).bind fun declared? s t => ?_
      have hnode : ∀ declared? : Option NodeId, M.Follows false
          (pushFrom (.rangeDeclaration root.1 false declared?) m)
          (pushFrom (.rangeDeclaration root.1 false declared?) n) false := fun _ =>
        follows_pushFrom rfl m n
      cases declared? with
      | some declared => exact hnode (some declared) s t
      | none =>
        obtain ⟨root, entity⟩ := root
        cases entity with
        | none => exact (hmissing m false).follows s t
        | some name =>
          cases allowVirtual with
          | true => exact (((follows_virtualVariable name).map some).bind hnode) s t
          | false => exact (hmissing m false).follows s t
  exact .place fun m n => follows_rangeRoot.bind fun root => htail root m n

/-! ## Collections and joins -/

/-- A collection behind its variable, if it has one. -/
def collectionBody (path : NodeId) (start : Nat) (hasAs : Bool) (declared? : Option NodeId) :
    Parser NodeId := do
  if declared?.isNone then missingVariable
  pushFrom (.collectionDeclaration path hasAs declared?) start

/-- A join behind its variable, if it has one. -/
def joinBody (deeper : Deeper) (type : JoinType) (fetch : Bool) (path : NodeId) (start : Nat)
    (hasAs : Bool) (declared? : Option NodeId) : Parser NodeId := do
  if declared?.isNone && (hasAs || !fetch) then missingVariable
  let on ← onClause? deeper
  pushFrom (.join type fetch path hasAs declared? on) start

/-- The path of a join that is read as collection-valued. -/
def joinTarget (path : NodeId) : NodeKind → NodeId
  | .treat inner _ _ => inner
  | _ => path

theorem follows_joinType : M.Follows known joinType joinType known := by
  refine (follows_consume rfl).bind fun found => ?_
  cases found with
  | true =>
    refine (follows_consume rfl).bind fun found => ?_
    cases found with
    | true => exact .pure _
    | false => exact .pure _
  | false =>
    refine (follows_consume rfl).bind fun found => ?_
    cases found with
    | true => exact .pure _
    | false => exact .pure _

section

variable {deeper : Deeper} (hd : M.Nested deeper)

include hd

/-- **A collection with its variable is followed.** -/
theorem follows_collectionDeclaration :
    M.Follows true (collectionDeclaration deeper) (collectionDeclaration deeper) false := by
  have htail : ∀ path m n, M.Follows false
      (consumeKeyword .as >>= fun hasAs => declaredVariable? >>= collectionBody path m hasAs)
      (consumeKeyword .as >>= fun hasAs => declaredVariable? >>= collectionBody path n hasAs) false := by
    intro path m n
    have hmissing : ∀ m hasAs, M.Never (collectionBody path m hasAs none) := fun m hasAs =>
      never_missingVariable.pushFrom (fun _ => .collectionDeclaration path hasAs none) m
    refine follows_introducing (fun hasAs declared _ => .collectionDeclaration path hasAs (some declared))
      (pure ()) false (fun _ _ _ _ _ => rfl) (fun _ _ _ => rfl) (fun m => hmissing m true) (.pure ())
      (fun _ _ _ => .refl _) (fun _ _ => rfl) (fun _ _ => rfl) (fun m n s t hkept => ?_) m n
    refine (FollowsAt.declaredVariable? hkept).bind fun declared? s t => ?_
    cases declared? with
    | some declared => exact follows_pushFrom rfl m n s t
    | none => exact (hmissing m false).follows s t
  exact .place fun m n => follows_advance.bind fun _ => (follows_expect _).bind fun _ =>
    (follows_primary hd _).bind fun path => (follows_asCollection path).bind fun _ =>
      (follows_expect _).bind fun _ => htail path m n

theorem follows_onClause? : M.Follows false (onClause? deeper) (onClause? deeper) false := by
  refine .atKeyword rfl fun found => ?_
  cases found with
  | true =>
    exact .place fun m n => follows_advance.loose.bind fun _ => (follows_condition hd).bind fun _ =>
      (follows_pushFrom rfl m n).gives some
  | false => exact .pure none

/-- The variable of a join, and what follows it. -/
theorem follows_joinTail (type : JoinType) (fetch : Bool) (path : NodeId) (m n : Nat) : M.Follows false
    (consumeKeyword .as >>= fun hasAs => declaredVariable? >>= joinBody deeper type fetch path m hasAs)
    (consumeKeyword .as >>= fun hasAs => declaredVariable? >>= joinBody deeper type fetch path n hasAs)
    false := by
  have hrest : ∀ hasAs m n, M.Follows false (do
      let on ← onClause? deeper
      pushFrom (.join type fetch path hasAs none on) m) (do
      let on ← onClause? deeper
      pushFrom (.join type fetch path hasAs none on) n) false := fun hasAs m n =>
    (follows_onClause? hd).bind fun on => follows_pushFrom (by cases hasAs <;> rfl) m n
  refine follows_introducing (fun hasAs declared on => .join type fetch path hasAs (some declared) on)
    (onClause? deeper) false (fun _ _ _ _ _ => rfl) (fun _ _ _ => rfl)
    (fun m => never_missingVariable.bind fun _ => hrest true m m) (follows_onClause? hd)
    (fun _ _ _ => .refl _) (fun _ _ => rfl) (fun _ _ => rfl) (fun m n s t hkept => ?_) m n
  refine (FollowsAt.declaredVariable? hkept).bind fun declared? s t => ?_
  cases declared? with
  | some declared => exact ((follows_onClause? hd).bind fun on => follows_pushFrom rfl m n) s t
  | none =>
    cases fetch with
    | true => exact hrest false m n s t
    | false => exact (never_missingVariable.bind fun _ => hrest false m m).follows s t

/-- A join behind its path. -/
theorem follows_joinPath (type : JoinType) (fetch : Bool) (path : NodeId) (m n : Nat) :
    M.Follows false (do
      match ← kindOf path with
      | .treat inner _ _ => asCollection inner
      | _ => asCollection path
      let hasAs ← consumeKeyword .as
      declaredVariable? >>= joinBody deeper type fetch path m hasAs) (do
      match ← kindOf path with
      | .treat inner _ _ => asCollection inner
      | _ => asCollection path
      let hasAs ← consumeKeyword .as
      declaredVariable? >>= joinBody deeper type fetch path n hasAs) false := by
  refine .kindOf fun kind other hkind => ?_
  have hchoose : ∀ (kind : NodeKind) (rest : Unit → Parser NodeId), (match kind with
      | .treat inner _ _ => asCollection inner >>= rest
      | _ => asCollection path >>= rest) = asCollection (joinTarget path kind) >>= rest := by
    intro kind rest
    cases kind <;> rfl
  have hsame : joinTarget path kind = joinTarget path other :=
    hkind.congr (fun kind => by cases kind <;> rfl) fun h => by cases h <;> rfl
  have hread : M.Follows false
      (asCollection (joinTarget path kind) >>= fun _ => consumeKeyword .as >>= fun hasAs =>
        declaredVariable? >>= joinBody deeper type fetch path m hasAs)
      (asCollection (joinTarget path other) >>= fun _ => consumeKeyword .as >>= fun hasAs =>
        declaredVariable? >>= joinBody deeper type fetch path n hasAs) false := by
    rw [hsame]
    exact (follows_asCollection _).bind fun _ => follows_joinTail hd type fetch path m n
  rw [← hchoose kind, ← hchoose other] at hread
  exact hread

/-- **A join is followed.** -/
theorem follows_join : M.Follows first (join deeper) (join deeper) false :=
  .place fun m n => follows_joinType.bind fun type => (follows_expectKeyword _).bind fun _ =>
    (follows_consume rfl).bind fun fetch => (follows_primary hd _).bind fun path =>
      follows_joinPath hd type fetch path m n

/-- A join has a word of its own. -/
theorem advances_join : M.Advances (join deeper) :=
  have hjoinType : M.Follows false joinType joinType false := follows_joinType
  .look fun m => Advances.bind_right hjoinType fun type => .bind (.expectKeyword .join) fun _ =>
    show M.Follows false _ _ false from
      (follows_consume rfl).bind fun fetch => (follows_primary hd _).bind fun path =>
        follows_joinPath hd type fetch path m m

/-! ## Entries of a `FROM` clause -/

/-- A keyword that a join may start with. -/
def TokenKind.startsJoin : TokenKind → Bool
  | .keyword .join | .keyword .left | .keyword .inner => true
  | _ => false

/-- **An entry of a `FROM` clause is followed.** -/
theorem follows_declaration : M.Follows first (declaration deeper) (declaration deeper) false := by
  have hmore : ∀ joins, M.Follows false (do
      if ← look atJoin then return some (joins ++ [← join deeper]) else return none) (do
      if ← look atJoin then return some (joins ++ [← join deeper]) else return none) false := by
    intro joins
    refine .lookAt (k := TokenKind.startsJoin) (TokenKind.forall_naming (fun _ => rfl)
      fun word hword => ?_) fun found => ?_
    · cases word <;> first | rfl | cases hword
    · cases found with
      | true => exact (follows_join hd).gives fun id => some (joins ++ [id])
      | false => exact .pure none
  refine .atKeyword rfl fun found => ?_
  cases found with
  | true => exact (follows_collectionDeclaration hd).starts
  | false =>
    exact .place fun m n => (follows_rangeDeclaration false).bind fun range =>
      (follows_loop hmore (.of_look (advances_join hd)) []).bind fun joins => follows_pushFrom rfl m n

end

end Jpql.Elision
