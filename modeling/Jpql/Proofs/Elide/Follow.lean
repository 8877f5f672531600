import Jpql.Proofs.Elide.Token
import Jpql.Proofs.Place.Draft

/-! # A run without some of its `AS`

A text is read without problems, and then the same text without some of its `AS`. The second run does what
the first one does, except that it does not find the omitted words.

Which `AS` may be omitted is seen in the nodes: those that introduce a variable. Every other `AS` has to
stay, so a run can be followed only if the omitted words that it moves over are accounted for by nodes it
adds (`Elision.Covers`). Nodes of a run introduce variables with the `AS` of that run alone
(`Elision.Course`), so what is accounted for by a run of two readers is accounted for by the run of each.

* `Elision.FollowsAt`, `Elision.Follows`: the run of a reader is followed. At the start, or at the end, the
  current token may be known not to be omitted.
* `Elision.Follows.bind`: one reader after the other.
* `Elision.Never`: a reader that always reports something. -/

namespace Jpql

namespace NodeKind

/-- **The variable that an `AS` introduces** at the node. -/
def introduced? : NodeKind → Option NodeId
  | .rangeDeclaration _ true declared => declared
  | .collectionDeclaration _ true declared => declared
  | .join _ _ _ true declared _ => declared
  | .resultVariable _ true declared => some declared
  | _ => none

/-- The variable is a child of the node that declares it. -/
theorem mem_children_of_introduced? {kind : NodeKind} {declared : NodeId}
    (h : kind.introduced? = some declared) : declared ∈ kind.children := by
  unfold introduced? at h
  split at h <;> cases h <;> simp [children]

/-- The node names the result of a `SELECT` item. -/
def isResult : NodeKind → Bool
  | .resultVariable .. => true
  | _ => false

/-- The kind with no `AS` in front of the variable that is declared. -/
def withoutAs : NodeKind → NodeKind
  | .rangeDeclaration a _ b => .rangeDeclaration a false b
  | .collectionDeclaration a _ b => .collectionDeclaration a false b
  | .join sort fetch a _ b c => .join sort fetch a false b c
  | .resultVariable a _ b => .resultVariable a false b
  | other => other

/-- **Kinds that agree in all but `AS`**, places, and the wording of leftover text. -/
def ButAs (a b : NodeKind) : Prop := a.withoutAs.Alike b.withoutAs

variable {a b : NodeKind}

theorem ButAs.refl (kind : NodeKind) : kind.ButAs kind := NodeKind.Alike.refl _

theorem ButAs.of_alike (h : a.Alike b) : a.ButAs b := by
  cases h with
  | refl => exact .refl _
  | path kind root dot h => exact .path kind root dot h
  | unknown left right => exact .unknown left right

theorem children_withoutAs (kind : NodeKind) : kind.withoutAs.children = kind.children := by
  cases kind <;> rfl

theorem asCollection_withoutAs (kind : NodeKind) :
    kind.asCollection.withoutAs = kind.withoutAs.asCollection := by
  cases kind <;> rfl

theorem congruence_butAs : Congruence ButAs where
  refl := .refl
  children {a b} h := (children_withoutAs a).symm.trans
    ((NodeKind.Alike.children h).trans (children_withoutAs b))
  asCollection h := by
    rw [ButAs, asCollection_withoutAs, asCollection_withoutAs]
    exact NodeKind.Alike.asCollection h

theorem introduced?_asCollection (kind : NodeKind) :
    kind.asCollection.introduced? = kind.introduced? := by
  cases kind <;> rfl

theorem isResult_asCollection (kind : NodeKind) : kind.asCollection.isResult = kind.isResult := by
  cases kind <;> rfl

end NodeKind

open Parse

/-- **A text, and the same text without some of its `AS`.** -/
structure Elision where
  left : Env
  right : Env
  omits : Token → Bool
  elided : left.Elided right omits

namespace Elision

variable (M : Elision)

/-- The place of a token in the text without the omitted ones. -/
def place (i : Nat) : Nat := M.left.kept M.omits i

/-- The token at a position is omitted. -/
def Omits (i : Nat) : Prop := M.left.Omits M.omits i

/-- **The current token is not omitted**, if that is to be known. -/
def Clear (known : Bool) (s : State) : Prop := known = true → ¬M.Omits s.position

/-- **The token at a position introduces a variable** at one of the nodes from some id on. If it names a
result, its name is no keyword. -/
def Introduced (n : Nat) (s : State) (i : Nat) : Prop :=
  ∃ id declared : Nat, n ≤ id ∧ id < s.draft.size ∧ declared < id ∧
    (s.draft.kind id).introduced? = some declared ∧
    (s.draft.span declared).start = M.left.startAt (i + 1) ∧
    ((s.draft.kind id).isResult = true →
      (TokenStream.kind ⟨M.left.source, M.left.tokens, i + 1⟩).keyword? = none)

/-- **From `s` to `s'` a run has gone.** What introduces a variable at a new node was moved over since,
and so was the name of the variable. -/
structure Course (s s' : State) : Prop where
  position_le : s.position ≤ s'.position
  stays : s.draft.Stays s'.draft
  within : ∀ i, i + 1 < M.left.tokens.size → M.Introduced s.draft.size s' i →
    s.position ≤ i ∧ i + 1 < s'.position
  names : ∀ i, i + 1 < M.left.tokens.size → M.Introduced s.draft.size s' i →
    (TokenStream.kind ⟨M.left.source, M.left.tokens, i + 1⟩).isNaming = true

/-- **Every omitted `AS` that was moved over introduces a variable at a new node.** -/
def Covers (s s' : State) : Prop :=
  ∀ i, s.position ≤ i → i < s'.position → M.Omits i → M.Introduced s.draft.size s' i

/-- **The states of the two runs correspond.** -/
structure Rel (s t : State) : Prop where
  position : t.position = M.place s.position
  virtualVariable : t.virtualVariable = s.virtualVariable
  problems : t.problems = []
  draft : s.draft.Similar NodeKind.ButAs t.draft

/-- **If the run of `p` from `s` reports nothing, the run of `q` from `t` follows**, with the same result.
What is to be known at the end gives what is known at the start. -/
def FollowsAt {α : Type} (s t : State) (first : Bool) (p q : Parser α) (last : Bool) : Prop :=
  ∀ y s', p M.left s = .ok (y, s') → s'.draft.problems = [] → s'.position < M.left.tokens.size →
    M.Course s s' ∧ (M.Covers s s' → M.Clear last s' → M.Clear first s ∧
      (M.Rel s t → ∃ t', q M.right t = .ok (y, t') ∧ M.Rel s' t'))

/-- **The run of `q` follows the run of `p`**, wherever they start. -/
def Follows {α : Type} (first : Bool) (p q : Parser α) (last : Bool) : Prop :=
  ∀ s t, M.FollowsAt s t first p q last

/-- **Every run of the reader reports something.** -/
def Never {α : Type} (p : Parser α) : Prop :=
  ∀ s y s', p M.left s = .ok (y, s') → s'.position < M.left.tokens.size → s'.draft.problems ≠ []

variable {M} {s s₁ s' t : State} {first mid last : Bool} {i : Nat}

/-! ## Courses -/

theorem Introduced.split {n : Nat} (hstays : s₁.draft.Stays s'.draft) (h : M.Introduced n s' i) :
    M.Introduced n s₁ i ∨ M.Introduced s₁.draft.size s' i := by
  obtain ⟨id, declared, hn, hid, hlt, hkind, hspan, hresult⟩ := h
  rcases Nat.lt_or_ge id s₁.draft.size with hold | hnew
  · have hsame : (s'.draft.kind id).introduced? = (s₁.draft.kind id).introduced? ∧
        (s'.draft.kind id).isResult = (s₁.draft.kind id).isResult := by
      rcases hstays.kind_eq id hold with hk | hk <;> rw [hk]
      · exact ⟨rfl, rfl⟩
      · exact ⟨NodeKind.introduced?_asCollection _, NodeKind.isResult_asCollection _⟩
    refine .inl ⟨id, declared, hn, hold, hlt, hsame.1 ▸ hkind, ?_, hsame.2 ▸ hresult⟩
    rw [← hstays.span_eq declared (hlt.trans hold)]
    exact hspan
  · exact .inr ⟨id, declared, hnew, hid, hlt, hkind, hspan, hresult⟩

/-- Where no new node declares a variable, nothing is introduced. -/
theorem Introduced.absurd_of_plain
    (hplain : ∀ id, s.draft.size ≤ id → id < s'.draft.size → (s'.draft.kind id).introduced? = none)
    (h : M.Introduced s.draft.size s' i) : False := by
  obtain ⟨id, declared, hn, hid, -, hkind, -⟩ := h
  rw [hplain id hn hid] at hkind
  cases hkind

namespace Course

theorem of_plain (hle : s.position ≤ s'.position) (hstays : s.draft.Stays s'.draft)
    (hplain : ∀ id, s.draft.size ≤ id → id < s'.draft.size → (s'.draft.kind id).introduced? = none) :
    M.Course s s' :=
  ⟨hle, hstays, fun _ _ h => (h.absurd_of_plain hplain).elim,
    fun _ _ h => (h.absurd_of_plain hplain).elim⟩

/-- A run that adds no node. -/
theorem still (hle : s.position ≤ s'.position) (hdraft : s'.draft = s.draft) : M.Course s s' :=
  .of_plain hle (hdraft ▸ .refl _) fun id hge hlt => by
    rw [hdraft] at hlt
    omega

theorem trans (h : M.Course s s₁) (k : M.Course s₁ s') : M.Course s s' where
  position_le := h.position_le.trans k.position_le
  stays := h.stays.trans k.stays
  within i hi hintroduced := by
    rcases hintroduced.split k.stays with hfirst | hsecond
    · obtain ⟨hle, hlt⟩ := h.within i hi hfirst
      exact ⟨hle, Nat.lt_of_lt_of_le hlt k.position_le⟩
    · obtain ⟨hle, hlt⟩ := k.within i hi hsecond
      exact ⟨h.position_le.trans hle, hlt⟩
  names i hi hintroduced := (hintroduced.split k.stays).elim (h.names i hi) (k.names i hi)

end Course

/-- **What a run of two readers accounts for, the run of each does.** -/
theorem Covers.split (hcovers : M.Covers s s') (h : M.Course s s₁) (k : M.Course s₁ s') :
    M.Covers s s₁ ∧ M.Covers s₁ s' := by
  have hnext : ∀ {i}, M.Omits i → i + 1 < M.left.tokens.size := fun h => (M.elided.succ_of_omits h).1
  refine ⟨fun i hge hlt homits => ?_, fun i hge hlt homits => ?_⟩
  · rcases (hcovers i hge (Nat.lt_of_lt_of_le hlt k.position_le) homits).split k.stays with
      hfirst | hsecond
    · exact hfirst
    · have hle := (k.within i (hnext homits) hsecond).1
      omega
  · rcases (hcovers i (h.position_le.trans hge) hlt homits).split k.stays with hfirst | hsecond
    · have hlt := (h.within i (hnext homits) hfirst).2
      omega
    · exact hsecond

/-- A token that was moved over while no node was added is not omitted. -/
theorem Covers.not_omits (hcovers : M.Covers s s') (hdraft : s'.draft = s.draft)
    (hge : s.position ≤ i) (hlt : i < s'.position) : ¬M.Omits i := fun homits =>
  (hcovers i hge hlt homits).absurd_of_plain fun id hge hid => by
    rw [hdraft] at hid
    omega

/-- **A run that moves on moves on in both texts.** -/
theorem Covers.place_lt (hcovers : M.Covers s s') (h : M.Course s s') (hlt : s.position < s'.position)
    (hinside : s'.position < M.left.tokens.size) : M.place s.position < M.place s'.position :=
  M.elided.kept_lt_kept hlt (Nat.le_of_lt hinside) fun homits =>
    (h.within _ (M.elided.succ_of_omits homits).1 (hcovers _ (Nat.le_refl _) hlt homits)).2

theorem Clear.loose (s : State) : M.Clear false s := nofun

/-! ## Composition -/

section

variable {α β : Type} {p q : Parser α} {f g : α → Parser β}

namespace FollowsAt

theorem pure (y : α) : M.FollowsAt s t first (Pure.pure y) (Pure.pure y) first := by
  rintro _ _ ⟨⟩ - -
  exact ⟨.still (Nat.le_refl _) rfl, fun _ hclear => ⟨hclear, fun hrel => ⟨t, rfl, hrel⟩⟩⟩

/-- **One reader after the other**, where the second starts as the first one ends. -/
theorem bind_of (h : M.FollowsAt s t first p q mid)
    (hf : ∀ y s₁ t, p M.left s = .ok (y, s₁) → M.FollowsAt s₁ t mid (f y) (g y) last) :
    M.FollowsAt s t first (p >>= f) (q >>= g) last := by
  intro z s₂ hrun hclean hinside
  obtain ⟨y, s₁, hp, hrest⟩ := bind_eq_ok hrun
  have hsecond := fun t => hf y s₁ t hp z s₂ hrest hclean hinside
  obtain ⟨hcourse₂, -⟩ := hsecond t
  obtain ⟨hcourse₁, hfirst⟩ := h y s₁ hp (hcourse₂.stays.clean hclean)
    (Nat.lt_of_le_of_lt hcourse₂.position_le hinside)
  refine ⟨hcourse₁.trans hcourse₂, fun hcovers hclear => ?_⟩
  obtain ⟨hcovers₁, hcovers₂⟩ := hcovers.split hcourse₁ hcourse₂
  obtain ⟨hstart, hmirror⟩ := hfirst hcovers₁ ((hsecond t).2 hcovers₂ hclear).1
  refine ⟨hstart, fun hrel => ?_⟩
  obtain ⟨t₁, hq, hrel₁⟩ := hmirror hrel
  obtain ⟨t₂, hg, hrel₂⟩ := ((hsecond t₁).2 hcovers₂ hclear).2 hrel₁
  exact ⟨t₂, (bind_of_eq_ok hq).trans hg, hrel₂⟩

/-- **One reader after the other.** -/
theorem bind (h : M.FollowsAt s t first p q mid) (hf : ∀ y s t, M.FollowsAt s t mid (f y) (g y) last) :
    M.FollowsAt s t first (p >>= f) (q >>= g) last := h.bind_of fun y s t _ => hf y s t

/-- Less may be known at the start. -/
theorem loose (h : M.FollowsAt s t first p q last) : M.FollowsAt s t false p q last :=
  fun y s' hrun hclean hinside =>
    have hall := h y s' hrun hclean hinside
    ⟨hall.1, fun hcovers hclear => ⟨Clear.loose s, (hall.2 hcovers hclear).2⟩⟩

/-- More may be known at the end. -/
theorem strict (h : M.FollowsAt s t first p q false) : M.FollowsAt s t first p q last :=
  fun y s' hrun hclean hinside =>
    have hall := h y s' hrun hclean hinside
    ⟨hall.1, fun hcovers _ => hall.2 hcovers (Clear.loose s')⟩

/-- A token is known not to be omitted. -/
theorem of_kept (hkept : ¬M.Omits s.position) (h : M.FollowsAt s t false p q last) :
    M.FollowsAt s t first p q last := fun y s' hrun hclean hinside =>
  have hall := h y s' hrun hclean hinside
  ⟨hall.1, fun hcovers hclear => ⟨fun _ => hkept, (hall.2 hcovers hclear).2⟩⟩

/-- What is seen of the tokens is the same in both runs. -/
theorem look {look' : TokenStream → α}
    (hlook : s.position < M.left.tokens.size → M.Clear first s → M.Rel s t →
      look' (t.stream M.right) = look' (s.stream M.left))
    (h : M.FollowsAt s t first (f (look' (s.stream M.left))) (g (look' (s.stream M.left))) last) :
    M.FollowsAt s t first (Parse.look look' >>= f) (Parse.look look' >>= g) last := by
  intro y s' hrun hclean hinside
  obtain ⟨hcourse, hmore⟩ := h y s' hrun hclean hinside
  refine ⟨hcourse, fun hcovers hclear => ?_⟩
  obtain ⟨hstart, hmirror⟩ := hmore hcovers hclear
  refine ⟨hstart, fun hrel => ?_⟩
  show ∃ t', g (look' (t.stream M.right)) M.right t = _ ∧ _
  rw [hlook (Nat.lt_of_le_of_lt hcourse.position_le hinside) hstart hrel]
  exact hmirror hrel

/-- Places of tokens do not matter. -/
theorem place {look' other : TokenStream → α} (h : ∀ m n, M.FollowsAt s t first (f m) (g n) last) :
    M.FollowsAt s t first (Parse.look look' >>= f) (Parse.look other >>= g) last :=
  fun y s' hrun => h (look' (s.stream M.left)) (other (t.stream M.right)) y s' hrun

end FollowsAt

namespace Follows

theorem pure (y : α) : M.Follows first (Pure.pure y) (Pure.pure y) first := fun _ _ => .pure y

theorem bind (h : M.Follows first p q mid) (hf : ∀ y, M.Follows mid (f y) (g y) last) :
    M.Follows first (p >>= f) (q >>= g) last := fun s t => (h s t).bind fun y => hf y

theorem loose (h : M.Follows first p q last) : M.Follows false p q last := fun s t => (h s t).loose

theorem strict (h : M.Follows first p q false) : M.Follows first p q last := fun s t => (h s t).strict

/-- **What moves over its first token** can be followed wherever that is not omitted. -/
theorem starts (h : M.Follows true p q false) : M.Follows first p q last := by
  cases first with
  | true => exact h.strict
  | false => exact h.loose.strict

theorem map (h : M.Follows first p q last) (f : α → β) : M.Follows first (f <$> p) (f <$> q) last :=
  show M.Follows first (p >>= fun y => Pure.pure (f y)) (q >>= fun y => Pure.pure (f y)) last from
    h.bind fun _ => .pure _

theorem seqRight {p' q' : Parser β} (h : M.Follows first p q mid) (hnext : M.Follows mid p' q' last) :
    M.Follows first (p *> p') (q *> q') last := fun s t => (h s t).bind fun _ s t => hnext s t

/-- What comes of a result. -/
theorem gives (h : M.Follows first p q last) (f : α → β) :
    M.Follows first (do return f (← p)) (do return f (← q)) last := h.bind fun _ => .pure _

theorem place {look' other : TokenStream → α} (h : ∀ m n, M.Follows first (f m) (g n) last) :
    M.Follows first (Parse.look look' >>= f) (Parse.look other >>= g) last :=
  fun s t => .place fun m n => h m n s t

theorem startOf {id : Nat} {f g : Nat → Parser β} (h : ∀ m n, M.Follows first (f m) (g n) last) :
    M.Follows first (Parse.startOf id >>= f) (Parse.startOf id >>= g) last :=
  fun s t y s' hrun => h (s.draft.span id).start (t.draft.span id).start s t y s' hrun

end Follows

namespace Never

theorem follows (h : M.Never p) : M.Follows first p q last :=
  fun s _ y s' hrun hclean hinside => absurd hclean (h s y s' hrun hinside)

theorem bind_right (hf : ∀ y, M.Never (f y)) : M.Never (p >>= f) := by
  intro s z s₂ hrun
  obtain ⟨y, s₁, -, hrest⟩ := bind_eq_ok hrun
  exact hf _ _ _ _ hrest

/-- What was reported stays, whatever is followed afterwards. -/
theorem bind (h : M.Never p) (hf : ∀ y, M.Follows first (f y) (g y) last) : M.Never (p >>= f) := by
  intro s z s₂ hrun hinside hclean
  obtain ⟨y, s₁, hp, hrest⟩ := bind_eq_ok hrun
  obtain ⟨hcourse, -⟩ := hf y s₁ s₁ z s₂ hrest hclean hinside
  exact h s y s₁ hp (Nat.lt_of_le_of_lt hcourse.position_le hinside) (hcourse.stays.clean hclean)

/-- Nor does what comes of the result report less. -/
theorem gives (h : M.Never p) (f : α → β) : M.Never (do return f (← p)) :=
  h.bind fun y => show M.Follows false _ _ false from .pure (f y)

/-- A problem stays, whatever is looked at afterwards. -/
theorem record (problem : Problem) (y : α) : M.Never (Parse.record problem *> pure y) := by
  rintro s _ _ ⟨⟩ -
  exact List.append_ne_nil_of_right_ne_nil s.problems (List.cons_ne_nil problem [])

theorem recordHere (key : ProblemKey) (arguments : List String) (y : α) :
    M.Never (Parse.recordHere key arguments *> pure y) :=
  fun s => record ((s.stream M.left).problemHere key arguments) y s

theorem missingClause (clause : String) (y : α) :
    M.Never (do
      Parse.missingClause clause
      return y) :=
  fun s => record ⟨.missingClause, [clause], .point (s.stream M.left).previousEnd, none⟩ y s

end Never

end

theorem never_missing (what : String) : M.Never (Parse.missing what) :=
  .bind_right fun _ => .bind_right fun _ => .record _ _

theorem never_missingVariable : M.Never Parse.missingVariable :=
  fun s => Never.record ⟨.missingVariable, [], .point (s.stream M.left).previousEnd, none⟩ () s

theorem never_pushUnknown (span : Span) (text : String) (key : ProblemKey) (argument : String) :
    M.Never (Parse.pushUnknown span text key argument) := .bind_right fun _ => .record _ _

theorem never_unknownToken : M.Never Parse.unknownToken :=
  .bind_right fun _ => .bind_right fun _ => .bind_right fun _ => never_pushUnknown _ _ _ _

theorem never_skipTooDeep : M.Never Parse.skipTooDeep :=
  .bind_right fun _ => .bind_right fun _ => .bind_right fun _ => .bind_right fun _ =>
    never_pushUnknown _ _ _ _

end Elision

end Jpql
