import Jpql.Proofs.Reader.Passage

/-! # What a whole reader keeps

Most readers do nothing but move over tokens, report problems, and add nodes above those they were
given by other readers. `Conserved` lists these steps: a property of states that survives each of them
survives every such reader. Left out are the two kinds of nodes that depend on what is read around
them: virtual variables, and subqueries.

* `Keeps`: a reader keeps a property of states, and its result satisfies another.
* `Conserved`: every basic step keeps the property. The lemmas below it say so of the readers that all
  others are put together from. -/

namespace Jpql

/-- Kinds of nodes that do not depend on what is read around them. -/
def NodeKind.isContextFree : NodeKind → Bool
  | .identifier _ true _ | .simpleSelectStatement .. => false
  | _ => true

/-- **The kind does not depend on what is read around it, and the children are known.** -/
def NodeKind.Over (known : NodeId → Prop) (kind : NodeKind) : Prop :=
  kind.isContextFree = true ∧ ∀ child ∈ kind.children, known child

namespace Parse

variable {α β : Type} {env : Env} {inv : State → Prop} {known : NodeId → Prop}

/-- **The reader keeps the property of states**, and its result satisfies `post`. -/
def Keeps (env : Env) (inv : State → Prop) (p : Parser α) (post : α → Prop) : Prop :=
  ∀ s, inv s → After env p s fun a t => inv t ∧ post a

namespace Keeps

variable {p : Parser α} {f : α → Parser β} {mid : α → Prop} {post : β → Prop}

theorem pure {a : α} (h : mid a) : Keeps env inv (Pure.pure a) mid := fun _ hs => .pure ⟨hs, h⟩

/-- **One reader after the other.** -/
theorem bind (h : Keeps env inv p mid) (hf : ∀ a, mid a → Keeps env inv (f a) post) :
    Keeps env inv (p >>= f) post := fun s hs =>
  (h s hs).bind fun a t ht => hf a ht.2 t ht.1

theorem mono {weak : α → Prop} (h : Keeps env inv p mid) (hw : ∀ a, mid a → weak a) :
    Keeps env inv p weak := fun s hs => (h s hs).mono fun a _ ht => ⟨ht.1, hw a ht.2⟩

theorem map {g : α → β} (h : Keeps env inv p fun a => post (g a)) : Keeps env inv (g <$> p) post :=
  fun s hs => .map (h s hs)

theorem seqRight {q : Parser β} (h : Keeps env inv p mid) (hq : Keeps env inv q post) :
    Keeps env inv (p *> q) post := h.bind fun _ _ => hq

theorem look {g : TokenStream → α} (hf : ∀ a, Keeps env inv (f a) post) :
    Keeps env inv (Parse.look g >>= f) post := fun s hs => .look_bind (hf _ s hs)

theorem read {f : Env → Parser β} (hf : Keeps env inv (f env) post) :
    Keeps env inv (MonadReader.read >>= f) post := fun s hs => .read_bind (hf s hs)

theorem startOf {id : NodeId} {f : Nat → Parser β} (hf : ∀ n, Keeps env inv (f n) post) :
    Keeps env inv (Parse.startOf id >>= f) post := fun s hs => .startOf_bind (hf _ s hs)

theorem kindOf {id : NodeId} {f : NodeKind → Parser β} (hf : ∀ kind, Keeps env inv (f kind) post) :
    Keeps env inv (Parse.kindOf id >>= f) post := fun _ hs => hf _ _ hs

theorem dispatch {rule : String} {trigger : Trigger} {f : Option Construct → Parser β}
    (hf : ∀ construct?, Keeps env inv (f construct?) post) :
    Keeps env inv (Parse.dispatch rule trigger >>= f) post := fun _ hs =>
  (After.dispatch rule trigger).bind fun construct? t ht => hf construct? t (ht ▸ hs)

theorem loop {next : α → Parser (Option α)} (hnext : ∀ a, mid a → Keeps env inv (next a) fun b =>
    mid (b.getD a)) {a : α} (h : mid a) : Keeps env inv (Parse.loop next a) mid := fun _ hs =>
  After.loop (fun a t => inv t ∧ mid a) (fun a t ht => hnext a ht.2 t ht.1) ⟨hs, h⟩

/-- Items as long as there are more. -/
theorem loop_items {cond : Parser Bool} {item : Parser α} (hcond : Keeps env inv cond fun _ => True)
    (hitem : Keeps env inv item mid) {items : List α} (hitems : ∀ a ∈ items, mid a) :
    Keeps env inv (Parse.loop (fun items => do
      if ← cond then return some (items ++ [← item]) else return none) items)
      fun items => ∀ a ∈ items, mid a := by
  refine .loop (fun items hitems => hcond.bind fun more _ => ?_) hitems
  cases more with
  | false => exact .pure hitems
  | true => exact hitem.bind fun a ha => .pure (by simpa [or_imp, forall_and] using ⟨hitems, ha⟩)

end Keeps

/-- **Every basic step keeps the property.** New nodes are known. -/
structure Conserved (env : Env) (inv : State → Prop) (known : NodeId → Prop) : Prop where
  fresh : ∀ {s}, inv s → known s.draft.size
  moved : ∀ {s}, inv s → ∀ n, inv { s with position := n }
  pushed : ∀ {s}, inv s → ∀ {kind : NodeKind} (span : Span), kind.Over known →
    inv (s.write (s.draft.push kind span))
  recorded : ∀ {s}, inv s → ∀ problem, inv (s.write (s.draft.record problem))
  reread : ∀ {s}, inv s → ∀ id, inv (s.write (s.draft.asCollection id))

/-- All of the nodes are known; there may be one or none, or many. -/
def AllKnown {γ : Type} [Membership NodeId γ] (known : NodeId → Prop) (ids : γ) : Prop :=
  ∀ id ∈ ids, known id

theorem allKnown_none : AllKnown known (none : Option NodeId) := by simp [AllKnown]

theorem allKnown_some {id : NodeId} (h : known id) : AllKnown known (some id) := by
  simpa [AllKnown] using h

theorem allKnown_nil : AllKnown known ([] : List NodeId) := by simp [AllKnown]

theorem allKnown_singleton {id : NodeId} (h : known id) : AllKnown known [id] := by
  simpa [AllKnown] using h

namespace Conserved

variable (C : Conserved env inv known)

include C

/-! ## Basic steps -/

theorem step (f : TokenStream → α × TokenStream) : Keeps env inv (step f) fun _ => True := by
  rintro s hs _ _ ⟨⟩
  exact ⟨C.moved hs _, trivial⟩

theorem advance : Keeps env inv advance fun _ => True := C.step _

theorem consume (kind : TokenKind) : Keeps env inv (consume kind) fun _ => True := C.step _

theorem consumeKeyword (word : Keyword) : Keeps env inv (consumeKeyword word) fun _ => True :=
  C.consume _

omit C in
theorem atKeyword (word : Keyword) : Keeps env inv (atKeyword word) fun _ => True := by
  rintro s hs _ _ ⟨⟩
  exact ⟨hs, trivial⟩

theorem segments : Keeps env inv segments fun _ => True := .read (C.step _)

theorem record (problem : Problem) : Keeps env inv (record problem) fun _ => True := by
  rintro s hs _ _ ⟨⟩
  exact ⟨C.recorded hs problem, trivial⟩

theorem recordHere (key : ProblemKey) (arguments : List String) :
    Keeps env inv (recordHere key arguments) fun _ => True := .look fun _ => C.record _

theorem expect (kind : TokenKind) : Keeps env inv (expect kind) fun _ => True := by
  intro s hs found t hrun
  cases hexpect : (s.stream env).expect kind with
  | ok result =>
    obtain ⟨-, rfl⟩ := (Runs.expect_ok hexpect).of_eq hrun
    exact ⟨C.moved hs _, trivial⟩
  | error problem =>
    obtain ⟨-, rfl⟩ := (Runs.expect_error hexpect).of_eq hrun
    exact ⟨C.recorded hs problem, trivial⟩

theorem discard_expect (kind : TokenKind) :
    Keeps env inv (discard (Parse.expect kind)) fun _ => True := (C.expect kind).map

theorem expectKeyword (word : Keyword) : Keeps env inv (expectKeyword word) fun _ => True :=
  C.discard_expect _

theorem push {kind : NodeKind} (hkind : kind.Over known) (span : Span) :
    Keeps env inv (push kind span) known := by
  rintro s hs _ _ ⟨⟩
  exact ⟨C.pushed hs span hkind, C.fresh hs⟩

theorem pushFrom {kind : NodeKind} (hkind : kind.Over known) (start : Nat) :
    Keeps env inv (pushFrom kind start) known := .look fun _ => C.push hkind _

theorem asCollection (id : NodeId) : Keeps env inv (asCollection id) fun _ => True := by
  rintro s hs _ _ ⟨⟩
  exact ⟨C.reread hs id, trivial⟩

/-- A node without children. -/
theorem pushLeaf {kind : NodeKind} (hkind : kind.isContextFree = true) (hchildren : kind.children = [])
    (span : Span) : Keeps env inv (Parse.push kind span) known :=
  C.push ⟨hkind, by simp [hchildren]⟩ span

theorem pushUnknown (span : Span) (text : String) (key : ProblemKey) (argument : String) :
    Keeps env inv (pushUnknown span text key argument) known :=
  (C.pushLeaf rfl rfl span).bind fun _ hid => (C.record _).bind fun _ _ => .pure hid

theorem missing (what : String) : Keeps env inv (missing what) known :=
  .look fun span => (C.pushLeaf rfl rfl span).bind fun _ hid => (C.record _).bind fun _ _ => .pure hid

theorem missingVariable : Keeps env inv missingVariable fun _ => True := .look fun _ => C.record _

theorem missingClause (clause : String) : Keeps env inv (missingClause clause) fun _ => True :=
  .look fun _ => C.record _

theorem unknownToken : Keeps env inv unknownToken known :=
  .look fun _ => .look fun _ => C.advance.bind fun _ _ => C.pushUnknown _ _ _ _

theorem skipTooDeep : Keeps env inv skipTooDeep known :=
  .read (.look fun _ => (C.step _).bind fun _ _ => .look fun _ => C.pushUnknown _ _ _ _)

theorem trailingText : Keeps env inv trailingText (AllKnown known) := by
  refine .look fun atEnd => ?_
  cases atEnd with
  | true => exact .pure allKnown_none
  | false =>
    refine .read (.look fun _ => (C.step _).bind fun _ _ => (C.pushUnknown _ _ _ _).bind fun id hid => ?_)
    exact .pure (allKnown_some hid)

/-! ## Repetition -/

theorem separated {item : Parser NodeId} (hitem : Keeps env inv item known) :
    Keeps env inv (separated item) (AllKnown known) :=
  hitem.bind fun _ hfirst => .loop_items (C.consume .comma) hitem (allKnown_singleton hfirst)

/-- What an operator makes of known operands. -/
def Joins (known : NodeId → Prop) (operator : Option (NodeId → NodeId → NodeKind)) : Prop :=
  ∀ combine ∈ operator, ∀ left right, known left → known right → (combine left right).Over known

theorem leftChain {first operand : Parser NodeId}
    {operator : Parser (Option (NodeId → NodeId → NodeKind))} (hfirst : Keeps env inv first known)
    (hoperator : Keeps env inv operator (Joins known)) (hoperand : Keeps env inv operand known) :
    Keeps env inv (leftChain first operator operand) known := by
  refine hfirst.bind fun left hleft => .startOf fun start => .loop (fun left hleft => ?_) hleft
  refine hoperator.bind fun combine hcombine => ?_
  cases combine with
  | none => exact .pure hleft
  | some combine =>
    refine hoperand.bind fun right hright => ?_
    exact (C.pushFrom (hcombine combine rfl left right hleft hright) start).bind fun id hid => .pure hid

/-! ## Names -/

theorem pushVariable (name : String) (span : Span) : Keeps env inv (pushVariable name span) known :=
  C.pushLeaf rfl rfl span

theorem pushPath (kind : PathKind) {root : NodeId} (hroot : known root)
    (segments : List (Located String)) (dot : Bool) (start : Nat) :
    Keeps env inv (Parse.pushFrom (.path kind root segments dot) start) known :=
  C.pushFrom ⟨rfl, by simpa [NodeKind.children] using hroot⟩ start

theorem continuePath {root : NodeId} (hroot : known root) (start : Nat) :
    Keeps env inv (continuePath root start) known := by
  refine .look fun atDot => ?_
  cases atDot with
  | true => exact C.segments.bind fun _ _ => C.pushPath _ hroot _ _ _
  | false => exact .pure hroot

theorem declaredVariable? : Keeps env inv declaredVariable? (AllKnown known) := by
  refine .look fun name? => ?_
  cases name? with
  | none => exact .pure allKnown_none
  | some name =>
    refine .look fun _ => C.advance.bind fun _ _ => (C.pushVariable _ _).bind fun id hid => ?_
    exact .pure (allKnown_some hid)

theorem entityType (name : String) : Keeps env inv (entityType name) known :=
  .look fun _ => C.advance.bind fun _ _ => C.pushLeaf rfl rfl _

theorem leaf {kind : NodeKind} (hkind : kind.isContextFree = true) (hchildren : kind.children = []) :
    Keeps env inv (leaf kind) known :=
  .look fun _ => C.advance.bind fun _ _ => .look fun _ => C.pushLeaf hkind hchildren _

end Conserved

end Parse

end Jpql
