import Jpql.Proofs.Elide.Follow
import Jpql.Proofs.Layout.Simulation
import Jpql.Proofs.Reader.Run

/-! # Steps of a run without some of its `AS`

Each basic step is followed: a move over a token, a node that is added, a path that is read as
collection-valued; and with the steps of a repetition the whole of it.

A token that a run moves over without adding a node is not omitted (`Elision.Covers.passed`), so it is the
same in both texts. A token that is only looked at may be an omitted `AS` in the one text and a name in the
other. Whatever tells these apart from neither is the same in both runs (`Elision.Follows.lookKind`); for
everything else it has to be known that the token is not omitted (`Elision.Follows.lookClear`). -/

namespace Jpql

/-- A token that is neither a name nor `AS`. -/
def TokenKind.isPlain (kind : TokenKind) : Bool := !kind.isNaming && kind != .keyword .as

theorem TokenKind.ne_of_isPlain {kind other : TokenKind} (h : kind.isPlain = true)
    (hother : other.isNaming = true ∨ other = .keyword .as) : other ≠ kind := by
  rintro rfl
  rw [isPlain, Bool.and_eq_true] at h
  rcases hother with hnaming | rfl
  · rw [hnaming] at h
    cases h.1
  · cases h.2

/-- A plain token is neither seen where there is a name nor where there is `AS`. -/
theorem TokenKind.beq_of_isPlain {kind : TokenKind} (h : kind.isPlain = true) {other : TokenKind}
    (hother : other.isNaming = true) : (other == kind) = (.keyword .as == kind) := by
  rw [beq_eq_false_iff_ne.mpr (ne_of_isPlain h (.inl hother)),
    beq_eq_false_iff_ne.mpr (ne_of_isPlain h (.inr rfl))]

namespace Elision

open Parse

variable {M : Elision} {s s' t : State} {first mid last known : Bool}

/-! ## Tokens -/

theorem Rel.stream (h : M.Rel s t) :
    t.stream M.right = ⟨M.right.source, M.right.tokens, M.place s.position⟩ := by
  rw [State.stream, h.position]

/-- A token that is not omitted is seen in both runs. -/
theorem Rel.agrees (h : M.Rel s t) (hs : s.position < M.left.tokens.size)
    (hkept : ¬M.Omits s.position) : (s.stream M.left).Agrees (t.stream M.right) := by
  rw [h.stream]
  exact M.elided.stream_kept hs hkept

theorem not_omits_of_kind (h : (s.stream M.left).kind ≠ .keyword .as) : ¬M.Omits s.position :=
  fun homits => h (M.elided.isAs homits)

/-- **What tells `AS` and names apart from nothing** is the same in both runs. -/
theorem Rel.isKind {α : Type} (h : M.Rel s t) (hs : s.position < M.left.tokens.size)
    {f : TokenKind → α} (hf : ∀ kind : TokenKind, kind.isNaming = true → f kind = f (.keyword .as)) :
    f (t.stream M.right).kind = f (s.stream M.left).kind := by
  rw [h.stream]
  exact M.elided.isKind hs hf

theorem Rel.move (h : M.Rel s t) {n m : Nat} (hm : m = M.place n) :
    M.Rel { s with position := n } { t with position := m } := { h with position := hm }

/-- Behind a token that is not omitted both runs are at the same place. -/
theorem Rel.advance (h : M.Rel s t) (hs : s.position < M.left.tokens.size)
    (hkept : ¬M.Omits s.position) : M.Rel { s with position := (s.stream M.left).advance.position }
      { t with position := (t.stream M.right).advance.position } := by
  refine h.move ?_
  rw [h.stream]
  exact M.elided.advance_kept hs hkept

/-- **A token that is moved over alone is not omitted.** -/
theorem Covers.passed
    (hcovers : M.Covers s { s with position := (s.stream M.left).advance.position })
    (hs : s.position < M.left.tokens.size) : ¬M.Omits s.position := fun homits => by
  have hkind : (s.stream M.left).kind = .keyword .as := M.elided.isAs homits
  refine hcovers.not_omits rfl (Nat.le_refl _) (lt_advance M.elided.inOrder hs ?_) homits
  rw [hkind]
  rintro ⟨⟩

/-- **A move over one token is followed.** -/
theorem follows_advance : M.Follows true advance advance false := by
  rintro s t _ s' ⟨⟩ - hinside
  have hle := le_advance (s.stream M.left)
  have hs : s.position < M.left.tokens.size := Nat.lt_of_le_of_lt hle hinside
  refine ⟨.still hle rfl, fun hcovers _ => ?_⟩
  have hkept := Covers.passed hcovers hs
  exact ⟨fun _ => hkept, fun hrel => ⟨_, rfl, hrel.advance hs hkept⟩⟩

/-- A token is moved over in both runs, or in neither. If it is a name or `AS`, it has to be known not to
be omitted. -/
theorem follows_consume_of {kind : TokenKind} (hkind : known = true ∨ kind.isPlain = true) :
    M.Follows known (consume kind) (consume kind) known := by
  intro s t found s' hrun _ hinside
  cases hcheck : (s.stream M.left).check kind with
  | true =>
    rw [consume_of_check hcheck] at hrun
    obtain ⟨rfl, rfl⟩ := Prod.mk.inj (Except.ok.inj hrun)
    have hle := le_advance (s.stream M.left)
    have hs : s.position < M.left.tokens.size := Nat.lt_of_le_of_lt hle hinside
    refine ⟨.still hle rfl, fun hcovers _ => ?_⟩
    have hkept := Covers.passed hcovers hs
    refine ⟨fun _ => hkept, fun hrel => ⟨_, consume_of_check ?_, hrel.advance hs hkept⟩⟩
    rw [TokenStream.check, (hrel.agrees hs hkept).kind]
    exact hcheck
  | false =>
    rw [consume_of_not_check hcheck] at hrun
    obtain ⟨rfl, rfl⟩ := Prod.mk.inj (Except.ok.inj hrun)
    refine ⟨.still (Nat.le_refl _) rfl, fun _ hclear =>
      ⟨hclear, fun hrel => ⟨t, consume_of_not_check ?_, hrel⟩⟩⟩
    refine Eq.trans ?_ hcheck
    rcases hkind with rfl | hplain
    · rw [TokenStream.check, (hrel.agrees hinside (hclear rfl)).kind]
      rfl
    · exact hrel.isKind hinside (f := (· == kind)) fun _ hnaming => TokenKind.beq_of_isPlain hplain hnaming

theorem follows_consume {kind : TokenKind} (hkind : kind.isPlain = true) :
    M.Follows known (consume kind) (consume kind) known := follows_consume_of (.inr hkind)

theorem clear_consume (kind : TokenKind) : M.Follows true (consume kind) (consume kind) true :=
  follows_consume_of (.inl rfl)

/-- **A token that is expected** is there in both runs. -/
theorem follows_expect_found (kind : TokenKind) : M.Follows first (expect kind) (expect kind) false := by
  refine Follows.starts fun s t found s' hrun hclean hinside => ?_
  cases hcheck : (s.stream M.left).check kind with
  | true =>
    rw [expect_of_check hcheck] at hrun
    obtain ⟨rfl, rfl⟩ := Prod.mk.inj (Except.ok.inj hrun)
    have hle := le_advance (s.stream M.left)
    have hs : s.position < M.left.tokens.size := Nat.lt_of_le_of_lt hle hinside
    refine ⟨.still hle rfl, fun hcovers _ => ?_⟩
    have hkept := Covers.passed hcovers hs
    refine ⟨fun _ => hkept, fun hrel => ⟨_, expect_of_check ?_, hrel.advance hs hkept⟩⟩
    rw [TokenStream.check, (hrel.agrees hs hkept).kind]
    exact hcheck
  | false =>
    obtain ⟨problem, heq⟩ := expect_of_not_check hcheck
    rw [heq] at hrun
    obtain ⟨rfl, rfl⟩ := Prod.mk.inj (Except.ok.inj hrun)
    exact absurd hclean (List.append_ne_nil_of_right_ne_nil s.problems (List.cons_ne_nil problem []))

theorem follows_expect (kind : TokenKind) :
    M.Follows first (discard (expect kind)) (discard (expect kind)) false :=
  (follows_expect_found kind).map fun _ => ()

theorem follows_expectKeyword (word : Keyword) :
    M.Follows first (expectKeyword word) (expectKeyword word) false := follows_expect _

/-! ## Nodes -/

theorem Course.push {kind : NodeKind} (hplain : kind.introduced? = none) (span : Span) :
    M.Course s (s.write (s.draft.push kind span)) := by
  refine .of_plain (Nat.le_refl _) (Draft.Stays.push _ _ _) fun id hge hlt => ?_
  have hsize : (s.draft.push kind span).size = s.draft.size + 1 := Draft.size_push _ _ _
  change id < (s.draft.push kind span).size at hlt
  obtain rfl : id = s.draft.size := by omega
  show ((s.draft.push kind span).kind s.draft.size).introduced? = none
  rw [Draft.kind_push]
  exact hplain

theorem Rel.push (h : M.Rel s t) {kind other : NodeKind} (hkind : kind.ButAs other)
    (span place : Span) :
    M.Rel (s.write (s.draft.push kind span)) (t.write (t.draft.push other place)) :=
  { h with draft := h.draft.push NodeKind.congruence_butAs hkind span place }

/-- **A node is added in both runs.** -/
theorem follows_push {kind other : NodeKind} (hkind : kind.ButAs other)
    (hplain : kind.introduced? = none) (span place : Span) :
    M.Follows known (push kind span) (push other place) known := by
  intro s t y s' hrun _ _
  obtain ⟨rfl, rfl⟩ := After.push kind span y s' hrun
  refine ⟨.push hplain span, fun _ hclear => ⟨hclear, fun hrel => ⟨_, ?_, hrel.push hkind span place⟩⟩⟩
  rw [hrel.draft.size]
  rfl

theorem follows_pushFrom_of {kind other : NodeKind} (hkind : kind.ButAs other)
    (hplain : kind.introduced? = none) (m n : Nat) :
    M.Follows known (pushFrom kind m) (pushFrom other n) known :=
  .place fun span place => follows_push hkind hplain span place

theorem follows_pushFrom {kind : NodeKind} (hplain : kind.introduced? = none) (m n : Nat) :
    M.Follows known (pushFrom kind m) (pushFrom kind n) known := follows_pushFrom_of (.refl _) hplain m n

/-- A node that is added takes no problem away. -/
theorem Never.pushFrom {α : Type} {p : Parser α} (h : M.Never p) (kind : α → NodeKind) (m : Nat) :
    M.Never (p >>= fun y => Parse.pushFrom (kind y) m) := by
  intro s id s' hrun hinside
  obtain ⟨y, s₁, hp, hpush⟩ := bind_eq_ok hrun
  obtain ⟨rfl, rfl⟩ := After.pushFrom _ _ _ _ hpush
  exact h s y s₁ hp hinside

/-- **A path is read as collection-valued in both runs.** -/
theorem follows_asCollection (id : NodeId) :
    M.Follows known (asCollection id) (asCollection id) known := by
  rintro s t _ _ ⟨⟩ - -
  refine ⟨.of_plain (Nat.le_refl _) (Draft.Stays.asCollection _ _) fun other hge hlt => ?_,
    fun _ hclear => ⟨hclear, fun hrel => ⟨_, rfl,
      { hrel with draft := hrel.draft.asCollection NodeKind.congruence_butAs id }⟩⟩⟩
  change other < (s.draft.asCollection id).size at hlt
  rw [Draft.size_asCollection] at hlt
  omega

theorem follows_setVirtual (name : Option String) :
    M.Follows known (modify ({ · with virtualVariable := name }) : Parser Unit)
      (modify ({ · with virtualVariable := name })) known := by
  rintro s t _ _ ⟨⟩ - -
  exact ⟨.still (Nat.le_refl _) rfl, fun _ hclear =>
    ⟨hclear, fun hrel => ⟨_, rfl, { hrel with virtualVariable := rfl }⟩⟩⟩

/-! ## Looks -/

section

variable {α β γ : Type} {p : Parser α} {q : Parser α} {f g : α → Parser β}

namespace Follows

/-- **What tells `AS` and names apart from nothing** decides alike. -/
theorem lookKind {f g : TokenKind → Parser β}
    (hg : ∀ kind : TokenKind, kind.isNaming = true → g kind = g (.keyword .as))
    (h : ∀ kind, M.Follows first (f kind) (g kind) last) :
    M.Follows first (look (·.kind) >>= f) (look (·.kind) >>= g) last := by
  intro s t y s' hrun hclean hinside
  obtain ⟨hcourse, hmore⟩ := h (s.stream M.left).kind s t y s' hrun hclean hinside
  refine ⟨hcourse, fun hcovers hclear => ?_⟩
  obtain ⟨hstart, hmirror⟩ := hmore hcovers hclear
  refine ⟨hstart, fun hrel => ?_⟩
  show ∃ t', g (t.stream M.right).kind M.right t = _ ∧ _
  rw [hrel.isKind (Nat.lt_of_le_of_lt hcourse.position_le hinside) hg]
  exact hmirror hrel

/-- So it is seen alike. -/
theorem lookAt {k : TokenKind → α}
    (hk : ∀ kind : TokenKind, kind.isNaming = true → k kind = k (.keyword .as))
    (h : ∀ y, M.Follows first (f y) (g y) last) :
    M.Follows first (look (fun stream => k stream.kind) >>= f)
      (look (fun stream => k stream.kind) >>= g) last := fun s t =>
  .look (fun hs _ hrel => hrel.isKind hs hk) (h _ s t)

/-- A plain token is ahead in both runs, or in neither. -/
theorem check {kind : TokenKind} (hkind : kind.isPlain = true) {f g : Bool → Parser β}
    (h : ∀ found, M.Follows first (f found) (g found) last) :
    M.Follows first (look (·.check kind) >>= f) (look (·.check kind) >>= g) last :=
  lookAt (k := (· == kind)) (fun _ hnaming => TokenKind.beq_of_isPlain hkind hnaming) h

/-- A keyword that is neither a name nor `AS` is ahead in both runs, or in neither. -/
theorem atKeyword {word : Keyword} (hword : (TokenKind.keyword word).isPlain = true)
    {f g : Bool → Parser β} (h : ∀ found, M.Follows first (f found) (g found) last) :
    M.Follows first (Parse.atKeyword word >>= f) (Parse.atKeyword word >>= g) last := by
  have hfalse : ∀ other : TokenKind, other ≠ .keyword word → other.isKeyword word = false :=
    fun other hne => Bool.eq_false_iff.mpr fun hc => hne (TokenKind.eq_of_isKeyword hc)
  refine lookAt (k := (·.isKeyword word)) (fun kind hnaming => ?_) h
  rw [hfalse _ (TokenKind.ne_of_isPlain hword (.inl hnaming)),
    hfalse _ (TokenKind.ne_of_isPlain hword (.inr rfl))]

/-- **A token that is not omitted** shows the same in both runs. -/
theorem lookClear {k : TokenStream → α} (hk : ∀ a b : TokenStream, a.Agrees b → k b = k a)
    (h : ∀ y, M.Follows true (f y) (g y) last) :
    M.Follows true (look k >>= f) (look k >>= g) last := fun s t =>
  .look (fun hs hclear hrel => hk _ _ (hrel.agrees hs (hclear rfl))) (h _ s t)

/-- **A name**, or something else that is known not to be omitted. -/
theorem identifier? {f g : Option String → Parser β}
    (hsome : ∀ name, M.Follows true (f (some name)) (g (some name)) last)
    (hnone : M.Follows true (f none) (g none) last) :
    M.Follows true (look (·.identifier?) >>= f) (look (·.identifier?) >>= g) last :=
  lookClear (fun _ _ h => h.identifier?) fun name? => by
    cases name? with
    | some name => exact hsome name
    | none => exact hnone

/-- The kinds of a node agree. -/
theorem kindOf {id : NodeId} {f g : NodeKind → Parser β}
    (h : ∀ kind other : NodeKind, kind.ButAs other → M.Follows first (f kind) (g other) last) :
    M.Follows first (Parse.kindOf id >>= f) (Parse.kindOf id >>= g) last := by
  intro s t y s' hrun hclean hinside
  obtain ⟨hcourse, -⟩ := h _ _ (.refl (s.draft.kind id)) s t y s' hrun hclean hinside
  refine ⟨hcourse, fun hcovers hclear => ?_⟩
  obtain ⟨hstart, -⟩ := (h _ _ (.refl (s.draft.kind id)) s t y s' hrun hclean hinside).2 hcovers hclear
  refine ⟨hstart, fun hrel => ?_⟩
  exact ((h _ _ (hrel.draft.kind id) s t y s' hrun hclean hinside).2 hcovers hclear).2 hrel

/-- The virtual variable is the same in both runs. -/
theorem virtualVariable {f g : Option String → Parser β}
    (h : ∀ owner, M.Follows first (f owner) (g owner) last) :
    M.Follows first (get >>= fun state => f state.virtualVariable)
      (get >>= fun state => g state.virtualVariable) last := by
  intro s t y s' hrun hclean hinside
  obtain ⟨hcourse, hmore⟩ := h s.virtualVariable s t y s' hrun hclean hinside
  refine ⟨hcourse, fun hcovers hclear => ?_⟩
  obtain ⟨hstart, hmirror⟩ := hmore hcovers hclear
  refine ⟨hstart, fun hrel => ?_⟩
  show ∃ t', g t.virtualVariable M.right t = _ ∧ _
  rw [hrel.virtualVariable]
  exact hmirror hrel

theorem virtualFor? {name : String} {f g : Option String → Parser β}
    (h : ∀ owner, M.Follows first (f owner) (g owner) last) :
    M.Follows first (Parse.virtualFor? name >>= f) (Parse.virtualFor? name >>= g) last :=
  virtualVariable (f := fun owner => f (owner.filter fun virtualName => !Text.sameWord name virtualName))
    (g := fun owner => g (owner.filter fun virtualName => !Text.sameWord name virtualName)) fun _ => h _

theorem withoutVirtual (h : M.Follows first p q last) :
    M.Follows first (Parse.withoutVirtual p) (Parse.withoutVirtual q) last :=
  have hrest : ∀ outer : Option String, M.Follows first (do
      modify ({ · with virtualVariable := none })
      let a ← p
      modify ({ · with virtualVariable := outer })
      return a) (do
      modify ({ · with virtualVariable := none })
      let a ← q
      modify ({ · with virtualVariable := outer })
      return a) last := fun outer =>
    (follows_setVirtual none).bind fun _ => h.bind fun _ => (follows_setVirtual outer).bind fun _ => .pure _
  virtualVariable hrest

/-- The grammar is asked in both runs. -/
theorem dispatch {rule : String} {trigger : Trigger} {f g : Option Construct → Parser β}
    (h : ∀ construct?, Grammar.standard.dispatch rule trigger = .ok construct? →
      M.Follows first (f construct?) (g construct?) last) :
    M.Follows first (Parse.dispatch rule trigger >>= f) (Parse.dispatch rule trigger >>= g) last := by
  have hrun : ∀ {γ : Type} (env : Env) (s : State) (k : Option Construct → Parser γ)
      (construct? : Option Construct), env.grammar = .standard →
      Grammar.standard.dispatch rule trigger = .ok construct? →
      (Parse.dispatch rule trigger >>= k) env s = k construct? env s := by
    intro _ env s k construct? hstandard hdispatch
    refine bind_of_eq_ok ?_
    rw [dispatch_run, hstandard, hdispatch]
    rfl
  intro s t y s' hleft hclean hinside
  cases hdispatch : Grammar.standard.dispatch rule trigger with
  | error error =>
    obtain ⟨y, u, hfirst, -⟩ := bind_eq_ok hleft
    rw [dispatch_run, M.elided.grammarLeft, hdispatch] at hfirst
    cases hfirst
  | ok construct? =>
    rw [hrun _ _ _ _ M.elided.grammarLeft hdispatch] at hleft
    obtain ⟨hcourse, hmore⟩ := h construct? hdispatch s t y s' hleft hclean hinside
    refine ⟨hcourse, fun hcovers hclear => ?_⟩
    rw [hrun _ _ _ _ M.elided.grammarRight hdispatch]
    exact hmore hcovers hclear

/-- What is read up to a token. -/
theorem closed (h : M.Follows first p q mid) (kind : TokenKind) : M.Follows first (do
      let y ← p
      discard (expect kind)
      return y) (do
      let y ← q
      discard (expect kind)
      return y) false :=
  h.bind fun _ => (follows_expect kind).bind fun _ => .pure _

end Follows

/-! ## Repetition -/

section Loop

variable {next next' : α → Parser (Option α)}

/-- **Every run of the reader that reports nothing moves over a token.** -/
def Advances (M : Elision) (p : Parser α) : Prop :=
  ∀ s y s', p M.left s = .ok (y, s') → s'.draft.problems = [] →
    s'.position < M.left.tokens.size → M.Course s s' ∧ s.position < s'.position

namespace Advances

/-- A token that is expected is moved over. -/
theorem expectKeyword (word : Keyword) : M.Advances (Parse.expectKeyword word) := by
  intro s y s' hrun hclean hinside
  change (expect (.keyword word) >>= fun _ => pure ()) M.left s = _ at hrun
  obtain ⟨found, s₁, hexpect, hrest⟩ := bind_eq_ok hrun
  obtain ⟨-, rfl⟩ := Prod.mk.inj (Except.ok.inj hrest)
  cases hcheck : (s.stream M.left).check (.keyword word) with
  | true =>
    rw [expect_of_check hcheck] at hexpect
    obtain ⟨-, rfl⟩ := Prod.mk.inj (Except.ok.inj hexpect)
    have hle := le_advance (s.stream M.left)
    refine ⟨.still hle rfl, lt_advance M.elided.inOrder (Nat.lt_of_le_of_lt hle hinside) ?_⟩
    rw [show (s.stream M.left).kind = .keyword word from beq_iff_eq.mp hcheck]
    rintro ⟨⟩
  | false =>
    obtain ⟨problem, heq⟩ := expect_of_not_check hcheck
    rw [heq] at hexpect
    obtain ⟨-, rfl⟩ := Prod.mk.inj (Except.ok.inj hexpect)
    exact absurd hclean (List.append_ne_nil_of_right_ne_nil s.problems (List.cons_ne_nil problem []))

theorem bind (h : M.Advances p) (hf : ∀ y, M.Follows first (f y) (g y) last) :
    M.Advances (p >>= f) := by
  intro s z s₂ hrun hclean hinside
  obtain ⟨y, s₁, hp, hrest⟩ := bind_eq_ok hrun
  obtain ⟨hcourse₂, -⟩ := hf y s₁ s₁ z s₂ hrest hclean hinside
  obtain ⟨hcourse₁, hlt⟩ := h s y s₁ hp (hcourse₂.stays.clean hclean)
    (Nat.lt_of_le_of_lt hcourse₂.position_le hinside)
  exact ⟨hcourse₁.trans hcourse₂, Nat.lt_of_lt_of_le hlt hcourse₂.position_le⟩

theorem bind_right (h : M.Follows first p q last) (hf : ∀ y, M.Advances (f y)) :
    M.Advances (p >>= f) := by
  intro s z s₂ hrun hclean hinside
  obtain ⟨y, s₁, hp, hrest⟩ := bind_eq_ok hrun
  obtain ⟨hcourse₂, hlt⟩ := hf y s₁ z s₂ hrest hclean hinside
  obtain ⟨hcourse₁, -⟩ := h s s y s₁ hp (hcourse₂.stays.clean hclean) (hlt.trans hinside)
  exact ⟨hcourse₁.trans hcourse₂, Nat.lt_of_le_of_lt hcourse₁.position_le hlt⟩

/-- A look around does not move. -/
theorem look {γ : Type} {k : TokenStream → γ} {f : γ → Parser β} (hf : ∀ y, M.Advances (f y)) :
    M.Advances (Parse.look k >>= f) := fun s z s₂ hrun => hf (k (s.stream M.left)) s z s₂ hrun

end Advances

/-- A step that goes on moves over a token. -/
def Moves (M : Elision) (next : α → Parser (Option α)) : Prop :=
  ∀ y z s s', next y M.left s = .ok (some z, s') → s'.draft.problems = [] →
    s'.position < M.left.tokens.size → s.position < s'.position

/-- Items that advance are read as long as something is seen. -/
theorem Moves.of_look {k : TokenStream → Bool} {item : Parser β} {add : α → β → α}
    (hitem : M.Advances item) : M.Moves fun y => do
      if ← look k then return some (add y (← item)) else return none := by
  intro y z s s' hrun hclean hinside
  obtain ⟨found, s₁, hfirst, hrest⟩ := bind_eq_ok hrun
  obtain ⟨rfl, rfl⟩ := Prod.mk.inj (Except.ok.inj hfirst)
  split at hrest
  · obtain ⟨x, s₂, hread, hlast⟩ := bind_eq_ok hrest
    obtain ⟨-, rfl⟩ := Prod.mk.inj (Except.ok.inj hlast)
    exact (hitem _ x _ hread hclean hinside).2
  · cases hrest

variable (h : ∀ y, M.Follows known (next y) (next' y) known)

include h

theorem course_loopTo {n : Nat} {y z : α} (hrun : loopTo next n y M.left s = .ok (z, s'))
    (hclean : s'.draft.problems = []) (hinside : s'.position < M.left.tokens.size) :
    M.Course s s' := by
  induction n generalizing y s with
  | zero =>
    obtain ⟨rfl, rfl⟩ := Prod.mk.inj (Except.ok.inj hrun)
    exact .still (Nat.le_refl _) rfl
  | succ n ih =>
    obtain ⟨found, s₁, hnext, ⟨rfl, rfl, rfl⟩ | ⟨w, rfl, hrest⟩⟩ := loopTo_succ hrun
    · exact (h z s s _ _ hnext hclean hinside).1
    · have hcourse := ih hrest
      exact (h y s s _ _ hnext (hcourse.stays.clean hclean)
        (Nat.lt_of_le_of_lt hcourse.position_le hinside)).1.trans hcourse

/-- **Enough repetitions are followed by as many.** Each moves over a token, so the loop of each run ends
before the number of tokens is used up. -/
theorem follows_loopTo (hmoves : M.Moves next) {n : Nat} {y z : α}
    (henough : M.left.tokens.size ≤ s.position + n)
    (hrun : loopTo next n y M.left s = .ok (z, s')) (hclean : s'.draft.problems = [])
    (hinside : s'.position < M.left.tokens.size) (hcovers : M.Covers s s')
    (hclear : M.Clear known s') :
    M.Clear known s ∧ ∀ m t, M.right.tokens.size ≤ M.place s.position + m → M.Rel s t →
      ∃ t', loopTo next' m y M.right t = .ok (z, t') ∧ M.Rel s' t' := by
  induction n generalizing y s with
  | zero =>
    obtain ⟨rfl, rfl⟩ := Prod.mk.inj (Except.ok.inj hrun)
    omega
  | succ n ih =>
    have hs : s.position < M.left.tokens.size :=
      Nat.lt_of_le_of_lt (course_loopTo h hrun hclean hinside).position_le hinside
    have hplace : M.place s.position < M.right.tokens.size := M.elided.kept_lt hs
    have hfuel : ∀ m, M.right.tokens.size ≤ M.place s.position + m → ∃ k, m = k + 1 :=
      fun m hm => ⟨m - 1, by omega⟩
    obtain ⟨found, s₁, hnext, ⟨rfl, rfl, rfl⟩ | ⟨w, rfl, hrest⟩⟩ := loopTo_succ hrun
    · have hstep := fun t => ((h z s t _ _ hnext hclean hinside).2 hcovers hclear)
      refine ⟨(hstep s).1, fun m t hm hrel => ?_⟩
      obtain ⟨m, rfl⟩ := hfuel m hm
      obtain ⟨t', hother, hrel'⟩ := (hstep t).2 hrel
      exact ⟨t', (bind_of_eq_ok hother).trans rfl, hrel'⟩
    · have hcourse₂ := course_loopTo h hrest hclean hinside
      have hclean₁ := hcourse₂.stays.clean hclean
      have hinside₁ := Nat.lt_of_le_of_lt hcourse₂.position_le hinside
      have hmoved := hmoves _ _ _ _ hnext hclean₁ hinside₁
      have hcourse₁ := (h y s s _ _ hnext hclean₁ hinside₁).1
      obtain ⟨hcovers₁, hcovers₂⟩ := hcovers.split hcourse₁ hcourse₂
      obtain ⟨hmid, hlast⟩ := ih (by omega) hrest hcovers₂
      have hstep := fun t => (h y s t _ _ hnext hclean₁ hinside₁).2 hcovers₁ hmid
      refine ⟨(hstep s).1, fun m t hm hrel => ?_⟩
      obtain ⟨m, rfl⟩ := hfuel m hm
      obtain ⟨t₁, hother, hrel₁⟩ := (hstep t).2 hrel
      have hfurther := hcovers₁.place_lt hcourse₁ hmoved hinside₁
      obtain ⟨t', hloop, hrel'⟩ := hlast m t₁ (by omega) hrel₁
      exact ⟨t', (bind_of_eq_ok hother).trans hloop, hrel'⟩

/-- **What is repeated in the one run is repeated in the other.** -/
theorem follows_loop (hmoves : M.Moves next) (y : α) :
    M.Follows known (loop next y) (loop next' y) known := by
  intro s t z s' hrun hclean hinside
  change loopTo next M.left.tokens.size y M.left s = _ at hrun
  refine ⟨course_loopTo h hrun hclean hinside, fun hcovers hclear => ?_⟩
  obtain ⟨hstart, hmore⟩ :=
    follows_loopTo h hmoves (Nat.le_add_left _ _) hrun hclean hinside hcovers hclear
  exact ⟨hstart, hmore M.right.tokens.size t (Nat.le_add_left _ _)⟩

end Loop

end

end Elision

end Jpql
