import Jpql.Proofs.Alias.Token
import Jpql.Proofs.Tree.Order

/-! # A run and its mirror

A statement without alias is read without problems, and the same statement is read with its alias
written out. The second run does what the first one does, at the places where the alias has moved the
tokens to.

What stands in front of a name is known from the finished tree alone, so a step of the second run
depends on what the first run still goes on to do. The judgement looks both ways therefore.
`Mirror.FollowsAt` says of a reader: if its run leads to the finished tree, the state before it did
(`Mirror.Leads`), and then the other run follows, from one pair of states that correspond
(`Mirror.Rel`) to the next. -/

namespace Jpql

namespace NodeKind

theorem isAliased_asCollection (kind : NodeKind) : kind.asCollection.isAliased = kind.isAliased := by
  cases kind <;> rfl

theorem isField_asCollection (kind : NodeKind) : kind.asCollection.isField = kind.isField := by
  cases kind <;> rfl

theorem isPath_asCollection (kind : NodeKind) : kind.asCollection.isPath = kind.isPath := by
  cases kind <;> rfl

theorem isVariable_asCollection (kind : NodeKind) :
    kind.asCollection.isVariable = kind.isVariable := by
  cases kind <;> rfl

/-- Only paths are read anew. -/
theorem eq_of_asCollection {kind other : NodeKind} (h : kind.asCollection = other)
    (hother : other.isPath = false) : kind = other := by
  subst h
  cases kind <;> first | rfl | cases hother

theorem omitsAlias_asCollection (kindOf : NodeId → NodeKind) (kind : NodeKind) :
    kind.asCollection.omitsAlias kindOf = kind.omitsAlias kindOf := by
  cases kind <;> rfl

end NodeKind

/-- The node stands where a collection is expected. -/
def Tree.Collects (tree : Tree) (id : NodeId) : Prop :=
  ∃ parent strength, (id, Slot.collection strength) ∈ (tree.kind parent).slots

/-- **A node has its mirror image.** The path of a bare field may be read as collection-valued there,
if the field stands where a collection is expected. -/
def Tree.Matches (tree : Tree) (v : String) (kind other : NodeKind) (id : NodeId) : Prop :=
  (kind.renamed v tree.image).Alike other ∨ (kind.asCollection.renamed v tree.image).Alike other ∧
    ∃ field name isVirtual, tree.kind field = .identifier name isVirtual (some id) ∧
      tree.Collects field

/-- The name is that of a virtual variable that a range over an entity declares. -/
def Tree.Owns (tree : Tree) (name : String) : Prop :=
  ∃ range root hasAs declared entity,
    tree.kind range = .rangeDeclaration root hasAs (some declared) ∧
      tree.kind root = .schemaName entity ∧ tree.kind declared = .identifier name true none

open Parse

/-- **A statement without alias, and the same with its alias written out**, with the tree that the
first is read into. -/
structure Mirror where
  left : Env
  right : Env
  tree : Tree
  v : String
  aliased : left.Aliased right tree v
  wellFormed : tree.WellFormed
  omits : ∀ id < tree.size, (tree.kind id).omitsAlias tree.kind = true

namespace Mirror

variable (M : Mirror)

/-- The place of a token where the alias is written out. -/
def place (i : Nat) : Nat := M.left.place M.tree M.v i

/-- The kind of a node where the alias is written out. -/
def renamed (kind : NodeKind) : NodeKind := kind.renamed M.v M.tree.image

/-- **The state leads to the finished tree.** Nothing was reported; the nodes there are will stay,
perhaps as paths read as collection-valued; and the paths and names that follow start at tokens that
follow. -/
structure Leads (s : State) : Prop where
  inside : s.position < M.left.tokens.size
  problems : s.problems = []
  size_le : s.draft.size ≤ M.tree.size
  span_eq : ∀ id < s.draft.size, M.tree.span id = s.draft.span id
  kind_eq : ∀ id < s.draft.size,
    M.tree.kind id = s.draft.kind id ∨ M.tree.kind id = (s.draft.kind id).asCollection
  ahead : ∀ id, s.draft.size ≤ id → id < M.tree.size → (M.tree.kind id).isAliased = true →
    ∃ i, s.position ≤ i ∧ i < M.left.tokens.size ∧ M.left.Names i ∧
      (M.tree.span id).start = M.left.startAt i

/-- **The states of the two runs correspond.** -/
structure Rel (s t : State) : Prop where
  position : t.position = M.place s.position
  owner : ∀ name, s.virtualVariable = some name → M.tree.Owns name
  virtualLeft : ∀ id < s.draft.size, ∀ name,
    s.draft.kind id = .identifier name true none → M.tree.Owns name
  virtualRight : t.virtualVariable = none
  problems : t.problems = []
  size : t.draft.size = M.tree.rank s.draft.size
  kind : ∀ id < s.draft.size, (s.draft.kind id).isField = false →
    M.tree.Matches M.v (s.draft.kind id) (t.draft.kind (M.tree.image id)) id
  field : ∀ id < s.draft.size, ∀ name isVirtual, ∀ path : Nat,
    s.draft.kind id = .identifier name isVirtual (some path) →
      path + 1 = id ∧ (s.draft.kind path).isPath = true
  behind : ∀ id < s.draft.size, (s.draft.kind id).isAliased = true →
    ∃ i < s.position, (s.draft.span id).start = M.left.startAt i
  noType : ∀ id expression, t.draft.kind id ≠ .type expression

/-! ## Tokens -/

variable {M} {s s' t : State}

theorem Leads.isAliased (h : M.Leads s) {id : Nat} (hid : id < s.draft.size) :
    (M.tree.kind id).isAliased = (s.draft.kind id).isAliased := by
  rcases h.kind_eq id hid with hk | hk <;> rw [hk]
  exact NodeKind.isAliased_asCollection _

/-- A token at which no path or name of an entity starts stands alone. -/
theorem keeps_of {i : Nat} (hi : i < M.left.tokens.size)
    (h : ∀ id < M.tree.size, (M.tree.kind id).isAliased = true →
      (M.tree.span id).start ≠ M.left.startAt i) : M.tree.Keeps M.left.tokens[i] := by
  have hnone : ∀ p : NodeKind → Bool, (∀ kind, p kind = true → kind.isAliased = true) →
      (M.tree.nodes.any fun node =>
        p node.kind && node.span.start == M.left.tokens[i].span.start) = false := by
    intro p hp
    rw [Bool.eq_false_iff]
    intro hany
    obtain ⟨id, hid, hkind, hstart⟩ := Tree.any_starts.mp hany
    exact h id hid (hp _ hkind) (by rw [hstart, Env.InOrder.startAt_eq hi])
  constructor
  · rw [Tree.startsPath, hnone _ fun kind hk => by rw [NodeKind.isAliased, hk]; rfl, Bool.and_false]
  · rw [Tree.startsEntity, hnone _ fun kind hk => by rw [NodeKind.isAliased, hk, Bool.or_true],
      Bool.and_false]

/-- What starts at a token that was passed was read meanwhile. -/
theorem Rel.new_of_starts (h : M.Rel s t) (hs : M.Leads s) (hs' : M.Leads s') {i : Nat}
    (hi : s.position ≤ i) (hlt : i < M.left.tokens.size)
    (hpassed : i < s'.position ∨ ¬M.left.Names i) {id : Nat} (hid : id < M.tree.size)
    (haliased : (M.tree.kind id).isAliased = true) (hstart : (M.tree.span id).start = M.left.startAt i) :
    s.draft.size ≤ id ∧ id < s'.draft.size := by
  have horder := M.aliased.inOrder
  refine ⟨Nat.le_of_not_lt fun hold => ?_, Nat.lt_of_not_le fun hahead => ?_⟩
  · rw [hs.isAliased hold] at haliased
    obtain ⟨j, hj, hspan⟩ := h.behind id hold haliased
    rw [hs.span_eq id hold, hspan] at hstart
    have heq := horder.startAt_inj (by omega) hlt hstart
    omega
  · obtain ⟨j, hj, hsize, hnames, hspan⟩ := hs'.ahead id hahead hid haliased
    obtain rfl := horder.startAt_inj hlt hsize (hstart.symm.trans hspan)
    rcases hpassed with hpassed | hpassed
    · omega
    · exact hpassed hnames

/-- **A token that was passed stands alone** if no path or name of an entity was read at it. -/
theorem Rel.keeps (h : M.Rel s t) (hs : M.Leads s) (hs' : M.Leads s') {i : Nat}
    (hi : s.position ≤ i) (hlt : i < M.left.tokens.size)
    (hpassed : i < s'.position ∨ ¬M.left.Names i)
    (hnew : ∀ id, s.draft.size ≤ id → id < s'.draft.size → (M.tree.kind id).isAliased = true →
      (M.tree.span id).start ≠ M.left.startAt i) : M.tree.Keeps M.left.tokens[i] :=
  keeps_of hlt fun id hid haliased hstart =>
    have hread := h.new_of_starts hs hs' hi hlt hpassed hid haliased hstart
    hnew id hread.1 hread.2 haliased hstart

/-- Where a path starts, there is a name. -/
theorem Rel.names (h : M.Rel s t) (hs : M.Leads s) {i : Nat} (hi : s.position ≤ i)
    (hlt : i < M.left.tokens.size) (hpath : M.tree.startsPath M.left.tokens[i] = true) :
    M.left.Names i := by
  by_contra hnames
  have hkeeps := h.keeps hs hs hi hlt (.inr hnames) fun id hge hread => by omega
  rw [hkeeps.1] at hpath
  cases hpath

/-- The token that the other run sees. -/
theorem Rel.stream (h : M.Rel s t) :
    t.stream M.right = ⟨M.right.source, M.right.tokens, M.place s.position⟩ := by
  rw [State.stream, h.position]

/-- **The other run sees a token of the same kind**, or the alias in front of a name. -/
theorem Rel.kind_stream (h : M.Rel s t) (hs : M.Leads s) :
    (t.stream M.right).kind = (s.stream M.left).kind ∨
      M.left.Names s.position ∧ (t.stream M.right).kind = .identifier M.v := by
  have hinside := hs.inside
  have hleft : (s.stream M.left).kind = M.left.tokens[s.position].kind :=
    congrArg (·.kind) (Env.InOrder.current_eq hinside)
  rw [h.stream, hleft]
  exact (M.aliased.kind_place hinside).imp_right fun ⟨hpath, hkind⟩ =>
    ⟨h.names hs (Nat.le_refl _) hinside hpath, hkind⟩

/-! ## The judgement -/

variable (M)

/-- **If the run of `p` from `s` leads to the finished tree, `s` does, and the run of `q` from `t`
follows.** The result of `q` is `φ` of the result of `p`. What is known of the finished tree at the
end, `after`, gives what is known of it at the start, `before`. -/
def FollowsAt {α β : Type} (s t : State) (before : State → Prop) (p : Parser α) (q : Parser β)
    (after : α → State → Prop) (φ : α → β) : Prop :=
  ∀ y s', p M.left s = .ok (y, s') → M.Leads s' → after y s' →
    M.Leads s ∧ before s ∧ s.position ≤ s'.position ∧
      (M.Rel s t → ∃ t', q M.right t = .ok (φ y, t') ∧ M.Rel s' t')

/-- **The run of `q` follows the run of `p`**, wherever they start. -/
def Follows {α β : Type} (p : Parser α) (q : Parser β) (φ : α → β) : Prop :=
  ∀ s t, M.FollowsAt s t (fun _ => True) p q (fun _ _ => True) φ

/-- **A node is the next one of the finished tree.** -/
def Adds (kind : NodeKind) (s : State) : Prop :=
  s.draft.size < M.tree.size ∧
    (M.tree.kind s.draft.size = kind ∨ M.tree.kind s.draft.size = kind.asCollection)

variable {M}

section

variable {α β γ δ : Type} {before : State → Prop} {after : α → State → Prop}
  {last : γ → State → Prop} {p : Parser α} {q : Parser β} {φ : α → β} {ψ : γ → δ}

namespace FollowsAt

theorem pure (y : α) : M.FollowsAt s t (after y) (Pure.pure y) (Pure.pure (φ y)) after φ := by
  rintro _ _ ⟨⟩ hs' hafter
  exact ⟨hs', hafter, Nat.le_refl _, fun h => ⟨_, rfl, h⟩⟩

/-- A result that is the same up to ids. -/
theorem done {y : α} {z : β} (h : φ y = z) :
    M.FollowsAt s t (after y) (Pure.pure y) (Pure.pure z) after φ := h ▸ pure y

/-- A result that is the same up to ids, and what has to be known of it. -/
theorem result {y : α} {z : β} (h : φ y = z) (hbefore : ∀ s, after y s → before s) :
    M.FollowsAt s t before (Pure.pure y) (Pure.pure z) after φ := by
  subst h
  rintro _ _ ⟨⟩ hs' hafter
  exact ⟨hs', hbefore _ hafter, Nat.le_refl _, fun hrel => ⟨t, rfl, hrel⟩⟩

/-- **One reader after the other**, where something is known of the result of the first. -/
theorem bind_of {f : α → Parser γ} {g : β → Parser δ} {good : α → State → Prop}
    (hgood : After M.left p s good) (h : M.FollowsAt s t before p q after φ)
    (hf : ∀ y s t, good y s → M.FollowsAt s t (after y) (f y) (g (φ y)) last ψ) :
    M.FollowsAt s t before (p >>= f) (q >>= g) last ψ := by
  intro z s₂ hrun hs₂ hlast
  obtain ⟨y, s₁, hp, hrest⟩ := bind_eq_ok hrun
  have hy := hgood y s₁ hp
  obtain ⟨hs₁, hafter, hle, -⟩ := hf y s₁ t hy z s₂ hrest hs₂ hlast
  obtain ⟨hs, hbefore, hle', hmirror⟩ := h y s₁ hp hs₁ hafter
  refine ⟨hs, hbefore, Nat.le_trans hle' hle, fun hrel => ?_⟩
  obtain ⟨t₁, hq, hrel₁⟩ := hmirror hrel
  obtain ⟨-, -, -, hnext⟩ := hf y s₁ t₁ hy z s₂ hrest hs₂ hlast
  obtain ⟨t₂, hg, hrel₂⟩ := hnext hrel₁
  exact ⟨t₂, (bind_of_eq_ok hq).trans hg, hrel₂⟩

/-- **One reader after the other.** -/
theorem bind {f : α → Parser γ} {g : β → Parser δ} (h : M.FollowsAt s t before p q after φ)
    (hf : ∀ y s t, M.FollowsAt s t (after y) (f y) (g (φ y)) last ψ) :
    M.FollowsAt s t before (p >>= f) (q >>= g) last ψ :=
  h.bind_of (fun _ _ _ => trivial) fun y s t (_ : True) => hf y s t

theorem map {f : α → γ} {g : β → δ} (h : M.FollowsAt s t before p q after φ)
    (hafter : ∀ y s, last (f y) s → after y s) (hval : ∀ y, ψ (f y) = g (φ y)) :
    M.FollowsAt s t before (f <$> p) (g <$> q) last ψ := by
  refine h.bind (f := fun y => Pure.pure (f y)) (g := fun y => Pure.pure (g y)) ?_
  intro y s t z s' hrun hs' hlast
  obtain ⟨rfl, rfl⟩ := Prod.mk.inj (Except.ok.inj hrun)
  exact ⟨hs', hafter y _ hlast, Nat.le_refl _, fun hrel => ⟨t, by rw [hval]; rfl, hrel⟩⟩

/-- Less may be known before, and more afterwards. -/
theorem weaken {less : State → Prop} {more : α → State → Prop}
    (h : M.FollowsAt s t before p q after φ) (hless : ∀ s, before s → less s)
    (hmore : ∀ y s, more y s → after y s) : M.FollowsAt s t less p q more φ :=
  fun y s' hrun hs' hafter =>
    have hall := h y s' hrun hs' (hmore y s' hafter)
    ⟨hall.1, hless s hall.2.1, hall.2.2⟩

/-- A run that cannot lead to the finished tree need not be followed. -/
theorem of_never (h : ∀ y s', p M.left s = .ok (y, s') → M.Leads s' → ¬after y s') :
    M.FollowsAt s t before p q after φ :=
  fun y s' hrun hs' hafter => absurd hafter (h y s' hrun hs')

/-- Places of tokens do not matter. -/
theorem place {f : TokenStream → α} {f' : TokenStream → β} {g : α → Parser γ} {g' : β → Parser δ}
    (h : ∀ m n, M.FollowsAt s t before (g m) (g' n) last ψ) :
    M.FollowsAt s t before (look f >>= g) (look f' >>= g') last ψ :=
  fun y s' hrun => h (f (s.stream M.left)) (f' (t.stream M.right)) y s' hrun

theorem startOf {id other : Nat} {g g' : Nat → Parser γ} {ψ : γ → γ}
    (h : ∀ m n, M.FollowsAt s t before (g m) (g' n) last ψ) :
    M.FollowsAt s t before (startOf id >>= g) (startOf other >>= g') last ψ :=
  fun y s' hrun => h _ _ y s' hrun

/-- **A look at the tokens** that comes to the same in both runs. -/
theorem look {f : TokenStream → α} {f' : TokenStream → β} {φ : α → β} {g : α → Parser γ}
    {g' : β → Parser δ}
    (hf : M.Leads s → before s → M.Rel s t → f' (t.stream M.right) = φ (f (s.stream M.left)))
    (h : M.FollowsAt s t before (g (f (s.stream M.left))) (g' (φ (f (s.stream M.left)))) last ψ) :
    M.FollowsAt s t before (Parse.look f >>= g) (Parse.look f' >>= g') last ψ := by
  intro y s' hrun hs' hlast
  obtain ⟨hs, hbefore, hle, hmirror⟩ := h y s' hrun hs' hlast
  refine ⟨hs, hbefore, hle, fun hrel => ?_⟩
  show ∃ t', g' (f' (t.stream M.right)) M.right t = _ ∧ _
  rw [hf hs hbefore hrel]
  exact hmirror hrel

/-- **A look at the kind of the current token.** What happens at an alias is what happens at every
name. -/
theorem lookKind {g : TokenKind → Parser γ} {g' : TokenKind → Parser δ}
    (hnaming : ∀ kind : TokenKind, kind.isNaming = true → g' kind = g' (.identifier M.v))
    (h : M.FollowsAt s t before (g (s.stream M.left).kind) (g' (s.stream M.left).kind) last ψ) :
    M.FollowsAt s t before (Parse.look (·.kind) >>= g) (Parse.look (·.kind) >>= g') last ψ := by
  intro y s' hrun hs' hlast
  obtain ⟨hs, hbefore, hle, hmirror⟩ := h y s' hrun hs' hlast
  refine ⟨hs, hbefore, hle, fun hrel => ?_⟩
  show ∃ t', g' (t.stream M.right).kind M.right t = _ ∧ _
  rcases hrel.kind_stream hs with hkind | ⟨hnames, hkind⟩
  · rw [hkind]
    exact hmirror hrel
  · rw [hkind, ← hnaming _ hnames.isNaming]
    exact hmirror hrel

end FollowsAt

end

end Mirror

end Jpql
