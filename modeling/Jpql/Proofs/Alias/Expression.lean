import Jpql.Proofs.Alias.Name
import Jpql.Proofs.Place.Expression
import Jpql.Proofs.Reader.Make
import Jpql.Proofs.Reader.Run

/-! # Expressions and their mirror images

One lemma for each reader from primaries up to conditions: its run is followed. The reader of nested
constructs is assumed to be followed (`Mirror.Nested`).

What a reader finds at a token that it moves over is the same in both runs (`FollowsAt.lookPassed`);
what it finds at a name is the alias in the other run. -/

namespace Jpql

/-- No alias is written at the node. -/
def NodeKind.Unaliased (kind : NodeKind) : Prop :=
  kind.isAliased = false ∧ kind.isVariable = false

/-- So it is at conditions and calls. -/
theorem NodeKind.unaliased_of_isOperation {kind : NodeKind} (h : kind.isOperation = true) :
    kind.Unaliased := by
  cases kind <;> first | exact ⟨rfl, rfl⟩ | cases h

end Jpql

namespace Jpql.Mirror

open Parse

variable {M : Mirror} {s s' t : State}

/-! ## Composition -/

section

variable {α β γ δ : Type} {p : Parser α} {q : Parser β} {φ : α → β} {f : α → Parser γ}
  {g : β → Parser δ} {ψ : γ → δ} {before : State → Prop} {last : γ → State → Prop}

namespace Follows

theorem bind (h : M.Follows p q φ) (hf : ∀ y, M.Follows (f y) (g (φ y)) ψ) :
    M.Follows (p >>= f) (q >>= g) ψ := fun s t => (h s t).bind fun y s t => hf y s t

theorem done {y : α} {z : β} (h : φ y = z) : M.Follows (Pure.pure y) (Pure.pure z) φ :=
  fun _ _ => FollowsAt.done h

theorem map {f : α → γ} {g : β → δ} (h : M.Follows p q φ) (hval : ∀ y, ψ (f y) = g (φ y)) :
    M.Follows (f <$> p) (g <$> q) ψ := fun s t => (h s t).map (fun _ _ _ => trivial) hval

theorem seqRight {p' : Parser γ} {q' : Parser δ} (h : M.Follows p q φ) (hnext : M.Follows p' q' ψ) :
    M.Follows (p *> p') (q *> q') ψ := fun s t => (h s t).bind fun _ s t => hnext s t

/-- What comes of a result. -/
theorem gives {f : α → γ} {g : β → δ} (h : M.Follows p q φ) (hval : ∀ y, ψ (f y) = g (φ y)) :
    M.Follows (do return f (← p)) (do return g (← q)) ψ :=
  h.bind fun y => .done (hval y)

theorem never (h : M.Never p) : M.Follows p q φ := fun _ _ => h.followsAt

theorem place {f : TokenStream → α} {f' : TokenStream → β} {g : α → Parser γ} {g' : β → Parser δ}
    (h : ∀ m n, M.Follows (g m) (g' n) ψ) : M.Follows (look f >>= g) (look f' >>= g') ψ :=
  fun s t => .place fun m n => h m n s t

theorem startOf {id other : Nat} {g g' : Nat → Parser γ} {ψ : γ → γ}
    (h : ∀ m n, M.Follows (g m) (g' n) ψ) :
    M.Follows (Parse.startOf id >>= g) (Parse.startOf other >>= g') ψ :=
  fun s t => .startOf fun m n => h m n s t

/-- What happens at an alias is what happens at every name. -/
theorem lookKind {g : TokenKind → Parser γ} {g' : TokenKind → Parser δ}
    (hnaming : ∀ kind : TokenKind, kind.isNaming = true → g' kind = g' (.identifier M.v))
    (h : ∀ kind, M.Follows (g kind) (g' kind) ψ) :
    M.Follows (Parse.look (·.kind) >>= g) (Parse.look (·.kind) >>= g') ψ :=
  fun s t => .lookKind hnaming (h _ s t)

/-- A reserved word is ahead in both runs, or in neither. -/
theorem atKeyword {word : Keyword} (hword : word.isReserved = true) {g : Bool → Parser γ}
    {g' : Bool → Parser δ} (h : ∀ found, M.Follows (g found) (g' found) ψ) :
    M.Follows (Parse.atKeyword word >>= g) (Parse.atKeyword word >>= g') ψ :=
  fun s t => FollowsAt.look (φ := id) (fun hs _ hrel => hrel.checkKeyword hs hword) (h _ s t)

end Follows

namespace FollowsAt

/-- **A look at a token that is moved over** shows the same in both runs. -/
theorem lookPassed {f : TokenStream → α} {g : α → Parser γ} {g' : α → Parser δ}
    (hf : ∀ a b : TokenStream, a.kind = b.kind → a.currentText = b.currentText → f a = f b)
    (hbefore : ∀ s, before s → M.Passed s)
    (h : M.FollowsAt s t before (g (f (s.stream M.left))) (g' (f (s.stream M.left))) last ψ) :
    M.FollowsAt s t before (Parse.look f >>= g) (Parse.look f >>= g') last ψ :=
  .look (φ := id) (fun _ hpassed hrel =>
    have hsame := hrel.advance (hbefore _ hpassed)
    hf _ _ hsame.2.1 hsame.2.2) h

/-- The grammar is asked in both runs. -/
theorem dispatch {rule : String} {trigger : Trigger} {g : Option Construct → Parser γ}
    {g' : Option Construct → Parser δ}
    (h : ∀ construct?, Grammar.standard.dispatch rule trigger = .ok construct? →
      M.FollowsAt s t before (g construct?) (g' construct?) last ψ) :
    M.FollowsAt s t before (Parse.dispatch rule trigger >>= g) (Parse.dispatch rule trigger >>= g')
      last ψ := by
  have hrun : ∀ {α : Type} (env : Env) (s : State) (f : Option Construct → Parser α)
      (construct? : Option Construct), env.grammar = .standard →
      Grammar.standard.dispatch rule trigger = .ok construct? →
      (Parse.dispatch rule trigger >>= f) env s = f construct? env s := by
    intro _ env s f construct? hstandard hdispatch
    refine bind_of_eq_ok ?_
    rw [dispatch_run, hstandard, hdispatch]
    rfl
  intro y s' hleft hs' hlast
  cases hdispatch : Grammar.standard.dispatch rule trigger with
  | error error =>
    obtain ⟨y, u, hfirst, -⟩ := bind_eq_ok hleft
    rw [dispatch_run, M.aliased.grammarLeft, hdispatch] at hfirst
    cases hfirst
  | ok construct? =>
    rw [hrun _ _ _ _ M.aliased.grammarLeft hdispatch] at hleft
    obtain ⟨hs, hbefore, hle, hmirror⟩ := h construct? hdispatch y s' hleft hs' hlast
    refine ⟨hs, hbefore, hle, fun hrel => ?_⟩
    rw [hrun _ _ _ _ M.aliased.grammarRight hdispatch]
    exact hmirror hrel

/-- Nodes of a kind that no alias is written at are added in both runs. -/
theorem pushed {kind other : NodeKind} (m n : Nat) (hother : M.renamed kind = other)
    (haliased : kind.isAliased = false) (hvariable : kind.isVariable = false) :
    M.FollowsAt s t (fun _ => True) (Parse.pushFrom kind m) (Parse.pushFrom other n)
      (fun _ _ => True) M.tree.image :=
  (pushFrom m n hother haliased hvariable).weaken (fun _ _ => trivial) fun _ _ h => h

end FollowsAt

end

/-- **A name that is moved over is the same in both runs.** -/
theorem Rel.identifier? (h : M.Rel s t) (hs : M.Leads s)
    (hpassed : M.left.Names s.position → M.Passed s) :
    (t.stream M.right).identifier? = (s.stream M.left).identifier? := by
  have hiff := h.names_iff hs
  by_cases hnames : M.left.Names s.position
  · obtain ⟨-, hkind, htext⟩ := h.advance (hpassed hnames)
    exact TokenStream.identifier?_congr hkind htext ((hiff.mpr hnames).trans hnames.symm)
  · have hright : ¬M.right.Names t.position := fun hc => hnames (hiff.mp hc)
    have hnone : ∀ {env : Env} {i : Nat}, ¬env.Names i →
        TokenStream.identifier? ⟨env.source, env.tokens, i⟩ = none := fun h =>
      Option.not_isSome_iff_eq_none.mp h
    exact (hnone hright).trans (hnone hnames).symm

section

variable {γ δ : Type} {ψ : γ → δ}

/-- A name that is moved over, or something else. -/
theorem Follows.identifier? {some : String → Parser γ} {some' : String → Parser δ} {none : Parser γ}
    {none' : Parser δ}
    (hsome : ∀ name s t, M.left.Names s.position →
      M.FollowsAt s t M.Passed (some name) (some' name) (fun _ _ => True) ψ)
    (hnone : M.Follows none none' ψ) :
    M.Follows (look (·.identifier?) >>= fun
      | .some name => some name
      | .none => none) (look (·.identifier?) >>= fun
      | .some name => some' name
      | .none => none') ψ := by
  intro s t
  refine FollowsAt.weaken
    (?_ : M.FollowsAt s t (fun s => M.left.Names s.position → M.Passed s) _ _ _ _)
    (fun _ _ => trivial) fun _ _ h => h
  refine .look (φ := id) (fun hs hpassed hrel => hrel.identifier? hs hpassed) ?_
  have hiff : M.left.Names s.position ↔ (s.stream M.left).identifier?.isSome = true := .rfl
  cases hname : (s.stream M.left).identifier? with
  | some name =>
    rw [hname] at hiff
    exact (hsome name s t (hiff.mpr rfl)).weaken (fun _ h _ => h) fun _ _ h => h
  | none =>
    rw [hname] at hiff
    exact fun y s' hrun hs' hlast =>
      have hall := hnone s t y s' hrun hs' hlast
      ⟨hall.1, fun hnames => absurd (hiff.mp hnames) Bool.false_ne_true, hall.2.2⟩

/-- **There are no types** in either run. -/
theorem Follows.ofTypes {left : Nat} {g : Bool → Parser γ} {g' : Bool → Parser δ}
    (h : ∀ ofTypes, M.Follows (g ofTypes) (g' ofTypes) ψ) :
    M.Follows (kindOf left >>= fun kind => g (match kind with
      | .type _ => true
      | _ => false)) (kindOf (M.tree.image left) >>= fun kind => g' (match kind with
      | .type _ => true
      | _ => false)) ψ := by
  let isType : NodeKind → Bool := fun kind => match kind with
    | .type _ => true
    | _ => false
  have hnone : ∀ kind : NodeKind, (∀ expression, kind ≠ .type expression) → isType kind = false :=
    fun kind hkind => by cases kind <;> first | rfl | exact absurd rfl (hkind _)
  intro s t y s' hrun hs' _
  obtain ⟨hs, -, hle, hmirror⟩ := h (isType (s.draft.kind left)) s t y s' hrun hs' trivial
  refine ⟨hs, trivial, hle, fun hrel => ?_⟩
  obtain ⟨t', hother, hrel'⟩ := hmirror hrel
  rw [hnone _ fun expression hkind => hs.ne_type left expression hkind] at hother
  refine ⟨t', ?_, hrel'⟩
  show g' (isType (t.draft.kind (M.tree.image left))) M.right t = _
  rw [hnone _ (hrel.noType _)]
  exact hother

end

theorem follows_consume {kind : TokenKind} (hkind : kind ≠ .identifier M.v) :
    M.Follows (consume kind) (consume kind) id := fun _ _ => .consume hkind

theorem follows_consumeKeyword (word : Keyword) :
    M.Follows (consumeKeyword word) (consumeKeyword word) id := fun _ _ => .consumeKeyword word

theorem follows_expect (kind : TokenKind) :
    M.Follows (discard (expect kind)) (discard (expect kind)) id :=
  Follows.map (fun _ _ => .expect kind) fun _ => rfl

/-- What is read up to a token. -/
theorem Follows.closed {α β : Type} {p : Parser α} {q : Parser β} {φ : α → β} (h : M.Follows p q φ)
    (kind : TokenKind) : M.Follows (do
      let y ← p
      discard (expect kind)
      return y) (do
      let z ← q
      discard (expect kind)
      return z) φ :=
  h.bind fun _ => (follows_expect kind).bind fun _ => .done rfl

theorem follows_expectKeyword (word : Keyword) :
    M.Follows (expectKeyword word) (expectKeyword word) id := follows_expect _

theorem follows_advance : M.Follows advance advance id := fun _ _ =>
  FollowsAt.advance.weaken (fun _ _ => trivial) fun _ _ h => h

theorem follows_pushFrom {kind other : NodeKind} (m n : Nat) (hother : M.renamed kind = other)
    (haliased : kind.isAliased = false) (hvariable : kind.isVariable = false) :
    M.Follows (pushFrom kind m) (pushFrom other n) M.tree.image :=
  fun _ _ => .pushed m n hother haliased hvariable

/-! ## Repetition -/

section

variable {α : Type}

/-- **Items with commas between them are followed** if an item is. -/
theorem Follows.separated {item : Parser NodeId} (hitem : M.Follows item item M.tree.image) :
    M.Follows (Parse.separated item) (Parse.separated item) (List.map M.tree.image) := by
  have hmore : ∀ items found, M.Follows
      (if found = true then do return some (items ++ [← item]) else return none)
      (if found = true then do return some (items.map M.tree.image ++ [← item]) else return none)
      (Option.map (List.map M.tree.image)) := by
    intro items found
    cases found with
    | true =>
      rw [if_pos rfl, if_pos rfl]
      exact hitem.bind fun id => .done (by simp)
    | false => exact .done rfl
  refine hitem.bind fun first s t => FollowsAt.loop (φ := List.map M.tree.image)
    (fun items s t => ?_) (fun items more s s' hrun hs' => ?_) [first]
  · exact (follows_consume (by simp)).bind (hmore items) s t
  · obtain ⟨found, s₁, hfirst, hrest⟩ := bind_eq_ok hrun
    obtain ⟨hs₁, -, hle, -⟩ := hmore items found s₁ s₁ _ _ hrest hs' trivial
    cases found with
    | false => cases hrest
    | true =>
      obtain ⟨hs, -⟩ := FollowsAt.consume (t := s) (by simp) _ _ hfirst hs₁ trivial
      exact Nat.lt_of_lt_of_le (lt_of_consume M.aliased.inOrder (by simp) hfirst hs.inside) hle

/-- The nodes that an operator makes are the same in both runs, and no alias is written at them. -/
def Combines (M : Mirror) (combine : NodeId → NodeId → NodeKind) : Prop :=
  ∀ left right, M.renamed (combine left right) = combine (M.tree.image left) (M.tree.image right) ∧
    (combine left right).isAliased = false ∧ (combine left right).isVariable = false

/-- **An operator is found in both runs**, and moves over a token. -/
structure Joins (M : Mirror) (operator : Parser (Option (NodeId → NodeId → NodeKind))) : Prop where
  follows : M.Follows operator operator id
  moves : ∀ s combine s', operator M.left s = .ok (some combine, s') →
    s.position < M.left.tokens.size → s.position < s'.position
  makes : ∀ s, After M.left operator s fun combine? _ => ∀ combine ∈ combine?, M.Combines combine

theorem Joins.none : M.Joins (Pure.pure none) where
  follows := .done rfl
  moves := by rintro _ _ _ ⟨⟩
  makes _ := .pure nofun

/-- An operator is looked for, and others if it is not there. -/
theorem Joins.consume {kind : TokenKind} (hkind : kind ≠ .identifier M.v) (heof : kind ≠ .eof)
    {combine : NodeId → NodeId → NodeKind} (hcombine : M.Combines combine)
    {rest : Parser (Option (NodeId → NodeId → NodeKind))} (hrest : M.Joins rest) :
    M.Joins (do if ← Parse.consume kind then return some combine else rest) where
  follows := (follows_consume hkind).bind fun found => by
    cases found with
    | true => exact .done rfl
    | false => exact hrest.follows
  moves s other s' hrun hs := by
    obtain ⟨found, s₁, hfirst, hlast⟩ := bind_eq_ok hrun
    cases found with
    | true =>
      obtain ⟨-, rfl⟩ := Prod.mk.inj (Except.ok.inj hlast)
      exact lt_of_consume M.aliased.inOrder heof hfirst hs
    | false =>
      obtain rfl := eq_of_not_consume hfirst
      exact hrest.moves _ other s' hlast hs
  makes s := by
    refine After.bind (fun _ _ _ => trivial) fun found t (_ : True) => ?_
    cases found with
    | true =>
      refine .pure ?_
      rintro _ ⟨⟩
      exact hcombine
    | false => exact hrest.makes t

/-- **Operands with operators between them are followed.** -/
theorem Follows.leftChain {first operand : Parser NodeId}
    {operator : Parser (Option (NodeId → NodeId → NodeKind))}
    (hfirst : M.Follows first first M.tree.image) (hoperator : M.Joins operator)
    (hoperand : M.Follows operand operand M.tree.image) :
    M.Follows (Parse.leftChain first operator operand) (Parse.leftChain first operator operand)
      M.tree.image := by
  refine hfirst.bind fun left => .startOf fun m n => ?_
  have hjoined : ∀ left combine, M.Combines combine → M.Follows (do
        let right ← operand
        return some (← Parse.pushFrom (combine left right) m)) (do
        let right ← operand
        return some (← Parse.pushFrom (combine (M.tree.image left) right) n))
      (Option.map M.tree.image) := by
    intro left combine hcombine
    refine hoperand.bind fun right => ?_
    obtain ⟨hother, haliased, hvariable⟩ := hcombine left right
    exact (follows_pushFrom m n hother haliased hvariable).bind fun _ => .done rfl
  refine fun s t => FollowsAt.loop (φ := M.tree.image) (fun left s t => ?_)
    (fun left combined s s' hrun hs' => ?_) left
  · refine (hoperator.follows s t).bind_of (hoperator.makes s) fun combine? s t hmakes => ?_
    cases combine? with
    | none => exact .done rfl
    | some combine => exact hjoined left combine (hmakes combine rfl) s t
  · obtain ⟨combine?, s₁, hfirst, hrest⟩ := bind_eq_ok hrun
    cases combine? with
    | none => cases hrest
    | some combine =>
      have hcombine := hoperator.makes s _ _ hfirst combine rfl
      obtain ⟨hs₁, -, hle, -⟩ := hjoined left combine hcombine s₁ s₁ _ _ hrest hs' trivial
      obtain ⟨hs, -⟩ := hoperator.follows s s _ _ hfirst hs₁ trivial
      exact Nat.lt_of_lt_of_le (hoperator.moves s combine s₁ hfirst hs.inside) hle

end

/-! ## Primaries -/

/-- A path starts at names only. -/
theorem trigger_of_path {rule : String} {trigger : Trigger}
    (h : Grammar.standard.dispatch rule trigger = .ok (some .path)) : trigger = .identifier := by
  have hpaths : ∀ factory ∈ Grammar.standardFactories, factory.construct = .path →
      factory.triggers = [.identifier] := by decide +kernel
  unfold Grammar.dispatch at h
  split at h
  · cases h
  · obtain ⟨factory, hfind, hconstruct⟩ := Option.map_eq_some_iff.mp (Except.ok.inj h)
    obtain ⟨_, -, hmem⟩ := List.mem_flatMap.mp (List.mem_of_find?_eq_some hfind)
    obtain ⟨_, -, hfactory⟩ := List.mem_filterMap.mp hmem
    have htrigger := List.find?_some hfind
    rw [hpaths factory (List.mem_of_find?_eq_some hfactory) hconstruct] at htrigger
    simpa using htrigger

/-- Names alone trigger an identifier. -/
theorem names_of_trigger? {env : Env} {i : Nat}
    (h : trigger? ⟨env.source, env.tokens, i⟩ = some .identifier) : env.Names i := by
  by_contra hnames
  rw [Env.trigger?_of_not_names hnames] at h
  generalize hk : TokenStream.kind ⟨env.source, env.tokens, i⟩ = kind at h
  cases kind with
  | identifier name => exact hnames (Env.names_iff.mpr (.inl ⟨name, hk⟩))
  | _ => cases h

/-- The name of a type is moved over. -/
theorem FollowsAt.entityType (name : String) :
    M.FollowsAt s t M.Passed (Parse.entityType name) (Parse.entityType name) (fun _ _ => True)
      M.tree.image :=
  .place fun _ _ => FollowsAt.advance.bind fun _ _ _ =>
    (FollowsAt.push _ _ rfl rfl rfl).weaken (fun _ _ => trivial) fun _ _ h => h

/-- A node without children for a token that is moved over. -/
theorem FollowsAt.leaf {kind : NodeKind} (hother : M.renamed kind = kind)
    (haliased : kind.isAliased = false) (hvariable : kind.isVariable = false) :
    M.FollowsAt s t M.Passed (Parse.leaf kind) (Parse.leaf kind) (fun _ _ => True) M.tree.image :=
  .place fun m n => FollowsAt.advance.bind fun _ _ _ => .pushed m n hother haliased hvariable

/-- **Nested constructs are followed.** -/
def Nested (M : Mirror) (deeper : Deeper) : Prop :=
  ∀ construct, M.Follows (deeper construct) (deeper construct) M.tree.image

section

variable {deeper : Deeper} (hd : M.Nested deeper)

include hd

/-- **A construct is followed.** Paths start at names. -/
theorem FollowsAt.build (construct : Construct) (hnames : construct = .path → M.left.Names s.position) :
    M.FollowsAt s t (fun _ => True) (Parse.build deeper construct) (Parse.build deeper construct)
      (fun _ _ => True) M.tree.image := by
  have hleaf : ∀ {kind : NodeKind}, M.renamed kind = kind → kind.isAliased = false →
      kind.isVariable = false → M.FollowsAt s t M.Passed (Parse.leaf kind) (Parse.leaf kind)
        (fun _ _ => True) M.tree.image := .leaf
  have hkind : ∀ {g : TokenKind → Parser NodeId}, (∀ kind, M.FollowsAt s t M.Passed (g kind) (g kind)
      (fun _ _ => True) M.tree.image) → M.FollowsAt s t (fun _ => True) (Parse.look (·.kind) >>= g)
        (Parse.look (·.kind) >>= g) (fun _ _ => True) M.tree.image := fun {g} hg =>
    (lookPassed (fun _ _ h _ => h) (fun _ h => h) (hg _)).weaken (fun _ _ => trivial) fun _ _ h => h
  cases construct
  case updateStatement => exact Never.unknownToken.followsAt
  case deleteStatement => exact Never.unknownToken.followsAt
  case path => exact .pathOrVariable (hnames rfl)
  case number =>
    exact (lookPassed (fun _ _ _ h => h) (fun _ h => h) (hleaf rfl rfl rfl)).weaken
      (fun _ _ => trivial) fun _ _ h => h
  case string => exact hkind fun kind => by cases kind <;> exact hleaf rfl rfl rfl
  case wordLiteral => exact hkind fun kind => hleaf rfl rfl rfl
  case moment => exact hkind fun kind => hleaf rfl rfl rfl
  case parameter =>
    refine hkind fun kind => ?_
    cases kind
    case positional | named => exact hleaf rfl rfl rfl
    all_goals exact Never.unknownToken.followsAt
  all_goals exact hd _ s t

/-- **A primary is followed.** What has no place under the rule is reported. -/
theorem follows_primary (rule : String) :
    M.Follows (primary deeper rule) (primary deeper rule) M.tree.image := by
  intro s t
  refine FollowsAt.look (φ := id) (fun hs _ hrel => hrel.trigger? hs) ?_
  cases htrigger : trigger? (s.stream M.left) with
  | none => exact (Never.missing rule).followsAt
  | some trigger =>
    refine FollowsAt.dispatch fun construct? hdispatch => ?_
    cases construct? with
    | some construct =>
      refine .build hd construct fun hpath => names_of_trigger? ?_
      subst hpath
      exact htrigger.trans (congrArg some (trigger_of_path hdispatch))
    | none =>
      refine Never.followsAt ?_
      cases trigger with
      | keyword word =>
        refine Never.bind_right fun env => ?_
        cases env.grammar.forKeyword? word with
        | none => exact .missing rule
        | some construct =>
          exact Never.bind_right fun _ => Never.bind_right fun id => Never.record _ id
      | _ => exact .unknownToken

/-! ## Operands -/

/-- **A factor is followed.** -/
theorem follows_factor (rule : String) :
    M.Follows (factor deeper rule) (factor deeper rule) M.tree.image := by
  refine .lookKind (fun kind hkind => ?_) fun kind => ?_
  · cases kind <;> first | rfl | cases hkind
  · cases kind
    case minus => exact hd _
    case plus => exact hd _
    all_goals exact follows_primary hd rule

omit hd in
theorem joins_productOperator : M.Joins productOperator :=
  .consume (by simp) (by simp) (fun _ _ => ⟨rfl, rfl, rfl⟩)
    (.consume (by simp) (by simp) (fun _ _ => ⟨rfl, rfl, rfl⟩) .none)

omit hd in
theorem joins_sumOperator : M.Joins sumOperator :=
  .consume (by simp) (by simp) (fun _ _ => ⟨rfl, rfl, rfl⟩)
    (.consume (by simp) (by simp) (fun _ _ => ⟨rfl, rfl, rfl⟩) .none)

theorem follows_term (rule : String) :
    M.Follows (term deeper rule) (term deeper rule) M.tree.image :=
  .leftChain (follows_factor hd rule) joins_productOperator (follows_factor hd _)

/-- **An operand is followed.** -/
theorem follows_operand (rule : String) :
    M.Follows (operand deeper rule) (operand deeper rule) M.tree.image :=
  .leftChain (follows_term hd rule) joins_sumOperator (follows_term hd _)

theorem follows_scalar : M.Follows (scalar deeper) (scalar deeper) M.tree.image :=
  follows_operand hd _

theorem follows_signed (negative : Bool) :
    M.Follows (signed deeper negative) (signed deeper negative) M.tree.image :=
  .place fun m n => follows_advance.bind fun _ => (follows_factor hd _).bind fun _ =>
    follows_pushFrom m n rfl rfl rfl

/-! ## Conditions -/

/-- **An item of a list is followed.** -/
theorem follows_inItem (ofTypes : Bool) :
    M.Follows (inItem deeper ofTypes) (inItem deeper ofTypes) M.tree.image := by
  have hoperand := follows_operand hd RuleId.inItem
  cases ofTypes with
  | false => exact .place fun m n => by cases m <;> cases n <;> exact hoperand
  | true => exact .identifier? (fun name s t _ => .entityType name) hoperand

/-- **What follows `IN` is followed.** Types are not asked for. -/
theorem follows_inItems (left : NodeId) : M.Follows (inItems deeper left)
    (inItems deeper (M.tree.image left)) (List.map M.tree.image) := by
  have hprimary : M.Follows (do return [← primary deeper RuleId.inItem])
      (do return [← primary deeper RuleId.inItem]) (List.map M.tree.image) :=
    (follows_primary hd _).gives fun id => rfl
  have hlist : M.Follows (do
        if !(← expect .leftParen) then return [← missing "IN items"]
        if ← atKeyword .select then
          let subquery ← deeper .subquery
          discard (expect .rightParen)
          return [subquery]
        let ofTypes := match ← kindOf left with
          | .type _ => true
          | _ => false
        let items ← separated (inItem deeper ofTypes)
        discard (expect .rightParen)
        return items) (do
        if !(← expect .leftParen) then return [← missing "IN items"]
        if ← atKeyword .select then
          let subquery ← deeper .subquery
          discard (expect .rightParen)
          return [subquery]
        let ofTypes := match ← kindOf (M.tree.image left) with
          | .type _ => true
          | _ => false
        let items ← separated (inItem deeper ofTypes)
        discard (expect .rightParen)
        return items) (List.map M.tree.image) := by
    refine Follows.bind (φ := id) (fun s t => .expect _) fun found => ?_
    cases found with
    | false => exact Follows.bind (φ := M.tree.image) (.never (.missing _)) fun id => .done rfl
    | true =>
      refine .atKeyword rfl fun found => ?_
      cases found with
      | true => exact (hd .subquery).bind fun id => (follows_expect _).bind fun _ => .done rfl
      | false =>
        exact .ofTypes fun ofTypes => .closed (.separated (follows_inItem hd ofTypes)) _
  refine .lookKind (fun kind hkind => ?_) fun kind => ?_
  · cases kind <;> first | rfl | cases hkind
  · cases kind
    case positional | named => exact hprimary
    all_goals exact hlist

omit hd in
/-- **What follows `IS` is followed.** A path in front of `IS EMPTY` is read as collection-valued. -/
theorem FollowsAt.isCheck (left : NodeId) : M.FollowsAt s t (fun _ => True) (Parse.isCheck left)
    (Parse.isCheck (M.tree.image left)) M.Adds M.renamed := by
  refine (FollowsAt.consumeKeyword .not).bind fun negated s t =>
    (FollowsAt.consumeKeyword .empty).bind fun found s t => ?_
  cases found with
  | true =>
    refine (FollowsAt.asCollection left).bind fun _ s t => FollowsAt.result rfl
      fun s (hadds : M.Adds _ s) => hadds.collected (List.mem_singleton.mpr rfl)
  | false =>
    refine (FollowsAt.consumeKeyword .null).bind fun found s t => ?_
    cases found with
    | true => exact FollowsAt.result (y := NodeKind.nullCheck left negated) rfl fun _ _ => trivial
    | false => exact (Never.recordHere _ _ _).followsAt

/-- **The rest of a condition is followed.** -/
theorem FollowsAt.conditionRest? (left : NodeId) (negated : Bool) :
    M.FollowsAt s t (fun _ => True) (Parse.conditionRest? deeper left negated)
      (Parse.conditionRest? deeper (M.tree.image left) negated)
      (fun kind? s => ∀ kind ∈ kind?, M.Adds kind s) (Option.map M.renamed) := by
  have hscalar := follows_scalar hd
  refine .lookKind (fun kind hkind => ?_) ?_
  · cases kind with
    | keyword word => cases word <;> first | rfl | cases hkind
    | identifier => rfl
    | _ => cases hkind
  generalize (s.stream M.left).kind = kind
  have hplain : ∀ {p q : Parser (Option NodeKind)}, M.Follows p q (Option.map M.renamed) →
      M.FollowsAt s t (fun _ => True) p q (fun kind? s => ∀ kind ∈ kind?, M.Adds kind s)
        (Option.map M.renamed) := fun h => (h s t).weaken (fun _ h => h) fun _ _ _ => trivial
  cases kind with
  | keyword word =>
    cases word
    case between =>
      exact hplain (follows_advance.bind fun _ => hscalar.bind fun lower =>
        (follows_expectKeyword _).bind fun _ => hscalar.gives fun upper => rfl)
    case like =>
      refine hplain (follows_advance.bind fun _ => hscalar.bind fun pattern =>
        (follows_consumeKeyword _).bind fun found => ?_)
      cases found with
      | true => exact hscalar.gives fun escape => rfl
      | false => exact .done rfl
    case «in» =>
      exact hplain (follows_advance.bind fun _ => (follows_inItems hd left).gives fun items => rfl)
    case member =>
      refine (follows_advance s t).bind fun _ s t => (follows_consumeKeyword _ s t).bind
        fun hasOf s t => (follows_operand hd _ s t).bind fun collection s t =>
        (FollowsAt.asCollection collection).bind fun _ s t => FollowsAt.result rfl
          fun s hadds => (hadds _ rfl).collected (List.mem_cons_of_mem _ (List.mem_singleton.mpr rfl))
    case is =>
      exact (follows_advance s t).bind fun _ s t => (FollowsAt.isCheck left).bind fun kind s t =>
        FollowsAt.result rfl fun s hadds => hadds _ rfl
    all_goals exact hplain (.done rfl)
  | _ => exact hplain (.done rfl)

/-- **A simple condition is followed.** -/
theorem follows_simpleCondition (rule : String) :
    M.Follows (simpleCondition deeper rule) (simpleCondition deeper rule) M.tree.image := by
  refine (follows_operand hd rule).bind fun left => .startOf fun m n s t => ?_
  refine FollowsAt.look (φ := id) (fun hs _ hrel => hrel.isKind hs (f := comparison?) fun kind hkind => ?_) ?_
  · cases kind <;> first | rfl | cases hkind
  generalize comparison? (s.stream M.left).kind = operator?
  cases operator? with
  | some operator =>
    exact (follows_advance.bind fun _ => (follows_operand hd _).bind fun right =>
      follows_pushFrom m n rfl rfl rfl) s t
  | none =>
    have hrest : ∀ negated s t, M.FollowsAt s t (fun _ => True)
        (conditionRest deeper left m negated) (conditionRest deeper (M.tree.image left) n negated)
        (fun _ _ => True) M.tree.image := by
      intro negated s t
      refine (FollowsAt.conditionRest? hd left negated).bind_of (makes_conditionRest? left negated s)
        fun kind? s t hmakes => ?_
      cases kind? with
      | none => exact .result rfl fun _ _ _ heq => absurd heq (Option.not_mem_none _)
      | some kind =>
        obtain ⟨haliased, hvariable⟩ := NodeKind.unaliased_of_isOperation (hmakes kind rfl)
        exact (FollowsAt.pushFrom m n rfl haliased hvariable).weaken
          (fun s hadds other hother => by cases hother; exact hadds) fun _ _ h => h
    refine FollowsAt.look (φ := id) (fun hs _ hrel => hrel.atNegatedWord hs) ?_
    generalize atNegatedWord (s.stream M.left) = negated
    cases negated with
    | true => exact (follows_advance s t).bind fun _ s t => hrest true s t
    | false => exact hrest false s t

theorem follows_negatable (rule : String) :
    M.Follows (negatable deeper rule) (negatable deeper rule) M.tree.image := by
  refine .atKeyword rfl fun found => ?_
  cases found with
  | true => exact hd _
  | false => exact follows_simpleCondition hd rule

omit hd in
theorem joins_connective (word : Keyword) (connective : Connective) :
    M.Joins (Parse.connective word connective) :=
  .consume (by simp) (by simp) (fun _ _ => ⟨rfl, rfl, rfl⟩) .none

theorem follows_conjunction (rule : String) :
    M.Follows (conjunction deeper rule) (conjunction deeper rule) M.tree.image :=
  .leftChain (follows_negatable hd rule) (joins_connective _ _) (follows_negatable hd rule)

/-- **Conditions are followed.** -/
theorem follows_disjunction (rule : String) :
    M.Follows (disjunction deeper rule) (disjunction deeper rule) M.tree.image :=
  .leftChain (follows_conjunction hd rule) (joins_connective _ _) (follows_conjunction hd rule)

theorem follows_condition : M.Follows (condition deeper) (condition deeper) M.tree.image :=
  follows_disjunction hd _

end

end Jpql.Mirror
