import Jpql.Proofs.Alias.Call
import Jpql.Parse.Query

/-! # Statements and their mirror images

The range of an `UPDATE` or `DELETE` without alias makes the entity itself a virtual variable; with an
alias it declares that. Behind it both runs read the same clauses. -/

namespace Jpql.Mirror

open Parse

variable {M : Mirror} {s s' t : State}

/-! ## The range -/

/-- What follows the name of the entity in a range. -/
def rangeTail (start : Nat) (root : NodeId × Option String) : Parser NodeId := do
  let hasAs ← consumeKeyword .as
  let declared ← match ← declaredVariable? with
    | some declared => pure (some declared)
    | none =>
      match root.2 with
      | some name =>
        if true && !hasAs then some <$> virtualVariable name
        else missingVariable *> pure none
      | none => missingVariable *> pure none
  pushFrom (.rangeDeclaration root.1 hasAs declared) start

theorem rangeDeclaration_run (env : Env) (s : State) : rangeDeclaration true env s =
    (rangeRoot >>= rangeTail (s.stream env).currentStart) env s := rfl

/-- **Nothing that follows leads to the finished tree.** -/
def Spoilt (M : Mirror) (draft : Draft) : Prop := ∀ s, draft.Grows s.draft → ¬M.Leads s

theorem Spoilt.grows {draft later : Draft} (h : M.Spoilt draft) (hgrows : draft.Grows later) :
    M.Spoilt later := fun s hs => h s (hgrows.trans hs)

/-- A problem stays. -/
theorem spoilt_record (draft : Draft) (problem : Problem) : M.Spoilt (draft.record problem) :=
  fun s hgrows hs => by
    have hprefix : draft.problems ++ [problem] <+: s.problems := hgrows.problems
    rw [hs.problems, List.prefix_nil] at hprefix
    simp at hprefix

/-- A variable that is written in the text stays. -/
theorem spoilt_variable (draft : Draft) (name : String) (span : Span) :
    M.Spoilt (draft.push (.identifier name false none) span) := fun _ hgrows hs =>
  not_leads_variable (s := ⟨0, draft.builder, draft.problems, none⟩) hs hgrows

/-- What a range goes over is an entity. -/
theorem rangeRoot_after : After M.left rangeRoot s fun root t => M.Spoilt t.draft ∨
    ∃ name, (s.stream M.left).identifier? = some name ∧
      (s.stream M.left).advance.check .dot = false ∧ root = (s.draft.size, some name) ∧
      t = ({ s with position := (s.stream M.left).advance.position } : State).write
        (s.draft.push (.schemaName name) (s.stream M.left).current.span) := by
  refine .look_bind ?_
  cases hname : (s.stream M.left).identifier? with
  | none =>
    refine .bind (.missing _) fun id t ⟨_, ht⟩ => .pure (.inl ?_)
    rw [ht]
    exact spoilt_record (s.draft.push .bad _) _
  | some name =>
    refine .look_bind (After.bind .advance fun _ t ht => .look_bind ?_)
    rw [ht, State.stream_advance]
    cases hdot : (s.stream M.left).advance.check .dot with
    | true =>
      refine After.bind (.push _ _) fun root t ⟨_, ht⟩ => ?_
      refine After.bind (.read_bind (.step _)) fun found u ⟨_, hu⟩ => ?_
      refine After.bind (.pushFrom _ _) fun path w ⟨_, hw⟩ => .pure (.inl ?_)
      rw [hw, hu, ht]
      exact (spoilt_variable _ _ _).grows (Draft.grows_push _ _ _)
    | false =>
      refine After.bind (.push _ _) fun root t ⟨hroot, ht⟩ => .pure (.inr ⟨name, rfl, rfl, ?_, ?_⟩)
      · rw [hroot]
        rfl
      · rw [ht]
        rfl

/-- Whether `AS` was there is no matter for the nodes. -/
theorem consumeKeyword_after (word : Keyword) (s : State) :
    After M.left (consumeKeyword word) s fun found t => t.draft = s.draft ∧
      (found = false → t = s ∧ (s.stream M.left).check (.keyword word) = false) := by
  intro found t hrun
  cases hcheck : (s.stream M.left).check (.keyword word) with
  | true =>
    rw [consumeKeyword, consume_of_check hcheck] at hrun
    obtain ⟨rfl, rfl⟩ := Prod.mk.inj (Except.ok.inj hrun)
    exact ⟨rfl, nofun⟩
  | false =>
    rw [consumeKeyword, consume_of_not_check hcheck] at hrun
    obtain ⟨rfl, rfl⟩ := Prod.mk.inj (Except.ok.inj hrun)
    exact ⟨rfl, fun _ => ⟨rfl, rfl⟩⟩

/-- A variable is declared at a name. -/
theorem declaredVariable?_after (s : State) : After M.left declaredVariable? s fun declared t =>
    s.draft.Grows t.draft ∧ (declared ≠ none ∧ M.Spoilt t.draft ∨
      declared = none ∧ t = s ∧ ¬M.left.Names s.position) := by
  have hiff : M.left.Names s.position ↔ (s.stream M.left).identifier?.isSome = true := .rfl
  refine .look_bind ?_
  cases hname : (s.stream M.left).identifier? with
  | none =>
    rw [hname] at hiff
    exact .pure ⟨.refl _, .inr ⟨rfl, rfl, fun hnames => absurd (hiff.mp hnames) Bool.false_ne_true⟩⟩
  | some name =>
    refine .look_bind (After.bind .advance fun _ t ht => After.bind (.push _ _) fun _ u ⟨_, hu⟩ =>
      .pure ⟨?_, .inl ⟨nofun, ?_⟩⟩)
    · rw [hu, ht]
      exact s.draft.grows_push _ _
    · rw [hu]
      exact spoilt_variable _ _ _

/-- **The range declares a virtual variable**, named like the entity. -/
theorem rangeTail_after (start : Nat) (root : NodeId × Option String) (s : State) :
    After M.left (rangeTail start root) s fun id t => s.draft.Grows t.draft ∧
      (M.Spoilt t.draft ∨ (s.stream M.left).check (.keyword .as) = false ∧
        ¬M.left.Names s.position ∧ ∃ name, root.2 = some name ∧ ∃ place span,
          id = (s.draft.push (.identifier (Text.asciiLower name) true none) place).size ∧
          t = ({ s with virtualVariable := some (Text.asciiLower name) } : State).write
            ((s.draft.push (.identifier (Text.asciiLower name) true none) place).push
              (.rangeDeclaration root.1 false (some s.draft.size)) span)) := by
  have hlast : ∀ {kind : NodeKind} {u : State} {post : NodeId → State → Prop},
      s.draft.Grows u.draft → M.Spoilt u.draft →
      After M.left (pushFrom kind start) u fun id t =>
        s.draft.Grows t.draft ∧ (M.Spoilt t.draft ∨ post id t) := by
    intro kind u post hgrows hspoilt
    refine (After.pushFrom _ _).mono ?_
    rintro _ _ ⟨-, rfl⟩
    exact ⟨hgrows.trans (Draft.grows_push _ _ _), .inl (hspoilt.grows (Draft.grows_push _ _ _))⟩
  have hmissing : ∀ {u : State}, s.draft.Grows u.draft →
      After M.left (missingVariable *> pure none : Parser (Option NodeId)) u fun _ t =>
        s.draft.Grows t.draft ∧ M.Spoilt t.draft := by
    rintro u hgrows _ _ ⟨⟩
    exact ⟨hgrows.trans (u.draft.grows_record _), spoilt_record u.draft _⟩
  refine (consumeKeyword_after .as s).bind fun hasAs t ⟨hdraft, ht⟩ =>
    (declaredVariable?_after t).bind fun declared u ⟨hgrows, hu⟩ => ?_
  rw [hdraft] at hgrows
  rcases hu with ⟨hsome, hspoilt⟩ | ⟨rfl, rfl, hnames⟩
  · cases declared with
    | some declared => exact hlast hgrows hspoilt
    | none => exact absurd rfl hsome
  obtain ⟨root, entity⟩ := root
  cases entity with
  | none => exact (hmissing hgrows).bind fun _ _ hw => hlast hw.1 hw.2
  | some name =>
    cases hasAs with
    | true => exact (hmissing hgrows).bind fun _ _ hw => hlast hw.1 hw.2
    | false =>
      obtain ⟨rfl, hcheck⟩ := ht rfl
      rintro _ _ ⟨⟩
      exact ⟨(Draft.grows_push _ _ _).trans (Draft.grows_push _ _ _),
        .inr ⟨hcheck, hnames, name, rfl, _, _, rfl, rfl⟩⟩

/-- What the range of a statement without alias adds: the name of the entity, a virtual variable, and
the declaration of that. -/
def rangeState (M : Mirror) (s : State) (name : String) (place span : Span) : State :=
  let root := s.draft.push (.schemaName name) (s.stream M.left).current.span
  let declared := root.push (.identifier (Text.asciiLower name) true none) place
  ({ s with
    position := (s.stream M.left).advance.position
    virtualVariable := some (Text.asciiLower name) } : State).write
    (declared.push (.rangeDeclaration s.draft.size false (some root.size)) span)

theorem rangeDeclaration_after (s : State) : After M.left (rangeDeclaration true) s fun id t =>
    M.Leads t → ∃ name place span, (s.stream M.left).identifier? = some name ∧
      (s.stream M.left).advance.check .dot = false ∧
      (s.stream M.left).advance.check (.keyword .as) = false ∧
      ¬M.left.Names (s.stream M.left).advance.position ∧
      id = s.draft.size + 2 ∧ t = M.rangeState s name place span := by
  rw [After, rangeDeclaration_run]
  refine rangeRoot_after.bind fun root u hu => (rangeTail_after _ _ _).mono
    fun id t ⟨hgrows, ht⟩ hs' => ?_
  rcases hu with hspoilt | ⟨name, hname, hdot, rfl, rfl⟩
  · exact absurd hs' (hspoilt t hgrows)
  rcases ht with hspoilt | ⟨has, hnames, other, hother, place, span, hid, ht⟩
  · exact absurd hs' (hspoilt t (.refl _))
  obtain rfl : name = other := Option.some.inj hother
  refine ⟨name, place, span, hname, hdot, ?_, hnames, ?_, ht⟩
  · rw [← State.stream_advance]
    exact has
  · rw [hid, Draft.size_push]
    exact congrArg (· + 1) (Draft.size_push _ _ _)

section

variable {env : Env} {name : String}

theorem rangeRoot_of_some (hname : (s.stream env).identifier? = some name)
    (hdot : (s.stream env).advance.check .dot = false) : rangeRoot env s =
      .ok ((s.draft.size, some name),
        ({ s with position := (s.stream env).advance.position } : State).write
          (s.draft.push (.schemaName name) (s.stream env).current.span)) := by
  rw [← State.stream_advance] at hdot
  refine (look_run hname).trans ((look_run rfl).trans ?_)
  refine (bind_of_eq_ok (show advance env s = .ok ((), _) from rfl)).trans ?_
  exact (look_run hdot).trans rfl

/-- **A range with its alias** is three nodes, too. -/
theorem rangeDeclaration_of_alias {v : String} (hname : (s.stream env).identifier? = some name)
    (halias : (s.stream env).advance.kind = .identifier v) : ∃ a b c,
      rangeDeclaration true env s = .ok
        (((s.draft.push (.schemaName name) a).push (.identifier v false none) b).size,
          ({ s with position := (s.stream env).advance.advance.position } : State).write
            (((s.draft.push (.schemaName name) a).push (.identifier v false none) b).push
              (.rangeDeclaration s.draft.size false (some (s.draft.push (.schemaName name) a).size)) c)) := by
  have hdot : (s.stream env).advance.check .dot = false := by
    rw [TokenStream.check, halias]
    rfl
  have hroot := rangeRoot_of_some hname hdot
  let t : State := ({ s with position := (s.stream env).advance.position } : State).write
    (s.draft.push (.schemaName name) (s.stream env).current.span)
  have hstream : t.stream env = (s.stream env).advance := State.stream_advance
  have hname' : (t.stream env).identifier? = some v := by
    rw [hstream]
    exact TokenStream.identifier?_of_kind halias
  have hdeclared := declaredVariable?_of_some hname'
  have has : (t.stream env).check (.keyword .as) = false := by
    rw [hstream, TokenStream.check, halias]
    rfl
  rw [hstream] at hdeclared
  refine ⟨(s.stream env).current.span, (s.stream env).advance.current.span,
    env.upTo (s.stream env).currentStart (s.stream env).advance.advance.position, ?_⟩
  rw [rangeDeclaration_run, bind_of_eq_ok hroot]
  refine (bind_of_eq_ok (show consumeKeyword .as env t = _ from consume_of_not_check has)).trans ?_
  exact (bind_of_eq_ok hdeclared).trans rfl

end

section Range

variable {name : String} {place span : Span}

/-- The draft behind the name of the entity, and behind the virtual variable. -/
def rangeRootDraft (M : Mirror) (s : State) (name : String) : Draft :=
  s.draft.push (.schemaName name) (s.stream M.left).current.span

def rangeDraft (M : Mirror) (s : State) (name : String) (place : Span) : Draft :=
  (M.rangeRootDraft s name).push (.identifier (Text.asciiLower name) true none) place

theorem size_rangeRootDraft : (M.rangeRootDraft s name).size = s.draft.size + 1 := Draft.size_push _ _ _

theorem size_rangeDraft : (M.rangeDraft s name place).size = s.draft.size + 2 :=
  (Draft.size_push _ _ _).trans (congrArg (· + 1) size_rangeRootDraft)

/-- The state in which a node of the range is added. -/
def rangeStart (M : Mirror) (s : State) (name : String) : State :=
  { s with
    position := (s.stream M.left).advance.position
    virtualVariable := some (Text.asciiLower name) }

/-- **Before a range** and between its nodes the run led to the finished tree. -/
theorem Leads.back_range (hs' : M.Leads (M.rangeState s name place span))
    (hnames : M.left.Names s.position) :
    M.Leads s ∧ M.Leads ((M.rangeStart s name).write (M.rangeRootDraft s name)) ∧
      M.Leads ((M.rangeStart s name).write (M.rangeDraft s name place)) := by
  have hs₂ : M.Leads ((M.rangeStart s name).write (M.rangeDraft s name place)) :=
    hs'.pushBack rfl (Nat.le_refl _) (by rintro ⟨⟩)
  have hs₁ : M.Leads ((M.rangeStart s name).write (M.rangeRootDraft s name)) :=
    hs₂.pushBack rfl (Nat.le_refl _) (by rintro ⟨⟩)
  exact ⟨hs₁.pushBack rfl (le_advance (s.stream M.left)) fun _ => ⟨hnames, rfl⟩, hs₁, hs₂⟩

/-- **The nodes of a range in the finished tree.** -/
structure RangeThere (M : Mirror) (s : State) (name : String) (place : Span) : Prop where
  root : M.Adds (.schemaName name) s
  declared : M.Adds (.identifier (Text.asciiLower name) true none)
    ((M.rangeStart s name).write (M.rangeRootDraft s name))
  range : M.Adds (.rangeDeclaration s.draft.size false (some (M.rangeRootDraft s name).size))
    ((M.rangeStart s name).write (M.rangeDraft s name place))

theorem Leads.rangeThere (hs' : M.Leads (M.rangeState s name place span))
    (hnames : M.left.Names s.position) : M.RangeThere s name place := by
  obtain ⟨-, hs₁, hs₂⟩ := hs'.back_range hnames
  exact ⟨Leads.adds (s := M.rangeStart s name) hs₁,
    Leads.adds (s := (M.rangeStart s name).write (M.rangeRootDraft s name)) hs₂,
    Leads.adds (s := (M.rangeStart s name).write (M.rangeDraft s name place)) hs'⟩

theorem RangeThere.owner (h : M.RangeThere s name place) : M.tree.Owns (Text.asciiLower name) :=
  ⟨_, _, _, _, _, h.range.2.elim id id, h.root.2.elim id id, h.declared.2.elim id id⟩

/-- **The token of a range is the name of an entity**; no path starts at it. -/
theorem Rel.rangeToken (h : M.Rel s t) (hs' : M.Leads (M.rangeState s name place span))
    (hnames : M.left.Names s.position) (hinside : s.position < M.left.tokens.size) :
    M.tree.startsPath M.left.tokens[s.position] = false ∧
      M.tree.startsEntity M.left.tokens[s.position] = true := by
  obtain ⟨hs, hs₁, -⟩ := hs'.back_range hnames
  have hthere := hs'.rangeThere hnames
  have hkind₀ : M.tree.kind s.draft.size = .schemaName name := hthere.root.2.elim id id
  have hkind₁ : M.tree.kind (M.rangeRootDraft s name).size = _ := hthere.declared.2.elim id id
  have hkind₂ : M.tree.kind (M.rangeDraft s name place).size = _ := hthere.range.2.elim id id
  rw [size_rangeRootDraft] at hkind₁ hkind₂
  rw [size_rangeDraft] at hkind₂
  constructor
  · rw [Bool.eq_false_iff]
    intro hpath
    rw [Tree.startsPath, Bool.and_eq_true] at hpath
    obtain ⟨id, hid, hkind, hstart⟩ := Tree.any_starts.mp hpath.2
    have hpassed : s.position < (M.rangeState s name place span).position := by
      show s.position < (s.stream M.left).advance.position
      rw [show (s.stream M.left).advance = _ from
        Env.advance_eq (hnames.succ_lt M.aliased.inOrder hinside)]
      exact Nat.lt_succ_self _
    obtain ⟨hge, hlt⟩ := h.new_of_starts hs hs' (Nat.le_refl _) hinside (.inl hpassed) hid
      (by rw [NodeKind.isAliased, hkind]; rfl) (hstart.trans (Env.InOrder.startAt_eq hinside).symm)
    have hsize : (M.rangeState s name place span).draft.size = s.draft.size + 3 :=
      (Draft.size_push _ _ _).trans (congrArg (· + 1) size_rangeDraft)
    rcases (show id = s.draft.size ∨ id = s.draft.size + 1 ∨ id = s.draft.size + 2 by omega) with
      rfl | rfl | rfl
    · rw [hkind₀] at hkind
      cases hkind
    · rw [hkind₁] at hkind
      cases hkind
    · rw [hkind₂] at hkind
      cases hkind
  · have hnaming := hnames.isNaming
    rw [TokenStream.kind, Env.InOrder.current_eq hinside] at hnaming
    rw [Tree.startsEntity, Bool.and_eq_true]
    refine ⟨hnaming, Tree.any_starts.mpr ⟨s.draft.size, hthere.root.1, by rw [hkind₀]; rfl, ?_⟩⟩
    rw [hs₁.span_eq _ (by
      show s.draft.size < (M.rangeRootDraft s name).size
      rw [size_rangeRootDraft]
      exact Nat.lt_succ_self _)]
    show ((M.rangeRootDraft s name).span s.draft.size).start = _
    rw [rangeRootDraft, Draft.span_push,
      show (s.stream M.left).current = _ from Env.InOrder.current_eq hinside]

/-- **Where the entity is named, the other run sees it, too**, and the alias behind it. -/
theorem Rel.rangeTokens (h : M.Rel s t) (hs' : M.Leads (M.rangeState s name place span))
    (hname : (s.stream M.left).identifier? = some name) (hnames : M.left.Names s.position) :
    (t.stream M.right).identifier? = some name ∧
      (t.stream M.right).advance.kind = .identifier M.v ∧
      (t.stream M.right).advance.advance.position = M.place (s.stream M.left).advance.position := by
  have hs := (hs'.back_range hnames).1
  have hinside := hs.inside
  have hnext := hnames.succ_lt M.aliased.inOrder hinside
  obtain ⟨hpath, hentity⟩ := h.rangeToken hs' hnames hinside
  obtain ⟨hat, halias, hplace⟩ := M.aliased.of_startsEntity hinside hpath hentity
  change M.right.TokenAt (M.place s.position + 1) _ at halias
  change M.place (s.position + 1) = M.place s.position + 2 at hplace
  have hplaced : M.place (s.position + 1) < M.right.tokens.size := M.aliased.place_lt hnext
  have hadvance : (t.stream M.right).advance =
      ⟨M.right.source, M.right.tokens, M.place s.position + 1⟩ := by
    rw [h.stream]
    exact Env.advance_eq (by omega)
  have hcurrent : (s.stream M.left).current = M.left.tokens[s.position] :=
    Env.InOrder.current_eq hinside
  refine ⟨?_, ?_, ?_⟩
  · refine (TokenStream.identifier?_congr ?_ ?_ ?_).trans hname
    · rw [h.stream, TokenStream.kind, TokenStream.kind, hcurrent]
      exact hat.kind_eq
    · rw [h.stream, TokenStream.currentText, TokenStream.currentText, hcurrent]
      exact hat.currentText_eq
    · exact ((h.names_iff hs).mpr hnames).trans hnames.symm
  · rw [hadvance]
    exact halias.kind_eq
  · have hlast : TokenStream.advance ⟨M.right.source, M.right.tokens, M.place s.position + 1⟩ =
        ⟨M.right.source, M.right.tokens, M.place s.position + 2⟩ := Env.advance_eq (by omega)
    rw [hadvance, show (s.stream M.left).advance = _ from Env.advance_eq hnext, hplace, hlast]

/-- **A range and its mirror image are added.** -/
theorem Rel.pushRange (h : M.Rel s t) (hs' : M.Leads (M.rangeState s name place span))
    (hnames : M.left.Names s.position) (a b c : Span) :
    M.tree.image (M.rangeDraft s name place).size =
        ((t.draft.push (.schemaName name) a).push (.identifier M.v false none) b).size ∧
      M.Rel (M.rangeState s name place span)
        (({ t with position := M.place (s.stream M.left).advance.position } : State).write
          (((t.draft.push (.schemaName name) a).push (.identifier M.v false none) b).push
            (.rangeDeclaration t.draft.size false (some (t.draft.push (.schemaName name) a).size)) c)) := by
  obtain ⟨hs, hs₁, hs₂⟩ := hs'.back_range hnames
  have hthere := hs'.rangeThere hnames
  have hpassed : s.position < (s.stream M.left).advance.position := by
    rw [show (s.stream M.left).advance = _ from
      Env.advance_eq (hnames.succ_lt M.aliased.inOrder hs.inside)]
    exact Nat.lt_succ_self _
  have h₁ := (h.move (Nat.le_of_lt hpassed) rfl).push (.schemaName name)
    (s.stream M.left).current.span a hs.isField hthere.root (.refl _) rfl nofun fun _ => ⟨s.position, hpassed, rfl⟩
  have h₂ := h₁.push (.identifier M.v false none) place b hs₁.isField hthere.declared (.refl _) rfl
    (fun _ hkind => by cases hkind; exact hthere.owner) nofun
  have himage₀ : M.tree.image s.draft.size = t.draft.size :=
    (Tree.image_eq_rank hthere.root.isField).trans h.size.symm
  have himage₁ : M.tree.image (M.rangeRootDraft s name).size = (t.draft.push (.schemaName name) a).size :=
    (Tree.image_eq_rank hthere.declared.isField).trans h₁.size.symm
  have h₃ := h₂.push
    (.rangeDeclaration t.draft.size false (some (t.draft.push (.schemaName name) a).size)) span c
    hs₂.isField hthere.range (by
      rw [← himage₀, ← himage₁]
      exact .refl _) rfl nofun nofun
  exact ⟨(Tree.image_eq_rank hthere.range.isField).trans h₂.size.symm,
    { h₃ with owner := fun _ hk => by cases hk; exact hthere.owner }⟩

/-- **A range is followed.** Where the one run makes the entity a virtual variable, the other declares
the alias. -/
theorem FollowsAt.rangeDeclaration : M.FollowsAt s t (fun _ => True) (rangeDeclaration true)
    (rangeDeclaration true) (fun _ _ => True) M.tree.image := by
  intro id s' hrun hs' _
  obtain ⟨name, place, span, hname, -, -, -, rfl, rfl⟩ := rangeDeclaration_after s id s' hrun hs'
  have hnames : M.left.Names s.position := by
    exact Option.isSome_of_eq_some hname
  refine ⟨(hs'.back_range hnames).1, trivial, le_advance (s.stream M.left), fun hrel => ?_⟩
  obtain ⟨hother, halias, hposition⟩ := hrel.rangeTokens hs' hname hnames
  obtain ⟨a, b, c, hright⟩ := rangeDeclaration_of_alias hother halias
  obtain ⟨himage, hrel'⟩ := hrel.pushRange hs' hnames a b c
  rw [size_rangeDraft] at himage
  rw [hposition, ← himage] at hright
  exact ⟨_, hright, hrel'⟩

end Range

/-! ## Clauses -/

theorem updateTarget_run (env : Env) (s : State) {name : String}
    (hname : (s.stream env).identifier? = some name) : Parse.updateTarget env s =
      afterName name (s.stream env).current.span
        (fun segments dot owner => fieldPath owner ⟨name, (s.stream env).current.span⟩ segments dot false)
        (fun segments dot root =>
          pushFrom (.path .stateField root segments dot) (s.stream env).current.span.start) env s := by
  rw [updateTarget_eq]
  exact (look_run hname).trans rfl

/-- **The target of an item is followed.** -/
theorem follows_updateTarget : M.Follows Parse.updateTarget Parse.updateTarget M.tree.image := by
  intro s t y s' hrun hs' _
  cases hname : (s.stream M.left).identifier? with
  | none =>
    rw [updateTarget_eq] at hrun
    exact absurd hs' (Never.missing _ s y s' ((look_run hname).symm.trans hrun))
  | some name =>
    have hnames : M.left.Names s.position := Option.isSome_of_eq_some hname
    obtain rfl : (s.stream M.left).currentText = name :=
      Option.some.inj ((identifier?_eq (hnames.lt M.aliased.inOrder) hnames).symm.trans hname)
    rw [updateTarget_run _ _ hname] at hrun
    obtain ⟨hs, hle, hmirror⟩ := afterName_mirror hnames (fun _ _ => false)
      (fun segments dot root s => (After.pushFrom _ _).mono fun _ _ ⟨_, ht⟩ => ht ▸ s.draft.grows_push _ _)
      hrun hs'
    refine ⟨hs, trivial, hle, fun hrel => ?_⟩
    obtain ⟨hother, -, segments, -, dot, hfound, hpath⟩ := hmirror hrel
    obtain ⟨t', hright, hrel'⟩ := hpath (t.stream M.right).current.span
    refine ⟨t', ?_, hrel'⟩
    have hnone : t.virtualVariable.filter (fun owner => !Text.sameWord M.v owner) = none := by
      rw [hrel.virtualRight]
      rfl
    rw [updateTarget_run _ _ hother, afterName_of_none hnone]
    dsimp only
    rw [hfound]
    exact hright

/-- **The virtual variable is known inside a statement only.** The first token of a statement is moved
over. -/
theorem FollowsAt.withoutVirtual {α β : Type} {p : Parser α} {q : Parser β} {φ : α → β}
    (h : ∀ s t, M.FollowsAt s t M.Passed p q (fun _ _ => True) φ) :
    M.FollowsAt s t M.Passed (Parse.withoutVirtual p) (Parse.withoutVirtual q) (fun _ _ => True) φ := by
  intro y s' hrun hs' _
  change (p >>= fun y => modify _ *> Pure.pure y) M.left { s with virtualVariable := none } = _ at hrun
  obtain ⟨y, s₁, hp, hrest⟩ := bind_eq_ok hrun
  obtain ⟨rfl, rfl⟩ := Prod.mk.inj (Except.ok.inj hrest)
  obtain ⟨hs, hpassed, hle, hmirror⟩ :=
    h _ { t with virtualVariable := none } _ s₁ hp { hs' with } trivial
  refine ⟨{ hs with }, { hpassed with }, hle, fun hrel => ?_⟩
  obtain ⟨t₁, hq, hrel₁⟩ := hmirror { hrel with owner := nofun, virtualRight := rfl }
  refine ⟨{ t₁ with virtualVariable := t.virtualVariable }, ?_,
    { hrel₁ with owner := hrel.owner, virtualRight := hrel.virtualRight }⟩
  show (q >>= fun z => modify _ *> Pure.pure z) M.right { t with virtualVariable := none } = _
  exact (bind_of_eq_ok hq).trans rfl

section

variable {deeper : Deeper} (hd : M.Nested deeper)

include hd

theorem follows_updateItem : M.Follows (updateItem deeper) (updateItem deeper) M.tree.image :=
  .place fun m n => follows_updateTarget.bind fun _ => (follows_expect _).bind fun _ =>
    (follows_operand hd _).bind fun _ => follows_pushFrom m n rfl rfl rfl

/-- **The items of an `UPDATE` are followed.** -/
theorem follows_updateItems :
    M.Follows (updateItems deeper) (updateItems deeper) (List.map M.tree.image) := by
  refine (follows_consumeKeyword _).bind fun found => ?_
  cases found with
  | true => exact .separated (follows_updateItem hd)
  | false => exact .never (.missingClause _ _)

theorem follows_whereClause? :
    M.Follows (whereClause? deeper) (whereClause? deeper) (Option.map M.tree.image) := by
  refine .place fun m n => (follows_consumeKeyword _).bind fun found => ?_
  cases found with
  | true =>
    exact (follows_condition hd).bind fun _ => (follows_pushFrom m n rfl rfl rfl).gives fun _ => rfl
  | false => exact .done rfl

/-! ## Statements -/

/-- **An `UPDATE` is followed.** -/
theorem FollowsAt.updateStatement : M.FollowsAt s t M.Passed (updateStatement deeper)
    (updateStatement deeper) (fun _ _ => True) M.tree.image :=
  .withoutVirtual fun _ _ => .place fun m n => FollowsAt.advance.bind fun _ _ _ =>
    FollowsAt.rangeDeclaration.bind fun _ => (follows_updateItems hd).bind fun _ =>
      (follows_pushFrom m n rfl rfl rfl).bind fun _ => (follows_whereClause? hd).bind fun _ =>
        follows_pushFrom m n rfl rfl rfl

/-- **A `DELETE` is followed.** -/
theorem FollowsAt.deleteStatement : M.FollowsAt s t M.Passed (deleteStatement deeper)
    (deleteStatement deeper) (fun _ _ => True) M.tree.image :=
  .withoutVirtual fun _ _ => .place fun m n => FollowsAt.advance.bind fun _ =>
    (follows_expectKeyword _).bind fun _ _ _ => FollowsAt.rangeDeclaration.bind fun _ =>
      (follows_pushFrom m n rfl rfl rfl).bind fun _ => (follows_whereClause? hd).bind fun _ =>
        follows_pushFrom m n rfl rfl rfl

omit hd in
theorem never_selectStatement : M.Never (selectStatement deeper) :=
  .bind_right fun _ => .bind_right fun _ => .bind_right fun _ => .bind_right fun _ =>
    .bind_right fun _ => .bind_right fun _ => .bind_right fun _ => .pushFrom rfl _

theorem follows_statement? (rule : String) :
    M.Follows (statement? deeper rule) (statement? deeper rule) (Option.map M.tree.image) := by
  intro s t
  refine FollowsAt.weaken (?_ : M.FollowsAt s t M.Passed _ _ _ _) (fun _ _ => trivial) fun _ _ h => h
  refine .lookPassed (fun _ _ h _ => h) (fun _ h => h) ?_
  generalize (s.stream M.left).kind = kind
  have hnone : M.Never (do
      let stop := Text.trimmedLength (← read).source
      let start ← look (·.currentStart)
      record ⟨.invalidStatement, [], ⟨min start stop, stop⟩, none⟩
      return (none : Option NodeId)) := by
    rintro s _ _ ⟨⟩
    exact not_leads_record _
  cases Trigger.ofKind? kind with
  | none => exact hnone.followsAt
  | some trigger =>
    refine FollowsAt.dispatch fun construct? _ => ?_
    cases construct? with
    | none => exact hnone.followsAt
    | some construct =>
      cases construct
      case selectStatement => exact (never_selectStatement.gives some).followsAt
      case simpleSelectStatement => exact (never_simpleSelect.gives some).followsAt
      case updateStatement => exact (FollowsAt.updateStatement hd).map (fun _ _ _ => trivial) fun _ => rfl
      case deleteStatement => exact (FollowsAt.deleteStatement hd).map (fun _ _ _ => trivial) fun _ => rfl
      all_goals exact hnone.followsAt

theorem follows_start? (rule : String) :
    M.Follows (start? deeper rule) (start? deeper rule) (Option.map M.tree.image) := by
  unfold start?
  split
  · exact follows_statement? hd rule
  · exact (follows_disjunction hd rule).map fun _ => rfl

omit hd in
/-- Nothing stands behind a statement. -/
theorem follows_trailingText :
    M.Follows trailingText trailingText (Option.map M.tree.image) := by
  intro s t
  refine FollowsAt.look (φ := id)
    (fun hs _ hrel => hrel.isKind hs (f := (· == .eof)) fun kind hkind => ?_) ?_
  · cases kind <;> first | rfl | cases hkind
  cases (s.stream M.left).atEnd with
  | true => exact .done rfl
  | false =>
    exact (Never.bind_right fun _ => .bind_right fun _ => .bind_right fun _ =>
      (Never.pushUnknown _ _ _ _).gives some).followsAt

/-- **A whole text is followed.** -/
theorem follows_query (rule : String) :
    M.Follows (query deeper rule) (query deeper rule) M.tree.image :=
  (follows_start? hd rule).bind fun _ => follows_trailingText.bind fun _ _ _ =>
    (FollowsAt.push _ _ rfl rfl rfl).weaken (fun _ _ => trivial) fun _ _ h => h

end

end Jpql.Mirror
