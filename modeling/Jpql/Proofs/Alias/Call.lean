import Jpql.Proofs.Alias.Expression

/-! # Calls and their mirror images

Constructs that a keyword introduces are followed, and so is every nested construct
(`Mirror.nested_level`). Calls that name a variable, and subqueries, are in no statement without alias.

* `Mirror.FollowsAt.callBody`: what a construct looks like after its keyword.
* `Mirror.nested_level`: every construct, at any number of levels. -/

namespace Jpql.Mirror

open Parse

variable {M : Mirror} {s s' t : State}

section

variable {α β γ δ : Type} {p : Parser α} {q : Parser β} {φ : α → β}

/-- What stands in parentheses is followed. -/
theorem Follows.inParens (h : M.Follows p q φ) :
    M.Follows (Parse.inParens p) (Parse.inParens q) φ :=
  (follows_expect _).bind fun _ => h.closed _

/-- So is what is known of a node that is to be added. -/
theorem FollowsAt.inParens {p q : Parser NodeKind}
    (h : ∀ s t, M.FollowsAt s t (fun _ => True) p q M.Adds M.renamed) :
    M.FollowsAt s t (fun _ => True) (Parse.inParens p) (Parse.inParens q) M.Adds M.renamed :=
  (follows_expect _ s t).bind fun _ s t => (h s t).bind fun kind s t =>
    (show M.FollowsAt s t (M.Adds kind) (discard (Parse.expect .rightParen))
        (discard (Parse.expect .rightParen)) (fun _ => M.Adds kind) fun _ : Unit => () from
      .map (expect_keeps _ fun s s' (hdraft : s'.draft = s.draft) (hadds : M.Adds kind s') => by
        unfold Adds at hadds ⊢
        rwa [hdraft] at hadds)
      (fun _ _ h => h) fun _ => rfl).bind fun _ s t => .result rfl fun _ h => h

end

/-! ## Arguments -/

theorem follows_trimSide : M.Follows trimSide trimSide id := by
  refine (follows_consumeKeyword _).bind fun found => ?_
  cases found with
  | true => exact .done rfl
  | false =>
    refine (follows_consumeKeyword _).bind fun found => ?_
    cases found with
    | true => exact .done rfl
    | false =>
      refine (follows_consumeKeyword _).bind fun found => ?_
      cases found with
      | true => exact .done rfl
      | false => exact .done rfl

section

variable {deeper : Deeper} (hd : M.Nested deeper)

include hd

theorem follows_path : M.Follows (path deeper) (path deeper) M.tree.image := follows_primary hd _

/-- The images of two nodes. -/
def both (M : Mirror) (nodes : NodeId × NodeId) : NodeId × NodeId :=
  (M.tree.image nodes.1, M.tree.image nodes.2)

/-- The images of two nodes and perhaps a third. -/
def three (M : Mirror) (nodes : NodeId × NodeId × Option NodeId) : NodeId × NodeId × Option NodeId :=
  (M.tree.image nodes.1, M.tree.image nodes.2.1, nodes.2.2.map M.tree.image)

theorem follows_twoScalars : M.Follows (twoScalars deeper) (twoScalars deeper) M.both :=
  (follows_scalar hd).bind fun _ => (follows_expect _).bind fun _ =>
    (follows_scalar hd).gives fun _ => rfl

theorem follows_threeScalars : M.Follows (threeScalars deeper) (threeScalars deeper) M.three := by
  refine (follows_twoScalars hd).bind fun nodes => (follows_consume (by simp)).bind fun found => ?_
  cases found with
  | true => exact (follows_scalar hd).gives fun third => rfl
  | false => exact .done rfl

/-- What follows `WHEN`. -/
def whenRest (deeper : Deeper) (start : Nat) : Parser NodeId := do
  let condition ← condition deeper
  expectKeyword .then
  let result ← scalar deeper
  pushFrom (.when condition result) start

theorem follows_aggregateArgument : M.Follows (aggregateArgument deeper) (aggregateArgument deeper)
    (Prod.map id M.tree.image) :=
  (follows_consumeKeyword _).bind fun _ => (follows_scalar hd).gives fun _ => rfl

theorem follows_whenRest (m n : Nat) :
    M.Follows (whenRest deeper m) (whenRest deeper n) M.tree.image :=
  (follows_condition hd).bind fun _ => (follows_expectKeyword _).bind fun _ =>
    (follows_scalar hd).bind fun _ => follows_pushFrom m n rfl rfl rfl

theorem follows_whenClause : M.Follows (whenClause deeper) (whenClause deeper) M.tree.image :=
  .place fun m n => follows_advance.bind fun _ => follows_whenRest hd m n

/-- A clause has a word of its own. -/
theorem lt_whenClause {y : NodeId} (hword : (s.stream M.left).checkKeyword .when = true)
    (hrun : whenClause deeper M.left s = .ok (y, s')) (hs' : M.Leads s') : s.position < s'.position := by
  change (advance >>= fun _ => whenRest deeper (s.stream M.left).currentStart) M.left s = _ at hrun
  obtain ⟨_, s₁, hadvance, hrest⟩ := bind_eq_ok hrun
  obtain ⟨hs₁, -, hle, -⟩ := follows_whenRest hd _ 0 s₁ s₁ _ _ hrest hs' trivial
  obtain ⟨hs, -⟩ := follows_advance s s _ _ hadvance hs₁ trivial
  obtain ⟨-, rfl⟩ := Prod.mk.inj (Except.ok.inj hadvance)
  refine Nat.lt_of_lt_of_le (lt_advance M.aliased.inOrder hs.inside ?_) hle
  rw [TokenKind.eq_of_isKeyword hword]
  rintro ⟨⟩

/-- **`CASE` is followed.** -/
theorem follows_caseBody : M.Follows (caseBody deeper) (caseBody deeper) M.renamed := by
  have hwhens : M.Follows (loop (fun whens => do
        if ← atKeyword .when then return some (whens ++ [← whenClause deeper]) else return none) [])
      (loop (fun whens => do
        if ← atKeyword .when then return some (whens ++ [← whenClause deeper]) else return none) [])
      (List.map M.tree.image) := by
    have hmore : ∀ whens, M.Follows (do
          if ← atKeyword .when then return some (whens ++ [← whenClause deeper]) else return none)
        (do
          if ← atKeyword .when then return some (whens.map M.tree.image ++ [← whenClause deeper])
          else return none) (Option.map (List.map M.tree.image)) := fun whens =>
      .atKeyword rfl fun found => by
        cases found with
        | true => exact (follows_whenClause hd).gives fun id => by simp
        | false => exact .done rfl
    refine fun s t => FollowsAt.loop (φ := List.map M.tree.image) (fun whens s t => hmore whens s t)
      (fun whens more s s' hrun hs' => ?_) []
    obtain ⟨found, s₁, hword, hrest⟩ := bind_eq_ok hrun
    obtain ⟨rfl, rfl⟩ := Prod.mk.inj (Except.ok.inj hword)
    split at hrest
    · next hfound =>
      obtain ⟨id, s₂, hclause, hlast⟩ := bind_eq_ok hrest
      obtain ⟨-, rfl⟩ := Prod.mk.inj (Except.ok.inj hlast)
      exact lt_whenClause hd hfound hclause hs'
    · cases hrest
  have hrest : ∀ operand : Option NodeId, M.Follows (do
        let whens ← loop (fun whens => do
          if ← atKeyword .when then return some (whens ++ [← whenClause deeper]) else return none) []
        if whens.isEmpty then expectKeyword .when
        expectKeyword .else
        let otherwise ← scalar deeper
        expectKeyword .end
        return NodeKind.caseOf operand whens otherwise) (do
        let whens ← loop (fun whens => do
          if ← atKeyword .when then return some (whens ++ [← whenClause deeper]) else return none) []
        if whens.isEmpty then expectKeyword .when
        expectKeyword .else
        let otherwise ← scalar deeper
        expectKeyword .end
        return NodeKind.caseOf (operand.map M.tree.image) whens otherwise) M.renamed := by
    intro operand
    refine hwhens.bind fun whens => ?_
    have hlast : M.Follows (do
          expectKeyword .else
          let otherwise ← scalar deeper
          expectKeyword .end
          return NodeKind.caseOf operand whens otherwise) (do
          expectKeyword .else
          let otherwise ← scalar deeper
          expectKeyword .end
          return NodeKind.caseOf (operand.map M.tree.image) (whens.map M.tree.image) otherwise)
        M.renamed :=
      (follows_expectKeyword _).bind fun _ => (follows_scalar hd).bind fun otherwise =>
        (follows_expectKeyword _).bind fun _ => .done rfl
    rw [List.isEmpty_map]
    cases whens.isEmpty with
    | true => exact (follows_expectKeyword _).bind fun _ => hlast
    | false => exact hlast
  refine .atKeyword rfl fun found => ?_
  cases found with
  | true => exact hrest none
  | false => exact (Follows.map (ψ := Option.map M.tree.image) (follows_scalar hd) fun _ => rfl).bind hrest

theorem follows_callArguments : M.Follows (callArguments deeper) (callArguments deeper) M.renamed := by
  have hrest : ∀ name, M.Follows (do
        let arguments ← if ← consume .comma then separated (scalar deeper) else pure []
        return NodeKind.call name arguments) (do
        let arguments ← if ← consume .comma then separated (scalar deeper) else pure []
        return NodeKind.call name arguments) M.renamed := fun name =>
    (follows_consume (by simp)).bind fun found => by
      cases found with
      | true => exact (Follows.separated (follows_scalar hd)).gives fun arguments => rfl
      | false => exact .done rfl
  refine .lookKind (fun kind hkind => ?_) fun kind => ?_
  · cases kind <;> first | rfl | cases hkind
  · cases kind with
    | string name => exact (Follows.seqRight follows_advance (.done (φ := id) rfl)).bind hrest
    | _ => exact (Follows.never (φ := id) (.recordHere _ _ _)).bind hrest

/-! ### The character that is trimmed -/

/-- What `TRIM` takes after its side and character. -/
def trimRest (deeper : Deeper) (side : TrimSide) (character : Option NodeId) : Parser NodeKind := do
  let hasFrom ← consumeKeyword .from
  let string ← scalar deeper
  return .trim side character hasFrom string

theorem follows_trimRest (side : TrimSide) (character : Option NodeId) :
    M.Follows (trimRest deeper side character) (trimRest deeper side (character.map M.tree.image))
      M.renamed :=
  (follows_consumeKeyword _).bind fun _ => (follows_scalar hd).gives fun _ => rfl

omit hd in
theorem gives_trimRest (side : TrimSide) (character : Option NodeId) : Gives M.left
    (fun kind => ∃ hasFrom string, kind = .trim side character hasFrom string)
    (trimRest deeper side character) :=
  .bind fun hasFrom => .bind fun string => .pure ⟨hasFrom, string, rfl⟩

/-- `FROM` follows the next token. -/
def atCharacter (stream : TokenStream) : Bool :=
  !stream.checkKeyword .from && stream.peek.kind.isKeyword .from

/-- What `TRIM` takes after its side. -/
def trimCharacter (deeper : Deeper) (side : TrimSide) (withCharacter : Bool) : Parser NodeKind := do
  let character ← if withCharacter then some <$> primary deeper RuleId.scalar else pure none
  trimRest deeper side character

theorem follows_trimCharacter (side : TrimSide) (withCharacter : Bool) :
    M.Follows (trimCharacter deeper side withCharacter) (trimCharacter deeper side withCharacter)
      M.renamed := by
  cases withCharacter with
  | true =>
    exact (Follows.map (ψ := Option.map M.tree.image) (follows_primary hd _) fun _ => rfl).bind
      fun character => follows_trimRest hd side character
  | false => exact follows_trimRest hd side none

omit hd in
/-- A bare name is a variable. -/
theorem primary_bare (hnames : M.left.Names s.position) (hlt : s.position < M.left.tokens.size)
    (hpeek : (s.stream M.left).peek.kind ≠ .dot) :
    After M.left (primary deeper RuleId.scalar) s fun id s' =>
      id < s'.draft.size ∧ (s'.draft.kind id).isVariable = true := by
  have hdispatch : Grammar.standard.dispatch RuleId.scalar .identifier = .ok (some .path) := by
    decide +kernel
  refine .look_bind ?_
  rw [show trigger? (s.stream M.left) = _ from hnames.trigger?]
  intro id s' hrun
  obtain ⟨construct?, s₁, hfirst, hrun⟩ := bind_eq_ok hrun
  rw [dispatch_run, M.aliased.grammarLeft, hdispatch] at hfirst
  obtain ⟨rfl, rfl⟩ := Prod.mk.inj (Except.ok.inj hfirst)
  change Parse.pathOrVariable M.left s = _ at hrun
  have hadvance : (s.stream M.left).advance = ⟨M.left.source, M.left.tokens, s.position + 1⟩ :=
    Env.advance_eq (hnames.succ_lt M.aliased.inOrder hlt)
  have hfound : M.found s = (([], false), (s.stream M.left).advance) := by
    refine TokenStream.segments_of_not_dot ?_ _
    rw [hadvance]
    exact beq_eq_false_iff_ne.mpr hpeek
  have hvariable : ∀ {u : State} {name : String} {isVirtual : Bool} {path : Option NodeId} {span : Span},
      Parse.push (.identifier name isVirtual path) span M.left u = .ok (id, s') →
      id < s'.draft.size ∧ (s'.draft.kind id).isVariable = true := by
    intro u name isVirtual path span hpush
    obtain ⟨rfl, rfl⟩ := After.push _ _ _ _ hpush
    refine ⟨(Draft.size_push u.draft _ _).symm ▸ Nat.lt_succ_self _, ?_⟩
    show ((u.draft.push _ _).kind u.draft.size).isVariable = true
    rw [Draft.kind_push]
    rfl
  rw [pathOrVariable_run] at hrun
  cases howner : s.virtualVariable.filter
      fun owner => !Text.sameWord (s.stream M.left).currentText owner with
  | none =>
    rw [afterName_of_none howner] at hrun
    dsimp only at hrun
    change (pushVariable _ _ >>= variablePath _ (M.found s).1.1 (M.found s).1.2) M.left _ = _ at hrun
    rw [hfound] at hrun
    obtain ⟨root, u, hroot, hrest⟩ := bind_eq_ok hrun
    obtain ⟨rfl, rfl⟩ := Prod.mk.inj (Except.ok.inj hrest)
    exact hvariable hroot
  | some owner =>
    rw [afterName_of_some howner] at hrun
    dsimp only at hrun
    change fieldPath owner _ (M.found s).1.1 (M.found s).1.2 _ M.left _ = _ at hrun
    rw [hfound] at hrun
    obtain ⟨path, u, -, hrest⟩ := bind_eq_ok hrun
    change (if ((M.found s).1.1.isEmpty && !(M.found s).1.2) = true then _ else _ : Parser NodeId)
      M.left u = _ at hrest
    rw [hfound] at hrest
    exact hvariable hrest

omit hd in
/-- Whether a character is there is seen in both runs alike, but for a name in its place. -/
theorem Rel.sees_character (h : M.Rel s t) (hs : M.Leads s)
    (hnames : M.left.Names s.position → atCharacter (s.stream M.left) = false) :
    atCharacter (t.stream M.right) = atCharacter (s.stream M.left) := by
  have hinside := hs.inside
  have hsame : ∀ {a b : TokenStream}, a.kind = b.kind → a.peek.kind = b.peek.kind →
      atCharacter a = atCharacter b := fun hkind hpeek => by
    rw [atCharacter, atCharacter, TokenStream.checkKeyword, TokenStream.checkKeyword, hkind, hpeek]
  have hnone : ∀ {a : TokenStream}, a.peek.kind.isNaming = true ∨ a.peek.kind = .dot →
      atCharacter a = false := fun {a} hpeek => by
    rw [atCharacter, Bool.and_eq_false_iff]
    refine .inr ?_
    generalize a.peek.kind = kind at hpeek
    cases kind with
    | keyword word => cases word <;> first | rfl | exact absurd hpeek (by decide)
    | _ => rfl
  by_cases hname : M.left.Names s.position
  · rw [hnames hname, h.stream]
    have hpeek : ∀ {i : Nat}, (TokenStream.peek ⟨M.right.source, M.right.tokens, i⟩).kind =
        TokenStream.kind ⟨M.right.source, M.right.tokens, i + 1⟩ := rfl
    by_cases hpath : M.tree.startsPath M.left.tokens[s.position] = true
    · exact hnone (.inr (hpeek.trans (M.aliased.of_startsPath hinside hpath).2.1.kind_eq))
    rw [Bool.not_eq_true] at hpath
    by_cases hentity : M.tree.startsEntity M.left.tokens[s.position] = true
    · refine hnone (.inl ?_)
      have hnext : (TokenStream.peek ⟨M.right.source, M.right.tokens, M.place s.position⟩).kind = _ :=
        hpeek.trans (M.aliased.of_startsEntity hinside hpath hentity).2.1.kind_eq
      rw [hnext]
      rfl
    · have hkeeps : M.tree.Keeps M.left.tokens[s.position] := ⟨hpath, by simpa using hentity⟩
      rcases M.aliased.peek_place hinside hkeeps with hnext | ⟨-, -, hnext⟩
      · rw [← hnames hname]
        refine hsame ?_ hnext
        rw [show TokenStream.kind ⟨M.right.source, M.right.tokens, M.place s.position⟩ = _ from
          (M.aliased.of_keeps hinside hkeeps).1.kind_eq]
        exact congrArg Token.kind (Env.InOrder.current_eq hinside).symm
      · refine hnone (.inl ?_)
        rw [show (TokenStream.peek ⟨M.right.source, M.right.tokens, M.place s.position⟩).kind = _ from
          hnext]
        rfl
  · have hkind := (h.kind_stream hs).resolve_right fun hc => hname hc.1
    rcases h.peek_kind hs hname with hpeek | ⟨hnaming, hpeek⟩
    · exact hsame hkind hpeek
    · rw [hnone (.inl hnaming), hnone (.inl (by rw [hpeek]; rfl))]

/-- **`TRIM` is followed** if it does not remove a name. -/
theorem FollowsAt.trimArguments : M.FollowsAt s t (fun _ => True) (Parse.trimArguments deeper)
    (Parse.trimArguments deeper) M.Adds M.renamed := by
  refine (follows_trimSide s t).bind fun side s t => ?_
  intro kind s' hrun hs' hadds
  change trimCharacter deeper side (atCharacter (s.stream M.left)) M.left s = _ at hrun
  obtain ⟨hs, -, hle, hmirror⟩ := follows_trimCharacter hd side _ s t kind s' hrun hs' trivial
  refine ⟨hs, trivial, hle, fun hrel => ?_⟩
  show ∃ t', trimCharacter deeper side (atCharacter (t.stream M.right)) M.right t = _ ∧ _
  rw [hrel.sees_character hs fun hnames => ?_]
  · exact hmirror hrel
  rw [← Bool.not_eq_true]
  intro hat
  rw [hat] at hrun
  -- the character would be a variable
  obtain ⟨character?, s₁, hcharacter, hrest⟩ := bind_eq_ok hrun
  change (primary deeper RuleId.scalar >>= fun id => Pure.pure (some id)) M.left s = _ at hcharacter
  obtain ⟨id, s₂, hprimary, hsome⟩ := bind_eq_ok hcharacter
  obtain ⟨rfl, rfl⟩ := Prod.mk.inj (Except.ok.inj hsome)
  obtain ⟨hs₂, -⟩ := follows_trimRest hd side (some id) s₂ s₂ kind s' hrest hs' trivial
  obtain ⟨hasFrom, string, rfl⟩ := gives_trimRest side (some id) s₂ kind s' hrest
  have hfrom : (s.stream M.left).peek.kind = .keyword .from :=
    TokenKind.eq_of_isKeyword (Bool.and_eq_true_iff.mp hat).2
  obtain ⟨hlt, hvariable⟩ := primary_bare hnames hs.inside (by rw [hfrom]; rintro ⟨⟩) id s₂ hprimary
  have homits : (!(M.tree.kind id).isVariable) = true := hadds.omits
  rw [hs₂.isVariable hlt, hvariable] at homits
  cases homits

/-! ### Constructors -/

omit hd in
theorem className_run (env : Env) (s : State) (first : String) : (do
    advance
    let (segments, _) ← segments
    return ".".intercalate (first :: segments.map (·.value)) : Parser String) env s =
      let found := (s.stream env).advance.segments env.tokens.size
      .ok (".".intercalate (first :: found.1.1.map (·.value)), { s with position := found.2.position }) := by
  rw [← State.stream_advance]
  rfl

omit hd in
/-- **The name of a class is followed.** No path starts in it. -/
theorem follows_className : M.Follows className className id := by
  refine .identifier? (fun first s t hnames => ?_) (.never (.recordHere _ _ _))
  intro name s' hrun hs' _
  rw [className_run] at hrun
  change Except.ok (_, { s with position := (M.found s).2.position }) = _ at hrun
  obtain ⟨rfl, rfl⟩ := Prod.mk.inj (Except.ok.inj hrun)
  have hs : M.Leads s := hs'.back rfl le_found
  refine ⟨hs, hs'.back rfl (le_segments _ _), le_found, fun hrel => ?_⟩
  have hnext := hnames.succ_lt M.aliased.inOrder hs.inside
  have hadvance : (s.stream M.left).advance = ⟨M.left.source, M.left.tokens, s.position + 1⟩ :=
    Env.advance_eq hnext
  have hkeeps : ∀ j, s.position ≤ j → ∀ hj : j < M.left.tokens.size, j < (M.found s).2.position →
      M.tree.Keeps M.left.tokens[j] := fun j hj hlt hbefore =>
    hrel.keeps hs hs' hj hlt (.inl hbefore) fun id hge hread => absurd hread (Nat.not_lt.mpr hge)
  have hmoved : s.position + 1 ≤ (M.found s).2.position := by
    have hle := le_segments M.left.tokens.size (s.stream M.left).advance
    rw [hadvance] at hle
    rw [found, hadvance]
    exact hle
  have hother : (t.stream M.right).advance =
      ⟨M.right.source, M.right.tokens, M.place (s.position + 1)⟩ := by
    rw [hrel.stream]
    exact advance_place hs.inside hnext (hkeeps _ (Nat.le_refl _) hs.inside hmoved)
  obtain ⟨hvalues, -, hposition⟩ := segments_place (n := M.left.tokens.size)
    (m := M.right.tokens.size) hnext (Nat.le_add_left _ _) (Nat.le_add_left _ _)
    (fun j hj hlt hpath => hrel.names hs (by omega) hlt hpath)
    (fun j hj hlt hbefore => hkeeps j (by omega) hlt (by rwa [found, hadvance]))
  rw [← hadvance, ← hother] at hvalues hposition
  refine ⟨_, ?_, hrel.move le_found hposition⟩
  rw [className_run]
  dsimp only
  rw [hvalues]
  rfl

/-- **What is constructed is followed.** -/
theorem follows_constructorBody :
    M.Follows (constructorBody deeper) (constructorBody deeper) M.renamed :=
  follows_className.bind fun _ =>
    (Follows.inParens (.separated (follows_operand hd _))).gives fun _ => rfl

/-! ## Subqueries -/

omit hd in
/-- No subquery is in a statement without alias. -/
theorem never_simpleSelect : M.Never (simpleSelect deeper) :=
  .withoutVirtual <| .bind_right fun _ => .bind_right fun _ => .bind_right fun _ =>
    .bind_right fun _ => .bind_right fun _ => .bind_right fun _ => .pushFrom rfl _

omit hd in
theorem follows_parenSubquery :
    M.Follows (parenSubquery deeper) (parenSubquery deeper) M.tree.image := by
  refine (follows_expect _).bind fun _ => .atKeyword rfl fun found => ?_
  have hclosed : ∀ {p : Parser NodeId}, M.Never p → M.Follows (do
      let subquery ← p
      discard (expect .rightParen)
      return subquery) (do
      let subquery ← p
      discard (expect .rightParen)
      return subquery) M.tree.image := fun h => (Follows.never h).closed _
  cases found with
  | true => exact hclosed never_simpleSelect
  | false => exact hclosed (.missing _)

/-! ## Calls -/

omit hd in
/-- Calls that a path may start with name a variable. -/
theorem omitsAlias_of_isQualified {kind : NodeKind} (h : kind.isQualified = true) :
    kind.omitsAlias M.tree.kind = false := by
  cases kind <;> first | rfl | cases h

omit hd in
/-- Kinds that name a variable are never added. -/
theorem FollowsAt.of_makes {p q : Parser (Option NodeKind)}
    (h : Makes M.left (fun kind => kind.omitsAlias M.tree.kind = false) p)
    (hsome : Answers M.left p) :
    M.FollowsAt s t (fun _ => True) p q (fun kind? s => ∀ kind ∈ kind?, M.Adds kind s)
      (Option.map M.renamed) := by
  refine .of_never fun kind? s' hrun hs' hadds => ?_
  cases kind? with
  | none => exact hsome s none s' hrun rfl
  | some kind =>
    have homits := (hadds kind rfl).omits
    rw [h s _ s' hrun kind rfl] at homits
    cases homits

/-- **What a construct looks like is followed.** -/
theorem FollowsAt.callBody (construct : Construct) (word : TokenKind) :
    M.FollowsAt s t (fun _ => True) (Parse.callBody deeper construct word)
      (Parse.callBody deeper construct word) (fun kind? s => ∀ kind ∈ kind?, M.Adds kind s)
      (Option.map M.renamed) := by
  have hplain : ∀ {p q : Parser (Option NodeKind)}, M.Follows p q (Option.map M.renamed) →
      M.FollowsAt s t (fun _ => True) p q (fun kind? s => ∀ kind ∈ kind?, M.Adds kind s)
        (Option.map M.renamed) := fun h => (h s t).weaken (fun _ h => h) fun _ _ _ => trivial
  have hnone : startsPath construct = true →
      Makes M.left (fun kind => kind.omitsAlias M.tree.kind = false) (Parse.callBody deeper construct word) :=
    fun hstarts => (makes_callBody construct word).mono fun _ h kind hk =>
      omitsAlias_of_isQualified ((h kind hk).2 hstarts)
  have hone := Follows.inParens (follows_scalar hd)
  have htwo := Follows.inParens (follows_twoScalars hd)
  have hthree := Follows.inParens (follows_threeScalars hd)
  have hmany := Follows.inParens (.separated (follows_scalar hd))
  cases construct
  case abs | sqrt | length | lower | upper => exact hplain (hone.gives fun _ => rfl)
  case mod | nullif => exact hplain (htwo.gives fun _ => rfl)
  case locate | substring => exact hplain (hthree.gives fun _ => rfl)
  case concat | coalesce => exact hplain (hmany.gives fun _ => rfl)
  case index => exact hplain ((Follows.inParens (follows_path hd)).gives fun _ => rfl)
  case aggregate => exact hplain ((Follows.inParens (follows_aggregateArgument hd)).gives fun _ => rfl)
  case size =>
    exact (hone s t).bind fun expression s t => (FollowsAt.asCollection expression).bind fun _ s t =>
      .result rfl fun s hadds => (hadds _ rfl).collected (List.mem_singleton.mpr rfl)
  case trim =>
    exact (FollowsAt.inParens fun s t => .trimArguments hd).map (fun kind s hadds => hadds kind rfl)
      fun _ => rfl
  case caseOf => exact hplain ((follows_caseBody hd).map fun _ => rfl)
  case call => exact hplain ((Follows.inParens (follows_callArguments hd)).map fun _ => rfl)
  case constructor => exact hplain ((follows_constructorBody hd).map fun _ => rfl)
  case existence | quantified => exact hplain ((follows_parenSubquery).gives fun _ => rfl)
  case entry | object | type =>
    exact .of_makes (.bind fun _ => Makes.some rfl) (.bind fun _ => .some _)
  case key | value => exact .of_makes (hnone rfl) (.bind fun _ => .some _)
  case treat => exact .of_makes (hnone rfl) (.map _)
  all_goals exact hplain (.done rfl)

omit hd in
/-- A node that stays is not one that cannot be there. -/
theorem Never.kept {α : Type} {kind : NodeKind} (hkind : kind.omitsAlias M.tree.kind = false)
    (start : Nat) {f : NodeId → Parser α}
    (hf : ∀ id s, After M.left (f id) s fun _ t => s.draft.Grows t.draft) :
    M.Never (Parse.pushFrom kind start >>= f) := by
  intro s y s' hrun hs'
  obtain ⟨id, s₁, hpush, hrest⟩ := bind_eq_ok hrun
  obtain ⟨rfl, rfl⟩ := After.pushFrom _ _ _ _ hpush
  have hgrows := hf _ _ y s' hrest
  have hlt : ∀ span, s.draft.size < (s.draft.push kind span).size := fun span => by
    rw [Draft.size_push]
    exact Nat.lt_succ_self _
  refine hs'.not_kept (Nat.lt_of_lt_of_le (hlt _) hgrows.size_le) ?_
  rw [hgrows.kind_eq _ (hlt _)]
  show ((s.draft.push kind _).kind s.draft.size).omitsAlias M.tree.kind = false
  rwa [Draft.kind_push]

omit hd in
theorem continuePath_grows (root start : Nat) (s : State) :
    After M.left (continuePath root start) s fun _ t => s.draft.Grows t.draft := by
  refine .look_bind ?_
  split
  · refine After.bind (After.read_bind (After.step _)) ?_
    rintro _ _ ⟨-, rfl⟩
    refine (After.pushFrom _ _).mono ?_
    rintro _ _ ⟨-, rfl⟩
    exact s.draft.grows_push _ _
  · exact .pure (.refl _)

/-- **A construct that a keyword introduces is followed.** Of those that may start a path, none is in
a statement without alias. -/
theorem follows_call (construct : Construct) :
    M.Follows (call deeper construct) (call deeper construct) M.tree.image := by
  refine .place fun m n s t => ?_
  refine FollowsAt.weaken (?_ : M.FollowsAt s t M.Passed _ _ _ _) (fun _ _ => trivial) fun _ _ h => h
  refine .lookPassed (fun _ _ h _ => h) (fun _ h => h) ?_
  generalize (s.stream M.left).kind = word
  refine FollowsAt.advance.bind fun _ s t => ?_
  refine (FollowsAt.callBody hd construct word).bind_of (makes_callBody construct word s)
    fun kind? s t hmakes => ?_
  cases kind? with
  | none => exact (Never.missing _).followsAt
  | some kind =>
    obtain ⟨hoperation, hpath⟩ := hmakes kind rfl
    obtain ⟨haliased, hvariable⟩ := NodeKind.unaliased_of_isOperation hoperation
    cases hstarts : startsPath construct with
    | true => exact (Never.kept (omitsAlias_of_isQualified (hpath hstarts)) m fun id s => continuePath_grows id m s).followsAt
    | false =>
      exact ((FollowsAt.pushFrom m n rfl haliased hvariable).weaken (fun s hadds other hother => by
        cases hother; exact hadds) fun _ _ h => h).bind fun _ _ _ => .result rfl fun _ _ => trivial

/-! ## All constructs -/

theorem follows_negation (rule : String) :
    M.Follows (negation deeper rule) (negation deeper rule) M.tree.image := by
  refine .place fun m n => follows_advance.bind fun _ => (follows_consumeKeyword _).bind fun found => ?_
  cases found with
  | true => exact follows_parenSubquery.bind fun _ => follows_pushFrom m n rfl rfl rfl
  | false => exact (follows_negatable hd rule).bind fun _ => follows_pushFrom m n rfl rfl rfl

theorem follows_group : M.Follows (group deeper) (group deeper) M.tree.image := by
  refine .place fun m n => follows_advance.bind fun _ => .atKeyword rfl fun found => ?_
  have hclosed : ∀ {p : Parser NodeId}, M.Follows p p M.tree.image → M.Follows (do
      let expression ← p
      discard (expect .rightParen)
      pushFrom (.group expression) m) (do
      let expression ← p
      discard (expect .rightParen)
      pushFrom (.group expression) n) M.tree.image := fun h =>
    h.bind fun _ => (follows_expect _).bind fun _ => follows_pushFrom m n rfl rfl rfl
  cases found with
  | true => exact hclosed (.never never_simpleSelect)
  | false => exact hclosed (follows_condition hd)

end

/-- **Every nested construct is followed**, at any number of levels. What lies too deep is reported. -/
theorem nested_level (levels : Nat) : M.Nested (level levels) := by
  induction levels with
  | zero => exact fun construct => .never .skipTooDeep
  | succ levels ih =>
    intro construct
    cases construct with
    | negation rule => exact follows_negation ih rule
    | sign negative => exact follows_signed ih negative
    | group => exact follows_group ih
    | subquery => exact .never never_simpleSelect
    | call construct => exact follows_call ih construct

end Jpql.Mirror
