import Jpql.Parse.Call
import Jpql.Proofs.Reader.Statement

/-! # What the readers of calls guarantee

`callBody` reads the children of a construct and says what it is; `call` adds the node. Every
construct that a keyword introduces binds most tightly.

* `Draft.Ready`: the children of a node of some kind have been read.
* `callBody_writes`, `call_yields`: one case for each construct. -/

namespace Jpql.Parse

variable {env : Env} {deeper : Deeper} {before draft : Draft} {loose : List Nat}
  {entries : List (Nat × Slot)}

/-- **Everything is there for a node of this kind**, which binds most tightly. -/
structure Draft.Ready (before draft : Draft) (loose : List Nat) (kind : NodeKind) : Prop where
  gains : before.Gains draft loose kind.slots
  admits : (Slot.expression 7).admits kind = true
  complete : draft.problems = [] → kind.Complete draft.kind

theorem Draft.Ready.record {kind : NodeKind} (h : before.Ready draft loose kind)
    (problem : Problem) : before.Ready (draft.record problem) loose kind :=
  ⟨h.gains.record problem, h.admits, fun hp => absurd hp (draft.record_problems_ne_nil problem)⟩

theorem Draft.Gains.ready (kind : NodeKind) (h : before.Gains draft loose kind.slots)
    (hadmits : (Slot.expression 7).admits kind = true) (hwhole : kind.isWhole = true)
    (harg : kind.argument? = none) : before.Ready draft loose kind :=
  ⟨h, hadmits, fun _ => .of_plain hwhole harg⟩

/-! ## Arguments -/

/-- **A reader between parentheses** does what it does without them, as long as one more problem
does not matter for that. -/
theorem inParens_writes {α : Type} {reader : Parser α} {post : α → Draft → Prop}
    (h : draft.Sound loose) (hreader : ∀ d, draft.Gains d loose [] → Writes env reader d post)
    (hrecord : ∀ a d problem, post a d → post a (d.record problem)) :
    Writes env (inParens reader) draft post := by
  refine (discard_expect_writes .leftParen (.refl h)).bind fun _ d hd => ?_
  refine (hreader d hd.1).bind fun a e he => ?_
  have hclose : Writes env (discard (expect .rightParen)) e fun _ f => post a f :=
    Writes.discard ((Writes.expect _).mono fun found f hf => by
      rcases hf with ⟨-, rfl⟩ | ⟨-, problem, rfl⟩
      · exact he
      · exact hrecord a e problem he)
  exact hclose.bind fun _ f hf => .pure hf

/-- One expression between parentheses. -/
theorem inParens_yields {p : Parser Nat} {slot : Slot} (hp : Yields env p slot) :
    Yields env (inParens p) slot :=
  fun _ _ hs => inParens_writes hs (fun _ hd => hp.after hd) fun _ _ problem hg => hg.record problem

/-- Several expressions between parentheses. -/
theorem inParens_yieldsAll {p : Parser (List Nat)} {slot : Slot} (hp : YieldsAll env p slot) :
    YieldsAll env (inParens p) slot :=
  fun _ _ hs => inParens_writes hs (fun _ hd => hp.after hd)
    fun _ _ problem hg => ⟨hg.1.record problem, hg.2⟩

/-- A variable or path between parentheses. -/
theorem inParens_path_writes (hd : deeper.Sound env) (h : draft.Sound loose) :
    Writes env (inParens (path deeper)) draft fun id d =>
      draft.Gains d loose [(id, .expression 7)] ∧ d.Pathlike id :=
  inParens_writes h (fun _ ha => pathArgument_writes hd ha) fun _ d problem hg =>
    ⟨hg.1.record problem, fun hp => absurd hp (d.record_problems_ne_nil problem)⟩

theorem inParens_ready {p : Parser NodeKind} (h : draft.Sound loose)
    (hp : ∀ d, draft.Gains d loose [] → Writes env p d fun kind e => draft.Ready e loose kind) :
    Writes env (inParens p) draft fun kind d => draft.Ready d loose kind :=
  inParens_writes h hp fun _ _ problem hk => hk.record problem

theorem twoScalars_writes (hd : deeper.Sound env) (h : before.Gains draft loose []) :
    Writes env (twoScalars deeper) draft fun ids d =>
      before.Gains d loose [(ids.1, .expression 4), (ids.2, .expression 4)] := by
  refine ((scalar_yields hd).after h).bind fun first d hfirst => ?_
  refine (discard_expect_writes .comma hfirst).bind fun _ e he => ?_
  exact ((scalar_yields hd).after he.1).bind fun second f hf => .pure hf

theorem threeScalars_writes (hd : deeper.Sound env) (h : before.Gains draft loose []) :
    Writes env (threeScalars deeper) draft fun ids d =>
      before.Gains d loose ((ids.1, .expression 4) :: (ids.2.1, .expression 4) ::
        ids.2.2.toList.map (·, .expression 4)) := by
  refine (twoScalars_writes hd h).bind ?_
  rintro ⟨first, second⟩ d hg
  refine (Silent.consume .comma).andThen fun comma => ?_
  split
  · exact ((scalar_yields hd).after hg).bind fun third e he => .pure he
  · exact .pure hg

theorem trimSide_silent : Silent env trimSide := by
  refine (Silent.consumeKeyword .leading).bind fun leading => ?_
  split
  · exact .pure _
  · refine (Silent.consumeKeyword .trailing).bind fun trailing => ?_
    split
    · exact .pure _
    · refine (Silent.consumeKeyword .both).bind fun both => ?_
      split <;> exact .pure _

theorem trimArguments_writes (hd : deeper.Sound env) (h : before.Gains draft loose []) :
    Writes env (trimArguments deeper) draft fun kind d => before.Ready d loose kind := by
  refine trimSide_silent.andThen fun side => (Silent.look _).andThen fun withCharacter => ?_
  have hrest : ∀ character d, before.Gains d loose (character.toList.map (·, .expression 7)) →
      Writes env (do
        let hasFrom ← consumeKeyword .from
        let string ← scalar deeper
        return .trim side character hasFrom string) d fun kind e => before.Ready e loose kind := by
    intro character d hg
    refine (Silent.consumeKeyword .from).andThen fun hasFrom => ?_
    refine ((scalar_yields hd).after hg).bind fun string e he => .pure ?_
    exact he.ready (.trim side character hasFrom string) rfl rfl rfl
  split
  · have hcharacter : Yields env (primary deeper RuleId.scalar) (.expression 7) :=
      primary_yields hd (hd.rule (Grammar.standard_registers (by simp)))
    exact (hcharacter.option.after h).bind fun character d hg => hrest character d hg.1
  · exact hrest none draft h

theorem aggregateArgument_writes (hd : deeper.Sound env) (h : before.Gains draft loose []) :
    Writes env (aggregateArgument deeper) draft fun argument d =>
      before.Gains d loose [(argument.2, .expression 4)] := by
  refine (Silent.consumeKeyword .distinct).andThen fun distinct => ?_
  exact ((scalar_yields hd).after h).bind fun id d hg => .pure hg

theorem treatArguments_writes (hd : deeper.Sound env) (h : before.Gains draft loose []) :
    Writes env (treatArguments deeper) draft fun kind d => before.Ready d loose kind ∧
      Slot.pathRoot.admits kind = true := by
  refine (pathArgument_writes hd h).bind fun path a ha => ?_
  have hlt : path < a.size := ha.1.adds.lt_size (by simp)
  refine (Writes.asCollection path).bind ?_
  rintro - _ rfl
  have hpath := ha.2.asCollection hlt
  have hg := ha.1.asCollection
  refine (Silent.consumeKeyword .as).andThen fun hasAs => (Silent.look _).andThen fun name? => ?_
  have hrest : ∀ type d, (a.asCollection path).Gains d (loose ++ [path]) [(type, .entityType)] →
      before.Ready d loose (.treat path hasAs type) ∧
        Slot.pathRoot.admits (.treat path hasAs type) = true := by
    intro type d hd'
    have hpathD := hd'.adds.grows.pathlike (hg.adds.lt_size (by simp)) hpath
    exact ⟨⟨hg.trans hd', rfl, fun hp => ⟨rfl, by rintro _ ⟨⟩; exact hpathD hp⟩⟩, rfl⟩
  have hsound : (a.asCollection path).Sound (loose ++ [path]) := hg.adds.sound
  split
  · exact (entityType_yields _ rfl _ _ hsound).bind fun type d hd' => .pure (hrest type d hd')
  · exact (missing_yields _ rfl _ _ hsound).bind fun type d hd' => .pure (hrest type d hd')

/-! ## `CASE` -/

theorem whenClause_yields (hd : deeper.Sound env) : Yields env (whenClause deeper) .when := by
  intro draft loose hs
  refine (Silent.look _).andThen fun start => Silent.advance.andThen fun _ => ?_
  refine (condition_yields hd draft loose hs).bind fun condition a ha => ?_
  refine (expectKeyword_writes .then ha).bind fun _ b hb => ?_
  refine ((scalar_yields hd).after hb).bind fun result c hc => ?_
  exact hc.pushFrom_writes (.when condition result) start rfl fun _ => .of_plain rfl rfl

/-- A stream that shows a keyword has a token. -/
theorem tokens_pos_of_checkKeyword {stream : TokenStream} {word : Keyword}
    (h : stream.checkKeyword word = true) : 0 < stream.tokens.size := by
  rcases Nat.eq_zero_or_pos stream.tokens.size with h0 | hpos
  · have hkind : stream.kind = .eof := by
      simp [TokenStream.kind, TokenStream.current, TokenStream.peekAhead,
        Array.size_eq_zero_iff.mp h0, TokenStream.noToken]
    rw [TokenStream.checkKeyword, hkind] at h
    cases h
  · exact hpos

/-- The branches of a `CASE`. If there is none, no branch starts here. -/
theorem whens_runs (hd : deeper.Sound env) {s : State} (h : before.Gains s.draft loose entries) :
    Runs env (loop (fun whens => do
        if ← atKeyword .when then return some (whens ++ [← whenClause deeper]) else return none) [])
      s fun whens t => before.Gains t.draft loose (entries ++ whens.map (·, .when)) ∧
        (whens = [] → (t.stream env).checkKeyword .when = false) := by
  have hstart : before.Gains s.draft loose (entries ++ [].map (·, .when)) := by simpa using h
  refine .read_bind ?_
  by_cases hwhen : (s.stream env).checkKeyword .when = true
  · -- The first branch is read, and the list only grows from there.
    obtain ⟨bound, hbound⟩ : ∃ bound, env.tokens.size = bound + 1 :=
      ⟨_, (Nat.sub_add_cancel (tokens_pos_of_checkKeyword hwhen)).symm⟩
    rw [hbound]
    have hfirst : Runs env (whenClause deeper) s fun id t =>
        before.Gains t.draft loose (entries ++ [id].map (·, .when)) :=
      (whenClause_yields hd).after h s rfl
    have hnext : Runs env (do
        if ← atKeyword .when then return some ([] ++ [← whenClause deeper]) else return none) s
        fun whens t => ∃ id, whens = some [id] ∧
          before.Gains t.draft loose (entries ++ [id].map (·, .when)) := by
      refine (Runs.look _ s).bind ?_
      rintro _ _ ⟨rfl, rfl⟩
      rw [if_pos hwhen]
      exact hfirst.bind fun id t ht => .pure ⟨id, rfl, ht⟩
    refine hnext.bind ?_
    rintro _ t ⟨id, rfl, ht⟩
    refine (loopTo_items (Silent.atKeyword .when) (whenClause_yields hd) bound ht t rfl).mono ?_
    rintro whens u ⟨hu, hp⟩
    exact ⟨hu, fun hnil => by simp [hnil] at hp⟩
  · rw [Bool.not_eq_true] at hwhen
    cases env.tokens.size with
    | zero => exact .pure ⟨hstart, fun _ => hwhen⟩
    | succ bound =>
      have hnext : Runs env (do
          if ← atKeyword .when then return some ([] ++ [← whenClause deeper]) else return none) s
          fun whens t => whens = none ∧ t = s := by
        refine (Runs.look _ s).bind ?_
        rintro _ _ ⟨rfl, rfl⟩
        rw [if_neg (by rw [hwhen]; decide)]
        exact .pure ⟨rfl, rfl⟩
      refine hnext.bind ?_
      rintro _ _ ⟨rfl, rfl⟩
      exact .pure ⟨hstart, fun _ => hwhen⟩

/-- **Everything of a `CASE`.** One without branches is a problem. -/
theorem caseBody_writes (hd : deeper.Sound env) (h : before.Gains draft loose []) :
    Writes env (caseBody deeper) draft fun kind d => before.Ready d loose kind := by
  have hrest : ∀ operand whens d, before.Gains d loose
        (operand.toList.map (·, .expression 4) ++ whens.map (·, .when)) →
      (d.problems = [] → whens ≠ []) →
      Writes env (do
        expectKeyword .else
        let otherwise ← scalar deeper
        expectKeyword .end
        return .caseOf operand whens otherwise) d fun kind e => before.Ready e loose kind := by
    intro operand whens d hg hne
    refine (discard_expect_writes (.keyword .else) hg).bind fun _ a ha => ?_
    refine (scalar_yields hd a _ ha.1.adds.sound).bind fun otherwise b hb => ?_
    refine (discard_expect_writes (.keyword .end) (ha.1.trans hb)).bind fun _ c hc => .pure ?_
    refine ⟨hc.1, rfl, fun hp => .of_plain ?_ rfl⟩
    have hb' : b.problems = [] := List.prefix_nil.mp (hp ▸ hc.2.2)
    have hd' : d.problems = [] := List.prefix_nil.mp (hb.adds.grows.clean hb' ▸ ha.2.2)
    simpa [NodeKind.isWhole] using hne hd'
  have hwhens : ∀ operand d, before.Gains d loose (operand.toList.map (·, .expression 4)) →
      Writes env (do
        let whens ← loop (fun whens => do
          if ← atKeyword .when then return some (whens ++ [← whenClause deeper])
          else return none) []
        if whens.isEmpty then expectKeyword .when
        expectKeyword .else
        let otherwise ← scalar deeper
        expectKeyword .end
        return .caseOf operand whens otherwise) d fun kind e => before.Ready e loose kind := by
    rintro operand _ hg s rfl
    refine (whens_runs hd hg).bind fun whens t ht => ?_
    split
    · next hnil =>
      have hnil : whens = [] := List.isEmpty_iff.mp hnil
      refine (Runs.expectKeyword_missing (ht.2 hnil)).bind ?_
      rintro _ u ⟨problem, hu⟩
      refine hrest operand whens u.draft (hu ▸ ht.1.record problem) (fun hp => ?_) u rfl
      exact absurd hp (hu ▸ Draft.record_problems_ne_nil _ _)
    · next hsome => exact hrest operand whens t.draft ht.1 (fun _ hn => hsome (by simp [hn])) t rfl
  refine (Silent.atKeyword .when).andThen fun searched => ?_
  split
  · exact hwhens none draft h
  · exact ((scalar_yields hd).option.after h).bind fun operand d hg => hwhens operand d hg.1

/-! ## Calls -/

theorem callArguments_writes (hd : deeper.Sound env) (h : before.Gains draft loose []) :
    Writes env (callArguments deeper) draft fun kind d => before.Ready d loose kind := by
  have hrest : ∀ name d, before.Gains d loose [] → Writes env (do
      let arguments ← if ← consume .comma then separated (scalar deeper) else pure []
      return .call name arguments) d fun kind e => before.Ready e loose kind := by
    intro name d hg
    refine (Silent.consume .comma).andThen fun comma => ?_
    split
    · refine ((separated_yields (scalar_yields hd)).after hg).bind fun arguments e he => .pure ?_
      exact he.1.ready (.call name arguments) rfl rfl rfl
    · exact .pure (hg.ready (.call name []) rfl rfl rfl)
  refine (Silent.look _).andThen fun kind => ?_
  split
  · next name =>
    have hname : Silent env (advance *> pure name) := fun s => .seqRight (Silent.advance s)
      fun _ ht => .pure ht
    exact hname.andThen fun name => hrest name draft h
  · have hname : Writes env (recordHere .expectedToken ["function name"] *> pure "") draft
        fun _ d => before.Gains d loose [] := by
      refine .seqRight ((Writes.recordHere _ _).mono ?_) fun d hd' => .pure hd'
      rintro - _ ⟨problem, rfl⟩
      exact h.record problem
    exact hname.bind fun name d hg => hrest name d hg

theorem className_writes (h : before.Gains draft loose []) :
    Writes env className draft fun _ d => before.Gains d loose [] := by
  refine (Silent.look _).andThen fun name? => ?_
  split
  · refine Silent.advance.andThen fun _ => segments_silent.andThen fun (segments, _) => ?_
    exact .pure h
  · refine (Writes.recordHere _ _).bind ?_
    rintro - _ ⟨problem, rfl⟩
    exact .pure (h.record problem)

theorem constructorBody_writes (hd : deeper.Sound env) (h : draft.Sound loose) :
    Writes env (constructorBody deeper) draft fun kind d => draft.Ready d loose kind := by
  have hrule : (Grammar.standard.rule? RuleId.constructorItem).isSome = true :=
      Grammar.standard_registers (by simp)
  refine (className_writes (.refl h)).bind fun name d hg => ?_
  refine ((inParens_yieldsAll (separated_yields (operand_yields hd (hd.rule hrule)))).after
    hg).bind fun arguments e he => .pure ?_
  exact he.1.ready (.constructor name arguments) rfl (by simpa [NodeKind.isWhole] using he.2) rfl

/-- What a reader of the inside of a construct leaves: the kind of the construct, ready to be added,
or nothing at all. -/
def Draft.Opens (before draft : Draft) (loose : List Nat) (construct : Construct)
    (kind? : Option NodeKind) : Prop :=
  kind? = none ∧ before.Gains draft loose [] ∨ ∃ kind, kind? = some kind ∧
    before.Ready draft loose kind ∧ (startsPath construct = true → Slot.pathRoot.admits kind = true)

theorem Draft.Ready.opens {kind : NodeKind} {construct : Construct}
    (h : before.Ready draft loose kind) (hpath : startsPath construct = true →
      Slot.pathRoot.admits kind = true) : before.Opens draft loose construct (some kind) :=
  .inr ⟨kind, rfl, h, hpath⟩

/-- The construct holds one child, in a slot, and nothing that could be missing. -/
structure Wraps (combine : Nat → NodeKind) (slot : Slot) : Prop where
  slots : ∀ id, (combine id).slots = [(id, slot)] := by intro id; rfl
  admits : ∀ id, (Slot.expression 7).admits (combine id) = true := by intro id; rfl
  whole : ∀ id, (combine id).isWhole = true := by intro id; rfl

/-- A function of one operand. -/
theorem unary_writes {construct : Construct} {p : Parser Nat} {slot : Slot} {combine : Nat → NodeKind}
    (hp : Yields env p slot) (h : draft.Sound loose) (hc : Wraps combine slot)
    (harg : ∀ id, (combine id).argument? = none) (hpath : startsPath construct = false) :
    Writes env (do return some (combine (← p))) draft fun kind? d =>
      draft.Opens d loose construct kind? := by
  refine (hp draft loose h).bind fun id d hg => .pure (Draft.Ready.opens ?_ (by simp [hpath]))
  rw [← hc.slots id] at hg
  exact hg.ready (combine id) (hc.admits id) (hc.whole id) (harg id)

/-- An operator on a variable or a path. -/
theorem argument_writes (hd : deeper.Sound env) {construct : Construct} (h : draft.Sound loose)
    {combine : Nat → NodeKind} (hc : Wraps combine (.expression 7))
    (harg : ∀ id, (combine id).argument? = some id)
    (htakes : ∀ (kindOf : Nat → NodeKind) (id : Nat), (kindOf id).isVariableOrPath = true →
      (combine id).Takes kindOf id)
    (hpath : startsPath construct = true → ∀ id, Slot.pathRoot.admits (combine id) = true) :
    Writes env (do return some (combine (← inParens (path deeper)))) draft fun kind? d =>
      draft.Opens d loose construct kind? := by
  refine (inParens_path_writes hd h).bind fun id d hg => .pure ?_
  refine Draft.Ready.opens ⟨?_, hc.admits id, fun hp => ⟨hc.whole id, fun argument ha => ?_⟩⟩
    fun hs => hpath hs id
  · rw [hc.slots id]
    exact hg.1
  · rw [harg id, Option.some_inj] at ha
    exact ha ▸ htakes d.kind id (hg.2 hp)

/-- A function of one or more operands. -/
theorem list_writes (hd : deeper.Sound env) {construct : Construct} (h : draft.Sound loose)
    {combine : List Nat → NodeKind}
    (hslots : ∀ ids, (combine ids).slots = ids.map (·, .expression 4))
    (hadmits : ∀ ids, (Slot.expression 7).admits (combine ids) = true)
    (hwhole : ∀ ids, (combine ids).isWhole = !ids.isEmpty)
    (harg : ∀ ids, (combine ids).argument? = none) (hpath : startsPath construct = false) :
    Writes env (do return some (combine (← inParens (separated (scalar deeper))))) draft
      fun kind? d => draft.Opens d loose construct kind? := by
  have hscalars := inParens_yieldsAll (separated_yields (scalar_yields hd))
  refine (hscalars draft loose h).bind fun ids d hg => .pure ?_
  refine Draft.Ready.opens (Draft.Gains.ready _ ?_ (hadmits ids) ?_ (harg ids)) (by simp [hpath])
  · rw [hslots]
    exact hg.1
  · rw [hwhole]
    simpa using hg.2

/-- A construct whose inside says what it is. -/
theorem ready_writes {construct : Construct} {p : Parser NodeKind}
    (hp : Writes env p draft fun kind d => draft.Ready d loose kind)
    (hpath : startsPath construct = false) :
    Writes env (some <$> p) draft fun kind? d => draft.Opens d loose construct kind? :=
  .map (hp.mono fun _ _ hk => hk.opens (by simp [hpath]))

/-- **The inside of every construct.** -/
theorem callBody_writes (hd : deeper.Sound env) (construct : Construct) (word : TokenKind)
    (h : draft.Sound loose) :
    Writes env (callBody deeper construct word) draft fun kind? d =>
      draft.Opens d loose construct kind? := by
  have hscalar := inParens_yields (scalar_yields hd)
  have htwo : Writes env (inParens (twoScalars deeper)) draft fun ids d =>
      draft.Gains d loose [(ids.1, .expression 4), (ids.2, .expression 4)] :=
    inParens_writes h (fun _ hg => twoScalars_writes hd hg) fun _ _ problem hg => hg.record problem
  have hthree : Writes env (inParens (threeScalars deeper)) draft fun ids d =>
      draft.Gains d loose ((ids.1, .expression 4) :: (ids.2.1, .expression 4) ::
        ids.2.2.toList.map (·, .expression 4)) :=
    inParens_writes h (fun _ hg => threeScalars_writes hd hg)
      fun _ _ problem hg => hg.record problem
  cases construct
  case abs => exact unary_writes hscalar h {} (fun _ => rfl) rfl
  case sqrt => exact unary_writes hscalar h {} (fun _ => rfl) rfl
  case length => exact unary_writes hscalar h {} (fun _ => rfl) rfl
  case lower => exact unary_writes hscalar h {} (fun _ => rfl) rfl
  case upper => exact unary_writes hscalar h {} (fun _ => rfl) rfl
  case type =>
    have hprimary : Yields env (inParens (primary deeper RuleId.scalar)) (.expression 7) :=
      inParens_yields (primary_yields hd (hd.rule (Grammar.standard_registers (by simp))))
    exact unary_writes hprimary h {} (fun _ => rfl) rfl
  case existence => exact unary_writes (parenSubquery_yields hd) h {} (fun _ => rfl) rfl
  case quantified => exact unary_writes (parenSubquery_yields hd) h {} (fun _ => rfl) rfl
  case size =>
    refine (hscalar draft loose h).bind fun id d hg => (Writes.asCollection id).bind ?_
    rintro - _ rfl
    have hc : draft.Gains (d.asCollection id) loose ([] ++ [(id, .collection 4)]) :=
      Draft.Gains.asCollection hg
    exact .pure (Draft.Ready.opens (Draft.Gains.ready (.size id) hc rfl rfl rfl) nofun)
  case index => exact argument_writes hd h {} (fun _ => rfl) (fun _ _ ht => ht) nofun
  case entry => exact argument_writes hd h {} (fun _ => rfl) (fun _ _ ht => ht) nofun
  case object => exact argument_writes hd h {} (fun _ => rfl) (fun _ _ ht => ht) nofun
  case key =>
    exact argument_writes hd h {} (fun _ => rfl) (fun _ _ ht => ht) fun _ _ => rfl
  case value =>
    exact argument_writes hd h {} (fun _ => rfl) (fun _ _ ht => ht) fun _ _ => rfl
  case mod =>
    exact htwo.bind fun ids d hg => .pure (Draft.Ready.opens
      (Draft.Gains.ready (.mod ids.1 ids.2) hg rfl rfl rfl) nofun)
  case nullif =>
    exact htwo.bind fun ids d hg => .pure (Draft.Ready.opens
      (Draft.Gains.ready (.nullif ids.1 ids.2) hg rfl rfl rfl) nofun)
  case locate =>
    exact hthree.bind fun ids d hg => .pure (Draft.Ready.opens
      (Draft.Gains.ready (.locate ids.1 ids.2.1 ids.2.2) hg rfl rfl rfl) nofun)
  case substring =>
    exact hthree.bind fun ids d hg => .pure (Draft.Ready.opens
      (Draft.Gains.ready (.substring ids.1 ids.2.1 ids.2.2) hg rfl rfl rfl) nofun)
  case concat =>
    exact list_writes hd h (fun _ => rfl) (fun _ => rfl) (fun _ => rfl) (fun _ => rfl) rfl
  case coalesce =>
    exact list_writes hd h (fun _ => rfl) (fun _ => rfl) (fun _ => rfl) (fun _ => rfl) rfl
  case trim => exact ready_writes (inParens_ready h fun _ hg => trimArguments_writes hd hg) rfl
  case aggregate =>
    have hargument : Writes env (inParens (aggregateArgument deeper)) draft fun argument d =>
        draft.Gains d loose [(argument.2, .expression 4)] :=
      inParens_writes h (fun _ hg => aggregateArgument_writes hd hg)
        fun _ _ problem hg => hg.record problem
    exact hargument.bind fun argument d hg => .pure (Draft.Ready.opens
      (Draft.Gains.ready (.aggregate (aggregateFunction word) argument.1 argument.2) hg rfl rfl rfl)
      nofun)
  case caseOf => exact ready_writes (caseBody_writes hd (.refl h)) rfl
  case treat =>
    have htreat : Writes env (inParens (treatArguments deeper)) draft fun kind d =>
        draft.Ready d loose kind ∧ Slot.pathRoot.admits kind = true :=
      inParens_writes h (fun _ hg => treatArguments_writes hd hg)
        fun _ _ problem hk => ⟨hk.1.record problem, hk.2⟩
    exact .map (htreat.mono fun _ _ hk => hk.1.opens fun _ => hk.2)
  case call => exact ready_writes (inParens_ready h fun _ hg => callArguments_writes hd hg) rfl
  case constructor => exact ready_writes (constructorBody_writes hd h) rfl
  all_goals exact .pure (.inl ⟨rfl, .refl h⟩)

/-- **Every construct that a keyword introduces binds most tightly.** -/
theorem call_yields (hd : deeper.Sound env) (construct : Construct) :
    Yields env (call deeper construct) (.expression 7) := by
  intro draft loose hs
  refine (Silent.look _).andThen fun start => (Silent.look _).andThen fun word => ?_
  refine Silent.advance.andThen fun _ => (callBody_writes hd construct word hs).bind ?_
  rintro kind? d (⟨rfl, hg⟩ | ⟨kind, rfl, hready, hpath⟩)
  · exact (missing_writes "function" rfl hg).mono fun _ _ hp => hp.1
  · refine (hready.gains.pushFrom_kind kind start hready.complete).bind ?_
    rintro id e ⟨ha, hk⟩
    split
    · next hs => exact continuePath_writes start ha hk (hpath hs) hready.admits
    · exact .pure (.of_kind ha hk hready.admits)

end Jpql.Parse
