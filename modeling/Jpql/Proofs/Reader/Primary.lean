import Jpql.Parse.Primary
import Jpql.Proofs.Reader.Yield

/-! # What the reader of primaries guarantees

A primary binds most tightly, whatever it is. What the readers of nested constructs guarantee is a
hypothesis here (`Deeper.Sound`).

* `primary_yields`: a primary is an expression of the greatest strength.
* `primary_writes`: where the rule asks for a path and there is no problem, it is a variable or a
  path. -/

namespace Jpql.Parse

variable {env : Env} {before draft : Draft} {loose : List Nat} {entries : List (Nat × Slot)}

/-! ## Recovery -/

/-- A node for what is missing or has no place, with the problem that says so. -/
theorem push_record {slot : Slot} {new : NodeKind} (h : draft.Sound loose) (span : Span)
    (problem : Problem) (hslots : new.slots = []) (hslot : slot.admits new = true) :
    draft.Gains ((draft.push new span).record problem) loose [(draft.size, slot)] := by
  -- The problem might as well have been reported first; then nothing need be complete.
  have hrec := ((Draft.Adds.refl h).record problem).push new
    (by rw [← NodeKind.map_fst_slots, hslots]; rfl) span
    (by rw [NodeKind.Conforms, hslots]; trivial)
    fun hp => absurd hp (draft.record_problems_ne_nil problem)
  exact .of_kind hrec (draft.kind_push new span) hslot

/-- A missing expression is reported. -/
theorem missing_writes {slot : Slot} (what : String) (hslot : slot.admits .bad = true)
    (h : before.Gains draft loose entries) :
    Writes env (missing what) draft fun id d =>
      before.Gains d loose (entries ++ [(id, slot)]) ∧ d.problems ≠ [] := by
  refine (Silent.look _).andThen fun span => (Writes.push .bad span).bind ?_
  rintro id _ ⟨rfl, rfl⟩
  refine (Writes.record _).bind ?_
  rintro _ _ rfl
  exact .pure ⟨h.trans (push_record h.adds.sound span _ rfl hslot),
    Draft.record_problems_ne_nil _ _⟩

theorem missing_yields {slot : Slot} (what : String) (hslot : slot.admits .bad = true) :
    Yields env (missing what) slot :=
  fun _ _ hs => (missing_writes what hslot (.refl hs)).mono fun _ _ h => h.1

/-- Text without a place is reported. -/
theorem pushUnknown_writes {slot : Slot} (span : Span) (text : String) (key : ProblemKey)
    (argument : String) (hslot : slot.admits (.unknown text) = true) (h : draft.Sound loose) :
    Writes env (pushUnknown span text key argument) draft fun id d =>
      draft.Gains d loose [(id, slot)] ∧ d.problems ≠ [] := by
  refine (Writes.push (.unknown text) span).bind ?_
  rintro id _ ⟨rfl, rfl⟩
  refine (Writes.record _).bind ?_
  rintro _ _ rfl
  exact .pure ⟨push_record h span _ rfl hslot, Draft.record_problems_ne_nil _ _⟩

theorem unknownToken_writes (h : draft.Sound loose) :
    Writes env unknownToken draft fun id d =>
      draft.Gains d loose [(id, .expression 7)] ∧ d.problems ≠ [] :=
  (Silent.look _).andThen fun _ => (Silent.look _).andThen fun _ =>
    Silent.advance.andThen fun _ => pushUnknown_writes _ _ _ _ rfl h

theorem skipTooDeep_yields : Yields env skipTooDeep (.expression 7) := by
  intro draft loose hs
  refine Writes.read_bind ?_
  refine (Silent.look _).andThen fun start => (Silent.step _).andThen fun _ => ?_
  refine (Silent.spanFrom start).andThen fun span => ?_
  exact (pushUnknown_writes _ _ _ _ rfl hs).mono fun _ _ h => h.1

/-! ## Variables and paths -/

theorem segments_silent : Silent env segments := fun _ => ⟨_, _, rfl, rfl⟩

theorem virtualFor?_silent (name : String) : Silent env (virtualFor? name) :=
  fun s => ⟨_, s, rfl, rfl⟩

/-- A node without children. -/
theorem leaf_yields {kind : NodeKind} (hslots : kind.slots = []) (hwhole : kind.isWhole = true)
    (hslot : (Slot.expression 7).admits kind = true) :
    Yields env (leaf kind) (.expression 7) := by
  intro draft loose hs
  have harg : kind.argument? = none := by
    rcases ha : kind.argument? with _ | argument
    · rfl
    · have hmem := NodeKind.argument?_mem_children ha
      rw [← NodeKind.map_fst_slots, hslots] at hmem
      cases hmem
  refine (Silent.look _).andThen fun start => Silent.advance.andThen fun _ => ?_
  have hg : draft.Gains draft loose kind.slots := hslots ▸ .refl hs
  exact hg.pushFrom_writes kind start hslot fun _ => .of_plain hwhole harg

/-- A written variable. -/
theorem pushVariable_writes (name : String) (span : Span) (h : draft.Sound loose) :
    Writes env (pushVariable name span) draft fun id d =>
      draft.Adds d loose [id] ∧ d.kind id = .identifier name false none :=
  Draft.Gains.push_kind (.identifier name false none) (.refl h) span
    fun _ => .of_plain rfl rfl

/-- Segments below a root that was read before. -/
theorem pushPath_writes (kind : PathKind) (segments : List (Located String)) (dot : Bool)
    (start : Nat) {root : Nat} (h : before.Adds draft loose [root])
    (hroot : Slot.pathRoot.admits (draft.kind root) = true) :
    Writes env (pushFrom (.path kind root segments dot) start) draft fun id d =>
      before.Adds d loose [id] ∧ d.kind id = .path kind root segments dot :=
  have hg : before.Gains draft loose [(root, .pathRoot)] := ⟨h, hroot, trivial⟩
  hg.pushFrom_kind (.path kind root segments dot) start fun _ => .of_plain rfl rfl

theorem pushVirtualPath_writes (name : String) (field : Located String)
    (segments : List (Located String)) (dot : Bool) (h : draft.Sound loose) :
    Writes env (pushVirtualPath name field segments dot) draft fun id d =>
      draft.Adds d loose [id] ∧ ∃ root,
        d.kind id = .path .stateField root (field :: segments) dot ∧
          d.kind root = .identifier name true none := by
  have hroot : Writes env (push (.identifier name true none) (.point field.span.start)) draft
      fun id d => draft.Adds d loose [id] ∧ d.kind id = .identifier name true none :=
    Draft.Gains.push_kind _ (.refl h) _ fun _ => .of_plain rfl rfl
  refine hroot.bind ?_
  rintro root d ⟨ha, hk⟩
  refine (Silent.spanFrom _).andThen fun span => (Writes.push _ _).mono ?_
  rintro _ _ ⟨rfl, rfl⟩
  refine ⟨?_, root, d.kind_push _ span, ?_⟩
  · have hg : draft.Gains d loose [(root, .pathRoot)] := .of_kind ha hk rfl
    exact hg.adds.push (.path .stateField root (field :: segments) dot) rfl span hg.fits
      fun _ => .of_plain rfl rfl
  · rw [(d.grows_push _ span).kind_eq root (ha.lt_size (List.mem_singleton_self _))]
    exact hk

/-- **A variable or a path binds most tightly.** -/
theorem pathOrVariable_writes (h : draft.Sound loose) :
    Writes env pathOrVariable draft fun id d =>
      draft.Gains d loose [(id, .expression 7)] ∧ (d.kind id).isVariableOrPath = true := by
  refine (Silent.look _).andThen fun span => (Silent.look _).andThen fun name => ?_
  refine Silent.advance.andThen fun _ => segments_silent.andThen fun (segments, dot) => ?_
  refine (virtualFor?_silent name).andThen fun virtual => ?_
  cases virtual with
  | some virtualName =>
    refine (pushVirtualPath_writes virtualName ⟨name, span⟩ segments dot h).bind ?_
    rintro path d ⟨ha, root, hk, hroot⟩
    split
    · have hg : draft.Gains d loose [(path, .virtualPath)] := .of_kind ha hk rfl
      refine Writes.mono (hg.push_kind (.identifier name true (some path)) span fun _ =>
        ⟨rfl, by rintro _ ⟨⟩; exact ⟨root, _, _, virtualName, hk, hroot⟩⟩) ?_
      rintro id e ⟨hb, hi⟩
      exact ⟨.of_kind hb hi rfl, by rw [hi]; rfl⟩
    · exact .pure ⟨.of_kind ha hk rfl, by rw [hk]; rfl⟩
  | none =>
    refine (pushVariable_writes name span h).bind ?_
    rintro root d ⟨ha, hk⟩
    split
    · exact .pure ⟨.of_kind ha hk rfl, by rw [hk]; rfl⟩
    · refine (pushPath_writes .stateField segments dot span.start ha (by rw [hk]; rfl)).mono ?_
      rintro id e ⟨hb, hi⟩
      exact ⟨.of_kind hb hi rfl, by rw [hi]; rfl⟩

/-- What may be the start of a path stays as tight with segments behind it. -/
theorem continuePath_writes {root : Nat} {kind : NodeKind} (start : Nat)
    (h : before.Adds draft loose [root]) (hkind : draft.kind root = kind)
    (hroot : Slot.pathRoot.admits kind = true) (hslot : (Slot.expression 7).admits kind = true) :
    Writes env (continuePath root start) draft fun id d =>
      before.Gains d loose [(id, .expression 7)] := by
  refine (Silent.look _).andThen fun dotFollows => ?_
  cases dotFollows with
  | false => exact .pure (.of_kind h hkind hslot)
  | true =>
    refine segments_silent.andThen fun (segments, dot) => ?_
    refine (pushPath_writes .stateField segments dot start h (by rw [hkind]; exact hroot)).mono ?_
    rintro id e ⟨hb, hi⟩
    exact .of_kind hb hi rfl

theorem updateTarget_yields : Yields env updateTarget .target := by
  intro draft loose hs
  refine (Silent.look _).andThen fun name? => ?_
  cases name? with
  | none => exact missing_yields "update item" rfl draft loose hs
  | some name =>
    refine (Silent.look _).andThen fun span => Silent.advance.andThen fun _ => ?_
    refine segments_silent.andThen fun (segments, dot) => ?_
    refine (virtualFor?_silent name).andThen fun virtual => ?_
    cases virtual with
    | some virtualName =>
      refine (pushVirtualPath_writes virtualName ⟨name, span⟩ segments dot hs).mono ?_
      rintro id d ⟨ha, root, hk, -⟩
      exact .of_kind ha hk rfl
    | none =>
      refine (pushVariable_writes name span hs).bind ?_
      rintro root d ⟨ha, hk⟩
      refine (pushPath_writes .stateField segments dot span.start ha (by rw [hk]; rfl)).mono ?_
      rintro id e ⟨hb, hi⟩
      exact .of_kind hb hi rfl

/-- A declared variable is an identifier, or left out. -/
theorem declaredVariable?_yields {slot : Slot}
    (hslot : ∀ name, slot.admits (.identifier name false none) = true) :
    YieldsOption env declaredVariable? slot := by
  intro draft loose hs
  refine (Silent.look _).andThen fun name? => ?_
  cases name? with
  | none => exact .pure (.refl hs)
  | some name =>
    refine (Silent.look _).andThen fun span => Silent.advance.andThen fun _ => ?_
    refine (pushVariable_writes name span hs).bind fun node d hp => ?_
    exact .pure (.of_kind hp.1 hp.2 (hslot name))

theorem entityType_yields {slot : Slot} (name : String)
    (hslot : slot.admits (.entityType name) = true) : Yields env (entityType name) slot := by
  intro draft loose hs
  refine (Silent.look _).andThen fun span => Silent.advance.andThen fun _ => ?_
  refine Writes.mono (Draft.Gains.push_kind (.entityType name) (.refl hs) span
    fun _ => .of_plain rfl rfl) ?_
  exact fun _ _ hp => .of_kind hp.1 hp.2 hslot

/-! ## Constructs -/

/-- How tightly a nested construct binds. -/
def Nested.strength : Nested → Nat
  | .negation _ => 2
  | .sign _ => 6
  | _ => 7

/-- The construct can be read: what a negation applies to is read under a rule there is. -/
def Nested.Legal (env : Env) : Nested → Prop
  | .negation rule => (env.grammar.rule? rule).isSome = true
  | _ => True

/-- **The grammar is the standard one, and nested constructs can be relied on.** -/
structure Deeper.Sound (env : Env) (deeper : Deeper) : Prop where
  standard : env.grammar = .standard
  yields : ∀ construct : Nested, construct.Legal env →
    Yields env (deeper construct) (.expression construct.strength)

/-- The rules of the standard grammar are there. -/
theorem Deeper.Sound.rule {deeper : Deeper} (hd : deeper.Sound env) {rule : String}
    (hrule : (Grammar.standard.rule? rule).isSome = true) :
    (env.grammar.rule? rule).isSome = true := by
  rw [hd.standard]
  exact hrule

theorem dispatch_writes {rule : String} (trigger : Trigger)
    (hrule : (env.grammar.rule? rule).isSome = true) :
    Writes env (dispatch rule trigger) draft fun construct d =>
      d = draft ∧ env.grammar.dispatch rule trigger = .ok construct := by
  refine Writes.read_bind ?_
  rcases hd : env.grammar.dispatch rule trigger with error | construct
  · rw [(Grammar.dispatch_eq_error.mp hd).1] at hrule
    cases hrule
  · exact .pure ⟨rfl, rfl⟩

/-- Where a path is asked for, nothing else is built. -/
theorem dispatch_path {trigger : Trigger} {construct : Construct}
    (h : Grammar.standard.dispatch RuleId.path trigger = .ok (some construct)) :
    construct = .path := by
  have hfactories : Grammar.standard.factoriesFrom RuleId.path =
      [⟨"path_or_variable", .path, [.identifier]⟩] := by decide +kernel
  unfold Grammar.dispatch at h
  split at h
  · cases h
  · rw [hfactories] at h
    simp only [List.find?_cons, List.find?_nil] at h
    split at h
    · simpa using h.symm
    · simp at h

section

variable {deeper : Deeper}

/-- **Every construct binds most tightly**, and a path is a variable or a path. -/
theorem build_writes (hd : deeper.Sound env) (construct : Construct) (h : draft.Sound loose) :
    Writes env (build deeper construct) draft fun id d =>
      draft.Gains d loose [(id, .expression 7)] ∧
        (construct = .path → (d.kind id).isVariableOrPath = true) := by
  cases construct
  case path => exact (pathOrVariable_writes h).mono fun _ _ hp => ⟨hp.1, fun _ => hp.2⟩
  all_goals
    suffices hgains : Writes env _ draft fun id d => draft.Gains d loose [(id, .expression 7)] from
      hgains.mono fun _ _ hp => ⟨hp, fun hc => by cases hc⟩
  case selectStatement => exact hd.yields .subquery trivial draft loose h
  case simpleSelectStatement => exact hd.yields .subquery trivial draft loose h
  case group => exact hd.yields .group trivial draft loose h
  case updateStatement => exact (unknownToken_writes h).mono fun _ _ hp => hp.1
  case deleteStatement => exact (unknownToken_writes h).mono fun _ _ hp => hp.1
  case number => exact (Silent.look _).andThen fun _ => leaf_yields rfl rfl rfl _ _ h
  case string =>
    refine (Silent.look _).andThen fun kind => ?_
    split <;> exact leaf_yields rfl rfl rfl _ _ h
  case wordLiteral => exact (Silent.look _).andThen fun _ => leaf_yields rfl rfl rfl _ _ h
  case moment => exact (Silent.look _).andThen fun _ => leaf_yields rfl rfl rfl _ _ h
  case parameter =>
    refine (Silent.look _).andThen fun kind => ?_
    split
    · exact leaf_yields rfl rfl rfl _ _ h
    · exact leaf_yields rfl rfl rfl _ _ h
    · exact (unknownToken_writes h).mono fun _ _ hp => hp.1
  all_goals exact hd.yields (.call _) trivial draft loose h

/-- **A primary binds most tightly.** Where a path is asked for, it is a variable or a path unless
there is a problem. -/
theorem primary_writes (hd : deeper.Sound env) {rule : String}
    (hrule : (env.grammar.rule? rule).isSome = true) (h : draft.Sound loose) :
    Writes env (primary deeper rule) draft fun id d =>
      draft.Gains d loose [(id, .expression 7)] ∧
        (rule = RuleId.path → d.problems = [] → (d.kind id).isVariableOrPath = true) := by
  refine (Silent.look _).andThen fun trigger => ?_
  cases trigger with
  | none =>
    exact (missing_writes rule rfl (.refl h)).mono fun _ _ hp => ⟨hp.1, fun _ hn => absurd hn hp.2⟩
  | some trigger =>
    refine (dispatch_writes trigger hrule).bind ?_
    rintro construct _ ⟨rfl, hdispatch⟩
    cases construct with
    | some construct =>
      refine (build_writes hd construct h).mono fun _ _ hp => ⟨hp.1, fun hr _ => ?_⟩
      rw [hr, hd.standard] at hdispatch
      exact hp.2 (dispatch_path hdispatch)
    | none =>
      cases trigger with
      | keyword word =>
        refine Writes.read_bind ?_
        cases env.grammar.forKeyword? word with
        | none =>
          exact (missing_writes rule rfl (.refl h)).mono fun _ _ hp =>
            ⟨hp.1, fun _ hn => absurd hn hp.2⟩
        | some construct =>
          refine (Silent.look _).andThen fun problem => (build_writes hd construct h).bind ?_
          rintro id d ⟨hg, -⟩
          refine (Writes.record _).bind ?_
          rintro _ _ rfl
          exact .pure ⟨hg.record _, fun _ hn => absurd hn (d.record_problems_ne_nil _)⟩
      | _ => exact (unknownToken_writes h).mono fun _ _ hp => ⟨hp.1, fun _ hn => absurd hn hp.2⟩

theorem primary_yields (hd : deeper.Sound env) {rule : String}
    (hrule : (env.grammar.rule? rule).isSome = true) :
    Yields env (primary deeper rule) (.expression 7) :=
  fun _ _ hs => (primary_writes hd hrule hs).mono fun _ _ hp => hp.1

end

end Jpql.Parse
