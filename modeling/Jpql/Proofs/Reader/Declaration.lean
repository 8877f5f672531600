import Jpql.Parse.Declaration
import Jpql.Proofs.Reader.Condition

/-! # What the readers of declarations guarantee

A declaration is complete unless there is a problem: its variable is there where one is required,
and the path of a collection is a variable or a path. -/

namespace Jpql.Parse

variable {env : Env} {deeper : Deeper} {before draft : Draft} {loose : List Nat}
  {entries : List (Nat × Slot)}

/-! ## Arguments -/

/-- The node is a variable or a path, unless there is a problem. -/
def Draft.Pathlike (draft : Draft) (id : Nat) : Prop :=
  draft.problems = [] → (draft.kind id).isVariableOrPath = true

theorem Draft.Grows.pathlike {a b : Draft} {id : Nat} (h : a.Grows b) (hlt : id < a.size)
    (hp : a.Pathlike id) : b.Pathlike id := by
  intro hb
  rw [h.kind_eq id hlt]
  exact hp (h.clean hb)

theorem Draft.Pathlike.asCollection {id : Nat} (hlt : id < draft.size) (h : draft.Pathlike id) :
    (draft.asCollection id).Pathlike id := by
  intro hp
  rw [kind_asCollection draft hlt, if_pos rfl, NodeKind.isVariableOrPath_asCollection]
  exact h hp

/-- Where a path is asked for, one is read or there is a problem. -/
theorem pathArgument_writes (hd : deeper.Sound env) (h : before.Gains draft loose entries) :
    Writes env (primary deeper RuleId.path) draft fun id d =>
      before.Gains d loose (entries ++ [(id, .expression 7)]) ∧ d.Pathlike id :=
  (primary_writes hd (hd.rule (Grammar.standard_registers (by simp))) h.adds.sound).mono
    fun _ _ hp => ⟨h.trans hp.1, hp.2 rfl⟩

/-! ## Ranges -/

theorem missingVariable_writes (h : before.Gains draft loose entries) :
    Writes env missingVariable draft fun _ d =>
      before.Gains d loose entries ∧ draft.Grows d ∧ d.problems ≠ [] := by
  refine (Silent.look _).andThen fun span => (Writes.record _).mono ?_
  rintro - _ rfl
  exact ⟨h.record _, draft.grows_record _, draft.record_problems_ne_nil _⟩

theorem rangeRoot_writes (h : draft.Sound loose) :
    Writes env rangeRoot draft fun root d => draft.Gains d loose [(root.1, .rangeRoot)] := by
  refine (Silent.look _).andThen fun name? => ?_
  cases name? with
  | none => exact (missing_yields _ rfl draft loose h).bind fun _ _ hg => .pure hg
  | some name =>
    refine (Silent.look _).andThen fun span => Silent.advance.andThen fun _ => ?_
    refine (Silent.look _).andThen fun isPath => ?_
    split
    · refine (pushVariable_writes name span h).bind fun root d hp => ?_
      refine segments_silent.andThen fun (segments, dot) => ?_
      refine (pushPath_writes .collectionValued segments dot span.start hp.1
        (by rw [hp.2]; rfl)).bind fun id e he => ?_
      exact .pure (.of_kind he.1 he.2 rfl)
    · refine (Draft.Gains.push_kind (.schemaName name) (.refl h) span
        fun _ => .of_plain rfl rfl).bind fun id d hp => ?_
      exact .pure (.of_kind hp.1 hp.2 rfl)

theorem virtualVariable_yields (entity : String) :
    Yields env (virtualVariable entity) .declared := by
  intro draft loose hs
  refine (Silent.look _).andThen fun span => (Silent.setVirtual _).andThen fun _ => ?_
  refine Writes.mono (Draft.Gains.push_kind (.identifier (Text.asciiLower entity) true none)
    (.refl hs) span fun _ => .of_plain rfl rfl) ?_
  exact fun _ _ hp => .of_kind hp.1 hp.2 rfl

/-- The variable of a declaration, if one follows. -/
theorem declared_yields : YieldsOption env declaredVariable? .declared :=
  declaredVariable?_yields fun _ => rfl

theorem rangeDeclaration_yields (allowVirtual : Bool) :
    Yields env (rangeDeclaration allowVirtual) .range := by
  intro draft loose hs
  refine (Silent.look _).andThen fun start => (rangeRoot_writes hs).bind ?_
  rintro ⟨root, entity⟩ d hroot
  refine (Silent.consumeKeyword .as).andThen fun hasAs => ?_
  have hrest : ∀ (declared : Option Nat) (e : Draft),
      draft.Gains e loose ([(root, .rangeRoot)] ++ declared.toList.map (·, .declared)) →
      (declared = none → e.problems ≠ []) →
      Writes env (pushFrom (.rangeDeclaration root hasAs declared) start) e fun id f =>
        draft.Gains f loose [(id, .range)] := by
    intro declared e hg hnone
    refine hg.pushFrom_writes (.rangeDeclaration root hasAs declared) start rfl fun hclean => ?_
    cases declared with
    | none => exact absurd hclean (hnone rfl)
    | some declared => exact .of_plain rfl rfl
  have hmissing : ∀ e, draft.Gains e loose [(root, .rangeRoot)] →
      Writes env (do
        missingVariable
        pushFrom (.rangeDeclaration root hasAs none) start) e fun id f =>
          draft.Gains f loose [(id, .range)] := fun e he =>
    (missingVariable_writes he).bind fun _ f hf => hrest none f hf.1 fun _ => hf.2.2
  refine (declared_yields.after hroot).bind ?_
  rintro declared e ⟨hdeclared, -⟩
  cases declared with
  | some declared => exact hrest (some declared) e hdeclared (by simp)
  | none =>
    cases entity with
    | none => exact hmissing e hdeclared
    | some name =>
      dsimp only
      split
      · have hvirtual : Writes env (some <$> virtualVariable name) e fun declared f =>
            draft.Gains f loose ([(root, .rangeRoot)] ++ declared.toList.map (·, .declared)) ∧
              declared ≠ none :=
          .map (((virtualVariable_yields name).after hdeclared).mono fun _ _ hf => ⟨hf, by simp⟩)
        exact hvirtual.bind fun declared f hf => hrest declared f hf.1 fun hn => absurd hn hf.2
      · exact hmissing e hdeclared

/-! ## Collections and joins -/

theorem collectionDeclaration_yields (hd : deeper.Sound env) :
    Yields env (collectionDeclaration deeper) .entry := by
  intro draft loose hs
  refine (Silent.look _).andThen fun start => Silent.advance.andThen fun _ => ?_
  refine (discard_expect_writes .leftParen (.refl hs)).bind fun _ a ha => ?_
  refine (pathArgument_writes hd ha.1).bind fun path b hb => ?_
  have hlt : path < b.size := hb.1.adds.lt_size (by simp)
  refine (Writes.asCollection path).bind ?_
  rintro - _ rfl
  have hpath := hb.2.asCollection hlt
  refine (discard_expect_writes .rightParen hb.1.asCollection).bind fun _ c hc => ?_
  have hpathC : c.Pathlike path := fun hp => by
    rw [hc.2.1]
    exact hpath (List.prefix_nil.mp (hp ▸ hc.2.2))
  refine (Silent.consumeKeyword .as).andThen fun hasAs => ?_
  refine (declared_yields.after hc.1).bind fun declared d hdecl => ?_
  have hpathD := hdecl.2.pathlike (hc.1.adds.lt_size (by simp)) hpathC
  cases declared with
  | some declared =>
    exact hdecl.1.pushFrom_writes (.collectionDeclaration path hasAs (some declared)) start rfl
      fun hclean => ⟨rfl, by rintro _ ⟨⟩; exact hpathD hclean⟩
  | none =>
    refine (missingVariable_writes hdecl.1).bind fun _ e he => ?_
    exact he.1.pushFrom_writes (.collectionDeclaration path hasAs none) start rfl
      fun hclean => absurd hclean he.2.2

theorem joinType_silent : Silent env joinType := by
  refine (Silent.consumeKeyword .left).bind fun left => ?_
  split
  · refine (Silent.consumeKeyword .outer).bind fun outer => ?_
    split <;> exact .pure _
  · refine (Silent.consumeKeyword .inner).bind fun inner => ?_
    split <;> exact .pure _

theorem onClause?_yields (hd : deeper.Sound env) :
    YieldsOption env (onClause? deeper) .onClause := by
  intro draft loose hs
  refine (Silent.atKeyword .on).andThen fun found => ?_
  split
  · refine (Silent.look _).andThen fun start => Silent.advance.andThen fun _ => ?_
    refine (condition_yields hd draft loose hs).bind fun condition d hg => ?_
    exact (hg.pushFrom_writes (.onClause condition) start rfl fun _ => .of_plain rfl rfl).bind
      fun _ _ he => .pure he
  · exact .pure (.refl hs)

theorem join_yields (hd : deeper.Sound env) : Yields env (join deeper) .join := by
  intro draft loose hs
  refine (Silent.look _).andThen fun start => joinType_silent.andThen fun type => ?_
  refine (expectKeyword_writes .join (.refl hs)).bind fun _ a ha => ?_
  refine (Silent.consumeKeyword .fetch).andThen fun fetch => ?_
  have hrule : (Grammar.standard.rule? RuleId.joinPath).isSome = true :=
    Grammar.standard_registers (by simp)
  refine ((primary_yields hd (hd.rule hrule)).after ha).bind fun path b hb => ?_
  have hrest : ∀ c, draft.Gains c loose [(path, .collection 7)] → Writes env (do
      let hasAs ← consumeKeyword .as
      let declared ← declaredVariable?
      if declared.isNone && (hasAs || !fetch) then missingVariable
      let on ← onClause? deeper
      pushFrom (.join type fetch path hasAs declared on) start) c fun id d =>
        draft.Gains d loose [(id, .join)] := by
    intro c hc
    refine (Silent.consumeKeyword .as).andThen fun hasAs => ?_
    refine (declared_yields.after hc).bind fun declared d hdecl => ?_
    have hon : ∀ e, draft.Gains e loose ([(path, .collection 7)] ++
          declared.toList.map (·, .declared)) →
        (e.problems = [] → (declared.isSome || (fetch && !hasAs)) = true) →
        Writes env (do
          let on ← onClause? deeper
          pushFrom (.join type fetch path hasAs declared on) start) e fun id d =>
            draft.Gains d loose [(id, .join)] := by
      intro e he hwhole
      refine ((onClause?_yields hd).after he).bind fun on f hf => ?_
      exact hf.1.pushFrom_writes (.join type fetch path hasAs declared on) start rfl
        fun hclean => .of_plain (hwhole (hf.2.clean hclean)) rfl
    split
    · refine (missingVariable_writes hdecl.1).bind fun _ e he => ?_
      exact hon e he.1 fun hclean => absurd hclean he.2.2
    · next hneeded =>
      refine hon d hdecl.1 fun _ => ?_
      cases declared <;> cases hasAs <;> cases fetch <;> simp_all
  refine Writes.kindOf_bind ?_
  split
  · next inner hasAs entityType hkind =>
    -- The path in a `TREAT` was read as a collection when the `TREAT` was.
    have hslot : (Slot.collection 7).admits (b.kind inner) = true :=
      (hb.adds.sound.conforms path (hb.adds.lt_size (by simp))).admits
        (by rw [hkind]; exact List.mem_cons_self)
    rw [Slot.admits_collection, Bool.and_eq_true, Bool.not_eq_true'] at hslot
    refine (Writes.asCollection inner).bind ?_
    rintro - _ rfl
    rw [Draft.asCollection_eq_self hslot.2]
    exact hrest b (.of_kind hb.adds hkind rfl)
  · refine (Writes.asCollection path).bind ?_
    rintro - _ rfl
    exact hrest _ (Draft.Gains.asCollection hb)

/-- **An entry of a `FROM` clause.** -/
theorem declaration_yields (hd : deeper.Sound env) :
    Yields env (declaration deeper) .entry := by
  intro draft loose hs
  refine (Silent.atKeyword .in).andThen fun isCollection => ?_
  split
  · exact collectionDeclaration_yields hd draft loose hs
  · refine (Silent.look _).andThen fun start => ?_
    refine (rangeDeclaration_yields false draft loose hs).bind fun range d hrange => ?_
    have hstart : draft.Gains d loose ([(range, .range)] ++ [].map (·, .join)) := hrange
    refine (loop_items (Silent.look _) (join_yields hd) hstart).bind ?_
    rintro joins e ⟨hg, -⟩
    exact hg.pushFrom_writes (.variableDeclaration range joins) start rfl fun _ =>
      .of_plain rfl rfl

end Jpql.Parse
