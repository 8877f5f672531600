import Jpql.Parse.Statement
import Jpql.Proofs.Reader.Declaration

/-! # What the readers of clauses and statements guarantee

Each clause yields its node or nothing. A clause that is required and left out is a problem, so a
statement without problems has all its required clauses. -/

namespace Jpql.Parse

variable {env : Env} {deeper : Deeper} {before draft : Draft} {loose : List Nat}
  {entries : List (Nat × Slot)}

/-! ## Clauses -/

/-- An expression in a `SELECT` clause needs no name. -/
theorem admits_selectItem {kind : NodeKind} (h : (Slot.expression 4).admits kind = true) :
    Slot.selectItem.admits kind = true := by
  cases kind <;> first | rfl | exact h

theorem selectItem_yields (hd : deeper.Sound env) :
    Yields env (selectItem deeper) .selectItem := by
  intro draft loose hs
  refine (operand_yields hd (hd.rule (Grammar.standard_registers (by simp))) draft loose hs).bind
    fun expression d hg => ?_
  refine (Silent.startOf expression).andThen fun start => ?_
  refine (Silent.consumeKeyword .as).andThen fun hasAs => (Silent.look _).andThen fun named => ?_
  have hrest : ∀ declared e,
      draft.Gains e loose ([(expression, .expression 4)] ++ [(declared, .resultName)]) →
      Writes env (pushFrom (.resultVariable expression hasAs declared) start) e fun id f =>
        draft.Gains f loose [(id, .selectItem)] := fun declared e he =>
    he.pushFrom_writes (.resultVariable expression hasAs declared) start rfl fun _ =>
      .of_plain rfl rfl
  split
  · exact .pure ⟨hg.adds, admits_selectItem hg.fits.1, trivial⟩
  · have hname : YieldsOption env declaredVariable? .resultName :=
      declaredVariable?_yields fun _ => rfl
    refine (hname.after hg).bind fun declared e he => ?_
    cases declared with
    | some declared => exact hrest declared e he.1
    | none => exact ((missing_yields _ rfl).after he.1).bind fun declared f hf => hrest declared f hf

/-- The clause that a `SELECT` clause is, given the sort of the statement. -/
def selectSlot (simple : Bool) : Slot := if simple then .simpleSelectClause else .selectClause

theorem selectClause_yields (hd : deeper.Sound env) (simple : Bool) :
    Yields env (selectClause deeper simple) (selectSlot simple) := by
  intro draft loose hs
  refine (Silent.look _).andThen fun start => ?_
  refine (expectKeyword_writes .select (.refl hs)).bind fun _ a ha => ?_
  refine (Silent.consumeKeyword .distinct).andThen fun distinct => ?_
  have hrule : (Grammar.standard.rule? RuleId.simpleSelect).isSome = true :=
      Grammar.standard_registers (by simp)
  cases simple with
  | true =>
    refine ((separated_yields (operand_yields hd (hd.rule hrule))).after ha).bind ?_
    rintro items d ⟨hg, hne⟩
    refine hg.pushFrom_writes (.simpleSelectClause distinct items) start rfl fun _ => ?_
    exact .of_plain (by simpa [NodeKind.isWhole] using hne) rfl
  | false =>
    refine ((separated_yields (selectItem_yields hd)).after ha).bind ?_
    rintro items d ⟨hg, hne⟩
    refine hg.pushFrom_writes (.selectClause distinct items) start rfl fun _ => ?_
    exact .of_plain (by simpa [NodeKind.isWhole] using hne) rfl

/-- The clause that a `FROM` clause is, given the sort of the statement. -/
def fromSlot (simple : Bool) : Slot := if simple then .simpleFromClause else .fromClause

/-- A clause that is required and not there is a problem. -/
theorem missingClause_writes (clause : String) (h : before.Gains draft loose entries) :
    Writes env (missingClause clause) draft fun _ d =>
      before.Gains d loose entries ∧ draft.Grows d ∧ d.problems ≠ [] := by
  refine (Silent.look _).andThen fun span => (Writes.record _).mono ?_
  rintro - _ rfl
  exact ⟨h.record _, draft.grows_record _, draft.record_problems_ne_nil _⟩

theorem fromClause?_writes (hd : deeper.Sound env) (simple : Bool)
    (h : before.Gains draft loose entries) :
    Writes env (fromClause? deeper simple) draft fun id d =>
      before.Gains d loose (entries ++ id.toList.map (·, fromSlot simple)) ∧
        (id = none → d.problems ≠ []) := by
  refine (Silent.look _).andThen fun start => (Silent.consumeKeyword .from).andThen fun found => ?_
  split
  · refine (separated_yields (declaration_yields hd) draft _ h.adds.sound).bind ?_
    rintro items d ⟨hg, hne⟩
    cases simple with
    | true =>
      refine (hg.pushFrom_writes (.simpleFromClause items) start rfl fun _ => ?_).bind
        fun id e he => .pure ⟨h.trans he, by simp⟩
      exact .of_plain (by simpa [NodeKind.isWhole] using hne) rfl
    | false =>
      refine (hg.pushFrom_writes (.fromClause items) start rfl fun _ => ?_).bind
        fun id e he => .pure ⟨h.trans he, by simp⟩
      exact .of_plain (by simpa [NodeKind.isWhole] using hne) rfl
  · refine (missingClause_writes "FROM" h).bind fun _ d hp => .pure ⟨?_, fun _ => hp.2.2⟩
    simpa using hp.1

theorem conditionClause?_yields (hd : deeper.Sound env) (word : Keyword) {kind : Nat → NodeKind}
    {slot : Slot} (hslots : ∀ id, (kind id).slots = [(id, .expression 0)])
    (hslot : ∀ id, slot.admits (kind id) = true) (hwhole : ∀ id, (kind id).isWhole = true)
    (harg : ∀ id, (kind id).argument? = none) :
    YieldsOption env (conditionClause? deeper word kind) slot := by
  intro draft loose hs
  refine (Silent.look _).andThen fun start => (Silent.consumeKeyword word).andThen fun found => ?_
  split
  · refine (condition_yields hd draft loose hs).bind fun id d hg => ?_
    rw [← hslots] at hg
    refine (hg.pushFrom_writes (kind id) start (hslot id) fun _ => ?_).bind fun _ _ he => .pure he
    exact .of_plain (hwhole id) (harg id)
  · exact .pure (.refl hs)

theorem whereClause?_yields (hd : deeper.Sound env) :
    YieldsOption env (whereClause? deeper) .whereClause :=
  conditionClause?_yields hd .where (fun _ => rfl) (fun _ => rfl) (fun _ => rfl) fun _ => rfl

theorem havingClause?_yields (hd : deeper.Sound env) :
    YieldsOption env (havingClause? deeper) .havingClause :=
  conditionClause?_yields hd .having (fun _ => rfl) (fun _ => rfl) (fun _ => rfl) fun _ => rfl

theorem groupByClause?_yields (hd : deeper.Sound env) :
    YieldsOption env (groupByClause? deeper) .groupByClause := by
  intro draft loose hs
  refine (Silent.look _).andThen fun start => (Silent.consumeKeyword .group).andThen fun found => ?_
  split
  · refine (expectKeyword_writes .by (.refl hs)).bind fun _ a ha => ?_
    have hrule : (Grammar.standard.rule? RuleId.groupByItem).isSome = true :=
      Grammar.standard_registers (by simp)
    refine ((separated_yields (operand_yields hd (hd.rule hrule))).after ha).bind ?_
    rintro items d ⟨hg, hne⟩
    refine (hg.pushFrom_writes (.groupByClause items) start rfl fun _ => ?_).bind
      fun _ _ he => .pure he
    exact .of_plain (by simpa [NodeKind.isWhole] using hne) rfl
  · exact .pure (.refl hs)

theorem sortOrder_silent : Silent env sortOrder := by
  refine (Silent.consumeKeyword .asc).bind fun asc => ?_
  split
  · exact .pure _
  · refine (Silent.consumeKeyword .desc).bind fun desc => ?_
    split <;> exact .pure _

theorem nullsOrder_writes (h : before.Gains draft loose entries) :
    Writes env nullsOrder draft fun _ d => before.Gains d loose entries := by
  refine (Silent.consumeKeyword .nulls).andThen fun nulls => ?_
  split
  · refine (Silent.consumeKeyword .first).andThen fun first => ?_
    split
    · exact .pure h
    · refine (Silent.consumeKeyword .last).andThen fun last => ?_
      split
      · exact .pure h
      · refine (Writes.recordHere _ _).bind ?_
        rintro - _ ⟨problem, rfl⟩
        exact .pure (h.record problem)
  · exact .pure h

theorem orderByItem_yields (hd : deeper.Sound env) :
    Yields env (orderByItem deeper) .orderByItem := by
  intro draft loose hs
  refine (operand_yields hd (hd.rule (Grammar.standard_registers (by simp))) draft loose hs).bind
    fun expression d hg => ?_
  refine (Silent.startOf expression).andThen fun start => ?_
  refine sortOrder_silent.andThen fun order => (nullsOrder_writes hg).bind fun nulls e he => ?_
  exact he.pushFrom_writes (.orderByItem expression order nulls) start rfl fun _ =>
    .of_plain rfl rfl

theorem orderByClause?_yields (hd : deeper.Sound env) :
    YieldsOption env (orderByClause? deeper) .orderByClause := by
  intro draft loose hs
  refine (Silent.look _).andThen fun start => (Silent.consumeKeyword .order).andThen fun found => ?_
  split
  · refine (expectKeyword_writes .by (.refl hs)).bind fun _ a ha => ?_
    refine ((separated_yields (orderByItem_yields hd)).after ha).bind ?_
    rintro items d ⟨hg, hne⟩
    refine (hg.pushFrom_writes (.orderByClause items) start rfl fun _ => ?_).bind
      fun _ _ he => .pure he
    exact .of_plain (by simpa [NodeKind.isWhole] using hne) rfl
  · exact .pure (.refl hs)

theorem updateItem_yields (hd : deeper.Sound env) :
    Yields env (updateItem deeper) .updateItem := by
  intro draft loose hs
  refine (Silent.look _).andThen fun start => ?_
  refine (updateTarget_yields draft loose hs).bind fun target d htarget => ?_
  refine (discard_expect_writes .equal htarget).bind fun _ e he => ?_
  have hrule : (Grammar.standard.rule? RuleId.newValue).isSome = true :=
      Grammar.standard_registers (by simp)
  refine ((operand_yields hd (hd.rule hrule)).after he.1).bind fun value f hvalue => ?_
  exact hvalue.pushFrom_writes (.updateItem target value) start rfl fun _ => .of_plain rfl rfl

theorem updateItems_writes (hd : deeper.Sound env) (h : before.Gains draft loose entries) :
    Writes env (updateItems deeper) draft fun ids d =>
      before.Gains d loose (entries ++ ids.map (·, .updateItem)) ∧
        (ids = [] → d.problems ≠ []) := by
  refine (Silent.consumeKeyword .set).andThen fun found => ?_
  split
  · refine ((separated_yields (updateItem_yields hd)).after h).mono ?_
    exact fun _ _ hp => ⟨hp.1, fun hnil => absurd hnil hp.2⟩
  · refine (missingClause_writes "SET" h).bind fun _ d hp => .pure ⟨?_, fun _ => hp.2.2⟩
    simpa using hp.1

/-! ## Statements -/

/-- The virtual variable of the surrounding statement does not matter for what is written. -/
theorem withoutVirtual_writes {α : Type} {p : Parser α} {post : α → Draft → Prop}
    (hp : Writes env p draft post) : Writes env (withoutVirtual p) draft post := by
  rintro s rfl
  refine .get_bind ((Silent.setVirtual _ _).bind fun _ t ht => ?_)
  refine (hp t ht).bind fun a u hu => ?_
  exact (Silent.setVirtual _ _).bind fun _ v hv => .pure (hv ▸ hu)

theorem selectStatement_writes (hd : deeper.Sound env) (hs : draft.Sound loose) :
    Writes env (selectStatement deeper) draft fun id d =>
      draft.Adds d loose [id] ∧ (d.kind id).isOuterStatement = true := by
  refine (Silent.look _).andThen fun start => ?_
  refine (selectClause_yields hd false draft loose hs).bind fun select a ha => ?_
  refine (fromClause?_writes hd false ha).bind fun fromClause b hb => ?_
  refine ((whereClause?_yields hd).after hb.1).bind fun whereClause c hc => ?_
  refine ((groupByClause?_yields hd).after hc.1).bind fun groupBy d hd' => ?_
  refine ((havingClause?_yields hd).after hd'.1).bind fun having e he => ?_
  refine ((orderByClause?_yields hd).after he.1).bind fun orderBy f hf => ?_
  have hpush : Writes env (pushFrom
      (.selectStatement select fromClause whereClause groupBy having orderBy) start) f fun id g =>
        draft.Adds g loose [id] ∧ g.kind id =
          .selectStatement select fromClause whereClause groupBy having orderBy := by
    refine hf.1.pushFrom_kind _ start fun hclean => ?_
    have hgrows := ((hc.2.trans hd'.2).trans he.2).trans hf.2
    cases fromClause with
    | none => exact absurd (hgrows.clean hclean) (hb.2 rfl)
    | some fromClause => exact .of_plain rfl rfl
  exact hpush.mono fun _ _ hp => ⟨hp.1, by rw [hp.2]; rfl⟩

theorem simpleSelect_yields (hd : deeper.Sound env) {slot : Slot}
    (hslot : ∀ a b c d e, slot.admits (.simpleSelectStatement a b c d e) = true) :
    Yields env (simpleSelect deeper) slot := by
  refine fun draft loose hs => withoutVirtual_writes ?_
  refine (Silent.look _).andThen fun start => ?_
  refine (selectClause_yields hd true draft loose hs).bind fun select a ha => ?_
  refine (fromClause?_writes hd true ha).bind fun fromClause b hb => ?_
  refine ((whereClause?_yields hd).after hb.1).bind fun whereClause c hc => ?_
  refine ((groupByClause?_yields hd).after hc.1).bind fun groupBy d hd' => ?_
  refine ((havingClause?_yields hd).after hd'.1).bind fun having e he => ?_
  refine he.1.pushFrom_writes
    (.simpleSelectStatement select fromClause whereClause groupBy having) start
    (hslot _ _ _ _ _) fun hclean => ?_
  have hgrows := (hc.2.trans hd'.2).trans he.2
  cases fromClause with
  | none => exact absurd (hgrows.clean hclean) (hb.2 rfl)
  | some fromClause => exact .of_plain rfl rfl

theorem updateStatement_writes (hd : deeper.Sound env) (hs : draft.Sound loose) :
    Writes env (updateStatement deeper) draft fun id d =>
      draft.Adds d loose [id] ∧ (d.kind id).isOuterStatement = true := by
  refine withoutVirtual_writes ?_
  refine (Silent.look _).andThen fun start => Silent.advance.andThen fun _ => ?_
  refine (rangeDeclaration_yields true draft loose hs).bind fun range a ha => ?_
  refine (updateItems_writes hd ha).bind fun items b hb => ?_
  have hclause : Writes env (pushFrom (.updateClause range items) start) b fun id c =>
      draft.Gains c loose [(id, .updateClause)] := by
    refine hb.1.pushFrom_writes (.updateClause range items) start rfl fun hclean => ?_
    cases items with
    | nil => exact absurd hclean (hb.2 rfl)
    | cons _ _ => exact .of_plain rfl rfl
  refine hclause.bind fun update c hc => ?_
  refine ((whereClause?_yields hd).after hc).bind fun whereClause e he => ?_
  exact (he.1.pushFrom_kind (.updateStatement update whereClause) start
    fun _ => .of_plain rfl rfl).mono fun _ _ hp => ⟨hp.1, by rw [hp.2]; rfl⟩

theorem deleteStatement_writes (hd : deeper.Sound env) (hs : draft.Sound loose) :
    Writes env (deleteStatement deeper) draft fun id d =>
      draft.Adds d loose [id] ∧ (d.kind id).isOuterStatement = true := by
  refine withoutVirtual_writes ?_
  refine (Silent.look _).andThen fun start => Silent.advance.andThen fun _ => ?_
  refine (expectKeyword_writes .from (.refl hs)).bind fun _ a ha => ?_
  refine ((rangeDeclaration_yields true).after ha).bind fun range b hb => ?_
  have hclause : Writes env (pushFrom (.deleteClause range) start) b fun id c =>
      draft.Gains c loose [(id, .deleteClause)] :=
    hb.pushFrom_writes (.deleteClause range) start rfl fun _ => .of_plain rfl rfl
  refine hclause.bind fun delete c hc => ?_
  refine ((whereClause?_yields hd).after hc).bind fun whereClause e he => ?_
  exact (he.1.pushFrom_kind (.deleteStatement delete whereClause) start
    fun _ => .of_plain rfl rfl).mono fun _ _ hp => ⟨hp.1, by rw [hp.2]; rfl⟩

/-! ## Constructs that hold statements -/

theorem parenSubquery_yields (hd : deeper.Sound env) :
    Yields env (parenSubquery deeper) .subquery := by
  intro draft loose hs
  refine (discard_expect_writes .leftParen (.refl hs)).bind fun _ a ha => ?_
  have hclose : ∀ subquery b, draft.Gains b loose [(subquery, .subquery)] →
      Writes env (do discard (expect .rightParen); return subquery) b fun id c =>
        draft.Gains c loose [(id, .subquery)] := fun subquery b hb =>
    (discard_expect_writes .rightParen hb).bind fun _ _ hc => .pure hc.1
  refine (Silent.atKeyword .select).andThen fun found => ?_
  split
  · have hselect : Yields env (simpleSelect deeper) .subquery :=
      simpleSelect_yields hd fun _ _ _ _ _ => rfl
    exact (hselect.after ha.1).bind fun id b hb => hclose id b hb
  · exact ((missing_yields _ rfl).after ha.1).bind fun id b hb => hclose id b hb

theorem negation_yields (hd : deeper.Sound env) {rule : String}
    (hrule : (env.grammar.rule? rule).isSome = true) :
    Yields env (negation deeper rule) (.expression 2) := by
  intro draft loose hs
  refine (Silent.look _).andThen fun start => Silent.advance.andThen fun _ => ?_
  refine (Silent.consumeKeyword .exists).andThen fun found => ?_
  split
  · refine (parenSubquery_yields hd draft loose hs).bind fun subquery d hg => ?_
    exact hg.pushFrom_writes (.existence true subquery) start rfl fun _ => .of_plain rfl rfl
  · refine (negatable_yields hd hrule draft loose hs).bind fun expression d hg => ?_
    exact hg.pushFrom_writes (.not expression) start rfl fun _ => .of_plain rfl rfl

theorem group_yields (hd : deeper.Sound env) : Yields env (group deeper) (.expression 7) := by
  intro draft loose hs
  refine (Silent.look _).andThen fun start => Silent.advance.andThen fun _ => ?_
  have hclose : ∀ expression d, draft.Gains d loose [(expression, .expression 0)] →
      Writes env (do
        discard (expect .rightParen)
        pushFrom (.group expression) start) d fun id e =>
          draft.Gains e loose [(id, .expression 7)] := by
    intro expression d hg
    refine (discard_expect_writes .rightParen hg).bind fun _ e he => ?_
    exact he.1.pushFrom_writes (.group expression) start rfl fun _ => .of_plain rfl rfl
  refine (Silent.atKeyword .select).andThen fun found => ?_
  split
  · have hselect : Yields env (simpleSelect deeper) (.expression 0) :=
      simpleSelect_yields hd fun _ _ _ _ _ => rfl
    exact (hselect draft loose hs).bind fun id d hg => hclose id d hg
  · exact (condition_yields hd draft loose hs).bind fun id d hg => hclose id d hg

end Jpql.Parse
