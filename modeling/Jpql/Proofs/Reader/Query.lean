import Jpql.Parse.Query
import Jpql.Proofs.Reader.Call
import Jpql.Validate

/-! # What reading a query guarantees

By induction on the number of levels, every reader of nested constructs can be relied on
(`level_sound`). So a text is always read, from any rule there is, and the draft left at the end has
a single loose node, the root (`parse_run`, `parse_draft`).

Reading throws an error in one place, where a rule is dispatched that the grammar does not have, and no
reader catches one. The rules that the readers pass on are registered, whatever the tokens are
(`parseTokens_run`), so the rule that a text starts from is the only one that can be at fault
(`parse_eq_error_iff`). -/

namespace Jpql

namespace Parse

variable {env : Env} {deeper : Deeper} {draft : Draft} {loose : List Nat} {rule : String}

/-! ## Levels -/

theorem nested_yields (hd : deeper.Sound env) (construct : Nested) (hlegal : construct.Legal env) :
    Yields env (nested deeper construct) (.expression construct.strength) := by
  cases construct with
  | negation rule => exact negation_yields hd hlegal
  | sign negative => exact signed_yields hd negative
  | group => exact group_yields hd
  | subquery => exact simpleSelect_yields hd fun _ _ _ _ _ => rfl
  | call construct => exact call_yields hd construct

theorem Nested.strength_le (construct : Nested) : construct.strength ≤ 7 := by
  cases construct <;> simp [Nested.strength]

/-- **Nested constructs can be relied on at every level.** -/
theorem level_sound (h : env.grammar = .standard) (levels : Nat) :
    (level levels).Sound env where
  standard := h
  yields := by
    induction levels with
    | zero =>
      exact fun construct _ => skipTooDeep_yields.weaken construct.strength_le
    | succ levels ih => exact nested_yields ⟨h, ih⟩

/-! ## Whole texts -/

/-- From the rule of statements, only statements are built. -/
theorem dispatch_statement {trigger : Trigger} {construct : Construct}
    (h : Grammar.standard.dispatch RuleId.statement trigger = .ok (some construct)) :
    construct = .selectStatement ∨ construct = .updateStatement ∨
      construct = .deleteStatement := by
  have hfactories : Grammar.standard.factoriesFrom RuleId.statement = [
      .ofKeywords "select_statement" .selectStatement [.select],
      .ofKeywords "update_statement" .updateStatement [.update],
      .ofKeywords "delete_statement" .deleteStatement [.delete]] := by decide +kernel
  unfold Grammar.dispatch at h
  split at h
  · cases h
  · rw [hfactories] at h
    simp only [List.find?_cons, List.find?_nil, Factory.ofKeywords] at h
    repeat' split at h
    all_goals simp_all

/-- What a statement under a rule may be. -/
def StartsWith (rule : String) (draft after : Draft) (loose : List Nat) (id : Option Nat) : Prop :=
  draft.Gains after loose (id.toList.map (·, .start)) ∧ (id = none → after.problems ≠ []) ∧
    (rule = RuleId.statement → ∀ i ∈ id, (after.kind i).isOuterStatement = true)

theorem statement?_writes (hd : deeper.Sound env)
    (hrule : (env.grammar.rule? rule).isSome = true) (h : draft.Sound loose) :
    Writes env (statement? deeper rule) draft fun id d => StartsWith rule draft d loose id := by
  have hfound : ∀ (p : Parser Nat), (Writes env p draft fun id d =>
        draft.Adds d loose [id] ∧ (d.kind id).isOuterStatement = true) →
      Writes env (some <$> p) draft fun id d => StartsWith rule draft d loose id := by
    refine fun p hp => .map (hp.mono fun id d hk => ⟨.of_kind hk.1 rfl ?_, by simp, ?_⟩)
    · show (NodeKind.isStatement _ || NodeKind.isExpression _) = true
      rw [NodeKind.isStatement_of_isOuterStatement hk.2, Bool.true_or]
    · rintro - i ⟨⟩
      exact hk.2
  have hsubquery : rule ≠ RuleId.statement →
      Writes env (some <$> simpleSelect deeper) draft fun id d =>
        StartsWith rule draft d loose id := by
    intro hr
    have hselect : Yields env (simpleSelect deeper) .start :=
      simpleSelect_yields hd fun _ _ _ _ _ => rfl
    exact .map ((hselect draft loose h).mono fun id d hg => ⟨hg, by simp, fun hn => absurd hn hr⟩)
  have hnone : Writes env (do
      let stop := Text.trimmedLength (← read).source
      let start ← look (·.currentStart)
      record ⟨.invalidStatement, [], ⟨min start stop, stop⟩, none⟩
      return none) draft fun id d => StartsWith rule draft d loose id := by
    refine Writes.read_bind ((Silent.look _).andThen fun start => (Writes.record _).bind ?_)
    rintro - _ rfl
    exact .pure ⟨(Draft.Gains.refl h).record _, fun _ => draft.record_problems_ne_nil _, by simp⟩
  have hconstruct : ∀ construct : Option Construct,
      (rule = RuleId.statement → construct = none ∨ construct = some .selectStatement ∨
        construct = some .updateStatement ∨ construct = some .deleteStatement) →
      Writes env (statementOf deeper construct) draft fun id d => StartsWith rule draft d loose id := by
    intro construct hconstruct
    unfold statementOf
    split
    · exact hfound _ (selectStatement_writes hd h)
    · exact hsubquery fun hr => by simpa using hconstruct hr
    · exact hfound _ (updateStatement_writes hd h)
    · exact hfound _ (deleteStatement_writes hd h)
    · exact hnone
  refine (Silent.look _).andThen fun kind => ?_
  split
  · refine (dispatch_writes _ hrule).bind ?_
    rintro construct _ ⟨rfl, hdispatch⟩
    refine hconstruct construct fun hr => ?_
    cases construct with
    | none => exact .inl rfl
    | some construct =>
      rw [hr, hd.standard] at hdispatch
      simpa using dispatch_statement hdispatch
  · exact hconstruct none fun _ => .inl rfl

/-- **A text starts with a statement or a condition**, or there is a problem. -/
theorem start?_writes (hd : deeper.Sound env) (hrule : (env.grammar.rule? rule).isSome = true)
    (h : draft.Sound loose) :
    Writes env (start? deeper rule) draft fun id d => StartsWith rule draft d loose id := by
  unfold start?
  split
  · exact statement?_writes hd hrule h
  · next hno =>
    refine .map ((disjunction_yields hd hrule draft loose h).mono fun id d hg => ?_)
    refine ⟨⟨hg.adds, ?_, trivial⟩, by simp, fun hr => ?_⟩
    · have hadmits := hg.fits.1
      rw [Slot.admits_expression, Bool.and_eq_true] at hadmits
      show (NodeKind.isStatement _ || NodeKind.isExpression _) = true
      rw [hadmits.1, Bool.or_true]
    · simp [hr] at hno

/-- Text that is left over is a problem. -/
theorem trailingText_writes {before : Draft} {entries : List (Nat × Slot)}
    (h : before.Gains draft loose entries) :
    Writes env trailingText draft fun id d =>
      before.Gains d loose (entries ++ id.toList.map (·, .leftover)) ∧ draft.Grows d ∧
        (id ≠ none → d.problems ≠ []) := by
  refine (Silent.look _).andThen fun atEnd => ?_
  split
  · exact .pure ⟨by simpa using h, .refl draft, by simp⟩
  · refine Writes.read_bind ((Silent.look _).andThen fun start => (Silent.step _).andThen fun _ => ?_)
    have hunknown : ∀ span text, Writes env
        (pushUnknown span text .unknownExpression text) draft fun id d =>
          draft.Gains d (loose ++ entries.map (·.1)) [(id, .leftover)] ∧ d.problems ≠ [] :=
      fun span text => pushUnknown_writes span text _ _ rfl h.adds.sound
    refine (hunknown _ _).bind fun id d hp => .pure ?_
    exact ⟨h.trans hp.1, hp.1.adds.grows, fun _ => hp.2⟩

/-- **Everything that is read hangs below the root.** -/
theorem query_writes (hd : deeper.Sound env) (hrule : (env.grammar.rule? rule).isSome = true)
    (h : draft.Sound loose) :
    Writes env (query deeper rule) draft fun root d => draft.Adds d loose [root] ∧
      ∃ statement leftover, d.kind root = .query statement leftover ∧
        (rule = RuleId.statement → ∀ i ∈ statement, (d.kind i).isOuterStatement = true) := by
  refine (start?_writes hd hrule h).bind fun statement a ha => ?_
  refine (trailingText_writes ha.1).bind fun leftover b hb => Writes.read_bind ?_
  refine (Writes.push _ _).mono ?_
  rintro _ _ ⟨rfl, rfl⟩
  have hkind := b.kind_push (.query statement leftover) ⟨0, Text.byteLength env.source.toList⟩
  refine ⟨?_, statement, leftover, hkind, fun hr i hi => ?_⟩
  · refine hb.1.adds.push (.query statement leftover)
      (NodeKind.map_fst_slots (.query statement leftover)).symm _ hb.1.fits fun hclean => ?_
    refine .of_plain ?_ rfl
    have hstatement : statement ≠ none := fun hn => ha.2.1 hn (hb.2.1.clean hclean)
    have hleftover : leftover = none := by_contra fun hn => hb.2.2 hn hclean
    simp [NodeKind.isWhole, hleftover, Option.isSome_iff_ne_none, hstatement]
  · have hlt : i < a.size := ha.1.adds.lt_size (by simpa using hi)
    rw [(b.grows_push _ _).kind_eq i (Nat.lt_of_lt_of_le hlt hb.2.1.size_le),
      hb.2.1.kind_eq i hlt]
    exact ha.2.2 hr i hi

end Parse

/-- **Any tokens are read by one run of the reader**, from any rule there is. No dispatch on the way
fails, since an error would have ended the run. -/
theorem parseTokens_run (source : String) (tokens : List Token) (rule : String) (maxDepth : Nat)
    (hrule : (Grammar.standard.rule? rule).isSome = true) :
    ∃ root state, Parse.query (Parse.level maxDepth) rule
        ⟨source, tokens.toArray, .standard, maxDepth⟩ .initial = .ok (root, state) ∧
      parseTokens .standard source tokens rule maxDepth =
        .ok ⟨state.builder.finish source root, state.problems.map (·.anchoredAt root)⟩ := by
  let env : Parse.Env := ⟨source, tokens.toArray, .standard, maxDepth⟩
  have hlevel : (Parse.level maxDepth).Sound env := Parse.level_sound rfl maxDepth
  obtain ⟨root, state, hrun, -⟩ :=
    Parse.query_writes hlevel hrule Parse.Draft.sound_empty .initial rfl
  obtain ⟨entry, hentry⟩ := Option.isSome_iff_exists.mp hrule
  refine ⟨root, state, hrun, ?_⟩
  rw [parseTokens, Grammar.lookup_eq_ok.mpr hentry]
  show (Parse.query (Parse.level maxDepth) rule env .initial >>= fun x => _) = _
  rw [hrun]
  rfl

/-- From a rule that is not registered nothing is read. -/
theorem parseTokens_unregistered {rule : String} (source : String) (tokens : List Token) (maxDepth : Nat)
    (hrule : Grammar.standard.rule? rule = none) :
    parseTokens .standard source tokens rule maxDepth = .error (.unknownRule rule) := by
  rw [parseTokens, Grammar.lookup, hrule]
  rfl

/-- **A text is read by one run of the reader**, from any rule there is. -/
theorem parse_run (source rule : String) (maxDepth : Nat)
    (hrule : (Grammar.standard.rule? rule).isSome = true) :
    ∃ root state, Parse.query (Parse.level maxDepth) rule
        ⟨source, (tokenize source).tokens.toArray, .standard, maxDepth⟩ .initial =
          .ok (root, state) ∧
      parse source rule maxDepth = .ok ⟨state.builder.finish source root,
        (tokenize source).problems ++ state.problems.map (·.anchoredAt root)⟩ := by
  obtain ⟨root, state, hrun, htokens⟩ := parseTokens_run source (tokenize source).tokens rule maxDepth hrule
  refine ⟨root, state, hrun, ?_⟩
  rw [parse]
  show (parseTokens _ _ _ _ _ >>= fun x => _) = _
  rw [htokens]
  rfl

/-- A text is read from rules there are. -/
theorem isSome_rule_of_parse {source rule : String} {maxDepth : Nat} {parsed : Parsed}
    (hparse : parse source rule maxDepth = .ok parsed) :
    (Grammar.standard.rule? rule).isSome = true := by
  by_contra hrule
  have hfails : parse source rule maxDepth = .error (.unknownRule rule) := by
    rw [parse]
    show (parseTokens _ _ _ _ _ >>= fun x => _) = _
    rw [parseTokens_unregistered _ _ _ (Option.not_isSome_iff_eq_none.mp hrule)]
    rfl
  rw [hfails] at hparse
  cases hparse

/-- **A text is always read**, from any rule there is, into nodes that all hang below the root. -/
theorem parse_draft (source rule : String) (maxDepth : Nat)
    (hrule : (Grammar.standard.rule? rule).isSome = true) :
    ∃ parsed, parse source rule maxDepth = .ok parsed ∧ ∃ draft : Parse.Draft,
      parsed.tree = draft.builder.finish source parsed.tree.root ∧
      draft.Sound [parsed.tree.root] ∧ (parsed.problems = [] → draft.problems = []) ∧
      ∃ statement leftover, draft.kind parsed.tree.root = .query statement leftover ∧
        (rule = RuleId.statement → ∀ i ∈ statement, (draft.kind i).isOuterStatement = true) := by
  let env : Parse.Env := ⟨source, (tokenize source).tokens.toArray, .standard, maxDepth⟩
  have hlevel : (Parse.level maxDepth).Sound env := Parse.level_sound rfl maxDepth
  obtain ⟨root, state, hrun, hparse⟩ := parse_run source rule maxDepth hrule
  obtain ⟨hadds, hroot⟩ :=
    (Parse.query_writes hlevel hrule Parse.Draft.sound_empty .initial rfl).of_eq hrun
  refine ⟨_, hparse, state.draft, rfl, hadds.sound, fun hclean => ?_, hroot⟩
  exact List.map_eq_nil_iff.mp (List.append_eq_nil_iff.mp hclean).2

/-! ## Errors -/

/-- **Tokens are not read only if the rule is not registered**, and the error says so. -/
theorem parseTokens_eq_error_iff {source rule : String} {tokens : List Token} {maxDepth : Nat}
    {error : GrammarError} :
    parseTokens .standard source tokens rule maxDepth = .error error ↔
      Grammar.standard.rule? rule = none ∧ error = .unknownRule rule := by
  cases hrule : Grammar.standard.rule? rule with
  | none =>
    rw [parseTokens_unregistered source tokens maxDepth hrule, Except.error.injEq, eq_comm]
    exact (and_iff_right rfl).symm
  | some entry =>
    obtain ⟨root, state, -, hread⟩ :=
      parseTokens_run source tokens rule maxDepth (by rw [hrule]; rfl)
    rw [hread]
    simp

/-- What is computed from a result fails as the computation of the result does. -/
theorem bind_pure_eq_error_iff {ε α β : Type} {computed : Except ε α} {f : α → β} {error : ε} :
    (computed >>= fun a => pure (f a)) = .error error ↔ computed = .error error := by
  cases computed with
  | error other =>
    show (Except.error other : Except ε β) = .error error ↔ _
    rw [Except.error.injEq, Except.error.injEq]
  | ok a => exact iff_of_false (fun h => by cases h) fun h => by cases h

/-- **Query texts cause no errors.** Reading a text and validating it fail if and only if the rule is not
registered, and the error then has the id of that rule. From a registered rule the reader runs to its end,
so that no dispatch fails on the way. -/
theorem parse_eq_error_iff (source rule : String) (maxDepth : Nat) (metamodel : Metamodel)
    (options : ValidationOptions) :
    (∀ error, parse source rule maxDepth = .error error ↔
      Grammar.standard.rule? rule = none ∧ error = .unknownRule rule) ∧
    (∀ error, validate source rule metamodel options = .error error ↔
      Grammar.standard.rule? rule = none ∧ error = .unknownRule rule) ∧
    ((Grammar.standard.rule? rule).isSome = true → ∃ root state,
      Parse.query (Parse.level maxDepth) rule
        ⟨source, (tokenize source).tokens.toArray, .standard, maxDepth⟩ .initial =
          .ok (root, state)) := by
  have hparse : ∀ maxDepth error, parse source rule maxDepth = .error error ↔
      Grammar.standard.rule? rule = none ∧ error = .unknownRule rule :=
    fun _ _ => bind_pure_eq_error_iff.trans parseTokens_eq_error_iff
  refine ⟨hparse maxDepth, fun error => ?_, fun hrule => ?_⟩
  · exact bind_pure_eq_error_iff.trans (hparse options.maxNestingDepth error)
  · obtain ⟨root, state, hrun, -⟩ := parseTokens_run source (tokenize source).tokens rule maxDepth hrule
    exact ⟨root, state, hrun⟩

end Jpql
