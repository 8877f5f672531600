import Jpql.Proofs.Nesting.Reader
import Jpql.Proofs.Place.Expression

/-! # Expressions and the limit on nesting

One lemma for each reader of a single level, from variables up to conditions and declarations: what it
reads fits into the levels that are left, and the limit plays no other part. What is nested is read by a
reader of which the same is known (`Deeper.Fitting`). -/

namespace Jpql.Parse

variable {env : Env} {limit levels : Nat} {whole : Bool} {gathered : List NodeId}

/-! ## Variables and paths -/

theorem collects_pushVirtualPath (owner : String) (field : Located String)
    (segments : List (Located String)) (dot : Bool) :
    Nests env limit (Fits whole levels gathered) (pushVirtualPath owner field segments dot)
      (pushVirtualPath owner field segments dot) (Plain whole levels) :=
  (collects_push rfl (List.nil_subset _)).bind fun _ => plain_pushFrom rfl (List.Subset.refl _)

theorem plain_pathOrVariable :
    Nests env limit (Fits whole levels gathered) pathOrVariable pathOrVariable (Plain whole levels) := by
  refine .look fun span => .look fun name => collects_advance.bind fun _ => collects_segments.bind ?_
  rintro ⟨segments, dot⟩
  refine .virtualFor? fun owner? => ?_
  cases owner? with
  | some owner =>
    refine (collects_pushVirtualPath owner _ segments dot).bind fun path => ?_
    split
    · exact fun _ hs hpath => plain_push rfl (List.Subset.refl _) _ hs hpath.fits
    · exact fun _ hs hpath => .pure hs hpath
  | none =>
    dsimp only
    split
    · exact (plain_push rfl (List.nil_subset _)).bind fun _ _ hs h => .pure hs h
    · exact (collects_push rfl (List.nil_subset _)).bind fun root =>
        plain_pushFrom rfl (List.Subset.refl _)

/-- **A reader goes on behind a node**: what comes out is that node, or a new one that fits. -/
def Continues (whole : Bool) (levels : Nat) (first id : NodeId) (s : State) : Prop :=
  Fits whole levels [id] s ∧ (id = first ∨ (s.draft.kind id).isSubquery = false)

theorem continues_pushFrom {first : NodeId} {kind : NodeKind} {start : Nat}
    (hflat : kind.isFlat whole = true) (hsub : kind.children ⊆ gathered) :
    Nests env limit (Fits whole levels gathered) (pushFrom kind start) (pushFrom kind start)
      (Continues whole levels first) :=
  (plain_pushFrom hflat hsub).weaken (fun _ h => h) fun _ _ h => ⟨h.fits, .inr h.2⟩

theorem continues_continuePath (root : NodeId) (start : Nat) :
    Nests env limit (Fits whole levels [root]) (continuePath root start) (continuePath root start)
      (Continues whole levels root) := by
  refine .look fun atDot => ?_
  split
  · exact collects_segments.bind fun (_, _) => continues_pushFrom rfl (List.Subset.refl _)
  · exact fun _ hs h => .pure hs ⟨h, .inl rfl⟩

theorem collects_updateTarget :
    Collects env limit whole levels [] updateTarget updateTarget single := by
  refine .look fun name? => ?_
  cases name? with
  | none => exact collects_missing _
  | some name =>
    refine .look fun span => collects_advance.bind fun _ => collects_segments.bind ?_
    rintro ⟨segments, dot⟩
    refine .virtualFor? fun owner? => ?_
    cases owner? with
    | some owner =>
      exact (collects_pushVirtualPath owner _ segments dot).weaken (fun _ h => h) fun _ _ h => h.fits
    | none =>
      exact (collects_push rfl (List.nil_subset _)).bind fun root =>
        collects_pushFrom rfl (List.Subset.refl _)

theorem collects_declaredVariable? :
    Collects env limit whole levels [] declaredVariable? declaredVariable? Option.toList := by
  refine .look fun name? => ?_
  cases name? with
  | none => exact collects_pure (List.Subset.refl _)
  | some name =>
    refine .look fun span => collects_advance.bind fun _ => ?_
    exact (collects_push rfl (List.nil_subset _)).bind fun _ =>
      collects_pure (List.Subset.refl _)

theorem collects_entityType (name : String) :
    Collects env limit whole levels [] (entityType name) (entityType name) single :=
  .look fun _ => collects_advance.bind fun _ => collects_push rfl (List.nil_subset _)

theorem plain_leaf {kind : NodeKind} (hflat : kind.isFlat whole = true) (hchildren : kind.children = []) :
    Nests env limit (Fits whole levels gathered) (leaf kind) (leaf kind) (Plain whole levels) :=
  .look fun _ => collects_advance.bind fun _ =>
    plain_pushFrom hflat (hchildren ▸ List.nil_subset _)

/-! ## Primaries -/

/-- The grammar does not depend on the limit. -/
theorem descent_dispatch {rule : String} {trigger : Trigger} {s : State} (hs : s.Proper env) :
    Descent env limit s (dispatch rule trigger) (dispatch rule trigger) fun construct? t =>
      t = s ∧ env.grammar.dispatch rule trigger = .ok construct? := fun construct? t hrun => by
  obtain ⟨rfl, hdispatch⟩ := dispatch_after rule trigger construct? t hrun
  refine ⟨.refl hs, fun _ => ?_, rfl, hdispatch⟩
  rw [dispatch_run, Env.allowing, hdispatch]
  rfl

/-- **What is nested fits into the levels that are left**, and does not depend on the limit unless it is
cut off. -/
structure Deeper.Fitting (env : Env) (limit : Nat) (whole : Bool) (levels : Nat) (deeper other : Deeper) :
    Prop where
  grammar : env.grammar.SelectsByWord
  nests : ∀ construct, Nests env limit (fun _ => True) (deeper construct) (other construct) fun id t =>
    t.draft.Within whole false levels id ∧
      ((t.draft.kind id).isSubquery = true → construct = .subquery)

theorem TokenStream.checkKeyword_of_kind {stream : TokenStream} {word : Keyword}
    (h : stream.kind = .keyword word) : stream.checkKeyword word = true := by
  rw [TokenStream.checkKeyword, h]
  exact beq_self_eq_true _

/-- What follows the first operand of a simple condition. -/
def afterOperand (deeper : Deeper) (left : NodeId) (start : Nat) : Parser NodeId := do
  match ← look (comparison? ·.kind) with
  | some operator =>
    advance
    let right ← operand deeper RuleId.comparisonRight
    pushFrom (.comparison left operator right) start
  | none =>
    let negated ← look atNegatedWord
    if negated then advance
    conditionRest deeper left start negated

section

variable {deeper other : Deeper} (hd : deeper.Fitting env limit whole levels other)

include hd

/-- What is no subquery is an expression wherever it stands. -/
theorem Deeper.Fitting.expresses {construct : Nested} (hne : construct ≠ .subquery) :
    Expresses env limit whole levels (deeper construct) (other construct) := fun s hs =>
  (hd.nests construct s hs trivial).mono fun _ _ _ ⟨hfits, hsub⟩ => ⟨hfits, fun h => absurd (hsub h) hne⟩

/-- A subquery is an expression where its word stands. -/
theorem Deeper.Fitting.descent_subquery {s : State} (hs : s.Proper env)
    (hselect : (s.stream env).kind = .keyword .select) :
    Descent env limit s (deeper .subquery) (other .subquery) fun id t =>
      t.draft.Within whole false levels id ∧
        ((t.draft.kind id).isSubquery = true → (s.stream env).checkKeyword .select = true) :=
  (hd.nests .subquery s hs trivial).mono fun _ _ _ ⟨hfits, _⟩ =>
    ⟨hfits, fun _ => TokenStream.checkKeyword_of_kind hselect⟩

/-- **A construct that may stand at the current token.** -/
theorem descent_build (construct : Construct) {s : State} (hs : s.Proper env)
    (hahead : construct.Ahead (s.stream env).kind) :
    Descent env limit s (build deeper construct) (build other construct) fun id t =>
      t.draft.Within whole false levels id ∧
        ((t.draft.kind id).isSubquery = true → (s.stream env).checkKeyword .select = true) := by
  have hleaf : ∀ {kind : NodeKind}, kind.isFlat whole = true → kind.children = [] →
      Expresses env limit whole levels (leaf kind) (leaf kind) := fun hflat hchildren =>
    .of_plain (plain_leaf hflat hchildren)
  have hunknown : Expresses env limit whole levels unknownToken unknownToken :=
    .of_plain plain_unknownToken
  cases construct
  case selectStatement => exact hd.descent_subquery hs hahead
  case simpleSelectStatement => exact hd.descent_subquery hs hahead
  case updateStatement => exact hunknown s hs
  case deleteStatement => exact hunknown s hs
  case group => exact hd.expresses (by simp) s hs
  case path => exact Expresses.of_plain plain_pathOrVariable s hs
  case number => exact .look (hleaf rfl rfl s hs)
  case string => exact .look (by split <;> exact hleaf rfl rfl s hs)
  case wordLiteral => exact .look (hleaf rfl rfl s hs)
  case moment => exact .look (hleaf rfl rfl s hs)
  case parameter =>
    refine .look ?_
    split
    · exact hleaf rfl rfl s hs
    · exact hleaf rfl rfl s hs
    · exact hunknown s hs
  all_goals exact hd.expresses (by simp) s hs

/-- **A primary expression**, whatever stands there. -/
theorem expresses_primary (rule : String) :
    Expresses env limit whole levels (primary deeper rule) (primary other rule) := by
  intro s hs
  have hmissing : Expresses env limit whole levels (missing rule) (missing rule) :=
    .of_plain (plain_missing rule)
  refine .look ?_
  cases htrigger : trigger? (s.stream env) with
  | none => exact hmissing s hs
  | some trigger =>
    obtain ⟨heof, hclose, hword⟩ := kind_of_trigger? htrigger
    refine (descent_dispatch hs).bind ?_
    rintro construct? t - ⟨rfl, hdispatch⟩
    cases construct? with
    | some construct =>
      exact descent_build hd construct hs (hd.grammar.ahead_of_dispatch hdispatch heof hclose hword)
    | none =>
      cases trigger with
      | keyword word =>
        refine .read ?_
        rw [show (env.allowing limit).grammar = env.grammar from rfl]
        cases hfor : env.grammar.forKeyword? word with
        | none => exact hmissing t hs
        | some construct =>
          have hahead := hd.grammar.ahead_of_forKeyword? hfor
          rw [← hword word rfl] at hahead
          refine .look ((descent_build hd construct hs hahead).bind fun id u honward ⟨hfits, hsub⟩ => ?_)
          refine (descent_record (by simp [TokenStream.problemHere]) honward.proper).bind
            fun _ v honward' _ => .pure honward'.proper ⟨hfits.keeps honward'.keeps, fun h => hsub ?_⟩
          rwa [← honward'.keeps.isSubquery hfits.lt_size]
      | _ => exact Expresses.of_plain plain_unknownToken t hs

/-! ## Operands -/

theorem expresses_factor (rule : String) :
    Expresses env limit whole levels (factor deeper rule) (factor other rule) := by
  intro s hs
  refine .look ?_
  split
  · exact hd.expresses (by simp) s hs
  · exact hd.expresses (by simp) s hs
  · exact expresses_primary hd rule s hs

theorem expresses_term (rule : String) :
    Expresses env limit whole levels (term deeper rule) (term other rule) :=
  .leftChain (expresses_factor hd rule)
    (connects_either (fun _ _ => ⟨rfl, rfl⟩) fun _ _ => ⟨rfl, rfl⟩) (expresses_factor hd _)

/-- **Operands fit.** -/
theorem expresses_operand (rule : String) :
    Expresses env limit whole levels (operand deeper rule) (operand other rule) :=
  .leftChain (expresses_term hd rule)
    (connects_either (fun _ _ => ⟨rfl, rfl⟩) fun _ _ => ⟨rfl, rfl⟩) (expresses_term hd _)

theorem expresses_scalar : Expresses env limit whole levels (scalar deeper) (scalar other) :=
  expresses_operand hd _

/-! ## Conditions -/

theorem expresses_inItem (ofTypes : Bool) :
    Collects env limit whole levels [] (inItem deeper ofTypes) (inItem other ofTypes) single := by
  refine .look fun name? => ?_
  cases name? with
  | none => exact (expresses_operand hd _).collects
  | some name =>
    dsimp only
    split
    · exact collects_entityType name
    · exact (expresses_operand hd _).collects

theorem collects_inItems (left : NodeId) :
    Collects env limit whole levels [] (inItems deeper left) (inItems other left) id := by
  have hparameter : Collects env limit whole levels [] (do return [← primary deeper RuleId.inItem])
      (do return [← primary other RuleId.inItem]) id :=
    (expresses_primary hd _).collects.bind fun _ => collects_pure (List.Subset.refl _)
  refine .look fun kind => ?_
  split
  · exact hparameter
  · exact hparameter
  refine (collects_expect .leftParen).bind fun found => ?_
  cases found with
  | false => exact (collects_missing _).bind fun _ => collects_pure (List.Subset.refl _)
  | true =>
    refine .look fun atSelect => ?_
    cases atSelect with
    | true =>
      have hsubquery : Collects env limit whole levels [] (deeper .subquery) (other .subquery) single :=
        (hd.nests .subquery).weaken (fun _ _ => trivial) fun _ _ h => .singleton h.1
      exact hsubquery.bind fun _ => (collects_discard_expect _).bind fun _ =>
        collects_pure (List.Subset.refl _)
    | false =>
      refine .kindOf fun kind => ?_
      have hitems : ∀ ofTypes, Collects env limit whole levels [] (do
          let items ← separated (inItem deeper ofTypes)
          discard (expect .rightParen)
          return items) (do
          let items ← separated (inItem other ofTypes)
          discard (expect .rightParen)
          return items) id := fun ofTypes =>
        (collects_separated (expresses_inItem hd ofTypes)).bind fun _ =>
          (collects_discard_expect _).bind fun _ => collects_pure (List.Subset.refl _)
      split <;> exact hitems _

omit hd in
theorem collects_isCheck (left : NodeId) :
    Nests env limit (Fits whole levels [left]) (isCheck left) (isCheck left) fun kind s =>
      Fits whole levels kind.children s ∧ kind.isFlat whole = true := by
  have hpure : ∀ kind : NodeKind, kind.children = [left] → kind.isFlat whole = true →
      Nests env limit (Fits whole levels [left]) (pure kind) (pure kind) fun kind s =>
        Fits whole levels kind.children s ∧ kind.isFlat whole = true :=
    fun kind hchildren hflat s hs h => .pure hs ⟨hchildren ▸ h, hflat⟩
  refine (collects_consume _).bind fun negated => (collects_consume _).bind fun isEmpty => ?_
  split
  · exact (collects_asCollection left).bind fun _ => hpure _ rfl rfl
  · refine (collects_consume _).bind fun isNull => ?_
    split
    · exact (collects_recordHere rfl _).bind fun _ => hpure _ rfl rfl
    · exact hpure _ rfl rfl

/-- What a condition becomes is a node over operands that fit. -/
theorem collects_conditionRest? (left : NodeId) (negated : Bool) :
    Nests env limit (Fits whole levels [left]) (conditionRest? deeper left negated)
      (conditionRest? other left negated) fun kind? s =>
        ∀ kind ∈ kind?, Fits whole levels kind.children s ∧ kind.isFlat whole = true := by
  have hscalar : ∀ {gathered : List NodeId}, Collects env limit whole levels gathered (scalar deeper)
      (scalar other) fun id => gathered ++ [id] := (expresses_scalar hd).gathers
  have hsome : ∀ {gathered : List NodeId} {kind : NodeKind}, kind.children ⊆ gathered →
      kind.isFlat whole = true → Nests env limit (Fits whole levels gathered) (pure (some kind))
        (pure (some kind)) fun kind? s =>
          ∀ kind ∈ kind?, Fits whole levels kind.children s ∧ kind.isFlat whole = true :=
    fun hsub hflat s hs h => .pure hs (by rintro _ ⟨⟩; exact ⟨h.subset hsub, hflat⟩)
  refine .look fun kind => ?_
  split
  · refine collects_advance.bind fun _ => hscalar.bind fun lower => ?_
    exact (collects_expectKeyword .and).bind fun _ => hscalar.bind fun upper =>
      hsome (List.Subset.refl _) rfl
  · refine collects_advance.bind fun _ => hscalar.bind fun pattern => ?_
    refine (collects_consume _).bind fun hasEscape => ?_
    split
    · exact hscalar.bind fun escape => hsome (List.Subset.refl _) rfl
    · exact hsome (List.Subset.refl _) rfl
  · exact collects_advance.bind fun _ => (collects_inItems hd left).gathers.bind fun items =>
      hsome (List.Subset.refl _) rfl
  · refine collects_advance.bind fun _ => (collects_consume _).bind fun hasOf => ?_
    refine (expresses_operand hd _).gathers.bind fun collection => ?_
    exact (collects_asCollection _).bind fun _ => hsome (List.Subset.refl _) rfl
  · exact collects_advance.bind fun _ => (collects_isCheck left).bind fun kind s hs h =>
      .pure hs (by rintro _ ⟨⟩; exact h)
  · exact fun s hs _ => .pure hs (by rintro _ ⟨⟩)

/-- What follows the first operand, and perhaps `NOT`. -/
theorem continues_rest (left : NodeId) (start : Nat) (negated : Bool) :
    Nests env limit (Fits whole levels [left]) (conditionRest deeper left start negated)
      (conditionRest other left start negated) (Continues whole levels left) := by
  intro s hs hfits
  refine (collects_conditionRest? hd left negated s hs hfits).bind fun kind? t honward hkind => ?_
  cases kind? with
  | some kind =>
    obtain ⟨hchildren, hflat⟩ := hkind kind rfl
    exact continues_pushFrom hflat (List.Subset.refl _) t honward.proper hchildren
  | none => exact .pure honward.proper ⟨hfits.keeps honward.keeps, .inl rfl⟩

theorem continues_afterOperand (left : NodeId) (start : Nat) :
    Nests env limit (Fits whole levels [left]) (afterOperand deeper left start)
      (afterOperand other left start) (Continues whole levels left) := by
  refine .look fun operator? => ?_
  cases operator? with
  | some operator =>
    exact collects_advance.bind fun _ => (expresses_operand hd _).gathers.bind fun right =>
      continues_pushFrom rfl (List.Subset.refl _)
  | none =>
    refine .look fun negated => ?_
    cases negated with
    | false => exact continues_rest hd left start false
    | true => exact collects_advance.bind fun _ => continues_rest hd left start true

/-- **Simple conditions fit.** -/
theorem expresses_simpleCondition (rule : String) :
    Expresses env limit whole levels (simpleCondition deeper rule) (simpleCondition other rule) := by
  intro s hs
  refine (expresses_operand hd rule s hs).bind fun left t honward ⟨hleft, hsub⟩ => ?_
  have hrest : Nests env limit (Fits whole levels [left]) (startOf left >>= afterOperand deeper left)
      (startOf left >>= afterOperand other left) (Continues whole levels left) :=
    .startOf fun start => continues_afterOperand hd left start
  refine (hrest t honward.proper (.singleton hleft)).mono fun id u honward' ⟨hid, hwhich⟩ =>
    ⟨hid.head, fun h => ?_⟩
  rcases hwhich with rfl | hno
  · exact hsub (by rwa [← honward'.keeps.isSubquery hleft.lt_size])
  · exact absurd h (by simp [hno])

theorem expresses_negatable (rule : String) :
    Expresses env limit whole levels (negatable deeper rule) (negatable other rule) := by
  intro s hs
  refine .look ?_
  cases (s.stream env).checkKeyword .not with
  | true => exact hd.expresses (by simp) s hs
  | false => exact expresses_simpleCondition hd rule s hs

omit hd in
theorem connects_connective (word : Keyword) (which : Connective) :
    Connects env limit whole (connective word which) := by
  intro s hs
  refine (descent_consume _ hs).bind fun found t honward _ => ?_
  cases found with
  | true => exact .pure honward.proper (by rintro _ ⟨⟩ _ _; exact ⟨rfl, rfl⟩)
  | false => exact .pure honward.proper (by rintro _ ⟨⟩)

theorem expresses_conjunction (rule : String) :
    Expresses env limit whole levels (conjunction deeper rule) (conjunction other rule) :=
  .leftChain (expresses_negatable hd rule) (connects_connective _ _) (expresses_negatable hd rule)

/-- **Conditions fit.** -/
theorem expresses_disjunction (rule : String) :
    Expresses env limit whole levels (disjunction deeper rule) (disjunction other rule) :=
  .leftChain (expresses_conjunction hd rule) (connects_connective _ _) (expresses_conjunction hd rule)

theorem expresses_condition : Expresses env limit whole levels (condition deeper) (condition other) :=
  expresses_disjunction hd _

end

end Jpql.Parse
