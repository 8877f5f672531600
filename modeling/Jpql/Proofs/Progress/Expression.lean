import Jpql.Proofs.Place.Tree
import Jpql.Proofs.Progress.Arrival
import Jpql.Proofs.Reader.Run

/-! # Expressions on their way

One lemma for each reader from recovery up to conditions. What is nested is read by two readers that go
on by a token where they are called (`Deeper.Proceeding`), and they are called at tokens only that such a
construct may start with. So a primary expression moves over a token, or it is missing and reported
(`primary_run`). -/

namespace Jpql.Parse

variable {env : Env} {isName : String → Prop} {low : Nat} {s : State}

/-! ## Recovery -/

theorem proceeds_pushUnknown (span : Span) (text : String) (key : ProblemKey) (argument : String) :
    Proceeds env isName (pushUnknown span text key argument) (pushUnknown span text key argument)
      fun _ => True :=
  (Proceeds.push nofun span).andThen fun _ => (Proceeds.record _).andThen fun _ => .pure trivial

theorem proceeds_missing (what : String) :
    Proceeds env isName (missing what) (missing what) fun _ => True :=
  .look fun span => (Proceeds.push nofun span).andThen fun _ =>
    (Proceeds.record _).andThen fun _ => .pure trivial

theorem proceeds_missingVariable :
    Proceeds env isName missingVariable missingVariable fun _ => True := .look fun _ => .record _

theorem proceeds_missingClause (clause : String) :
    Proceeds env isName (missingClause clause) (missingClause clause) fun _ => True :=
  .look fun _ => .record _

/-- A token without a place is moved over. -/
theorem alongside_unknownToken (h : env.Regular isName) (hs : Arrived env isName low s)
    (hkind : (s.stream env).kind ≠ .eof) :
    Alongside env isName (s.position + 1) s unknownToken unknownToken fun _ => True :=
  .look (.look ((Alongside.advance h hs hkind).bind fun _ _ => proceeds_pushUnknown _ _ _ _))

/-- **What lies too deep is moved over**, one token at least. -/
theorem alongside_skipTooDeep (h : env.Regular isName) (hs : Arrived env isName low s)
    (heof : (s.stream env).kind ≠ .eof) (hclose : (s.stream env).kind ≠ .rightParen) :
    Alongside env isName (s.position + 1) s skipTooDeep skipTooDeep fun _ => True := by
  have hskip : Alongside env isName (s.position + 1) s
      (step fun stream => ((), stream.skipLevel env.tokens.size 0))
      (step fun stream => ((), stream.skipLevel env.tokens.size 0)) fun _ => True := by
    obtain ⟨_, _, hrun, -, hnext, -⟩ := Alongside.advance h hs heof
    cases hrun
    obtain ⟨bound, hbound⟩ : ∃ bound, env.tokens.size = bound + 1 :=
      ⟨env.tokens.size - 1, by have := h.size_pos; omega⟩
    rw [hbound]
    have hforward := TokenStream.skipLevel_advance heof hclose bound 0
    have hinside : (s.stream env).advance.position ≤ (s.stream env).advance.tokens.size - 1 := by
      rw [TokenStream.tokens_advance]
      exact hnext.inside
    have hbounds := hforward.bounds hinside
    rw [TokenStream.tokens_advance] at hbounds
    exact ⟨_, _, rfl, rfl, ⟨⟨hs.nodes, hs.owner⟩, Nat.le_trans hnext.low_le hbounds.1, hbounds.2⟩,
      trivial⟩
  refine .read (.look (hskip.bind fun _ _ => ?_))
  exact .look fun span => proceeds_pushUnknown _ _ _ _

theorem proceeds_trailingText :
    Proceeds env isName trailingText trailingText fun _ => True := by
  refine .look fun atEnd => ?_
  cases atEnd with
  | true => exact .pure trivial
  | false =>
    have hend : Proceeds env isName (step fun stream => ((), stream.seek env.tokens.size))
        (step fun stream => ((), stream.seek env.tokens.size)) fun _ => True := fun low s hs => by
      have hle := Nat.le_trans hs.low_le hs.inside
      have hposition : min env.tokens.size (env.tokens.size - 1) = env.tokens.size - 1 := by omega
      exact ⟨_, _, rfl, rfl, hs.move (Nat.le_trans hle (Nat.le_of_eq hposition.symm)) (Nat.min_le_right _ _),
        trivial⟩
    exact .read (.look fun start => hend.andThen fun _ =>
      (proceeds_pushUnknown _ _ _ _).andThen fun _ => .pure trivial)

/-! ## Variables and paths -/

theorem proceeds_pushVariable {name : String} (hname : isName name) (span : Span) :
    Proceeds env isName (pushVariable name span) (pushVariable name span) fun _ => True :=
  .push (by rintro _ ⟨⟩; exact hname) span

theorem proceeds_pushVirtualPath {owner : String} (howner : isName owner) (field : Located String)
    (segments : List (Located String)) (dot : Bool) :
    Proceeds env isName (pushVirtualPath owner field segments dot)
      (pushVirtualPath owner field segments dot) fun _ => True :=
  (Proceeds.push (by rintro _ ⟨⟩; exact howner) _).andThen fun _ => .pushFrom rfl _

/-- **A variable or a path moves over the word it starts with.** -/
theorem alongside_pathOrVariable (h : env.Regular isName) (hs : Arrived env isName low s)
    (hkind : (s.stream env).kind.isWord = true) :
    Alongside env isName (s.position + 1) s pathOrVariable pathOrVariable fun _ => True := by
  have hname := h.isName_currentText hkind
  have heof : (s.stream env).kind ≠ .eof := fun hend => by
    rw [hend] at hkind
    cases hkind
  refine .look (.look ((Alongside.advance h hs heof).bind fun _ _ => ?_))
  refine Proceeds.segments.andThen fun (segments, dot) => .virtualFor? fun owner? howner => ?_
  cases owner? with
  | some owner =>
    refine (proceeds_pushVirtualPath (howner owner rfl) _ segments dot).andThen fun path => ?_
    split
    · exact .push (by rintro _ ⟨⟩; exact hname) _
    · exact .pure trivial
  | none =>
    refine (proceeds_pushVariable hname _).andThen fun root => ?_
    split
    · exact .pure trivial
    · exact .pushFrom rfl _

theorem proceeds_continuePath (root : NodeId) (start : Nat) :
    Proceeds env isName (continuePath root start) (continuePath root start) fun _ => True := by
  refine .look fun atDot => ?_
  cases atDot with
  | true => exact Proceeds.segments.andThen fun (_, _) => .pushFrom rfl _
  | false => exact .pure trivial

theorem proceeds_updateTarget (h : env.Regular isName) :
    Proceeds env isName updateTarget updateTarget fun _ => True := by
  refine .identifier? h fun name? hname => ?_
  cases name? with
  | none => exact proceeds_missing _
  | some name =>
    refine .look fun span => Proceeds.advance.andThen fun _ =>
      Proceeds.segments.andThen fun (segments, dot) => .virtualFor? fun owner? howner => ?_
    cases owner? with
    | some owner => exact proceeds_pushVirtualPath (howner owner rfl) _ segments dot
    | none => exact (proceeds_pushVariable (hname name rfl) _).andThen fun _ => .pushFrom rfl _

theorem proceeds_declaredVariable? (h : env.Regular isName) :
    Proceeds env isName declaredVariable? declaredVariable? fun _ => True := by
  refine .identifier? h fun name? hname => ?_
  cases name? with
  | none => exact .pure trivial
  | some name =>
    exact .look fun span => Proceeds.advance.andThen fun _ =>
      (proceeds_pushVariable (hname name rfl) span).andThen fun _ => .pure trivial

theorem proceeds_entityType (name : String) :
    Proceeds env isName (entityType name) (entityType name) fun _ => True :=
  .look fun _ => Proceeds.advance.andThen fun _ => .push nofun _

/-! ## Primaries -/

/-- A node without children is read off one token. -/
theorem alongside_leaf (h : env.Regular isName) (hs : Arrived env isName low s)
    (hkind : (s.stream env).kind ≠ .eof) {kind : NodeKind} (hleaf : kind.Nameless) :
    Alongside env isName (s.position + 1) s (leaf kind) (leaf kind) fun _ => True :=
  .look ((Alongside.advance h hs hkind).bind fun _ _ => .pushFrom hleaf _)

/-- Paths are built from words. -/
theorem Env.Regular.isWord_of_builds (h : env.Regular isName) {trigger : Trigger}
    {stream : TokenStream} (htrigger : trigger? stream = some trigger)
    (hbuilds : env.grammar.Builds .path trigger) : stream.kind.isWord = true := by
  have hpath : ∀ factory ∈ Grammar.standardFactories, factory.construct = .path →
      factory.triggers = [.identifier] := by decide
  obtain ⟨factory, hmem, hconstruct, hmatch⟩ := hbuilds
  rw [h.standard] at hmem
  rw [hpath factory hmem hconstruct, List.mem_singleton] at hmatch
  subst hmatch
  unfold trigger? at htrigger
  split at htrigger
  · next hkind => rw [hkind]; rfl
  · cases hkind : stream.kind <;> simp_all [Trigger.ofKind?, TokenKind.isWord]

theorem Env.Regular.selects (h : env.Regular isName) : env.grammar.SelectsByWord := by
  rw [h.standard]
  exact Grammar.standard_selectsByWord

/-- **An expression is missing**: a new node without width stands for it, and one problem says so. Nothing
else changes. -/
def Missing (what : String) (s : State) (id : NodeId) (t : State) : Prop :=
  id = s.draft.size ∧ ∃ offset, t = s.write ((s.draft.push .bad (.point offset)).record
    ⟨.missingExpression, [what], .point offset, some s.draft.size⟩)

theorem missing_run (what : String) (env : Env) (s : State) :
    ∃ id t, missing what env s = .ok (id, t) ∧ Missing what s id t := ⟨_, _, rfl, rfl, _, rfl⟩

theorem Missing.arrived {what : String} {id : NodeId} {t : State} (hs : Arrived env isName low s)
    (h : Missing what s id t) : Arrived env isName low t := by
  obtain ⟨-, offset, rfl⟩ := h
  have hbad : ∀ name ∈ NodeKind.bad.variableName?, isName name := nofun
  exact (hs.push hbad (.point offset)).record _

/-- **Where a nested construct may start, both readers go on by a token at least**, alike. -/
structure Deeper.Proceeding (env : Env) (isName : String → Prop) (deeper other : Deeper) : Prop where
  regular : env.Regular isName
  reads : ∀ construct low s, construct.Legal env → construct.Ahead (s.stream env).kind →
    Arrived env isName low s →
    Alongside env isName (s.position + 1) s (deeper construct) (other construct) fun _ => True

section

variable {deeper other : Deeper} (hd : deeper.Proceeding env isName other)

include hd

/-- Where a nested construct may start, it is read. -/
theorem Deeper.Proceeding.goesOn {construct : Nested} (hlegal : construct.Legal env)
    (hahead : construct.Ahead (s.stream env).kind) (hs : Arrived env isName low s) :
    Alongside env isName low s (deeper construct) (other construct) fun _ => True :=
  (hd.reads construct low s hlegal hahead hs).weaken (Nat.le_succ_of_le hs.low_le)

/-- **A construct is read where it may start**, and moves over a token at least. -/
theorem alongside_build (construct : Construct) (hs : Arrived env isName low s)
    (hahead : construct.Ahead (s.stream env).kind) (heof : (s.stream env).kind ≠ .eof)
    (hword : construct = .path → (s.stream env).kind.isWord = true) :
    Alongside env isName (s.position + 1) s (build deeper construct) (build other construct)
      fun _ => True := by
  have hleaf : ∀ {kind : NodeKind}, kind.Nameless →
      Alongside env isName (s.position + 1) s (leaf kind) (leaf kind) fun _ => True :=
    alongside_leaf hd.regular hs heof
  have hunknown := alongside_unknownToken hd.regular hs heof
  cases construct
  case selectStatement => exact hd.reads .subquery low s trivial hahead hs
  case simpleSelectStatement => exact hd.reads .subquery low s trivial hahead hs
  case updateStatement => exact hunknown
  case deleteStatement => exact hunknown
  case group => exact hd.reads .group low s trivial hahead hs
  case path => exact alongside_pathOrVariable hd.regular hs (hword rfl)
  case number => exact .look (hleaf rfl)
  case string => exact .look (by split <;> exact hleaf rfl)
  case wordLiteral => exact .look (hleaf rfl)
  case moment => exact .look (hleaf rfl)
  case parameter =>
    refine .look ?_
    split
    · exact hleaf rfl
    · exact hleaf rfl
    · exact hunknown
  all_goals exact hd.reads (.call _) low s trivial hahead hs

omit hd in
/-- The grammar answers under a rule that it has. -/
theorem alike_dispatch {rule : String} (hrule : (env.grammar.rule? rule).isSome = true)
    (trigger : Trigger) :
    Alike env s (dispatch rule trigger) (dispatch rule trigger) fun construct? t =>
      t = s ∧ env.grammar.dispatch rule trigger = .ok construct? := by
  cases hdispatch : env.grammar.dispatch rule trigger with
  | ok construct? =>
    have hrun : dispatch rule trigger env s = .ok (construct?, s) := by
      rw [dispatch_run, hdispatch]
      rfl
    exact ⟨construct?, s, hrun, hrun, rfl, rfl⟩
  | error error =>
    rw [(Grammar.dispatch_eq_error.mp hdispatch).1] at hrule
    cases hrule

/-- **A primary expression, from any state.** Both readers succeed, alike: they move over a token at least,
or the expression is missing. -/
theorem alike_primary {rule : String} (hrule : (env.grammar.rule? rule).isSome = true)
    (hs : s.Named isName) : Alike env s (primary deeper rule) (primary other rule) fun id t =>
      Arrived env isName (s.position + 1) t ∨ Missing rule s id t := by
  have hmissing : Alike env s (missing rule) (missing rule) fun id t =>
      Arrived env isName (s.position + 1) t ∨ Missing rule s id t := by
    obtain ⟨id, t, hrun, h⟩ := missing_run rule env s
    exact ⟨id, t, hrun, hrun, .inr h⟩
  refine .look ?_
  cases htrigger : trigger? (s.stream env) with
  | none => exact hmissing
  | some trigger =>
    obtain ⟨heof, hclose, hword⟩ := kind_of_trigger? htrigger
    have hhere : Arrived env isName s.position s :=
      ⟨hs, Nat.le_refl _, Nat.le_of_lt (hd.regular.lt_of_kind heof)⟩
    have hgrammar := hd.regular.selects
    refine (alike_dispatch hrule trigger).bind ?_
    rintro construct? t ⟨rfl, hdispatch⟩
    cases construct? with
    | some construct =>
      have hbuild := alongside_build hd construct hhere
        (hgrammar.ahead_of_dispatch hdispatch heof hclose hword) heof
        fun hpath => hd.regular.isWord_of_builds htrigger
          (hpath ▸ Grammar.builds_of_dispatch hdispatch)
      exact hbuild.mono fun _ _ ⟨ht, _⟩ => .inl ht
    | none =>
      cases trigger with
      | keyword word =>
        refine .read ?_
        cases hfor : env.grammar.forKeyword? word with
        | none => exact hmissing
        | some construct =>
          have hahead := hgrammar.ahead_of_forKeyword? hfor
          rw [← hword word rfl] at hahead
          have hbuild := alongside_build hd construct hhere hahead heof fun hpath =>
            hd.regular.isWord_of_builds htrigger (hpath ▸ Grammar.builds_of_forKeyword? hfor)
          have hreported : Alongside env isName _ t _ _ fun _ => True := hbuild.bind fun id _ =>
            (Proceeds.record { (t.stream env).problemHere .expressionNotAllowed
              [(t.stream env).currentText, rule] with anchor := some id }).andThen fun _ =>
                .pure (a := id) trivial
          exact .look (hreported.mono fun _ _ ⟨ht, _⟩ => .inl ht)
      | _ =>
        exact (alongside_unknownToken hd.regular hhere heof).mono fun _ _ ⟨ht, _⟩ => .inl ht

/-- **A primary expression** under a rule of the grammar. -/
theorem proceeds_primary {rule : String} (hrule : (env.grammar.rule? rule).isSome = true) :
    Proceeds env isName (primary deeper rule) (primary other rule) fun _ => True := fun low s hs =>
  (alike_primary hd hrule hs.toNamed).mono fun _ _ ht => by
    rcases ht with ht | ht
    · exact ⟨ht.weaken (Nat.le_succ_of_le hs.low_le), trivial⟩
    · exact ⟨ht.arrived hs, trivial⟩

/-! ## Operands -/

theorem proceeds_factor {rule : String} (hrule : (env.grammar.rule? rule).isSome = true) :
    Proceeds env isName (factor deeper rule) (factor other rule) fun _ => True := by
  intro low s hs
  have hsign : ∀ negative, (s.stream env).kind ≠ .eof ∧ (s.stream env).kind ≠ .rightParen →
      Alongside env isName low s (deeper (.sign negative)) (other (.sign negative)) fun _ => True :=
    fun _ hahead => hd.goesOn trivial hahead hs
  refine .look ?_
  split
  · next hkind => exact hsign true (by rw [hkind]; exact ⟨nofun, nofun⟩)
  · next hkind => exact hsign false (by rw [hkind]; exact ⟨nofun, nofun⟩)
  · exact proceeds_primary hd hrule low s hs

theorem proceeds_term {rule : String} (hrule : (env.grammar.rule? rule).isSome = true) :
    Proceeds env isName (term deeper rule) (term other rule) fun _ => True :=
  .leftChain (proceeds_factor hd hrule) (operatorProceeds_either (fun _ _ => rfl) fun _ _ => rfl)
    (proceeds_factor hd (hd.regular.rule (Grammar.standard_registers (by simp))))

/-- **Operands are read.** -/
theorem proceeds_operand {rule : String} (hrule : (env.grammar.rule? rule).isSome = true) :
    Proceeds env isName (operand deeper rule) (operand other rule) fun _ => True :=
  .leftChain (proceeds_term hd hrule) (operatorProceeds_either (fun _ _ => rfl) fun _ _ => rfl)
    (proceeds_term hd (hd.regular.rule (Grammar.standard_registers (by simp))))

theorem proceeds_scalar : Proceeds env isName (scalar deeper) (scalar other) fun _ => True :=
  proceeds_operand hd (hd.regular.rule (Grammar.standard_registers (by simp)))

/-! ## Conditions -/

theorem proceeds_inItem (ofTypes : Bool) :
    Proceeds env isName (inItem deeper ofTypes) (inItem other ofTypes) fun _ => True := by
  have hrule : (env.grammar.rule? RuleId.inItem).isSome = true :=
    hd.regular.rule (Grammar.standard_registers (by simp))
  have hoperand := proceeds_operand hd hrule
  refine .look fun name? => ?_
  cases name? with
  | none => exact hoperand
  | some name =>
    dsimp only
    split
    · exact proceeds_entityType name
    · exact hoperand

theorem proceeds_inItems (left : NodeId) :
    Proceeds env isName (inItems deeper left) (inItems other left) fun _ => True := by
  have hparameter : Proceeds env isName (do return [← primary deeper RuleId.inItem])
      (do return [← primary other RuleId.inItem]) fun _ => True :=
    (proceeds_primary hd (hd.regular.rule (Grammar.standard_registers (by simp)))).andThen fun _ =>
      .pure trivial
  refine .look fun kind => ?_
  split
  · exact hparameter
  · exact hparameter
  refine (Proceeds.expect .leftParen).andThen fun found => ?_
  cases found with
  | false => exact (proceeds_missing _).andThen fun _ => .pure trivial
  | true =>
    have hitems : ∀ ofTypes, Proceeds env isName (do
        let items ← separated (inItem deeper ofTypes)
        discard (expect .rightParen)
        return items) (do
        let items ← separated (inItem other ofTypes)
        discard (expect .rightParen)
        return items) fun _ => True := fun ofTypes =>
      (Proceeds.separated (proceeds_inItem hd ofTypes)).andThen fun _ =>
        (Proceeds.discard_expect _).andThen fun _ => .pure trivial
    refine .ifKeyword (fun low s hs hselect => ?_) (.kindOf fun kind => by split <;> exact hitems _)
    have hquery : Alongside env isName low s (deeper .subquery) (other .subquery) fun _ => True :=
      hd.goesOn trivial hselect hs
    exact hquery.bind fun _ _ =>
      (Proceeds.discard_expect _).andThen fun _ => .pure trivial

omit hd in
theorem proceeds_isCheck (left : NodeId) :
    Proceeds env isName (isCheck left) (isCheck left) NodeKind.Nameless := by
  refine (Proceeds.consumeKeyword _).andThen fun negated =>
    (Proceeds.consumeKeyword _).andThen fun isEmpty => ?_
  split
  · exact (Proceeds.asCollection left).andThen fun _ => .pure rfl
  · refine (Proceeds.consumeKeyword _).andThen fun isNull => ?_
    split
    · exact (Proceeds.recordHere _ _).andThen fun _ => .pure rfl
    · exact .pure rfl

/-- What a condition becomes is no variable. -/
theorem proceeds_conditionRest? (left : NodeId) (negated : Bool) :
    Proceeds env isName (conditionRest? deeper left negated) (conditionRest? other left negated)
      fun kind? => ∀ kind ∈ kind?, kind.Nameless := by
  have hsome : ∀ {kind : NodeKind}, kind.Nameless →
      Proceeds env isName (pure (some kind)) (pure (some kind)) fun kind? =>
        ∀ kind ∈ kind?, kind.Nameless := fun h => .pure (by rintro _ ⟨⟩; exact h)
  have hscalar := proceeds_scalar hd
  refine .look fun kind => ?_
  split
  · refine Proceeds.advance.andThen fun _ => hscalar.andThen fun lower => ?_
    exact (Proceeds.expectKeyword .and).andThen fun _ => hscalar.andThen fun upper => hsome rfl
  · refine Proceeds.advance.andThen fun _ => hscalar.andThen fun pattern => ?_
    refine (Proceeds.consumeKeyword _).andThen fun hasEscape => ?_
    split
    · exact hscalar.andThen fun escape => hsome rfl
    · exact hsome rfl
  · exact Proceeds.advance.andThen fun _ => (proceeds_inItems hd left).andThen fun items => hsome rfl
  · refine Proceeds.advance.andThen fun _ => (Proceeds.consumeKeyword _).andThen fun hasOf => ?_
    refine (proceeds_operand hd (hd.regular.rule (Grammar.standard_registers (by simp)))).andThen
      fun collection => ?_
    exact (Proceeds.asCollection _).andThen fun _ => hsome rfl
  · exact Proceeds.advance.andThen fun _ => (proceeds_isCheck left).bind fun kind hkind => hsome hkind
  · exact .pure (by rintro _ ⟨⟩)

/-- **Simple conditions are read.** -/
theorem proceeds_simpleCondition {rule : String} (hrule : (env.grammar.rule? rule).isSome = true) :
    Proceeds env isName (simpleCondition deeper rule) (simpleCondition other rule) fun _ => True := by
  refine (proceeds_operand hd hrule).andThen fun left => .startOf fun start => .look fun operator? => ?_
  cases operator? with
  | some operator =>
    refine Proceeds.advance.andThen fun _ => ?_
    exact (proceeds_operand hd (hd.regular.rule (Grammar.standard_registers (by simp)))).andThen
      fun right => .pushFrom rfl _
  | none =>
    have hrest : ∀ negated, Proceeds env isName (conditionRest deeper left start negated)
        (conditionRest other left start negated) fun _ => True := fun negated =>
      (proceeds_conditionRest? hd left negated).bind fun kind? hkind => by
        cases kind? with
        | some kind => exact .pushFrom (hkind kind rfl) _
        | none => exact .pure trivial
    refine .look fun negated => ?_
    cases negated with
    | false => exact hrest false
    | true => exact Proceeds.advance.andThen fun _ => hrest true

theorem proceeds_negatable {rule : String} (hrule : (env.grammar.rule? rule).isSome = true) :
    Proceeds env isName (negatable deeper rule) (negatable other rule) fun _ => True := by
  refine .ifKeyword (fun low s hs hnot => ?_) (proceeds_simpleCondition hd hrule)
  have hahead : (Nested.negation rule).Ahead (s.stream env).kind := by
    rw [hnot]; exact ⟨nofun, nofun⟩
  exact hd.goesOn hrule hahead hs

omit hd in
theorem operatorProceeds_connective (word : Keyword) (which : Connective) :
    OperatorProceeds env isName (connective word which) := by
  refine (Proceeds.consumeKeyword word).andThen fun found => ?_
  cases found with
  | true => exact .pure (by rintro _ ⟨⟩ _ _; rfl)
  | false => exact .pure (by rintro _ ⟨⟩)

theorem proceeds_conjunction {rule : String} (hrule : (env.grammar.rule? rule).isSome = true) :
    Proceeds env isName (conjunction deeper rule) (conjunction other rule) fun _ => True :=
  .leftChain (proceeds_negatable hd hrule) (operatorProceeds_connective _ _) (proceeds_negatable hd hrule)

/-- **Conditions are read.** -/
theorem proceeds_disjunction {rule : String} (hrule : (env.grammar.rule? rule).isSome = true) :
    Proceeds env isName (disjunction deeper rule) (disjunction other rule) fun _ => True :=
  .leftChain (proceeds_conjunction hd hrule) (operatorProceeds_connective _ _) (proceeds_conjunction hd hrule)

theorem proceeds_condition : Proceeds env isName (condition deeper) (condition other) fun _ => True :=
  proceeds_disjunction hd (hd.regular.rule (Grammar.standard_registers (by simp)))

end

end Jpql.Parse
