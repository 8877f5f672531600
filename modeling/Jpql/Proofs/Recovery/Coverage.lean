import Jpql.Proofs.Reader.Cover
import Jpql.Proofs.Tree.WellFormed

/-! # No text is dropped

Every token of a text lies in the span of the statement or in that of the text behind it, and the first
ends where the second starts or before (`parse_covers`). That there is text behind the statement means
that the reader of the statement stopped before the end.

* `Parse.level_covers`: nested constructs are covered, by induction on the number of levels.
* `Parse.start?_after`: what a text starts with covers all that was moved over. -/

namespace Jpql

namespace Parse

variable {env : Env} {s t : State} {deeper : Deeper} {rule : String}

/-! ## Nested constructs -/

section

variable (hd : deeper.Covers env)

include hd

theorem simpleSelect_covers : Covers env (simpleSelect deeper) := by
  refine .withoutVirtual (.of_ends hd.inOrder fun start => ?_)
  refine .bind (.of_agree fun _ S => S.selectClause (hd.steady _ S) true) fun select => ?_
  refine .bind (.of_agree fun _ S => S.fromClause? (hd.steady _ S) true) fun fromClause => ?_
  refine .bind (.of_agree fun _ S => S.whereClause? (hd.steady _ S)) fun whereClause => ?_
  refine .bind (.of_agree fun _ S => S.groupByClause? (hd.steady _ S)) fun groupBy => ?_
  exact .bind (.of_agree fun _ S => S.havingClause? (hd.steady _ S)) fun having => .pushFrom _ start

theorem negation_covers (rule : String) : Covers env (negation deeper rule) := by
  refine .of_ends hd.inOrder fun start => .bind passes_advance fun _ => ?_
  refine .bind (passes_consume _) fun isExists => ?_
  split
  · exact .bind (.of_agree fun _ S => S.parenSubquery (hd.steady _ S)) fun _ => .pushFrom _ start
  · exact .bind (.of_agree fun _ S => S.negatable (hd.steady _ S) rule) fun _ => .pushFrom _ start

theorem group_covers : Covers env (group deeper) := by
  refine .of_ends hd.inOrder fun start => .bind passes_advance fun _ => .look_bind fun isSubquery => ?_
  have hlast : ∀ expression : NodeId, Ends env start (do
      discard (expect .rightParen)
      pushFrom (.group expression) start) := fun expression =>
    .bind (.of_agree fun _ S => S.discard_expect _) fun _ => .pushFrom _ start
  dsimp only
  split
  · exact .bind (.of_agree fun _ S => S.simpleSelect (hd.steady _ S)) hlast
  · exact .bind (.of_agree fun _ S => S.condition (hd.steady _ S)) hlast

omit hd in
/-- Every construct that a keyword introduces has a reader. -/
theorem callBody_answers {construct : Construct} (hcall : construct.isCall = true)
    (word : TokenKind) : Answers env (callBody deeper construct word) := by
  cases construct
  case size => exact .bind fun _ => .bind fun _ => .some _
  case trim | treat | call | caseOf | constructor => exact .map _
  all_goals first | cases hcall; done | exact .bind fun _ => .some _

theorem call_covers {construct : Construct} (hcall : construct.isCall = true) :
    Covers env (call deeper construct) := by
  refine .of_ends hd.inOrder fun start => .look_bind fun word => .bind passes_advance fun _ => ?_
  intro s hs
  have hpasses : Passes env (callBody deeper construct word) :=
    .of_agree fun _ S => S.callBody (hd.steady _ S) construct word
  refine ((hpasses s hs).and (callBody_answers hcall word s)).bind fun kind? t ⟨ht, hanswer⟩ => ?_
  cases kind? with
  | none => exact absurd rfl hanswer
  | some kind =>
    refine (Ends.pushFrom kind start t ht.inside).bind fun id u ⟨hu, hid, hspan⟩ => ?_
    split
    · exact (continuePath_ends hid hspan hu.inside).mono fun _ _ ⟨hv, hother, hend⟩ =>
        ⟨(ht.trans hu).trans hv, hother, hend⟩
    · exact .pure ⟨ht.trans hu, hid, hspan⟩

theorem nested_covers {construct : Nested} (hread : construct.isRead = true) :
    Covers env (nested deeper construct) := by
  cases construct with
  | negation rule => exact negation_covers hd rule
  | sign negative => exact signed_covers hd negative
  | group => exact group_covers hd
  | subquery => exact simpleSelect_covers hd
  | call construct => exact call_covers hd hread

end

/-- **Nested constructs are covered at every level.** -/
theorem level_covers (h : env.InOrder) (levels : Nat) : (level levels).Covers env where
  inOrder := h
  steady := level_steady levels
  covers := by
    induction levels with
    | zero => exact fun _ _ => .skipTooDeep h
    | succ levels ih => exact fun _ hread => nested_covers ⟨h, level_steady levels, ih⟩ hread

/-! ## Statements -/

/-- **What a text starts with covers all that was moved over**; without it nothing was. -/
def Started (env : Env) (s : State) (statement : Option NodeId) (t : State) : Prop :=
  Passage env s t ∧ (statement = none → t.position = s.position) ∧
    ∀ id ∈ statement, Covered env s id t

theorem Covers.started {p : Parser NodeId} (hp : Covers env p) (hs : s.position ≤ env.tokens.size - 1) :
    After env (some <$> p) s (Started env s) :=
  .map ((hp s hs).mono fun id t hid => ⟨hid.passage, by simp, by rintro _ ⟨⟩; exact hid⟩)

section

variable (hd : deeper.Covers env)

include hd

theorem selectStatement_covers : Covers env (selectStatement deeper) := by
  refine .of_ends hd.inOrder fun start => ?_
  refine .bind (.of_agree fun _ S => S.selectClause (hd.steady _ S) false) fun select => ?_
  refine .bind (.of_agree fun _ S => S.fromClause? (hd.steady _ S) false) fun fromClause => ?_
  refine .bind (.of_agree fun _ S => S.whereClause? (hd.steady _ S)) fun whereClause => ?_
  refine .bind (.of_agree fun _ S => S.groupByClause? (hd.steady _ S)) fun groupBy => ?_
  refine .bind (.of_agree fun _ S => S.havingClause? (hd.steady _ S)) fun having => ?_
  exact .bind (.of_agree fun _ S => S.orderByClause? (hd.steady _ S)) fun orderBy => .pushFrom _ start

omit hd in
theorem passes_pushFrom {kind : NodeKind} (hplain : kind.isPlain = true) (start : Nat) :
    Passes env (pushFrom kind start) :=
  .of_agree fun _ S => S.pushFrom start start (.refl kind) hplain

theorem updateStatement_covers : Covers env (updateStatement deeper) := by
  refine .withoutVirtual (.of_ends hd.inOrder fun start => .bind passes_advance fun _ => ?_)
  refine .bind (.of_agree fun _ S => S.rangeDeclaration true) fun range => ?_
  refine .bind (.of_agree fun _ S => S.updateItems (hd.steady _ S)) fun items => ?_
  refine .bind (passes_pushFrom rfl start) fun update => ?_
  exact .bind (.of_agree fun _ S => S.whereClause? (hd.steady _ S)) fun _ => .pushFrom _ start

theorem deleteStatement_covers : Covers env (deleteStatement deeper) := by
  refine .withoutVirtual (.of_ends hd.inOrder fun start => .bind passes_advance fun _ => ?_)
  refine .bind (.of_agree fun _ S => S.expectKeyword .from) fun _ => ?_
  refine .bind (.of_agree fun _ S => S.rangeDeclaration true) fun range => ?_
  refine .bind (passes_pushFrom rfl start) fun delete => ?_
  exact .bind (.of_agree fun _ S => S.whereClause? (hd.steady _ S)) fun _ => .pushFrom _ start

theorem statement?_after (hs : s.position ≤ env.tokens.size - 1) :
    After env (statement? deeper rule) s (Started env s) := by
  have hconstruct : ∀ construct?, After env (statementOf deeper construct?) s (Started env s) := by
    intro construct?
    unfold statementOf
    split
    · exact (selectStatement_covers hd).started hs
    · exact (simpleSelect_covers hd).started hs
    · exact (updateStatement_covers hd).started hs
    · exact (deleteStatement_covers hd).started hs
    · refine .read_bind (.look_bind (.modify_bind (.pure ⟨?_, fun _ => rfl, by simp⟩)))
      exact (Passage.refl hs).record _
  refine .look_bind ?_
  split
  · refine (After.dispatch rule _).bind fun construct? t ht => ?_
    rw [ht]
    exact hconstruct construct?
  · exact hconstruct none

/-- **The start of a text covers all that was moved over.** -/
theorem start?_after (hs : s.position ≤ env.tokens.size - 1) :
    After env (start? deeper rule) s (Started env s) := by
  unfold start?
  split
  · exact statement?_after hd hs
  · exact (disjunction_covers hd rule).started hs

end

/-! ## Whole texts -/

/-- **The rest of a text** is a node from the current token to the end, if it is not the end yet. -/
theorem trailingText_after (hs : s.position ≤ env.tokens.size - 1) :
    After env trailingText s fun leftover t => Passage env s t ∧
      (leftover.isSome = !(s.stream env).atEnd) ∧ ∀ id ∈ leftover, id < t.draft.size ∧
        t.draft.span id = ⟨env.startAt s.position,
          max (Text.trimmedLength env.source) (env.startAt s.position)⟩ := by
  have hpasses : Passes env trailingText := .of_agree fun _ S => S.trailingText
  refine ((hpasses s hs).and (.look_bind ?_)).mono fun leftover t ⟨ht, hrest⟩ => ⟨ht, hrest⟩
  split
  · next hend =>
    rw [hend]
    exact .pure ⟨rfl, by simp⟩
  · next hend =>
    rw [Bool.not_eq_true] at hend
    rw [hend]
    refine .read_bind (.look_bind ((After.step _).bind ?_))
    rintro _ t ⟨-, rfl⟩
    refine (After.pushUnknown _ _ _ _).bind ?_
    rintro _ u ⟨rfl, rfl⟩
    refine .pure ⟨rfl, ?_⟩
    rintro _ ⟨⟩
    refine ⟨?_, Draft.span_push _ _ _⟩
    show s.draft.size < (s.draft.push _ _).size
    rw [Draft.size_push]
    exact Nat.lt_succ_self _

/-- **A text as a whole**: the reader of its start stops at a state `t`, and the spans of what it has
read, and of the rest, are those they had then. -/
theorem query_after (hd : deeper.Covers env) (hs : s.position ≤ env.tokens.size - 1) :
    After env (query deeper rule) s fun root u => ∃ statement leftover t,
      start? deeper rule env s = .ok (statement, t) ∧
      u.draft.kind root = .query statement leftover ∧ Passage env s t ∧
      (statement = none → t.position = s.position) ∧
      (∀ id ∈ statement, Spans env s t (u.draft.span id)) ∧
      (leftover.isSome = !(t.stream env).atEnd) ∧
      ∀ id ∈ leftover, u.draft.span id = ⟨env.startAt t.position,
        max (Text.trimmedLength env.source) (env.startAt t.position)⟩ := by
  refine ((start?_after hd hs).and fun statement t hrun => hrun).bind
    fun statement t ⟨⟨ht, hnone, hsome⟩, hrun⟩ => ?_
  refine (trailingText_after ht.inside).bind fun leftover v ⟨hv, hend, hrest⟩ => .read_bind ?_
  refine (After.push _ _).mono ?_
  rintro _ _ ⟨rfl, rfl⟩
  have hspan : ∀ id < v.draft.size, (v.draft.push (.query statement leftover)
      ⟨0, Text.byteLength env.source.toList⟩).span id = v.draft.span id := fun id hid =>
    Draft.span_push_of_lt _ _ _ hid
  refine ⟨statement, leftover, t, hrun, Draft.kind_push _ _ _, ht, hnone, fun id hid => ?_, hend,
    fun id hid => ?_⟩
  · have hlt := (hsome id hid).lt_size
    show Spans env s t ((v.draft.push _ _).span id)
    rw [hspan id (Nat.lt_of_lt_of_le hlt hv.size_le), hv.span_eq id hlt]
    exact (hsome id hid).spans
  · obtain ⟨hlt, heq⟩ := hrest id hid
    show (v.draft.push _ _).span id = _
    rw [hspan id hlt, heq]

/-- **A token that was moved over** lies in a span that covers it. -/
theorem Spans.contains (h : env.InOrder) {span : Span} (hspan : Spans env s t span)
    (ht : t.position < env.tokens.size) {i : Nat} (hs : s.position ≤ i) (hi : i < t.position)
    (hlt : i < env.tokens.size) :
    span.start ≤ env.tokens[i].span.start ∧ env.tokens[i].span.stop ≤ span.stop := by
  constructor
  · rw [← Env.InOrder.startAt_eq]
    exact Nat.le_trans hspan.start_le (h.startAt_mono hs hlt)
  · have hend := hspan.covers (Nat.lt_of_le_of_lt hs hi)
    obtain ⟨j, hj⟩ : ∃ j, t.position = j + 1 := ⟨t.position - 1, by omega⟩
    rw [hj, Env.InOrder.endBefore_succ (by omega)] at hend
    rcases Nat.lt_or_eq_of_le (show i ≤ j by omega) with hij | rfl
    · have horder := h.stop_le_start hij hlt (by omega)
      have hrange := h.start_le_stop (show j < env.tokens.size by omega)
      omega
    · exact hend

/-- **A token that was not moved over** is not the end, so there is a rest of the text, and it reaches
from the current token to the end. -/
theorem Env.InOrder.rest_contains (h : env.InOrder) {i : Nat} (hi : i < env.tokens.size)
    (heof : env.tokens[i].kind ≠ .eof) (ht : t.position ≤ i) :
    (t.stream env).atEnd = false ∧ env.startAt t.position ≤ env.tokens[i].span.start ∧
      env.tokens[i].span.stop ≤ Text.trimmedLength env.source := by
  have hlt := Nat.lt_of_le_of_lt ht hi
  refine ⟨?_, ?_, h.stop_le _ (Array.getElem_mem_toList hi) heof⟩
  · have hcurrent : (t.stream env).current = env.tokens[t.position] := Env.InOrder.current_eq hlt
    rw [TokenStream.atEnd, TokenStream.kind, hcurrent, beq_eq_false_iff_ne]
    intro hend
    have hlast := (h.eof_iff hlt).1.mp hend
    obtain rfl : i = t.position := by omega
    exact heof hend
  · rw [← Env.InOrder.startAt_eq]
    exact h.startAt_mono ht hi

end Parse

/-- The token lies in the span of the node. -/
def Tree.Contains (tree : Tree) (id : NodeId) (token : Token) : Prop :=
  (tree.span id).start ≤ token.span.start ∧ token.span.stop ≤ (tree.span id).stop

/-- **No text is dropped.** In every text, read from any rule there is and with any limit on nesting,
every token lies in the span of the statement or in that of the text behind it; the statement ends
before that starts; and there is text behind the statement if the reader of the statement stopped
before the end, and only then. -/
theorem parse_covers (source rule : String) (maxDepth : Nat)
    (hrule : (Grammar.standard.rule? rule).isSome = true) :
    ∃ parsed, parse source rule maxDepth = .ok parsed ∧ ∃ statement leftover,
      parsed.tree.kind parsed.tree.root = .query statement leftover ∧
      (∀ token ∈ (tokenize source).tokens, token.kind ≠ .eof →
        ∃ id, (id ∈ statement ∨ id ∈ leftover) ∧ parsed.tree.Contains id token) ∧
      (∀ first ∈ statement, ∀ second ∈ leftover,
        (parsed.tree.span first).stop ≤ (parsed.tree.span second).start) ∧
      ∃ stopped, Parse.start? (Parse.level maxDepth) rule (Parse.textEnv source maxDepth) .initial =
          .ok (statement, stopped) ∧
        leftover.isSome = !(stopped.stream (Parse.textEnv source maxDepth)).atEnd := by
  let env := Parse.textEnv source maxDepth
  have h : env.InOrder := Parse.textEnv_inOrder source maxDepth
  obtain ⟨root, state, hrun, hparse⟩ := parse_run source rule maxDepth hrule
  obtain ⟨statement, leftover, t, hstart, hkind, ht, hnone, hstatement, hend, hleftover⟩ :=
    Parse.query_after (Parse.level_covers h maxDepth) (Nat.zero_le _) root state hrun
  refine ⟨_, hparse, statement, leftover, by rw [Tree.kind_finish]; exact hkind, ?_, ?_, t, hstart,
    hend⟩
  · intro token hmem heof
    obtain ⟨i, hi, rfl⟩ := Array.getElem_of_mem (show token ∈ env.tokens from List.mem_toArray.mpr hmem)
    rcases Nat.lt_or_ge i t.position with hbefore | hbehind
    · -- The token was moved over, so there is a statement.
      obtain ⟨id, hid⟩ : ∃ id, statement = some id := Option.ne_none_iff_exists'.mp fun hn => by
        have hzero : t.position = 0 := hnone hn
        omega
      refine ⟨id, .inl hid, ?_⟩
      rw [Tree.Contains, Tree.span_finish]
      exact (hstatement id hid).contains h (h.lt_size ht.inside) (Nat.zero_le i) hbefore hi
    · obtain ⟨hmore, hstart, hstop⟩ := h.rest_contains hi heof hbehind
      rw [hmore] at hend
      obtain ⟨id, hid⟩ := Option.isSome_iff_exists.mp hend
      refine ⟨id, .inr hid, ?_⟩
      rw [Tree.Contains, Tree.span_finish, show state.builder.span id = _ from hleftover id hid]
      exact ⟨hstart, Nat.le_trans hstop (Nat.le_max_left _ _)⟩
  · intro first hfirst second hsecond
    rw [Tree.span_finish, Tree.span_finish,
      show state.builder.span second = _ from hleftover second hsecond]
    exact (hstatement first hfirst).stop_le

/-- A text with a gap in it, and more text behind its end. -/
theorem parse_covers_trailing :
    ∃ parsed, parse "SELECT FROM E e )) x" RuleId.statement 1 = .ok parsed ∧ ∃ statement leftover,
      parsed.tree.kind parsed.tree.root = .query statement leftover ∧
      (∀ token ∈ (tokenize "SELECT FROM E e )) x").tokens, token.kind ≠ .eof →
        ∃ id, (id ∈ statement ∨ id ∈ leftover) ∧ parsed.tree.Contains id token) ∧
      (∀ first ∈ statement, ∀ second ∈ leftover,
        (parsed.tree.span first).stop ≤ (parsed.tree.span second).start) ∧
      ∃ stopped, Parse.start? (Parse.level 1) RuleId.statement
          (Parse.textEnv "SELECT FROM E e )) x" 1) .initial = .ok (statement, stopped) ∧
        leftover.isSome = !(stopped.stream (Parse.textEnv "SELECT FROM E e )) x" 1)).atEnd :=
  parse_covers "SELECT FROM E e )) x" RuleId.statement 1 (by decide +kernel)

end Jpql
