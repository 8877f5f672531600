import Jpql.Proofs.Reader.Passage

/-! # What the span of an expression covers

The node that a reader of expressions ends with covers all tokens that were moved over: its span
starts where the first of them starts or before, and stops where the last of them stops or after, but
not behind the token that comes next. A missing expression moves over no token, so nothing is asked of
its span but its place.

* `Ends`: a reader ends with a node from a given place up to the last token moved over.
* `Covers`: a reader ends with a node that covers what it moved over. `Covers.of_ends` and
  `Covers.leftChain` are the two ways to such nodes.
* `disjunction_covers`: so does the reader of conditions, given a reader of nested constructs that
  does. -/

namespace Jpql

/-- Constructs that a keyword introduces. -/
def Construct.isCall : Construct → Bool
  | .selectStatement | .simpleSelectStatement | .updateStatement | .deleteStatement | .group | .path
  | .number | .string | .wordLiteral | .parameter | .moment => false
  | _ => true

namespace Parse

variable {α : Type} {env : Env} {s t u : State}

/-! ## Spans -/

/-- **The span covers what lies between the positions of `s` and `t`.** -/
structure Spans (env : Env) (s t : State) (span : Span) : Prop where
  start_le : span.start ≤ env.startAt s.position
  stop_le : span.stop ≤ env.startAt t.position
  covers : s.position < t.position → env.endBefore t.position ≤ span.stop

/-- The span from `start` to the last token moved over. -/
def Env.upTo (env : Env) (start position : Nat) : Span := ⟨start, max (env.endBefore position) start⟩

section

variable (h : env.InOrder)

include h

theorem Env.InOrder.lt_size {position : Nat} (hs : position ≤ env.tokens.size - 1) :
    position < env.tokens.size := by
  have := h.size_pos
  omega

/-- A span up to the last token covers what was moved over, if it starts early enough. -/
theorem Spans.upTo {start : Nat} (hpassage : Passage env s t)
    (hstart : start ≤ env.startAt s.position) : Spans env s t (env.upTo start t.position) where
  start_le := hstart
  stop_le := by
    have hmono := h.startAt_mono hpassage.position_le (h.lt_size hpassage.inside)
    have hend := h.endBefore_le_startAt (h.lt_size hpassage.inside)
    show max _ _ ≤ _
    omega
  covers _ := Nat.le_max_left _ _

/-- The span of a token covers the move over it. -/
theorem Spans.token (hs : s.position ≤ env.tokens.size - 1)
    (ht : t.position = (s.stream env).advance.position) :
    Spans env s t (s.stream env).current.span := by
  have hlt := h.lt_size hs
  have hcurrent : (s.stream env).current = env.tokens[s.position] := Env.InOrder.current_eq hlt
  have hposition : t.position = min (s.position + 1) (env.tokens.size - 1) := by
    rw [ht, TokenStream.position_advance _ hs]
    rfl
  rw [hcurrent]
  rcases Nat.lt_or_ge (s.position + 1) env.tokens.size with hnext | hlast
  · obtain hnext' : t.position = s.position + 1 := by omega
    refine ⟨by rw [Env.InOrder.startAt_eq hlt], ?_, fun _ => ?_⟩
    · rw [hnext', Env.InOrder.startAt_eq hnext]
      exact h.stop_le_start (Nat.lt_succ_self _) hlt hnext
    · rw [hnext', Env.InOrder.endBefore_succ hlt]
  · obtain hsame : t.position = s.position := by omega
    obtain ⟨heof, hempty⟩ := h.eof_iff hlt
    have hpoint := hempty (heof.mpr (by omega))
    refine ⟨by rw [Env.InOrder.startAt_eq hlt], ?_, fun hmoved => absurd hmoved (by omega)⟩
    rw [hsame, Env.InOrder.startAt_eq hlt, hpoint]

end

/-- Only the positions matter. -/
theorem Spans.congr {span : Span} (h : Spans env s t span) (hposition : u.position = t.position) :
    Spans env s u span :=
  ⟨h.start_le, hposition ▸ h.stop_le, hposition ▸ h.covers⟩

/-! ## Readers of nodes -/

/-- **A node that was read between `s` and `t`** covers what was moved over. -/
structure Covered (env : Env) (s : State) (id : NodeId) (t : State) : Prop where
  passage : Passage env s t
  lt_size : id < t.draft.size
  spans : Spans env s t (t.draft.span id)

/-- **A reader ends with a node from `start` up to the last token moved over.** -/
def Ends (env : Env) (start : Nat) (p : Parser NodeId) : Prop :=
  ∀ s, s.position ≤ env.tokens.size - 1 → After env p s fun id t =>
    Passage env s t ∧ id < t.draft.size ∧ t.draft.span id = env.upTo start t.position

/-- **A reader ends with a node that covers what it moved over.** -/
def Covers (env : Env) (p : Parser NodeId) : Prop :=
  ∀ s, s.position ≤ env.tokens.size - 1 → After env p s (Covered env s)

/-- A new node with a span that covers what was moved over. -/
theorem Covered.push {span : Span} (ht : Passage env s t) (hspan : Spans env s t span)
    (kind : NodeKind) : Covered env s t.draft.size (t.write (t.draft.push kind span)) where
  passage := ht.push kind span
  lt_size := by
    show t.draft.size < (t.draft.push kind span).size
    rw [Draft.size_push]
    exact Nat.lt_succ_self _
  spans := by
    show Spans env s _ ((t.draft.push kind span).span t.draft.size)
    rw [Draft.span_push]
    exact hspan.congr rfl

theorem Covered.record {id : NodeId} (h : Covered env s id t) (problem : Problem) :
    Covered env s id (t.write (t.draft.record problem)) :=
  ⟨h.passage.record problem, h.lt_size, h.spans.congr rfl⟩

namespace Ends

variable {start : Nat}

theorem pushFrom (kind : NodeKind) (start : Nat) : Ends env start (pushFrom kind start) := by
  refine fun s hs => (After.pushFrom kind start).mono ?_
  rintro _ _ ⟨rfl, rfl⟩
  refine ⟨(Passage.refl hs).push _ _, ?_, Draft.span_push _ _ _⟩
  show s.draft.size < (s.draft.push _ _).size
  rw [Draft.size_push]
  exact Nat.lt_succ_self _

/-- What comes before the last node only has to pass. -/
theorem bind {p : Parser α} {f : α → Parser NodeId} (hp : Passes env p)
    (hf : ∀ a, Ends env start (f a)) : Ends env start (p >>= f) := fun s hs =>
  (hp s hs).bind fun a t ht => (hf a t ht.inside).mono fun _ _ hu => ⟨ht.trans hu.1, hu.2⟩

theorem look_bind {f : TokenStream → α} {g : α → Parser NodeId} (hg : ∀ a, Ends env start (g a)) :
    Ends env start (look f >>= g) := fun s hs => .look_bind (hg _ s hs)

theorem covers (h : env.InOrder) {p : Parser NodeId} (hp : Ends env start p)
    (ht : Passage env s t) (hstart : start ≤ env.startAt s.position) :
    After env p t (Covered env s) :=
  (hp t ht.inside).mono fun _ _ ⟨hu, hid, hspan⟩ =>
    ⟨ht.trans hu, hid, hspan ▸ .upTo h (ht.trans hu) hstart⟩

end Ends

namespace Covers

/-- **From the current token up to the last one moved over.** -/
theorem of_ends (h : env.InOrder) {f : Nat → Parser NodeId} (hf : ∀ start, Ends env start (f start)) :
    Covers env (look (·.currentStart) >>= f) := fun _ hs =>
  .look_bind ((hf _).covers h (.refl hs) (Nat.le_refl _))

/-- A look around changes nothing. -/
theorem look_bind {f : TokenStream → α} {g : α → Parser NodeId} (hg : ∀ a, Covers env (g a)) :
    Covers env (look f >>= g) := fun s hs => .look_bind (hg _ s hs)

theorem read_bind {g : Env → Parser NodeId} (hg : Covers env (g env)) :
    Covers env (read >>= g) := fun s hs => .read_bind (hg s hs)

theorem dispatch_bind {rule : String} {trigger : Trigger} {g : Option Construct → Parser NodeId}
    (hg : ∀ construct?, Covers env (g construct?)) : Covers env (dispatch rule trigger >>= g) :=
  fun s hs => (After.dispatch rule trigger).bind fun construct? _ ht => ht ▸ hg construct? s hs

/-- A problem is recorded with the node. -/
theorem record_bind {p : Parser NodeId} (hp : Covers env p) (problem : NodeId → Problem) :
    Covers env (p >>= fun id => record (problem id) >>= fun _ => pure id) := fun s hs =>
  (hp s hs).bind fun _ _ hid => .modify_bind (.pure (hid.record _))

theorem missing (h : env.InOrder) (what : String) : Covers env (missing what) := by
  refine fun s hs => (After.missing what).mono ?_
  rintro _ _ ⟨rfl, rfl⟩
  have hend := h.endBefore_le_startAt (h.lt_size hs)
  have hspan : Spans env s s (.point (env.endBefore s.position)) :=
    ⟨hend, hend, fun hmoved => absurd hmoved (Nat.lt_irrefl _)⟩
  exact (Covered.push (.refl hs) hspan .bad).record _

theorem pushUnknown {span : Span} (ht : Passage env s t) (hspan : Spans env s t span)
    (text : String) (key : ProblemKey) (argument : String) :
    After env (pushUnknown span text key argument) t (Covered env s) := by
  refine (After.pushUnknown span text key argument).mono ?_
  rintro _ _ ⟨rfl, rfl⟩
  exact (Covered.push ht hspan (.unknown text)).record _

theorem push {span : Span} (ht : Passage env s t) (hspan : Spans env s t span) (kind : NodeKind) :
    After env (push kind span) t (Covered env s) := by
  refine (After.push kind span).mono ?_
  rintro _ _ ⟨rfl, rfl⟩
  exact Covered.push ht hspan kind

theorem unknownToken (h : env.InOrder) : Covers env unknownToken := by
  refine fun s hs => .look_bind (.look_bind ?_)
  refine ((passes_advance s hs).and After.advance).bind fun _ t ⟨ht, he⟩ => ?_
  exact pushUnknown ht (.token h hs (by rw [he])) _ _ _

theorem skipTooDeep (h : env.InOrder) : Covers env skipTooDeep := by
  refine .read_bind fun s hs => .look_bind ?_
  have hskip : Passes env (step fun stream => ((), stream.skipLevel env.tokens.size 0)) :=
    .of_agree fun _ S => S.step (TokenStream.skipLevel_forward _ _) fun _ _ hx =>
      ⟨rfl, hx.skipLevel _ _⟩
  refine (hskip s hs).bind fun _ t ht => .look_bind ?_
  exact pushUnknown ht (.upTo h ht (Nat.le_refl _)) _ _ _

/-- **Operands with operators between them.** The chain starts where its first operand does. -/
theorem leftChain (h : env.InOrder) {first operand : Parser NodeId}
    {operator : Parser (Option (NodeId → NodeId → NodeKind))} (hfirst : Covers env first)
    (hoperator : ∀ s, s.position ≤ env.tokens.size - 1 → After env operator s fun combine t =>
      Passage env s t ∧ (combine = none → t = s))
    (hoperand : Passes env operand) : Covers env (leftChain first operator operand) := by
  refine fun s hs => (hfirst s hs).bind fun left t hleft => .startOf_bind ?_
  refine After.loop (Covered env s) (fun id u hid => ?_) hleft
  refine (hoperator u hid.passage.inside).bind fun combine v ⟨hv, hnone⟩ => ?_
  cases combine with
  | none =>
    obtain rfl := hnone rfl
    exact .pure hid
  | some combine =>
    refine (hoperand v hv.inside).bind fun right w hw => ?_
    have hpass := (hid.passage.trans hv).trans hw
    exact ((Ends.pushFrom _ _).covers h hpass hleft.spans.start_le).bind fun _ _ hnew => .pure hnew

/-- Without a virtual variable the same tokens are read. -/
theorem withoutVirtual {p : Parser NodeId} (hp : Covers env p) : Covers env (withoutVirtual p) := by
  refine fun s hs => .get_bind (.modify_bind ?_)
  refine (hp { s with virtualVariable := none } hs).bind fun id t hid => ?_
  refine .modify_bind (.pure ?_)
  have ht := hid.passage
  exact ⟨⟨ht.position_le, ht.inside, ht.size_le, ht.span_eq, ht.problems⟩, hid.lt_size,
    ⟨hid.spans.start_le, hid.spans.stop_le, hid.spans.covers⟩⟩

end Covers

/-! ## Primaries -/

/-- Nested constructs that there are readers for. -/
def Nested.isRead : Nested → Bool
  | .call construct => construct.isCall
  | _ => true

/-- **Nested constructs are covered**, and read in step with themselves. -/
structure Deeper.Covers (env : Env) (deeper : Deeper) : Prop where
  inOrder : env.InOrder
  steady : deeper.Steady env
  covers : ∀ construct : Nested, construct.isRead = true → Parse.Covers env (deeper construct)

theorem leaf_covers (h : env.InOrder) (kind : NodeKind) : Covers env (leaf kind) :=
  .of_ends h fun start => .bind passes_advance fun _ => .pushFrom kind start

/-- Where no segments are found, nothing is moved over. -/
theorem segments_after (hs : s.position ≤ env.tokens.size - 1) :
    After env segments s fun found t => Passage env s t ∧
      (found.1 = [] → found.2 = false → t.position = s.position) := by
  have hnone : ∀ (bound : Nat) (stream : TokenStream), (stream.segments bound).1.1 = [] →
      (stream.segments bound).1.2 = false → (stream.segments bound).2 = stream := by
    intro bound stream hnil hdot
    cases bound with
    | zero => rfl
    | succ bound =>
      unfold TokenStream.segments at hnil hdot ⊢
      cases hc : stream.consume? .dot with
      | none => rfl
      | some found =>
        rw [hc] at hnil hdot
        dsimp only at hnil hdot
        cases hp : found.2.pathSegment? with
        | none =>
          rw [hp] at hdot
          cases hdot
        | some name =>
          rw [hp] at hnil
          cases hnil
  have hpasses : Passes env segments := .of_agree fun _ S => S.segments
  refine (After.and (hpasses s hs) (After.read_bind (After.step _))).mono ?_
  rintro _ _ ⟨ht, rfl, rfl⟩
  exact ⟨ht, fun hnil hdot => by rw [hnone _ _ hnil hdot]; rfl⟩

theorem passes_segments : Passes env segments := .of_agree fun _ S => S.segments

/-- **A bare name is covered by its token, a path reaches up to its last segment.** -/
theorem pathOrVariable_covers (h : env.InOrder) : Covers env pathOrVariable := by
  refine fun s hs => .look_bind (.look_bind ?_)
  refine ((passes_advance s hs).and After.advance).bind fun _ t ⟨ht, he⟩ => ?_
  refine (segments_after ht.inside).bind fun found u ⟨hu, hbare⟩ => ?_
  obtain ⟨segments, dot⟩ := found
  have hpass := ht.trans hu
  have htoken : (segments.isEmpty && !dot) = true →
      Spans env s u (s.stream env).current.span := fun hb => by
    rw [Bool.and_eq_true, List.isEmpty_iff, Bool.not_eq_true'] at hb
    exact (Spans.token h hs (by rw [he])).congr (hbare hb.1 hb.2)
  have hpath : ∀ (kind root : NodeKind) (span : Span),
      After env (pushFrom kind (s.stream env).current.span.start) (u.write (u.draft.push root span))
        fun id v => Covered env s id v ∧ v.position = u.position := by
    intro kind root span
    refine (After.and ((Ends.pushFrom _ _).covers h (hpass.push root span) (Nat.le_refl _))
      (After.pushFrom _ _)).mono ?_
    rintro _ _ ⟨hid, -, rfl⟩
    exact ⟨hid, rfl⟩
  refine .virtualFor?_bind fun virtualName? => ?_
  cases virtualName? with
  | some virtualName =>
    have hvirtual : After env (pushVirtualPath virtualName
        ⟨(s.stream env).currentText, (s.stream env).current.span⟩ segments dot) u
        fun id v => Covered env s id v ∧ v.position = u.position := by
      refine (After.push _ _).bind ?_
      rintro _ _ ⟨rfl, rfl⟩
      exact hpath _ _ _
    refine hvirtual.bind fun path v ⟨hpath, hv⟩ => ?_
    split
    · next hb => exact Covers.push hpath.passage ((htoken hb).congr hv) _
    · exact .pure hpath
  | none =>
    refine (After.push _ _).bind ?_
    rintro _ _ ⟨rfl, rfl⟩
    split
    · next hb => exact .pure (.push hpass (htoken hb) _)
    · exact (hpath _ _ _).mono fun _ _ hid => hid.1

/-- A path may go on behind a node, and starts where the node does. -/
theorem continuePath_ends {start root : Nat} (hroot : root < s.draft.size)
    (hspan : s.draft.span root = env.upTo start s.position)
    (hs : s.position ≤ env.tokens.size - 1) : After env (continuePath root start) s fun id t =>
      Passage env s t ∧ id < t.draft.size ∧ t.draft.span id = env.upTo start t.position := by
  refine .look_bind ?_
  split
  · exact Ends.bind passes_segments (fun _ => .pushFrom _ _) s hs
  · exact .pure ⟨.refl hs, hroot, hspan⟩

section

variable {deeper : Deeper} (hd : deeper.Covers env)

include hd

theorem build_covers (construct : Construct) : Covers env (build deeper construct) := by
  have hleaf := fun kind => leaf_covers hd.inOrder kind
  cases construct
  case selectStatement => exact hd.covers _ rfl
  case simpleSelectStatement => exact hd.covers _ rfl
  case updateStatement => exact .unknownToken hd.inOrder
  case deleteStatement => exact .unknownToken hd.inOrder
  case group => exact hd.covers _ rfl
  case path => exact pathOrVariable_covers hd.inOrder
  case number => exact .look_bind fun text => hleaf _
  case string => exact .look_bind fun kind => by split <;> exact hleaf _
  case wordLiteral => exact .look_bind fun kind => hleaf _
  case moment => exact .look_bind fun kind => hleaf _
  case parameter =>
    refine .look_bind fun kind => ?_
    split
    · exact hleaf _
    · exact hleaf _
    · exact .unknownToken hd.inOrder
  all_goals exact hd.covers _ rfl

/-- **A primary is covered**, whatever stands in its place. -/
theorem primary_covers (rule : String) : Covers env (primary deeper rule) := by
  refine .look_bind fun trigger? => ?_
  cases trigger? with
  | none => exact .missing hd.inOrder rule
  | some trigger =>
    refine .dispatch_bind fun construct? => ?_
    cases construct? with
    | some construct => exact build_covers hd construct
    | none =>
      cases trigger with
      | keyword word =>
        refine .read_bind ?_
        cases env.grammar.forKeyword? word with
        | none => exact .missing hd.inOrder rule
        | some construct => exact .look_bind fun problem => (build_covers hd construct).record_bind _
      | _ => exact .unknownToken hd.inOrder

/-! ## Operands -/

theorem factor_covers (rule : String) : Covers env (factor deeper rule) := by
  refine .look_bind fun kind => ?_
  split
  · exact hd.covers _ rfl
  · exact hd.covers _ rfl
  · exact primary_covers hd rule

omit hd in
/-- Two operators are tried one after the other; without one of them nothing is moved over. -/
theorem operator_after {first second : TokenKind} {a b : NodeId → NodeId → NodeKind}
    (hs : s.position ≤ env.tokens.size - 1) :
    After env (do
      if ← consume first then return some a
      else if ← consume second then return some b
      else return none) s fun combine t => Passage env s t ∧ (combine = none → t = s) := by
  refine (consume_after first hs).bind fun found t ⟨ht, hnot⟩ => ?_
  cases found with
  | true => exact .pure ⟨ht, by simp⟩
  | false =>
    obtain rfl := hnot rfl
    refine (consume_after second hs).bind fun found t ⟨ht, hnot⟩ => ?_
    cases found with
    | true => exact .pure ⟨ht, by simp⟩
    | false => exact .pure ⟨ht, fun _ => hnot rfl⟩

theorem term_covers (rule : String) : Covers env (term deeper rule) :=
  .leftChain hd.inOrder (factor_covers hd rule) (fun _ => operator_after)
    (.of_agree fun _ S => S.factor (hd.steady _ S) _)

/-- **An operand is covered.** -/
theorem operand_covers (rule : String) : Covers env (operand deeper rule) :=
  .leftChain hd.inOrder (term_covers hd rule) (fun _ => operator_after)
    (.of_agree fun _ S => S.term (hd.steady _ S) _)

theorem signed_covers (negative : Bool) : Covers env (signed deeper negative) :=
  .of_ends hd.inOrder fun start => .bind passes_advance fun _ =>
    .bind (.of_agree fun _ S => S.factor (hd.steady _ S) _) fun _ => .pushFrom _ start

/-! ## Conditions -/

omit hd in
/-- A condition goes on at certain words only; if it does not, nothing is moved over. -/
theorem conditionRest?_after (left : NodeId) (negated : Bool) :
    After env (conditionRest? deeper left negated) s fun kind? t => kind? = none → t = s ∧
      ∀ word ∈ [Keyword.between, .like, .in, .member], (s.stream env).kind ≠ .keyword word := by
  have hanswer : ∀ {p : Parser (Option NodeKind)}, Answers env p → After env p s fun kind? t =>
      kind? = none → t = s ∧
        ∀ word ∈ [Keyword.between, .like, .in, .member], (s.stream env).kind ≠ .keyword word :=
    fun hp => (hp s).mono fun _ _ hsome hnone => absurd hnone hsome
  refine .look_bind ?_
  split
  · exact hanswer (.bind fun _ => .bind fun _ => .bind fun _ => .bind fun _ => .some _)
  · refine hanswer (.bind fun _ => .bind fun _ => .bind fun hasEscape => ?_)
    split
    · exact .bind fun _ => .some _
    · exact .some _
  · exact hanswer (.bind fun _ => .bind fun _ => .some _)
  · exact hanswer (.bind fun _ => .bind fun _ => .bind fun _ => .bind fun _ => .some _)
  · exact hanswer (.bind fun _ => .bind fun _ => .some _)
  · next hbetween hlike hin hmember _ =>
    refine .pure fun _ => ⟨rfl, fun word hword => ?_⟩
    simp only [List.mem_cons, List.not_mem_nil, or_false] at hword
    rcases hword with rfl | rfl | rfl | rfl
    · exact hbetween
    · exact hlike
    · exact hin
    · exact hmember

omit hd in
/-- After `NOT` the word that it negates is the current token. -/
theorem kind_advance_of_atNegatedWord (h : env.InOrder) (hs : s.position ≤ env.tokens.size - 1)
    (hnot : atNegatedWord (s.stream env) = true) :
    ∃ word ∈ [Keyword.between, .like, .in, .member],
      (s.stream env).advance.kind = .keyword word := by
  have hlt := h.lt_size hs
  have hcurrent : (s.stream env).current = env.tokens[s.position] := Env.InOrder.current_eq hlt
  rw [atNegatedWord, Bool.and_eq_true] at hnot
  have hnext : s.position + 1 < env.tokens.size := by
    by_contra hlast
    have heof := (h.eof_iff hlt).1.mpr (by omega)
    have hkeyword := hnot.1
    rw [TokenStream.checkKeyword, TokenStream.kind, hcurrent, heof] at hkeyword
    cases hkeyword
  have hadvance : (s.stream env).advance.kind = (s.stream env).peek.kind := by
    have hpeek : (s.stream env).peek = env.tokens[s.position + 1] := by
      show ((env.tokens[s.position + 1]?).or env.tokens.back?).getD TokenStream.noToken = _
      rw [Array.getElem?_eq_getElem hnext]
      rfl
    have hmoved : (s.stream env).advance = ⟨env.source, env.tokens, s.position + 1⟩ := by
      unfold TokenStream.advance
      exact if_pos (show s.position < env.tokens.size - 1 by omega)
    rw [hpeek, hmoved, TokenStream.kind, Env.InOrder.current_eq hnext]
  rw [hadvance]
  have hword := hnot.2
  split at hword
  · next hk => exact ⟨_, by simp, hk⟩
  · next hk => exact ⟨_, by simp, hk⟩
  · next hk => exact ⟨_, by simp, hk⟩
  · next hk => exact ⟨_, by simp, hk⟩
  · cases hword

/-- **A simple condition is covered.** It is its first operand only if nothing was moved over behind
that. -/
theorem simpleCondition_covers (rule : String) : Covers env (simpleCondition deeper rule) := by
  refine fun s hs => (operand_covers hd rule s hs).bind fun left t hleft => .startOf_bind ?_
  have hstart := hleft.spans.start_le
  have hends : ∀ {p : Parser NodeId}, Ends env (t.draft.span left).start p →
      After env p t (Covered env s) := fun hp => hp.covers hd.inOrder hleft.passage hstart
  refine .look_bind ?_
  split
  · exact hends (.bind passes_advance fun _ =>
      .bind (.of_agree fun _ S => S.operand (hd.steady _ S) _) fun _ => .pushFrom _ _)
  · have hrest : ∀ u negated, Passage env s u →
        (∀ v, (v = u ∧ ∀ word ∈ [Keyword.between, .like, .in, .member],
          (u.stream env).kind ≠ .keyword word) → Covered env s left v) →
        After env (conditionRest deeper left (t.draft.span left).start negated) u (Covered env s) := by
      intro u negated hu hnone
      have hpasses : Passes env (conditionRest? deeper left negated) :=
        .of_agree fun _ S => S.conditionRest? (hd.steady _ S) left negated
      refine ((hpasses u hu.inside).and (conditionRest?_after left negated)).bind
        fun kind? v ⟨hv, hrest⟩ => ?_
      cases kind? with
      | some kind => exact (Ends.pushFrom _ _).covers hd.inOrder (hu.trans hv) hstart
      | none => exact .pure (hnone v (hrest rfl))
    refine .look_bind ?_
    split
    · next hnegated =>
      refine ((passes_advance t hleft.passage.inside).and After.advance).bind fun _ u ⟨hu, he⟩ => ?_
      refine hrest u _ (hleft.passage.trans hu) fun v hv => ?_
      obtain ⟨word, hword, hkind⟩ :=
        kind_advance_of_atNegatedWord hd.inOrder hleft.passage.inside hnegated
      refine absurd ?_ (hv.2 word hword)
      rw [he, State.stream_advance]
      exact hkind
    · exact hrest t _ hleft.passage fun v hv => hv.1 ▸ hleft

theorem negatable_covers (rule : String) : Covers env (negatable deeper rule) := by
  refine .look_bind fun atNot => ?_
  split
  · exact hd.covers _ rfl
  · exact simpleCondition_covers hd rule

omit hd in
/-- Without its word a connective is not moved over. -/
theorem connective_after (word : Keyword) (which : Connective)
    (hs : s.position ≤ env.tokens.size - 1) :
    After env (connective word which) s fun combine t =>
      Passage env s t ∧ (combine = none → t = s) := by
  refine (consume_after _ hs).bind fun found t ⟨ht, hnot⟩ => ?_
  cases found with
  | true => exact .pure ⟨ht, by simp⟩
  | false => exact .pure ⟨ht, fun _ => hnot rfl⟩

theorem conjunction_covers (rule : String) : Covers env (conjunction deeper rule) :=
  .leftChain hd.inOrder (negatable_covers hd rule) (fun _ => connective_after _ _)
    (.of_agree fun _ S => S.negatable (hd.steady _ S) _)

/-- **A condition is covered.** -/
theorem disjunction_covers (rule : String) : Covers env (disjunction deeper rule) :=
  .leftChain hd.inOrder (conjunction_covers hd rule) (fun _ => connective_after _ _)
    (.of_agree fun _ S => S.conjunction (hd.steady _ S) _)

end

end Parse

end Jpql
