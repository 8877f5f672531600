import Jpql.Proofs.Place.Held
import Jpql.Proofs.Recovery.Coverage

/-! # Places of expressions

One lemma for each reader from recovery up to conditions: its nodes lie between the last token before it
and the last token it moved over. The reader of nested constructs is assumed to place its nodes in the
same way (`Deeper.Placing`).

A subquery starts at the word `SELECT`, since grammars that are of use here build it from that alone
(`Grammar.SelectsByWord`). -/

namespace Jpql

/-- Subqueries and `SELECT` statements are built from the word `SELECT` only. -/
def Grammar.SelectsByWord (grammar : Grammar) : Prop :=
  ∀ factory ∈ grammar.factories,
    factory.construct = .selectStatement ∨ factory.construct = .simpleSelectStatement →
      factory.triggers = [.keyword .select]

/-- A factory of the grammar builds the construct from the trigger. -/
def Grammar.Builds (grammar : Grammar) (construct : Construct) (trigger : Trigger) : Prop :=
  ∃ factory ∈ grammar.factories, factory.construct = construct ∧ trigger ∈ factory.triggers

/-- **What a rule builds from a trigger**, a factory of the grammar builds from it. -/
theorem Grammar.builds_of_dispatch {grammar : Grammar} {rule : String} {trigger : Trigger}
    {construct : Construct} (h : grammar.dispatch rule trigger = .ok (some construct)) :
    grammar.Builds construct trigger := by
  unfold dispatch at h
  split at h
  · cases h
  · obtain ⟨factory, hfind, rfl⟩ := Option.map_eq_some_iff.mp (Except.ok.inj h)
    obtain ⟨ruleOf, -, hfactory⟩ := List.mem_flatMap.mp (List.mem_of_find?_eq_some hfind)
    obtain ⟨id, -, hid⟩ := List.mem_filterMap.mp hfactory
    have htrigger := List.find?_some hfind
    exact ⟨factory, List.mem_of_find?_eq_some hid, rfl, List.contains_iff_mem.mp htrigger⟩

/-- What the whole grammar builds from a word, a factory of it builds from the word. -/
theorem Grammar.builds_of_forKeyword? {grammar : Grammar} {word : Keyword} {construct : Construct}
    (h : grammar.forKeyword? word = some construct) : grammar.Builds construct (.keyword word) := by
  obtain ⟨factory, hfold, rfl⟩ := Option.map_eq_some_iff.mp h
  have hmem : ∀ (candidates : List Factory) (best : Option Factory),
      (∀ factory ∈ best, factory ∈ grammar.factories ∧ factory.triggers.contains (.keyword word)) →
      (∀ factory ∈ candidates,
        factory ∈ grammar.factories ∧ factory.triggers.contains (.keyword word)) →
      ∀ factory ∈ candidates.foldl smaller best,
        factory ∈ grammar.factories ∧ factory.triggers.contains (.keyword word) := by
    intro candidates
    induction candidates with
    | nil => exact fun best hbest _ => hbest
    | cons first rest ih =>
      refine fun best hbest hall => ih _ ?_ fun factory hf => hall factory (List.mem_cons_of_mem _ hf)
      have hfirst := hall first List.mem_cons_self
      intro factory hf
      unfold smaller at hf
      split at hf
      · exact Option.mem_some_iff.mp hf ▸ hfirst
      · split at hf
        · exact Option.mem_some_iff.mp hf ▸ hfirst
        · exact hbest factory hf
  obtain ⟨hfactory, htrigger⟩ := hmem _ none (fun _ hf => by cases hf)
    (fun factory hf => List.mem_filter.mp hf) factory hfold
  exact ⟨factory, hfactory, rfl, List.contains_iff_mem.mp htrigger⟩

/-- What a construct may start with. -/
def Construct.Ahead : Construct → TokenKind → Prop
  | .selectStatement, kind | .simpleSelectStatement, kind => kind = .keyword .select
  | _, kind => kind ≠ .eof ∧ kind ≠ .rightParen

namespace Grammar.SelectsByWord

variable {grammar : Grammar} (h : grammar.SelectsByWord)

include h

/-- **What a factory builds may start with its triggers.** -/
theorem ahead {factory : Factory} (hmem : factory ∈ grammar.factories) {trigger : Trigger}
    (htrigger : trigger ∈ factory.triggers) {kind : TokenKind} (heof : kind ≠ .eof)
    (hclose : kind ≠ .rightParen) (hword : ∀ word, trigger = .keyword word → kind = .keyword word) :
    factory.construct.Ahead kind := by
  by_cases hselect : factory.construct = .selectStatement ∨
      factory.construct = .simpleSelectStatement
  · rw [h factory hmem hselect, List.mem_singleton] at htrigger
    have hkind := hword _ htrigger
    rcases hselect with hc | hc <;> rw [hc] <;> exact hkind
  · rw [not_or] at hselect
    unfold Construct.Ahead
    split
    · next hc => exact absurd hc hselect.1
    · next hc => exact absurd hc hselect.2
    · exact ⟨heof, hclose⟩

/-- What a rule builds may start with the trigger. -/
theorem ahead_of_dispatch {rule : String} {trigger : Trigger} {construct : Construct}
    (hdispatch : grammar.dispatch rule trigger = .ok (some construct)) {kind : TokenKind}
    (heof : kind ≠ .eof) (hclose : kind ≠ .rightParen)
    (hword : ∀ word, trigger = .keyword word → kind = .keyword word) : construct.Ahead kind := by
  obtain ⟨factory, hmem, rfl, htrigger⟩ := builds_of_dispatch hdispatch
  exact h.ahead hmem htrigger heof hclose hword

/-- What the whole grammar builds from a word may start with the word. -/
theorem ahead_of_forKeyword? {word : Keyword} {construct : Construct}
    (hfor : grammar.forKeyword? word = some construct) : construct.Ahead (.keyword word) := by
  obtain ⟨factory, hmem, rfl, htrigger⟩ := builds_of_forKeyword? hfor
  refine h.ahead hmem htrigger (by simp) (by simp) ?_
  rintro _ ⟨⟩
  rfl

end Grammar.SelectsByWord

namespace TokenStream

/-- Where a level is left, a token is moved over that neither closes it nor ends the text. -/
theorem skipLevel_advance {stream : TokenStream} (heof : stream.kind ≠ .eof)
    (hclose : stream.kind ≠ .rightParen) (bound level : Nat) :
    stream.advance.Forward (stream.skipLevel (bound + 1) level) := by
  unfold skipLevel
  split
  · exact absurd ‹_› heof
  · exact skipLevel_forward _ _ _
  · exact absurd ‹_› hclose
  · exact absurd ‹_› hclose
  · exact skipLevel_forward _ _ _

/-- **Every segment that is found has the span of a token** that was moved over. -/
theorem segments_spans (bound : Nat) (stream : TokenStream) :
    ∀ segment ∈ (stream.segments bound).1.1, ∃ between : TokenStream, stream.Forward between ∧
      between.kind ≠ .eof ∧ segment.span = between.current.span ∧
        between.advance.Forward (stream.segments bound).2 := by
  induction bound generalizing stream with
  | zero => exact fun _ hs => absurd hs List.not_mem_nil
  | succ bound ih =>
    unfold segments consume?
    split
    · exact fun _ hs => absurd hs List.not_mem_nil
    · next next heq =>
      split at heq
      · obtain rfl : stream.advance = next := (Prod.mk.inj (Option.some.inj heq)).2
        split
        · exact fun _ hs => absurd hs List.not_mem_nil
        · next name hname =>
          intro segment hs
          rcases List.mem_cons.mp hs with rfl | hs
          · refine ⟨stream.advance, .advance stream, fun hend => ?_, rfl, segments_forward bound _⟩
            rw [pathSegment?, hend] at hname
            cases hname
          · obtain ⟨between, hto, hkind, hspan, hfrom⟩ := ih _ segment hs
            exact ⟨between, ((Forward.advance stream).trans (.advance _)).trans hto, hkind, hspan, hfrom⟩
      · cases heq

end TokenStream

namespace Parse

variable {env : Env} {s t u : State} {loose : Bool} {low : Bound} {gathered : List NodeId}

/-! ## Nested constructs -/

/-- What a nested construct may start with. -/
def Nested.Ahead : Nested → TokenKind → Prop
  | .subquery, kind => kind = .keyword .select
  | _, kind => kind ≠ .eof ∧ kind ≠ .rightParen

theorem Nested.Ahead.ne_eof {construct : Nested} {kind : TokenKind} (h : construct.Ahead kind) :
    kind ≠ .eof := by
  cases construct with
  | subquery => rw [show kind = _ from h]; simp
  | _ => exact h.1

theorem Nested.Ahead.ne_rightParen {construct : Nested} {kind : TokenKind} (h : construct.Ahead kind) :
    kind ≠ .rightParen := by
  cases construct with
  | subquery => rw [show kind = _ from h]; simp
  | _ => exact h.2

/-- **Nested constructs place their nodes** from the token on that they start with. -/
structure Deeper.Placing (env : Env) (deeper : Deeper) : Prop where
  ofText : env.OfText
  grammar : env.grammar.SelectsByWord
  covers : deeper.Covers env
  begins : ∀ construct : Nested, construct.isRead = true →
    Begins env construct.Ahead (deeper construct) one

section

variable (h : env.OfText)

include h

/-! ## Recovery -/

/-- A token without a place has the span of the token. -/
theorem unknownToken_begins : Begins env (· ≠ .eof) unknownToken one := by
  intro low s hkind hd
  refine .look_bind (.look_bind ((hd.opened h hkind).bind fun _ t ⟨hc, ht, hnext⟩ => ?_))
  have hstop : (s.stream env).current.span.stop ≤ env.endBefore t.position :=
    Nat.le_of_eq (by rw [h.stop_current hd.inside, hnext])
  refine (ht.pushUnknown h (h.fits_current hd.inside) (Nat.le_refl _) hstop _ _ _ (by simp)).mono ?_
  exact fun _ _ ⟨hc', hu⟩ => ⟨hc.trans hc', Nat.lt_of_lt_of_le (by omega) hc'.position_le, hu⟩

/-- What lies too deep has a span from its first token to its last. -/
theorem skipTooDeep_begins (construct : Nested) : Begins env construct.Ahead skipTooDeep one := by
  intro low s hahead hd
  refine .read_bind (.look_bind ((After.step _).bind ?_))
  rintro _ t ⟨-, rfl⟩
  have hnext := h.advance_position hd.inside hahead.ne_eof
  obtain ⟨bound, hbound⟩ : ∃ bound, env.tokens.size = bound + 1 :=
    ⟨env.tokens.size - 1, by have := h.inOrder.size_pos; omega⟩
  have hforward := TokenStream.skipLevel_advance hahead.ne_eof hahead.ne_rightParen bound 0
  rw [← hbound] at hforward
  have hbounds := hforward.bounds (by rw [TokenStream.tokens_advance]; exact hnext.1 ▸ hnext.2)
  rw [TokenStream.tokens_advance, hnext.1] at hbounds
  obtain ⟨hc, ht⟩ := hd.behind h (Nat.lt_of_succ_le hbounds.1) hbounds.2
  have hmax : max (env.endBefore ((s.stream env).skipLevel env.tokens.size 0).position)
      (env.startAt s.position) = _ := Nat.max_eq_left ht.low_le
  have hfits : (env.upTo (env.startAt s.position)
      ((s.stream env).skipLevel env.tokens.size 0).position).Fits env.source := by
    refine ⟨Nat.le_max_right _ _, ht.boundary, ?_⟩
    show Text.IsBoundary _ (max _ _)
    rw [hmax]
    exact h.boundary_endBefore ht.inside
  have hcut : env.CutOff _ := ⟨s, hd.inside, hahead.ne_eof, hahead.ne_rightParen, rfl⟩
  refine .look_bind ((ht.pushUnknown h hfits (Nat.le_refl _) (Nat.le_of_eq hmax) _ _ _
    fun _ => hcut).mono ?_)
  exact fun _ _ ⟨hc', hu⟩ => ⟨hc.trans hc', Nat.lt_of_lt_of_le hbounds.1 hc'.position_le, hu⟩

theorem leaf_begins {kind : NodeKind} (hsegments : kind.segments = []) (hchildren : kind.children = []) :
    Begins env (· ≠ .eof) (leaf kind) one :=
  begins_intro h (fun _ hk => hk) fun _ =>
    gathers_pushFrom h hsegments (hchildren ▸ List.Sublist.refl _)

/-! ## Variables and paths -/

/-- **The segments that are found lie between the offset and the last token moved over.** -/
theorem Held.segments (hd : Held env loose low gathered s) : After env segments s fun found t =>
    Course env s t ∧ Held env loose low gathered t ∧ ∀ segment ∈ found.1,
      segment.span.Fits env.source ∧ low.offset ≤ segment.span.start ∧
        segment.span.stop ≤ env.endBefore t.position := by
  refine .read_bind ((After.step _).mono ?_)
  rintro _ _ ⟨rfl, rfl⟩
  have hbounds := (TokenStream.segments_forward env.tokens.size (s.stream env)).bounds hd.inside
  obtain ⟨hc, ht⟩ := hd.move h hbounds.1 hbounds.2
  refine ⟨hc, ht, fun segment hs => ?_⟩
  obtain ⟨between, hto, hkind, hspan, hfrom⟩ := TokenStream.segments_spans _ _ segment hs
  obtain ⟨hle, hin⟩ := hto.bounds hd.inside
  -- The segment is the token at the position of `between`.
  obtain ⟨source, tokens, i⟩ := between
  obtain rfl : source = env.source := hto.source
  obtain rfl : tokens = env.tokens := hto.tokens
  have hmiddle := hd.move h hle hin
  have hnext := h.advance_position (s := { s with position := i }) hin hkind
  have hlast := (hfrom.bounds (by rw [TokenStream.tokens_advance]; exact hnext.1 ▸ hnext.2)).1
  rw [show (TokenStream.advance ⟨env.source, env.tokens, i⟩).position = i + 1 from hnext.1] at hlast
  rw [hspan]
  refine ⟨h.fits_current hin, ?_, ?_⟩
  · exact Nat.le_trans hmiddle.2.low_le (h.inOrder.endBefore_le_startAt (h.inOrder.lt_size hin))
  · rw [show (TokenStream.current ⟨env.source, env.tokens, i⟩).span.stop = _ from
      h.stop_current (s := { s with position := i }) hin]
    exact h.endBefore_mono hlast ht.inside

/-- **Behind a name and its segments**, where the name is the current token of `s`. -/
structure Named (env : Env) (s : State) (found : List (Located String)) (dot : Bool) (t : State) :
    Prop where
  course : Course env s t
  moved : s.position < t.position
  held : Held env false (.opened (env.startAt s.position)) [] t
  spans : ∀ segment ∈ found, segment.span.Fits env.source ∧
    env.startAt s.position ≤ segment.span.start ∧ segment.span.stop ≤ env.endBefore t.position
  bare : (found.isEmpty && !dot) = true → t.position = s.position + 1

/-- The current token ends before what is read behind it. -/
theorem Env.OfText.stop_le (hs : s.position ≤ env.tokens.size - 1) (hmoved : s.position < t.position)
    (ht : t.position ≤ env.tokens.size - 1) :
    (s.stream env).current.span.stop ≤ env.endBefore t.position := by
  rw [h.stop_current hs]
  exact h.endBefore_mono hmoved ht

/-- **The span of a token** that was moved over. -/
theorem Env.OfText.whole_current (hs : s.position ≤ env.tokens.size - 1)
    (hnext : s.position + 1 ≤ env.tokens.size - 1) : env.Whole (s.stream env).current.span := by
  refine ⟨s.position, s.position + 1, Nat.lt_succ_self _, hnext, ?_⟩
  rw [← h.stop_current hs]
  rfl

/-- **A node without children for the token before**, which was the current one of `s`. -/
theorem Held.pushToken (hs : s.position ≤ env.tokens.size - 1) (hmoved : s.position < t.position)
    (ht : Held env false (.opened (env.startAt s.position)) [] t) {kind : NodeKind}
    (hsegments : kind.segments = []) (hchildren : kind.children = []) :
    After env (push kind (s.stream env).current.span) t fun id u => Course env t u ∧
      Held env false (.opened (env.startAt s.position)) [id] u ∧ u.position = t.position :=
  ht.push_leaf h (h.fits_current hs) (.inl (h.whole_current hs (Nat.le_trans hmoved ht.inside)))
    (Nat.le_refl _) (h.stop_le hs hmoved ht.inside) ⟨s.position, hmoved, rfl⟩ hsegments hchildren

omit h in
/-- A name is no end of the text. -/
theorem ne_eof_of_identifier? {name : String} (hname : (s.stream env).identifier? = some name) :
    (s.stream env).kind ≠ .eof := fun hend => by
  rw [TokenStream.identifier?, hend] at hname
  cases hname

/-- What is read after a name is read from its start on. -/
theorem Held.afterName (hd : Held env false low [] s) (hkind : (s.stream env).kind ≠ .eof)
    (name : String) {below : List (Located String) → Bool → String → Parser NodeId}
    {atRoot : List (Located String) → Bool → NodeId → Parser NodeId} {post : NodeId → State → Prop}
    (hbelow : ∀ segments dot owner t, Named env s segments dot t →
      After env (below segments dot owner) t post)
    (hroot : ∀ segments dot t, Named env s segments dot t → After env
      (pushVariable name (s.stream env).current.span >>= atRoot segments dot) t post) :
    After env (afterName name (s.stream env).current.span below atRoot) s post := by
  refine (hd.opened h hkind).bind fun _ t ⟨hc, ht, hnext⟩ => ?_
  refine ((ht.segments h).and (segments_after ht.inside)).bind
    fun (segments, dot) u ⟨⟨hc', hu, hsegments⟩, _, hbare⟩ => ?_
  have hnamed : Named env s segments dot u := by
    refine ⟨hc.trans hc', Nat.lt_of_lt_of_le (by omega) hc'.position_le, hu, hsegments, fun hb => ?_⟩
    rw [Bool.and_eq_true, List.isEmpty_iff, Bool.not_eq_true'] at hb
    exact (hbare hb.1 hb.2).trans hnext
  refine .virtualFor?_bind fun owner? => ?_
  cases owner? with
  | some owner => exact hbelow segments dot owner u hnamed
  | none => exact hroot segments dot u hnamed

/-- A path below the virtual variable starts at its first field. -/
theorem Named.pushVirtualPath {segments : List (Located String)} {dot : Bool}
    (hs : s.position ≤ env.tokens.size - 1) (hn : Named env s segments dot t) (owner name : String) :
    After env (pushVirtualPath owner ⟨name, (s.stream env).current.span⟩ segments dot) t fun id u =>
      Course env s u ∧ Held env false (.opened (env.startAt s.position)) [id] u ∧
        u.position = t.position := by
  have hpoint : (Span.point (env.startAt s.position)).Fits env.source :=
    Span.fits_point (h.boundary_startAt hs)
  refine (hn.held.push_leaf h hpoint (.inr ⟨⟨owner, rfl⟩, rfl⟩) (Nat.le_refl _) hn.held.low_le
    ⟨s.position, hn.moved, rfl⟩ rfl rfl).bind fun root u ⟨hc, hu, hposition⟩ => ?_
  refine (hu.pushFrom h (.path .stateField root _ dot) (List.Sublist.refl _) ?_).mono ?_
  · intro segment hmem
    rw [hposition]
    rcases List.mem_cons.mp hmem with rfl | hmem
    · exact ⟨h.fits_current hs, Nat.le_refl _, h.stop_le hs hn.moved hn.course.inside⟩
    · exact hn.spans segment hmem
  · exact fun id v ⟨hc', hv, hsame⟩ => ⟨(hn.course.trans hc).trans hc', hv, hsame.trans hposition⟩

/-- **A bare name has the span of its token, a path reaches up to its last segment.** -/
theorem pathOrVariable_begins : Begins env (· ≠ .eof) pathOrVariable one := by
  intro low s hkind hd
  have hcurrent := h.fits_current hd.inside
  rw [pathOrVariable_eq]
  refine .look_bind (.look_bind (hd.afterName h hkind _ (fun found dot owner t hn => ?_)
    fun found dot t hn => ?_))
  · refine (hn.pushVirtualPath h hd.inside owner _).bind fun path u ⟨hc, hu, hposition⟩ => ?_
    have hmoved : s.position < u.position := hposition ▸ hn.moved
    split
    · next hb =>
      -- The variable has the span of its name, and so does the path below it.
      obtain ⟨hlt, hlow, -⟩ := hu.lies path (List.mem_singleton_self _)
      have hend : env.endBefore u.position = (s.stream env).current.span.stop := by
        rw [h.stop_current hd.inside, hposition, hn.bare hb]
      have hplaced : (u.draft.push (.identifier (s.stream env).currentText true (some path))
          (s.stream env).current.span).Placed env := by
        refine hu.placed.toPlaced.push hcurrent (fun _ hs => absurd hs List.not_mem_nil) (fun child hchild => ?_)
          (List.pairwise_singleton _ _)
        rw [List.mem_singleton.mp hchild]
        exact ⟨hlt, .inl hlow, .inl (hend ▸ hu.stop_le path (List.mem_singleton_self _))⟩
      rintro _ _ ⟨⟩
      have hwhole := h.whole_current hd.inside (Nat.le_trans hmoved hu.inside)
      obtain ⟨hcv, hv⟩ := hu.pushed h hplaced (fun _ => .inl hwhole) (Nat.le_refl _)
        (Nat.le_of_eq hend.symm) fun _ => ⟨s.position, hmoved, rfl⟩
      exact ⟨hc.trans hcv, hmoved, hv⟩
    · exact .pure ⟨hc, hmoved, hu⟩
  · refine (hn.held.pushToken h hd.inside hn.moved rfl rfl).bind fun root u ⟨hc, hu, hposition⟩ => ?_
    have hmoved : s.position < u.position := hposition ▸ hn.moved
    split
    · exact .pure ⟨hn.course.trans hc, hmoved, hu⟩
    · refine (hu.pushFrom h (.path .stateField root found dot) (List.Sublist.refl _)
        (hposition ▸ hn.spans)).mono fun id v ⟨hc', hv, hsame⟩ => ?_
      exact ⟨(hn.course.trans hc).trans hc', hsame ▸ hmoved, hv⟩

/-- A path may go on behind a node. -/
theorem continuePath_gathers {start : Nat} (root : NodeId) :
    Gathers env false (.opened start) [root] (continuePath root start) one := by
  refine .look fun atDot => ?_
  split
  · intro s hd
    refine (hd.segments h).bind fun found t ⟨hc, ht, hspans⟩ => ?_
    refine (ht.pushFrom h (.path .stateField root found.1 found.2) (List.Sublist.refl _)
      hspans).mono fun id u ⟨hc', hu, _⟩ => ⟨hc.trans hc', hu⟩
  · exact gathers_pure (List.Sublist.refl _)

/-- **The target of an item of `SET`** starts at the current token, or is missing. -/
theorem updateTarget_after (hd : Held env false low [] s) : After env updateTarget s fun id t =>
    Course env s t ∧ Held env false low [id] t ∧
      (t.draft.kind id = .bad ∧ t.draft.problems ≠ [] ∨
        Held env false (.opened (env.startAt s.position)) [id] t) := by
  rw [updateTarget_eq]
  refine .look_bind ?_
  cases hname : (s.stream env).identifier? with
  | none =>
    refine ((places_missing h _ low s hd).and (After.missing _)).mono ?_
    rintro _ _ ⟨⟨hc, ht⟩, rfl, rfl⟩
    exact ⟨hc, ht, .inl ⟨Draft.kind_push _ _ _, 
      List.append_ne_nil_of_right_ne_nil _ (List.cons_ne_nil _ _)⟩⟩
  | some name =>
    have hkind := ne_eof_of_identifier? hname
    refine .look_bind ((hd.afterName h hkind name (fun found dot owner t hn => ?_)
      fun found dot t hn => ?_).mono
        fun id t (ht : Course env s t ∧ Held env false (.opened (env.startAt s.position)) [id] t) =>
          ⟨ht.1, hd.open_le h ht.1 ht.2, .inr ht.2⟩)
    · exact (hn.pushVirtualPath h hd.inside owner name).mono fun _ _ ⟨hc, hu, _⟩ => ⟨hc, hu⟩
    · refine (hn.held.pushToken h hd.inside hn.moved rfl rfl).bind
        fun root u ⟨hc, hu, hposition⟩ => ?_
      refine (hu.pushFrom h (.path .stateField root found dot) (List.Sublist.refl _)
        (hposition ▸ hn.spans)).mono fun id v ⟨hc', hv, _⟩ => ⟨(hn.course.trans hc).trans hc', hv⟩

/-- **A declared variable** is a token, if it is there. -/
theorem places_declaredVariable? : Places env declaredVariable? Option.toList := by
  intro low s hd
  refine .look_bind ?_
  cases hname : (s.stream env).identifier? with
  | none => exact .pure ⟨.refl hd.inside, hd⟩
  | some name =>
    have hkind := ne_eof_of_identifier? hname
    refine .look_bind ((hd.opened h hkind).bind fun _ t ⟨hc, ht, hnext⟩ => ?_)
    exact (ht.pushToken h hd.inside (by omega) rfl rfl).bind fun id u ⟨hc', hu, _⟩ =>
      .pure ⟨hc.trans hc', hd.open_le h (hc.trans hc') hu⟩

theorem entityType_begins (name : String) : Begins env (· ≠ .eof) (entityType name) one := by
  intro low s hkind hd
  refine .look_bind ((hd.opened h hkind).bind fun _ t ⟨hc, ht, hnext⟩ => ?_)
  exact (ht.pushToken h hd.inside (by omega) rfl rfl).mono fun id u ⟨hc', hu, hposition⟩ =>
    ⟨hc.trans hc', by omega, hu⟩

end

/-! ## Primaries -/

section

variable {deeper : Deeper} (hd : deeper.Placing env) {rule : String}

include hd

/-- **A construct starts at the current token.** -/
theorem build_begins (construct : Construct) : Begins env construct.Ahead (build deeper construct) one := by
  have hany : ∀ {p : Parser NodeId}, Begins env (· ≠ .eof) p one →
      Begins env (fun kind => kind ≠ .eof ∧ kind ≠ .rightParen) p one := fun hp => hp.mono fun _ hk => hk.1
  have hleaf : ∀ {kind : NodeKind}, kind.segments = [] → kind.children = [] →
      Begins env (fun kind => kind ≠ .eof ∧ kind ≠ .rightParen) (leaf kind) one :=
    fun hs hc => hany (leaf_begins hd.ofText hs hc)
  cases construct
  case selectStatement => exact hd.begins .subquery rfl
  case simpleSelectStatement => exact hd.begins .subquery rfl
  case updateStatement => exact hany (unknownToken_begins hd.ofText)
  case deleteStatement => exact hany (unknownToken_begins hd.ofText)
  case group => exact hd.begins .group rfl
  case path => exact hany (pathOrVariable_begins hd.ofText)
  case number => exact .look fun text => hleaf rfl rfl
  case string => exact .look fun kind => by split <;> exact hleaf rfl rfl
  case wordLiteral => exact .look fun kind => hleaf rfl rfl
  case moment => exact .look fun kind => hleaf rfl rfl
  case parameter =>
    refine .look fun kind => ?_
    split
    · exact hleaf rfl rfl
    · exact hleaf rfl rfl
    · exact hany (unknownToken_begins hd.ofText)
  all_goals exact hd.begins (.call _) rfl

omit hd in
/-- A token that is a trigger is neither the end of the text nor a closing parenthesis. -/
theorem kind_of_ofKind? {kind : TokenKind} {trigger : Trigger}
    (htrigger : Trigger.ofKind? kind = some trigger) : kind ≠ .eof ∧ kind ≠ .rightParen ∧
      ∀ word, trigger = .keyword word → kind = .keyword word := by
  refine ⟨?_, ?_, ?_⟩
  · rintro rfl
    cases htrigger
  · rintro rfl
    cases htrigger
  · rintro word rfl
    cases kind <;> simp_all [Trigger.ofKind?]

omit hd in
/-- A word that is not reserved is a name, and still such a token. -/
theorem kind_of_trigger? {stream : TokenStream} {trigger : Trigger}
    (htrigger : trigger? stream = some trigger) : stream.kind ≠ .eof ∧ stream.kind ≠ .rightParen ∧
      ∀ word, trigger = .keyword word → stream.kind = .keyword word := by
  unfold trigger? at htrigger
  split at htrigger
  · next word hkind =>
    rw [hkind]
    split at htrigger
    · cases htrigger
      exact ⟨by simp, by simp, by simp⟩
    · exact kind_of_ofKind? htrigger
  · exact kind_of_ofKind? htrigger

/-- A construct that is not allowed here is built and reported; the token that it starts with lies in
it. -/
theorem build_reported {construct : Construct} (hs : Held env false low [] s)
    (hahead : construct.Ahead (s.stream env).kind) (key : ProblemKey) (arguments : List String)
    (hkey : key ≠ .nestingTooDeep) :
    After env (build deeper construct >>= fun id =>
      record { (s.stream env).problemHere key arguments with anchor := some id } >>= fun _ =>
        pure id) s fun id t => Course env s t ∧ Held env false low [id] t := by
  refine ((build_begins hd construct low s hahead hs).and
    (build_covers hd.covers construct s hs.inside)).bind fun id t ⟨⟨hc, hmoved, ht⟩, hcovered⟩ => ?_
  have hcontains : (s.stream env).current.span.Inside (t.draft.span id) := by
    have hlt := hd.ofText.inOrder.lt_size hs.inside
    rw [show (s.stream env).current = _ from Env.InOrder.current_eq hlt]
    exact hcovered.spans.contains hd.ofText.inOrder (hd.ofText.inOrder.lt_size ht.inside) (Nat.le_refl _)
      hmoved hlt
  have hplaced : (t.draft.record { (s.stream env).problemHere key arguments with
      anchor := some id }).Placed env :=
    ht.placed.record (hd.ofText.fits_current hs.inside) (fun node hnode =>
      Option.some.inj hnode ▸ ⟨hcovered.lt_size, hcontains⟩) fun hdeep => absurd hdeep hkey
  obtain ⟨hc', hu⟩ := ht.write hd.ofText (.record _ _) (.of_record hplaced)
  exact .modify_bind (.pure ⟨hc.trans hc', hs.open_le hd.ofText (hc.trans hc') hu⟩)

omit hd in
/-- Only the grammar is asked, and it answers. -/
theorem dispatch_after (rule : String) (trigger : Trigger) :
    After env (dispatch rule trigger) s fun construct? t =>
      t = s ∧ env.grammar.dispatch rule trigger = .ok construct? := by
  refine .read_bind ?_
  cases hdispatch : env.grammar.dispatch rule trigger with
  | ok construct? => exact .pure ⟨rfl, rfl⟩
  | error error => rintro _ _ ⟨⟩

/-- **A primary has its place**, whatever stands there. -/
theorem places_primary (rule : String) : Places env (primary deeper rule) one := by
  intro low s hs
  refine .look_bind ?_
  cases htrigger : trigger? (s.stream env) with
  | none => exact places_missing hd.ofText rule low s hs
  | some trigger =>
    obtain ⟨heof, hclose, hword⟩ := kind_of_trigger? htrigger
    refine (dispatch_after rule trigger).bind ?_
    rintro construct? t ⟨rfl, hdispatch⟩
    cases construct? with
    | some construct =>
      exact ((build_begins hd construct).leads hd.ofText) t
        ⟨hs, hd.grammar.ahead_of_dispatch hdispatch heof hclose hword⟩
    | none =>
      have hunknown := ((unknownToken_begins hd.ofText).leads hd.ofText) t ⟨hs, heof⟩
      cases trigger with
      | keyword word =>
        refine .read_bind ?_
        cases hfor : env.grammar.forKeyword? word with
        | none => exact places_missing hd.ofText rule low t hs
        | some construct =>
          have hahead := hd.grammar.ahead_of_forKeyword? hfor
          rw [← hword word rfl] at hahead
          exact .look_bind (build_reported hd hs hahead _ _ (by simp))
      | _ => exact hunknown

/-! ## Operands -/

theorem places_factor (rule : String) : Places env (factor deeper rule) one := by
  intro low s hs
  refine .look_bind ?_
  split
  · next hkind =>
    exact (hd.begins (.sign true) rfl).leads hd.ofText s ⟨hs, by rw [hkind]; exact ⟨by simp, by simp⟩⟩
  · next hkind =>
    exact (hd.begins (.sign false) rfl).leads hd.ofText s ⟨hs, by rw [hkind]; exact ⟨by simp, by simp⟩⟩
  · exact places_primary hd rule low s hs

omit hd in
/-- Two operators are tried one after the other. -/
theorem operates_either {first second : TokenKind} {a b : NodeId → NodeId → NodeKind}
    (h : env.OfText)
    (ha : ∀ left right, (a left right).children = [left, right] ∧ (a left right).segments = [])
    (hb : ∀ left right, (b left right).children = [left, right] ∧ (b left right).segments = []) :
    Operates env (do
      if ← consume first then return some a
      else if ← consume second then return some b
      else return none) := by
  refine fun low gathered => (gathers_consume h first).bind fun found => ?_
  have hsome : ∀ c : NodeId → NodeId → NodeKind, (∀ left right,
      (c left right).children = [left, right] ∧ (c left right).segments = []) →
      Leads env (Held env false low gathered) (pure (some c)) fun combine? t =>
        Held env false low gathered t ∧ ∀ combine ∈ combine?, ∀ left right,
          (combine left right).children = [left, right] ∧ (combine left right).segments = [] :=
    fun c hc _ hd => .pure ⟨.refl hd.inside, hd, by rintro _ ⟨⟩; exact hc⟩
  cases found with
  | true => exact hsome a ha
  | false =>
    refine (gathers_consume h second).bind fun found => ?_
    cases found with
    | true => exact hsome b hb
    | false => exact fun _ hd => .pure ⟨.refl hd.inside, hd, by rintro _ ⟨⟩⟩

theorem places_term (rule : String) : Places env (term deeper rule) one :=
  places_leftChain hd.ofText (places_factor hd rule)
    (operates_either hd.ofText (fun _ _ => ⟨rfl, rfl⟩) fun _ _ => ⟨rfl, rfl⟩) (places_factor hd _)

/-- **An operand has its place.** -/
theorem places_operand (rule : String) : Places env (operand deeper rule) one :=
  places_leftChain hd.ofText (places_term hd rule)
    (operates_either hd.ofText (fun _ _ => ⟨rfl, rfl⟩) fun _ _ => ⟨rfl, rfl⟩) (places_term hd _)

theorem places_scalar : Places env (scalar deeper) one := places_operand hd _

theorem signed_begins (negative : Bool) : Begins env (· ≠ .eof) (signed deeper negative) one :=
  begins_intro hd.ofText (fun _ hk => hk) fun _ =>
    ((places_factor hd _).gathers hd.ofText).bind fun _ =>
      gathers_pushFrom hd.ofText rfl (List.Sublist.refl _)

/-! ## Conditions -/

theorem places_inItem (ofTypes : Bool) : Places env (inItem deeper ofTypes) one := by
  refine fun low => .identifier? (fun name => ?_) (places_operand hd _ low)
  dsimp only
  split
  · exact (entityType_begins hd.ofText name).leads hd.ofText
  · exact fun s hs => places_operand hd _ low s hs.1

theorem places_inItems (left : NodeId) : Places env (inItems deeper left) id := by
  have hparameter : Places env (do return [← primary deeper RuleId.inItem]) id := fun low =>
    (places_primary hd _ low).bind fun _ => gathers_pure (List.Sublist.refl _)
  refine fun low => .look fun kind => ?_
  split
  · exact hparameter low
  · exact hparameter low
  refine (gathers_expect hd.ofText .leftParen).bind fun found => ?_
  cases found with
  | false => exact (places_missing hd.ofText _ low).bind fun _ => gathers_pure (List.Sublist.refl _)
  | true =>
    refine .atKeyword ?_ (.kindOf fun kind => ?_)
    · refine ((hd.begins .subquery rfl).leads hd.ofText).bind fun subquery => ?_
      exact (gathers_discard_expect hd.ofText _).bind fun _ => gathers_pure (List.Sublist.refl _)
    · have hitems : ∀ ofTypes, Gathers env false low [] (do
          let items ← separated (inItem deeper ofTypes)
          discard (expect .rightParen)
          return items) id := fun ofTypes =>
        (places_separated hd.ofText (places_inItem hd ofTypes) low).bind fun items =>
          (gathers_discard_expect hd.ofText _).bind fun _ => gathers_pure (List.Sublist.refl _)
      split <;> exact hitems _

omit hd in
theorem draws_isCheck (h : env.OfText) (low : Bound) (left : NodeId) :
    Leads env (Held env false low [left]) (isCheck left) (Drawn env low) := by
  refine (gathers_consume h _).bind fun negated => (gathers_consume h _).bind fun isEmpty => ?_
  split
  · exact (gathers_asCollection h left).bind fun _ => draws_pure (List.Sublist.refl _) rfl
  · refine (gathers_consume h _).bind fun isNull => ?_
    split
    · exact (gathers_recordHere h _ _ (by simp)).bind fun _ => draws_pure (List.Sublist.refl _) rfl
    · exact draws_pure (List.Sublist.refl _) rfl

/-- What a condition becomes is a node over the operands that were read. -/
theorem draws_conditionRest? (low : Bound) (left : NodeId) (negated : Bool) :
    Leads env (Held env false low [left]) (conditionRest? deeper left negated)
      (DrawnOr env low [left]) := by
  have hscalar : ∀ {gathered : List NodeId}, Gathers env false low gathered (scalar deeper)
      fun id => gathered ++ [id] := (places_scalar hd).gathers hd.ofText
  have hadvance : Gathers env false low [left] advance fun _ => [left] := gathers_advance hd.ofText
  have hdrawn : ∀ {gathered : List NodeId} {kind : NodeKind}, kind.children.Sublist gathered →
      kind.segments = [] → Leads env (Held env false low gathered) (pure (some kind))
        (DrawnOr env low [left]) := fun hsub hsegments _ hs =>
    .pure ⟨.refl hs.inside, hs.subset hsub, hsegments⟩
  refine .look fun kind => ?_
  split
  · refine hadvance.bind fun _ => hscalar.bind fun lower => ?_
    exact (gathers_expectKeyword hd.ofText .and).bind fun _ => hscalar.bind fun upper =>
      hdrawn (List.Sublist.refl _) rfl
  · refine hadvance.bind fun _ => hscalar.bind fun pattern => ?_
    refine (gathers_consume hd.ofText _).bind fun hasEscape => ?_
    split
    · exact hscalar.bind fun escape => hdrawn (List.Sublist.refl _) rfl
    · exact hdrawn (List.Sublist.refl _) rfl
  · exact hadvance.bind fun _ => ((places_inItems hd left).gathers hd.ofText).bind fun items =>
      hdrawn (List.Sublist.refl _) rfl
  · refine hadvance.bind fun _ => (gathers_consume hd.ofText _).bind fun hasOf => ?_
    refine ((places_operand hd _).gathers hd.ofText).bind fun collection => ?_
    exact (gathers_asCollection hd.ofText _).bind fun _ => hdrawn (List.Sublist.refl _) rfl
  · exact hadvance.bind fun _ => (draws_isCheck hd.ofText low left).bind fun kind s hk =>
      .pure ⟨.refl hk.1.inside, hk⟩
  · exact fun _ hs => .pure ⟨.refl hs.inside, hs⟩

/-- **A simple condition starts where its first operand does.** -/
theorem places_simpleCondition (rule : String) : Places env (simpleCondition deeper rule) one := by
  refine places_startOf (places_operand hd rule) fun left start => .look fun operator? => ?_
  have hadvance : Gathers env false (.opened start) [left] advance fun _ => [left] :=
    gathers_advance hd.ofText
  cases operator? with
  | some operator =>
    exact hadvance.bind fun _ => ((places_operand hd _).gathers hd.ofText).bind fun right =>
      gathers_pushFrom hd.ofText rfl (List.Sublist.refl _)
  | none =>
    have hrest : ∀ negated, Gathers env false (.opened start) [left]
        (conditionRest deeper left start negated) one := fun negated =>
      (draws_conditionRest? hd (.opened start) left negated).bind fun kind? => by
        cases kind? with
        | some kind => exact draws_pushFrom hd.ofText kind
        | none => exact gathers_pure (List.Sublist.refl _)
    refine .look fun negated => ?_
    cases negated with
    | false => exact hrest false
    | true => exact hadvance.bind fun _ => hrest true

theorem places_negatable (rule : String) : Places env (negatable deeper rule) one := by
  refine fun low => .atKeyword ?_ (places_simpleCondition hd rule low)
  exact (((hd.begins (.negation rule) rfl).mono fun kind hkind => by
    rw [show kind = .keyword .not from hkind]
    exact ⟨by simp, by simp⟩).leads hd.ofText)

omit hd in
theorem operates_connective (h : env.OfText) (word : Keyword) (which : Connective) :
    Operates env (connective word which) := by
  refine fun low gathered => (gathers_consume h _).bind fun found => ?_
  cases found with
  | true => exact fun _ hd => .pure ⟨.refl hd.inside, hd, by rintro _ ⟨⟩ _ _; exact ⟨rfl, rfl⟩⟩
  | false => exact fun _ hd => .pure ⟨.refl hd.inside, hd, by rintro _ ⟨⟩⟩

theorem places_conjunction (rule : String) : Places env (conjunction deeper rule) one :=
  places_leftChain hd.ofText (places_negatable hd rule) (operates_connective hd.ofText _ _)
    (places_negatable hd rule)

/-- **A condition has its place.** -/
theorem places_disjunction (rule : String) : Places env (disjunction deeper rule) one :=
  places_leftChain hd.ofText (places_conjunction hd rule) (operates_connective hd.ofText _ _)
    (places_conjunction hd rule)

theorem places_condition : Places env (condition deeper) one := places_disjunction hd _

end

end Parse

end Jpql
