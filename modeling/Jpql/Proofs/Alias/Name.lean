import Jpql.Proofs.Alias.Step

/-! # Names and their mirror images

A name with what follows it is a path below the virtual variable. Where the alias is written out, the
same path starts at the alias, and the name is its first segment.

* `Rel.names_iff`: where a name stands in the one statement, there is one in the other.
* `segments_place`: the segments behind a name are the same in both.
* `Rel.path`: a path below the virtual variable, and its mirror image. -/

namespace Jpql.Mirror

open Parse

variable {M : Mirror} {s s' t : State}

/-! ## Where names stand -/

/-- A token that is no name stands alone. -/
theorem Rel.keeps_of_not_names (h : M.Rel s t) (hs : M.Leads s) {i : Nat} (hi : s.position ≤ i)
    (hlt : i < M.left.tokens.size) (hnames : ¬M.left.Names i) : M.tree.Keeps M.left.tokens[i] :=
  h.keeps hs hs hi hlt (.inr hnames) fun _ hge hread => absurd hread (Nat.not_lt.mpr hge)

/-- Behind a token that is no name, the other run sees the next token, or the alias in front of it. -/
theorem Rel.peek_kind (h : M.Rel s t) (hs : M.Leads s) (hnames : ¬M.left.Names s.position) :
    (t.stream M.right).peek.kind = (s.stream M.left).peek.kind ∨
      (s.stream M.left).peek.kind.isNaming = true ∧
        (t.stream M.right).peek.kind = .identifier M.v := by
  have hkeeps := h.keeps_of_not_names hs (Nat.le_refl _) hs.inside hnames
  rw [h.stream]
  refine (M.aliased.peek_place hs.inside hkeeps).imp_right ?_
  rintro ⟨hnext, hpath, hkind⟩
  exact ⟨(h.names hs (Nat.le_succ _) hnext hpath).isNaming, hkind⟩

/-- **Names stand where names stand.** -/
theorem Rel.names_iff (h : M.Rel s t) (hs : M.Leads s) :
    M.right.Names t.position ↔ M.left.Names s.position := by
  have hinside := hs.inside
  have hleft : TokenStream.kind ⟨M.left.source, M.left.tokens, s.position⟩ =
      M.left.tokens[s.position].kind := congrArg (·.kind) (Env.InOrder.current_eq hinside)
  rw [h.position]
  by_cases hnames : M.left.Names s.position
  · refine ⟨fun _ => hnames, fun _ => ?_⟩
    by_cases hpath : M.tree.startsPath M.left.tokens[s.position] = true
    · exact Env.names_iff.mpr (.inl ⟨_, (M.aliased.of_startsPath hinside hpath).1.kind_eq⟩)
    rw [Bool.not_eq_true] at hpath
    by_cases hentity : M.tree.startsEntity M.left.tokens[s.position] = true
    · -- the alias stands behind the name of the entity
      obtain ⟨hat, hnext, -⟩ := M.aliased.of_startsEntity hinside hpath hentity
      have hkind := hat.kind_eq
      have hpeek := hnext.kind_eq
      rw [← Env.peek_kind] at hpeek
      rw [← hleft] at hkind
      rcases Env.names_iff.mp hnames with ⟨name, hk⟩ | ⟨word, hk, hword, -⟩
      · exact Env.names_iff.mpr (.inl ⟨name, hkind.trans hk⟩)
      · refine Env.names_iff.mpr (.inr ⟨word, hkind.trans hk, hword, ?_⟩)
        show (TokenStream.peek ⟨M.right.source, M.right.tokens, M.place s.position⟩).kind ≠ _
        rw [show (TokenStream.peek ⟨M.right.source, M.right.tokens, M.place s.position⟩).kind = _ from
          hpeek]
        rintro ⟨⟩
    · have hkeeps : M.tree.Keeps M.left.tokens[s.position] := ⟨hpath, by simpa using hentity⟩
      have hkind := (M.aliased.of_keeps hinside hkeeps).1.kind_eq
      rw [← hleft] at hkind
      rcases Env.names_iff.mp hnames with ⟨name, hk⟩ | ⟨word, hk, hword, hparen⟩
      · exact Env.names_iff.mpr (.inl ⟨name, hkind.trans hk⟩)
      · refine Env.names_iff.mpr (.inr ⟨word, hkind.trans hk, hword, ?_⟩)
        show (TokenStream.peek ⟨M.right.source, M.right.tokens, M.place s.position⟩).kind ≠ _
        rcases M.aliased.peek_place hinside hkeeps with hpeek | ⟨-, -, hpeek⟩
        · exact fun hc => hparen (hpeek.symm.trans hc)
        · exact fun hc => by cases hpeek.symm.trans hc
  · refine ⟨fun hright => absurd ?_ hnames, fun hleft => absurd hleft hnames⟩
    have hkeeps := h.keeps_of_not_names hs (Nat.le_refl _) hinside hnames
    have hkind := (M.aliased.of_keeps hinside hkeeps).1.kind_eq
    rw [← hleft] at hkind
    rcases Env.names_iff.mp hright with ⟨name, hk⟩ | ⟨word, hk, hword, hparen⟩
    · exact Env.names_iff.mpr (.inl ⟨name, hkind.symm.trans hk⟩)
    · refine Env.names_iff.mpr (.inr ⟨word, hkind.symm.trans hk, hword, fun hc => ?_⟩)
      have hpeek := h.peek_kind hs hnames
      rw [h.stream] at hpeek
      rcases hpeek with hpeek | ⟨hnaming, -⟩
      · exact hparen (hpeek.trans hc)
      · rw [show (s.stream M.left).peek.kind = .leftParen from hc] at hnaming
        cases hnaming

/-- **The same constructs are triggered.** -/
theorem Rel.trigger? (h : M.Rel s t) (hs : M.Leads s) :
    Parse.trigger? (t.stream M.right) = Parse.trigger? (s.stream M.left) := by
  by_cases hnames : M.left.Names s.position
  · have hright := ((h.names_iff hs).mpr hnames).trigger?
    exact hright.trans hnames.trigger?.symm
  · have hright := Env.trigger?_of_not_names (fun hc => hnames ((h.names_iff hs).mp hc))
    have hkind := (h.kind_stream hs).resolve_right fun hc => hnames hc.1
    refine hright.trans ((congrArg _ hkind).trans (Env.trigger?_of_not_names hnames).symm)

/-- A negated word is ahead in both runs, or in neither. -/
theorem Rel.atNegatedWord (h : M.Rel s t) (hs : M.Leads s) :
    Parse.atNegatedWord (t.stream M.right) = Parse.atNegatedWord (s.stream M.left) := by
  unfold Parse.atNegatedWord
  rw [h.checkKeyword hs rfl]
  cases hcheck : (s.stream M.left).checkKeyword .not with
  | false => rfl
  | true =>
    have hnames : ¬M.left.Names s.position := fun hnames => by
      have hnaming := hnames.isNaming
      rw [show TokenStream.kind ⟨M.left.source, M.left.tokens, s.position⟩ = .keyword .not from
        TokenKind.eq_of_isKeyword hcheck] at hnaming
      cases hnaming
    rcases h.peek_kind hs hnames with hpeek | ⟨hnaming, hpeek⟩
    · rw [hpeek]
    · rw [hpeek]
      generalize (s.stream M.left).peek.kind = kind at hnaming
      cases kind with
      | keyword word => cases word <;> first | rfl | cases hnaming
      | _ => rfl

/-! ## Segments -/

/-- Whether a token can be a segment depends on its kind alone. -/
theorem pathSegment?_eq_none {a b : TokenStream} (hkind : a.kind = b.kind)
    (h : b.pathSegment? = none) : a.pathSegment? = none := by
  unfold TokenStream.pathSegment? at h ⊢
  rw [hkind]
  split at h <;> first | rfl | cases h

/-- A token that stands alone is moved over in both runs. -/
theorem advance_place {i : Nat} (hi : i < M.left.tokens.size) (hnext : i + 1 < M.left.tokens.size)
    (hkeeps : M.tree.Keeps M.left.tokens[i]) :
    TokenStream.advance ⟨M.right.source, M.right.tokens, M.place i⟩ =
      ⟨M.right.source, M.right.tokens, M.place (i + 1)⟩ := by
  have hsucc : M.place (i + 1) = M.place i + 1 :=
    (M.aliased.of_keeps hi hkeeps).2
  have hmore : M.place (i + 1) < M.right.tokens.size := M.aliased.place_lt hnext
  rw [hsucc] at hmore ⊢
  exact Env.advance_eq hmore

/-- A dot is ahead in both runs, or in neither. -/
theorem check_dot_place {i : Nat} (hi : i < M.left.tokens.size) :
    TokenStream.check ⟨M.right.source, M.right.tokens, M.place i⟩ .dot =
        TokenStream.check ⟨M.left.source, M.left.tokens, i⟩ .dot ∨
      M.tree.startsPath M.left.tokens[i] = true ∧
        TokenStream.check ⟨M.right.source, M.right.tokens, M.place i⟩ .dot = false := by
  have hcurrent : TokenStream.current ⟨M.left.source, M.left.tokens, i⟩ = M.left.tokens[i] :=
    Env.InOrder.current_eq hi
  unfold TokenStream.check
  refine (M.aliased.kind_place hi).imp (fun hkind => ?_) fun ⟨hpath, hkind⟩ => ⟨hpath, ?_⟩
  · rw [TokenStream.kind, TokenStream.kind, hcurrent]
    exact congrArg (· == TokenKind.dot) hkind
  · exact congrArg (· == TokenKind.dot) hkind

/-- **The segments behind a name are the same in both statements.** -/
theorem segments_place {i n m : Nat} (hi : i < M.left.tokens.size) (hn : M.left.tokens.size ≤ i + n)
    (hm : M.right.tokens.size ≤ M.place i + m)
    (hnames : ∀ j, i ≤ j → ∀ hj : j < M.left.tokens.size,
      M.tree.startsPath M.left.tokens[j] = true → M.left.Names j)
    (hkeeps : ∀ j, i ≤ j → ∀ hj : j < M.left.tokens.size,
      j < (TokenStream.segments n ⟨M.left.source, M.left.tokens, i⟩).2.position →
      M.tree.Keeps M.left.tokens[j]) :
    let found := TokenStream.segments n ⟨M.left.source, M.left.tokens, i⟩
    let other := TokenStream.segments m ⟨M.right.source, M.right.tokens, M.place i⟩
    other.1.1.map (·.value) = found.1.1.map (·.value) ∧ other.1.2 = found.1.2 ∧
      other.2.position = M.place found.2.position := by
  have hnaming : ∀ j, i ≤ j → ∀ hj : j < M.left.tokens.size,
      M.tree.startsPath M.left.tokens[j] = true →
        TokenStream.check ⟨M.left.source, M.left.tokens, j⟩ .dot = false := by
    intro j hij hj hpath
    refine beq_eq_false_iff_ne.mpr fun hkind => ?_
    have hnames := (hnames j hij hj hpath).isNaming
    rw [hkind] at hnames
    cases hnames
  refine Env.segments_along M.aliased.inOrder (f := M.place) hi hn hm
    (fun j hij hj => ⟨M.aliased.place_lt hj, ?_, fun hnone => ?_⟩)
    fun j hij hj hbefore => M.aliased.of_keeps hj (hkeeps j hij hj hbefore)
  · exact (check_dot_place hj).elim id fun ⟨hpath, hother⟩ => hother.trans (hnaming j hij hj hpath).symm
  · rcases M.aliased.kind_place hj with hsame | ⟨hpath, -⟩
    · exact pathSegment?_eq_none
        (hsame.trans (congrArg Token.kind (Env.InOrder.current_eq hj)).symm) hnone
    · have hsome := (hnames j hij hj hpath).pathSegment?
      rw [hnone] at hsome
      cases hsome

/-! ## Paths below the virtual variable -/

/-- A node that cannot be in a statement without alias stays, so it is not there. -/
theorem Leads.not_kept (hs : M.Leads s) {id : Nat} (hid : id < s.draft.size)
    (hkind : (s.draft.kind id).omitsAlias M.tree.kind = false) : False := by
  have homits := M.omits id (Nat.lt_of_lt_of_le hid hs.size_le)
  rcases hs.kind_eq id hid with hk | hk <;> rw [hk] at homits
  · rw [hkind] at homits
    cases homits
  · rw [NodeKind.omitsAlias_asCollection, hkind] at homits
    cases homits

/-- There are no types in the first run. -/
theorem Leads.ne_type (hs : M.Leads s) (id : Nat) (expression : NodeId) :
    s.draft.kind id ≠ .type expression := by
  intro hkind
  rcases Nat.lt_or_ge id s.draft.size with hlt | hge
  · exact hs.not_kept hlt (by rw [hkind]; rfl)
  · rw [Draft.kind, TreeBuilder.kind_of_size_le hge] at hkind
    cases hkind

/-- A name is its text. -/
theorem identifier?_eq {i : Nat} (hi : i < M.left.tokens.size) (h : M.left.Names i) :
    TokenStream.identifier? ⟨M.left.source, M.left.tokens, i⟩ =
      some (TokenStream.currentText ⟨M.left.source, M.left.tokens, i⟩) := by
  have hcurrent : TokenStream.current ⟨M.left.source, M.left.tokens, i⟩ = M.left.tokens[i] :=
    Env.InOrder.current_eq hi
  unfold Env.Names TokenStream.identifier? at h
  unfold TokenStream.identifier?
  split at h
  · next name hk =>
    rw [TokenStream.kind, hcurrent] at hk
    rw [TokenStream.currentText, hcurrent,
      M.aliased.words _ (Array.getElem_mem_toList hi) name hk]
  · next word hk =>
    split at h
    · next hc => exact if_pos hc
    · cases h
  · cases h

/-- A name is a segment where it stands behind a dot. -/
theorem pathSegment?_of_names {i : Nat} (hi : i < M.left.tokens.size) (h : M.left.Names i) :
    TokenStream.pathSegment? ⟨M.left.source, M.left.tokens, i⟩ =
      some (TokenStream.currentText ⟨M.left.source, M.left.tokens, i⟩) := by
  have hname := identifier?_eq hi h
  unfold TokenStream.pathSegment?
  unfold TokenStream.identifier? at hname
  rcases Env.names_iff.mp h with ⟨name, hk⟩ | ⟨word, hk, -⟩
  · rw [hk] at hname ⊢
    exact hname
  · rw [hk]

/-- The tokens from a name up to the end of its path. -/
def found (M : Mirror) (s : State) : (List (Located String) × Bool) × TokenStream :=
  (s.stream M.left).advance.segments M.left.tokens.size

/-- Where the path that starts at the alias ends in the other run. -/
def lastFound (M : Mirror) (t : State) : Nat :=
  ((t.stream M.right).advance.segments M.right.tokens.size).2.position

/-- The state behind a name, with the path that it starts below the virtual variable. -/
def pathState (M : Mirror) (s : State) (owner : String) (field : Located String) (span : Span) :
    State :=
  let root := s.draft.push (.identifier owner true none) (.point field.span.start)
  ({ s with position := (M.found s).2.position } : State).write
    (root.push (.path .stateField s.draft.size (field :: (M.found s).1.1) (M.found s).1.2) span)

section Path

variable {owner : String} {field : Located String} {span : Span}

/-- A path below the virtual variable is two nodes. -/
theorem size_pathState : (M.pathState s owner field span).draft.size = s.draft.size + 2 := by
  show ((s.draft.push _ _).push _ _).size = _
  rw [Draft.size_push, Draft.size_push]

/-- The second of them is the path. -/
theorem kind_pathState : (M.pathState s owner field span).draft.kind (s.draft.size + 1) =
    .path .stateField s.draft.size (field :: (M.found s).1.1) (M.found s).1.2 := by
  have hroot : (s.draft.push (.identifier owner true none) (.point field.span.start)).size =
      s.draft.size + 1 := Draft.size_push _ _ _
  show ((s.draft.push _ _).push _ _).kind (s.draft.size + 1) = _
  rw [← hroot, Draft.kind_push]

theorem le_found : s.position ≤ (M.found s).2.position :=
  (le_advance (s.stream M.left)).trans (le_segments _ _)

/-- **Before a path below the virtual variable** the run led to the finished tree, and also between
its two nodes. -/
theorem Leads.back_path (hs' : M.Leads (M.pathState s owner field span))
    (hspan : span.start = field.span.start)
    (hstart : field.span.start = M.left.startAt s.position) (hnames : M.left.Names s.position) :
    M.Leads s ∧ M.Leads (s.write
      (s.draft.push (.identifier owner true none) (.point field.span.start))) := by
  have hle := le_found (M := M) (s := s)
  have hroot : M.Leads (s.write
      (s.draft.push (.identifier owner true none) (.point field.span.start))) :=
    hs'.pushBack rfl hle fun _ => ⟨hnames, hspan.trans hstart⟩
  exact ⟨hroot.pushBack rfl (Nat.le_refl _) (by rintro ⟨⟩), hroot⟩

/-- The path is the second node behind what there was. -/
theorem Leads.path_adds (hs' : M.Leads (M.pathState s owner field span)) :
    M.Adds (.path .stateField s.draft.size (field :: (M.found s).1.1) (M.found s).1.2)
      (({ s with position := (M.found s).2.position } : State).write
        (s.draft.push (.identifier owner true none) (.point field.span.start))) :=
  Leads.adds hs'

/-- The path of a name starts at its token in the finished tree, and is the only one that was read. -/
theorem Leads.path_starts (hs' : M.Leads (M.pathState s owner field span))
    (hspan : span.start = field.span.start)
    (hstart : field.span.start = M.left.startAt s.position) :
    (∃ id < M.tree.size, (M.tree.kind id).isPath = true ∧
      (M.tree.span id).start = M.left.startAt s.position) ∧
    ∀ id, s.draft.size ≤ id → id < (M.pathState s owner field span).draft.size →
      (M.tree.kind id).isAliased = true → (M.tree.span id).start = M.left.startAt s.position := by
  have hsize : (M.pathState s owner field span).draft.size = s.draft.size + 2 := size_pathState
  have hroot : (s.draft.push (.identifier owner true none) (.point field.span.start)).size =
      s.draft.size + 1 := Draft.size_push _ _ _
  have hpathSpan : (M.tree.span (s.draft.size + 1)).start = M.left.startAt s.position := by
    rw [hs'.span_eq _ (by omega)]
    show (((s.draft.push _ _).push _ _).span (s.draft.size + 1)).start = _
    rw [← hroot, Draft.span_push, hspan, hstart]
  refine ⟨⟨s.draft.size + 1, ?_, ?_, hpathSpan⟩, fun id hge hread haliased => ?_⟩
  · have := hs'.size_le
    omega
  · rcases hs'.kind_eq (s.draft.size + 1) (by omega) with hk | hk <;> rw [hk, kind_pathState] <;> rfl
  · rcases (show id = s.draft.size ∨ id = s.draft.size + 1 by omega) with rfl | rfl
    · rw [hs'.isAliased (by omega)] at haliased
      change (((s.draft.push _ _).push _ _).kind s.draft.size).isAliased = true at haliased
      rw [(Draft.grows_push _ _ _).kind_eq _ (by omega), Draft.kind_push] at haliased
      cases haliased
    · exact hpathSpan

end Path

/-- **Where a path starts at a name, the other run sees the alias and the same path behind it.** -/
theorem Rel.found (h : M.Rel s t) (hs : M.Leads s) (hnames : M.left.Names s.position)
    (hpath : M.tree.startsPath (s.stream M.left).current = true)
    (hkeeps : ∀ j, s.position < j → ∀ hj : j < M.left.tokens.size, j < (M.found s).2.position →
      M.tree.Keeps M.left.tokens[j]) :
    ∃ segments : List (Located String),
      (t.stream M.right).identifier? = some M.v ∧ (t.stream M.right).currentText = M.v ∧
      segments.map (·.value) =
        (s.stream M.left).currentText :: (M.found s).1.1.map (·.value) ∧
      ((t.stream M.right).advance.segments M.right.tokens.size).1 = (segments, (M.found s).1.2) ∧
      ((t.stream M.right).advance.segments M.right.tokens.size).2.position =
        M.place (M.found s).2.position := by
  have hinside := hs.inside
  have hnext := hnames.succ_lt M.aliased.inOrder hinside
  have hadvance : (s.stream M.left).advance = ⟨M.left.source, M.left.tokens, s.position + 1⟩ :=
    Env.advance_eq hnext
  rw [show (s.stream M.left).current = M.left.tokens[s.position] from
    Env.InOrder.current_eq hinside] at hpath
  obtain ⟨halias, hdot, hname, hplace⟩ := M.aliased.of_startsPath hinside hpath
  change M.place (s.position + 1) = M.place s.position + 3 at hplace
  change M.right.TokenAt (M.place s.position + 2) _ at hname
  have hright : M.place (s.position + 1) < M.right.tokens.size := M.aliased.place_lt hnext
  have hadvance₁ : (t.stream M.right).advance =
      ⟨M.right.source, M.right.tokens, M.place s.position + 1⟩ := by
    rw [h.stream]
    exact Env.advance_eq (by omega)
  have hadvance₂ : TokenStream.advance ⟨M.right.source, M.right.tokens, M.place s.position + 1⟩ =
      ⟨M.right.source, M.right.tokens, M.place s.position + 2⟩ := Env.advance_eq (by omega)
  have hadvance₃ : TokenStream.advance ⟨M.right.source, M.right.tokens, M.place s.position + 2⟩ =
      ⟨M.right.source, M.right.tokens, M.place (s.position + 1)⟩ := by
    rw [hplace]
    exact Env.advance_eq (by omega)
  have hsegment := hname.pathSegment?_eq.trans (pathSegment?_of_names hinside hnames)
  obtain ⟨m, hm⟩ : ∃ m, M.right.tokens.size = m + 1 := ⟨M.right.tokens.size - 1, by omega⟩
  have hfound := segments_place (n := M.left.tokens.size) (m := m) hnext (Nat.le_add_left _ _)
    (by omega) (fun j hj hlt hpath => h.names hs (by omega) hlt hpath) (by
      rw [← hadvance]
      exact hkeeps)
  rw [← hadvance] at hfound
  obtain ⟨hvalues, hends, hposition⟩ := hfound
  have hother := TokenStream.segments_of_some
    (show TokenStream.check ⟨M.right.source, M.right.tokens, M.place s.position + 1⟩ .dot = true from
      beq_iff_eq.mpr hdot.kind_eq) (hadvance₂ ▸ hsegment) m
  rw [hadvance₂, hadvance₃, ← hm, ← hadvance₁] at hother
  rw [hother]
  refine ⟨_, ?_, ?_, ?_, Prod.ext rfl hends, hposition⟩
  · rw [h.stream]
    exact TokenStream.identifier?_of_kind halias.kind_eq
  · rw [h.stream]
    exact halias.currentText_eq
  · rw [List.map_cons, hvalues]
    rfl

/-- **A path below the virtual variable, and its mirror image.** The name is the first segment behind
the alias. -/
theorem Rel.path (h : M.Rel s t) {owner : String} {field : Located String} {span : Span}
    (hs' : M.Leads (M.pathState s owner field span)) (hspan : span.start = field.span.start)
    (hstart : field.span.start = M.left.startAt s.position) (hnames : M.left.Names s.position)
    (howner : s.virtualVariable = some owner) (hvalue : field.value = (s.stream M.left).currentText) :
    ∃ segments : List (Located String), segments ≠ [] ∧
      (t.stream M.right).identifier? = some M.v ∧ (t.stream M.right).currentText = M.v ∧
      ((t.stream M.right).advance.segments M.right.tokens.size).1 = (segments, (M.found s).1.2) ∧
      M.tree.image (s.draft.size + 1) = t.draft.size + 1 ∧
      ∀ root place, M.Rel (M.pathState s owner field span)
        (({ t with position :=
            ((t.stream M.right).advance.segments M.right.tokens.size).2.position } : State).write
          ((t.draft.push (.identifier M.v false none) root).push
            (.path .stateField t.draft.size segments (M.found s).1.2) place)) := by
  obtain ⟨hs, hroot⟩ := hs'.back_path hspan hstart hnames
  obtain ⟨hstarts, honly⟩ := hs'.path_starts hspan hstart
  have hinside := hs.inside
  have hcurrent : (s.stream M.left).current = M.left.tokens[s.position] :=
    Env.InOrder.current_eq hinside
  have hmoved : s.position + 1 ≤ (M.found s).2.position := by
    have hle := le_segments M.left.tokens.size (s.stream M.left).advance
    rw [show (s.stream M.left).advance.position = s.position + 1 from
      congrArg (·.position) (Env.advance_eq (hnames.succ_lt M.aliased.inOrder hinside))] at hle
    exact hle
  have hkeeps : ∀ j, s.position < j → ∀ hj : j < M.left.tokens.size, j < (M.found s).2.position →
      M.tree.Keeps M.left.tokens[j] := by
    intro j hj hlt hbefore
    refine h.keeps hs hs' (Nat.le_of_lt hj) hlt (.inl hbefore) fun id hge hread haliased heq => ?_
    have hsame := M.aliased.inOrder.startAt_inj hinside hlt ((honly id hge hread haliased).symm.trans heq)
    omega
  obtain ⟨segments, hname, htext, hvalues, hfound, hposition⟩ := h.found hs hnames (by
    rw [Tree.startsPath, Bool.and_eq_true, Tree.any_starts, hcurrent]
    obtain ⟨id, hid, hpath, hspan⟩ := hstarts
    have hnaming := hnames.isNaming
    rw [TokenStream.kind, Env.InOrder.current_eq hinside] at hnaming
    exact ⟨hnaming, id, hid, hpath, hspan.trans (Env.InOrder.startAt_eq hinside)⟩) hkeeps
  have himage : M.tree.image s.draft.size = t.draft.size := by
    rw [Tree.image_eq_rank hroot.adds.isField, h.size]
  refine ⟨segments, ?_, hname, htext, hfound, ?_, fun root place => ?_⟩
  · rintro rfl
    cases hvalues
  · have hroots : (s.draft.push (.identifier owner true none) (.point field.span.start)).size =
        s.draft.size + 1 := Draft.size_push _ _ _
    have hfinal : (M.tree.kind (s.draft.size + 1)).isField = false := by
      rw [← hroots]
      exact hs'.path_adds.isField
    rw [Tree.image_eq_rank hfinal, Tree.rank_succ hroot.adds.isField, h.size]
  · have hroot' := (h.move (by omega) hposition).push (.identifier M.v false none)
      (.point field.span.start) root hs.isField hroot.adds (.refl _) rfl
      (fun _ heq => by cases heq; exact h.owner _ howner) (fun haliased => by cases haliased)
    refine hroot'.push (.path .stateField t.draft.size segments (M.found s).1.2) span place
      hroot.isField hs'.path_adds ?_ rfl (fun _ heq => by cases heq)
      fun _ => ⟨s.position, hmoved, hspan.trans hstart⟩
    rw [← himage]
    refine .path _ _ _ ?_
    rw [List.map_cons, hvalues, hvalue]

/-- **The virtual variable of a bare field is added.** The other run has the path of the field alone. -/
theorem Rel.pushField (h : M.Rel s t) {name : String} {path : Nat} {span : Span}
    (hadds : M.Adds (.identifier name true (some path)) s) (hnext : path + 1 = s.draft.size)
    (hpath : (s.draft.kind path).isPath = true) :
    M.Rel (s.write (s.draft.push (.identifier name true (some path)) span)) t := by
  have hsize : (s.draft.push (.identifier name true (some path)) span).size = s.draft.size + 1 :=
    Draft.size_push _ _ _
  have hkind : ∀ id < s.draft.size,
      (s.draft.push (.identifier name true (some path)) span).kind id = s.draft.kind id :=
    (s.draft.grows_push _ span).kind_eq
  have hnew : (s.draft.push (.identifier name true (some path)) span).kind s.draft.size = _ :=
    Draft.kind_push _ _ _
  have hcases : ∀ id < (s.draft.push (.identifier name true (some path)) span).size,
      id < s.draft.size ∨ id = s.draft.size := fun id hid => by omega
  refine ⟨h.position, h.owner, fun id hid other hk => ?_, h.virtualRight, h.problems, ?_,
    fun id hid hnot => ?_,
    fun id hid other isVirtual target hk => ?_, fun id hid haliased => ?_, h.noType⟩
  · change (s.draft.push _ span).kind id = _ at hk
    rcases hcases id hid with hold | rfl
    · exact h.virtualLeft id hold other ((hkind id hold).symm.trans hk)
    · rw [hnew] at hk
      cases hk
  · show _ = M.tree.rank (s.draft.push (.identifier name true (some path)) span).size
    rw [hsize, Tree.rank_succ_of_isField hadds.isField, h.size]
  · change ((s.draft.push _ span).kind id).isField = false at hnot
    show M.tree.Matches M.v ((s.draft.push _ span).kind id) _ id
    rcases hcases id hid with hold | rfl
    · rw [hkind id hold] at hnot ⊢
      exact h.kind id hold hnot
    · rw [hnew] at hnot
      cases hnot
  · change (s.draft.push _ span).kind id = _ at hk
    show target + 1 = id ∧ ((s.draft.push _ span).kind target).isPath = true
    rcases hcases id hid with hold | rfl
    · obtain ⟨hn, hp⟩ := h.field id hold other isVirtual target ((hkind id hold).symm.trans hk)
      rw [hkind target (by omega)]
      exact ⟨hn, hp⟩
    · rw [hnew] at hk
      cases hk
      rw [hkind path (by omega)]
      exact ⟨hnext, hpath⟩
  · change ((s.draft.push _ span).kind id).isAliased = true at haliased
    show ∃ i < s.position, ((s.draft.push _ span).span id).start = M.left.startAt i
    rcases hcases id hid with hold | rfl
    · rw [hkind id hold] at haliased
      rw [Draft.span_push_of_lt _ _ _ hold]
      exact h.behind id hold haliased
    · rw [hnew] at haliased
      cases haliased

/-! ## Readers of names -/

/-- A variable that is written in the text stays, so nothing more is read. -/
theorem not_leads_variable {name : String} {span : Span} (hs' : M.Leads s')
    (hgrows : (s.draft.push (.identifier name false none) span).Grows s'.draft) : False := by
  have hlt : s.draft.size < (s.draft.push (.identifier name false none) span).size := by
    rw [Draft.size_push]
    exact Nat.lt_succ_self _
  refine hs'.not_kept (Nat.lt_of_lt_of_le hlt hgrows.size_le) ?_
  rw [hgrows.kind_eq _ hlt, Draft.kind_push]
  rfl

section

variable {env : Env} {name : String} {place : Span} {owner : String}
  {below : List (Located String) → Bool → String → Parser NodeId}
  {atRoot : List (Located String) → Bool → NodeId → Parser NodeId}

theorem afterName_of_some
    (h : s.virtualVariable.filter (fun owner => !Text.sameWord name owner) = some owner) :
    afterName name place below atRoot env s =
      let found := (s.stream env).advance.segments env.tokens.size
      below found.1.1 found.1.2 owner env { s with position := found.2.position } := by
  rw [afterName_run, h]

theorem afterName_of_none
    (h : s.virtualVariable.filter (fun owner => !Text.sameWord name owner) = none) :
    afterName name place below atRoot env s =
      let found := (s.stream env).advance.segments env.tokens.size
      (pushVariable name place >>= atRoot found.1.1 found.1.2) env
        { s with position := found.2.position } := by
  rw [afterName_run, h]

end

/-- What the first run does behind a name: it adds a path, and perhaps a virtual variable for it. -/
def fieldPath (owner : String) (field : Located String) (segments : List (Located String))
    (dot bare : Bool) : Parser NodeId := do
  let path ← pushVirtualPath owner field segments dot
  if bare then push (.identifier field.value true (some path)) field.span else return path

theorem pushVirtualPath_run {owner : String} {field : Located String} {y : NodeId} {u : State}
    (hrun : pushVirtualPath owner field (M.found s).1.1 (M.found s).1.2 M.left
      { s with position := (M.found s).2.position } = .ok (y, u)) :
    y = s.draft.size + 1 ∧ ∃ span : Span, span.start = field.span.start ∧
      u = M.pathState s owner field span := by
  have hpath : pushVirtualPath owner field (M.found s).1.1 (M.found s).1.2 M.left
      { s with position := (M.found s).2.position } =
        .ok ((s.draft.push (.identifier owner true none) (.point field.span.start)).size,
          M.pathState s owner field (M.left.upTo field.span.start (M.found s).2.position)) := rfl
  rw [hpath] at hrun
  obtain ⟨rfl, rfl⟩ := Prod.mk.inj (Except.ok.inj hrun)
  exact ⟨Draft.size_push s.draft _ _, M.left.upTo field.span.start (M.found s).2.position, rfl, rfl⟩

/-- **A name and its mirror image.** Behind the name is a path below the virtual variable; in the other
run it starts at the alias. -/
theorem afterName_mirror (hnames : M.left.Names s.position) (bare : List (Located String) → Bool → Bool)
    {atRoot : List (Located String) → Bool → NodeId → Parser NodeId} {y : NodeId}
    (hroot : ∀ segments dot root s, After M.left (atRoot segments dot root) s fun _ t =>
      s.draft.Grows t.draft)
    (hrun : afterName (s.stream M.left).currentText (s.stream M.left).current.span
      (fun segments dot owner => fieldPath owner
        ⟨(s.stream M.left).currentText, (s.stream M.left).current.span⟩ segments dot
        (bare segments dot)) atRoot M.left s = .ok (y, s')) (hs' : M.Leads s') :
    M.Leads s ∧ s.position ≤ s'.position ∧ (M.Rel s t →
      (t.stream M.right).identifier? = some M.v ∧ (t.stream M.right).currentText = M.v ∧
      ∃ segments : List (Located String), segments ≠ [] ∧ ∃ dot,
        ((t.stream M.right).advance.segments M.right.tokens.size).1 = (segments, dot) ∧
        ∀ place, ∃ t', (pushVariable M.v place >>= fun root =>
            pushFrom (.path .stateField root segments dot) place.start) M.right
          { t with position :=
            ((t.stream M.right).advance.segments M.right.tokens.size).2.position } =
              .ok (M.tree.image y, t') ∧ M.Rel s' t') := by
  cases howner : s.virtualVariable.filter
      fun owner => !Text.sameWord (s.stream M.left).currentText owner with
  | none =>
    rw [afterName_of_none howner] at hrun
    exact (not_leads_variable hs' (hroot _ _ _ _ _ _ hrun)).elim
  | some owner =>
    rw [afterName_of_some howner] at hrun
    dsimp only at hrun
    unfold fieldPath at hrun
    obtain ⟨path, u, hpath, hrest⟩ := bind_eq_ok hrun
    obtain ⟨rfl, span, hspan, rfl⟩ := pushVirtualPath_run hpath
    have hstart : (s.stream M.left).current.span.start = M.left.startAt s.position := rfl
    have hfirst : s.virtualVariable = some owner := (Option.filter_eq_some_iff.mp howner).1
    have hsize : (M.pathState s owner ⟨(s.stream M.left).currentText,
        (s.stream M.left).current.span⟩ span).draft.size = s.draft.size + 2 := size_pathState
    split at hrest
    · next hbare =>
      -- the virtual variable of a bare field is added behind its path
      obtain ⟨rfl, rfl⟩ := After.push _ _ _ _ hrest
      have hadds := hs'.adds
      have hpath := hs'.pushBack rfl (Nat.le_refl _) (by rintro ⟨⟩)
      refine ⟨(hpath.back_path hspan hstart hnames).1, le_found, fun hrel => ?_⟩
      obtain ⟨segments, hne, hname, htext, hfound, himage, hpair⟩ :=
        hrel.path hpath hspan hstart hnames hfirst rfl
      refine ⟨hname, htext, segments, hne, _, hfound, fun place =>
        ⟨_, ?_, (hpair place (M.right.upTo place.start (M.lastFound t))).pushField hadds hsize.symm ?_⟩⟩
      · have hbare := hadds.isField
        rw [hsize] at hbare
        refine congrArg Except.ok (Prod.ext ?_ rfl)
        show (t.draft.push (.identifier M.v false none) place).size = _
        rw [Draft.size_push, hsize, Tree.image_succ hbare, himage]
      · rw [kind_pathState]
        rfl
    · next hbare =>
      obtain ⟨rfl, rfl⟩ := Prod.mk.inj (Except.ok.inj hrest)
      refine ⟨(hs'.back_path hspan hstart hnames).1, le_found, fun hrel => ?_⟩
      obtain ⟨segments, hne, hname, htext, hfound, himage, hpair⟩ :=
        hrel.path hs' hspan hstart hnames hfirst rfl
      refine ⟨hname, htext, segments, hne, _, hfound, fun place =>
        ⟨_, ?_, hpair place (M.right.upTo place.start (M.lastFound t))⟩⟩
      refine congrArg Except.ok (Prod.ext ?_ rfl)
      show (t.draft.push (.identifier M.v false none) place).size = _
      rw [Draft.size_push, himage]

/-- What stands behind the name of a variable that is written in the text. -/
def variablePath (start : Nat) (segments : List (Located String)) (dot : Bool) (root : NodeId) :
    Parser NodeId :=
  if segments.isEmpty && !dot then return root
  else pushFrom (.path .stateField root segments dot) start

theorem pathOrVariable_run (env : Env) (s : State) : Parse.pathOrVariable env s =
    afterName (s.stream env).currentText (s.stream env).current.span
      (fun segments dot owner => fieldPath owner
        ⟨(s.stream env).currentText, (s.stream env).current.span⟩ segments dot
        (segments.isEmpty && !dot))
      (variablePath (s.stream env).current.span.start) env s := rfl

theorem variablePath_grows (env : Env) (start : Nat) (segments : List (Located String)) (dot : Bool)
    (root : NodeId) (s : State) :
    After env (variablePath start segments dot root) s fun _ t => s.draft.Grows t.draft := by
  unfold variablePath
  split
  · exact .pure (.refl _)
  · refine (After.pushFrom _ _).mono ?_
    rintro _ _ ⟨-, rfl⟩
    exact s.draft.grows_push _ _

namespace FollowsAt

/-- **A name is followed** with what stands behind it. -/
theorem pathOrVariable (hnames : M.left.Names s.position) :
    M.FollowsAt s t (fun _ => True) Parse.pathOrVariable Parse.pathOrVariable (fun _ _ => True)
      M.tree.image := by
  intro y s' hrun hs' _
  rw [pathOrVariable_run] at hrun
  obtain ⟨hs, hle, hmirror⟩ := afterName_mirror hnames
    (fun segments dot => segments.isEmpty && !dot) (variablePath_grows _ _) hrun hs'
  refine ⟨hs, trivial, hle, fun hrel => ?_⟩
  obtain ⟨-, htext, segments, hne, dot, hfound, hpath⟩ := hmirror hrel
  obtain ⟨t', hright, hrel'⟩ := hpath (t.stream M.right).current.span
  refine ⟨t', ?_, hrel'⟩
  have hnone : t.virtualVariable.filter (fun owner =>
      !Text.sameWord (t.stream M.right).currentText owner) = none := by
    rw [hrel.virtualRight]
    rfl
  rw [pathOrVariable_run, afterName_of_none hnone]
  dsimp only
  rw [hfound, htext]
  cases segments with
  | nil => exact absurd rfl hne
  | cons => exact hright

end FollowsAt

end Jpql.Mirror
