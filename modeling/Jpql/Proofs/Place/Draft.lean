import Jpql.Proofs.Reader.Cover
import Jpql.Proofs.Token.Boundary

/-! # Drafts with nodes in their places

Every span fits the text, and a node reaches around its children (`Parse.Draft.Placed`). Two constructs
are the exception: a range and an item of `SET` start at the current token even if the part they begin
with is missing, and what is missing is placed right behind the token before. Such a node lacks its head
(`NodeKind.LacksHead`). It does not reach back to the missing part, and if nothing at all was read for it,
it stays empty, behind the text that the clause around it covers (`Adrift`).

Where nothing is reported, a node has the span of the tokens it was read from, and only virtual variables
are empty (`Parse.Draft.Exact`).

* `Nests`: how the span of a node and that of a child of it lie.
* `Parse.Draft.Stays`: a later draft keeps the nodes of an earlier one.
* `Parse.Draft.Placed.push`, `Parse.Draft.Exact.push`: what a new node has to satisfy.
* `Parse.Env.OfText`: the tokens are those of a text. -/

namespace Jpql

/-! ## Parents and children -/

namespace NodeKind

/-- The segments of a path. -/
def segments : NodeKind → List (Located String)
  | .path _ _ segments _ => segments
  | _ => []

/-- **The part is missing that the node begins with**: what a range goes over, or the target of an item
of `SET`. -/
def LacksHead (kind : NodeId → NodeKind) : NodeKind → Prop
  | .rangeDeclaration root _ _ => kind root = .bad
  | .updateItem target _ => kind target = .bad
  | _ => False

/-- A child decides whether the head is missing. -/
theorem LacksHead.mono {kind later : NodeId → NodeKind} {node : NodeKind} (h : node.LacksHead kind)
    (hchildren : ∀ child ∈ node.children, kind child = .bad → later child = .bad) :
    node.LacksHead later := by
  cases node with
  | rangeDeclaration root hasAs declared => exact hchildren root (by simp [children]) h
  | updateItem target value => exact hchildren target (by simp [children]) h
  | _ => exact h

theorem segments_asCollection (kind : NodeKind) : kind.asCollection.segments = kind.segments := by
  cases kind <;> rfl

theorem asCollection_asCollection (kind : NodeKind) :
    kind.asCollection.asCollection = kind.asCollection := by
  cases kind <;> rfl

end NodeKind

/-- **A declaration or an item that lacks its head.** -/
def Adrift (kind : NodeId → NodeKind) (id : NodeId) : Prop :=
  (kind id).LacksHead kind ∨
    ∃ range joins, kind id = .variableDeclaration range joins ∧ (kind range).LacksHead kind

/-- **How a node and a child of it lie.** The node reaches around the child. A node that lacks its head
may start behind a child, and an empty child that lacks its own may lie behind the node. -/
structure Nests (kind : NodeId → NodeKind) (span : NodeId → Span) (id child : NodeId) : Prop where
  start : (span id).start ≤ (span child).start ∨ (kind id).LacksHead kind
  stop : (span child).stop ≤ (span id).stop ∨
    Adrift kind child ∧ (span child).start = (span child).stop

/-- **A node ends before a later one starts**, or where it does. -/
def Precedes (span : NodeId → Span) (id later : NodeId) : Prop := (span id).stop ≤ (span later).start

namespace Parse

variable {α β : Type} {env : Env} {s t u : State}

/-! ## Spans of tokens -/

/-- A token starts at the offset that was moved over on the way to the position. -/
def Env.Begun (env : Env) (position offset : Nat) : Prop := ∃ i < position, offset = env.startAt i

/-- **A span of tokens**: from the start of one to the end of that or a later one. -/
def Env.Whole (env : Env) (span : Span) : Prop :=
  ∃ i j, i < j ∧ j ≤ env.tokens.size - 1 ∧ span = ⟨env.startAt i, env.endBefore j⟩

/-- **What a node marks in a text**: a span of tokens, or nothing if it is a virtual variable. -/
def Env.Exact (env : Env) (kind : NodeKind) (span : Span) : Prop :=
  env.Whole span ∨ (∃ name, kind = .identifier name true none) ∧ span.start = span.stop

/-- **What is cut off of a level**: from a token that neither closes the level nor ends the text up to the
last token before the one that does. -/
def Env.CutOff (env : Env) (span : Span) : Prop :=
  ∃ s : State, s.position ≤ env.tokens.size - 1 ∧ (s.stream env).kind ≠ .eof ∧
    (s.stream env).kind ≠ .rightParen ∧
    span = env.upTo (env.startAt s.position) ((s.stream env).skipLevel env.tokens.size 0).position

theorem Env.Begun.mono {offset p q : Nat} (h : env.Begun p offset) (hle : p ≤ q) :
    env.Begun q offset := by
  obtain ⟨i, hi, hoffset⟩ := h
  exact ⟨i, Nat.lt_of_lt_of_le hi hle, hoffset⟩

/-- From a token that was moved over up to the last one. -/
theorem Env.Begun.whole {position offset : Nat} (h : env.Begun position offset)
    (hp : position ≤ env.tokens.size - 1) : env.Whole ⟨offset, env.endBefore position⟩ := by
  obtain ⟨i, hi, rfl⟩ := h
  exact ⟨i, position, hi, hp, rfl⟩

/-! ## Drafts -/

namespace Draft

/-- **A later draft keeps the nodes of an earlier one**, with their spans, and its problems; a path may be
read as collection-valued. -/
structure Stays (before after : Draft) : Prop where
  size_le : before.size ≤ after.size
  span_eq : ∀ id < before.size, after.span id = before.span id
  kind_eq : ∀ id < before.size,
    after.kind id = before.kind id ∨ after.kind id = (before.kind id).asCollection
  clean : after.problems = [] → before.problems = []

/-- **Every span fits the text**, children nest in their parents, follow one another and have smaller ids,
the segments of a path lie in it, and so does a problem in the node it is anchored at. What lies too deep is
cut off of its level. -/
structure Placed (env : Env) (draft : Draft) : Prop where
  fits : ∀ id < draft.size, (draft.span id).Fits env.source
  segments : ∀ id < draft.size, ∀ segment ∈ (draft.kind id).segments,
    segment.span.Fits env.source ∧ segment.span.Inside (draft.span id)
  child_lt : ∀ id, ∀ child ∈ draft.children id, child < id
  nests : ∀ id, ∀ child ∈ draft.children id, Nests draft.kind draft.span id child
  ordered : ∀ id, (draft.children id).Pairwise (Precedes draft.span)
  problems : ∀ problem ∈ draft.problems, problem.span.Fits env.source ∧
    ∀ node ∈ problem.anchor, node < draft.size ∧ problem.span.Inside (draft.span node)
  cuts : ∀ problem ∈ draft.problems, problem.key = .nestingTooDeep → env.CutOff problem.span

/-- **A draft with everything in its place**, where nodes mark spans of tokens if nothing is reported. -/
structure Exact (env : Env) (draft : Draft) : Prop extends Placed env draft where
  exact : draft.problems = [] → ∀ id < draft.size, env.Exact (draft.kind id) (draft.span id)

namespace Stays

variable {a b c : Draft}

theorem refl (a : Draft) : a.Stays a := ⟨Nat.le_refl _, fun _ _ => rfl, fun _ _ => .inl rfl, id⟩

theorem trans (h : a.Stays b) (k : b.Stays c) : a.Stays c where
  size_le := Nat.le_trans h.size_le k.size_le
  span_eq id hid := (k.span_eq id (Nat.lt_of_lt_of_le hid h.size_le)).trans (h.span_eq id hid)
  kind_eq id hid := by
    rcases h.kind_eq id hid with hb | hb <;>
      rcases k.kind_eq id (Nat.lt_of_lt_of_le hid h.size_le) with hc | hc <;> rw [hc, hb]
    · exact .inl rfl
    · exact .inr rfl
    · exact .inr rfl
    · exact .inr (NodeKind.asCollection_asCollection _)
  clean := h.clean ∘ k.clean

theorem push (a : Draft) (kind : NodeKind) (span : Span) : a.Stays (a.push kind span) where
  size_le := by rw [size_push]; exact Nat.le_succ _
  span_eq _ hid := span_push_of_lt _ _ _ hid
  kind_eq id hid := .inl ((a.grows_push kind span).kind_eq id hid)
  clean := id

theorem record (a : Draft) (problem : Problem) : a.Stays (a.record problem) :=
  ⟨Nat.le_refl _, fun _ _ => rfl, fun _ _ => .inl rfl,
    fun hclean => absurd hclean (List.append_ne_nil_of_right_ne_nil _ (List.cons_ne_nil _ _))⟩

theorem asCollection (a : Draft) (id : NodeId) : a.Stays (a.asCollection id) where
  size_le := by rw [size_asCollection]
  span_eq other _ := span_asCollection _ _ _
  kind_eq other hother := by
    rcases Nat.lt_or_ge id a.size with hlt | hge
    · rw [kind_asCollection a hlt]
      split
      · next heq => exact .inr (heq ▸ rfl)
      · exact .inl rfl
    · rw [asCollection_eq_self]
      · exact .inl rfl
      · rw [Draft.kind, TreeBuilder.kind_of_size_le hge]
        rfl
  clean hclean := hclean

theorem children_eq (h : a.Stays b) {id : NodeId} (hid : id < a.size) :
    b.children id = a.children id := by
  unfold Draft.children
  rcases h.kind_eq id hid with he | he <;> rw [he]
  exact NodeKind.children_asCollection _

theorem segments_eq (h : a.Stays b) {id : NodeId} (hid : id < a.size) :
    (b.kind id).segments = (a.kind id).segments := by
  rcases h.kind_eq id hid with he | he <;> rw [he]
  exact NodeKind.segments_asCollection _

/-- Nodes that follow one another go on to do so. -/
theorem ordered (h : a.Stays b) {ids : List NodeId} (hids : ∀ id ∈ ids, id < a.size)
    (hordered : ids.Pairwise (Precedes a.span)) : ids.Pairwise (Precedes b.span) := by
  refine hordered.imp_of_mem fun {first later} hfirst hlater hle => ?_
  rw [Precedes, h.span_eq first (hids first hfirst), h.span_eq later (hids later hlater)]
  exact hle

/-- Kinds other than paths are kept. -/
theorem kind_eq_of (h : a.Stays b) {id : NodeId} {kind : NodeKind} (hid : id < a.size)
    (hkind : a.kind id = kind) (hplain : kind.asCollection = kind) : b.kind id = kind := by
  rcases h.kind_eq id hid with he | he
  · rw [he, hkind]
  · rw [he, hkind, hplain]

end Stays

/-- Where there is no node there are no children. -/
theorem children_eq_nil {draft : Draft} {id : NodeId} (hid : draft.size ≤ id) :
    draft.children id = [] :=
  List.eq_nil_iff_forall_not_mem.mpr fun _ hc =>
    absurd (lt_size_of_mem_children hc) (Nat.not_lt_of_le hid)

namespace Placed

variable {draft later : Draft}

theorem empty (env : Env) : Placed env ⟨.empty, []⟩ where
  fits _ h := absurd h (Nat.not_lt_zero _)
  segments _ h := absurd h (Nat.not_lt_zero _)
  child_lt _ _ h := absurd (lt_size_of_mem_children h) (Nat.not_lt_zero _)
  nests _ _ h := absurd (lt_size_of_mem_children h) (Nat.not_lt_zero _)
  ordered id := by
    rw [children_eq_nil (show (⟨.empty, []⟩ : Draft).size ≤ id from Nat.zero_le _)]
    exact .nil
  problems _ h := absurd h List.not_mem_nil
  cuts _ h := absurd h List.not_mem_nil

section

variable (h : draft.Placed env)

include h

theorem child_lt_size {id child : NodeId} (hc : child ∈ draft.children id) : child < draft.size :=
  Nat.lt_trans (h.child_lt id child hc) (lt_size_of_mem_children hc)

/-- What lacks its head goes on to do so. -/
theorem lacksHead {id : NodeId} (hid : id < draft.size) (k : draft.Stays later)
    (hlacks : (draft.kind id).LacksHead draft.kind) : (later.kind id).LacksHead later.kind := by
  have hkept : (draft.kind id).LacksHead later.kind :=
    hlacks.mono fun child (hc : child ∈ draft.children id) hbad =>
      k.kind_eq_of (h.child_lt_size hc) hbad rfl
  rcases k.kind_eq id hid with he | he
  · rwa [he]
  · rw [he]
    cases hkind : draft.kind id <;> rw [hkind] at hkept <;> exact hkept

theorem adrift {id : NodeId} (hid : id < draft.size) (k : draft.Stays later)
    (hadrift : Adrift draft.kind id) : Adrift later.kind id := by
  rcases hadrift with hlacks | ⟨range, joins, hkind, hlacks⟩
  · exact .inl (h.lacksHead hid k hlacks)
  · have hrange : range ∈ draft.children id := by
      rw [Draft.children, hkind]
      exact List.mem_cons_self
    exact .inr ⟨range, joins, k.kind_eq_of hid hkind rfl,
      h.lacksHead (h.child_lt_size hrange) k hlacks⟩

theorem nests_of_stays {id child : NodeId} (hc : child ∈ draft.children id) (k : draft.Stays later) :
    Nests later.kind later.span id child := by
  have hid := lt_size_of_mem_children hc
  have hchild := h.child_lt_size hc
  have hnests := h.nests id child hc
  refine ⟨?_, ?_⟩
  · rw [k.span_eq id hid, k.span_eq child hchild]
    exact hnests.start.imp_right (h.lacksHead hid k)
  · rw [k.span_eq id hid, k.span_eq child hchild]
    exact hnests.stop.imp_right fun ⟨hadrift, hempty⟩ => ⟨h.adrift hchild k hadrift, hempty⟩

theorem problems_of_stays (k : draft.Stays later) : ∀ problem ∈ draft.problems,
    problem.span.Fits env.source ∧
      ∀ node ∈ problem.anchor, node < later.size ∧ problem.span.Inside (later.span node) := by
  intro problem hmem
  obtain ⟨hfits, hanchor⟩ := h.problems problem hmem
  refine ⟨hfits, fun node hnode => ?_⟩
  obtain ⟨hlt, hinside⟩ := hanchor node hnode
  exact ⟨Nat.lt_of_lt_of_le hlt k.size_le, (k.span_eq node hlt).symm ▸ hinside⟩

/-- **A new node above others.** -/
theorem push {new : NodeKind} {span : Span} (hfits : span.Fits env.source)
    (hsegments : ∀ segment ∈ new.segments,
      segment.span.Fits env.source ∧ segment.span.Inside span)
    (hchildren : ∀ child ∈ new.children, child < draft.size ∧
      (span.start ≤ (draft.span child).start ∨ new.LacksHead draft.kind) ∧
      ((draft.span child).stop ≤ span.stop ∨
        Adrift draft.kind child ∧ (draft.span child).start = (draft.span child).stop))
    (hordered : new.children.Pairwise (Precedes draft.span)) :
    (draft.push new span).Placed env := by
  have hstays := Stays.push draft new span
  have hcases : ∀ id < (draft.push new span).size, id < draft.size ∨ id = draft.size := by
    intro id hid
    rw [size_push] at hid
    exact Nat.lt_succ_iff_lt_or_eq.mp hid
  have hkind : (draft.push new span).kind draft.size = new := draft.kind_push new span
  have hspan : (draft.push new span).span draft.size = span := draft.span_push new span
  refine ⟨?_, ?_, ?_, ?_, ?_, h.problems_of_stays hstays, h.cuts⟩
  · intro id hid
    rcases hcases id hid with hlt | rfl
    · rw [hstays.span_eq id hlt]
      exact h.fits id hlt
    · rw [hspan]
      exact hfits
  · intro id hid
    rcases hcases id hid with hlt | rfl
    · rw [hstays.span_eq id hlt, hstays.segments_eq hlt]
      exact h.segments id hlt
    · rw [hspan, hkind]
      exact hsegments
  · intro id child hc
    rcases hcases id (lt_size_of_mem_children hc) with hlt | rfl
    · rw [hstays.children_eq hlt] at hc
      exact h.child_lt id child hc
    · rw [Draft.children, hkind] at hc
      exact (hchildren child hc).1
  · intro id child hc
    rcases hcases id (lt_size_of_mem_children hc) with hlt | rfl
    · rw [hstays.children_eq hlt] at hc
      exact h.nests_of_stays hc hstays
    · rw [Draft.children, hkind] at hc
      obtain ⟨hlt, hstart, hstop⟩ := hchildren child hc
      refine ⟨?_, ?_⟩
      · rw [hspan, hstays.span_eq child hlt, hkind]
        exact hstart.imp_right fun hlacks => hlacks.mono fun child hc hbad =>
          hstays.kind_eq_of (hchildren child hc).1 hbad rfl
      · rw [hspan, hstays.span_eq child hlt]
        exact hstop.imp_right fun hstray => ⟨h.adrift hlt hstays hstray.1, hstray.2⟩
  · intro id
    rcases Nat.lt_trichotomy id draft.size with hlt | rfl | hgt
    · rw [hstays.children_eq hlt]
      exact hstays.ordered (fun _ hc => h.child_lt_size hc) (h.ordered id)
    · rw [Draft.children, hkind]
      exact hstays.ordered (fun child hc => (hchildren child hc).1) hordered
    · rw [children_eq_nil (by rw [size_push]; exact hgt)]
      exact List.Pairwise.nil

/-- A new node without children. -/
theorem push_leaf {new : NodeKind} {span : Span} (hfits : span.Fits env.source)
    (hsegments : new.segments = []) (hchildren : new.children = []) :
    (draft.push new span).Placed env :=
  h.push hfits (fun _ hs => absurd (hsegments ▸ hs) List.not_mem_nil)
    (fun _ hc => absurd (hchildren ▸ hc) List.not_mem_nil) (hchildren ▸ List.Pairwise.nil)

theorem record {problem : Problem} (hfits : problem.span.Fits env.source)
    (hanchor : ∀ node ∈ problem.anchor, node < draft.size ∧ problem.span.Inside (draft.span node))
    (hcut : problem.key = .nestingTooDeep → env.CutOff problem.span) :
    (draft.record problem).Placed env := by
  refine ⟨h.fits, h.segments, h.child_lt, h.nests, h.ordered, fun other hmem => ?_,
    fun other hmem => ?_⟩
  · rcases List.mem_append.mp hmem with hold | hnew
    · exact h.problems other hold
    · rw [List.mem_singleton.mp hnew]
      exact ⟨hfits, hanchor⟩
  · rcases List.mem_append.mp hmem with hold | hnew
    · exact h.cuts other hold
    · rw [List.mem_singleton.mp hnew]
      exact hcut

/-- A new node without children, with a problem that has its span. -/
theorem push_record (new : NodeKind) {span : Span} (hfits : span.Fits env.source)
    (hsegments : new.segments = []) (hchildren : new.children = []) (key : ProblemKey)
    (arguments : List String) (hcut : key = .nestingTooDeep → env.CutOff span) :
    ((draft.push new span).record ⟨key, arguments, span, some draft.size⟩).Placed env := by
  refine (h.push_leaf hfits hsegments hchildren).record hfits ?_ hcut
  rintro _ ⟨⟩
  rw [size_push, span_push]
  exact ⟨Nat.lt_succ_self _, .refl span⟩

theorem asCollection (id : NodeId) : (draft.asCollection id).Placed env := by
  have hstays := Stays.asCollection draft id
  have hsize : (draft.asCollection id).size = draft.size := size_asCollection _ _
  refine ⟨fun other hother => ?_, fun other hother => ?_, fun other child hc => ?_,
    fun other child hc => ?_, fun other => ?_, h.problems_of_stays hstays, h.cuts⟩
  · rw [hsize] at hother
    rw [hstays.span_eq other hother]
    exact h.fits other hother
  · rw [hsize] at hother
    rw [hstays.span_eq other hother, hstays.segments_eq hother]
    exact h.segments other hother
  · rw [hstays.children_eq (hsize ▸ lt_size_of_mem_children hc)] at hc
    exact h.child_lt other child hc
  · rw [hstays.children_eq (hsize ▸ lt_size_of_mem_children hc)] at hc
    exact h.nests_of_stays hc hstays
  · have hchildren : (draft.asCollection id).children other = draft.children other := by
      rcases Nat.lt_or_ge other draft.size with hlt | hge
      · exact hstays.children_eq hlt
      · rw [children_eq_nil hge, children_eq_nil (by rwa [hsize])]
    rw [hchildren]
    exact hstays.ordered (fun _ hc => h.child_lt_size hc) (h.ordered other)

end

end Placed

namespace Exact

variable {draft : Draft}

theorem empty (env : Env) : Exact env ⟨.empty, []⟩ :=
  ⟨.empty env, fun _ _ h => absurd h (Nat.not_lt_zero _)⟩

/-- Once something is reported, nothing more is asked than that everything is in its place. -/
theorem of_record {problem : Problem} (hplaced : (draft.record problem).Placed env) :
    (draft.record problem).Exact env :=
  ⟨hplaced, fun hclean => absurd hclean (List.append_ne_nil_of_right_ne_nil _ (List.cons_ne_nil _ _))⟩

section

variable (h : draft.Exact env)

include h

/-- **A new node above others.** -/
theorem push {new : NodeKind} {span : Span} (hplaced : (draft.push new span).Placed env)
    (hexact : draft.problems = [] → env.Exact new span) : (draft.push new span).Exact env := by
  refine ⟨hplaced, fun hclean id hid => ?_⟩
  rw [size_push] at hid
  rcases Nat.lt_succ_iff_lt_or_eq.mp hid with hlt | rfl
  · rw [span_push_of_lt _ _ _ hlt, (draft.grows_push new span).kind_eq id hlt]
    exact h.exact hclean id hlt
  · rw [draft.span_push, draft.kind_push]
    exact hexact hclean

theorem asCollection (id : NodeId) : (draft.asCollection id).Exact env := by
  refine ⟨h.toPlaced.asCollection id, fun hclean other hother => ?_⟩
  have hlt : other < draft.size := size_asCollection draft id ▸ hother
  rw [span_asCollection]
  refine (h.exact hclean other hlt).imp_right fun ⟨⟨name, hname⟩, hempty⟩ => ⟨⟨name, ?_⟩, hempty⟩
  exact (Stays.asCollection draft id).kind_eq_of hlt hname rfl

end

end Exact

end Draft

/-! ## Texts -/

/-- **The tokens are those of a text**: they follow one another, and fit it. -/
structure Env.OfText (env : Env) : Prop where
  inOrder : env.InOrder
  fits : ∀ token ∈ env.tokens.toList, token.span.Fits env.source

theorem textEnv_ofText (source : String) (maxDepth : Nat) : (textEnv source maxDepth).OfText :=
  ⟨textEnv_inOrder source maxDepth, (tokenize_fits source).1⟩

namespace Env.OfText

variable (h : env.OfText)

include h

theorem fits_current {position : Nat} (hp : position ≤ env.tokens.size - 1) :
    (TokenStream.current ⟨env.source, env.tokens, position⟩).span.Fits env.source := by
  rw [Env.InOrder.current_eq (h.inOrder.lt_size hp)]
  exact h.fits _ (Array.getElem_mem_toList _)

theorem boundary_startAt {position : Nat} (hp : position ≤ env.tokens.size - 1) :
    Text.IsBoundary env.source.toList (env.startAt position) := (h.fits_current hp).start

theorem boundary_endBefore {position : Nat} (hp : position ≤ env.tokens.size - 1) :
    Text.IsBoundary env.source.toList (env.endBefore position) := by
  cases position with
  | zero => exact h.boundary_startAt (Nat.zero_le _)
  | succ position =>
    have hlt : position < env.tokens.size := by omega
    rw [Env.InOrder.endBefore_succ hlt]
    exact (h.fits _ (Array.getElem_mem_toList hlt)).stop

/-- Ends of tokens rise with their positions. -/
theorem endBefore_mono {i j : Nat} (hij : i ≤ j) (hj : j ≤ env.tokens.size - 1) :
    env.endBefore i ≤ env.endBefore j := by
  have hsize := h.inOrder.size_pos
  rcases Nat.lt_or_eq_of_le hij with hlt | rfl
  · obtain ⟨k, rfl⟩ : ∃ k, j = k + 1 := ⟨j - 1, by omega⟩
    have hk : k < env.tokens.size := by omega
    have hfirst := h.inOrder.endBefore_le_startAt (show i < env.tokens.size by omega)
    have hmono := h.inOrder.startAt_mono (show i ≤ k by omega) hk
    have hspan := h.inOrder.start_le_stop hk
    rw [Env.InOrder.startAt_eq hk] at hmono
    rw [Env.InOrder.endBefore_succ hk]
    omega
  · exact Nat.le_refl _

/-- A token that is not the end of the text is moved over. -/
theorem advance_position (hs : s.position ≤ env.tokens.size - 1) (hkind : (s.stream env).kind ≠ .eof) :
    (s.stream env).advance.position = s.position + 1 ∧ s.position + 1 ≤ env.tokens.size - 1 := by
  have hlt := h.inOrder.lt_size hs
  have hlast : s.position + 1 ≠ env.tokens.size := by
    intro heq
    refine hkind ?_
    rw [TokenStream.kind, show (s.stream env).current = _ from Env.InOrder.current_eq hlt]
    exact (h.inOrder.eof_iff hlt).1.mpr heq
  have hposition := TokenStream.position_advance (s.stream env) hs
  have hsize : (s.stream env).tokens.size = env.tokens.size := rfl
  have hsame : (s.stream env).position = s.position := rfl
  rw [hsize, hsame] at hposition
  omega

/-- What was moved over starts where the first token does, or behind it. -/
theorem startAt_le_endBefore {i j : Nat} (hij : i < j) (hj : j ≤ env.tokens.size - 1) :
    env.startAt i ≤ env.endBefore j := by
  have hi : i < env.tokens.size := by omega
  have hmono := h.endBefore_mono (show i + 1 ≤ j by omega) hj
  rw [Env.InOrder.endBefore_succ hi] at hmono
  rw [Env.InOrder.startAt_eq hi]
  exact Nat.le_trans (h.inOrder.start_le_stop hi) hmono

end Env.OfText

end Parse

end Jpql
