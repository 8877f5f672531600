import Jpql.Proofs.Place.Draft

/-! # Places of what a reader has gathered

A reader places the nodes it adds between the end of the last token before it started and the end of the
last token it moved over. Where a node is added above others, it reaches around them. It starts where the
construct does that is being read: at a token, unless something was reported before.

* `Parse.Bound`: the offset that nodes lie behind, and whether a construct starts there.
* `Parse.Held`: what a reader has gathered lies between a given offset and the last token moved over.
* `Parse.Gathers`, `Parse.Places`, `Parse.Begins`: the judgements of readers, with a rule for each way of
  putting readers together. -/

namespace Jpql.Parse

variable {α β : Type} {env : Env} {s t u : State}

/-! ## Readers under way -/

/-- **From `s` to `t` a reader has passed**, and the nodes of `s` are kept. -/
structure Course (env : Env) (s t : State) : Prop where
  position_le : s.position ≤ t.position
  inside : t.position ≤ env.tokens.size - 1
  stays : s.draft.Stays t.draft

/-- **Where nodes may start.** -/
inductive Bound
  /-- Behind an offset. -/
  | behind (offset : Nat)
  /-- Behind the start of the construct that is being read. -/
  | opened (offset : Nat)

namespace Bound

def offset : Bound → Nat
  | .behind n | .opened n => n

/-- **A construct that is being read starts at a token that was moved over**, if nothing is reported. -/
def Begun (env : Env) (s : State) : Bound → Prop
  | .behind _ => True
  | .opened n => s.draft.problems = [] → env.Begun s.position n

theorem Begun.course {low : Bound} (h : low.Begun env s) (hc : Course env s t) : low.Begun env t := by
  cases low with
  | behind n => trivial
  | opened n => exact fun hclean => (h (hc.stays.clean hclean)).mono hc.position_le

end Bound

/-- **What was gathered lies between an offset and the last token moved over**, one node behind the other,
and starts at tokens if nothing is reported. What is `loose` may also be an empty node that lacks its head;
it lies no further than the current token. -/
structure Held (env : Env) (loose : Bool) (low : Bound) (gathered : List NodeId) (s : State) :
    Prop where
  placed : s.draft.Exact env
  inside : s.position ≤ env.tokens.size - 1
  boundary : Text.IsBoundary env.source.toList low.offset
  low_le : low.offset ≤ env.endBefore s.position
  begun : low.Begun env s
  lies : ∀ id ∈ gathered, id < s.draft.size ∧ low.offset ≤ (s.draft.span id).start ∧
    ((s.draft.span id).stop ≤ env.endBefore s.position ∨
      loose = true ∧ Adrift s.draft.kind id ∧ (s.draft.span id).start = (s.draft.span id).stop ∧
        (s.draft.span id).stop ≤ env.startAt s.position)
  starts : s.draft.problems = [] → ∀ id ∈ gathered, env.Begun s.position (s.draft.span id).start
  ordered : gathered.Pairwise (Precedes s.draft.span)

namespace Course

theorem refl (hs : s.position ≤ env.tokens.size - 1) : Course env s s :=
  ⟨Nat.le_refl _, hs, .refl _⟩

theorem trans (h : Course env s t) (k : Course env t u) : Course env s u :=
  ⟨Nat.le_trans h.position_le k.position_le, k.inside, h.stays.trans k.stays⟩

end Course

variable {loose : Bool} {low : Bound} {gathered more : List NodeId}

namespace Held

/-- What was gathered before still lies there. -/
theorem lies_of_course (hd : Held env loose low gathered s) (h : env.OfText) (hc : Course env s t) :
    ∀ id ∈ gathered, id < t.draft.size ∧ low.offset ≤ (t.draft.span id).start ∧
      ((t.draft.span id).stop ≤ env.endBefore t.position ∨
        loose = true ∧ Adrift t.draft.kind id ∧
          (t.draft.span id).start = (t.draft.span id).stop ∧
          (t.draft.span id).stop ≤ env.startAt t.position) := by
  intro id hid
  obtain ⟨hlt, hlow, hstop⟩ := hd.lies id hid
  have hmono := h.endBefore_mono hc.position_le hc.inside
  have hnext := h.inOrder.startAt_mono hc.position_le (h.inOrder.lt_size hc.inside)
  rw [hc.stays.span_eq id hlt]
  refine ⟨Nat.lt_of_lt_of_le hlt hc.stays.size_le, hlow, ?_⟩
  exact hstop.imp (fun hle => Nat.le_trans hle hmono) fun ⟨hl, hadrift, hempty, hle⟩ =>
    ⟨hl, hd.placed.adrift hlt hc.stays hadrift, hempty, Nat.le_trans hle hnext⟩

/-- It still starts at tokens. -/
theorem starts_of_course (hd : Held env loose low gathered s) (hc : Course env s t)
    (hclean : t.draft.problems = []) :
    ∀ id ∈ gathered, env.Begun t.position (t.draft.span id).start := by
  intro id hid
  rw [hc.stays.span_eq id (hd.lies id hid).1]
  exact (hd.starts (hc.stays.clean hclean) id hid).mono hc.position_le

/-- It still lies in the same order. -/
theorem ordered_of_course (hd : Held env loose low gathered s) (hc : Course env s t) :
    gathered.Pairwise (Precedes t.draft.span) :=
  hc.stays.ordered (fun id hid => (hd.lies id hid).1) hd.ordered

/-- A passage that leaves the draft well placed. -/
theorem course (hd : Held env loose low gathered s) (h : env.OfText) (hc : Course env s t)
    (hplaced : t.draft.Exact env) : Held env loose low gathered t where
  placed := hplaced
  inside := hc.inside
  boundary := hd.boundary
  low_le := Nat.le_trans hd.low_le (h.endBefore_mono hc.position_le hc.inside)
  begun := hd.begun.course hc
  lies := hd.lies_of_course h hc
  starts := hd.starts_of_course hc
  ordered := hd.ordered_of_course hc

/-- **Once a token is moved over**, everything lies before the last token moved over. -/
theorem settle (hd : Held env true low gathered s) (h : env.OfText) (hc : Course env s t)
    (hmoved : s.position < t.position) (hplaced : t.draft.Exact env) :
    Held env false low gathered t := by
  refine ⟨hplaced, hc.inside, hd.boundary,
    Nat.le_trans hd.low_le (h.endBefore_mono hc.position_le hc.inside), hd.begun.course hc,
    fun id hid => ?_, hd.starts_of_course hc, hd.ordered_of_course hc⟩
  obtain ⟨hlt, hlow, hstop⟩ := hd.lies id hid
  rw [hc.stays.span_eq id hlt]
  refine ⟨Nat.lt_of_lt_of_le hlt hc.stays.size_le, hlow, .inl ?_⟩
  rcases hstop with hle | ⟨-, -, -, hle⟩
  · exact Nat.le_trans hle (h.endBefore_mono hc.position_le hc.inside)
  · exact Nat.le_trans hle (h.startAt_le_endBefore hmoved hc.inside)

/-- Only the position and the draft matter. -/
theorem congr (hd : Held env loose low gathered s) (hposition : t.position = s.position)
    (hdraft : t.draft = s.draft) : Held env loose low gathered t where
  placed := hdraft ▸ hd.placed
  inside := hposition ▸ hd.inside
  boundary := hd.boundary
  low_le := hposition ▸ hd.low_le
  begun := hd.begun.course
    ⟨Nat.le_of_eq hposition.symm, hposition ▸ hd.inside, hdraft ▸ .refl _⟩
  lies := hdraft ▸ hposition ▸ hd.lies
  starts := hdraft ▸ hposition ▸ hd.starts
  ordered := hdraft ▸ hd.ordered

/-- Of nothing nothing is asked. -/
theorem nil {other : Bool} (hd : Held env loose low gathered s) : Held env other low [] s :=
  ⟨hd.placed, hd.inside, hd.boundary, hd.low_le, hd.begun, fun _ hid => absurd hid List.not_mem_nil,
    fun _ _ hid => absurd hid List.not_mem_nil, .nil⟩

/-- Fewer nodes, and a lower offset. -/
theorem weaken {other : Bound} (hd : Held env loose low gathered s) (hsub : more.Sublist gathered)
    (hother : Text.IsBoundary env.source.toList other.offset) (hle : other.offset ≤ low.offset)
    (hbegun : other.Begun env s) : Held env loose other more s where
  placed := hd.placed
  inside := hd.inside
  boundary := hother
  low_le := Nat.le_trans hle hd.low_le
  begun := hbegun
  lies id hid := by
    obtain ⟨hlt, hlow, hstop⟩ := hd.lies id (hsub.subset hid)
    exact ⟨hlt, Nat.le_trans hle hlow, hstop⟩
  starts hclean id hid := hd.starts hclean id (hsub.subset hid)
  ordered := hd.ordered.sublist hsub

theorem subset (hd : Held env loose low gathered s) (hsub : more.Sublist gathered) :
    Held env loose low more s := hd.weaken hsub hd.boundary (Nat.le_refl _) hd.begun

/-- What lies where it should lies there for those who ask for less. -/
theorem loosen (hd : Held env false low gathered s) : Held env loose low gathered s :=
  ⟨hd.placed, hd.inside, hd.boundary, hd.low_le, hd.begun, fun id hid => by
    obtain ⟨hlt, hlow, hstop⟩ := hd.lies id hid
    exact ⟨hlt, hlow, hstop.imp_right fun ⟨hl, _⟩ => absurd hl Bool.false_ne_true⟩, hd.starts,
    hd.ordered⟩

/-- **What was gathered later lies behind.** -/
theorem append (hd : Held env loose low gathered s) (k : Held env loose low more s)
    (hbehind : ∀ id ∈ gathered, ∀ later ∈ more, Precedes s.draft.span id later) :
    Held env loose low (gathered ++ more) s := by
  refine ⟨hd.placed, hd.inside, hd.boundary, hd.low_le, hd.begun, fun id hid => ?_,
    fun hclean id hid => ?_, List.pairwise_append.mpr ⟨hd.ordered, k.ordered, hbehind⟩⟩
  · exact (List.mem_append.mp hid).elim (hd.lies id) (k.lies id)
  · exact (List.mem_append.mp hid).elim (hd.starts hclean id) (k.starts hclean id)

/-- Where nothing was gathered yet, the last token moved over is an offset as good as any. -/
theorem start (hd : Held env loose low gathered s) (h : env.OfText) :
    Held env false (.behind (env.endBefore s.position)) [] s :=
  ⟨hd.placed, hd.inside, h.boundary_endBefore hd.inside, Nat.le_refl _, trivial,
    fun _ hid => absurd hid List.not_mem_nil, fun _ _ hid => absurd hid List.not_mem_nil, .nil⟩

/-- **From the start of a node on.** -/
theorem narrow {id : NodeId} (hd : Held env false low [id] s) :
    Held env false (.opened (s.draft.span id).start) [id] s := by
  obtain ⟨hlt, -, hstop⟩ := hd.lies id (List.mem_singleton_self _)
  have hfits := hd.placed.fits id hlt
  have hend : (s.draft.span id).stop ≤ env.endBefore s.position :=
    hstop.resolve_right fun ⟨hl, _⟩ => Bool.false_ne_true hl
  refine ⟨hd.placed, hd.inside, hfits.start, Nat.le_trans hfits.ordered hend,
    fun hclean => hd.starts hclean id (List.mem_singleton_self _), fun other hother => ?_, hd.starts,
    hd.ordered⟩
  rw [List.mem_singleton.mp hother]
  exact ⟨hlt, Nat.le_refl _, .inl hend⟩

end Held

/-! ## Judgements -/

/-- **A reader leads on** from the states of one sort to those of another. -/
def Leads (env : Env) (pre : State → Prop) (p : Parser α) (post : α → State → Prop) : Prop :=
  ∀ s, pre s → After env p s fun a t => Course env s t ∧ post a t

/-- **A reader goes on gathering nodes** from a given offset on. -/
abbrev Gathers (env : Env) (loose : Bool) (low : Bound) (gathered : List NodeId) (p : Parser α)
    (nodes : α → List NodeId) : Prop :=
  Leads env (Held env loose low gathered) p fun a => Held env loose low (nodes a)

/-- **A reader places its nodes** behind the last token moved over. -/
def Places (env : Env) (p : Parser α) (nodes : α → List NodeId) : Prop :=
  ∀ low, Gathers env false low [] p nodes

/-- **A reader that starts at a token** moves over it and places its nodes from the start of it on. -/
def Begins (env : Env) (ahead : TokenKind → Prop) (p : Parser α) (nodes : α → List NodeId) : Prop :=
  ∀ low s, ahead (s.stream env).kind → Held env false low [] s → After env p s fun a t =>
    Course env s t ∧ s.position < t.position ∧
      Held env false (.opened (env.startAt s.position)) (nodes a) t

/-- A reader of one node. -/
abbrev one (id : NodeId) : List NodeId := [id]

/-- A node that is drawn up over what was gathered: these are its children, and it has no segments. -/
def Drawn (env : Env) (low : Bound) (kind : NodeKind) (s : State) : Prop :=
  Held env false low kind.children s ∧ kind.segments = []

variable {p : Parser α} {f : α → Parser β} {nodes mid : α → List NodeId} {last : β → List NodeId}
  {ahead : TokenKind → Prop}

namespace Leads

variable {pre : State → Prop} {post : β → State → Prop}

/-- **One reader after the other.** -/
theorem bind {between : α → State → Prop} (hp : Leads env pre p between)
    (hf : ∀ a, Leads env (between a) (f a) post) : Leads env pre (p >>= f) post := fun s hs =>
  (hp s hs).bind fun a t ⟨hc, ht⟩ => (hf a t ht).mono fun _ _ ⟨hc', hu⟩ => ⟨hc.trans hc', hu⟩

theorem map {g : α → β} (hp : Leads env pre p fun a t => post (g a) t) :
    Leads env pre (g <$> p) post := fun s hs => .map (hp s hs)

/-- A look around changes nothing. -/
theorem look {g : TokenStream → α} {f : α → Parser β} (hf : ∀ a, Leads env pre (f a) post) :
    Leads env pre (Parse.look g >>= f) post := fun s hs => .look_bind (hf _ s hs)

theorem kindOf {id : NodeId} {f : NodeKind → Parser β} (hf : ∀ kind, Leads env pre (f kind) post) :
    Leads env pre (Parse.kindOf id >>= f) post := fun s hs => hf _ s hs

/-- Where a keyword is asked for, it is the current token if the answer is yes. -/
theorem atKeyword {word : Keyword} {f : Bool → Parser β}
    (hyes : Leads env (fun s => pre s ∧ (s.stream env).kind = .keyword word) (f true) post)
    (hno : Leads env pre (f false) post) : Leads env pre (Parse.atKeyword word >>= f) post := by
  refine fun s hs => .look_bind ?_
  rw [TokenStream.checkKeyword_eq]
  cases hword : (s.stream env).check (.keyword word) with
  | false => exact hno s hs
  | true => exact hyes s ⟨hs, beq_iff_eq.mp hword⟩

/-- Where a name is asked for, there is a token if the answer is yes. -/
theorem identifier? {f : Option String → Parser β}
    (hsome : ∀ name, Leads env (fun s => pre s ∧ (s.stream env).kind ≠ .eof) (f (some name)) post)
    (hnone : Leads env pre (f none) post) :
    Leads env pre (Parse.look (·.identifier?) >>= f) post := by
  refine fun s hs => .look_bind ?_
  cases hname : (s.stream env).identifier? with
  | none => exact hnone s hs
  | some name =>
    refine hsome name s ⟨hs, fun hend => ?_⟩
    rw [TokenStream.identifier?, hend] at hname
    cases hname

/-- More may be known before. -/
theorem of_pre {other : State → Prop} {post : α → State → Prop} (hp : Leads env pre p post)
    (hother : ∀ s, other s → pre s) : Leads env other p post := fun s hs => hp s (hother s hs)

/-- Less may be asked for afterwards. -/
theorem mono {post weak : α → State → Prop} (hp : Leads env pre p post)
    (hweak : ∀ a t, post a t → weak a t) : Leads env pre p weak := fun s hs =>
  (hp s hs).mono fun a t ⟨hc, ht⟩ => ⟨hc, hweak a t ht⟩

end Leads

theorem gathers_pure {a : α} (hsub : (nodes a).Sublist gathered) :
    Gathers env loose low gathered (Pure.pure a) nodes := fun _ hd =>
  .pure ⟨.refl hd.inside, hd.subset hsub⟩

theorem draws_pure {kind : NodeKind} (hsub : kind.children.Sublist gathered) (hsegments : kind.segments = []) :
    Leads env (Held env false low gathered) (Pure.pure kind) (Drawn env low) := fun _ hd =>
  .pure ⟨.refl hd.inside, hd.subset hsub, hsegments⟩

/-- A node that was drawn up, or what was gathered if none was. -/
def DrawnOr (env : Env) (low : Bound) (otherwise : List NodeId) : Option NodeKind → State → Prop
  | some kind, s => Drawn env low kind s
  | none, s => Held env false low otherwise s

/-- What starts at a token is placed behind the last token before it. -/
theorem Held.open_le {other : Bool} (h : env.OfText) (hd : Held env other low gathered s)
    (hc : Course env s t) (k : Held env loose (.opened (env.startAt s.position)) more t) :
    Held env loose low more t :=
  k.weaken (List.Sublist.refl _) hd.boundary
    (Nat.le_trans hd.low_le (h.inOrder.endBefore_le_startAt (h.inOrder.lt_size hd.inside)))
    (hd.begun.course hc)

/-- What was gathered ends with the last token moved over. -/
theorem Held.stop_le (hd : Held env false low gathered s) :
    ∀ id ∈ gathered, (s.draft.span id).stop ≤ env.endBefore s.position := fun id hid =>
  (hd.lies id hid).2.2.resolve_right fun ⟨hl, _⟩ => Bool.false_ne_true hl

/-- Whatever was gathered ends before the current token. -/
theorem Held.stop_le_startAt (h : env.OfText) (hd : Held env loose low gathered s) :
    ∀ id ∈ gathered, (s.draft.span id).stop ≤ env.startAt s.position := fun id hid =>
  (hd.lies id hid).2.2.elim (fun hle =>
    Nat.le_trans hle (h.inOrder.endBefore_le_startAt (h.inOrder.lt_size hd.inside))) fun hl => hl.2.2.2

/-- **Nodes from an offset on are added** to nodes that end there. -/
theorem Held.extend (h : env.OfText) (hd : Held env loose low gathered s) (hc : Course env s t)
    {behind : Bound} (ht : Held env loose behind more t) (hlow : low.offset ≤ behind.offset)
    (hstop : ∀ id ∈ gathered, (s.draft.span id).stop ≤ behind.offset) :
    Held env loose low (gathered ++ more) t := by
  refine (hd.course h hc ht.placed).append
    (ht.weaken (List.Sublist.refl _) hd.boundary hlow (hd.begun.course hc)) fun id hid later hlater => ?_
  rw [Precedes, hc.stays.span_eq id (hd.lies id hid).1]
  exact Nat.le_trans (hstop id hid) (ht.lies later hlater).2.1

/-- **A reader that places its nodes adds them to those that were gathered before.** -/
theorem Places.gathers (h : env.OfText) (hp : Places env p nodes) :
    Gathers env false low gathered p fun a => gathered ++ nodes a := by
  intro s hd
  exact (hp _ s (hd.start h)).mono fun a t ⟨hc, ht⟩ => ⟨hc, hd.extend h hc ht hd.low_le hd.stop_le⟩

theorem Begins.mono {other : TokenKind → Prop} (hp : Begins env ahead p nodes)
    (hother : ∀ kind, other kind → ahead kind) : Begins env other p nodes := fun low s hahead =>
  hp low s (hother _ hahead)

theorem Begins.look {g : TokenStream → α} {f : α → Parser β} (hf : ∀ a, Begins env ahead (f a) last) :
    Begins env ahead (Parse.look g >>= f) last := fun low s hahead hd =>
  .look_bind (hf _ low s hahead hd)

/-- **At a token it starts with, a reader adds its nodes** to those that were gathered before. -/
theorem Begins.leads (h : env.OfText) (hp : Begins env ahead p nodes) :
    Leads env (fun s => Held env loose low gathered s ∧ ahead (s.stream env).kind) p
      fun a => Held env loose low (gathered ++ nodes a) := by
  rintro s ⟨hd, hahead⟩
  refine (hp low s hahead hd.nil).mono fun a t ⟨hc, _, ht⟩ => ⟨hc, ?_⟩
  have hlow := h.inOrder.endBefore_le_startAt (h.inOrder.lt_size hd.inside)
  exact hd.extend h hc ht.loosen (Nat.le_trans hd.low_le hlow) (hd.stop_le_startAt h)

/-! ## Basic steps -/

/-- A move over tokens. -/
theorem Held.move (h : env.OfText) (hd : Held env loose low gathered s) {n : Nat}
    (hle : s.position ≤ n) (hn : n ≤ env.tokens.size - 1) :
    Course env s { s with position := n } ∧
      Held env loose low gathered { s with position := n } := by
  have hc : Course env s { s with position := n } := ⟨hle, hn, .refl _⟩
  exact ⟨hc, hd.course h hc hd.placed⟩

/-- Something else is written. -/
theorem Held.write (h : env.OfText) (hd : Held env loose low gathered s) {draft : Draft}
    (hstays : s.draft.Stays draft) (hplaced : draft.Exact env) :
    Course env s (s.write draft) ∧ Held env loose low gathered (s.write draft) := by
  have hc : Course env s (s.write draft) := ⟨Nat.le_refl _, hd.inside, hstays⟩
  exact ⟨hc, hd.course h hc hplaced⟩

section

variable (h : env.OfText)

include h

theorem gathers_step {f : TokenStream → α × TokenStream}
    (hforward : ∀ stream : TokenStream, stream.Forward (f stream).2) :
    Gathers env loose low gathered (step f) fun _ => gathered := by
  intro s hd
  refine (After.step f).mono ?_
  rintro _ _ ⟨-, rfl⟩
  have hbounds := (hforward (s.stream env)).bounds hd.inside
  exact hd.move h hbounds.1 hbounds.2

theorem gathers_advance : Gathers env loose low gathered advance fun _ => gathered :=
  gathers_step h TokenStream.Forward.advance

theorem gathers_consume (kind : TokenKind) :
    Gathers env loose low gathered (consume kind) fun _ => gathered := by
  rw [consume_eq]
  refine gathers_step h fun stream => ?_
  split
  · exact .advance stream
  · exact .refl stream

theorem gathers_record {problem : Problem} (hfits : problem.span.Fits env.source)
    (hanchor : problem.anchor = none) (hkey : problem.key ≠ .nestingTooDeep) :
    Gathers env loose low gathered (record problem) fun _ => gathered := by
  rintro s hd _ _ ⟨⟩
  refine hd.write h (.record _ _) (.of_record (hd.placed.record hfits (fun node hnode => ?_)
    fun hdeep => absurd hdeep hkey))
  rw [hanchor] at hnode
  cases hnode

theorem gathers_recordHere (key : ProblemKey) (arguments : List String)
    (hkey : key ≠ .nestingTooDeep) :
    Gathers env loose low gathered (recordHere key arguments) fun _ => gathered := fun s hd =>
  .look_bind (gathers_record h (h.fits_current hd.inside) rfl hkey s hd)

theorem gathers_expect (kind : TokenKind) :
    Gathers env loose low gathered (expect kind) fun _ => gathered := by
  rintro s hd a t hrun
  cases hfound : (s.stream env).consume? kind with
  | some found =>
    obtain ⟨span, next⟩ := found
    obtain ⟨-, rfl⟩ := (Runs.expect_ok (by rw [TokenStream.expect, hfound])).of_eq hrun
    obtain rfl : (s.stream env).advance = next := by
      unfold TokenStream.consume? at hfound
      split at hfound
      · exact (Prod.mk.inj (Option.some.inj hfound)).2
      · cases hfound
    have hbounds := (TokenStream.Forward.advance (s.stream env)).bounds hd.inside
    exact hd.move h hbounds.1 hbounds.2
  | none =>
    obtain ⟨-, rfl⟩ := (Runs.expect_error (by rw [TokenStream.expect, hfound])).of_eq hrun
    exact hd.write h (.record _ _)
      (.of_record (hd.placed.record (h.fits_current hd.inside) (fun node hnode => by cases hnode)
        fun hdeep => by cases hdeep))

theorem gathers_discard_expect (kind : TokenKind) :
    Gathers env loose low gathered (discard (expect kind)) fun _ => gathered :=
  Leads.map (gathers_expect h kind)

theorem gathers_expectKeyword (word : Keyword) :
    Gathers env loose low gathered (expectKeyword word) fun _ => gathered :=
  gathers_discard_expect h _

theorem gathers_asCollection (id : NodeId) :
    Gathers env loose low gathered (asCollection id) fun _ => gathered := by
  rintro s hd _ _ ⟨⟩
  exact hd.write h (.asCollection _ _) (hd.placed.asCollection id)

omit h in
/-- A node that was just written is held, if its span lies where it should. -/
theorem Held.written (hd : Held env loose low gathered s) {draft : Draft}
    (hstays : s.draft.Stays draft) (hplaced : draft.Exact env) (hlt : s.draft.size < draft.size)
    (hlow : low.offset ≤ (draft.span s.draft.size).start)
    (hstop : (draft.span s.draft.size).stop ≤ env.endBefore s.position)
    (hstart : draft.problems = [] → env.Begun s.position (draft.span s.draft.size).start)
    (any : Bool) : Held env any low [s.draft.size] (s.write draft) where
  placed := hplaced
  inside := hd.inside
  boundary := hd.boundary
  low_le := hd.low_le
  begun := hd.begun.course ⟨Nat.le_refl _, hd.inside, hstays⟩
  lies _ hid := List.mem_singleton.mp hid ▸ ⟨hlt, hlow, .inl hstop⟩
  starts hclean _ hid := List.mem_singleton.mp hid ▸ hstart hclean
  ordered := List.pairwise_singleton _ _

/-- A new node is held, if its span lies where it should. -/
theorem Held.pushed (hd : Held env loose low gathered s) {kind : NodeKind} {span : Span}
    (hplaced : (s.draft.push kind span).Placed env)
    (hexact : s.draft.problems = [] → env.Exact kind span)
    (hlow : low.offset ≤ span.start) (hstop : span.stop ≤ env.endBefore s.position)
    (hstart : s.draft.problems = [] → env.Begun s.position span.start) :
    Course env s (s.write (s.draft.push kind span)) ∧
      Held env false low [s.draft.size] (s.write (s.draft.push kind span)) := by
  have hstays := Draft.Stays.push s.draft kind span
  have hdraft := hd.placed.push hplaced hexact
  have hspan := s.draft.span_push kind span
  refine ⟨(hd.write h hstays hdraft).1, hd.written hstays hdraft ?_ (by rwa [hspan]) (by rwa [hspan])
    (by rwa [hspan]) false⟩
  rw [Draft.size_push]
  exact Nat.lt_succ_self _

/-- **A new node without children** between the offset and the last token moved over. -/
theorem Held.push_leaf (hd : Held env false low [] s) {kind : NodeKind} {span : Span}
    (hfits : span.Fits env.source) (hexact : env.Exact kind span)
    (hlow : low.offset ≤ span.start) (hstop : span.stop ≤ env.endBefore s.position)
    (hstart : env.Begun s.position span.start) (hsegments : kind.segments = [])
    (hchildren : kind.children = []) : After env (push kind span) s fun id t =>
      Course env s t ∧ Held env false low [id] t ∧ t.position = s.position := by
  rintro _ _ ⟨⟩
  obtain ⟨hc, ht⟩ := hd.pushed h (hd.placed.push_leaf hfits hsegments hchildren) (fun _ => hexact)
    hlow hstop fun _ => hstart
  exact ⟨hc, ht, rfl⟩

/-- A child of a new node that starts at the offset lies between that and the last token moved over. -/
def Held.Reaches (env : Env) (start : Nat) (s : State) (child : NodeId) : Prop :=
  child < s.draft.size ∧ start ≤ (s.draft.span child).start ∧
    ((s.draft.span child).stop ≤ env.endBefore s.position ∨
      Adrift s.draft.kind child ∧ (s.draft.span child).start = (s.draft.span child).stop)

/-- **A new node above others**, from the start of a construct up to the last token moved over. -/
theorem Held.pushOver {start : Nat} (hd : Held env loose (.opened start) gathered s)
    (kind : NodeKind) (hchildren : ∀ child ∈ kind.children, Held.Reaches env start s child)
    (hordered : kind.children.Pairwise (Precedes s.draft.span))
    (hsegments : ∀ segment ∈ kind.segments, segment.span.Fits env.source ∧
      start ≤ segment.span.start ∧ segment.span.stop ≤ env.endBefore s.position) :
    After env (Parse.pushFrom kind start) s fun id t =>
      Course env s t ∧ Held env false (.opened start) [id] t ∧ t.position = s.position := by
  refine (After.pushFrom kind start).mono ?_
  rintro _ _ ⟨rfl, rfl⟩
  have hlow : start ≤ env.endBefore s.position := hd.low_le
  rw [Nat.max_eq_left hlow]
  have hplaced : (s.draft.push kind ⟨start, env.endBefore s.position⟩).Placed env := by
    refine hd.placed.toPlaced.push ⟨hlow, hd.boundary, h.boundary_endBefore hd.inside⟩
      (fun segment hs => ⟨(hsegments segment hs).1, (hsegments segment hs).2⟩) (fun child hc => ?_)
      hordered
    obtain ⟨hlt, hstart, hstop⟩ := hchildren child hc
    exact ⟨hlt, .inl hstart, hstop⟩
  obtain ⟨hc, ht⟩ := hd.pushed h hplaced (fun hclean => .inl ((hd.begun hclean).whole hd.inside))
    (Nat.le_refl _) (Nat.le_refl _) hd.begun
  exact ⟨hc, ht, rfl⟩

/-- The nodes of it are among what was gathered. -/
theorem Held.pushFrom {start : Nat} (hd : Held env loose (.opened start) gathered s)
    (kind : NodeKind) (hchildren : kind.children.Sublist gathered)
    (hsegments : ∀ segment ∈ kind.segments, segment.span.Fits env.source ∧
      start ≤ segment.span.start ∧ segment.span.stop ≤ env.endBefore s.position) :
    After env (Parse.pushFrom kind start) s fun id t =>
      Course env s t ∧ Held env false (.opened start) [id] t ∧ t.position = s.position := by
  refine hd.pushOver h kind (fun child hc => ?_) (hd.ordered.sublist hchildren) hsegments
  obtain ⟨hlt, hlow, hstop⟩ := hd.lies child (hchildren.subset hc)
  exact ⟨hlt, hlow, hstop.imp_right fun hl => ⟨hl.2.1, hl.2.2.1⟩⟩

/-- **The last step of most readers.** -/
theorem gathers_pushFrom {kind : NodeKind} {start : Nat} (hsegments : kind.segments = [])
    (hchildren : kind.children.Sublist gathered) :
    Leads env (Held env loose (.opened start) gathered) (pushFrom kind start) fun id =>
      Held env false (.opened start) [id] :=
  fun _ hd => (hd.pushFrom h kind hchildren fun _ hs => absurd (hsegments ▸ hs) List.not_mem_nil).mono
    fun _ _ ⟨hc, ht, _⟩ => ⟨hc, ht⟩

/-- The same for a reader of an optional node. -/
theorem gathers_some_pushFrom {kind : NodeKind} {start : Nat} (hsegments : kind.segments = [])
    (hchildren : kind.children.Sublist gathered) :
    Leads env (Held env loose (.opened start) gathered) (do return some (← pushFrom kind start))
      fun id? => Held env false (.opened start) (Option.toList id?) :=
  (gathers_pushFrom h hsegments hchildren).bind fun _ _ hd => .pure ⟨.refl hd.inside, hd⟩

/-- A problem that belongs to no node lies right behind the last token moved over. -/
theorem gathers_missingVariable :
    Gathers env loose low gathered missingVariable fun _ => gathered := fun s hd =>
  .look_bind (gathers_record h (Span.fits_point (h.boundary_endBefore hd.inside)) rfl (by simp) s hd)

theorem gathers_missingClause (clause : String) :
    Gathers env loose low gathered (missingClause clause) fun _ => gathered := fun s hd =>
  .look_bind (gathers_record h (Span.fits_point (h.boundary_endBefore hd.inside)) rfl (by simp) s hd)

/-- A node that was drawn up is added. -/
theorem draws_pushFrom {start : Nat} (kind : NodeKind) :
    Leads env (Drawn env (.opened start) kind) (pushFrom kind start) fun id =>
      Held env false (.opened start) [id] :=
  fun s ⟨hd, hsegments⟩ => gathers_pushFrom h hsegments (List.Sublist.refl _) s hd

/-- A missing expression lies right behind the last token moved over. -/
theorem places_missing (what : String) : Places env (missing what) one := by
  rintro low s hd _ _ ⟨⟩
  have hplaced := hd.placed.push_record .bad (Span.fits_point (h.boundary_endBefore hd.inside)) rfl
    rfl .missingExpression [what] (by simp)
  have hstays := (Draft.Stays.push s.draft .bad (.point (env.endBefore s.position))).trans (.record _
    ⟨.missingExpression, [what], .point (env.endBefore s.position), some s.draft.size⟩)
  refine ⟨(hd.write h hstays (.of_record hplaced)).1, hd.written hstays (.of_record hplaced) ?_ ?_ ?_
    (fun hclean => absurd hclean (by simp [Draft.record])) false⟩
  · show _ < (s.draft.push _ _).size
    rw [Draft.size_push]
    exact Nat.lt_succ_self _
  · show low.offset ≤ ((s.draft.push _ _).span _).start
    rw [Draft.span_push]
    exact hd.low_le
  · show ((s.draft.push _ _).span _).stop ≤ _
    rw [Draft.span_push]
    exact Nat.le_refl _

/-- Text without a place lies where it was moved over. -/
theorem Held.pushUnknown (hd : Held env false low [] s) {span : Span}
    (hfits : span.Fits env.source) (hlow : low.offset ≤ span.start)
    (hstop : span.stop ≤ env.endBefore s.position) (text : String) (key : ProblemKey)
    (argument : String) (hcut : key = .nestingTooDeep → env.CutOff span) :
    After env (pushUnknown span text key argument) s fun id t =>
      Course env s t ∧ Held env false low [id] t := by
  rintro _ _ ⟨⟩
  have hplaced := hd.placed.push_record (.unknown text) hfits rfl rfl key [argument] hcut
  have hstays := (Draft.Stays.push s.draft (.unknown text) span).trans
    (.record _ ⟨key, [argument], span, some s.draft.size⟩)
  refine ⟨(hd.write h hstays (.of_record hplaced)).1, hd.written hstays (.of_record hplaced) ?_ ?_ ?_
    (fun hclean => absurd hclean (by simp [Draft.record])) false⟩
  · show _ < (s.draft.push _ _).size
    rw [Draft.size_push]
    exact Nat.lt_succ_self _
  · show low.offset ≤ ((s.draft.push _ _).span _).start
    rwa [Draft.span_push]
  · show ((s.draft.push _ _).span _).stop ≤ _
    rwa [Draft.span_push]

/-! ## Tokens -/

/-- The current token ends where the one before the next does. -/
theorem Env.OfText.stop_current (hs : s.position ≤ env.tokens.size - 1) :
    (s.stream env).current.span.stop = env.endBefore (s.position + 1) := by
  have hlt := h.inOrder.lt_size hs
  rw [show (s.stream env).current = _ from Env.InOrder.current_eq hlt, Env.InOrder.endBefore_succ hlt]

/-- **Behind a token**, from its start on. -/
theorem Held.behind (hd : Held env loose low gathered s) {n : Nat} (hlt : s.position < n)
    (hn : n ≤ env.tokens.size - 1) : Course env s { s with position := n } ∧
      Held env false (.opened (env.startAt s.position)) [] { s with position := n } := by
  obtain ⟨hc, ht⟩ := hd.move h (Nat.le_of_lt hlt) hn
  exact ⟨hc, ht.placed, ht.inside, h.boundary_startAt hd.inside, h.startAt_le_endBefore hlt hn,
    fun _ => ⟨s.position, hlt, rfl⟩, fun _ hid => absurd hid List.not_mem_nil,
    fun _ _ hid => absurd hid List.not_mem_nil, .nil⟩

/-- **Behind the token that a construct starts with.** -/
theorem Held.opened (hd : Held env loose low gathered s) (hkind : (s.stream env).kind ≠ .eof) :
    After env advance s fun _ t => Course env s t ∧
      Held env false (.opened (env.startAt s.position)) [] t ∧ t.position = s.position + 1 := by
  refine After.advance.mono ?_
  rintro _ _ rfl
  obtain ⟨hnext, hin⟩ := h.advance_position hd.inside hkind
  rw [hnext]
  obtain ⟨hc, ht⟩ := hd.behind h (Nat.lt_succ_self _) hin
  exact ⟨hc, ht, rfl⟩

/-- **A construct that starts at the current token.** -/
theorem begins_intro {f : Nat → Parser α} (hahead : ∀ kind, ahead kind → kind ≠ .eof)
    (hf : ∀ start, Gathers env false (.opened start) [] (f start) nodes) :
    Begins env ahead (look (·.currentStart) >>= fun start => advance >>= fun _ => f start) nodes := by
  intro low s hkind hd
  refine .look_bind ((hd.opened h (hahead _ hkind)).bind fun _ t ⟨hc, ht, hnext⟩ => ?_)
  refine (hf _ t ht).mono fun _ _ ⟨hc', hu⟩ => ⟨hc.trans hc', ?_, hu⟩
  exact Nat.lt_of_lt_of_le (by omega) hc'.position_le

/-- A token that is there is moved over like any other. -/
theorem Held.consumed (hd : Held env loose low gathered s) {kind : TokenKind} (hkind : kind ≠ .eof) :
    After env (consume kind) s fun found t => Course env s t ∧ found = (s.stream env).check kind ∧
      (found = true → Held env false (.opened (env.startAt s.position)) [] t ∧
        s.position < t.position) ∧
      (found = false → t = s) := by
  rw [consume_eq]
  refine (After.step _).mono fun found t hstep => ?_
  by_cases hcheck : (s.stream env).check kind = true
  · rw [if_pos hcheck] at hstep
    obtain ⟨rfl, rfl⟩ := hstep
    have hnot : (s.stream env).kind ≠ .eof := by
      rw [TokenStream.check, beq_iff_eq] at hcheck
      rwa [hcheck]
    obtain ⟨hc, hopened, hnext⟩ := hd.opened h hnot () _ rfl
    exact ⟨hc, hcheck.symm, fun _ => ⟨hopened, Nat.lt_of_lt_of_eq (Nat.lt_succ_self _) hnext.symm⟩,
      by simp⟩
  · rw [if_neg hcheck] at hstep
    obtain ⟨rfl, rfl⟩ := hstep
    exact ⟨.refl hd.inside, (Bool.eq_false_iff.mpr hcheck).symm, by simp, fun _ => rfl⟩

/-- A token that is expected and there is moved over. -/
theorem Held.expected (hd : Held env loose low gathered s) {kind : TokenKind} (hkind : kind ≠ .eof)
    (hthere : (s.stream env).kind = kind) : After env (discard (expect kind)) s fun _ t =>
      Course env s t ∧ Held env false (.opened (env.startAt s.position)) [] t ∧
        s.position < t.position := by
  have hexpect : (s.stream env).expect kind = .ok ((s.stream env).current.span, (s.stream env).advance) := by
    rw [TokenStream.expect, TokenStream.consume?, TokenStream.check, hthere, beq_self_eq_true, if_pos rfl]
  refine .map fun a t hrun => ?_
  obtain ⟨-, rfl⟩ := (Runs.expect_ok hexpect).of_eq hrun
  obtain ⟨hc, ht, hnext⟩ := hd.opened h (hthere ▸ hkind) () _ rfl
  exact ⟨hc, ht, Nat.lt_of_lt_of_eq (Nat.lt_succ_self _) hnext.symm⟩

/-- **An optional construct that starts with a keyword.** -/
theorem places_optional {word : Keyword} {f : Nat → Parser α}
    (hf : ∀ start, Gathers env false (.opened start) [] (f start) nodes) {g : Parser α}
    (hg : Places env g nodes) :
    Places env (look (·.currentStart) >>= fun start => consumeKeyword word >>= fun found =>
      if found then f start else g) nodes := by
  intro low s hd
  refine .look_bind ((hd.consumed h (show TokenKind.keyword word ≠ .eof by simp)).bind
    fun found t ⟨hc, _, hyes, hno⟩ => ?_)
  split
  · next hfound =>
    exact (hf _ t (hyes hfound).1).mono fun _ _ ⟨hc', hu⟩ =>
      ⟨hc.trans hc', hd.open_le h (hc.trans hc') hu⟩
  · next hfound =>
    rw [Bool.not_eq_true] at hfound
    rw [hno hfound]
    exact hg low s hd

/-! ## Repetition -/

omit h in
theorem gathers_loop {next : α → Parser (Option α)}
    (hnext : ∀ a, Gathers env loose low (nodes a) (next a) fun b => nodes (b.getD a)) (a : α) :
    Gathers env loose low (nodes a) (loop next a) nodes := by
  intro s hd
  refine After.loop (fun b t => Course env s t ∧ Held env loose low (nodes b) t)
    (fun b t ⟨hc, ht⟩ => ?_) ⟨.refl hd.inside, hd⟩
  exact (hnext b t ht).mono fun _ _ ⟨hc', hu⟩ => ⟨hc.trans hc', hu⟩

omit h in
/-- Items as long as there are more. -/
theorem gathers_items {cond : Parser Bool} {item : Parser NodeId}
    (hcond : ∀ gathered, Gathers env loose low gathered cond fun _ => gathered)
    (hitem : ∀ gathered, Gathers env loose low gathered item fun id => gathered ++ [id])
    (items : List NodeId) :
    Gathers env loose low items (loop (fun items => do
      if ← cond then return some (items ++ [← item]) else return none) items) id := by
  show Gathers env loose low (id items) _ id
  refine gathers_loop (fun items => ?_) items
  refine (hcond items).bind fun more => ?_
  cases more with
  | true => exact (hitem items).bind fun last => gathers_pure (List.Sublist.refl _)
  | false => exact gathers_pure (List.Sublist.refl _)

theorem gathers_separated {item : Parser NodeId}
    (hitem : ∀ gathered, Gathers env loose low gathered item fun id => gathered ++ [id]) :
    Gathers env loose low [] (separated item) id :=
  (hitem []).bind fun first =>
    gathers_items (fun _ => gathers_consume h .comma) hitem [first]

theorem places_separated {item : Parser NodeId} (hitem : Places env item one) :
    Places env (separated item) id := fun _ => gathers_separated h fun _ => hitem.gathers h

omit h in
/-- **A node over one that was read before** starts where that does. -/
theorem places_startOf {first : Parser NodeId} {f : NodeId → Nat → Parser NodeId}
    (hfirst : Places env first one)
    (hf : ∀ left start, Gathers env false (.opened start) [left] (f left start) one) :
    Places env (first >>= fun left => startOf left >>= f left) one := by
  refine fun low s hd => (hfirst low s hd).bind fun left t ⟨hc, ht⟩ => .startOf_bind ?_
  have hlow := (ht.lies left (List.mem_singleton_self _)).2.1
  exact (hf left _ t ht.narrow).mono fun id u ⟨hc', hu⟩ =>
    ⟨hc.trans hc', hu.weaken (List.Sublist.refl _) hd.boundary hlow (ht.begun.course hc')⟩

/-- Says how two operands are combined, if there is an operator. -/
def Operates (env : Env) (operator : Parser (Option (NodeId → NodeId → NodeKind))) : Prop :=
  ∀ low gathered, Leads env (Held env false low gathered) operator fun combine? t =>
    Held env false low gathered t ∧ ∀ combine ∈ combine?, ∀ left right,
      (combine left right).children = [left, right] ∧ (combine left right).segments = []

/-- **Operands with operators between them.** -/
theorem places_leftChain {first operand : Parser NodeId}
    {operator : Parser (Option (NodeId → NodeId → NodeKind))} (hfirst : Places env first one)
    (hoperator : Operates env operator) (hoperand : Places env operand one) :
    Places env (leftChain first operator operand) one := by
  refine places_startOf hfirst fun left start => ?_
  show Gathers env false (.opened start) (one left) _ one
  refine gathers_loop (fun left => ?_) left
  refine fun s hd => (hoperator _ _ s hd).bind fun combine? t ⟨hc, ht, hcombine⟩ => ?_
  cases combine? with
  | none => exact .pure ⟨hc, ht⟩
  | some combine =>
    refine (hoperand.gathers h t ht).bind fun right u ⟨hc', hu⟩ => ?_
    obtain ⟨hchildren, hsegments⟩ := hcombine combine rfl left right
    refine (gathers_pushFrom h hsegments (hchildren ▸ List.Sublist.refl _) u hu).bind
      fun new v ⟨hc'', hv⟩ => .pure ⟨(hc.trans hc').trans hc'', hv⟩

end

end Jpql.Parse
