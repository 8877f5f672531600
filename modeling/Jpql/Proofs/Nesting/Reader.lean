import Jpql.Proofs.Nesting.Level

/-! # Readers and the limit on nesting

A reader is run twice, the second time with another limit and with another reader of what is nested. The
judgements say of such a pair what the limit has to do with it: nodes open no more levels than are left,
and where nothing is cut off the second run does exactly what the first one did.

* `Parse.Onward`: what is written only adds to the draft, and leaves the levels as they are.
* `Parse.Descent`, `Parse.Nests`: the judgement from one state, and from all states with a property.
* `Parse.Fits`: the nodes that were gathered fit into the levels that are left.
* `Parse.nests_same`: readers that write no nodes do not depend on the limit. -/

namespace Jpql.Parse

variable {α β : Type} {env : Env} {limit levels : Nat} {s t u : State} {whole held : Bool}

/-- The surroundings with another limit on nesting. -/
def Env.allowing (env : Env) (limit : Nat) : Env := { env with maxDepth := limit }

/-- **Nothing was cut off** for lying too deep. -/
def State.IsShallow (s : State) : Prop := ∀ problem ∈ s.problems, problem.key ≠ .nestingTooDeep

/-! ## Readers under way -/

/-- The states that a run goes through. -/
structure State.Proper (env : Env) (s : State) : Prop where
  inside : s.position ≤ env.tokens.size - 1
  cuts : s.draft.CutsNodes

/-- **From `s` to `t` a reader has gone on.** Levels are left as they are, and problems are only added. -/
structure Onward (env : Env) (s t : State) : Prop where
  proper : t.Proper env
  keeps : s.draft.Keeps t.draft
  problems : s.problems <+: t.problems

namespace Onward

theorem refl (hs : s.Proper env) : Onward env s s := ⟨hs, .refl _, List.prefix_refl _⟩

theorem trans (h : Onward env s t) (k : Onward env t u) : Onward env s u :=
  ⟨k.proper, h.keeps.trans k.keeps, h.problems.trans k.problems⟩

/-- What ends without a cut was without one before. -/
theorem shallow (h : Onward env s t) (ht : t.IsShallow) : s.IsShallow := fun problem hp =>
  ht problem (h.problems.subset hp)

theorem move (h : Onward env s t) {n : Nat} (hn : n ≤ env.tokens.size - 1) :
    Onward env s { t with position := n } := ⟨⟨hn, h.proper.cuts⟩, h.keeps, h.problems⟩

theorem push (h : Onward env s t) (kind : NodeKind) (span : Span) :
    Onward env s (t.write (t.draft.push kind span)) where
  proper := ⟨h.proper.inside, h.proper.cuts.of_size_le rfl (Draft.Keeps.push _ _ _).size_le⟩
  keeps := h.keeps.trans (.push _ _ _)
  problems := h.problems

theorem record (h : Onward env s t) {problem : Problem}
    (hnew : problem.key = .nestingTooDeep →
      ∃ id < t.draft.size, s.draft.size ≤ id ∧ problem.anchor = some id) :
    Onward env s (t.write (t.draft.record problem)) where
  proper := by
    refine ⟨h.proper.inside, h.proper.cuts.record fun hkey => ?_⟩
    obtain ⟨id, hlt, -, hanchor⟩ := hnew hkey
    exact ⟨id, hlt, hanchor⟩
  keeps := by
    refine h.keeps.record fun other hother hkey hanchor => ?_
    obtain ⟨id, -, hge, hid⟩ := hnew hkey
    rw [hanchor] at hid
    cases hid
    exact absurd hother (Nat.not_lt_of_le hge)
  problems := h.problems.trans (List.prefix_append _ _)

/-- A new node with a problem of its own. -/
theorem pushRecord (h : Onward env s t) (kind : NodeKind) (span : Span) {problem : Problem}
    (hanchor : problem.anchor = some t.draft.size) :
    Onward env s (t.write ((t.draft.push kind span).record problem)) := by
  refine (h.push kind span).record fun _ => ⟨t.draft.size, ?_, h.keeps.size_le, hanchor⟩
  show t.draft.size < (t.draft.push kind span).size
  rw [Draft.size_push]
  exact Nat.lt_succ_self _

theorem asCollection (h : Onward env s t) (id : NodeId) :
    Onward env s (t.write (t.draft.asCollection id)) where
  proper := ⟨h.proper.inside, h.proper.cuts.of_size_le rfl (Draft.Keeps.asCollection _ _).size_le⟩
  keeps := h.keeps.trans (.asCollection _ _)
  problems := h.problems

/-- **Every basic step leads on.** -/
theorem invariant (s : State) : Invariant env (Onward env s) where
  moved h _ _ hn := h.move hn
  renamed h _ := ⟨⟨h.proper.inside, h.proper.cuts⟩, h.keeps, h.problems⟩
  pushed h kind span _ := h.push kind span
  named h _ _ _ _ hn := (h.move hn).push _ _
  recorded h problem hplain := h.record fun hkey => by
    rw [hkey] at hplain
    cases hplain
  missed h _ _ := h.pushRecord _ _ rfl
  leftOver h _ _ _ _ _ := h.pushRecord _ _ rfl
  reread h id := h.asCollection id

/-- What is in step with itself leads on. -/
theorem of_agree {p : Parser α} {post : α → α → Prop}
    (h : ∀ rel, Simulation env env rel → Agree env env rel p p post) (hs : s.Proper env) :
    After env p s fun _ t => Onward env s t := fun _ _ hrun =>
  (Invariant.of_agree (h _ (invariant s).simulation) hrun hs.inside (.refl hs)).2

end Onward

/-! ## Judgements -/

/-- **From `s` on, `q` with another limit does the same as `p`** unless something is cut off, and in any
case `p` leads on to `post`. -/
def Descent (env : Env) (limit : Nat) (s : State) (p q : Parser α) (post : α → State → Prop) : Prop :=
  After env p s fun a t =>
    Onward env s t ∧ (t.IsShallow → q (env.allowing limit) s = .ok (a, t)) ∧ post a t

/-- The same from every state of a sort. -/
def Nests (env : Env) (limit : Nat) (pre : State → Prop) (p q : Parser α) (post : α → State → Prop) :
    Prop :=
  ∀ s, s.Proper env → pre s → Descent env limit s p q post

variable {p q : Parser α} {f g : α → Parser β} {pre : State → Prop}

namespace Descent

variable {mid : α → State → Prop} {post : β → State → Prop}

theorem pure {a : α} (hs : s.Proper env) (h : mid a s) :
    Descent env limit s (Pure.pure a) (Pure.pure a) mid :=
  After.pure ⟨.refl hs, fun _ => rfl, h⟩

theorem bind (hp : Descent env limit s p q mid)
    (hf : ∀ a t, Onward env s t → mid a t → Descent env limit t (f a) (g a) post) :
    Descent env limit s (p >>= f) (q >>= g) post := by
  refine After.bind hp fun a t ⟨honward, hsame, hmid⟩ => ?_
  refine (hf a t honward hmid).mono fun b u ⟨honward', hsame', hpost⟩ =>
    ⟨honward.trans honward', fun hshallow => ?_, hpost⟩
  show (q (env.allowing limit) s >>= fun x => g x.1 (env.allowing limit) x.2) = _
  rw [hsame (honward'.shallow hshallow)]
  exact hsame' hshallow

theorem mono {weak : α → State → Prop} (hp : Descent env limit s p q mid)
    (hw : ∀ a t, Onward env s t → mid a t → weak a t) : Descent env limit s p q weak :=
  After.mono hp fun a t ⟨honward, hsame, hmid⟩ => ⟨honward, hsame, hw a t honward hmid⟩

theorem map {h : α → β} (hp : Descent env limit s p q fun a t => post (h a) t) :
    Descent env limit s (h <$> p) (h <$> q) post :=
  show Descent env limit s (p >>= fun a => Pure.pure (h a)) (q >>= fun a => Pure.pure (h a)) post from
    hp.bind fun _ _ honward ha => .pure honward.proper ha

/-- A look around gives the same with every limit. -/
theorem look {h : TokenStream → α} (hf : Descent env limit s (f (h (s.stream env)))
    (g (h (s.stream env))) post) : Descent env limit s (Parse.look h >>= f) (Parse.look h >>= g) post := hf

/-- The environments differ in the limit. -/
theorem read {f g : Env → Parser β} (hf : Descent env limit s (f env) (g (env.allowing limit)) post) :
    Descent env limit s (MonadReader.read >>= f) (MonadReader.read >>= g) post := hf

end Descent

namespace Nests

variable {mid : α → State → Prop} {post : β → State → Prop}

/-- **One reader after the other.** -/
theorem bind (hp : Nests env limit pre p q mid)
    (hf : ∀ a, Nests env limit (mid a) (f a) (g a) post) :
    Nests env limit pre (p >>= f) (q >>= g) post := fun s hs hpre =>
  (hp s hs hpre).bind fun a t honward hmid => hf a t honward.proper hmid

theorem map {h : α → β} (hp : Nests env limit pre p q fun a t => post (h a) t) :
    Nests env limit pre (h <$> p) (h <$> q) post := fun s hs hpre => .map (hp s hs hpre)

theorem look {h : TokenStream → α} (hf : ∀ a, Nests env limit pre (f a) (g a) post) :
    Nests env limit pre (Parse.look h >>= f) (Parse.look h >>= g) post := fun s hs hpre =>
  .look (hf _ s hs hpre)

theorem startOf {id : NodeId} {f g : Nat → Parser β}
    (hf : ∀ start, Nests env limit pre (f start) (g start) post) :
    Nests env limit pre (Parse.startOf id >>= f) (Parse.startOf id >>= g) post := fun s hs hpre =>
  hf (s.draft.span id).start s hs hpre

theorem kindOf {id : NodeId} {f g : NodeKind → Parser β}
    (hf : ∀ kind, Nests env limit pre (f kind) (g kind) post) :
    Nests env limit pre (Parse.kindOf id >>= f) (Parse.kindOf id >>= g) post := fun s hs hpre =>
  hf (s.draft.kind id) s hs hpre

theorem virtualFor? {name : String} {f g : Option String → Parser β}
    (hf : ∀ owner, Nests env limit pre (f owner) (g owner) post) :
    Nests env limit pre (Parse.virtualFor? name >>= f) (Parse.virtualFor? name >>= g) post :=
  fun s hs hpre => hf (s.virtualVariable.filter fun owner => !Text.sameWord name owner) s hs hpre

/-- More may be known before, and less asked for afterwards. -/
theorem weaken {other : State → Prop} {weak : α → State → Prop} (hp : Nests env limit pre p q mid)
    (hother : ∀ s, other s → pre s) (hw : ∀ a t, mid a t → weak a t) :
    Nests env limit other p q weak := fun s hs hpre =>
  (hp s hs (hother s hpre)).mono fun a t _ hmid => hw a t hmid

theorem loopTo {inv : α → State → Prop} {next other : α → Parser (Option α)}
    (hnext : ∀ a, Nests env limit (inv a) (next a) (other a) fun b => inv (b.getD a)) (bound : Nat)
    (a : α) : Nests env limit (inv a) (loopTo next bound a) (loopTo other bound a) inv := by
  induction bound generalizing a with
  | zero => exact fun s hs h => .pure hs h
  | succ bound ih =>
    refine (hnext a).bind fun b => ?_
    cases b with
    | none => exact fun s hs h => .pure hs h
    | some b => exact ih b

/-- **What every repetition keeps holds at the end.** -/
theorem loop {inv : α → State → Prop} {next other : α → Parser (Option α)} {a : α}
    (hnext : ∀ a, Nests env limit (inv a) (next a) (other a) fun b => inv (b.getD a)) :
    Nests env limit (inv a) (loop next a) (loop other a) inv :=
  loopTo hnext env.tokens.size a

end Nests

/-! ## Nodes that fit -/

/-- **The nodes fit into the levels that are left.** -/
def Fits (whole : Bool) (levels : Nat) (ids : List NodeId) (s : State) : Prop :=
  ∀ id ∈ ids, s.draft.Within whole false levels id

/-- A reader of one node. -/
abbrev single (id : NodeId) : List NodeId := [id]

/-- **A reader goes on gathering nodes that fit.** -/
abbrev Collects (env : Env) (limit : Nat) (whole : Bool) (levels : Nat) (gathered : List NodeId)
    (p q : Parser α) (nodes : α → List NodeId) : Prop :=
  Nests env limit (Fits whole levels gathered) p q fun a => Fits whole levels (nodes a)

variable {gathered more : List NodeId} {nodes : α → List NodeId}

namespace Fits

theorem nil (s : State) : Fits whole levels [] s := fun _ hid => absurd hid List.not_mem_nil

theorem subset (h : Fits whole levels gathered s) (hsub : more ⊆ gathered) : Fits whole levels more s :=
  fun id hid => h id (hsub hid)

theorem append (h : Fits whole levels gathered s) (k : Fits whole levels more s) :
    Fits whole levels (gathered ++ more) s := fun id hid =>
  (List.mem_append.mp hid).elim (h id) (k id)

theorem singleton {id : NodeId} (h : s.draft.Within whole false levels id) :
    Fits whole levels [id] s := fun _ hid => List.mem_singleton.mp hid ▸ h

theorem keeps (h : Fits whole levels gathered s) (k : s.draft.Keeps t.draft) :
    Fits whole levels gathered t := fun id hid => (h id hid).keeps k

theorem head {id : NodeId} (h : Fits whole levels [id] s) : s.draft.Within whole false levels id :=
  h id (List.mem_singleton_self _)

end Fits

/-- **A reader of nodes that fit adds them to those that were gathered before.** -/
theorem Nests.gathers (hp : Collects env limit whole levels [] p q nodes) :
    Collects env limit whole levels gathered p q fun a => gathered ++ nodes a := fun s hs h =>
  (hp s hs (.nil s)).mono fun _ _ honward hnodes => (h.keeps honward.keeps).append hnodes

theorem collects_pure {a : α} (hsub : nodes a ⊆ gathered) :
    Collects env limit whole levels gathered (Pure.pure a) (Pure.pure a) nodes := fun _ hs h =>
  .pure hs (h.subset hsub)

/-! ## Readers without nodes -/

/-- **Readers that write no nodes do not depend on the limit.** -/
theorem nests_same {p : Parser α} {post : α → α → Prop}
    (h : ∀ rel, Simulation env env rel → Agree env env rel p p post)
    (hsame : ∀ s, p (env.allowing limit) s = p env s) :
    Collects env limit whole levels gathered p p fun _ => gathered := fun s hs hfits a t hrun =>
  have honward := Onward.of_agree h hs a t hrun
  ⟨honward, fun _ => (hsame s).trans hrun, hfits.keeps honward.keeps⟩

theorem collects_look (h : TokenStream → α) :
    Collects env limit whole levels gathered (look h) (look h) fun _ => gathered := by
  rintro s hs hfits _ _ ⟨⟩
  exact ⟨.refl hs, fun _ => rfl, hfits⟩

theorem collects_advance : Collects env limit whole levels gathered advance advance fun _ => gathered :=
  nests_same (fun _ S => S.advance) fun _ => rfl

theorem collects_consume (kind : TokenKind) :
    Collects env limit whole levels gathered (consume kind) (consume kind) fun _ => gathered :=
  nests_same (fun _ S => S.consume kind) fun _ => rfl

theorem collects_expect (kind : TokenKind) :
    Collects env limit whole levels gathered (expect kind) (expect kind) fun _ => gathered := by
  refine nests_same (fun _ S => S.expect kind) fun s => ?_
  cases hexpect : (s.stream env).expect kind with
  | ok found =>
    obtain ⟨_, _, hp, rfl, rfl⟩ := Runs.expect_ok hexpect
    have hother : (s.stream (env.allowing limit)).expect kind = .ok found := hexpect
    obtain ⟨_, _, hq, rfl, rfl⟩ := Runs.expect_ok hother
    rw [hp, hq]
  | error problem =>
    obtain ⟨_, _, hp, rfl, rfl⟩ := Runs.expect_error hexpect
    have hother : (s.stream (env.allowing limit)).expect kind = .error problem := hexpect
    obtain ⟨_, _, hq, rfl, rfl⟩ := Runs.expect_error hother
    rw [hp, hq]

theorem collects_discard_expect (kind : TokenKind) :
    Collects env limit whole levels gathered (discard (expect kind)) (discard (expect kind))
      fun _ => gathered :=
  Nests.map (collects_expect kind)

theorem collects_expectKeyword (word : Keyword) :
    Collects env limit whole levels gathered (expectKeyword word) (expectKeyword word)
      fun _ => gathered :=
  collects_discard_expect _

theorem collects_recordHere {key : ProblemKey} (hplain : key.isRecovery = false)
    (arguments : List String) :
    Collects env limit whole levels gathered (recordHere key arguments) (recordHere key arguments)
      fun _ => gathered :=
  nests_same (fun _ S => S.recordHere hplain arguments) fun _ => rfl

theorem collects_asCollection (id : NodeId) :
    Collects env limit whole levels gathered (asCollection id) (asCollection id) fun _ => gathered :=
  nests_same (fun _ S => S.asCollection id) fun _ => rfl

theorem collects_setVirtual (name : Option String) :
    Collects env limit whole levels gathered (modify ({ · with virtualVariable := name }))
      (modify ({ · with virtualVariable := name })) fun _ => gathered :=
  nests_same (fun _ S => S.setVirtual name) fun _ => rfl

theorem collects_segments : Collects env limit whole levels gathered segments segments
    fun _ => gathered :=
  nests_same (fun _ S => S.segments) fun _ => rfl

/-! ## New nodes -/

/-- **A node that fits**, and is no subquery. -/
def Plain (whole : Bool) (levels : Nat) (id : NodeId) (s : State) : Prop :=
  s.draft.Within whole false levels id ∧ (s.draft.kind id).isSubquery = false

theorem Plain.fits {id : NodeId} (h : Plain whole levels id s) : Fits whole levels [id] s :=
  .singleton h.1

/-- **A new node above what was gathered.** -/
theorem nests_push {kind : NodeKind} (hchildren : ∀ s, pre s → ∀ child ∈ kind.children,
      s.draft.Within whole (kind.holdsSubquery whole) levels child) (held : Bool) (span : Span) :
    Nests env limit pre (push kind span) (push kind span) fun id t =>
      t.draft.Within whole held (levels + kind.opens held) id ∧ t.draft.kind id = kind := by
  intro s hs hpre id t hrun
  obtain ⟨rfl, rfl⟩ := After.push kind span id t hrun
  exact ⟨(Onward.refl hs).push kind span, fun _ => rfl,
    .push hs.cuts (hchildren s hpre) held span, s.draft.kind_push kind span⟩

theorem nests_pushFrom {kind : NodeKind} (hchildren : ∀ s, pre s → ∀ child ∈ kind.children,
      s.draft.Within whole (kind.holdsSubquery whole) levels child) (held : Bool) (start : Nat) :
    Nests env limit pre (pushFrom kind start) (pushFrom kind start) fun id t =>
      t.draft.Within whole held (levels + kind.opens held) id ∧ t.draft.kind id = kind :=
  .look fun span => nests_push hchildren held span

/-- A new node that opens no level. -/
theorem plain_push {kind : NodeKind} {span : Span} (hflat : kind.isFlat whole = true)
    (hsub : kind.children ⊆ gathered) :
    Nests env limit (Fits whole levels gathered) (push kind span) (push kind span)
      (Plain whole levels) := by
  obtain ⟨hopens, hsubquery, hholds⟩ := NodeKind.isFlat_iff.mp hflat
  have hzero : kind.opens false = 0 := by
    rw [NodeKind.opens_of_not_isSubquery hsubquery, hopens]
    rfl
  have hchildren : ∀ s, Fits whole levels gathered s → ∀ child ∈ kind.children,
      s.draft.Within whole (kind.holdsSubquery whole) levels child := fun s hs child hc => by
    rw [hholds]
    exact hs child (hsub hc)
  refine (nests_push hchildren false span).weaken (fun _ hs => hs) fun id t ⟨hid, hkind⟩ => ⟨?_, ?_⟩
  · rwa [hzero] at hid
  · rw [hkind, hsubquery]

theorem plain_pushFrom {kind : NodeKind} {start : Nat} (hflat : kind.isFlat whole = true)
    (hsub : kind.children ⊆ gathered) :
    Nests env limit (Fits whole levels gathered) (pushFrom kind start) (pushFrom kind start)
      (Plain whole levels) :=
  .look fun _ => plain_push hflat hsub

theorem collects_push {kind : NodeKind} {span : Span} (hflat : kind.isFlat whole = true)
    (hsub : kind.children ⊆ gathered) :
    Collects env limit whole levels gathered (push kind span) (push kind span) single :=
  (plain_push hflat hsub).weaken (fun _ hs => hs) fun _ _ h => h.fits

/-- **The last step of most readers.** -/
theorem collects_pushFrom {kind : NodeKind} {start : Nat} (hflat : kind.isFlat whole = true)
    (hsub : kind.children ⊆ gathered) :
    Collects env limit whole levels gathered (pushFrom kind start) (pushFrom kind start) single :=
  .look fun _ => collects_push hflat hsub

/-- The same for a reader of an optional node. -/
theorem collects_some_pushFrom {kind : NodeKind} {start : Nat} (hflat : kind.isFlat whole = true)
    (hsub : kind.children ⊆ gathered) :
    Collects env limit whole levels gathered (do return some (← pushFrom kind start))
      (do return some (← pushFrom kind start)) Option.toList :=
  (collects_pushFrom hflat hsub).bind fun _ _ hs h => .pure hs h

/-- A missing expression opens nothing. -/
theorem plain_missing (what : String) :
    Nests env limit pre (missing what) (missing what) (Plain whole levels) := by
  intro s hs _ id t hrun
  obtain ⟨rfl, rfl⟩ := After.missing what id t hrun
  exact ⟨(Onward.refl hs).pushRecord _ _ rfl, fun _ => rfl,
    Draft.Within.pushRecord hs.cuts rfl ⟨rfl, rfl⟩ _ (fun hkey => nomatch hkey),
    congrArg NodeKind.isSubquery (s.draft.kind_push .bad _)⟩

theorem collects_missing (what : String) :
    Collects env limit whole levels gathered (missing what) (missing what) single :=
  (plain_missing what).weaken (fun _ hs => hs) fun _ _ h => h.fits

/-- Text without a place opens nothing. -/
theorem plain_pushUnknown (span : Span) (text argument : String) {key : ProblemKey}
    (hkey : key = .nestingTooDeep → levels = 0) :
    Nests env limit pre (pushUnknown span text key argument) (pushUnknown span text key argument)
      (Plain whole levels) := by
  intro s hs _ id t hrun
  obtain ⟨rfl, rfl⟩ := After.pushUnknown span text key argument id t hrun
  exact ⟨(Onward.refl hs).pushRecord _ _ rfl, fun _ => rfl,
    Draft.Within.pushRecord hs.cuts rfl ⟨rfl, rfl⟩ _ hkey,
    congrArg NodeKind.isSubquery (s.draft.kind_push (.unknown text) span)⟩

theorem plain_unknownToken :
    Nests env limit (Fits whole levels gathered) unknownToken unknownToken (Plain whole levels) :=
  .look fun _ => .look fun _ => collects_advance.bind fun _ =>
    plain_pushUnknown _ _ _ fun hkey => nomatch hkey

/-- A problem with another cause cuts nothing off. -/
theorem descent_record {problem : Problem} (hkey : problem.key ≠ .nestingTooDeep) (hs : s.Proper env) :
    Descent env limit s (record problem) (record problem) fun _ _ => True := by
  rintro _ _ ⟨⟩
  exact ⟨(Onward.refl hs).record fun h => absurd h hkey, fun _ => rfl, trivial⟩

/-! ## Repetition -/

/-- Items as long as there are more, behind what was gathered before. -/
theorem collects_items {cond : Parser Bool} {item other : Parser NodeId}
    (hcond : ∀ gathered, Collects env limit whole levels gathered cond cond fun _ => gathered)
    (hitem : Collects env limit whole levels [] item other single) (before items : List NodeId) :
    Collects env limit whole levels (before ++ items)
      (loop (fun items => do if ← cond then return some (items ++ [← item]) else return none) items)
      (loop (fun items => do if ← cond then return some (items ++ [← other]) else return none) items)
      (before ++ ·) := by
  have hloop := @Nests.loop (List NodeId) env limit fun items => Fits whole levels (before ++ items)
  refine hloop fun items => ?_
  refine (hcond _).bind fun more => ?_
  cases more with
  | true =>
    refine hitem.gathers.bind fun last => fun _ hs h => .pure hs ?_
    show Fits whole levels (before ++ (items ++ [last])) _
    rwa [← List.append_assoc]
  | false => exact fun _ hs h => .pure hs h

theorem collects_separated {item other : Parser NodeId}
    (hitem : Collects env limit whole levels [] item other single) :
    Collects env limit whole levels [] (separated item) (separated other) id :=
  hitem.bind fun first =>
    collects_items (fun _ => collects_consume .comma) hitem [] [first]

/-! ## Expressions -/

/-- **A reader of expressions**: its node fits, and is a subquery only if the reader starts at the word
that subqueries start with. -/
def Expresses (env : Env) (limit : Nat) (whole : Bool) (levels : Nat) (p q : Parser NodeId) : Prop :=
  ∀ s, s.Proper env → Descent env limit s p q fun id t => t.draft.Within whole false levels id ∧
    ((t.draft.kind id).isSubquery = true → (s.stream env).checkKeyword .select = true)

namespace Expresses

variable {p q : Parser NodeId}

theorem of_plain (hp : Nests env limit (Fits whole levels []) p q (Plain whole levels)) :
    Expresses env limit whole levels p q := fun s hs =>
  (hp s hs (.nil s)).mono fun _ _ _ hid => ⟨hid.1, fun hsub => absurd hsub (by simp [hid.2])⟩

theorem collects (hp : Expresses env limit whole levels p q) :
    Collects env limit whole levels [] p q single := fun s hs _ =>
  (hp s hs).mono fun _ _ _ hid => .singleton hid.1

theorem gathers (hp : Expresses env limit whole levels p q) :
    Collects env limit whole levels gathered p q fun id => gathered ++ [id] := hp.collects.gathers

end Expresses

/-- Says how two operands are combined, if there is an operator. -/
def Connects (env : Env) (limit : Nat) (whole : Bool)
    (operator : Parser (Option (NodeId → NodeId → NodeKind))) : Prop :=
  ∀ s, s.Proper env → Descent env limit s operator operator fun combine? _ =>
    ∀ combine ∈ combine?, ∀ left right,
      (combine left right).children = [left, right] ∧ (combine left right).isFlat whole = true

theorem descent_consume (kind : TokenKind) (hs : s.Proper env) :
    Descent env limit s (consume kind) (consume kind) fun _ _ => True :=
  have hconsume : Collects env limit true 0 [] (consume kind) (consume kind) fun _ => [] :=
    collects_consume kind
  (hconsume s hs (.nil s)).mono fun _ _ _ _ => trivial

theorem descent_discard_expect (kind : TokenKind) (hs : s.Proper env) :
    Descent env limit s (discard (expect kind)) (discard (expect kind)) fun _ _ => True :=
  have hexpect : Collects env limit true 0 [] (discard (expect kind)) (discard (expect kind))
      fun _ => [] := collects_discard_expect kind
  (hexpect s hs (.nil s)).mono fun _ _ _ _ => trivial

/-- Two operators are tried one after the other. -/
theorem connects_either {first second : TokenKind} {a b : NodeId → NodeId → NodeKind}
    (ha : ∀ left right, (a left right).children = [left, right] ∧ (a left right).isFlat whole = true)
    (hb : ∀ left right, (b left right).children = [left, right] ∧ (b left right).isFlat whole = true) :
    Connects env limit whole (do
      if ← consume first then return some a
      else if ← consume second then return some b
      else return none) := by
  intro s hs
  refine (descent_consume first hs).bind fun found t honward _ => ?_
  cases found with
  | true => exact .pure honward.proper (by rintro _ ⟨⟩; exact ha)
  | false =>
    refine (descent_consume second honward.proper).bind fun found u honward' _ => ?_
    cases found with
    | true => exact .pure honward'.proper (by rintro _ ⟨⟩; exact hb)
    | false => exact .pure honward'.proper (by rintro _ ⟨⟩)

/-- **Operands with operators between them.** -/
theorem Expresses.leftChain {first first' operand operand' : Parser NodeId}
    {operator : Parser (Option (NodeId → NodeId → NodeKind))}
    (hfirst : Expresses env limit whole levels first first') (hoperator : Connects env limit whole operator)
    (hoperand : Expresses env limit whole levels operand operand') :
    Expresses env limit whole levels (leftChain first operator operand)
      (leftChain first' operator operand') := by
  intro s hs
  refine (hfirst s hs).bind fun left t honward hleft => ?_
  refine Nests.startOf (fun start => Nests.loop fun left t ht ⟨hfits, hsub⟩ => ?_) t
    honward.proper hleft
  refine (hoperator t ht).bind fun combine? u honward hcombine => ?_
  cases combine? with
  | none =>
    refine .pure honward.proper ⟨hfits.keeps honward.keeps, fun h => hsub ?_⟩
    rwa [← honward.keeps.isSubquery hfits.lt_size]
  | some combine =>
    refine (hoperand u honward.proper).bind fun right v honward' ⟨hright, _⟩ => ?_
    obtain ⟨hchildren, hflat⟩ := hcombine combine rfl left right
    have hboth : Fits whole levels [left, right] v :=
      Fits.append (.singleton ((hfits.keeps honward.keeps).keeps honward'.keeps)) (.singleton hright)
    refine (plain_pushFrom hflat (hchildren ▸ List.Subset.refl _) v honward'.proper
      hboth).bind fun id w honward'' hid => .pure honward''.proper ⟨hid.1, fun h => ?_⟩
    exact absurd h (by simp [hid.2])

/-! ## The virtual variable -/

/-- The name of the virtual variable plays no part. -/
theorem Nests.withoutVirtual {α : Type} {p q : Parser α} {post : α → State → Prop}
    (hp : Nests env limit (Fits whole levels gathered) p q post)
    (hdraft : ∀ a t u, u.draft = t.draft → post a t → post a u) :
    Nests env limit (Fits whole levels gathered) (withoutVirtual p) (withoutVirtual q) post := by
  intro s hs hfits
  have hset : ∀ name t, t.Proper env → Descent env limit t
      (modify ({ · with virtualVariable := name })) (modify ({ · with virtualVariable := name }))
      fun _ u => u.draft = t.draft := fun name t ht _ _ hrun => by
    cases hrun
    exact ⟨⟨⟨ht.inside, ht.cuts⟩, .refl _, List.prefix_refl _⟩, fun _ => rfl, rfl⟩
  show Descent env limit s
    (modify ({ · with virtualVariable := none }) >>= fun _ => p >>= fun a =>
      modify ({ · with virtualVariable := s.virtualVariable }) >>= fun _ => pure a)
    (modify ({ · with virtualVariable := none }) >>= fun _ => q >>= fun a =>
      modify ({ · with virtualVariable := s.virtualVariable }) >>= fun _ => pure a) _
  refine (hset none s hs).bind fun _ t honward _ => ?_
  refine (hp t honward.proper (hfits.keeps honward.keeps)).bind fun a u honward' ha => ?_
  refine (hset s.virtualVariable u honward'.proper).bind fun _ v honward'' hsame => ?_
  exact .pure honward''.proper (hdraft a u v hsame ha)

end Jpql.Parse
