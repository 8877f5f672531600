import Jpql.Parse.Query
import Jpql.Proofs.Reader.Draft

/-! # Runs of a reader

`Runs env p s post` says that the reader `p` succeeds from the state `s`, with a result and a last
state that satisfy `post`. There is one rule for each way of putting readers together and for each
of the basic readers, so that what a reader does follows from what its parts do.

`Writes env p draft post` says the same where only the draft matters: the position in the text and
the virtual variable are arbitrary. A reader is `Silent` if it writes nothing.

* `Runs.bind`, `Writes.bind`: one reader after the other.
* `Writes.loop`: what every repetition keeps holds at the end.
* `conditionRest`, `statementOf`: names for what a long reader does once it has decided how to go on. -/

namespace Jpql.Parse

variable {α β : Type} {env : Env}

/-- What the reader sees at a state. -/
def State.stream (env : Env) (s : State) : TokenStream := ⟨env.source, env.tokens, s.position⟩

/-- After a move over one token the next one is seen. -/
theorem State.stream_advance {env : Env} {s : State} :
    ({ s with position := (s.stream env).advance.position } : State).stream env =
      (s.stream env).advance := by
  show (⟨env.source, env.tokens, _⟩ : TokenStream) = _
  unfold TokenStream.advance
  split <;> rfl

theorem step_run (f : TokenStream → α × TokenStream) (env : Env) (s : State) :
    step f env s =
      .ok ((f (s.stream env)).1, { s with position := (f (s.stream env)).2.position }) := rfl

/-- A token is moved over if it is there. -/
theorem consume_eq (kind : TokenKind) :
    consume kind = step fun stream =>
      if stream.check kind then (true, stream.advance) else (false, stream) := by
  unfold consume TokenStream.consume?
  congr 1
  funext stream
  cases stream.check kind <;> rfl

/-- **The run succeeds, and its result and last state satisfy `post`.** -/
def Runs (env : Env) (p : Parser α) (s : State) (post : α → State → Prop) : Prop :=
  ∃ a t, p env s = .ok (a, t) ∧ post a t

namespace Runs

variable {p : Parser α} {s : State} {post : α → State → Prop}

theorem mono {weak : α → State → Prop} (h : Runs env p s post)
    (hw : ∀ a t, post a t → weak a t) : Runs env p s weak := by
  obtain ⟨a, t, hr, hp⟩ := h
  exact ⟨a, t, hr, hw a t hp⟩

/-- There is one run only. -/
theorem of_eq {a : α} {t : State} (h : Runs env p s post) (hrun : p env s = .ok (a, t)) : post a t := by
  obtain ⟨b, u, heq, hp⟩ := h
  obtain ⟨rfl, rfl⟩ := Prod.mk.inj (Except.ok.inj (hrun.symm.trans heq))
  exact hp

theorem pure {a : α} (h : post a s) : Runs env (Pure.pure a : Parser α) s post :=
  ⟨a, s, rfl, h⟩

theorem bind {f : α → Parser β} {mid : α → State → Prop} {post : β → State → Prop}
    (h : Runs env p s mid) (hf : ∀ a t, mid a t → Runs env (f a) t post) :
    Runs env (p >>= f) s post := by
  obtain ⟨a, t, hr, hm⟩ := h
  obtain ⟨b, u, hu, hp⟩ := hf a t hm
  refine ⟨b, u, ?_, hp⟩
  show (p env s >>= fun x => f x.1 env x.2) = _
  rw [hr]
  exact hu

theorem map {f : α → β} {post : β → State → Prop} (h : Runs env p s fun a t => post (f a) t) :
    Runs env (f <$> p) s post := by
  obtain ⟨a, t, hr, hp⟩ := h
  refine ⟨f a, t, ?_, hp⟩
  show (p env s >>= fun x => .ok (f x.1, x.2)) = _
  rw [hr]
  rfl

theorem discard {post : Unit → State → Prop} (h : Runs env p s fun _ t => post () t) :
    Runs env (discard p) s post := by
  obtain ⟨a, t, hr, hp⟩ := h
  refine ⟨(), t, ?_, hp⟩
  show (p env s >>= fun x => .ok ((), x.2)) = _
  rw [hr]
  rfl

theorem seqRight {q : Parser β} {mid : State → Prop} {post : β → State → Prop}
    (h : Runs env p s fun _ t => mid t) (hq : ∀ t, mid t → Runs env q t post) :
    Runs env (p *> q) s post := by
  obtain ⟨a, t, hr, hm⟩ := h
  obtain ⟨b, u, hu, hp⟩ := hq t hm
  refine ⟨b, u, ?_, hp⟩
  show (p env s >>= fun x => q env x.2) = _
  rw [hr]
  exact hu

theorem look (f : TokenStream → α) (s : State) :
    Runs env (look f) s fun a t => a = f (s.stream env) ∧ t = s := ⟨_, s, rfl, rfl, rfl⟩

theorem stream (s : State) : Runs env Parse.stream s fun a t => a = s.stream env ∧ t = s :=
  ⟨_, s, rfl, rfl, rfl⟩

theorem expect_ok {kind : TokenKind} {s : State} {span : Span} {next : TokenStream}
    (h : (s.stream env).expect kind = .ok (span, next)) :
    Runs env (expect kind) s fun found t =>
      found = true ∧ t = { s with position := next.position } := by
  refine (stream s).bind ?_
  rintro _ _ ⟨rfl, rfl⟩
  rw [h]
  exact ⟨_, _, rfl, rfl, rfl⟩

theorem expect_error {kind : TokenKind} {s : State} {problem : Problem}
    (h : (s.stream env).expect kind = .error problem) :
    Runs env (expect kind) s fun found t =>
      found = false ∧ t = { s with problems := s.problems ++ [problem] } := by
  refine (stream s).bind ?_
  rintro _ _ ⟨rfl, rfl⟩
  rw [h]
  exact ⟨_, _, rfl, rfl, rfl⟩

/-- A keyword that is expected but not there is a problem. -/
theorem expectKeyword_missing {word : Keyword} {s : State}
    (h : (s.stream env).checkKeyword word = false) :
    Runs env (expectKeyword word) s fun _ t => ∃ problem, t.draft = s.draft.record problem := by
  have hnone : (s.stream env).consume? (.keyword word) = none := by
    rw [TokenStream.checkKeyword_eq] at h
    rw [TokenStream.consume?, h, if_neg Bool.false_ne_true]
  refine .discard ((expect_error (by rw [TokenStream.expect, hnone])).mono ?_)
  rintro _ t ⟨-, rfl⟩
  exact ⟨_, rfl⟩

theorem read_bind {f : Env → Parser β} {post : β → State → Prop} (h : Runs env (f env) s post) :
    Runs env (read >>= f) s post := h

theorem get_bind {f : State → Parser β} {post : β → State → Prop} (h : Runs env (f s) s post) :
    Runs env (get >>= f) s post := h

theorem modify {f : State → State} {post : Unit → State → Prop} (h : post () (f s)) :
    Runs env (modify f) s post := ⟨(), f s, rfl, h⟩

end Runs

/-- **The run succeeds from every state with this draft**, and its result and last draft satisfy
`post`. -/
def Writes (env : Env) (p : Parser α) (draft : Draft) (post : α → Draft → Prop) : Prop :=
  ∀ s : State, s.draft = draft → Runs env p s fun a t => post a t.draft

/-- The run succeeds and writes nothing. -/
def Silent (env : Env) (p : Parser α) : Prop :=
  ∀ s : State, Runs env p s fun _ t => t.draft = s.draft

namespace Writes

variable {p : Parser α} {draft : Draft} {post : α → Draft → Prop}

theorem mono {weak : α → Draft → Prop} (h : Writes env p draft post)
    (hw : ∀ a d, post a d → weak a d) : Writes env p draft weak :=
  fun s hs => (h s hs).mono fun a t hp => hw a t.draft hp

theorem pure {a : α} (h : post a draft) : Writes env (Pure.pure a : Parser α) draft post :=
  fun _ hs => .pure (by rw [hs]; exact h)

theorem bind {f : α → Parser β} {mid : α → Draft → Prop} {post : β → Draft → Prop}
    (h : Writes env p draft mid) (hf : ∀ a d, mid a d → Writes env (f a) d post) :
    Writes env (p >>= f) draft post :=
  fun s hs => (h s hs).bind fun a t hm => hf a t.draft hm t rfl

theorem map {f : α → β} {post : β → Draft → Prop}
    (h : Writes env p draft fun a d => post (f a) d) : Writes env (f <$> p) draft post :=
  fun s hs => (h s hs).map

theorem discard {post : Unit → Draft → Prop} (h : Writes env p draft fun _ d => post () d) :
    Writes env (discard p) draft post :=
  fun s hs => (h s hs).discard

theorem seqRight {q : Parser β} {mid : Draft → Prop} {post : β → Draft → Prop}
    (h : Writes env p draft fun _ d => mid d) (hq : ∀ d, mid d → Writes env q d post) :
    Writes env (p *> q) draft post :=
  fun s hs => (h s hs).seqRight fun t hm => hq t.draft hm t rfl

theorem read_bind {f : Env → Parser β} {post : β → Draft → Prop}
    (h : Writes env (f env) draft post) : Writes env (read >>= f) draft post := h

theorem kindOf_bind {id : Nat} {f : NodeKind → Parser β} {post : β → Draft → Prop}
    (h : Writes env (f (draft.kind id)) draft post) :
    Writes env (kindOf id >>= f) draft post := by
  rintro s rfl
  exact h s rfl

theorem record (problem : Problem) :
    Writes env (Parse.record problem) draft fun _ d => d = draft.record problem :=
  fun s hs => .modify (by rw [← hs]; rfl)

theorem push (kind : NodeKind) (span : Span) :
    Writes env (Parse.push kind span) draft fun id d =>
      id = draft.size ∧ d = draft.push kind span := by
  rintro s rfl
  exact ⟨_, _, rfl, rfl, rfl⟩

theorem asCollection (id : Nat) :
    Writes env (Parse.asCollection id) draft fun _ d => d = draft.asCollection id := by
  rintro s rfl
  exact ⟨_, _, rfl, rfl⟩

end Writes

/-! ## Silent readers -/

namespace Silent

variable {p : Parser α} {draft : Draft}

theorem writes (h : Silent env p) : Writes env p draft fun _ d => d = draft :=
  fun s hs => (h s).mono fun _ _ ht => ht.trans hs

/-- After a silent reader the draft is what it was. -/
theorem andThen {f : α → Parser β} {post : β → Draft → Prop} (h : Silent env p)
    (hf : ∀ a, Writes env (f a) draft post) : Writes env (p >>= f) draft post :=
  h.writes.bind fun a _ hd => hd ▸ hf a

theorem pure (a : α) : Silent env (Pure.pure a : Parser α) := fun _ => .pure rfl

theorem bind {f : α → Parser β} (h : Silent env p) (hf : ∀ a, Silent env (f a)) :
    Silent env (p >>= f) :=
  fun s => (h s).bind fun a _ ht => (hf a _).mono fun _ _ hu => hu.trans ht

theorem look (f : TokenStream → α) : Silent env (look f) := fun s => ⟨_, s, rfl, rfl⟩

theorem step (f : TokenStream → α × TokenStream) : Silent env (step f) :=
  fun _ => ⟨_, _, rfl, rfl⟩

theorem setVirtual (name : Option String) :
    Silent env (modify ({ · with virtualVariable := name })) := fun _ => .modify rfl

theorem advance : Silent env advance := step _

theorem consume (kind : TokenKind) : Silent env (consume kind) := step _

theorem consumeKeyword (word : Keyword) : Silent env (consumeKeyword word) := consume _

theorem atKeyword (word : Keyword) : Silent env (atKeyword word) := look _

theorem spanFrom (start : Nat) : Silent env (spanFrom start) := look _

theorem startOf (id : Nat) : Silent env (startOf id) := fun s => ⟨_, s, rfl, rfl⟩

theorem kindOf (id : Nat) : Silent env (kindOf id) := fun s => ⟨_, s, rfl, rfl⟩

end Silent

/-! ## Problems and repetition -/

namespace Writes

variable {draft : Draft}

theorem recordHere (key : ProblemKey) (arguments : List String) :
    Writes env (recordHere key arguments) draft fun _ d =>
      ∃ problem, d = draft.record problem :=
  (Silent.look _).andThen fun _ => (record _).mono fun _ _ hd => ⟨_, hd⟩

/-- Where a token is expected, nothing is written if it is there. -/
theorem expect (kind : TokenKind) :
    Writes env (expect kind) draft fun found d =>
      found = true ∧ d = draft ∨ found = false ∧ ∃ problem, d = draft.record problem := by
  rintro s rfl
  rcases he : (s.stream env).expect kind with problem | ⟨span, next⟩
  · refine (Runs.expect_error he).mono ?_
    rintro found t ⟨rfl, rfl⟩
    exact .inr ⟨rfl, problem, rfl⟩
  · refine (Runs.expect_ok he).mono ?_
    rintro found t ⟨rfl, rfl⟩
    exact .inl ⟨rfl, rfl⟩

theorem loopTo {next : α → Parser (Option α)} (inv : α → Draft → Prop)
    (hnext : ∀ a d, inv a d → Writes env (next a) d fun b e => inv (b.getD a) e) (bound : Nat)
    {a : α} (h : inv a draft) : Writes env (loopTo next bound a) draft inv := by
  induction bound generalizing a draft with
  | zero => exact .pure h
  | succ bound ih =>
    refine (hnext a draft h).bind fun b e hb => ?_
    cases b with
    | none => exact .pure hb
    | some b => exact ih hb

/-- **What every repetition keeps holds at the end.** A step that does not go on leaves the value as
it is. -/
theorem loop {next : α → Parser (Option α)} (inv : α → Draft → Prop)
    (hnext : ∀ a d, inv a d → Writes env (next a) d fun b e => inv (b.getD a) e) {a : α}
    (h : inv a draft) : Writes env (loop next a) draft inv :=
  read_bind (loopTo inv hnext _ h)

end Writes

/-! ## Parts of readers -/

theorem read_run {α : Type} (f : Env → Parser α) (env : Env) (s : State) :
    (read >>= f) env s = f env env s := rfl

/-- **The grammar is asked**, and the state does not change. -/
theorem dispatch_run (rule : String) (trigger : Trigger) (env : Env) (s : State) :
    dispatch rule trigger env s = (env.grammar.dispatch rule trigger).map (·, s) := by
  rw [dispatch, read_run]
  cases env.grammar.dispatch rule trigger <;> rfl

variable (deeper : Deeper)

/-- What follows the first operand of a simple condition, and perhaps `NOT`. -/
def conditionRest (left : NodeId) (start : Nat) (negated : Bool) : Parser NodeId := do
  match ← conditionRest? deeper left negated with
  | some kind => pushFrom kind start
  | none => return left

/-- **The statement that the grammar has chosen.** -/
def statementOf (construct? : Option Construct) : Parser (Option NodeId) := do
  match construct? with
  | some .selectStatement => some <$> selectStatement deeper
  | some .simpleSelectStatement => some <$> simpleSelect deeper
  | some .updateStatement => some <$> updateStatement deeper
  | some .deleteStatement => some <$> deleteStatement deeper
  | _ =>
    let stop := Text.trimmedLength (← read).source
    let start ← look (·.currentStart)
    record ⟨.invalidStatement, [], ⟨min start stop, stop⟩, none⟩
    return none

end Jpql.Parse
