import Jpql.Parse.Statement
import Jpql.Proofs.Place.Expression
import Jpql.Proofs.Reader.Move
import Jpql.Proofs.Reader.Name

/-! # Readers on their way

From any state, over any tokens that end in the end of the text, the readers succeed, never go back, and
give variables no other names than those that words spell. A reader is compared with a second one, which
reads what is nested by other means: the two must come to the same result.

* `Parse.Env.Regular`: what is asked of the surroundings of a run.
* `Parse.Arrived`: a run has come to a position at least, and its variables have names.
* `Parse.Alike`: what two readers do alike from a state.
* `Parse.Alongside`, `Parse.Proceeds`: they arrive, from one state, and from all of them.
* `Parse.Alongside.advance`: over a token that is not the last, a reader goes on by one position. -/

namespace Jpql

/-- The name of a variable. -/
def NodeKind.variableName? : NodeKind → Option String
  | .identifier name _ _ => some name
  | _ => none

/-- The node is no variable. -/
abbrev NodeKind.Nameless (kind : NodeKind) : Prop := kind.variableName? = none

theorem NodeKind.variableName?_asCollection (kind : NodeKind) :
    kind.asCollection.variableName? = kind.variableName? := by
  cases kind <;> rfl

/-- A stream shows one of its tokens, or the end. -/
theorem TokenStream.current_mem {stream : TokenStream} (h : stream.kind ≠ .eof) :
    stream.current ∈ stream.tokens := by
  have hcurrent : stream.current =
      (stream.tokens[stream.position + 0]?.or stream.tokens.back?).getD noToken := rfl
  rcases hat : stream.tokens[stream.position + 0]?.or stream.tokens.back? with _ | token
  · rw [hat] at hcurrent
    exact absurd (congrArg Token.kind hcurrent) h
  · rw [hat] at hcurrent
    rw [hcurrent]
    rcases Option.or_eq_some_iff.mp hat with hat | ⟨-, hlast⟩
    · exact Array.mem_of_getElem? hat
    · exact Array.mem_of_back? hlast

/-- A token that is expected and there is moved over. -/
theorem TokenStream.Forward.of_expect {stream next : TokenStream} {kind : TokenKind} {span : Span}
    (h : stream.expect kind = .ok (span, next)) : stream.Forward next := by
  unfold expect consume? at h
  split at h
  · next hfound =>
    split at hfound
    · obtain rfl := Option.some.inj hfound
      obtain ⟨-, rfl⟩ := Prod.mk.inj (Except.ok.inj h)
      exact .advance stream
    · cases hfound
  · cases h

namespace Parse

variable {α β : Type} {env : Env} {isName : String → Prop} {low : Nat} {s t : State}

/-! ## Surroundings -/

/-- **The surroundings of a run**: the standard grammar, and tokens of which the last is the end of the
text. What its words spell are names, and so are these in lower case. -/
structure Env.Regular (env : Env) (isName : String → Prop) : Prop where
  standard : env.grammar = .standard
  ends : env.tokens.back?.map (·.kind) = some .eof
  identifier : ∀ token ∈ env.tokens, ∀ name, token.kind = .identifier name → isName name
  word : ∀ token ∈ env.tokens, token.kind.isWord = true → isName (token.text env.source)
  lower : ∀ name, isName name → isName (Text.asciiLower name)

namespace Env.Regular

variable (h : env.Regular isName)

include h

theorem size_pos : 0 < env.tokens.size := by
  rcases Nat.eq_zero_or_pos env.tokens.size with hzero | hpos
  · have hends := h.ends
    rw [Array.back?_eq_getElem?, hzero] at hends
    simp [Array.getElem?_eq_none (Nat.le_of_eq hzero)] at hends
  · exact hpos

/-- From the last token on the stream shows the end of the text. -/
theorem lt_of_kind (hkind : (s.stream env).kind ≠ .eof) : s.position < env.tokens.size - 1 := by
  by_contra hge
  refine hkind ?_
  have hlast : (s.stream env).current = env.tokens.back?.getD TokenStream.noToken := by
    show ((env.tokens[s.position + 0]?).or env.tokens.back?).getD TokenStream.noToken = _
    rcases Nat.lt_or_ge s.position env.tokens.size with hlt | hout
    · have hposition : s.position = env.tokens.size - 1 := by omega
      rw [Nat.add_zero, hposition, ← Array.back?_eq_getElem?, Option.or_self]
    · rw [Array.getElem?_eq_none (by omega), Option.none_or]
  have hends := h.ends
  rw [TokenStream.kind, hlast]
  cases hback : env.tokens.back? with
  | none => rfl
  | some token =>
    rw [hback] at hends
    exact Option.some.inj hends

theorem rule {rule : String} (hrule : (Grammar.standard.rule? rule).isSome = true) :
    (env.grammar.rule? rule).isSome = true := by
  rw [h.standard]
  exact hrule

/-- A word spells a name. -/
theorem isName_currentText (hkind : (s.stream env).kind.isWord = true) :
    isName (s.stream env).currentText := by
  have hmem : (s.stream env).current ∈ env.tokens :=
    TokenStream.current_mem fun hend => by
      rw [hend] at hkind
      cases hkind
  exact h.word _ hmem hkind

theorem isName_identifier? {name : String} (hname : (s.stream env).identifier? = some name) :
    isName name := by
  unfold TokenStream.identifier? at hname
  split at hname
  · next hkind =>
    obtain rfl := Option.some.inj hname
    have hmem : (s.stream env).current ∈ env.tokens :=
      TokenStream.current_mem fun hend => by
        rw [hend] at hkind
        cases hkind
    exact h.identifier _ hmem _ hkind
  · next hkind =>
    split at hname
    · obtain rfl := Option.some.inj hname
      exact h.isName_currentText (by rw [hkind]; rfl)
    · cases hname
  · cases hname

end Env.Regular

/-! ## States -/

/-- **Every variable has a name**, the virtual one included. -/
structure State.Named (isName : String → Prop) (s : State) : Prop where
  nodes : ∀ id, ∀ name ∈ (s.draft.kind id).variableName?, isName name
  owner : ∀ name ∈ s.virtualVariable, isName name

/-- **A run has come to the position `low` at least**, has not left the tokens, and its variables have
names. -/
structure Arrived (env : Env) (isName : String → Prop) (low : Nat) (s : State) : Prop
    extends s.Named isName where
  low_le : low ≤ s.position
  inside : s.position ≤ env.tokens.size - 1

namespace Arrived

variable (h : Arrived env isName low s)

include h

theorem weaken {less : Nat} (hle : less ≤ low) : Arrived env isName less s :=
  ⟨h.toNamed, Nat.le_trans hle h.low_le, h.inside⟩

theorem move {n : Nat} (hle : low ≤ n) (hn : n ≤ env.tokens.size - 1) :
    Arrived env isName low { s with position := n } := ⟨⟨h.nodes, h.owner⟩, hle, hn⟩

theorem rename {owner : Option String} (howner : ∀ name ∈ owner, isName name) :
    Arrived env isName low { s with virtualVariable := owner } :=
  ⟨⟨h.nodes, howner⟩, h.low_le, h.inside⟩

theorem forget : Arrived env isName low { s with virtualVariable := none } :=
  h.rename (by rintro _ ⟨⟩)

/-- Another draft, with no variables but those there were. -/
theorem write {draft : Draft} (hdraft : ∀ id, ∀ name ∈ (draft.kind id).variableName?, isName name) :
    Arrived env isName low (s.write draft) := ⟨⟨hdraft, h.owner⟩, h.low_le, h.inside⟩

theorem record (problem : Problem) : Arrived env isName low (s.write (s.draft.record problem)) :=
  h.write h.nodes

/-- **A new node**, which is no variable or has a name. -/
theorem push {kind : NodeKind} (hkind : ∀ name ∈ kind.variableName?, isName name) (span : Span) :
    Arrived env isName low (s.write (s.draft.push kind span)) := by
  refine h.write fun id name hname => ?_
  rcases Nat.lt_trichotomy id s.draft.size with hlt | rfl | hgt
  · rw [(s.draft.grows_push kind span).kind_eq id hlt] at hname
    exact h.nodes id name hname
  · rw [Draft.kind_push] at hname
    exact hkind name hname
  · rw [Draft.kind, TreeBuilder.kind_of_size_le] at hname
    · cases hname
    · show (s.draft.push kind span).size ≤ id
      rw [Draft.size_push]
      exact hgt

theorem asCollection (id : NodeId) : Arrived env isName low (s.write (s.draft.asCollection id)) := by
  refine h.write fun other name hname => ?_
  rcases Nat.lt_or_ge other s.draft.size with hlt | hge
  · rcases (Draft.Stays.asCollection s.draft id).kind_eq other hlt with hsame | hsame
    · rw [hsame] at hname
      exact h.nodes other name hname
    · rw [hsame, NodeKind.variableName?_asCollection] at hname
      exact h.nodes other name hname
  · rw [Draft.kind, TreeBuilder.kind_of_size_le] at hname
    · cases hname
    · show (s.draft.asCollection id).size ≤ other
      rw [Draft.size_asCollection]
      exact hge

end Arrived

/-! ## Judgements -/

/-- **From `s` on both readers succeed**, alike and with a result and a state that satisfy `post`. -/
def Alike (env : Env) (s : State) (p q : Parser α) (post : α → State → Prop) : Prop :=
  Runs env p s fun a t => q env s = .ok (a, t) ∧ post a t

/-- **From `s` on both readers succeed**, alike, and come to the position `low` at least. -/
def Alongside (env : Env) (isName : String → Prop) (low : Nat) (s : State) (p q : Parser α)
    (post : α → Prop) : Prop := Alike env s p q fun a t => Arrived env isName low t ∧ post a

/-- **Both readers succeed from every state**, alike, and never go back. -/
def Proceeds (env : Env) (isName : String → Prop) (p q : Parser α) (post : α → Prop) : Prop :=
  ∀ low s, Arrived env isName low s → Alongside env isName low s p q post

variable {p q : Parser α} {f g : α → Parser β} {mid : α → Prop} {post : β → Prop}

namespace Alike

variable {before : α → State → Prop} {after : β → State → Prop}

theorem pure {a : α} (ha : before a s) : Alike env s (Pure.pure a) (Pure.pure a) before :=
  ⟨a, s, rfl, rfl, ha⟩

theorem mono {weak : α → State → Prop} (h : Alike env s p q before)
    (hw : ∀ a t, before a t → weak a t) : Alike env s p q weak :=
  Runs.mono h fun a t ⟨hq, ht⟩ => ⟨hq, hw a t ht⟩

/-- **One reader after the other.** -/
theorem bind (h : Alike env s p q before)
    (hf : ∀ a t, before a t → Alike env t (f a) (g a) after) :
    Alike env s (p >>= f) (q >>= g) after := by
  refine Runs.bind h fun a t ⟨hq, ht⟩ => Runs.mono (hf a t ht) fun b u ⟨hg, hu⟩ => ⟨?_, hu⟩
  show (q env s >>= fun x => g x.1 env x.2) = _
  rw [hq]
  exact hg

theorem look {look : TokenStream → α} (h : Alike env s (f (look (s.stream env)))
    (g (look (s.stream env))) after) :
    Alike env s (Parse.look look >>= f) (Parse.look look >>= g) after := h

theorem read {f g : Env → Parser β} (h : Alike env s (f env) (g env) after) :
    Alike env s (MonadReader.read >>= f) (MonadReader.read >>= g) after := h

end Alike

namespace Alongside

theorem pure {a : α} (hs : Arrived env isName low s) (ha : mid a) :
    Alongside env isName low s (Pure.pure a) (Pure.pure a) mid := Alike.pure ⟨hs, ha⟩

theorem weaken {less : Nat} (h : Alongside env isName low s p q mid) (hle : less ≤ low) :
    Alongside env isName less s p q mid := h.mono fun _ _ ⟨ht, ha⟩ => ⟨ht.weaken hle, ha⟩

/-- **One reader after the other.** -/
theorem bind (h : Alongside env isName low s p q mid)
    (hf : ∀ a, mid a → Proceeds env isName (f a) (g a) post) :
    Alongside env isName low s (p >>= f) (q >>= g) post :=
  Alike.bind h fun a t ⟨ht, ha⟩ => hf a ha low t ht

theorem look {look : TokenStream → α} (h : Alongside env isName low s (f (look (s.stream env)))
    (g (look (s.stream env))) post) :
    Alongside env isName low s (Parse.look look >>= f) (Parse.look look >>= g) post := h

theorem read {f g : Env → Parser β} (h : Alongside env isName low s (f env) (g env) post) :
    Alongside env isName low s (MonadReader.read >>= f) (MonadReader.read >>= g) post := h

/-- **Over a token that is not the last, readers go on by one position.** -/
theorem advance (h : env.Regular isName) (hs : Arrived env isName low s)
    (hkind : (s.stream env).kind ≠ .eof) :
    Alongside env isName (s.position + 1) s Parse.advance Parse.advance fun _ => True := by
  have hlt := h.lt_of_kind hkind
  have hnext : (s.stream env).advance.position = s.position + 1 := by
    rw [(s.stream env).position_advance hs.inside]
    exact Nat.min_eq_left hlt
  refine ⟨_, _, rfl, rfl, ⟨⟨hs.nodes, hs.owner⟩, ?_, ?_⟩, trivial⟩
  · exact Nat.le_of_eq hnext.symm
  · exact Nat.le_trans (Nat.le_of_eq hnext) hlt

/-- A word that is expected and there is moved over. -/
theorem expectKeyword (h : env.Regular isName) (hs : Arrived env isName low s) {word : Keyword}
    (hkind : (s.stream env).kind = .keyword word) :
    Alongside env isName (s.position + 1) s (Parse.expectKeyword word) (Parse.expectKeyword word)
      fun _ => True := by
  obtain ⟨_, _, hrun, -, hnext, -⟩ := advance h hs (by rw [hkind]; exact nofun)
  cases hrun
  have hexpect : (s.stream env).expect (.keyword word) =
      .ok ((s.stream env).current.span, (s.stream env).advance) := by
    rw [TokenStream.expect, TokenStream.consume?, TokenStream.check, hkind, beq_self_eq_true, if_pos rfl]
  obtain ⟨_, t, hrun, -, rfl⟩ := Runs.expect_ok hexpect
  have hdiscard : Parse.expectKeyword word env s =
      .ok ((), { s with position := (s.stream env).advance.position }) := by
    show (Parse.expect (.keyword word) env s >>= fun x => Except.ok ((), x.2)) = _
    rw [hrun]
    rfl
  exact ⟨(), _, hdiscard, hdiscard, hnext, trivial⟩

/-- What is read without a virtual variable. -/
theorem withoutVirtual (hs : s.Named isName)
    (h : Alongside env isName low { s with virtualVariable := none } p q mid) :
    Alongside env isName low s (Parse.withoutVirtual p) (Parse.withoutVirtual q) mid := by
  obtain ⟨a, t, hp, hq, ht, ha⟩ := h
  have hrun : ∀ r : Parser α, r env { s with virtualVariable := none } = .ok (a, t) →
      Parse.withoutVirtual r env s = .ok (a, { t with virtualVariable := s.virtualVariable }) := by
    intro r hr
    show (r env { s with virtualVariable := none } >>= fun x =>
      Except.ok (x.1, { x.2 with virtualVariable := s.virtualVariable })) = _
    rw [hr]
    rfl
  exact ⟨a, _, hrun p hp, hrun q hq, ht.rename hs.owner, ha⟩

end Alongside

namespace Proceeds

theorem pure {a : α} (ha : mid a) : Proceeds env isName (Pure.pure a) (Pure.pure a) mid :=
  fun _ _ hs => .pure hs ha

/-- **One reader after the other.** -/
theorem bind (h : Proceeds env isName p q mid)
    (hf : ∀ a, mid a → Proceeds env isName (f a) (g a) post) :
    Proceeds env isName (p >>= f) (q >>= g) post := fun low s hs => (h low s hs).bind hf

/-- One reader after the other, whatever the result of the first. -/
theorem andThen (h : Proceeds env isName p q mid) (hf : ∀ a, Proceeds env isName (f a) (g a) post) :
    Proceeds env isName (p >>= f) (q >>= g) post := h.bind fun a _ => hf a

theorem mono {weak : α → Prop} (h : Proceeds env isName p q mid) (hw : ∀ a, mid a → weak a) :
    Proceeds env isName p q weak := fun low s hs =>
  (h low s hs).mono fun a _ ⟨ht, ha⟩ => ⟨ht, hw a ha⟩

theorem map {f : α → β} (h : Proceeds env isName p q fun a => post (f a)) :
    Proceeds env isName (f <$> p) (f <$> q) post :=
  h.bind (f := fun a => Pure.pure (f a)) fun _ => pure

theorem seqRight {p' q' : Parser β} (h : Proceeds env isName p q mid)
    (k : Proceeds env isName p' q' post) : Proceeds env isName (p *> p') (q *> q') post :=
  h.andThen fun _ => k

theorem look {look : TokenStream → α} (hf : ∀ a, Proceeds env isName (f a) (g a) post) :
    Proceeds env isName (Parse.look look >>= f) (Parse.look look >>= g) post :=
  fun low s hs => hf _ low s hs

theorem read {f g : Env → Parser β} (hf : Proceeds env isName (f env) (g env) post) :
    Proceeds env isName (MonadReader.read >>= f) (MonadReader.read >>= g) post := hf

theorem startOf {id : NodeId} {f g : Nat → Parser β}
    (hf : ∀ start, Proceeds env isName (f start) (g start) post) :
    Proceeds env isName (Parse.startOf id >>= f) (Parse.startOf id >>= g) post :=
  fun low s hs => hf _ low s hs

theorem kindOf {id : NodeId} {f g : NodeKind → Parser β}
    (hf : ∀ kind, Proceeds env isName (f kind) (g kind) post) :
    Proceeds env isName (Parse.kindOf id >>= f) (Parse.kindOf id >>= g) post :=
  fun low s hs => hf _ low s hs

/-- A name that the current token gives is a name. -/
theorem identifier? (h : env.Regular isName) {f g : Option String → Parser β}
    (hf : ∀ name?, (∀ name ∈ name?, isName name) → Proceeds env isName (f name?) (g name?) post) :
    Proceeds env isName (Parse.look (·.identifier?) >>= f) (Parse.look (·.identifier?) >>= g) post :=
  fun low s hs => hf _ (fun _ hname => h.isName_identifier? hname) low s hs

/-- The name of the virtual variable is a name. -/
theorem virtualFor? {name : String} {f g : Option String → Parser β}
    (hf : ∀ owner?, (∀ owner ∈ owner?, isName owner) →
      Proceeds env isName (f owner?) (g owner?) post) :
    Proceeds env isName (Parse.virtualFor? name >>= f) (Parse.virtualFor? name >>= g) post :=
  fun low s hs => hf (s.virtualVariable.filter fun owner => !Text.sameWord name owner)
    (fun owner howner => hs.owner owner (Option.mem_filter_iff.mp howner).1) low s hs

/-! ## Basic readers -/

theorem step {move : TokenStream → α × TokenStream}
    (hmove : ∀ stream : TokenStream, stream.Forward (move stream).2) :
    Proceeds env isName (Parse.step move) (Parse.step move) fun _ => True := fun _ s hs =>
  have hbounds := (hmove (s.stream env)).bounds hs.inside
  ⟨_, _, rfl, rfl, hs.move (Nat.le_trans hs.low_le hbounds.1) hbounds.2, trivial⟩

theorem advance : Proceeds env isName Parse.advance Parse.advance fun _ => True :=
  step TokenStream.Forward.advance

theorem consume (kind : TokenKind) :
    Proceeds env isName (Parse.consume kind) (Parse.consume kind) fun _ => True := by
  rw [consume_eq]
  refine step fun stream => ?_
  split
  · exact .advance stream
  · exact .refl stream

theorem consumeKeyword (word : Keyword) :
    Proceeds env isName (Parse.consumeKeyword word) (Parse.consumeKeyword word) fun _ => True :=
  consume _

theorem atKeyword (word : Keyword) :
    Proceeds env isName (Parse.atKeyword word) (Parse.atKeyword word) fun _ => True :=
  fun _ _ hs => ⟨_, _, rfl, rfl, hs, trivial⟩

/-- **A word decides how to go on.** -/
theorem ifKeyword {word : Keyword} {f g : Bool → Parser β}
    (hyes : ∀ low s, Arrived env isName low s → (s.stream env).kind = .keyword word →
      Alongside env isName low s (f true) (g true) post)
    (hno : Proceeds env isName (f false) (g false) post) :
    Proceeds env isName (Parse.atKeyword word >>= f) (Parse.atKeyword word >>= g) post := by
  refine fun low s hs => .look ?_
  cases hword : (s.stream env).checkKeyword word with
  | true => exact hyes low s hs (TokenKind.eq_of_isKeyword hword)
  | false => exact hno low s hs

theorem segments : Proceeds env isName Parse.segments Parse.segments fun _ => True :=
  read (step (TokenStream.segments_forward _))

theorem record (problem : Problem) :
    Proceeds env isName (Parse.record problem) (Parse.record problem) fun _ => True :=
  fun _ _ hs => ⟨_, _, rfl, rfl, hs.record problem, trivial⟩

theorem recordHere (key : ProblemKey) (arguments : List String) :
    Proceeds env isName (Parse.recordHere key arguments) (Parse.recordHere key arguments)
      fun _ => True := look fun _ => record _

theorem expect (kind : TokenKind) :
    Proceeds env isName (Parse.expect kind) (Parse.expect kind) fun _ => True := by
  intro low s hs
  cases hexpect : (s.stream env).expect kind with
  | ok found =>
    obtain ⟨a, t, hrun, rfl, rfl⟩ := Runs.expect_ok hexpect
    refine ⟨true, _, hrun, hrun, ?_, trivial⟩
    have hbounds := (TokenStream.Forward.of_expect hexpect).bounds hs.inside
    exact hs.move (Nat.le_trans hs.low_le hbounds.1) hbounds.2
  | error problem =>
    obtain ⟨a, t, hrun, rfl, rfl⟩ := Runs.expect_error hexpect
    exact ⟨false, _, hrun, hrun, hs.record problem, trivial⟩

theorem discard_expect (kind : TokenKind) :
    Proceeds env isName (discard (Parse.expect kind)) (discard (Parse.expect kind)) fun _ => True :=
  (expect kind).map

theorem expectKeyword (word : Keyword) :
    Proceeds env isName (Parse.expectKeyword word) (Parse.expectKeyword word) fun _ => True :=
  discard_expect _

theorem push {kind : NodeKind} (hkind : ∀ name ∈ kind.variableName?, isName name) (span : Span) :
    Proceeds env isName (Parse.push kind span) (Parse.push kind span) fun _ => True :=
  fun _ _ hs => ⟨_, _, rfl, rfl, hs.push hkind span, trivial⟩

/-- A node that is no variable. -/
theorem pushFrom {kind : NodeKind} (hkind : kind.Nameless) (start : Nat) :
    Proceeds env isName (Parse.pushFrom kind start) (Parse.pushFrom kind start) fun _ => True :=
  look fun span => push (by simp [show kind.variableName? = none from hkind]) span

theorem asCollection (id : NodeId) :
    Proceeds env isName (Parse.asCollection id) (Parse.asCollection id) fun _ => True :=
  fun _ _ hs => ⟨_, _, rfl, rfl, hs.asCollection id, trivial⟩

/-! ## Repetition -/

theorem loopTo {next other : α → Parser (Option α)}
    (hnext : ∀ a, Proceeds env isName (next a) (other a) fun _ => True) (bound : Nat) (a : α) :
    Proceeds env isName (Parse.loopTo next bound a) (Parse.loopTo other bound a) fun _ => True := by
  induction bound generalizing a with
  | zero => exact pure trivial
  | succ bound ih =>
    refine (hnext a).andThen fun b => ?_
    cases b with
    | none => exact pure trivial
    | some b => exact ih b

theorem loop {next other : α → Parser (Option α)}
    (hnext : ∀ a, Proceeds env isName (next a) (other a) fun _ => True) (a : α) :
    Proceeds env isName (Parse.loop next a) (Parse.loop other a) fun _ => True :=
  read (loopTo hnext _ a)

/-- Items as long as there are more. -/
theorem items {cond : Parser Bool} {item other : Parser α}
    (hcond : Proceeds env isName cond cond fun _ => True)
    (hitem : Proceeds env isName item other fun _ => True) (items : List α) :
    Proceeds env isName
      (Parse.loop (fun items => do
        if ← cond then return some (items ++ [← item]) else return none) items)
      (Parse.loop (fun items => do
        if ← cond then return some (items ++ [← other]) else return none) items) fun _ => True := by
  refine loop (fun items => hcond.andThen fun more => ?_) items
  cases more with
  | true => exact hitem.andThen fun _ => pure trivial
  | false => exact pure trivial

theorem separated {item other : Parser α} (hitem : Proceeds env isName item other fun _ => True) :
    Proceeds env isName (Parse.separated item) (Parse.separated other) fun _ => True :=
  hitem.andThen fun first => items (consume .comma) hitem [first]

end Proceeds

/-- Says how two operands are combined, if there is an operator. They do not become a variable. -/
def OperatorProceeds (env : Env) (isName : String → Prop)
    (operator : Parser (Option (NodeId → NodeId → NodeKind))) : Prop :=
  Proceeds env isName operator operator fun combine? =>
    ∀ combine ∈ combine?, ∀ left right, (combine left right).Nameless

/-- Two operators are tried one after the other. -/
theorem operatorProceeds_either {first second : TokenKind} {a b : NodeId → NodeId → NodeKind}
    (ha : ∀ left right, (a left right).Nameless)
    (hb : ∀ left right, (b left right).Nameless) : OperatorProceeds env isName (do
      if ← consume first then return some a
      else if ← consume second then return some b
      else return none) := by
  refine (Proceeds.consume first).andThen fun found => ?_
  cases found with
  | true => exact .pure (by rintro _ ⟨⟩; exact ha)
  | false =>
    refine (Proceeds.consume second).andThen fun found => ?_
    cases found with
    | true => exact .pure (by rintro _ ⟨⟩; exact hb)
    | false => exact .pure (by rintro _ ⟨⟩)

/-- **Operands with operators between them.** -/
theorem Proceeds.leftChain {first first' operand operand' : Parser NodeId}
    {operator : Parser (Option (NodeId → NodeId → NodeKind))}
    (hfirst : Proceeds env isName first first' fun _ => True)
    (hoperator : OperatorProceeds env isName operator)
    (hoperand : Proceeds env isName operand operand' fun _ => True) :
    Proceeds env isName (Parse.leftChain first operator operand)
      (Parse.leftChain first' operator operand') fun _ => True := by
  refine hfirst.andThen fun left => .startOf fun start => .loop (fun left => ?_) left
  refine hoperator.bind fun combine? hcombine => ?_
  cases combine? with
  | none => exact .pure trivial
  | some combine =>
    refine hoperand.andThen fun right => ?_
    exact (Proceeds.pushFrom (hcombine combine rfl left right) start).andThen fun _ => .pure trivial

end Parse

end Jpql
