import Jpql.Parse.Recovery
import Jpql.Proofs.Layout.Alike
import Jpql.Proofs.Layout.Stream
import Jpql.Proofs.Reader.Run

/-! # Two runs in step

A reader never lets the place of a token decide what it does. So two runs over the same tokens go
through states that are alike, whatever the layout of the two texts is.

`Simulation a b rel` is a relation between the states of two runs that every basic step keeps: moving
forward, adding a node, reading a variable, recording a problem, and the two forms of recovery.
`Agree a b rel p q post` says that `p` and `q` then end alike: both fail with the same error, or both
succeed with results that satisfy `post` and states in `rel`. What every basic step keeps, every reader
keeps; so the same lemmas give what two runs have in common and, with a run paired with itself, what
one run never breaks.

* `Agree.bind`, `Agree.same`, `Agree.place`: one reader after the other, where the results are
  related, equal, or places that may differ.
* `Lockstep`: the judgement for one reader run twice. -/

namespace Jpql

/-- Nodes that stand for a defect of the text. -/
def NodeKind.isRecovery : NodeKind → Bool
  | .bad | .unknown _ => true
  | _ => false

/-- Variables that are written in the text. -/
def NodeKind.isWritten : NodeKind → Bool
  | .identifier _ false _ => true
  | _ => false

/-- Nodes that may be added at any place. Those that stand for a defect come with a problem, and
variables with the token they are written as. -/
def NodeKind.isPlain (kind : NodeKind) : Bool := !kind.isRecovery && !kind.isWritten

theorem NodeKind.isRecovery_of_isPlain {kind : NodeKind} (h : kind.isPlain = true) :
    kind.isRecovery = false := by
  simpa using (Bool.and_eq_true_iff.mp h).1

theorem NodeKind.isWritten_of_isPlain {kind : NodeKind} (h : kind.isPlain = true) :
    kind.isWritten = false := by
  simpa using (Bool.and_eq_true_iff.mp h).2

/-- Causes that come with a node for text that has no place. -/
def ProblemKey.isLeftover : ProblemKey → Bool
  | .unknownExpression | .nestingTooDeep => true
  | _ => false

/-- Causes that come with a node of their own. -/
def ProblemKey.isRecovery (key : ProblemKey) : Bool := key == .missingExpression || key.isLeftover

namespace Parse

/-- A node for a missing expression, with its problem. -/
def Draft.missing (draft : Draft) (what : String) (place : Nat) : Draft :=
  (draft.push .bad (.point place)).record
    ⟨.missingExpression, [what], .point place, some draft.size⟩

/-- A node for text that has no place, with its problem. -/
def Draft.leftover (draft : Draft) (key : ProblemKey) (span : Span) (text argument : String) :
    Draft :=
  (draft.push (.unknown text) span).record ⟨key, [argument], span, some draft.size⟩

/-- A variable that is written in the text, with its place. -/
def Draft.variable (draft : Draft) (name : String) (place : Span) : Draft :=
  draft.push (.identifier name false none) place

/-- The state with another draft. -/
def State.write (s : State) (draft : Draft) : State :=
  { s with builder := draft.builder, problems := draft.problems }

/-- **The same tokens, grammar and limit.** -/
structure Env.Alike (a b : Env) : Prop where
  tokens : a.tokens.map (Token.spelled a.source) = b.tokens.map (Token.spelled b.source)
  grammar : a.grammar = b.grammar
  maxDepth : a.maxDepth = b.maxDepth

/-- **States of runs that have come equally far.** -/
structure State.Alike (s t : State) : Prop where
  position : s.position = t.position
  virtualVariable : s.virtualVariable = t.virtualVariable
  draft : s.draft.Alike t.draft

/-- **A relation between the states of two runs that every basic step keeps.** -/
structure Simulation (a b : Env) (rel : State → State → Prop) : Prop where
  env : a.Alike b
  alike : ∀ {s t}, rel s t → s.Alike t
  inside : ∀ {s t}, rel s t → s.position ≤ a.tokens.size - 1
  moved : ∀ {s t}, rel s t → ∀ n, s.position ≤ n → n ≤ a.tokens.size - 1 →
    rel { s with position := n } { t with position := n }
  renamed : ∀ {s t}, rel s t → ∀ name,
    rel { s with virtualVariable := name } { t with virtualVariable := name }
  pushed : ∀ {s t}, rel s t → ∀ {kind other : NodeKind} (span place : Span), kind.Alike other →
    kind.isPlain = true →
    rel (s.write (s.draft.push kind span)) (t.write (t.draft.push other place))
  named : ∀ {s t}, rel s t → (s.stream a).kind ≠ .eof → ∀ name n,
    (s.stream a).advance.position ≤ n → n ≤ a.tokens.size - 1 →
    rel (({ s with position := n } : State).write (s.draft.variable name (s.stream a).current.span))
      (({ t with position := n } : State).write (t.draft.variable name (t.stream b).current.span))
  recorded : ∀ {s t}, rel s t → ∀ {problem other : Problem}, problem.outline = other.outline →
    problem.key.isRecovery = false →
    rel (s.write (s.draft.record problem)) (t.write (t.draft.record other))
  missed : ∀ {s t}, rel s t → ∀ what m n,
    rel (s.write (s.draft.missing what m)) (t.write (t.draft.missing what n))
  leftOver : ∀ {s t}, rel s t → ∀ {key : ProblemKey} span place text word argument other,
    key.isLeftover = true →
    rel (s.write (s.draft.leftover key span text argument))
      (t.write (t.draft.leftover key place word other))
  reread : ∀ {s t}, rel s t → ∀ id,
    rel (s.write (s.draft.asCollection id)) (t.write (t.draft.asCollection id))

/-- How two runs end that are in step. -/
inductive Outcome {α β : Type} (post : α → β → Prop) (rel : State → State → Prop) :
    Except GrammarError (α × State) → Except GrammarError (β × State) → Prop
  | ok {x : α} {y : β} {s t : State} (h : post x y) (hs : rel s t) :
      Outcome post rel (.ok (x, s)) (.ok (y, t))
  | error (error : GrammarError) : Outcome post rel (.error error) (.error error)

theorem Outcome.bind {α β γ δ : Type} {rel : State → State → Prop} {post : α → β → Prop}
    {last : γ → δ → Prop} {x : Except GrammarError (α × State)} {y : Except GrammarError (β × State)}
    {f : α × State → Except GrammarError (γ × State)} {g : β × State → Except GrammarError (δ × State)}
    (h : Outcome post rel x y)
    (hf : ∀ x y s t, post x y → rel s t → Outcome last rel (f (x, s)) (g (y, t))) :
    Outcome last rel (x >>= f) (y >>= g) := by
  cases h with
  | ok hp hs => exact hf _ _ _ _ hp hs
  | error error => exact .error error

theorem Outcome.mono {α β : Type} {rel : State → State → Prop} {post weak : α → β → Prop}
    {x : Except GrammarError (α × State)} {y : Except GrammarError (β × State)}
    (h : Outcome post rel x y) (hw : ∀ x y, post x y → weak x y) : Outcome weak rel x y := by
  cases h with
  | ok hp hs => exact .ok (hw _ _ hp) hs
  | error error => exact .error error

theorem Outcome.look {α β γ δ : Type} {a b : Env} {rel : State → State → Prop} {post : γ → δ → Prop}
    {f : TokenStream → α} {f' : TokenStream → β} {g : α → Parser γ} {g' : β → Parser δ} {s t : State}
    (h : Outcome post rel (g (f (s.stream a)) a s) (g' (f' (t.stream b)) b t)) :
    Outcome post rel ((Parse.look f >>= g) a s) ((Parse.look f' >>= g') b t) := h

theorem Outcome.advance {γ δ : Type} {a b : Env} {rel : State → State → Prop} {post : γ → δ → Prop}
    {g : Unit → Parser γ} {g' : Unit → Parser δ} {s t : State}
    (h : Outcome post rel (g () a { s with position := (s.stream a).advance.position })
      (g' () b { t with position := (t.stream b).advance.position })) :
    Outcome post rel ((Parse.advance >>= g) a s) ((Parse.advance >>= g') b t) := h

theorem Outcome.read {γ δ : Type} {a b : Env} {rel : State → State → Prop} {post : γ → δ → Prop}
    {g : Env → Parser γ} {g' : Env → Parser δ} {s t : State} (h : Outcome post rel (g a a s) (g' b b t)) :
    Outcome post rel ((MonadReader.read >>= g) a s) ((MonadReader.read >>= g') b t) := h

/-- **Two readers end alike** on states that are related. -/
def Agree {α β : Type} (a b : Env) (rel : State → State → Prop) (p : Parser α) (q : Parser β)
    (post : α → β → Prop) : Prop :=
  ∀ s t, rel s t → Outcome post rel (p a s) (q b t)

/-- **A reader ends alike in both runs**, with the same result. -/
def Lockstep {α : Type} (a b : Env) (rel : State → State → Prop) (p : Parser α) : Prop :=
  Agree a b rel p p Eq

variable {α β γ δ : Type} {a b : Env} {rel : State → State → Prop}

/-! ## Composition -/

namespace Agree

variable {p : Parser α} {q : Parser β} {post : α → β → Prop}

theorem pure {x : α} {y : β} (h : post x y) :
    Agree a b rel (Pure.pure x) (Pure.pure y) post := fun _ _ hs => .ok h hs

/-- **One reader after the other.** -/
theorem bind {f : α → Parser γ} {g : β → Parser δ} {last : γ → δ → Prop}
    (h : Agree a b rel p q post) (hf : ∀ x y, post x y → Agree a b rel (f x) (g y) last) :
    Agree a b rel (p >>= f) (q >>= g) last := fun s t hs =>
  (h s t hs).bind fun x y s t hp ht => hf x y hp s t ht

theorem map {f : α → γ} {g : β → δ} {last : γ → δ → Prop}
    (h : Agree a b rel p q fun x y => last (f x) (g y)) :
    Agree a b rel (f <$> p) (g <$> q) last := fun s t hs =>
  (h s t hs).bind fun _ _ _ _ hp ht => .ok hp ht

theorem mono {weak : α → β → Prop} (h : Agree a b rel p q post)
    (hw : ∀ x y, post x y → weak x y) : Agree a b rel p q weak := fun s t hs =>
  (h s t hs).mono hw

theorem seqRight {p' : Parser γ} {q' : Parser δ} {last : γ → δ → Prop}
    (h : Agree a b rel p q post) (hq : Agree a b rel p' q' last) :
    Agree a b rel (p *> p') (q *> q') last := fun s t hs =>
  (h s t hs).bind fun _ _ s t _ ht => hq s t ht

/-- Where the results are the same, what follows is compared for one result. -/
theorem same {p q : Parser α} {f : α → Parser γ} {g : α → Parser δ} {last : γ → δ → Prop}
    (h : Agree a b rel p q Eq) (hf : ∀ x, Agree a b rel (f x) (g x) last) :
    Agree a b rel (p >>= f) (q >>= g) last :=
  h.bind fun x _ hxy => hxy ▸ hf x

theorem map_same {p q : Parser α} (h : Agree a b rel p q Eq) (f : α → γ) :
    Agree a b rel (f <$> p) (f <$> q) Eq :=
  .map (h.mono fun _ _ hxy => hxy ▸ rfl)

/-- Places may differ. -/
theorem place {f : TokenStream → α} {f' : TokenStream → β} {g : α → Parser γ} {g' : β → Parser δ}
    {last : γ → δ → Prop} (h : ∀ x y, Agree a b rel (g x) (g' y) last) :
    Agree a b rel (look f >>= g) (look f' >>= g') last := fun _ _ hs => h _ _ _ _ hs

theorem startOf {id other : Nat} {g : Nat → Parser γ} {g' : Nat → Parser δ} {last : γ → δ → Prop}
    (h : ∀ m n, Agree a b rel (g m) (g' n) last) :
    Agree a b rel (startOf id >>= g) (startOf other >>= g') last := fun _ _ hs => h _ _ _ _ hs

theorem read {g : Env → Parser γ} {g' : Env → Parser δ} {last : γ → δ → Prop}
    (h : Agree a b rel (g a) (g' b) last) : Agree a b rel (read >>= g) (read >>= g') last := h

theorem loopTo {next other : α → Parser (Option α)}
    (hnext : ∀ x, Agree a b rel (next x) (other x) Eq) (bound : Nat) (x : α) :
    Agree a b rel (loopTo next bound x) (loopTo other bound x) Eq := by
  induction bound generalizing x with
  | zero => exact .pure rfl
  | succ bound ih =>
    refine (hnext x).same fun y => ?_
    cases y with
    | none => exact .pure rfl
    | some y => exact ih y

end Agree

/-! ## Basic steps -/

theorem Env.Alike.stream (h : a.Alike b) {s t : State} (hst : s.Alike t) :
    (s.stream a).Alike (t.stream b) := ⟨hst.position, h.tokens⟩

theorem Env.Alike.size (h : a.Alike b) : a.tokens.size = b.tokens.size :=
  TokenStream.Alike.size (a := ⟨a.source, a.tokens, 0⟩) (b := ⟨b.source, b.tokens, 0⟩) ⟨rfl, h.tokens⟩

namespace Simulation

variable (S : Simulation a b rel)

include S

/-- A look at the tokens, with results that agree. -/
theorem lookBoth {f : TokenStream → α} {g : TokenStream → β} {post : α → β → Prop}
    (h : ∀ x y : TokenStream, x.Alike y → post (f x) (g y)) :
    Agree a b rel (Parse.look f) (Parse.look g) post := fun _ _ hs =>
  .ok (h _ _ (S.env.stream (S.alike hs))) hs

/-- **A look at the tokens alone** gives the same in both runs. -/
theorem look {f : TokenStream → α} (hf : TokenStream.Textual f) : Lockstep a b rel (look f) :=
  S.lookBoth hf

/-- A move over tokens, with results that agree. -/
theorem step {f : TokenStream → α × TokenStream} {g : TokenStream → β × TokenStream}
    {post : α → β → Prop} (hforward : ∀ x : TokenStream, x.Forward (f x).2)
    (h : ∀ x y : TokenStream, x.Alike y → post (f x).1 (g y).1 ∧
      (f x).2.position = (g y).2.position) : Agree a b rel (step f) (step g) post := by
  intro s t hs
  obtain ⟨hpost, hposition⟩ := h _ _ (S.env.stream (S.alike hs))
  have hf := hforward (s.stream a)
  have hmove := S.moved hs (f (s.stream a)).2.position (hf.bounds (S.inside hs)).1
    (hf.bounds (S.inside hs)).2
  have hright : { t with position := (f (s.stream a)).2.position } =
      { t with position := (g (t.stream b)).2.position } := by rw [hposition]
  rw [hright] at hmove
  exact .ok hpost hmove

theorem advance : Lockstep a b rel advance :=
  S.step TokenStream.Forward.advance fun _ _ h => ⟨rfl, h.advance.position⟩

/-- The states behind the current token. -/
theorem advanced {s t : State} (hs : rel s t) :
    rel { s with position := (s.stream a).advance.position }
      { t with position := (t.stream b).advance.position } := by
  cases S.advance s t hs with
  | ok _ hmoved => exact hmoved

theorem consume (kind : TokenKind) : Lockstep a b rel (consume kind) := by
  rw [consume_eq]
  refine S.step (fun x => ?_) fun x y h => ?_
  · split
    · exact .advance x
    · exact .refl x
  · rw [h.check kind]
    split
    · exact ⟨rfl, h.advance.position⟩
    · exact ⟨rfl, h.position⟩

theorem consumeKeyword (word : Keyword) : Lockstep a b rel (consumeKeyword word) := S.consume _

theorem atKeyword (word : Keyword) : Lockstep a b rel (atKeyword word) :=
  S.look (TokenStream.textual_checkKeyword word)

theorem setVirtual (name : Option String) :
    Lockstep a b rel (modify ({ · with virtualVariable := name })) := fun _ _ hs =>
  .ok rfl (S.renamed hs name)

theorem push {kind other : NodeKind} (span place : Span) (hkind : kind.Alike other)
    (hplain : kind.isPlain = true) :
    Agree a b rel (Parse.push kind span) (Parse.push other place) Eq := fun _ _ hs =>
  .ok (S.alike hs).draft.size (S.pushed hs span place hkind hplain)

theorem pushFrom {kind other : NodeKind} (m n : Nat) (hkind : kind.Alike other)
    (hplain : kind.isPlain = true) :
    Agree a b rel (Parse.pushFrom kind m) (Parse.pushFrom other n) Eq :=
  .place fun _ _ => S.push _ _ hkind hplain

/-- **A variable that is written at the current token** is added after the token was moved over, and
perhaps others behind it. -/
theorem written {s t : State} (hs : rel s t) (hkind : (s.stream a).kind ≠ .eof) (name : String) {n : Nat}
    (hle : (s.stream a).advance.position ≤ n) (hn : n ≤ a.tokens.size - 1) {f g : NodeId → Parser α}
    {post : α → α → Prop} (h : ∀ root, Agree a b rel (f root) (g root) post) :
    Outcome post rel ((Parse.push (.identifier name false none) (s.stream a).current.span >>= f) a
        { s with position := n })
      ((Parse.push (.identifier name false none) (t.stream b).current.span >>= g) b
        { t with position := n }) := by
  have hsize : s.draft.size = t.draft.size := (S.alike hs).draft.size
  have hnamed := h s.draft.size _ _ (S.named hs hkind name n hle hn)
  have hleft : (Parse.push (.identifier name false none) (s.stream a).current.span >>= f) a
      { s with position := n } = f s.draft.size a _ := rfl
  have hright : (Parse.push (.identifier name false none) (t.stream b).current.span >>= g) b
      { t with position := n } = g t.draft.size b _ := rfl
  rw [hleft, hright, ← hsize]
  exact hnamed

/-- A variable that is written at the token that was moved over last. -/
theorem writtenHere {s t : State} (hs : rel s t) (hkind : (s.stream a).kind ≠ .eof) (name : String)
    {f g : NodeId → Parser α} {post : α → α → Prop} (h : ∀ root, Agree a b rel (f root) (g root) post) :
    Outcome post rel ((Parse.push (.identifier name false none) (s.stream a).current.span >>= f) a
        { s with position := (s.stream a).advance.position })
      ((Parse.push (.identifier name false none) (t.stream b).current.span >>= g) b
        { t with position := (t.stream b).advance.position }) := by
  rw [← (S.env.stream (S.alike hs)).advance.position]
  exact S.written hs hkind name (Nat.le_refl _)
    ((TokenStream.Forward.advance (s.stream a)).bounds (S.inside hs)).2 h

theorem record {problem other : Problem} (houtline : problem.outline = other.outline)
    (hplain : problem.key.isRecovery = false) :
    Agree a b rel (Parse.record problem) (Parse.record other) Eq := fun _ _ hs =>
  .ok rfl (S.recorded hs houtline hplain)

theorem recordHere {key : ProblemKey} (hplain : key.isRecovery = false)
    (arguments : List String) : Lockstep a b rel (recordHere key arguments) := fun _ _ hs =>
  .ok rfl (S.recorded hs rfl hplain)

/-- A token is moved over in both runs, or missed in both. -/
theorem expect (kind : TokenKind) : Lockstep a b rel (expect kind) := by
  intro s t hs
  have halike := S.env.stream (S.alike hs)
  have hexpect : ∀ stream : TokenStream, stream.expect kind = if stream.check kind then
      .ok (stream.current.span, stream.advance)
      else .error (stream.problemHere .expectedToken [kind.describe]) := fun stream => by
    unfold TokenStream.expect TokenStream.consume?
    cases stream.check kind <;> rfl
  have hleft := hexpect (s.stream a)
  have hright := hexpect (t.stream b)
  rw [← halike.check kind] at hright
  split at hleft
  · next hc =>
    rw [if_pos hc] at hright
    obtain ⟨_, _, hp, rfl, rfl⟩ := Runs.expect_ok hleft
    obtain ⟨_, _, hq, rfl, rfl⟩ := Runs.expect_ok hright
    rw [hp, hq, ← halike.advance.position]
    have hbounds := (TokenStream.Forward.advance (s.stream a)).bounds (S.inside hs)
    exact .ok rfl (S.moved hs _ hbounds.1 hbounds.2)
  · next hc =>
    rw [if_neg hc] at hright
    obtain ⟨_, _, hp, rfl, rfl⟩ := Runs.expect_error hleft
    obtain ⟨_, _, hq, rfl, rfl⟩ := Runs.expect_error hright
    rw [hp, hq]
    exact .ok rfl (S.recorded hs rfl rfl)

theorem discard_expect (kind : TokenKind) : Lockstep a b rel (discard (Parse.expect kind)) :=
  (S.expect kind).map_same _

theorem expectKeyword (word : Keyword) : Lockstep a b rel (expectKeyword word) :=
  S.discard_expect _

/-- The kinds of a node are alike in both runs. -/
theorem kindOf {id : Nat} {f : NodeKind → Parser α} {g : NodeKind → Parser β} {post : α → β → Prop}
    (h : ∀ kind other : NodeKind, kind.Alike other → Agree a b rel (f kind) (g other) post) :
    Agree a b rel (kindOf id >>= f) (kindOf id >>= g) post := fun s t hs =>
  h _ _ ((S.alike hs).draft.kind id) s t hs

theorem asCollection (id : Nat) : Lockstep a b rel (asCollection id) := fun _ _ hs =>
  .ok rfl (S.reread hs id)

theorem missing (what : String) : Lockstep a b rel (missing what) := fun _ _ hs =>
  .ok (S.alike hs).draft.size (S.missed hs what _ _)

theorem pushUnknown (span place : Span) (text word argument other : String) {key : ProblemKey}
    (hkey : key.isLeftover = true) :
    Agree a b rel (pushUnknown span text key argument) (pushUnknown place word key other) Eq :=
  fun _ _ hs => .ok (S.alike hs).draft.size (S.leftOver hs span place text word argument other hkey)

/-! ## Repetition -/

/-- **What is repeated in step** is in step as a whole; the two texts have equally many tokens. -/
theorem loop {next other : α → Parser (Option α)}
    (hnext : ∀ x, Agree a b rel (next x) (other x) Eq) (x : α) :
    Agree a b rel (loop next x) (loop other x) Eq := by
  refine .read ?_
  rw [S.env.size]
  exact .loopTo hnext _ x

/-- Items as long as there are more. -/
theorem loop_items {cond : Parser Bool} {item : Parser α} (hcond : Lockstep a b rel cond)
    (hitem : Lockstep a b rel item) (items : List α) :
    Lockstep a b rel (Parse.loop (fun items => do
      if ← cond then return some (items ++ [← item]) else return none) items) :=
  S.loop (fun items => hcond.same fun more => by
    cases more with
    | false => exact .pure rfl
    | true => exact hitem.same fun x => .pure rfl) items

theorem separated {item : Parser α} (hitem : Lockstep a b rel item) :
    Lockstep a b rel (separated item) :=
  hitem.same fun first => S.loop_items (S.consume .comma) hitem [first]

/-- An operator is found in both runs, and makes nodes that are no defects. -/
def Joins (a b : Env) (rel : State → State → Prop)
    (operator : Parser (Option (NodeId → NodeId → NodeKind))) : Prop :=
  Agree a b rel operator operator fun x y =>
    x = y ∧ ∀ combine ∈ x, ∀ left right, (combine left right).isPlain = true

theorem leftChain {first operand : Parser NodeId}
    {operator : Parser (Option (NodeId → NodeId → NodeKind))} (hfirst : Lockstep a b rel first)
    (hoperator : Joins a b rel operator) (hoperand : Lockstep a b rel operand) :
    Lockstep a b rel (leftChain first operator operand) := by
  refine hfirst.same fun left => .startOf fun m n => S.loop (fun left => ?_) left
  refine hoperator.bind ?_
  rintro combine _ ⟨rfl, hplain⟩
  cases combine with
  | none => exact .pure rfl
  | some combine =>
    refine hoperand.same fun right => ?_
    exact (S.pushFrom m n (.refl _) (hplain combine rfl left right)).same fun id => .pure rfl

end Simulation

end Parse

end Jpql
