import Jpql.Proofs.Layout.Query
import Jpql.Proofs.Token.Order

/-! # What a reader has passed

Reading goes forward: the position never falls, nodes keep their spans, and problems are only added
(`Passage`). Every reader that is in step with itself passes like this (`Passes.of_agree`), so the
readers need not be looked into for it.

An *invariant* is a property of states that every basic step keeps. A run paired with itself shows that
every reader keeps it then: the readers need not be looked into again for it either (`Invariant.query`).

* `After env p s post`: if the run of `p` from `s` ends, its result and last state satisfy `post`.
* `Env.InOrder`: the tokens follow one another; then so do the places where they start and end. -/

namespace Jpql.Parse

/-! ## What a run never breaks -/

/-- **A property of states that every basic step keeps.** -/
structure Invariant (env : Env) (inv : State → Prop) : Prop where
  moved : ∀ {s}, inv s → ∀ n, s.position ≤ n → n ≤ env.tokens.size - 1 →
    inv { s with position := n }
  renamed : ∀ {s}, inv s → ∀ name, inv { s with virtualVariable := name }
  pushed : ∀ {s}, inv s → ∀ (kind : NodeKind) (span : Span), kind.isPlain = true →
    inv (s.write (s.draft.push kind span))
  named : ∀ {s}, inv s → (s.stream env).kind ≠ .eof → ∀ name n,
    (s.stream env).advance.position ≤ n → n ≤ env.tokens.size - 1 →
    inv (({ s with position := n } : State).write
      (s.draft.variable name (s.stream env).current.span))
  recorded : ∀ {s}, inv s → ∀ problem : Problem, problem.key.isRecovery = false →
    inv (s.write (s.draft.record problem))
  missed : ∀ {s}, inv s → ∀ what n, inv (s.write (s.draft.missing what n))
  leftOver : ∀ {s}, inv s → ∀ (key : ProblemKey) span text argument, key.isLeftover = true →
    inv (s.write (s.draft.leftover key span text argument))
  reread : ∀ {s}, inv s → ∀ id, inv (s.write (s.draft.asCollection id))

namespace Invariant

variable {α : Type} {env : Env} {inv : State → Prop} {s t : State}

/-- The states of two runs over one text that are alike and both satisfy the property. -/
def Both (env : Env) (inv : State → Prop) (s t : State) : Prop :=
  (s.Alike t ∧ s.position ≤ env.tokens.size - 1) ∧ inv s ∧ inv t

/-- An invariant is kept by two runs over one text. -/
theorem simulation (h : Invariant env inv) : Simulation env env (Both env inv) := by
  have S := simulation_alike (a := env) (b := env) ⟨rfl, rfl, rfl⟩
  refine ⟨S.env, fun hs => hs.1.1, fun hs => hs.1.2, ?_, ?_, ?_, ?_, ?_, ?_, ?_, ?_⟩
  · intro s t hs n hle hn
    exact ⟨S.moved hs.1 n hle hn, h.moved hs.2.1 n hle hn,
      h.moved hs.2.2 n (hs.1.1.position ▸ hle) hn⟩
  · intro s t hs name
    exact ⟨S.renamed hs.1 name, h.renamed hs.2.1 name, h.renamed hs.2.2 name⟩
  · intro s t hs kind other span place hkind hplain
    have hother : other.isPlain = true := by
      cases hkind with
      | refl => exact hplain
      | path => rfl
      | unknown => exact absurd hplain Bool.false_ne_true
    exact ⟨S.pushed hs.1 span place hkind hplain, h.pushed hs.2.1 kind span hplain,
      h.pushed hs.2.2 other place hother⟩
  · intro s t hs hkind name n hle hn
    have hstream := S.env.stream hs.1.1
    exact ⟨S.named hs.1 hkind name n hle hn, h.named hs.2.1 hkind name n hle hn,
      h.named hs.2.2 (hstream.kind ▸ hkind) name n (hstream.advance.position ▸ hle) hn⟩
  · intro s t hs problem other houtline hplain
    have hkey : problem.key = other.key := congrArg Prod.fst houtline
    exact ⟨S.recorded hs.1 houtline hplain, h.recorded hs.2.1 problem hplain,
      h.recorded hs.2.2 other (hkey ▸ hplain)⟩
  · intro s t hs what m n
    exact ⟨S.missed hs.1 what m n, h.missed hs.2.1 what m, h.missed hs.2.2 what n⟩
  · intro s t hs key span place text word argument other hkey
    exact ⟨S.leftOver hs.1 span place text word argument other hkey,
      h.leftOver hs.2.1 key span text argument hkey, h.leftOver hs.2.2 key place word other hkey⟩
  · intro s t hs id
    exact ⟨S.reread hs.1 id, h.reread hs.2.1 id, h.reread hs.2.2 id⟩

/-- **A reader in step with itself keeps the invariant.** -/
theorem of_agree {p : Parser α} {post : α → α → Prop} (hp : Agree env env (Both env inv) p p post)
    {x : α}
    (hrun : p env s = .ok (x, t)) (hinside : s.position ≤ env.tokens.size - 1) (hs : inv s) :
    t.position ≤ env.tokens.size - 1 ∧ inv t := by
  have houtcome := hp s s ⟨⟨⟨rfl, rfl, .refl _⟩, hinside⟩, hs, hs⟩
  rw [hrun] at houtcome
  cases houtcome with
  | ok _ ht => exact ⟨ht.1.2, ht.2.1⟩

/-- **The reader of a whole text keeps every invariant.** -/
theorem query (h : Invariant env inv) {levels : Nat} {rule : String} {root : Nat}
    (hrun : Parse.query (level levels) rule env .initial = .ok (root, t))
    (hinitial : inv .initial) : inv t :=
  (of_agree (h.simulation.query (h.simulation.level levels) rule) hrun (Nat.zero_le _)
    hinitial).2

end Invariant

variable {α β : Type} {env : Env} {s t u : State}

/-! ## Places of tokens -/

/-- Where the token at a position starts. -/
def Env.startAt (env : Env) (position : Nat) : Nat :=
  TokenStream.currentStart ⟨env.source, env.tokens, position⟩

/-- Where the token before a position ends. -/
def Env.endBefore (env : Env) (position : Nat) : Nat :=
  TokenStream.previousEnd ⟨env.source, env.tokens, position⟩

/-- **The tokens follow one another**, and the last of them is the end of the text. -/
def Env.InOrder (env : Env) : Prop :=
  Token.Run (Text.trimmedLength env.source) 0 env.tokens.toList

namespace Env.InOrder

variable (h : env.InOrder)

theorem current_eq {i : Nat} (hi : i < env.tokens.size) :
    TokenStream.current ⟨env.source, env.tokens, i⟩ = env.tokens[i] := by
  show ((env.tokens[i + 0]?).or env.tokens.back?).getD TokenStream.noToken = _
  rw [Nat.add_zero, Array.getElem?_eq_getElem hi]
  rfl

theorem startAt_eq {i : Nat} (hi : i < env.tokens.size) :
    env.startAt i = env.tokens[i].span.start := by
  rw [Env.startAt, TokenStream.currentStart, current_eq hi]

theorem endBefore_succ {i : Nat} (hi : i < env.tokens.size) :
    env.endBefore (i + 1) = env.tokens[i].span.stop := by
  show ((env.tokens[i]?).getD TokenStream.noToken).span.stop = _
  rw [Array.getElem?_eq_getElem hi]
  rfl

include h

theorem size_pos : 0 < env.tokens.size := by
  rw [← Array.length_toList]
  exact List.length_pos_iff.mpr h.ne_nil

theorem start_le_stop {i : Nat} (hi : i < env.tokens.size) :
    env.tokens[i].span.start ≤ env.tokens[i].span.stop :=
  (h.bounds _ (Array.getElem_mem_toList hi)).2

theorem stop_le_start {i j : Nat} (hij : i < j) (hi : i < env.tokens.size)
    (hj : j < env.tokens.size) : env.tokens[i].span.stop ≤ env.tokens[j].span.start :=
  List.pairwise_iff_getElem.mp h.pairwise i j (by simpa using hi) (by simpa using hj) hij

/-- The end of the text is the last token, and empty. -/
theorem eof_iff {i : Nat} (hi : i < env.tokens.size) :
    (env.tokens[i].kind = .eof ↔ i + 1 = env.tokens.size) ∧
      (env.tokens[i].kind = .eof → env.tokens[i].span.start = env.tokens[i].span.stop) := by
  have hlist := Token.Run.eof_iff h i (by simpa using hi)
  simpa using hlist

/-- Places of tokens rise with their positions. -/
theorem startAt_mono {i j : Nat} (hij : i ≤ j) (hj : j < env.tokens.size) :
    env.startAt i ≤ env.startAt j := by
  rcases Nat.lt_or_eq_of_le hij with hlt | rfl
  · rw [startAt_eq (hlt.trans hj), startAt_eq hj]
    exact Nat.le_trans (h.start_le_stop _) (h.stop_le_start hlt _ hj)
  · exact Nat.le_refl _

/-- A token ends before the next one starts. -/
theorem endBefore_le_startAt {i : Nat} (hi : i < env.tokens.size) :
    env.endBefore i ≤ env.startAt i := by
  cases i with
  | zero => exact Nat.le_refl _
  | succ i =>
    rw [endBefore_succ (Nat.lt_of_succ_lt hi), startAt_eq hi]
    exact h.stop_le_start (Nat.lt_succ_self i) _ hi

end Env.InOrder

/-- The surroundings in which a text is read. -/
def textEnv (source : String) (maxDepth : Nat) : Env :=
  ⟨source, (tokenize source).tokens.toArray, .standard, maxDepth⟩

theorem textEnv_inOrder (source : String) (maxDepth : Nat) : (textEnv source maxDepth).InOrder :=
  tokenize_run source

/-! ## Passages -/

/-- **From `s` to `t` a reader has passed.** It went forward, nodes kept their spans, and problems were
only added. -/
structure Passage (env : Env) (s t : State) : Prop where
  position_le : s.position ≤ t.position
  inside : t.position ≤ env.tokens.size - 1
  size_le : s.draft.size ≤ t.draft.size
  span_eq : ∀ id < s.draft.size, t.draft.span id = s.draft.span id
  problems : s.draft.problems <+: t.draft.problems

namespace Passage

theorem refl (hs : s.position ≤ env.tokens.size - 1) : Passage env s s :=
  ⟨Nat.le_refl _, hs, Nat.le_refl _, fun _ _ => rfl, List.prefix_refl _⟩

theorem trans (h : Passage env s t) (k : Passage env t u) : Passage env s u where
  position_le := Nat.le_trans h.position_le k.position_le
  inside := k.inside
  size_le := Nat.le_trans h.size_le k.size_le
  span_eq id hid := (k.span_eq id (Nat.lt_of_lt_of_le hid h.size_le)).trans (h.span_eq id hid)
  problems := h.problems.trans k.problems

theorem move (h : Passage env s t) {n : Nat} (hle : t.position ≤ n) (hn : n ≤ env.tokens.size - 1) :
    Passage env s { t with position := n } :=
  ⟨Nat.le_trans h.position_le hle, hn, h.size_le, h.span_eq, h.problems⟩

theorem push (h : Passage env s t) (kind : NodeKind) (span : Span) :
    Passage env s (t.write (t.draft.push kind span)) where
  position_le := h.position_le
  inside := h.inside
  size_le := by
    show s.draft.size ≤ (t.draft.push kind span).size
    rw [Draft.size_push]
    exact Nat.le_succ_of_le h.size_le
  span_eq id hid := by
    show (t.draft.push kind span).span id = _
    rw [Draft.span_push_of_lt _ _ _ (Nat.lt_of_lt_of_le hid h.size_le), h.span_eq id hid]
  problems := h.problems

theorem record (h : Passage env s t) (problem : Problem) :
    Passage env s (t.write (t.draft.record problem)) :=
  ⟨h.position_le, h.inside, h.size_le, h.span_eq, h.problems.trans (List.prefix_append _ _)⟩

/-- **Every basic step is a passage.** -/
theorem invariant (s : State) : Invariant env (Passage env s) where
  moved h _ hle hn := h.move hle hn
  renamed h _ := ⟨h.position_le, h.inside, h.size_le, h.span_eq, h.problems⟩
  pushed h kind span _ := h.push kind span
  named {t} h _ _ n hle hn :=
    have hnext := ((TokenStream.Forward.advance (t.stream env)).bounds h.inside).1
    (h.move (Nat.le_trans hnext hle) hn).push _ _
  recorded h problem _ := h.record problem
  missed h _ _ := (h.push _ _).record _
  leftOver h _ _ _ _ _ := (h.push _ _).record _
  reread {t} h id :=
    ⟨h.position_le, h.inside, by
      show s.draft.size ≤ (t.draft.asCollection id).size
      rw [Draft.size_asCollection]
      exact h.size_le,
      fun other hother => (Draft.span_asCollection _ _ _).trans (h.span_eq other hother),
      h.problems⟩

end Passage

/-! ## Runs that end -/

/-- **If the run ends, its result and last state satisfy `post`.** -/
def After (env : Env) (p : Parser α) (s : State) (post : α → State → Prop) : Prop :=
  ∀ a t, p env s = .ok (a, t) → post a t

namespace After

variable {p : Parser α} {post : α → State → Prop}

theorem mono {weak : α → State → Prop} (h : After env p s post)
    (hw : ∀ a t, post a t → weak a t) : After env p s weak := fun a t hrun => hw a t (h a t hrun)

theorem and {other : α → State → Prop} (h : After env p s post) (k : After env p s other) :
    After env p s fun a t => post a t ∧ other a t := fun a t hrun => ⟨h a t hrun, k a t hrun⟩

theorem pure {a : α} (h : post a s) : After env (Pure.pure a : Parser α) s post := by
  rintro _ _ ⟨⟩
  exact h

theorem bind {f : α → Parser β} {mid : α → State → Prop} {post : β → State → Prop}
    (h : After env p s mid) (hf : ∀ a t, mid a t → After env (f a) t post) :
    After env (p >>= f) s post := by
  intro b u hrun
  change (p env s >>= fun x => f x.1 env x.2) = _ at hrun
  cases hp : p env s with
  | error error =>
    rw [hp] at hrun
    cases hrun
  | ok result =>
    obtain ⟨a, t⟩ := result
    rw [hp] at hrun
    exact hf a t (h a t hp) b u hrun

theorem map {f : α → β} {post : β → State → Prop} (h : After env p s fun a t => post (f a) t) :
    After env (f <$> p) s post :=
  show After env (p >>= fun a => Pure.pure (f a)) s post from h.bind fun _ _ ha => .pure ha

/-- A look around leaves the state as it is. -/
theorem look_bind {f : TokenStream → α} {g : α → Parser β} {post : β → State → Prop}
    (h : After env (g (f (s.stream env))) s post) : After env (look f >>= g) s post := h

theorem startOf_bind {id : Nat} {g : Nat → Parser β} {post : β → State → Prop}
    (h : After env (g (s.draft.span id).start) s post) : After env (startOf id >>= g) s post := h

theorem read_bind {g : Env → Parser β} {post : β → State → Prop}
    (h : After env (g env) s post) : After env (read >>= g) s post := h

theorem get_bind {g : State → Parser β} {post : β → State → Prop}
    (h : After env (g s) s post) : After env (get >>= g) s post := h

theorem modify_bind {f : State → State} {g : Unit → Parser β} {post : β → State → Prop}
    (h : After env (g ()) (f s) post) : After env (modify f >>= g) s post := h

theorem virtualFor?_bind {name : String} {g : Option String → Parser β}
    {post : β → State → Prop} (h : ∀ found, After env (g found) s post) :
    After env (virtualFor? name >>= g) s post := h _

/-- Only the grammar is asked. -/
theorem dispatch (rule : String) (trigger : Trigger) :
    After env (Parse.dispatch rule trigger) s fun _ t => t = s := by
  refine read_bind ?_
  split
  · exact pure rfl
  · rintro _ _ ⟨⟩

theorem step (f : TokenStream → α × TokenStream) : After env (Parse.step f) s fun a t =>
    a = (f (s.stream env)).1 ∧ t = { s with position := (f (s.stream env)).2.position } := by
  rintro _ _ ⟨⟩
  exact ⟨rfl, rfl⟩

theorem advance : After env Parse.advance s fun _ t =>
    t = { s with position := (s.stream env).advance.position } :=
  (step _).mono fun _ _ h => h.2

theorem push (kind : NodeKind) (span : Span) : After env (Parse.push kind span) s fun id t =>
    id = s.draft.size ∧ t = s.write (s.draft.push kind span) := by
  rintro _ _ ⟨⟩
  exact ⟨rfl, rfl⟩

theorem pushFrom (kind : NodeKind) (start : Nat) :
    After env (Parse.pushFrom kind start) s fun id t => id = s.draft.size ∧
      t = s.write (s.draft.push kind ⟨start, max (env.endBefore s.position) start⟩) :=
  push kind _

theorem pushUnknown (span : Span) (text : String) (key : ProblemKey) (argument : String) :
    After env (Parse.pushUnknown span text key argument) s fun id t =>
      id = s.draft.size ∧ t = s.write (s.draft.leftover key span text argument) := by
  rintro _ _ ⟨⟩
  exact ⟨rfl, rfl⟩

theorem missing (what : String) : After env (Parse.missing what) s fun id t =>
    id = s.draft.size ∧ t = s.write (s.draft.missing what (env.endBefore s.position)) := by
  rintro _ _ ⟨⟩
  exact ⟨rfl, rfl⟩

theorem loopTo {next : α → Parser (Option α)} (inv : α → State → Prop)
    (hnext : ∀ a s, inv a s → After env (next a) s fun b t => inv (b.getD a) t) (bound : Nat)
    {a : α} (h : inv a s) : After env (loopTo next bound a) s inv := by
  induction bound generalizing a s with
  | zero => exact .pure h
  | succ bound ih =>
    refine (hnext a s h).bind fun b t hb => ?_
    cases b with
    | none => exact .pure hb
    | some b => exact ih hb

/-- **What every repetition keeps holds at the end.** -/
theorem loop {next : α → Parser (Option α)} (inv : α → State → Prop)
    (hnext : ∀ a s, inv a s → After env (next a) s fun b t => inv (b.getD a) t) {a : α}
    (h : inv a s) : After env (loop next a) s inv :=
  read_bind (loopTo inv hnext _ h)

end After

/-- **The reader passes from wherever it starts.** -/
def Passes (env : Env) (p : Parser α) : Prop :=
  ∀ s, s.position ≤ env.tokens.size - 1 → After env p s fun _ t => Passage env s t

/-- **What is in step with itself passes.** -/
theorem Passes.of_agree {p : Parser α} {post : α → α → Prop}
    (h : ∀ rel, Simulation env env rel → Agree env env rel p p post) : Passes env p :=
  fun s hs _ _ hrun => (Invariant.of_agree (h _ (Passage.invariant s).simulation) hrun hs
    (.refl hs)).2

/-- **The reader always comes to an answer.** -/
def Answers (env : Env) (p : Parser (Option α)) : Prop := ∀ s, After env p s fun a _ => a ≠ none

namespace Answers

theorem bind {p : Parser α} {f : α → Parser (Option β)} (hf : ∀ a, Answers env (f a)) :
    Answers env (p >>= f) := fun _ =>
  After.bind (fun _ _ _ => trivial) fun a t (_ : True) => hf a t

theorem some (a : α) : Answers env (pure (some a)) := fun _ => .pure (by simp)

theorem map (p : Parser α) : Answers env (Option.some <$> p) := bind fun a => some a

end Answers

/-- Nested constructs are read in step with themselves. -/
def Deeper.Steady (env : Env) (deeper : Deeper) : Prop :=
  ∀ rel, Simulation env env rel → deeper.Lockstep env env rel

theorem level_steady (levels : Nat) : (level levels).Steady env := fun _ S => S.level levels

theorem passes_advance : Passes env advance := .of_agree fun _ S => S.advance

theorem passes_consume (kind : TokenKind) : Passes env (consume kind) :=
  .of_agree fun _ S => S.consume kind

/-- A token that is not there is not moved over. -/
theorem consume_after (kind : TokenKind) (hs : s.position ≤ env.tokens.size - 1) :
    After env (consume kind) s fun found t => Passage env s t ∧ (found = false → t = s) := by
  intro found t hrun
  refine ⟨passes_consume kind s hs found t hrun, ?_⟩
  rintro rfl
  rw [consume_eq] at hrun
  obtain ⟨hfound, rfl⟩ := After.step _ _ _ hrun
  split at hfound
  · cases hfound
  · next hcheck =>
    rw [if_neg hcheck]
    rfl

end Jpql.Parse
