import Jpql.Proofs.Reader.Passage

/-! # Single moves

What a run does at one token: whether the token can name something, whether it is moved over, and what is
seen behind it. A run of several readers is cut into the runs of each (`bind_eq_ok`), a loop into its
repetitions (`loopTo_succ`).

* `Env.TokenAt`, `Env.Names`: what stands at a position.
* `consume_of_check`, `expect_of_check`: a token is moved over if it is there.
* `Env.segments_along`: segments in two texts. -/

namespace Jpql

/-- Names, and the keywords that can be names. -/
def TokenKind.isNaming : TokenKind → Bool
  | .identifier _ => true
  | .keyword word => !word.isReserved
  | _ => false

theorem TokenKind.eq_of_isKeyword {kind : TokenKind} {word : Keyword}
    (h : kind.isKeyword word = true) : kind = .keyword word := by
  rwa [isKeyword_eq_beq, beq_iff_eq] at h

namespace TokenStream

variable {stream : TokenStream}

theorem identifier?_of_kind {name : String} (h : stream.kind = .identifier name) :
    stream.identifier? = some name := by
  rw [identifier?, h]

/-- Whether there is a name may depend on the next token; which one it is does not. -/
theorem identifier?_congr {a b : TokenStream} (hkind : a.kind = b.kind)
    (htext : a.currentText = b.currentText) (hsome : a.identifier?.isSome = b.identifier?.isSome) :
    a.identifier? = b.identifier? := by
  unfold identifier? at hsome ⊢
  rw [hkind, htext] at hsome ⊢
  generalize b.kind = kind at hsome ⊢
  cases kind with
  | keyword word =>
    dsimp only at hsome ⊢
    generalize (!word.isReserved && a.peek.kind != .leftParen) = left at hsome ⊢
    generalize (!word.isReserved && b.peek.kind != .leftParen) = right at hsome ⊢
    cases left <;> cases right <;> first | rfl | cases hsome
  | _ => rfl

/-- Without a dot there are no segments. -/
theorem segments_of_not_dot (h : stream.check .dot = false) (bound : Nat) :
    stream.segments bound = (([], false), stream) := by
  cases bound with
  | zero => rfl
  | succ bound => rw [segments, consume?, h, if_neg Bool.false_ne_true]

/-- A dot may end the text of a path. -/
theorem segments_of_none (hdot : stream.check .dot = true)
    (hname : stream.advance.pathSegment? = none) (bound : Nat) :
    stream.segments (bound + 1) = (([], true), stream.advance) := by
  rw [segments, consume?, hdot, if_pos rfl]
  dsimp only
  rw [hname]

/-- A dot and a name are a segment. -/
theorem segments_of_some {name : String} (hdot : stream.check .dot = true)
    (hname : stream.advance.pathSegment? = some name) (bound : Nat) :
    stream.segments (bound + 1) =
      ((⟨name, stream.advance.current.span⟩ :: (stream.advance.advance.segments bound).1.1,
        (stream.advance.advance.segments bound).1.2), (stream.advance.advance.segments bound).2) := by
  rw [segments, consume?, hdot, if_pos rfl]
  dsimp only
  rw [hname]

end TokenStream

namespace Parse

/-- At a position stands a token of this kind with this spelling. -/
def Env.TokenAt (env : Env) (position : Nat) (spelled : TokenKind × String) : Prop :=
  ∃ h : position < env.tokens.size, env.tokens[position].spelled env.source = spelled

/-- The token at a position can name something. -/
def Env.Names (env : Env) (i : Nat) : Prop :=
  (TokenStream.identifier? ⟨env.source, env.tokens, i⟩).isSome = true

namespace Env

variable {env : Env} {i j : Nat}

theorem TokenAt.kind_eq {kind : TokenKind} {text : String} (h : env.TokenAt i (kind, text)) :
    TokenStream.kind ⟨env.source, env.tokens, i⟩ = kind := by
  obtain ⟨hi, hspelled⟩ := h
  rw [TokenStream.kind, InOrder.current_eq hi]
  exact congrArg Prod.fst hspelled

theorem TokenAt.currentText_eq {kind : TokenKind} {text : String} (h : env.TokenAt i (kind, text)) :
    TokenStream.currentText ⟨env.source, env.tokens, i⟩ = text := by
  obtain ⟨hi, hspelled⟩ := h
  rw [TokenStream.currentText, InOrder.current_eq hi]
  exact congrArg Prod.snd hspelled

/-! ## Names -/

theorem Names.isNaming (h : env.Names i) :
    (TokenStream.kind ⟨env.source, env.tokens, i⟩).isNaming = true := by
  unfold Env.Names TokenStream.identifier? at h
  split at h
  · next hk => rw [hk]; rfl
  · next hk =>
    split at h
    · next hc =>
      rw [Bool.and_eq_true] at hc
      rw [hk]
      exact hc.1
    · cases h
  · cases h

/-- A name triggers an identifier. -/
theorem Names.trigger? (h : env.Names i) :
    Parse.trigger? ⟨env.source, env.tokens, i⟩ = some .identifier := by
  unfold Env.Names TokenStream.identifier? at h
  unfold Parse.trigger?
  split at h
  · next hk => rw [hk]; rfl
  · next hk =>
    split at h
    · next hc => rw [hk]; exact if_pos hc
    · cases h
  · cases h

/-- Whether there is a name depends on two tokens. -/
theorem names_iff : env.Names i ↔
    (∃ name, TokenStream.kind ⟨env.source, env.tokens, i⟩ = .identifier name) ∨
      ∃ word, TokenStream.kind ⟨env.source, env.tokens, i⟩ = .keyword word ∧
        word.isReserved = false ∧ (TokenStream.peek ⟨env.source, env.tokens, i⟩).kind ≠ .leftParen := by
  unfold Env.Names TokenStream.identifier?
  split
  · next name hk => simp [hk]
  · next word hk =>
    rw [hk]
    split
    · next hc => simpa using hc
    · next hc => simpa using hc
  · next hid hword =>
    refine ⟨fun h => (Bool.false_ne_true h).elim, ?_⟩
    rintro (⟨name, hk⟩ | ⟨word, hk, -⟩)
    · exact absurd hk (hid name)
    · exact absurd hk (hword word)

/-- What is no name triggers what its kind does. -/
theorem trigger?_of_not_names (h : ¬env.Names i) :
    Parse.trigger? ⟨env.source, env.tokens, i⟩ =
      Trigger.ofKind? (TokenStream.kind ⟨env.source, env.tokens, i⟩) := by
  unfold Parse.trigger?
  split
  · next word hk =>
    split
    · next hc =>
      refine absurd (names_iff.mpr (.inr ⟨word, hk, ?_⟩)) h
      simpa using hc
    · rw [hk]
      rfl
  · rfl

/-- Every name can be a segment. -/
theorem Names.pathSegment? (h : env.Names i) :
    (TokenStream.pathSegment? ⟨env.source, env.tokens, i⟩).isSome = true := by
  rcases names_iff.mp h with ⟨name, hk⟩ | ⟨word, hk, -⟩ <;> rw [TokenStream.pathSegment?, hk] <;> rfl

/-- The next token is the current one after a move. -/
theorem peek_kind : (TokenStream.peek ⟨env.source, env.tokens, i⟩).kind =
    TokenStream.kind ⟨env.source, env.tokens, i + 1⟩ := rfl

theorem advance_eq (hi : i + 1 < env.tokens.size) :
    TokenStream.advance ⟨env.source, env.tokens, i⟩ = ⟨env.source, env.tokens, i + 1⟩ :=
  if_pos (show i < env.tokens.size - 1 by omega)

/-! ## Tokens in order -/

theorem InOrder.startAt_lt (h : env.InOrder) (hij : i < j) (hj : j < env.tokens.size) :
    env.startAt i < env.startAt j := by
  have hi := hij.trans hj
  have hkind : env.tokens[i].kind ≠ .eof := fun he => by
    have hlast := (h.eof_iff hi).1.mp he
    omega
  have hspan := Token.Run.start_lt_stop h _ (Array.getElem_mem_toList hi) hkind
  rw [InOrder.startAt_eq hi, InOrder.startAt_eq hj]
  exact Nat.lt_of_lt_of_le hspan (h.stop_le_start hij hi hj)

theorem InOrder.startAt_inj (h : env.InOrder) (hi : i < env.tokens.size) (hj : j < env.tokens.size)
    (heq : env.startAt i = env.startAt j) : i = j := by
  rcases Nat.lt_trichotomy i j with hlt | rfl | hlt
  · exact absurd heq (Nat.ne_of_lt (h.startAt_lt hlt hj))
  · rfl
  · exact absurd heq.symm (Nat.ne_of_lt (h.startAt_lt hlt hi))

/-- Behind every other token than the end of the text there is one. -/
theorem InOrder.succ_lt (h : env.InOrder) (hi : i < env.tokens.size)
    (hkind : TokenStream.kind ⟨env.source, env.tokens, i⟩ ≠ .eof) : i + 1 < env.tokens.size := by
  have hne : i + 1 ≠ env.tokens.size := fun hlast => hkind <| by
    rw [TokenStream.kind, InOrder.current_eq hi]
    exact (h.eof_iff hi).1.mpr hlast
  omega

/-- Behind the tokens there is nothing but the end of the text. -/
theorem InOrder.lt_of_kind (h : env.InOrder)
    (hkind : TokenStream.kind ⟨env.source, env.tokens, i⟩ ≠ .eof) : i < env.tokens.size := by
  by_contra hge
  refine hkind ?_
  show (((env.tokens[i]?).or env.tokens.back?).getD TokenStream.noToken).kind = .eof
  rw [Array.getElem?_eq_none (Nat.le_of_not_lt hge), Array.back?_eq_getElem?]
  rcases Nat.eq_zero_or_pos env.tokens.size with hzero | hpos
  · rw [Array.getElem?_eq_none (by omega)]
    rfl
  · rw [Array.getElem?_eq_getElem (show env.tokens.size - 1 < env.tokens.size by omega)]
    exact (h.eof_iff _).1.mpr (by omega)

/-- There is no name there. -/
theorem Names.lt (h : env.InOrder) (hnames : env.Names i) : i < env.tokens.size :=
  h.lt_of_kind fun hkind => by
    have hnaming := hnames.isNaming
    rw [hkind] at hnaming
    cases hnaming

/-- The end of the text names nothing. -/
theorem Names.succ_lt (h : env.InOrder) (hi : i < env.tokens.size) (hnames : env.Names i) :
    i + 1 < env.tokens.size :=
  h.succ_lt hi fun hkind => by
    have hnaming := hnames.isNaming
    rw [hkind] at hnaming
    cases hnaming

end Env

/-! ## Runs of parts -/

variable {α β : Type} {env : Env} {s s' : State}

/-- A run of two readers is a run of each. -/
theorem bind_eq_ok {p : Parser α} {f : α → Parser β} {z : β}
    (hrun : (p >>= f) env s = .ok (z, s')) :
    ∃ y s₁, p env s = .ok (y, s₁) ∧ f y env s₁ = .ok (z, s') := by
  change (p env s >>= fun result => f result.1 env result.2) = _ at hrun
  cases hp : p env s with
  | error error =>
    rw [hp] at hrun
    cases hrun
  | ok result =>
    rw [hp] at hrun
    exact ⟨result.1, result.2, rfl, hrun⟩

/-- The runs of two readers are a run of both. -/
theorem bind_of_eq_ok {p : Parser α} {f : α → Parser β} {y : α} (hrun : p env s = .ok (y, s')) :
    (p >>= f) env s = f y env s' := by
  show (p env s >>= fun result => f result.1 env result.2) = _
  rw [hrun]
  rfl

/-- What a reader does once it has looked at the text. -/
theorem look_run {look' : TokenStream → α} {f : α → Parser β} {y : α}
    (h : look' (s.stream env) = y) : (look look' >>= f) env s = f y env s := by
  rw [← h]
  rfl

/-- The first step of a loop, and what follows it. -/
theorem loopTo_succ {next : α → Parser (Option α)} {n : Nat} {y z : α}
    (hrun : loopTo next (n + 1) y env s = .ok (z, s')) :
    ∃ found s₁, next y env s = .ok (found, s₁) ∧
      (found = none ∧ z = y ∧ s' = s₁ ∨
        ∃ w, found = some w ∧ loopTo next n w env s₁ = .ok (z, s')) := by
  obtain ⟨found, s₁, hnext, hrest⟩ := bind_eq_ok hrun
  refine ⟨found, s₁, hnext, ?_⟩
  cases found with
  | none =>
    obtain ⟨rfl, rfl⟩ := Prod.mk.inj (Except.ok.inj hrest)
    exact .inl ⟨rfl, rfl, rfl⟩
  | some w => exact .inr ⟨w, rfl, hrest⟩

/-! ## Moves over a token -/

variable {kind : TokenKind}

theorem consume_of_check (h : (s.stream env).check kind = true) : consume kind env s =
    .ok (true, { s with position := (s.stream env).advance.position }) := by
  rw [consume_eq, step_run, if_pos h]

theorem consume_of_not_check (h : (s.stream env).check kind = false) :
    consume kind env s = .ok (false, s) := by
  rw [consume_eq, step_run, h, if_neg Bool.false_ne_true]
  rfl

theorem expect_of_check (h : (s.stream env).check kind = true) : expect kind env s =
    .ok (true, { s with position := (s.stream env).advance.position }) := by
  have hok : (s.stream env).expect kind =
      .ok ((s.stream env).current.span, (s.stream env).advance) := by
    rw [TokenStream.expect, TokenStream.consume?, if_pos h]
  obtain ⟨_, _, hrun, rfl, rfl⟩ := Runs.expect_ok hok
  exact hrun

theorem expect_of_not_check (h : (s.stream env).check kind = false) :
    ∃ problem, expect kind env s = .ok (false, s.write (s.draft.record problem)) := by
  have hnone : (s.stream env).expect kind =
      .error ((s.stream env).problemHere .expectedToken [kind.describe]) := by
    rw [TokenStream.expect, TokenStream.consume?, h, if_neg Bool.false_ne_true]
  obtain ⟨_, _, hrun, rfl, rfl⟩ := Runs.expect_error hnone
  exact ⟨_, hrun⟩

theorem le_advance (stream : TokenStream) : stream.position ≤ stream.advance.position := by
  unfold TokenStream.advance
  split
  · exact Nat.le_succ _
  · exact Nat.le_refl _

/-- A token that is no end of the text is moved over. -/
theorem lt_advance (h : env.InOrder) (hs : s.position < env.tokens.size)
    (hkind : (s.stream env).kind ≠ .eof) : s.position < (s.stream env).advance.position := by
  have hnext := h.succ_lt hs hkind
  rw [show (s.stream env).advance = ⟨env.source, env.tokens, s.position + 1⟩ from
    Env.advance_eq hnext]
  exact Nat.lt_succ_self _

/-- A token that was there was moved over. -/
theorem lt_of_consume (h : env.InOrder) (hkind : kind ≠ .eof)
    (hrun : consume kind env s = .ok (true, s')) (hs : s.position < env.tokens.size) :
    s.position < s'.position := by
  cases hcheck : (s.stream env).check kind with
  | true =>
    rw [consume_of_check hcheck] at hrun
    obtain ⟨-, rfl⟩ := Prod.mk.inj (Except.ok.inj hrun)
    refine lt_advance h hs ?_
    rw [show (s.stream env).kind = kind from beq_iff_eq.mp hcheck]
    exact hkind
  | false =>
    rw [consume_of_not_check hcheck] at hrun
    cases hrun

/-- A token that was not there was not moved over. -/
theorem eq_of_not_consume (hrun : consume kind env s = .ok (false, s')) : s' = s := by
  cases hcheck : (s.stream env).check kind with
  | true =>
    rw [consume_of_check hcheck] at hrun
    cases hrun
  | false =>
    rw [consume_of_not_check hcheck] at hrun
    exact (Prod.mk.inj (Except.ok.inj hrun)).2.symm

/-- A variable is declared at a name. -/
theorem declaredVariable?_of_some {name : String} (hname : (s.stream env).identifier? = some name) :
    declaredVariable? env s = .ok (some s.draft.size,
      ({ s with position := (s.stream env).advance.position } : State).write
        (s.draft.push (.identifier name false none) (s.stream env).current.span)) :=
  (look_run hname).trans rfl

theorem declaredVariable?_of_none (hname : (s.stream env).identifier? = none) :
    declaredVariable? env s = .ok (none, s) := (look_run hname).trans rfl

/-! ## Segments -/

theorem le_segments (bound : Nat) (stream : TokenStream) :
    stream.position ≤ (stream.segments bound).2.position := by
  induction bound generalizing stream with
  | zero => exact Nat.le_refl _
  | succ bound ih =>
    cases hdot : stream.check .dot with
    | false => rw [TokenStream.segments_of_not_dot hdot]
    | true =>
      cases hname : stream.advance.pathSegment? with
      | none =>
        rw [TokenStream.segments_of_none hdot hname]
        exact le_advance stream
      | some name =>
        rw [TokenStream.segments_of_some hdot hname]
        exact (le_advance stream).trans ((le_advance _).trans (ih _))

/-- A token with the same spelling is the same segment. -/
theorem Env.TokenAt.pathSegment?_eq {a b : Env} {i j : Nat} {hi : i < a.tokens.size}
    (hat : b.TokenAt j (a.tokens[i].spelled a.source)) :
    TokenStream.pathSegment? ⟨b.source, b.tokens, j⟩ =
      TokenStream.pathSegment? ⟨a.source, a.tokens, i⟩ := by
  have hcurrent : TokenStream.current ⟨a.source, a.tokens, i⟩ = a.tokens[i] := InOrder.current_eq hi
  unfold TokenStream.pathSegment?
  rw [hat.kind_eq, hat.currentText_eq, TokenStream.kind, TokenStream.currentText, hcurrent]

/-- **Segments are the same in two texts** if the tokens of them stand in a row in both, and a token of
the one is a dot, or no segment, only if the token at its place in the other is. -/
theorem Env.segments_along {a b : Env} (horder : a.InOrder) {f : Nat → Nat} {i n m : Nat}
    (hi : i < a.tokens.size) (hn : a.tokens.size ≤ i + n) (hm : b.tokens.size ≤ f i + m)
    (hplace : ∀ j, i ≤ j → j < a.tokens.size → f j < b.tokens.size ∧
      TokenStream.check ⟨b.source, b.tokens, f j⟩ .dot =
        TokenStream.check ⟨a.source, a.tokens, j⟩ .dot ∧
      (TokenStream.pathSegment? ⟨a.source, a.tokens, j⟩ = none →
        TokenStream.pathSegment? ⟨b.source, b.tokens, f j⟩ = none))
    (hpassed : ∀ j, i ≤ j → ∀ hj : j < a.tokens.size,
      j < (TokenStream.segments n ⟨a.source, a.tokens, i⟩).2.position →
      b.TokenAt (f j) (a.tokens[j].spelled a.source) ∧ f (j + 1) = f j + 1) :
    let found := TokenStream.segments n ⟨a.source, a.tokens, i⟩
    let other := TokenStream.segments m ⟨b.source, b.tokens, f i⟩
    other.1.1.map (·.value) = found.1.1.map (·.value) ∧ other.1.2 = found.1.2 ∧
      other.2.position = f found.2.position := by
  have hadvance : ∀ j, f (j + 1) < b.tokens.size → f (j + 1) = f j + 1 →
      TokenStream.advance ⟨b.source, b.tokens, f j⟩ = ⟨b.source, b.tokens, f (j + 1)⟩ := by
    intro j hlt hsucc
    rw [hsucc] at hlt ⊢
    exact advance_eq hlt
  induction n generalizing i m with
  | zero => omega
  | succ n ih =>
    obtain ⟨hlt, hsame, -⟩ := hplace i (Nat.le_refl _) hi
    obtain ⟨m, rfl⟩ : ∃ k, m = k + 1 := ⟨m - 1, by omega⟩
    cases hdot : TokenStream.check ⟨a.source, a.tokens, i⟩ .dot with
    | false =>
      simp only [TokenStream.segments_of_not_dot hdot,
        TokenStream.segments_of_not_dot (hsame.trans hdot)]
      exact ⟨trivial, trivial, trivial⟩
    | true =>
      have hkind : TokenStream.kind ⟨a.source, a.tokens, i⟩ = .dot := beq_iff_eq.mp hdot
      have hnext : i + 1 < a.tokens.size := horder.succ_lt hi (by rw [hkind]; rintro ⟨⟩)
      obtain ⟨hlt₁, -, hnone⟩ := hplace (i + 1) (Nat.le_succ _) hnext
      have hmove := advance_eq hnext
      cases hname : TokenStream.pathSegment? ⟨a.source, a.tokens, i + 1⟩ with
      | none =>
        rw [TokenStream.segments_of_none hdot (hmove ▸ hname), hmove] at hpassed ⊢
        have hmove' := hadvance i hlt₁ (hpassed i (Nat.le_refl _) hi (Nat.lt_succ_self _)).2
        simp only [TokenStream.segments_of_none (hsame.trans hdot) (hmove' ▸ hnone hname), hmove']
        exact ⟨trivial, trivial, trivial⟩
      | some name =>
        have hend : TokenStream.kind ⟨a.source, a.tokens, i + 1⟩ ≠ .eof := fun heof => by
          rw [TokenStream.pathSegment?, heof] at hname
          cases hname
        have hlast : i + 1 + 1 < a.tokens.size := horder.succ_lt hnext hend
        have hforward := le_segments n ⟨a.source, a.tokens, i + 1 + 1⟩
        rw [TokenStream.segments_of_some hdot (hmove ▸ hname), hmove, advance_eq hlast] at hpassed ⊢
        dsimp only at hpassed hforward
        obtain ⟨-, hsucc⟩ := hpassed i (Nat.le_refl _) hi (by omega)
        obtain ⟨hat, hsucc₁⟩ := hpassed (i + 1) (Nat.le_succ _) hnext (by omega)
        have hmove' := hadvance i hlt₁ hsucc
        have hname' := hat.pathSegment?_eq.trans hname
        obtain ⟨hvalues, hends, hposition⟩ := ih (m := m) hlast (by omega) (by omega)
          (fun j hj => hplace j (by omega)) fun j hj hlt hbefore => hpassed j (by omega) hlt hbefore
        rw [TokenStream.segments_of_some (hsame.trans hdot) (hmove' ▸ hname'), hmove',
          hadvance (i + 1) (hplace _ (by omega) hlast).1 hsucc₁]
        exact ⟨by rw [List.map_cons, List.map_cons, hvalues], hends, hposition⟩

end Parse

end Jpql
