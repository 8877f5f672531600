import Jpql.Proofs.Reader.Run
import Jpql.Proofs.Token.Spelling
import Mathlib.Data.List.Forall2

/-! # What lies ahead of a reader

`State.Ahead env s ws` says that the tokens from the position of `s` on stand for the lexemes `ws`,
with nothing behind them. `Reached env s t ws` says how far a reader has come when it has read a
part of a text that it accepts: `ws` are ahead of `t`, nodes were added, and no problem.

* `Reads env p s post rest`: the run of `p` from `s` succeeds and reaches a state with `rest` ahead.
  There is one rule for each of the basic readers.
* `Reads.loop_next`, `Reads.loop_done`: a repetition goes on, or ends.
* `Reads.collect`, `Reads.separated`: items are read one by one, without or with commas between them. -/

namespace Jpql.Parse

variable {α β : Type} {env : Env} {s t u : State} {w : Lexeme} {ws rest : List Lexeme}

/-- The kind of the first token of some lexemes; behind the last one the query ends. -/
def headKind : List Lexeme → TokenKind
  | [] => .eof
  | w :: _ => w.kind

/-- **These lexemes lie ahead**, and nothing behind them; names are no fields of an entity. -/
structure State.Ahead (env : Env) (s : State) (ws : List Lexeme) : Prop where
  tokens : ∃ before tokens stop, env.tokens = (before ++ (tokens ++ [⟨.eof, stop⟩])).toArray ∧
    s.position = before.length ∧ List.Forall₂ (Token.Shows env.source) tokens ws
  notVirtual : s.virtualVariable = none

/-! ## Looking ahead -/

namespace State.Ahead

/-- The tokens that can be seen are those ahead; from the end on there is `eof`. -/
theorem kind_peekAhead (h : s.Ahead env ws) (n : Nat) :
    ((s.stream env).peekAhead n).kind = headKind (ws.drop n) := by
  obtain ⟨before, tokens, stop, htokens, hposition, hshows⟩ := h.tokens
  have hlength := hshows.length_eq
  have hget : env.tokens[s.position + n]? = (tokens ++ [⟨.eof, stop⟩])[n]? := by
    rw [htokens, hposition, List.getElem?_toArray, List.getElem?_append_right (by omega),
      Nat.add_sub_cancel_left]
  have hback : env.tokens.back? = some ⟨.eof, stop⟩ := by
    rw [htokens, ← List.append_assoc]
    simp
  show ((env.tokens[s.position + n]?.or env.tokens.back?).getD TokenStream.noToken).kind = _
  rw [hget, hback]
  rcases Nat.lt_or_ge n tokens.length with hlt | hge
  · have hw : n < ws.length := by omega
    rw [List.getElem?_append_left hlt, List.getElem?_eq_getElem hlt,
      List.drop_eq_getElem_cons hw]
    exact (hshows.get hlt hw).kind
  · rw [List.drop_eq_nil_of_le (by omega), List.getElem?_append_right hge]
    rcases Nat.eq_zero_or_pos (n - tokens.length) with hzero | hpos
    · rw [hzero]
      rfl
    · rw [List.getElem?_eq_none (by rw [List.length_singleton]; omega)]
      rfl

theorem kind (h : s.Ahead env ws) : (s.stream env).kind = headKind ws := h.kind_peekAhead 0

theorem kind_peek (h : s.Ahead env ws) : (s.stream env).peek.kind = headKind ws.tail := by
  have hpeek := h.kind_peekAhead 1
  rw [List.drop_one] at hpeek
  exact hpeek

theorem currentText (h : s.Ahead env (w :: ws)) :
    (s.stream env).currentText = String.ofList w.chars := by
  obtain ⟨before, tokens, stop, htokens, hposition, hshows⟩ := h.tokens
  cases hshows with
  | @cons token _ tokens _ hw hshows =>
    have hget : env.tokens[s.position + 0]? = some token := by
      rw [htokens, hposition, List.getElem?_toArray, List.getElem?_append_right (by omega)]
      simp
    show (((env.tokens[s.position + 0]?.or env.tokens.back?).getD
      TokenStream.noToken)).text env.source = _
    rw [hget]
    exact hw.text

/-- The tokens are more than the lexemes ahead. -/
theorem length_lt (h : s.Ahead env ws) : ws.length < env.tokens.size := by
  obtain ⟨before, tokens, stop, htokens, hposition, hshows⟩ := h.tokens
  have hlength := hshows.length_eq
  rw [htokens]
  simp only [List.size_toArray, List.length_append, List.length_cons, List.length_nil]
  omega

/-- Each of the items ahead has a token of its own. -/
theorem length_flatMap_lt {ι : Type} {lead : ι → List Lexeme} {xs : List ι} (hlead : ∀ x, lead x ≠ [])
    (h : s.Ahead env (xs.flatMap lead ++ rest)) : xs.length < env.tokens.size := by
  have hle : xs.length ≤ (xs.flatMap lead).length := by
    clear h
    induction xs with
    | nil => exact Nat.le_refl _
    | cons x xs ih =>
      have hx := List.length_pos_iff.mpr (hlead x)
      rw [List.flatMap_cons, List.length_append, List.length_cons]
      omega
  have hlength := h.length_lt
  rw [List.length_append] at hlength
  omega

/-- Behind the first lexeme the others lie ahead. -/
theorem advance (h : s.Ahead env (w :: ws)) :
    { s with position := (s.stream env).advance.position }.Ahead env ws := by
  refine ⟨?_, h.notVirtual⟩
  obtain ⟨before, tokens, stop, htokens, hposition, hshows⟩ := h.tokens
  cases hshows with
  | @cons token _ tokens _ hw hshows =>
    refine ⟨before ++ [token], tokens, stop, ?_, ?_, hshows⟩
    · rw [htokens, List.append_assoc]
      rfl
    · have hsize : env.tokens.size = before.length + tokens.length + 2 := by
        rw [htokens]
        simp only [List.size_toArray, List.length_append, List.length_cons, List.length_nil]
        omega
      have hlt : (s.stream env).position < (s.stream env).tokens.size - 1 := by
        show s.position < env.tokens.size - 1
        omega
      show (s.stream env).advance.position = _
      rw [TokenStream.advance, if_pos hlt, List.length_append]
      show s.position + 1 = _
      rw [hposition]
      rfl

theorem exists_advance (h : s.Ahead env (w :: ws)) :
    ∃ position, (s.stream env).advance = { s with position := position }.stream env ∧
      { s with position := position }.Ahead env ws := by
  refine ⟨(s.stream env).advance.position, ?_, h.advance⟩
  unfold TokenStream.advance
  split <;> rfl

theorem congr (h : s.Ahead env ws) (hposition : t.position = s.position)
    (hvirtual : t.virtualVariable = s.virtualVariable) : t.Ahead env ws := by
  obtain ⟨htokens, hnone⟩ := h
  rw [← hposition] at htokens
  exact ⟨htokens, hvirtual.trans hnone⟩

end State.Ahead

/-! ## Reading on -/

/-- **How far a reader has come** through a text without problems. -/
structure Reached (env : Env) (s t : State) (ws : List Lexeme) : Prop where
  ahead : t.Ahead env ws
  grows : s.draft.Grows t.draft
  problems : t.problems = s.problems

theorem Reached.refl (h : s.Ahead env ws) : Reached env s s ws := ⟨h, .refl _, rfl⟩

theorem Reached.trans (h : Reached env s t ws) (k : Reached env t u rest) :
    Reached env s u rest :=
  ⟨k.ahead, h.grows.trans k.grows, k.problems.trans h.problems⟩

/-- What is known about a node stays true. -/
theorem Draft.Grows.kind_eq_of {a b : Draft} (h : a.Grows b) {id : Nat} {kind : NodeKind}
    (hkind : a.kind id = kind) (hbad : kind ≠ .bad) : b.kind id = kind := by
  rw [h.kind_eq id ?_, hkind]
  by_contra hge
  rw [Draft.kind, TreeBuilder.kind_of_size_le (Nat.le_of_not_lt hge)] at hkind
  exact hbad hkind.symm

/-- **The run succeeds with a result that satisfies `post`**, and with `rest` ahead of it. -/
def Reads (env : Env) (p : Parser α) (s : State) (rest : List Lexeme)
    (post : α → Draft → Prop) : Prop :=
  Runs env p s fun a t => Reached env s t rest ∧ post a t.draft

namespace Reads

variable {p : Parser α} {post : α → Draft → Prop}

theorem mono {weak : α → Draft → Prop} (h : Reads env p s rest post)
    (hw : ∀ a d, s.draft.Grows d → post a d → weak a d) : Reads env p s rest weak :=
  Runs.mono h fun a t ht => ⟨ht.1, hw a t.draft ht.1.grows ht.2⟩

theorem pure {a : α} (h : s.Ahead env rest) (hp : post a s.draft) :
    Reads env (Pure.pure a : Parser α) s rest post :=
  Runs.pure ⟨Reached.refl h, hp⟩

/-- **One reader after the other.** -/
theorem bind {f : α → Parser β} {post' : β → Draft → Prop} (h : Reads env p s ws post)
    (hf : ∀ a t, Reached env s t ws → post a t.draft → Reads env (f a) t rest post') :
    Reads env (p >>= f) s rest post' :=
  Runs.bind h fun a t ⟨ht, hp⟩ =>
    Runs.mono (hf a t ht hp) fun _ _ ⟨hu, hq⟩ => ⟨ht.trans hu, hq⟩

theorem map {f : α → β} {post' : β → Draft → Prop} (h : Reads env p s rest post)
    (hf : ∀ a d, post a d → post' (f a) d) : Reads env (f <$> p) s rest post' :=
  Runs.map (Runs.mono h fun a t ht => ⟨ht.1, hf a t.draft ht.2⟩)

theorem discard {post' : Unit → Draft → Prop} (h : Reads env p s rest post)
    (hf : ∀ a d, post a d → post' () d) : Reads env (discard p) s rest post' :=
  Runs.discard (Runs.mono h fun a t ht => ⟨ht.1, hf a t.draft ht.2⟩)

theorem look_bind {f : TokenStream → α} {g : α → Parser β} {post' : β → Draft → Prop}
    (h : Reads env (g (f (s.stream env))) s rest post') :
    Reads env (look f >>= g) s rest post' := h

theorem startOf_bind {id : Nat} {g : Nat → Parser β} {post' : β → Draft → Prop}
    (h : ∀ start, Reads env (g start) s rest post') : Reads env (startOf id >>= g) s rest post' :=
  h _

theorem read_bind {g : Env → Parser β} {post' : β → Draft → Prop}
    (h : Reads env (g env) s rest post') : Reads env (read >>= g) s rest post' := h

theorem kindOf_bind {id : Nat} {g : NodeKind → Parser β} {post' : β → Draft → Prop}
    (h : Reads env (g (s.draft.kind id)) s rest post') :
    Reads env (kindOf id >>= g) s rest post' := h

theorem advance (h : s.Ahead env (w :: ws)) :
    Reads env advance s ws fun _ d => d = s.draft :=
  ⟨(), _, rfl, ⟨h.advance, .refl _, rfl⟩, rfl⟩

theorem consume_hit {kind : TokenKind} (h : s.Ahead env (w :: ws)) (hw : w.kind = kind) :
    Reads env (consume kind) s ws fun found d => found = true ∧ d = s.draft := by
  have hcheck : (s.stream env).check kind = true := by
    rw [TokenStream.check, h.kind, headKind, hw, beq_self_eq_true]
  refine ⟨true, { s with position := (s.stream env).advance.position }, ?_,
    ⟨h.advance, .refl _, rfl⟩, rfl, rfl⟩
  rw [consume_eq, step_run, if_pos hcheck]

theorem consume_miss {kind : TokenKind} (h : s.Ahead env ws) (hw : headKind ws ≠ kind) :
    Runs env (consume kind) s fun found t => found = false ∧ t = s := by
  have hcheck : ¬(s.stream env).check kind = true := by
    rw [TokenStream.check, h.kind, beq_iff_eq]
    exact hw
  refine ⟨false, s, ?_, rfl, rfl⟩
  rw [consume_eq, step_run, if_neg hcheck]
  rfl

/-- A token that is not there changes nothing. -/
theorem consume_miss_bind {kind : TokenKind} {g : Bool → Parser β} {post' : β → Draft → Prop}
    (h : s.Ahead env ws) (hw : headKind ws ≠ kind) (hg : Reads env (g false) s rest post') :
    Reads env (consume kind >>= g) s rest post' := by
  refine Runs.bind (consume_miss h hw) ?_
  rintro _ _ ⟨rfl, rfl⟩
  exact hg

theorem consume_hit_bind {kind : TokenKind} {g : Bool → Parser β} {post' : β → Draft → Prop}
    (h : s.Ahead env (w :: ws)) (hw : w.kind = kind)
    (hg : ∀ t, Reached env s t ws → t.draft = s.draft → Reads env (g true) t rest post') :
    Reads env (consume kind >>= g) s rest post' :=
  (consume_hit h hw).bind fun _ t ht hp => hp.1 ▸ hg t ht hp.2

theorem expect (kind : TokenKind) (h : s.Ahead env (w :: ws)) (hw : w.kind = kind) :
    Reads env (expect kind) s ws fun found d => found = true ∧ d = s.draft := by
  have hexpect : (s.stream env).expect kind =
      .ok ((s.stream env).current.span, (s.stream env).advance) := by
    rw [TokenStream.expect, TokenStream.consume?, TokenStream.check, h.kind, headKind, hw,
      beq_self_eq_true, if_pos rfl]
  refine (Runs.expect_ok hexpect).mono ?_
  rintro _ t ⟨rfl, rfl⟩
  exact ⟨⟨h.advance, .refl _, rfl⟩, rfl, rfl⟩

theorem discard_expect {kind : TokenKind} (h : s.Ahead env (w :: ws)) (hw : w.kind = kind) :
    Reads env (Functor.discard (Parse.expect kind)) s ws fun _ d => d = s.draft :=
  (expect _ h hw).discard fun _ _ hd => hd.2

theorem expectKeyword {word : Keyword} (h : s.Ahead env (w :: ws)) (hw : w.kind = .keyword word) :
    Reads env (expectKeyword word) s ws fun _ d => d = s.draft := discard_expect h hw

theorem push (kind : NodeKind) (span : Span) (h : s.Ahead env ws) :
    Reads env (Parse.push kind span) s ws fun id d => id = s.draft.size ∧ d.kind id = kind :=
  ⟨_, _, rfl, ⟨h.congr rfl rfl, s.draft.grows_push kind span, rfl⟩, rfl, s.draft.kind_push kind span⟩

theorem pushFrom (kind : NodeKind) (start : Nat) (h : s.Ahead env ws) :
    Reads env (pushFrom kind start) s ws fun id d => id = s.draft.size ∧ d.kind id = kind :=
  look_bind (push kind _ h)

/-! ## Repetition -/

/-- A repetition goes on with what its step gives. -/
theorem loop_next {next : α → Parser (Option α)} {bound : Nat} {a : α}
    {mid : Option α → Draft → Prop}
    (h : Reads env (next a) s ws mid)
    (hnext : ∀ b t, Reached env s t ws → mid b t.draft →
      ∃ c, b = some c ∧ Reads env (loopTo next bound c) t rest post) :
    Reads env (loopTo next (bound + 1) a) s rest post := by
  refine h.bind fun b t ht hb => ?_
  obtain ⟨c, rfl, hc⟩ := hnext b t ht hb
  exact hc

/-- A repetition ends where its step does not go on. -/
theorem loop_done {next : α → Parser (Option α)} (bound : Nat) {a : α}
    (h : Runs env (next a) s fun b t => b = none ∧ t = s) (hs : s.Ahead env rest)
    (hp : post a s.draft) : Reads env (loopTo next bound a) s rest post := by
  cases bound with
  | zero => exact Reads.pure hs hp
  | succ bound =>
    refine Runs.bind h ?_
    rintro _ _ ⟨rfl, rfl⟩
    exact Reads.pure hs hp

/-! ## Items -/

section

variable {ι : Type} {lead chunk : ι → List Lexeme} {fits : Draft → ι → α → Prop}
  {next : List α → Parser (Option (List α))} {item : Parser α}

/-- **A repetition that collects items** reads them one by one. `stops` is what may follow an item. -/
theorem collectTo (stops : TokenKind → Prop) (hgrow : ∀ a b x i, a.Grows b → fits a x i → fits b x i)
    (hlead : ∀ y ws, stops (headKind (lead y ++ ws))) (hstop : stops (headKind rest))
    (hdone : ∀ items t, t.Ahead env rest → Runs env (next items) t fun b u => b = none ∧ u = t)
    {xs ys : List ι} (hnext : ∀ y ∈ ys, ∀ items t ws, stops (headKind ws) → t.Ahead env (lead y ++ ws) →
      Reads env (next items) t ws fun is d => ∃ i, is = some (items ++ [i]) ∧ fits d y i)
    {items : List α} (hs : s.Ahead env (ys.flatMap lead ++ rest))
    (hitems : List.Forall₂ (fits s.draft) xs items) (bound : Nat) (hbound : ys.length ≤ bound) :
    Reads env (loopTo next bound items) s rest fun is d => List.Forall₂ (fits d) (xs ++ ys) is := by
  induction ys generalizing s xs items bound with
  | nil => exact loop_done bound (hdone items s hs) hs (by rw [List.append_nil]; exact hitems)
  | cons y ys ih =>
    obtain ⟨bound, rfl⟩ : ∃ n, bound = n + 1 := Nat.exists_eq_succ_of_ne_zero (by
      rw [List.length_cons] at hbound
      omega)
    have hahead : s.Ahead env (lead y ++ (ys.flatMap lead ++ rest)) := by
      rw [← List.append_assoc]
      exact hs
    have hhead : stops (headKind (ys.flatMap lead ++ rest)) := by
      cases ys with
      | nil => exact hstop
      | cons z zs =>
        rw [List.flatMap_cons, List.append_assoc]
        exact hlead z _
    refine loop_next (hnext y List.mem_cons_self items s _ hhead hahead) ?_
    rintro _ t ht ⟨i, rfl, hi⟩
    refine ⟨_, rfl, ?_⟩
    have hmore := @ih t (xs ++ [y]) (fun z hz => hnext z (List.mem_cons_of_mem _ hz))
      (items ++ [i]) ht.ahead ?_ bound (by rw [List.length_cons] at hbound; omega)
    · rw [List.append_assoc] at hmore
      exact hmore
    · exact List.rel_append (hitems.imp fun x j => hgrow _ _ x j ht.grows) (.cons hi .nil)

/-- All items are collected, since none is empty. -/
theorem collect (stops : TokenKind → Prop) (hgrow : ∀ a b x i, a.Grows b → fits a x i → fits b x i)
    (hlead : ∀ y ws, stops (headKind (lead y ++ ws))) (hne : ∀ y, lead y ≠ []) (hstop : stops (headKind rest))
    (hdone : ∀ items t, t.Ahead env rest → Runs env (next items) t fun b u => b = none ∧ u = t)
    {xs ys : List ι} (hnext : ∀ y ∈ ys, ∀ items t ws, stops (headKind ws) → t.Ahead env (lead y ++ ws) →
      Reads env (next items) t ws fun is d => ∃ i, is = some (items ++ [i]) ∧ fits d y i)
    {items : List α} (hs : s.Ahead env (ys.flatMap lead ++ rest))
    (hitems : List.Forall₂ (fits s.draft) xs items) :
    Reads env (loop next items) s rest fun is d => List.Forall₂ (fits d) (xs ++ ys) is :=
  read_bind (collectTo stops hgrow hlead hstop hdone hnext hs hitems _
    (Nat.le_of_lt (hs.length_flatMap_lt hne)))

/-- **A list with commas is read item by item.** -/
theorem separated {stops : TokenKind → Prop} (hgrow : ∀ a b x i, a.Grows b → fits a x i → fits b x i)
    (hcomma : stops .comma) (hstop : stops (headKind rest)) (hrest : headKind rest ≠ .comma)
    {x : ι} {xs : List ι} (hitem : ∀ y ∈ x :: xs, ∀ (t : State) (ws : List Lexeme),
      stops (headKind ws) → t.Ahead env (chunk y ++ ws) → Reads env item t ws fun i d => fits d y i)
    (hs : s.Ahead env (chunk x ++ (Lexeme.listed chunk xs ++ rest))) :
    Reads env (separated item) s rest fun is d => List.Forall₂ (fits d) (x :: xs) is := by
  have hfirst : stops (headKind (Lexeme.listed chunk xs ++ rest)) := by
    cases xs with
    | nil => exact hstop
    | cons y ys => exact hcomma
  refine (hitem x List.mem_cons_self s _ hfirst hs).bind fun i t ht hi => ?_
  have hlead : ∀ y ws, stops (headKind ((Lexeme.comma :: chunk y) ++ ws)) := fun _ _ => hcomma
  refine collect stops hgrow hlead (fun _ => List.cons_ne_nil _ _) hstop ?_ ?_ ht.ahead (.cons hi .nil)
  · intro items u hu
    refine Runs.bind (consume_miss hu hrest) ?_
    rintro _ _ ⟨rfl, rfl⟩
    exact Runs.pure ⟨rfl, rfl⟩
  · intro y hy items u ws hws hu
    refine consume_hit_bind hu rfl fun v hv _ => ?_
    refine (hitem y (List.mem_cons_of_mem _ hy) v ws hws hv.ahead).bind fun j w hw hj => ?_
    exact Reads.pure hw.ahead ⟨j, rfl, hj⟩

end

end Reads

end Jpql.Parse
