import Jpql.Proofs.Place.Tree
import Jpql.Proofs.Recovery.Account
import Mathlib.Data.List.Pairwise

/-! # What is skipped stays inside its level

Where a construct would lie too deep, the rest of its level becomes one node of unknown text. At least one
token is skipped, and no parenthesis is closed but those that are opened on the way. Skipping stops at the
end of the text, or with every parenthesis closed at the one that closes the level, which is left to whoever
has opened it (`parse_cutsOff`).

* `RestOfLevel`: some tokens are the rest of a level in front of another.
* `TokenStream.skipLevel_rest`: what is skipped is the rest of a level, by induction on its tokens.
* `Token.Run.filter_within`: tokens in a row are all that lies in the span from the first to the last.
* `Parse.Env.CutOff.cutsOff`: hence a span that is cut off has the rest of a level in it. -/

namespace Jpql

/-! ## Parentheses -/

namespace Token

/-- How many of the tokens open a parenthesis. -/
def opened (tokens : List Token) : Nat := tokens.countP (·.kind == .leftParen)

/-- How many of the tokens close a parenthesis. -/
def closed (tokens : List Token) : Nat := tokens.countP (·.kind == .rightParen)

theorem opened_cons (token : Token) (tokens : List Token) :
    opened (token :: tokens) = opened [token] + opened tokens := by
  rw [← List.singleton_append, opened, List.countP_append]
  rfl

theorem closed_cons (token : Token) (tokens : List Token) :
    closed (token :: tokens) = closed [token] + closed tokens := by
  rw [← List.singleton_append, closed, List.countP_append]
  rfl

end Token

/-- **The tokens are the rest of a level**, with `level` parentheses in it open before them. At no point more
of them are closed than were opened. What follows ends the text, or closes the level with nothing in it left
open. -/
structure RestOfLevel (level : Nat) (inside : List Token) (next : Token) : Prop where
  words : ∀ token ∈ inside, token.kind ≠ .eof
  covered : ∀ front, front <+: inside → Token.closed front ≤ level + Token.opened front
  stops : next.kind = .eof ∨
    next.kind = .rightParen ∧ Token.closed inside = level + Token.opened inside

namespace RestOfLevel

variable {level later : Nat} {inside : List Token} {token next : Token}

theorem nil (h : next.kind = .eof ∨ next.kind = .rightParen ∧ level = 0) :
    RestOfLevel level [] next where
  words _ hmem := absurd hmem List.not_mem_nil
  covered front hfront := by
    rw [List.prefix_nil.mp hfront]
    exact Nat.zero_le _
  stops := h.imp_right fun ⟨hkind, hlevel⟩ => ⟨hkind, by rw [hlevel]; rfl⟩

/-- **One more token in front.** What it opens is open in the rest, and what it closes was open before. -/
theorem cons (h : RestOfLevel later inside next) (hword : token.kind ≠ .eof)
    (hlevel : later + Token.closed [token] = level + Token.opened [token]) :
    RestOfLevel level (token :: inside) next where
  words := List.forall_mem_cons.mpr ⟨hword, h.words⟩
  covered front hfront := by
    rcases List.prefix_cons_iff.mp hfront with rfl | ⟨front, rfl, hrest⟩
    · exact Nat.zero_le _
    · have hrest := h.covered front hrest
      rw [Token.closed_cons, Token.opened_cons]
      omega
  stops := h.stops.imp_right fun ⟨hkind, hbalanced⟩ => ⟨hkind, by
    rw [Token.closed_cons, Token.opened_cons]
    omega⟩

end RestOfLevel

/-! ## Skipping -/

namespace TokenStream

variable {stream : TokenStream} {token : Token} {rest : List Token}

/-- The tokens from the current one on. -/
def ahead (stream : TokenStream) : List Token := stream.tokens.toList.drop stream.position

theorem current_of_ahead (h : stream.ahead = token :: rest) : stream.current = token := by
  have hget : stream.tokens.toList[stream.position]? = some token := by
    rw [← List.head?_drop]
    exact congrArg List.head? h
  show ((stream.tokens[stream.position + 0]?).or _).getD _ = _
  rw [Nat.add_zero, ← Array.getElem?_toList, hget]
  rfl

/-- The last token is not left, so another one has to follow. -/
theorem ahead_advance (h : stream.ahead = token :: rest) (hrest : rest ≠ []) :
    stream.advance.ahead = rest ∧ stream.advance.position = stream.position + 1 := by
  have hlength := congrArg List.length h
  rw [ahead, List.length_drop, Array.length_toList, List.length_cons] at hlength
  have hpos := List.length_pos_iff.mpr hrest
  have hadvance : stream.advance = { stream with position := stream.position + 1 } :=
    if_pos (show stream.position < stream.tokens.size - 1 by omega)
  rw [hadvance]
  refine ⟨?_, rfl⟩
  show stream.tokens.toList.drop (stream.position + 1) = rest
  rw [← List.drop_drop, ← ahead, h]
  rfl

/-- **One step.** Skipping stops where the level does, or goes on behind the current token. That can have
opened a parenthesis, or closed one that was open. -/
theorem skipLevel_succ {bound level : Nat} {result : TokenStream}
    (h : stream.skipLevel (bound + 1) level = result) :
    result = stream ∧ (stream.kind = .eof ∨ stream.kind = .rightParen ∧ level = 0) ∨
    ∃ later, result = stream.advance.skipLevel bound later ∧ stream.kind ≠ .eof ∧
      later + Token.closed [stream.current] = level + Token.opened [stream.current] := by
  have hkind : stream.current.kind = stream.kind := rfl
  unfold skipLevel at h
  split at h
  · next heof => exact .inl ⟨h.symm, .inl heof⟩
  · next hopen =>
    exact .inr ⟨_, h.symm, by simp [hopen], by simp [Token.opened, Token.closed, hkind, hopen]⟩
  · next hclose => exact .inl ⟨h.symm, .inr ⟨hclose, rfl⟩⟩
  · next hclose =>
    exact .inr ⟨_, h.symm, by simp [hclose], by simp [Token.opened, Token.closed, hkind, hclose]⟩
  · next heof hopen hlast hclose =>
    have hother : stream.kind ≠ .rightParen := fun hkind =>
      (Nat.eq_zero_or_eq_succ_pred _).elim (hlast hkind) (hclose _ hkind)
    exact .inr ⟨_, h.symm, heof, by
      have hopen : stream.kind ≠ .leftParen := hopen
      simp [Token.opened, Token.closed, hkind, hother, hopen]⟩

/-- **What is skipped is the rest of the level**, provided that the text ends somewhere. -/
theorem skipLevel_rest (bound level : Nat) (stream : TokenStream)
    (hbound : stream.ahead.length ≤ bound) (hend : ∃ token ∈ stream.ahead, token.kind = .eof) :
    ∃ inside next behind, stream.ahead = inside ++ next :: behind ∧
      (stream.skipLevel bound level).position = stream.position + inside.length ∧
      RestOfLevel level inside next := by
  induction bound generalizing level stream with
  | zero =>
    obtain ⟨token, hmem, -⟩ := hend
    exact absurd (List.length_pos_of_mem hmem) (by omega)
  | succ bound ih =>
    obtain ⟨last, hmem, heof⟩ := hend
    obtain ⟨token, rest, hahead⟩ := List.exists_cons_of_ne_nil (List.ne_nil_of_mem hmem)
    have hcurrent : stream.current = token := current_of_ahead hahead
    have hkind : stream.kind = token.kind := congrArg Token.kind hcurrent
    have hstep := skipLevel_succ (Eq.refl (stream.skipLevel (bound + 1) level))
    rw [hkind, hcurrent] at hstep
    rcases hstep with ⟨hskip, hstops⟩ | ⟨later, hskip, hword, hlevel⟩
    · exact ⟨[], token, rest, hahead, congrArg position hskip, .nil hstops⟩
    · rw [hahead] at hmem hbound
      have hmem : last ∈ rest :=
        (List.mem_cons.mp hmem).resolve_left fun heq => hword (heq ▸ heof)
      obtain ⟨hnext, hposition⟩ := ahead_advance hahead (List.ne_nil_of_mem hmem)
      obtain ⟨inside, next, behind, hsplit, hstop, hinside⟩ :=
        ih later stream.advance (hnext ▸ Nat.le_of_succ_le_succ hbound) ⟨last, hnext ▸ hmem, heof⟩
      refine ⟨token :: inside, next, behind, ?_, ?_, hinside.cons hword hlevel⟩
      · rw [hahead, ← hnext, hsplit, List.cons_append]
      · rw [hskip, hstop, hposition, List.length_cons]
        omega

end TokenStream

/-! ## The tokens in a span -/

/-- The token lies in the span and is not the end of the text. -/
def Token.isWithin (span : Span) (token : Token) : Bool :=
  token.kind != .eof && decide (span.start ≤ token.span.start) && decide (token.span.stop ≤ span.stop)

theorem Token.isWithin_iff {span : Span} {token : Token} :
    token.isWithin span = true ↔ token.kind ≠ .eof ∧ token.span.Inside span := by
  simp [isWithin, Span.Inside, and_assoc]

/-- **The tokens of a text that lie in a span**, in their order. -/
def Span.tokens (span : Span) (source : String) : List Token :=
  (tokenize source).tokens.filter (·.isWithin span)

/-- **The span cuts the rest of a level off a text**: at least one token, in front of the one that stops it. -/
structure Span.CutsOff (span : Span) (source : String) : Prop where
  nonempty : span.tokens source ≠ []
  rest : ∃ before next behind, RestOfLevel 0 (span.tokens source) next ∧
    (tokenize source).tokens = before ++ (span.tokens source ++ next :: behind)

/-- From the start of the first token to the end of the last. -/
def Token.reach (tokens : List Token) (hne : tokens ≠ []) : Span :=
  ⟨(tokens.head hne).span.start, (tokens.getLast hne).span.stop⟩

namespace Token.Run

variable {limit low : Nat} {before inside behind : List Token}

/-- Tokens in a row lie within their reach. -/
theorem inside_reach (h : Run limit low (before ++ (inside ++ behind))) (hne : inside ≠ []) :
    ∀ token ∈ inside, token.span.Inside (reach inside hne) := by
  have hrow : inside.Pairwise fun a b => a.span.stop ≤ b.span.start :=
    (List.pairwise_append.mp (List.pairwise_append.mp h.pairwise).2.1).1
  have hrises : inside.Pairwise fun a b =>
      a.span.start ≤ b.span.start ∧ a.span.stop ≤ b.span.stop :=
    hrow.imp_of_mem fun {a b} ha hb hab => by
      have hfirst := h.bounds a (by simp [ha])
      have hsecond := h.bounds b (by simp [hb])
      omega
  exact fun token hmem => ⟨(hrises.rel_head_of_rel_head_head hmem (by simp)).1,
    (hrises.rel_getLast_of_rel_getLast_getLast hmem (by simp)).2⟩

/-- **Nothing else lies within the reach of tokens in a row.** -/
theorem filter_within (h : Run limit low (before ++ (inside ++ behind)))
    (hwords : ∀ token ∈ inside, token.kind ≠ .eof) (hne : inside ≠ []) :
    (before ++ (inside ++ behind)).filter (·.isWithin (reach inside hne)) = inside := by
  obtain ⟨-, hpairs, hbefore⟩ := List.pairwise_append.mp h.pairwise
  obtain ⟨-, -, hbehind⟩ := List.pairwise_append.mp hpairs
  have hnone : before.filter (·.isWithin (reach inside hne)) = [] := by
    refine List.filter_eq_nil_iff.mpr fun token hmem hwithin => ?_
    obtain ⟨hword, hstart, -⟩ := isWithin_iff.mp hwithin
    have hsize := h.start_lt_stop token (by simp [hmem]) hword
    have hapart := hbefore token hmem _ (List.mem_append_left _ (List.head_mem hne))
    exact absurd (Nat.lt_of_lt_of_le hsize hapart) (Nat.not_lt.mpr hstart)
  have hall : inside.filter (·.isWithin (reach inside hne)) = inside :=
    List.filter_eq_self.mpr fun token hmem =>
      isWithin_iff.mpr ⟨hwords token hmem, h.inside_reach hne token hmem⟩
  have hlater : behind.filter (·.isWithin (reach inside hne)) = [] := by
    refine List.filter_eq_nil_iff.mpr fun token hmem hwithin => ?_
    obtain ⟨hword, -, hstop⟩ := isWithin_iff.mp hwithin
    have hsize := h.start_lt_stop token (by simp [hmem]) hword
    have hapart := hbehind _ (List.getLast_mem hne) token hmem
    exact absurd (Nat.lt_of_le_of_lt hapart hsize) (Nat.not_lt.mpr hstop)
  rw [List.filter_append, List.filter_append, hnone, hall, hlater, List.nil_append, List.append_nil]

end Token.Run

namespace Parse

variable {env : Env} {s : State} {span : Span} {before inside behind : List Token} {token : Token}

/-- Where a token starts, and where it ends. -/
theorem Env.place_of_append (htokens : env.tokens.toList = before ++ token :: behind) :
    env.startAt before.length = token.span.start ∧
      env.endBefore (before.length + 1) = token.span.stop := by
  have hlength := congrArg List.length htokens
  rw [Array.length_toList, List.length_append, List.length_cons] at hlength
  have hlt : before.length < env.tokens.size := by omega
  have htoken : env.tokens[before.length] = token := by
    rw [← Array.getElem_toList]
    simp [htokens]
  rw [Env.InOrder.startAt_eq hlt, Env.InOrder.endBefore_succ hlt, htoken]
  exact ⟨rfl, rfl⟩

/-- The span of tokens that were moved over is their reach. -/
theorem Env.InOrder.upTo_eq_reach (h : env.InOrder)
    (htokens : env.tokens.toList = before ++ (inside ++ behind)) (hne : inside ≠ []) :
    env.upTo (env.startAt before.length) (before.length + inside.length) =
      Token.reach inside hne := by
  have hstart : env.startAt before.length = (inside.head hne).span.start := by
    have hsplit : env.tokens.toList = before ++ inside.head hne :: (inside.tail ++ behind) := by
      rw [htokens, ← List.cons_append, List.cons_head_tail]
    exact (Env.place_of_append hsplit).1
  have hstop : env.endBefore (before.length + inside.length) = (inside.getLast hne).span.stop := by
    have hsplit : env.tokens.toList =
        (before ++ inside.dropLast) ++ inside.getLast hne :: behind := by
      rw [htokens, List.append_assoc, List.append_cons inside.dropLast,
        List.dropLast_concat_getLast]
    have hplace := (Env.place_of_append hsplit).2
    have hpos := List.length_pos_iff.mpr hne
    rwa [List.length_append, List.length_dropLast, Nat.add_assoc, Nat.sub_add_cancel hpos] at hplace
  have hrun := h
  rw [Env.InOrder, htokens] at hrun
  have hordered := hrun.bounds _ (List.mem_append_right _ (List.mem_append_left _ (List.head_mem hne)))
  have hreach := hrun.inside_reach hne _ (List.head_mem hne)
  have hle : (inside.head hne).span.start ≤ (inside.getLast hne).span.stop :=
    Nat.le_trans hordered.2 hreach.2
  rw [Env.upTo, hstart, hstop, Nat.max_eq_left hle]
  rfl

/-- The text ends ahead of every position. -/
theorem Env.InOrder.eof_ahead (h : env.InOrder) (hs : s.position ≤ env.tokens.size - 1) :
    ∃ token ∈ (s.stream env).ahead, token.kind = .eof := by
  have hlt := h.lt_size hs
  have hlast : s.position + (env.tokens.size - 1 - s.position) < env.tokens.size := by omega
  refine ⟨_, List.mem_drop_iff_getElem.mpr ⟨env.tokens.size - 1 - s.position, ?_, rfl⟩,
    (h.eof_iff hlast).1.mpr (by omega)⟩
  rw [Nat.add_comm]
  exact hlast

/-- **What is cut off of a level is the rest of it**, at least one token. -/
theorem Env.CutOff.rest (h : env.InOrder) (hcut : env.CutOff span) :
    ∃ before inside next behind, ∃ hne : inside ≠ [],
      env.tokens.toList = before ++ (inside ++ next :: behind) ∧ span = Token.reach inside hne ∧
        RestOfLevel 0 inside next := by
  obtain ⟨s, hs, heof, hclose, rfl⟩ := hcut
  have hbound : (s.stream env).ahead.length ≤ env.tokens.size := by
    rw [TokenStream.ahead, List.length_drop, Array.length_toList]
    exact Nat.sub_le _ _
  obtain ⟨inside, next, behind, hsplit, hstop, hrest⟩ :=
    TokenStream.skipLevel_rest env.tokens.size 0 (s.stream env) hbound (h.eof_ahead hs)
  have hne : inside ≠ [] := by
    rintro rfl
    have hnext : (s.stream env).kind = next.kind :=
      congrArg Token.kind (TokenStream.current_of_ahead hsplit)
    rcases hrest.stops with hkind | ⟨hkind, -⟩
    · exact heof (hnext.trans hkind)
    · exact hclose (hnext.trans hkind)
  obtain ⟨before, htokens, hbefore⟩ : ∃ before,
      env.tokens.toList = before ++ (inside ++ next :: behind) ∧ before.length = s.position :=
    ⟨env.tokens.toList.take s.position, hsplit ▸ (List.take_append_drop _ _).symm, by
      rw [List.length_take, Array.length_toList, Nat.min_eq_left (Nat.le_of_lt (h.lt_size hs))]⟩
  refine ⟨before, inside, next, behind, hne, htokens, ?_, hrest⟩
  rw [hstop, ← h.upTo_eq_reach htokens hne, hbefore]
  rfl

/-- Its span has just those tokens in it. -/
theorem Env.CutOff.cutsOff (h : env.InOrder) (hcut : env.CutOff span) {source : String}
    (htext : env.tokens.toList = (tokenize source).tokens) : span.CutsOff source := by
  obtain ⟨before, inside, next, behind, hne, htokens, rfl, hrest⟩ := hcut.rest h
  have hrun := h
  rw [Env.InOrder, htokens] at hrun
  rw [htext] at htokens
  have hinside : (Token.reach inside hne).tokens source = inside := by
    rw [Span.tokens, htokens]
    exact hrun.filter_within hrest.words hne
  exact ⟨by rwa [hinside], before, next, behind, by rwa [hinside], by rwa [hinside]⟩

/-- A problem that comes with a node is anchored there, and has its span. -/
theorem Draft.Tallies.anchored {kinds : NodeKind → Bool} {keys : ProblemKey → Bool} {draft : Draft}
    (h : draft.Tallies kinds keys) {problem : Problem} (hmem : problem ∈ draft.problems)
    (hkey : keys problem.key = true) :
    ∃ id < draft.size, kinds (draft.kind id) = true ∧ problem.anchor = some id ∧
      draft.span id = problem.span := by
  have hplace : problem.place ∈ draft.places kinds :=
    h ▸ List.mem_map_of_mem (List.mem_filter.mpr ⟨hmem, hkey⟩)
  obtain ⟨id, hid, heq⟩ := List.mem_map.mp hplace
  obtain ⟨hlt, hkind⟩ := List.mem_filter.mp hid
  obtain ⟨hanchor, hspan⟩ := Prod.mk.inj heq
  exact ⟨id, List.mem_range.mp hlt, hkind, hanchor.symm, hspan⟩

end Parse

/-! ## Texts -/

theorem NodeKind.isLeftover_iff {kind : NodeKind} :
    kind.isLeftover = true ↔ ∃ text, kind = .unknown text := by
  cases kind <;> simp [isLeftover]

/-- **Skipping stays inside its level.** Every problem about nesting belongs to a node of unknown text that
has the span of the problem and cuts the rest of a level off. -/
theorem parse_cutsOff (source rule : String) (maxDepth : Nat)
    (hrule : (Grammar.standard.rule? rule).isSome = true) :
    ∃ parsed, parse source rule maxDepth = .ok parsed ∧
      ∀ problem ∈ parsed.problems, problem.key = .nestingTooDeep →
        ∃ id < parsed.tree.size, problem.anchor = some id ∧
          (∃ text, parsed.tree.kind id = .unknown text) ∧ parsed.tree.span id = problem.span ∧
          (parsed.tree.span id).CutsOff source := by
  obtain ⟨root, state, hrun, hparse⟩ := parse_run source rule maxDepth hrule
  have hplaced : state.draft.Placed (Parse.textEnv source maxDepth) :=
    (Parse.query_placed (Parse.level_placing (Parse.textEnv_ofText source maxDepth)
      Grammar.standard_selectsByWord maxDepth) rule (Nat.zero_le _) (Parse.Draft.Exact.empty _)
      root state hrun).1
  have htallies : state.draft.Tallies NodeKind.isLeftover ProblemKey.isLeftover :=
    Parse.pairing_leftover.invariant.query hrun rfl
  refine ⟨_, hparse, fun problem hmem hkey => ?_⟩
  rcases List.mem_append.mp hmem with hscanned | hread
  · have hplain := Scan.scan_problems 0 0 _ problem hscanned
    rw [hkey] at hplain
    cases hplain
  obtain ⟨found, hfound, rfl⟩ := List.mem_map.mp hread
  have hdeep : found.key = .nestingTooDeep := hkey
  obtain ⟨id, hid, hkind, hanchor, hspan⟩ := htallies.anchored hfound (by rw [hdeep]; rfl)
  refine ⟨id, hid, ?_, ?_, ?_, ?_⟩
  · show some (found.anchor.getD root) = some id
    rw [hanchor]
    rfl
  · rw [Tree.kind_finish]
    exact NodeKind.isLeftover_iff.mp hkind
  · rw [Tree.span_finish]
    exact hspan
  · rw [Tree.span_finish, show state.builder.span id = _ from hspan]
    exact (hplaced.cuts found hfound hdeep).cutsOff (Parse.textEnv_inOrder source maxDepth) rfl

/-- Of the first group the parenthesis that closes it is left. In the second one the text ends first. -/
theorem parse_cutsOff_unbalanced :
    ∃ parsed, parse "SELECT ((e.a)) FROM E e WHERE ((f) AND (" RuleId.statement 1 = .ok parsed ∧
      ∀ problem ∈ parsed.problems, problem.key = .nestingTooDeep →
        ∃ id < parsed.tree.size, problem.anchor = some id ∧
          (∃ text, parsed.tree.kind id = .unknown text) ∧ parsed.tree.span id = problem.span ∧
          (parsed.tree.span id).CutsOff "SELECT ((e.a)) FROM E e WHERE ((f) AND (" :=
  parse_cutsOff "SELECT ((e.a)) FROM E e WHERE ((f) AND (" RuleId.statement 1
    (Grammar.standard_registers (by simp))

example : ((parse "SELECT ((e.a)) FROM E e WHERE ((f) AND (" RuleId.statement 1).toOption.map fun parsed =>
    (parsed.problems.filter (·.key == .nestingTooDeep)).map fun problem =>
      let inside := problem.span.tokens "SELECT ((e.a)) FROM E e WHERE ((f) AND ("
      (Token.opened inside, Token.closed inside)) = some [(1, 1), (2, 1)] := by
  decide +kernel

end Jpql
