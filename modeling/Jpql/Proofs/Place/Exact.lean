import Jpql.Proofs.Place.Tree
import Jpql.Proofs.Token.Partition

/-! # Exact places

Where nothing is reported, every node below the root has the span of the tokens it was read from; only
virtual variables are empty (`parse_exact`). Such a span cuts no token, and no blank stands at either end
of its text (`Span.Marks`). -/

namespace Jpql

/-! ## Texts without blanks at their ends -/

namespace Text

/-- **The text is not empty, and starts and ends with a character that is no blank.** -/
structure Tight (cs : List Char) : Prop where
  first : ∃ c rest, cs = c :: rest ∧ isBlank c = false
  last : ∃ front c, cs = front ++ [c] ∧ isBlank c = false

/-- Its ends decide. -/
theorem Tight.of_ends {front back cs : List Char} (hfront : Tight front) (hback : Tight back)
    (hstarts : front <+: cs) (hends : back <:+ cs) : Tight cs := by
  obtain ⟨more, rfl⟩ := hstarts
  obtain ⟨less, heq⟩ := hends
  obtain ⟨c, rest, rfl, hc⟩ := hfront.first
  obtain ⟨before, d, rfl, hd⟩ := hback.last
  exact ⟨⟨c, rest ++ more, rfl, hc⟩, ⟨less ++ before, d, by rw [← heq, List.append_assoc], hd⟩⟩

/-- A part that starts with another contains it. -/
theorem slice_prefix {text : String} {a b : Span} (ha : a.Fits text) (hb : b.Fits text)
    (hstart : a.start = b.start) (hle : a.stop ≤ b.stop) :
    (slice text a).toList <+: (slice text b).toList := by
  obtain ⟨front, inner, rest, htext, hfront, hinner, hslice⟩ := ha.cut
  obtain ⟨front', outer, rest', htext', hfront', houter, hslice'⟩ := hb.cut
  rw [hslice, hslice', String.toList_ofList, String.toList_ofList]
  have hinside : front ++ inner <+: front' ++ outer :=
    prefix_of_boundaries htext htext' (by omega)
  rw [List.append_assoc] at htext htext'
  have hsame : front = front' :=
    (prefix_of_boundaries htext htext' (by omega)).eq_of_length_le
      (prefix_of_boundaries htext' htext (by omega)).length_le
  rw [hsame] at hinside
  exact (List.prefix_append_right_inj _).mp hinside

/-- A part that ends with another contains it. -/
theorem slice_suffix {text : String} {a b : Span} (ha : a.Fits text) (hb : b.Fits text)
    (hstop : a.stop = b.stop) (hle : b.start ≤ a.start) :
    (slice text a).toList <:+ (slice text b).toList := by
  obtain ⟨front, inner, rest, htext, hfront, hinner, hslice⟩ := ha.cut
  obtain ⟨front', outer, rest', htext', hfront', houter, hslice'⟩ := hb.cut
  rw [hslice, hslice', String.toList_ofList, String.toList_ofList]
  have hsame : front ++ inner = front' ++ outer :=
    (prefix_of_boundaries htext htext' (by omega)).eq_of_length_le
      (prefix_of_boundaries htext' htext (by omega)).length_le
  rw [List.append_assoc] at htext htext'
  obtain ⟨between, rfl⟩ := prefix_of_boundaries htext' htext (by omega)
  rw [List.append_assoc, List.append_cancel_left_eq] at hsame
  exact ⟨between, hsame⟩

end Text

/-! ## Tokens -/

namespace Scan

/-- No token starts with a blank. -/
theorem lexeme?_first {c : Char} {cs : List Char} {kind : TokenKind} {n : Nat}
    (h : lexeme? (c :: cs) = some (kind, n)) : Text.isBlank c = false := by
  by_cases hquote : c = '\''
  · subst hquote
    rfl
  · obtain ⟨hsolid, hpos, -⟩ := lexeme?_solid hquote h
    obtain ⟨m, rfl⟩ := Nat.exists_eq_succ_of_ne_zero (Nat.pos_iff_ne_zero.mp hpos)
    have hc := hsolid c (by simp)
    simp only [isSolid, Bool.and_eq_true, Bool.not_eq_true'] at hc
    exact hc.1

end Scan

/-- **A token is tight.** -/
theorem tokenize_tight {source : String} {token : Token} (hmem : token ∈ (tokenize source).tokens)
    (hkind : token.kind ≠ .eof) : Text.Tight (Text.slice source token.span).toList := by
  obtain ⟨parts, hparts, hscan⟩ := Scan.scan_divides 0 source.toList
  rw [tokenize, hscan] at hmem
  rcases List.mem_append.mp hmem with hword | hend
  · obtain ⟨written, rest, htext, hlexeme⟩ := hparts.lexeme_of_mem [] (Scan.word_of_mem hword)
    rw [List.nil_append, String.ofList_toList] at htext
    rw [show Text.slice source token.span = _ from htext, String.toList_ofList]
    obtain ⟨-, most, last, htake, hlast⟩ := Scan.lexeme?_last hlexeme
    rw [List.take_left] at htake
    refine ⟨?_, most, last, htake, hlast⟩
    cases written with
    | nil => exact absurd htake (by simp)
    | cons c written => exact ⟨c, written, rfl, Scan.lexeme?_first hlexeme⟩
  · rw [List.mem_singleton.mp hend] at hkind
    exact absurd rfl hkind

/-! ## Spans of tokens -/

/-- **The span marks tokens of a text.** It reaches from the start of one to the end of one, is not empty,
and cuts no token; neither end of its text is a blank. -/
structure Span.Marks (span : Span) (source : String) : Prop where
  nonempty : span.start < span.stop
  first : ∃ token ∈ (tokenize source).tokens, token.kind ≠ .eof ∧ token.span.start = span.start
  last : ∃ token ∈ (tokenize source).tokens, token.kind ≠ .eof ∧ token.span.stop = span.stop
  uncut : ∀ token ∈ (tokenize source).tokens, token.span.Inside span ∨ token.span.Apart span
  tight : Text.Tight (Text.slice source span).toList

namespace Parse

variable {env : Env} {i j k : Nat}

/-- A token lies in a span of tokens, or on one side of it. -/
theorem Env.InOrder.inside_or_apart (h : env.InOrder) (hj : j ≤ env.tokens.size - 1)
    (hij : i < j) (hk : k < env.tokens.size) :
    env.tokens[k].span.Inside ⟨env.startAt i, env.endBefore j⟩ ∨
      env.tokens[k].span.Apart ⟨env.startAt i, env.endBefore j⟩ := by
  obtain ⟨last, rfl⟩ : ∃ last, j = last + 1 := ⟨j - 1, by omega⟩
  have hi : i < env.tokens.size := by omega
  have hlast : last < env.tokens.size := by omega
  rw [Env.InOrder.startAt_eq hi, Env.InOrder.endBefore_succ hlast]
  rcases Nat.lt_or_ge k i with hbefore | hfrom
  · exact .inr (.inl (h.stop_le_start hbefore hk hi))
  rcases Nat.lt_or_ge last k with hbehind | hto
  · exact .inr (.inr (h.stop_le_start hbehind hlast hk))
  · refine .inl ⟨?_, ?_⟩
    · have hmono := h.startAt_mono hfrom hk
      rwa [Env.InOrder.startAt_eq hi, Env.InOrder.startAt_eq hk] at hmono
    · rcases Nat.lt_or_eq_of_le hto with hlt | rfl
      · exact Nat.le_trans (h.stop_le_start hlt hk hlast) (h.start_le_stop hlast)
      · exact Nat.le_refl _

/-- **A span of whole tokens marks them.** -/
theorem Env.Whole.marks {span : Span} (hwhole : env.Whole span) (htext : env.OfText)
    (htokens : env.tokens.toList = (tokenize env.source).tokens) : span.Marks env.source := by
  obtain ⟨i, j, hij, hj, rfl⟩ := hwhole
  have h := htext.inOrder
  obtain ⟨last, rfl⟩ : ∃ last, j = last + 1 := ⟨j - 1, by omega⟩
  have hi : i < env.tokens.size := by omega
  have hlast : last < env.tokens.size := by omega
  have hmem : ∀ {k : Nat} (hk : k < env.tokens.size), env.tokens[k] ∈ (tokenize env.source).tokens :=
    fun hk => htokens ▸ Array.getElem_mem_toList hk
  have hword : ∀ {k : Nat} (hk : k < env.tokens.size), k ≤ last → env.tokens[k].kind ≠ .eof :=
    fun hk hle heof => by have := (h.eof_iff hk).1.mp heof; omega
  have hstart := Env.InOrder.startAt_eq hi
  have hstop := Env.InOrder.endBefore_succ hlast
  have hfirst : env.tokens[i].span.stop ≤ env.endBefore (last + 1) := by
    have := htext.endBefore_mono (Nat.succ_le_of_lt hij) hj
    rwa [Env.InOrder.endBefore_succ hi] at this
  have hnonempty : env.startAt i < env.endBefore (last + 1) := by
    have := Token.Run.start_lt_stop h _ (Array.getElem_mem_toList hi) (hword hi (by omega))
    omega
  have hfits : (⟨env.startAt i, env.endBefore (last + 1)⟩ : Span).Fits env.source :=
    ⟨Nat.le_of_lt hnonempty, htext.boundary_startAt (by omega), htext.boundary_endBefore hj⟩
  refine ⟨hnonempty, ⟨_, hmem hi, hword hi (by omega), hstart.symm⟩,
    ⟨_, hmem hlast, hword hlast (Nat.le_refl _), hstop.symm⟩, fun token htoken => ?_, ?_⟩
  · rw [← htokens] at htoken
    obtain ⟨k, hk, rfl⟩ := List.getElem_of_mem htoken
    exact h.inside_or_apart hj hij (by simpa using hk)
  · refine .of_ends (tokenize_tight (hmem hi) (hword hi (by omega)))
      (tokenize_tight (hmem hlast) (hword hlast (Nat.le_refl _))) ?_ ?_
    · exact Text.slice_prefix (htext.fits _ (Array.getElem_mem_toList hi)) hfits hstart.symm hfirst
    · refine Text.slice_suffix (htext.fits _ (Array.getElem_mem_toList hlast)) hfits hstop.symm ?_
      have hmono := h.startAt_mono (show i ≤ last by omega) hlast
      rwa [Env.InOrder.startAt_eq hlast] at hmono

end Parse

/-! ## The nodes of a text -/

/-- **Where nothing is reported, nodes mark the tokens they were read from**, whatever the rule. The root
reaches over the whole text, blanks included, and a virtual variable is empty. -/
theorem parse_exact (source rule : String) (maxDepth : Nat)
    (hrule : (Grammar.standard.rule? rule).isSome = true) :
    ∃ parsed, parse source rule maxDepth = .ok parsed ∧ (parsed.problems = [] →
      ∀ id < parsed.tree.size, id ≠ parsed.tree.root → (parsed.tree.span id).Marks source ∨
        (∃ name, parsed.tree.kind id = .identifier name true none) ∧
          (parsed.tree.span id).start = (parsed.tree.span id).stop) := by
  obtain ⟨root, state, hparse, -, -, -, hexact⟩ := parse_draft_placed source rule maxDepth hrule
  refine ⟨_, hparse, fun hclean id hid hne => ?_⟩
  have hwf := wellFormed_of_parse hparse
  have hproblems : state.draft.problems = [] :=
    List.map_eq_nil_iff.mp (List.append_eq_nil_iff.mp hclean).2
  have hlt : id < root := by
    have hlast : root + 1 = (state.builder.finish source root).size := hwf.root_last
    have hbelow : id < (state.builder.finish source root).size := hid
    rw [← hlast] at hbelow
    exact Nat.lt_of_le_of_ne (Nat.le_of_lt_succ hbelow) hne
  rw [Tree.span_finish, Tree.kind_finish]
  exact (hexact hproblems id hlt).imp_left fun hwhole =>
    hwhole.marks (Parse.textEnv_ofText source maxDepth) (by rfl)

/-- An `UPDATE` without alias: its variables are virtual, and blanks stand around all of its parts. -/
theorem parse_exact_virtual :
    ∃ parsed, parse "  UPDATE  Employee SET name = ' a ' , boss.id = ( 1 ) WHERE active " RuleId.statement 2 =
        .ok parsed ∧ parsed.problems = [] ∧
      ∀ id < parsed.tree.size, id ≠ parsed.tree.root → (parsed.tree.span id).Marks
          "  UPDATE  Employee SET name = ' a ' , boss.id = ( 1 ) WHERE active " ∨
        (∃ name, parsed.tree.kind id = .identifier name true none) ∧
          (parsed.tree.span id).start = (parsed.tree.span id).stop := by
  let source := "  UPDATE  Employee SET name = ' a ' , boss.id = ( 1 ) WHERE active "
  have hread : (match parse source RuleId.statement 2 with
      | .ok parsed => parsed.problems.isEmpty
      | .error _ => false) = true := by decide +kernel
  obtain ⟨parsed, hparse, hexact⟩ :=
    parse_exact source RuleId.statement 2 (Grammar.standard_registers (by simp))
  rw [hparse] at hread
  have hclean : parsed.problems = [] := List.isEmpty_iff.mp hread
  exact ⟨parsed, hparse, hclean, hexact hclean⟩

end Jpql
