import Jpql.Proofs.Reader.Move

/-! # A text without some of its `AS`

The keyword `AS` in front of the name of a variable can be left out. The tokens of the shorter text are
those of the longer one, without the omitted ones. Two runs over them go through the same tokens, but
where the one finds an omitted `AS`, the other already sees the name behind it.

* `Parse.Env.Elided`: the surroundings of two runs, over a text and over the text without some tokens.
* `Parse.Env.kept`: where a token of the first is to be found in the second.
* `Parse.Env.Elided.stream_kept`: a token that was not omitted is seen in both runs; so is the one behind
  it, unless that is omitted. -/

namespace Jpql

/-- The keyword `AS` names nothing. -/
theorem TokenKind.ne_as_of_isNaming {kind : TokenKind} (h : kind.isNaming = true) :
    kind ≠ .keyword .as := by
  rintro rfl
  cases h

/-- Names are identifiers, and keywords that are not reserved. -/
theorem TokenKind.forall_naming {p : TokenKind → Prop} (hidentifier : ∀ name, p (.identifier name))
    (hkeyword : ∀ word : Keyword, word.isReserved = false → p (.keyword word)) (kind : TokenKind)
    (h : kind.isNaming = true) : p kind := by
  cases kind with
  | identifier name => exact hidentifier name
  | keyword word => exact hkeyword word (by simpa [isNaming] using h)
  | _ => cases h

/-- A name that is no keyword is an identifier. -/
theorem TokenKind.exists_identifier {kind : TokenKind} (hnaming : kind.isNaming = true)
    (hkeyword : kind.keyword? = none) : ∃ name, kind = .identifier name := by
  cases kind with
  | identifier name => exact ⟨name, rfl⟩
  | keyword word => cases hkeyword
  | _ => cases hnaming

/-- A keyword that may be negated. -/
def TokenKind.isNegatable : TokenKind → Bool
  | .keyword .between | .keyword .like | .keyword .in | .keyword .member => true
  | _ => false

/-- **The same token is seen in both streams.** The next one is the same, or it is an `AS` in the one and
a name in the other. -/
structure TokenStream.Agrees (a b : TokenStream) : Prop where
  kind : b.kind = a.kind
  currentText : b.currentText = a.currentText
  peek : b.peek.kind = a.peek.kind ∨ a.peek.kind = .keyword .as ∧ b.peek.kind.isNaming = true

namespace TokenStream.Agrees

variable {a b : TokenStream}

/-- Whatever tells `AS` and names apart from nothing finds the same in the next token. -/
theorem peek_eq {α : Type} (h : a.Agrees b) {f : TokenKind → α}
    (hf : ∀ kind : TokenKind, kind.isNaming = true → f kind = f (.keyword .as)) :
    f b.peek.kind = f a.peek.kind := by
  rcases h.peek with hsame | ⟨has, hnaming⟩
  · rw [hsame]
  · rw [has, hf _ hnaming]

theorem peek_leftParen (h : a.Agrees b) :
    (b.peek.kind != .leftParen) = (a.peek.kind != .leftParen) :=
  h.peek_eq (f := (· != .leftParen)) fun kind hkind => by
    cases kind <;> first | rfl | cases hkind

theorem identifier? (h : a.Agrees b) : b.identifier? = a.identifier? := by
  unfold TokenStream.identifier?
  rw [h.kind, h.currentText, h.peek_leftParen]

theorem trigger? (h : a.Agrees b) : Parse.trigger? b = Parse.trigger? a := by
  unfold Parse.trigger?
  rw [h.kind, h.peek_leftParen]

theorem atNegatedWord (h : a.Agrees b) : Parse.atNegatedWord b = Parse.atNegatedWord a := by
  unfold Parse.atNegatedWord TokenStream.checkKeyword
  rw [h.kind]
  refine congrArg (_ && ·) (h.peek_eq (f := TokenKind.isNegatable)
    (TokenKind.forall_naming (fun _ => rfl) fun word hword => ?_))
  cases word <;> first | rfl | cases hword

end TokenStream.Agrees

namespace Parse

/-- The tokens up to a position that are not omitted, counted. -/
def Env.kept (env : Env) (omits : Token → Bool) (i : Nat) : Nat :=
  ((env.tokens.toList.take i).filter (!omits ·)).length

/-- The token at a position is omitted. -/
def Env.Omits (env : Env) (omits : Token → Bool) (i : Nat) : Prop :=
  ∃ hi : i < env.tokens.size, omits env.tokens[i] = true

/-- **The surroundings of two runs**: over a text, and over the same text without some of its `AS`, each
of which stands in front of a name. -/
structure Env.Elided (a b : Env) (omits : Token → Bool) : Prop where
  inOrder : a.InOrder
  tokens : b.tokens.toList.map (Token.spelled b.source) =
    (a.tokens.toList.filter (!omits ·)).map (Token.spelled a.source)
  isAs : ∀ {i}, a.Omits omits i → TokenStream.kind ⟨a.source, a.tokens, i⟩ = .keyword .as
  isNaming : ∀ {i}, a.Omits omits i →
    (TokenStream.kind ⟨a.source, a.tokens, i + 1⟩).isNaming = true
  grammarLeft : a.grammar = .standard
  grammarRight : b.grammar = .standard

namespace Env

variable {a b : Env} {omits : Token → Bool} {i j : Nat}

theorem Omits.lt (h : a.Omits omits i) : i < a.tokens.size := h.1

theorem kept_succ (hi : i < a.tokens.size) : a.kept omits (i + 1) =
    a.kept omits i + if omits a.tokens[i] = true then 0 else 1 := by
  rw [kept, kept, List.take_succ_eq_append_getElem (by simpa using hi), List.filter_append,
    List.length_append, Array.getElem_toList]
  cases hc : omits a.tokens[i] <;> simp [hc]

theorem kept_succ_of_omits (h : a.Omits omits i) : a.kept omits (i + 1) = a.kept omits i := by
  obtain ⟨hi, homits⟩ := h
  rw [kept_succ hi, if_pos homits, Nat.add_zero]

theorem kept_succ_of_not_omits (hi : i < a.tokens.size) (h : ¬a.Omits omits i) :
    a.kept omits (i + 1) = a.kept omits i + 1 := by
  rw [kept_succ hi, if_neg fun homits => h ⟨hi, homits⟩]

theorem kept_mono (hij : i ≤ j) : a.kept omits i ≤ a.kept omits j := by
  obtain ⟨n, rfl⟩ := Nat.exists_eq_add_of_le hij
  rw [kept, kept, List.take_add, List.filter_append, List.length_append]
  exact Nat.le_add_right _ _

namespace Elided

variable (h : a.Elided b omits)

include h

theorem size_eq : b.tokens.size = a.kept omits a.tokens.size := by
  have hlength := congrArg List.length h.tokens
  rw [List.length_map, List.length_map, Array.length_toList] at hlength
  rw [kept, hlength, List.take_of_length_le (by simp)]

/-- **A token that is not omitted is found in the other text.** -/
theorem tokenAt_kept (hi : i < a.tokens.size) (hkept : ¬a.Omits omits i) :
    b.TokenAt (a.kept omits i) (a.tokens[i].spelled a.source) := by
  have hfalse : omits a.tokens[i] = false := Bool.eq_false_iff.mpr fun homits => hkept ⟨hi, homits⟩
  have hlt : a.kept omits i < b.tokens.size := by
    have hle : a.kept omits (i + 1) ≤ a.kept omits a.tokens.size := kept_mono hi
    rw [kept_succ_of_not_omits hi hkept] at hle
    rw [h.size_eq]
    exact hle
  refine ⟨hlt, ?_⟩
  have hsplit : a.tokens.toList = a.tokens.toList.take i ++ (a.tokens[i] ::
      a.tokens.toList.drop (i + 1)) := by
    have hdrop : a.tokens.toList.drop i = a.tokens[i] :: a.tokens.toList.drop (i + 1) := by
      rw [List.drop_eq_getElem_cons (by simpa using hi)]
      rfl
    rw [← hdrop, List.take_append_drop]
  have hget : (b.tokens.toList.map (Token.spelled b.source))[a.kept omits i]? =
      some (a.tokens[i].spelled a.source) := by
    rw [h.tokens, hsplit, List.filter_append, List.map_append,
      List.getElem?_append_right (by rw [List.length_map, kept])]
    have hsub : a.kept omits i -
        (((a.tokens.toList.take i).filter (!omits ·)).map (Token.spelled a.source)).length = 0 := by
      rw [List.length_map, kept, Nat.sub_self]
    rw [hsub, List.filter_cons_of_pos (by simp [hfalse]), List.map_cons]
    rfl
  rw [List.getElem?_map, List.getElem?_eq_getElem (by simpa using hlt), Option.map_some,
    Option.some_inj] at hget
  simpa using hget

/-- Behind an omitted `AS` there is a name, and that is not omitted. -/
theorem succ_of_omits (homits : a.Omits omits i) :
    i + 1 < a.tokens.size ∧ ¬a.Omits omits (i + 1) := by
  refine ⟨h.inOrder.succ_lt homits.lt ?_, fun hnext => ?_⟩
  · rw [h.isAs homits]
    rintro ⟨⟩
  · exact TokenKind.ne_as_of_isNaming (h.isNaming homits) (h.isAs hnext)

/-- The place of a token is among the tokens of the other text. -/
theorem kept_lt (hi : i < a.tokens.size) : a.kept omits i < b.tokens.size := by
  by_cases homits : a.Omits omits i
  · rw [← kept_succ_of_omits homits]
    obtain ⟨hnext, hkept⟩ := h.succ_of_omits homits
    exact (h.tokenAt_kept hnext hkept).1
  · exact (h.tokenAt_kept hi homits).1

/-- **Where an `AS` is omitted**, the other run sees the name behind it. -/
theorem kind_of_omits (homits : a.Omits omits i) :
    (TokenStream.kind ⟨b.source, b.tokens, a.kept omits i⟩).isNaming = true := by
  obtain ⟨hnext, hkept⟩ := h.succ_of_omits homits
  have hkind := (h.tokenAt_kept hnext hkept).kind_eq
  rw [kept_succ_of_omits homits] at hkind
  rw [hkind]
  have hnaming := h.isNaming homits
  rwa [TokenStream.kind, InOrder.current_eq hnext] at hnaming

/-- A token that is not omitted is the same in both texts. -/
theorem kind_kept (hi : i < a.tokens.size) (hkept : ¬a.Omits omits i) :
    TokenStream.kind ⟨b.source, b.tokens, a.kept omits i⟩ =
      TokenStream.kind ⟨a.source, a.tokens, i⟩ := by
  rw [(h.tokenAt_kept hi hkept).kind_eq, TokenStream.kind, InOrder.current_eq hi]

/-- **What tells `AS` and names apart from nothing** is the same in both texts. -/
theorem isKind {α : Type} (hi : i < a.tokens.size) {f : TokenKind → α}
    (hf : ∀ kind : TokenKind, kind.isNaming = true → f kind = f (.keyword .as)) :
    f (TokenStream.kind ⟨b.source, b.tokens, a.kept omits i⟩) =
      f (TokenStream.kind ⟨a.source, a.tokens, i⟩) := by
  by_cases homits : a.Omits omits i
  · rw [h.isAs homits]
    exact hf _ (h.kind_of_omits homits)
  · rw [h.kind_kept hi homits]

/-- **Elsewhere it sees the same token.** -/
theorem stream_kept (hi : i < a.tokens.size) (hkept : ¬a.Omits omits i) :
    TokenStream.Agrees ⟨a.source, a.tokens, i⟩ ⟨b.source, b.tokens, a.kept omits i⟩ := by
  have hsucc := kept_succ_of_not_omits hi hkept
  refine ⟨h.kind_kept hi hkept, ?_, ?_⟩
  · rw [(h.tokenAt_kept hi hkept).currentText_eq, TokenStream.currentText, InOrder.current_eq hi]
  rw [peek_kind, peek_kind, ← hsucc]
  rcases Nat.lt_or_ge (i + 1) a.tokens.size with hnext | hlast
  · by_cases homits : a.Omits omits (i + 1)
    · exact .inr ⟨h.isAs homits, h.kind_of_omits homits⟩
    · exact .inl (h.kind_kept hnext homits)
  · -- both streams are at their last token, and peek at that
    have hsize : b.tokens.size = a.kept omits (i + 1) := by
      rw [h.size_eq, show a.tokens.size = i + 1 by omega]
    have hback : ∀ {env : Env} {n : Nat} (hn : n < env.tokens.size), env.tokens.size = n + 1 →
        TokenStream.kind ⟨env.source, env.tokens, n + 1⟩ = env.tokens[n].kind := by
      intro env n hn hlast
      show (((env.tokens[n + 1]?).or env.tokens.back?).getD TokenStream.noToken).kind = _
      rw [Array.getElem?_eq_none (Nat.le_of_eq hlast), Array.back?_eq_getElem?,
        show env.tokens.size - 1 = n by omega, Array.getElem?_eq_getElem hn]
      rfl
    obtain ⟨hlt, hspelled⟩ := h.tokenAt_kept hi hkept
    refine .inl ?_
    rw [hsucc, hback hlt (by rw [hsize, hsucc]), hback hi (by omega)]
    exact congrArg Prod.fst hspelled

/-- **A move over a token that is not omitted** is the same move in both runs. -/
theorem advance_kept (hi : i < a.tokens.size) (hkept : ¬a.Omits omits i) :
    (TokenStream.advance ⟨b.source, b.tokens, a.kept omits i⟩).position =
      a.kept omits (TokenStream.advance ⟨a.source, a.tokens, i⟩).position := by
  have hsucc := kept_succ_of_not_omits hi hkept
  have hlt := h.kept_lt hi
  rw [TokenStream.position_advance _ (by simp only; omega),
    TokenStream.position_advance _ (by simp only; omega)]
  simp only
  rcases Nat.lt_or_ge (i + 1) a.tokens.size with hnext | hlast
  · have hmore := h.kept_lt hnext
    rw [show min (i + 1) (a.tokens.size - 1) = i + 1 by omega]
    omega
  · have hsize : b.tokens.size = a.kept omits i + 1 := by
      rw [h.size_eq, ← hsucc, show a.tokens.size = i + 1 by omega]
    rw [show min (i + 1) (a.tokens.size - 1) = i by omega]
    omega

/-- Of two positions, with a token between them that is not omitted, the places differ. -/
theorem kept_lt_kept (hij : i < j) (hj : j ≤ a.tokens.size)
    (hnext : a.Omits omits i → i + 1 < j) : a.kept omits i < a.kept omits j := by
  have hi : i < a.tokens.size := Nat.lt_of_lt_of_le hij hj
  by_cases homits : a.Omits omits i
  · obtain ⟨hlt, hkept⟩ := h.succ_of_omits homits
    have hmono : a.kept omits (i + 1 + 1) ≤ a.kept omits j := kept_mono (hnext homits)
    rw [kept_succ_of_not_omits hlt hkept, kept_succ_of_omits homits] at hmono
    exact hmono
  · have hmono : a.kept omits (i + 1) ≤ a.kept omits j := kept_mono hij
    rw [kept_succ_of_not_omits hi homits] at hmono
    exact hmono

end Elided

end Env

end Parse

end Jpql
