import Jpql.Proofs.Token.Partition
import Mathlib.Data.List.Forall2

/-! # Tokens read by themselves

Which token stands at a place depends on what follows it there. Once it is found, its text is that
token by itself, and next to any other token that a space keeps apart.

* `lexeme_isRead`: each token of a text, whatever the problems of the text, can be read by itself.
* `spacedWords`: the tokens of a text with single spaces between them. `tokenize_spacedWords`: they
  are read as the same tokens.
* `quoted`: a value as a string literal. `tokenize_quoted`: it is read as that value, and every string
  literal is written so. -/

namespace Jpql

/-! ## Lexemes of a text -/

/-- Behind the words of a text there is its end. -/
theorem tokens_eq_words (source : String) : (tokenize source).tokens =
    (tokenize source).words ++ [⟨.eof, .point (Text.byteLength source.toList)⟩] := by
  obtain ⟨parts, hparts, hscan⟩ := Scan.scan_divides 0 source.toList
  rw [Nat.zero_add] at hscan
  rw [tokenize, hscan, Scan.words_collect hparts]
  rfl

/-- **Each token of a text can be read by itself.** -/
theorem lexeme_isRead {source : String} {token : Token} (hmem : token ∈ (tokenize source).words) :
    (token.lexeme source).IsRead := by
  obtain ⟨parts, hparts, hscan⟩ := Scan.scan_divides 0 source.toList
  rw [tokenize, hscan, Scan.words_collect hparts] at hmem
  obtain ⟨written, rest, htext, hkind⟩ := hparts.lexeme_of_mem [] (Scan.word_of_mem hmem)
  rw [List.nil_append, String.ofList_toList] at htext
  rw [Token.lexeme, htext, String.toList_ofList]
  -- what stands behind the token does not matter once its length is known
  exact Scan.lexeme?_of_append hkind (Nat.le_refl _)

/-- **A lexeme that can be read is the only token of its text.** -/
theorem Lexeme.IsRead.tokenize {w : Lexeme} (h : w.IsRead) : tokenize (String.ofList w.chars) =
    ⟨[⟨w.kind, ⟨0, Text.byteLength w.chars⟩⟩, ⟨.eof, .point (Text.byteLength w.chars)⟩], []⟩ := by
  have hfit : Piece.Fit [⟨w, []⟩] :=
    .cons (by simpa [Piece.render, IsRead] using h) (List.forall_mem_nil _) .nil
  have htokens := tokenize_of_fit (String.ofList w.chars) (List.forall_mem_nil _) hfit
    (by simp [Piece.render])
  simpa [Piece.tokens] using htokens

/-! ## Single spaces -/

/-- **The tokens of a text**, as they are written, with single spaces between them. -/
def spacedWords (source : String) : String :=
  " ".intercalate ((tokenize source).words.map (·.text source))

theorem spacedWords_eq (source : String) : spacedWords source =
    String.ofList (Lexeme.spaced ((tokenize source).words.map (·.lexeme source))) := by
  have hchars : ((tokenize source).words.map (·.lexeme source)).map Lexeme.chars =
      ((tokenize source).words.map (·.text source)).map String.toList := by
    simp only [List.map_map, Function.comp_def, Token.lexeme]
  rw [← String.toList_inj, String.toList_ofList, Lexeme.spaced, hchars, spacedWords,
    String.toList_intercalate]
  rfl

/-- With single spaces between them the tokens are read as the lexemes they are. -/
theorem words_spacedWords (source : String) : (tokenize (spacedWords source)).problems = [] ∧
    (tokenize (spacedWords source)).words.map (·.lexeme (spacedWords source)) =
      (tokenize source).words.map (·.lexeme source) := by
  have hread : ∀ w ∈ (tokenize source).words.map (·.lexeme source), w.IsRead :=
    List.forall_mem_map.mpr fun _ hmem => lexeme_isRead hmem
  obtain ⟨tokens, stop, htokens, hshows⟩ := tokenize_spaced hread
  rw [← spacedWords_eq] at htokens hshows
  refine ⟨by rw [htokens], ?_⟩
  have hwords := tokens_eq_words (spacedWords source)
  rw [htokens] at hwords ⊢
  rw [← (List.append_inj' hwords rfl).1, ← List.forall₂_eq_eq_eq, List.forall₂_map_left_iff]
  exact hshows.imp fun _ _ h => h.lexeme_eq

/-- **Tokens are read again as they were.** With single spaces between them the tokens of a text, which
may have problems, are read without a problem as tokens of the same kinds, and each by itself is read
as the one token that it is. -/
theorem tokenize_spacedWords (source : String) :
    (tokenize (spacedWords source)).problems = [] ∧
    (tokenize (spacedWords source)).tokens.map (·.kind) = (tokenize source).tokens.map (·.kind) ∧
    ∀ token ∈ (tokenize source).words, tokenize (token.text source) =
      ⟨[⟨token.kind, ⟨0, Text.byteLength (token.text source).toList⟩⟩,
        ⟨.eof, .point (Text.byteLength (token.text source).toList)⟩], []⟩ := by
  obtain ⟨hclean, hlexemes⟩ := words_spacedWords source
  refine ⟨hclean, ?_, fun token hmem => ?_⟩
  · have hkinds := congrArg (List.map Lexeme.kind) hlexemes
    rw [List.map_map, List.map_map] at hkinds
    rw [tokens_eq_words (spacedWords source), tokens_eq_words source, List.map_append, List.map_append]
    exact congrArg (· ++ [TokenKind.eof]) hkinds
  · have halone := (lexeme_isRead hmem).tokenize
    rwa [Token.lexeme, String.ofList_toList] at halone

example : spacedWords "1.5e+x#'a''b'<>=?1Fé:a.5 'open" = "1.5 e + x 'a''b' <> = ?1 F :a .5" := by
  decide +kernel

/-- Nothing is left to change once there are single spaces. -/
theorem spacedWords_spacedWords (source : String) :
    spacedWords (spacedWords source) = spacedWords source := by
  rw [spacedWords_eq (spacedWords source), (words_spacedWords source).2, ← spacedWords_eq]

/-! ## String literals -/

/-- **A value as a string literal**: in quotes, with every quote in it doubled. -/
def quoted (value : String) : String := String.ofList ('\'' :: (Scan.double value.toList ++ ['\'']))

/-- Nothing else than a string literal is read as one. -/
theorem Scan.lexeme?_kind_ne_string {c : Char} {cs : List Char} {kind : TokenKind} {n : Nat}
    (hquote : c ≠ '\'') (h : lexeme? (c :: cs) = some (kind, n)) (value : String) :
    kind ≠ .string value := by
  by_cases hmark : c = '?'
  · subst hmark
    rw [lexeme?] at h
    split at h <;> cases h
    simp
  by_cases hcolon : c = ':'
  · subst hcolon
    rw [lexeme?] at h
    split at h <;> cases h
    simp
  rw [lexeme?_plain hquote hmark hcolon] at h
  split at h
  · obtain ⟨rfl, -⟩ := Prod.mk.inj (Option.some.inj h)
    unfold wordKind
    split <;> simp
  · split at h
    · cases h
      simp
    · cases h
      simp
    · unfold symbol? at h
      split at h <;> cases h <;> simp

/-- **A string literal is written as its value in quotes.** -/
theorem Lexeme.IsRead.eq_string {w : Lexeme} (h : w.IsRead) {value : String}
    (hkind : w.kind = .string value) : w = Lexeme.string value := by
  obtain ⟨kind, chars⟩ := w
  obtain ⟨c, cs, rfl, -⟩ := h.exists_cons
  subst hkind
  by_cases hquote : c = '\''
  · subst hquote
    obtain ⟨value', rest, rfl, hlength, -, heq⟩ := Scan.lexeme?_quote h
    obtain rfl : rest = [] := by
      simpa using hlength
    cases heq
    rw [Lexeme.string, String.toList_ofList]
  · exact absurd rfl (Scan.lexeme?_kind_ne_string hquote h value)

/-- **String literals and their values** determine each other. A value in quotes is read as one string
literal of that value, which takes up the whole text, and a string literal of any text is written as
its value in quotes. -/
theorem tokenize_quoted :
    (∀ value : String, tokenize (quoted value) =
      ⟨[⟨.string value, ⟨0, Text.byteLength (quoted value).toList⟩⟩,
        ⟨.eof, .point (Text.byteLength (quoted value).toList)⟩], []⟩) ∧
    ∀ (source : String), ∀ token ∈ (tokenize source).tokens, ∀ value : String,
      token.kind = .string value → token.text source = quoted value := by
  refine ⟨fun value => ?_, fun source token hmem value hkind => ?_⟩
  · have halone := (Lexeme.isRead_string value).tokenize
    rwa [quoted, String.toList_ofList]
  · have hword : token ∈ (tokenize source).words :=
      List.mem_filter.mpr ⟨hmem, by simp [hkind]⟩
    have hlexeme := (lexeme_isRead hword).eq_string hkind
    rw [quoted, ← String.toList_inj, String.toList_ofList]
    exact congrArg Lexeme.chars hlexeme

example : quoted "'it's" = "'''it''s'" ∧ (tokenize "a='''it''s'").tokens.map (·.kind) =
    [.identifier "a", .equal, .string "'it's", .eof] := by
  decide +kernel

end Jpql
