import Jpql.Proofs.Alias.Token
import Jpql.Proofs.Layout.Rewrite
import Jpql.Proofs.Token.Spelling

/-! # Writing the alias into a text

`Tree.aliasedText` puts the alias into the text of a statement: behind the name of the entity, and with a
dot in front of each name at which a path starts. What is written stands apart from what was there, so
that no token runs into another (`Tree.spellsAliased_aliasedText`). -/

namespace Jpql

namespace Scan

/-- A name starts like a word. -/
theorem exists_cons_of_isNaming {cs : List Char} {kind : TokenKind} {n : Nat}
    (h : lexeme? cs = some (kind, n)) (hkind : kind.isNaming = true) :
    ∃ c rest, cs = c :: rest ∧ isWordStart c = true := by
  unfold lexeme? at h
  split at h
  · cases h
  · obtain ⟨_, -, heq⟩ := Option.map_eq_some_iff.mp h
    cases heq
    cases hkind
  · split at h <;> cases h
    cases hkind
  · split at h <;> cases h
    cases hkind
  · split at h
    · next hlength =>
      cases cs with
      | nil => cases hlength
      | cons c rest =>
        refine ⟨c, rest, rfl, ?_⟩
        rw [wordLength] at hlength
        split at hlength
        · assumption
        · cases hlength
    · split at h
      · cases h
        cases hkind
      · cases h
        cases hkind
      · unfold symbol? at h
        split at h <;> cases h <;> cases hkind

/-- A dot in front of a word is a token of its own. -/
theorem lexeme?_dot {c : Char} (hc : isWordStart c = true) (rest : List Char) :
    lexeme? ('.' :: c :: rest) = some (.dot, 1) := by
  have hdigit : c.isDigit = false := by
    refine Bool.eq_false_iff.mpr fun hdigit => ?_
    rw [(isDigit_cases hdigit).1] at hc
    cases hc
  have hnumber : number? ('.' :: c :: rest) = none := by
    simp [number?, digitCount, markLength, hdigit]
  rw [lexeme?_plain (by decide) (by decide) (by decide), hnumber]
  rfl

end Scan

namespace Tree

variable (tree : Tree) (v : String)

/-- **What is written for a token** where the alias is written out. -/
def written (token : Token) : String :=
  if tree.startsPath token then " " ++ v ++ "." ++ token.text tree.source
  else if tree.startsEntity token then token.text tree.source ++ " " ++ v ++ " "
  else token.text tree.source

/-- What is written for some tokens and the gaps in front of them, from an offset on. -/
def writtenFrom : (offset : Nat) → List Token → String
  | _, [] => ""
  | offset, token :: tokens =>
    Text.slice tree.source ⟨offset, token.span.start⟩ ++ tree.written v token ++
      writtenFrom token.span.stop tokens

/-- **The text with the alias written out.** All gaps are kept. -/
def aliasedText : String := tree.writtenFrom v 0 (tokenize tree.source).tokens

/-- **The text spells the statement with its alias**, with gaps wherever they do not matter. -/
def SpellsAliased (text : String) : Prop :=
  (tokenize text).problems = [] ∧
    (tokenize text).tokens.map (Token.spelled text) = tree.aliasedTokens v

instance (tree : Tree) (v text : String) : Decidable (tree.SpellsAliased v text) :=
  inferInstanceAs (Decidable (_ ∧ _))

variable {tree}

/-- The alias is read in front of anything that is no part of a word. -/
theorem lexeme?_alias (v : Name) {rest : List Char} (hrest : ∀ c ∈ rest.head?, Scan.isWordPart c = false) :
    Scan.lexeme? (v.text.toList ++ rest) = some (.identifier v.text, v.text.toList.length) := by
  rw [Scan.lexeme?_word_append v.isWord hrest, String.ofList_toList, Scan.wordKind, v.notKeyword]

/-- **What is written for a token can be read**, with the alias where that is called for. -/
theorem rewrites_written (v : Name) :
    Piece.Rewrites tree.source (tree.written v.text) (tree.withAlias v.text) := by
  intro p token hkind htext after hl gap lead hgap hlead qs hfit hresumes
  have hspelled : token.spelled tree.source = (p.kind, String.ofList p.chars) := by
    rw [Token.spelled, hkind, htext]
  have hspace : ∀ c : Char, c = ' ' → Scan.isGap c = true := fun c hc => by rw [hc]; rfl
  have hread := hresumes.lexeme?_eq hl
  rw [written, withAlias, htext, hspelled]
  split
  · next hpath =>
    -- the alias and a dot stand in front of the name
    rw [startsPath, Bool.and_eq_true, hkind] at hpath
    obtain ⟨c, rest, hc, hstart⟩ := Scan.exists_cons_of_isNaming hread hpath.1
    refine ⟨gap ++ [' '], ⟨⟨.identifier v.text, v.text.toList⟩, []⟩ :: ⟨.dot, []⟩ ::
      ⟨p.toLexeme, lead⟩ :: qs, ?_, ?_, .cons ?_ (List.forall_mem_nil _) (.cons ?_
        (List.forall_mem_nil _) (.cons hread hlead hfit)), ?_, ?_⟩
    · simp [Piece.render, Lexeme.dot]
    · simpa [or_imp, forall_and] using ⟨hgap, hspace _ rfl⟩
    · exact lexeme?_alias v fun c hc => by
        obtain rfl := Option.some.inj hc
        rfl
    · show Scan.lexeme? ('.' :: (p.chars ++ (lead ++ Piece.render qs))) = _
      rw [hc]
      exact Scan.lexeme?_dot hstart rest
    · simp [Lexeme.dot]
    · exact ⟨gap, p.chars ++ after, ' ' :: _, rfl, by rw [List.append_assoc]; rfl,
        fun c hc => hspace c (Option.some.inj hc).symm⟩
  · split
    · -- the alias stands behind the name of the entity
      have hspaced : ∀ rest : List Char, Scan.Resumes after (' ' :: rest) := fun rest =>
        .of_gap _ fun c hc => hspace c (Option.some.inj hc).symm
      refine ⟨gap, ⟨p.toLexeme, [' ']⟩ :: ⟨⟨.identifier v.text, v.text.toList⟩, ' ' :: lead⟩ :: qs,
        ?_, hgap, .cons ((hspaced _).lexeme?_eq hl) (by simp [hspace]) (.cons ?_ ?_ hfit), ?_,
        ((hspaced _).append p.chars).append gap⟩
      · simp [Piece.render]
      · exact lexeme?_alias v fun c hc => by
          obtain rfl := Option.some.inj hc
          rfl
      · simpa [hspace] using hlead
      · simp
    · refine ⟨gap, ⟨p.toLexeme, lead⟩ :: qs, ?_, hgap, .cons hread hlead hfit, rfl,
        (hresumes.append p.chars).append gap⟩
      simp [Piece.render]

theorem writtenFrom_eq (v : String) (offset : Nat) (tokens : List Token) :
    tree.writtenFrom v offset tokens = Text.rewrittenFrom tree.source (tree.written v) offset tokens := by
  induction tokens generalizing offset with
  | nil => rfl
  | cons token tokens ih => rw [writtenFrom, ih, Text.rewrittenFrom]

/-- **With the alias written into it the text spells the statement with its alias**, if it has no lexical
problems itself. -/
theorem spellsAliased_aliasedText (v : Name) (h : (tokenize tree.source).problems = []) :
    tree.SpellsAliased v.text (tree.aliasedText v.text) := by
  have hend := Token.text_last tree.source
  rw [aliasedText, writtenFrom_eq]
  refine Piece.Rewrites.tokenize (rewrites_written v) hend ?_ h
  show [Token.spelled tree.source (Token.last tree.source)] = _
  rw [Token.spelled, hend]
  rfl

end Tree

end Jpql
