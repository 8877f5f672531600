import Jpql.Proofs.Layout.Stream
import Jpql.Proofs.Token.Piece

/-! # Texts with other tokens

Something else is written for the tokens of a text, while the gaps between them are kept
(`Text.rewritten`). If what is written for one token can be read wherever the token stood
(`Piece.Rewrites`), then the whole text is read as what was written (`Piece.Rewrites.tokenize`). -/

namespace Jpql

/-- **The token behind a text.** -/
def Token.last (source : String) : Token := ⟨.eof, .point (Text.byteLength source.toList)⟩

theorem Token.text_last (source : String) : (Token.last source).text source = "" := by
  have hslice := Text.slice_append source.toList [] []
  rwa [List.append_nil, List.append_nil, String.ofList_toList] at hslice

/-- Tokens are spelled as the lexemes that they stand for. -/
theorem Token.map_spelled {source : String} {tokens : List Token} {ws : List Lexeme}
    (h : List.Forall₂ (Token.Shows source) tokens ws) :
    tokens.map (Token.spelled source) = ws.map fun w => (w.kind, String.ofList w.chars) := by
  induction h with
  | nil => rfl
  | cons h _ ih => rw [List.map_cons, List.map_cons, ih, Token.spelled, h.kind, h.text]

namespace Text

variable (source : String) (write : Token → String)

/-- What is written for some tokens and the gaps in front of them, from an offset on. -/
def rewrittenFrom : (offset : Nat) → List Token → String
  | _, [] => ""
  | offset, token :: tokens =>
    slice source ⟨offset, token.span.start⟩ ++ write token ++ rewrittenFrom token.span.stop tokens

/-- **The text with something else written for its tokens.** All gaps are kept. -/
def rewritten : String := rewrittenFrom source write 0 (tokenize source).tokens

end Text

namespace Piece

/-- **What is written for a token is made of pieces**, with the lexemes that are to be read. What follows
the token may have been rewritten before. -/
def Rewrites (source : String) (write : Token → String)
    (reads : Token → List (TokenKind × String)) : Prop :=
  ∀ {p : Piece} {token : Token}, token.kind = p.kind → token.text source = String.ofList p.chars →
    ∀ {after : List Char}, Scan.lexeme? (p.chars ++ after) = some (p.kind, p.chars.length) →
    ∀ {gap lead : List Char}, (∀ c ∈ gap, Scan.isGap c = true) → (∀ c ∈ lead, Scan.isGap c = true) →
    ∀ {qs : List Piece}, Fit qs → Scan.Resumes after (lead ++ render qs) →
    ∃ lead' qs', gap ++ (write token).toList ++ (lead ++ render qs) = lead' ++ render qs' ∧
      (∀ c ∈ lead', Scan.isGap c = true) ∧ Fit qs' ∧
      qs'.map (fun q => (q.kind, String.ofList q.chars)) =
        reads token ++ qs.map (fun q => (q.kind, String.ofList q.chars)) ∧
      Scan.Resumes (gap ++ (p.chars ++ after)) (lead' ++ render qs')

namespace Rewrites

variable {source : String} {write : Token → String} {reads : Token → List (TokenKind × String)}

/-- **What is written for a text of pieces** is such a text. -/
theorem exists_rewrittenFrom (h : Rewrites source write reads)
    (hend : write (Token.last source) = "") {ps : List Piece} (hfit : Fit ps) {gap : List Char}
    (hgap : ∀ c ∈ gap, Scan.isGap c = true) (before : List Char)
    (hsource : source = String.ofList (before ++ (gap ++ render ps))) :
    ∃ lead qs, (Text.rewrittenFrom source write (Text.byteLength before)
        (tokens (Text.byteLength before + Text.byteLength gap) ps ++ [Token.last source])).toList =
          lead ++ render qs ∧
      (∀ c ∈ lead, Scan.isGap c = true) ∧ Fit qs ∧
      qs.map (fun q => (q.kind, String.ofList q.chars)) =
        (tokens (Text.byteLength before + Text.byteLength gap) ps).flatMap reads ∧
      Scan.Resumes (gap ++ render ps) (lead ++ render qs) := by
  have hslice : ∀ {a b c : List Char}, source = String.ofList (a ++ (b ++ c)) →
      Text.slice source ⟨Text.byteLength a, Text.byteLength a + Text.byteLength b⟩ =
        String.ofList b := fun {a b c} heq => by
    rw [heq, ← List.append_assoc]
    exact Text.slice_append a b c
  induction hfit generalizing gap before with
  | nil =>
    have hlength : Text.byteLength source.toList = Text.byteLength before + Text.byteLength gap := by
      rw [hsource, String.toList_ofList, render, List.append_nil, Text.byteLength_append]
    refine ⟨gap, [], ?_, hgap, .nil, rfl, .append (.of_gap _ fun c hc => by cases hc) _⟩
    have hgapText := hslice hsource
    rw [tokens, List.nil_append, Text.rewrittenFrom, Text.rewrittenFrom, hend]
    show (Text.slice source ⟨Text.byteLength before, Text.byteLength source.toList⟩ ++ "" ++ "").toList = _
    rw [hlength, hgapText]
    simp [render]
  | @cons p ps hl hpgap hfit ih =>
    have hchars := hslice (a := before ++ gap) (b := p.chars) (c := p.gap ++ render ps) (by
      rw [hsource, render, List.append_assoc])
    have hnext : Text.byteLength (before ++ gap ++ p.chars) + Text.byteLength p.gap =
        Text.byteLength before + Text.byteLength gap + Text.byteLength (p.chars ++ p.gap) := by
      simp only [Text.byteLength_append, Nat.add_assoc]
    obtain ⟨lead, qs, htext, hlead, hqs, htokens, hresumes⟩ :=
      ih hpgap (before ++ gap ++ p.chars) (by rw [hsource, render]; simp only [List.append_assoc])
    rw [hnext] at htext htokens
    rw [Text.byteLength_append, Text.byteLength_append] at htext
    rw [Text.byteLength_append] at hchars
    obtain ⟨lead', qs', htext', hlead', hqs', htokens', hresumes'⟩ :=
      h (show (⟨p.kind, ⟨_, _⟩⟩ : Token).kind = p.kind from rfl) hchars hl hgap hlead hqs hresumes
    refine ⟨lead', qs', ?_, hlead', hqs', ?_, hresumes'⟩
    · rw [← htext', tokens, List.cons_append, Text.rewrittenFrom, hslice hsource]
      simp only [String.toList_append, String.toList_ofList, htext]
    · rw [htokens', htokens, tokens, List.flatMap_cons]

/-- **A rewritten text is read as what was written**, without lexical problems, if there were none
before. -/
theorem tokenize (h : Rewrites source write reads) (hend : write (Token.last source) = "")
    (hreads : reads (Token.last source) = [(.eof, "")])
    (hclean : (Jpql.tokenize source).problems = []) :
    (Jpql.tokenize (Text.rewritten source write)).problems = [] ∧
      (Jpql.tokenize (Text.rewritten source write)).tokens.map
          (Token.spelled (Text.rewritten source write)) =
        (Jpql.tokenize source).tokens.flatMap reads := by
  obtain ⟨gap, ps, hsource, hgap, hps⟩ := Scan.exists_fit source.toList 0 hclean
  have htokens := tokenize_of_fit source hgap hps hsource
  obtain ⟨lead, qs, htext, hlead, hqs, hspelled, -⟩ := h.exists_rewrittenFrom hend hps hgap [] (by
    rw [List.nil_append, ← hsource, String.ofList_toList])
  rw [Text.byteLength_nil, Nat.zero_add] at htext hspelled
  have hrewritten : (Text.rewritten source write).toList = lead ++ render qs := by
    rw [Text.rewritten, htokens]
    exact htext
  have hlexed := tokenize_of_fit (Text.rewritten source write) hlead hqs hrewritten
  have hlast : Token.spelled (Text.rewritten source write) (Token.last (Text.rewritten source write)) =
      (.eof, "") := congrArg (TokenKind.eof, ·) (Token.text_last _)
  refine ⟨by rw [hlexed], ?_⟩
  have hshows := tokens_shows qs lead []
  rw [List.append_nil, ← hrewritten, String.ofList_toList] at hshows
  rw [hlexed, htokens, List.flatMap_append, List.flatMap_singleton, ← Token.last, ← Token.last, hreads,
    ← hspelled, List.map_append, List.map_singleton, hlast, Token.map_spelled hshows, List.map_map]
  rfl

end Rewrites

end Piece

end Jpql
