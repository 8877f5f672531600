import Jpql.Proofs.Token.Context
import Mathlib.Data.List.Forall2

/-! # Texts as pieces

A piece is a lexeme with the gap behind it. A text without lexical problems is a gap and a list of
pieces, and its tokens are those of the pieces.

* `Piece.Fit`: pieces whose lexemes are the tokens of the text they make up.
* `Scan.scan_of_fit`, `Scan.exists_fit`: such a text is cut into the tokens of its pieces, and every
  text without lexical problems is one.
* `Piece.Respaced`: the same lexemes with other gaps, none of them lost. `Piece.Respaced.fit`: they can
  still be read.
* `tokenize_spaced`: lexemes with single spaces between them are read as their tokens.
* `Scan.Cuts`: a text is cut into lexemes from the front, with rules for words, dots and gaps.
  `tokenize_of_cuts`: these are its tokens. -/

namespace Jpql

/-- **A lexeme with the gap behind it.** -/
structure Piece extends Lexeme where
  gap : List Char

namespace Piece

/-- The text of pieces. -/
def render : List Piece → List Char
  | [] => []
  | p :: ps => p.chars ++ (p.gap ++ render ps)

/-- The tokens of pieces, from an offset on. -/
def tokens (offset : Nat) : List Piece → List Token
  | [] => []
  | p :: ps => ⟨p.kind, ⟨offset, offset + Text.byteLength p.chars⟩⟩ ::
      tokens (offset + Text.byteLength (p.chars ++ p.gap)) ps

/-- **Each lexeme is the token at its place**, and what stands between them are gaps. -/
inductive Fit : List Piece → Prop
  | nil : Fit []
  | cons {p : Piece} {ps : List Piece}
      (hl : Scan.lexeme? (p.chars ++ (p.gap ++ render ps)) = some (p.kind, p.chars.length))
      (hgap : ∀ c ∈ p.gap, Scan.isGap c = true) (h : Fit ps) : Fit (p :: ps)

variable {ps qs : List Piece}

theorem render_append (ps qs : List Piece) : render (ps ++ qs) = render ps ++ render qs := by
  induction ps with
  | nil => rfl
  | cons p ps ih => simp only [List.cons_append, render, ih, List.append_assoc]

theorem tokens_append (offset : Nat) (ps qs : List Piece) : tokens offset (ps ++ qs) =
    tokens offset ps ++ tokens (offset + Text.byteLength (render ps)) qs := by
  induction ps generalizing offset with
  | nil => rfl
  | cons p ps ih =>
    simp only [List.cons_append, tokens, ih, render, Text.byteLength_append, Nat.add_assoc]

@[simp] theorem length_tokens (offset : Nat) (ps : List Piece) :
    (tokens offset ps).length = ps.length := by
  induction ps generalizing offset with
  | nil => rfl
  | cons p ps ih => rw [tokens, List.length_cons, ih, List.length_cons]

theorem map_kind_tokens (offset : Nat) (ps : List Piece) :
    (tokens offset ps).map (·.kind) = ps.map (·.kind) := by
  induction ps generalizing offset with
  | nil => rfl
  | cons p ps ih => rw [tokens, List.map_cons, ih, List.map_cons]

/-- The tokens of pieces stand for their lexemes. -/
theorem tokens_shows (ps : List Piece) (before after : List Char) :
    List.Forall₂ (Token.Shows (String.ofList (before ++ (render ps ++ after))))
      (tokens (Text.byteLength before) ps) (ps.map (·.toLexeme)) := by
  induction ps generalizing before with
  | nil => exact .nil
  | cons p ps ih =>
    have hrest := ih (before ++ (p.chars ++ p.gap))
    rw [Text.byteLength_append] at hrest
    refine .cons ⟨rfl, ?_⟩ ?_
    · have hslice := Text.slice_append before p.chars (p.gap ++ (render ps ++ after))
      simpa only [Token.text, render, List.append_assoc] using hslice
    · simpa only [render, List.append_assoc] using hrest

theorem Fit.of_append (h : Fit (ps ++ qs)) : Fit qs := by
  induction ps with
  | nil => exact h
  | cons p ps ih =>
    cases h with
    | cons hl hgap h => exact ih h

/-- No lexeme is empty or starts with a gap. -/
theorem exists_chars {p : Piece} {rest : List Char}
    (hl : Scan.lexeme? (p.chars ++ rest) = some (p.kind, p.chars.length)) :
    ∃ c cs, p.chars = c :: cs ∧ Scan.isGap c = false :=
  Lexeme.IsRead.exists_cons (w := p.toLexeme) (Scan.lexeme?_of_append hl (Nat.le_refl _))

end Piece

namespace Scan

/-- The characters of the token read last are passed over. -/
theorem scan_skip (skipped rest : List Char) (offset : Nat) :
    scan skipped.length offset (skipped ++ rest) =
      scan 0 (offset + Text.byteLength skipped) rest := by
  induction skipped generalizing offset with
  | nil => rfl
  | cons c cs ih =>
    rw [List.length_cons, List.cons_append, scan, ih, Text.byteLength_cons, Nat.add_assoc]

theorem scan_gap {gap : List Char} (hgap : ∀ c ∈ gap, isGap c = true) (rest : List Char)
    (offset : Nat) :
    scan 0 offset (gap ++ rest) = scan 0 (offset + Text.byteLength gap) rest := by
  induction gap generalizing offset with
  | nil => rfl
  | cons c cs ih =>
    rw [List.forall_mem_cons] at hgap
    rw [List.cons_append, scan, if_pos hgap.1, ih hgap.2, Text.byteLength_cons, Nat.add_assoc]

/-- A lexeme becomes a token, and scanning goes on behind it. -/
theorem scan_token {cs rest : List Char} {kind : TokenKind}
    (hl : lexeme? (cs ++ rest) = some (kind, cs.length)) (offset : Nat) :
    scan 0 offset (cs ++ rest) =
      ⟨⟨kind, ⟨offset, offset + Text.byteLength cs⟩⟩ ::
          (scan 0 (offset + Text.byteLength cs) rest).tokens,
        (scan 0 (offset + Text.byteLength cs) rest).problems⟩ := by
  obtain ⟨c, body, rfl, hgap⟩ := Piece.exists_chars (p := ⟨⟨kind, cs⟩, []⟩) hl
  have htake : (c :: (body ++ rest)).take (body.length + 1) = c :: body := by simp
  rw [List.cons_append] at hl ⊢
  rw [scan, if_neg (by rw [hgap]; exact Bool.false_ne_true), hl]
  simp only [List.length_cons, htake, Nat.add_sub_cancel, scan_skip, Text.byteLength_cons,
    Nat.add_assoc]

/-- **A text of pieces is cut into their tokens**, without a problem. -/
theorem scan_of_fit {lead : List Char} (hlead : ∀ c ∈ lead, isGap c = true) {ps : List Piece}
    (h : Piece.Fit ps) (offset : Nat) : scan 0 offset (lead ++ Piece.render ps) =
      ⟨Piece.tokens (offset + Text.byteLength lead) ps ++
        [⟨.eof, .point (offset + Text.byteLength (lead ++ Piece.render ps))⟩], []⟩ := by
  rw [scan_gap hlead, Text.byteLength_append, ← Nat.add_assoc]
  generalize offset + Text.byteLength lead = start
  induction h generalizing start with
  | nil => rfl
  | @cons p ps hl hgap h ih =>
    rw [Piece.render, scan_token hl, scan_gap hgap, ih, Piece.tokens]
    simp only [Text.byteLength_append, List.cons_append, Nat.add_assoc]

end Scan

/-- **The tokens of a text are those of its pieces**, and then the end. -/
theorem tokenize_of_fit (source : String) {lead : List Char} {ps : List Piece}
    (hlead : ∀ c ∈ lead, Scan.isGap c = true) (h : Piece.Fit ps)
    (hsource : source.toList = lead ++ Piece.render ps) : tokenize source =
      ⟨Piece.tokens (Text.byteLength lead) ps ++
        [⟨.eof, .point (Text.byteLength source.toList)⟩], []⟩ := by
  have hscan := Scan.scan_of_fit hlead h 0
  rwa [← hsource, Nat.zero_add, Nat.zero_add] at hscan

namespace Scan

/-- **A text without lexical problems is made of pieces.** -/
theorem exists_fit (cs : List Char) (offset : Nat) (h : (scan 0 offset cs).problems = []) :
    ∃ lead ps, cs = lead ++ Piece.render ps ∧ (∀ c ∈ lead, isGap c = true) ∧ Piece.Fit ps := by
  match cs with
  | [] => exact ⟨[], [], rfl, List.forall_mem_nil _, .nil⟩
  | c :: cs =>
    unfold scan at h
    dsimp only at h
    split at h
    · next hgap =>
      obtain ⟨lead, ps, rfl, hlead, hps⟩ := exists_fit cs _ h
      exact ⟨c :: lead, ps, rfl, List.forall_mem_cons.mpr ⟨hgap, hlead⟩, hps⟩
    · split at h
      · next kind n hl =>
        obtain ⟨m, rfl⟩ : ∃ m, n = m + 1 := by
          obtain ⟨-, front, last, htake, -⟩ := lexeme?_last hl
          cases n with
          | zero => exact absurd htake (by simp)
          | succ m => exact ⟨m, rfl⟩
        have hlength : (cs.take m).length = m :=
          List.length_take_of_le (Nat.le_of_succ_le_succ (lexeme?_le hl))
        -- the token takes up `m` more characters, and scanning goes on behind them
        have hskip := scan_skip (cs.take m) (cs.drop m) (offset + c.utf8Size)
        rw [hlength, List.take_append_drop] at hskip
        rw [Nat.add_sub_cancel, hskip] at h
        obtain ⟨gap, ps, hrest, hgap, hps⟩ := exists_fit (cs.drop m) _ h
        have hwhole : cs = cs.take m ++ (gap ++ Piece.render ps) := by
          rw [← hrest, List.take_append_drop]
        refine ⟨[], ⟨⟨kind, c :: cs.take m⟩, gap⟩ :: ps, ?_, List.forall_mem_nil _, ?_⟩
        · exact congrArg (c :: ·) hwhole
        · refine .cons ?_ hgap hps
          show lexeme? (c :: (cs.take m ++ (gap ++ Piece.render ps))) = _
          rw [← hwhole, hl, List.length_cons, hlength]
      · split at h <;> cases h
termination_by cs.length
decreasing_by
  all_goals simp only [List.length_cons, List.length_drop]; omega

end Scan

namespace Piece

/-! ## Other gaps -/

/-- **The same lexemes with other gaps.** A gap may go only behind the last of them. -/
inductive Respaced : List Piece → List Piece → Prop
  | nil : Respaced [] []
  | cons {w : Lexeme} {gap gap' : List Char} {ps qs : List Piece}
      (hgap : ∀ c ∈ gap', Scan.isGap c = true) (hkept : gap' = [] → gap = [] ∨ qs = [])
      (h : Respaced ps qs) : Respaced (⟨w, gap⟩ :: ps) (⟨w, gap'⟩ :: qs)

namespace Respaced

variable {ps qs : List Piece}

theorem map_kind (h : Respaced ps qs) : qs.map (·.kind) = ps.map (·.kind) := by
  induction h with
  | nil => rfl
  | cons _ _ _ ih => rw [List.map_cons, ih, List.map_cons]

/-- The new text behind a lexeme resumes the old one. -/
theorem resumes_gap {gap gap' : List Char} (hgap : ∀ c ∈ gap', Scan.isGap c = true)
    (hkept : gap' = [] → gap = [] ∨ qs = []) (h : Scan.Resumes (render ps) (render qs)) :
    Scan.Resumes (gap ++ render ps) (gap' ++ render qs) := by
  cases gap' with
  | cons g gap' => exact .of_gap _ fun c hc => hgap c (List.mem_of_mem_head? hc)
  | nil =>
    rcases hkept rfl with rfl | rfl
    · exact h
    · exact .of_gap _ fun c hc => by cases hc

theorem resumes (h : Respaced ps qs) : Scan.Resumes (render ps) (render qs) := by
  induction h with
  | nil => exact .of_gap _ fun c hc => by cases hc
  | cons hgap hkept _ ih => exact (resumes_gap hgap hkept ih).append _

/-- **With other gaps the lexemes can still be read.** -/
theorem fit (h : Respaced ps qs) (hps : Fit ps) : Fit qs := by
  induction h with
  | nil => exact .nil
  | cons hgap hkept h ih =>
    cases hps with
    | cons hl _ hps => exact .cons ((resumes_gap hgap hkept h.resumes).lexeme?_eq hl) hgap (ih hps)

end Respaced

end Piece

/-! ## Single spaces -/

namespace Lexeme

/-- Lexemes with single spaces between them. -/
def spaced (ws : List Lexeme) : List Char := [' '].intercalate (ws.map (·.chars))

/-- **Lexemes with single spaces between them** are pieces, if each can be read by itself. -/
theorem exists_fit_spaced {ws : List Lexeme} (h : ∀ w ∈ ws, w.IsRead) :
    ∃ ps, Piece.Fit ps ∧ Piece.render ps = spaced ws ∧ ps.map (·.toLexeme) = ws := by
  induction ws with
  | nil => exact ⟨[], .nil, rfl, rfl⟩
  | cons w ws ih =>
    rw [List.forall_mem_cons] at h
    obtain ⟨ps, hps, htext, hws⟩ := ih h.2
    cases ws with
    | nil =>
      refine ⟨[⟨w, []⟩], .cons ?_ (List.forall_mem_nil _) .nil, ?_, rfl⟩
      · simpa [Piece.render, IsRead] using h.1
      · simp [Piece.render, spaced]
    | cons next ws =>
      refine ⟨⟨w, [' ']⟩ :: ps, .cons ?_ (by simp [Scan.isGap]) hps, ?_, by rw [List.map_cons, hws]⟩
      · exact Scan.lexeme?_append_gap rfl w.chars (Piece.render ps) h.1
      · rw [Piece.render, htext]
        simp [spaced, List.intercalate_cons_cons]

end Lexeme

/-- **Lexemes with single spaces between them are read as their tokens**, without a problem. -/
theorem tokenize_spaced {ws : List Lexeme} (h : ∀ w ∈ ws, w.IsRead) :
    ∃ tokens stop, tokenize (String.ofList (Lexeme.spaced ws)) = ⟨tokens ++ [⟨.eof, stop⟩], []⟩ ∧
      List.Forall₂ (Token.Shows (String.ofList (Lexeme.spaced ws))) tokens ws := by
  obtain ⟨ps, hps, htext, hws⟩ := Lexeme.exists_fit_spaced h
  have htokens := tokenize_of_fit (String.ofList (Lexeme.spaced ws)) (List.forall_mem_nil _) hps
    (by rw [String.toList_ofList, htext, List.nil_append])
  have hshows := Piece.tokens_shows ps [] []
  rw [List.nil_append, List.append_nil, htext, hws] at hshows
  exact ⟨_, _, htokens, hshows⟩

/-! ## Cutting from the front -/

namespace Scan

/-- **The characters are cut into these lexemes**, with gaps anywhere. -/
inductive Cuts : List Char → List Lexeme → Prop
  | nil : Cuts [] []
  | gap {c : Char} {cs : List Char} {ws : List Lexeme} (hc : isGap c = true) (h : Cuts cs ws) :
      Cuts (c :: cs) ws
  | lexeme {w : Lexeme} {cs : List Char} {ws : List Lexeme}
      (hl : lexeme? (w.chars ++ cs) = some (w.kind, w.chars.length)) (h : Cuts cs ws) :
      Cuts (w.chars ++ cs) (w :: ws)

namespace Cuts

variable {cs : List Char} {ws : List Lexeme}

/-- What is cut into lexemes is made of pieces. -/
theorem exists_fit (h : Cuts cs ws) : ∃ lead ps, cs = lead ++ Piece.render ps ∧
    (∀ c ∈ lead, isGap c = true) ∧ Piece.Fit ps ∧ ps.map (·.toLexeme) = ws := by
  induction h with
  | nil => exact ⟨[], [], rfl, List.forall_mem_nil _, .nil, rfl⟩
  | gap hc _ ih =>
    obtain ⟨lead, ps, rfl, hlead, hps, hws⟩ := ih
    exact ⟨_ :: lead, ps, rfl, List.forall_mem_cons.mpr ⟨hc, hlead⟩, hps, hws⟩
  | @lexeme w _ _ hl _ ih =>
    obtain ⟨lead, ps, rfl, hlead, hps, rfl⟩ := ih
    exact ⟨[], ⟨w, lead⟩ :: ps, rfl, List.forall_mem_nil _, .cons hl hlead hps, rfl⟩

theorem space (h : Cuts cs ws) : Cuts (' ' :: cs) ws := .gap rfl h

/-- No word goes on with another character. -/
theorem stops {c : Char} (hc : isWordPart c = false) : ∀ d ∈ (c :: cs).head?, isWordPart d = false := by
  simpa using hc

/-- A word ends where no word goes on. -/
theorem word (word : Word) (hcs : ∀ c ∈ cs.head?, isWordPart c = false) (h : Cuts cs ws) :
    Cuts (word.text.toList ++ cs) (Lexeme.word word :: ws) := by
  refine .lexeme (w := Lexeme.word word) ?_ h
  have hl := lexeme?_word_append word.isWord hcs
  rwa [String.ofList_toList] at hl

theorem keyword (keyword : Keyword) (hcs : ∀ c ∈ cs.head?, isWordPart c = false) (h : Cuts cs ws) :
    Cuts (keyword.spelling.toList ++ cs) (Lexeme.keyword keyword :: ws) := by
  have hword := word ⟨keyword.spelling, Lexeme.isWord_spelling keyword⟩ hcs h
  unfold Lexeme.word wordKind at hword
  rwa [Keyword.ofWord?_spelling] at hword

/-- A dot stands alone in front of a word. -/
theorem dot (word : Word) (h : Cuts (word.text.toList ++ cs) ws) :
    Cuts ('.' :: (word.text.toList ++ cs)) (Lexeme.dot :: ws) := by
  refine .lexeme (w := Lexeme.dot) ?_ h
  obtain ⟨c, tail, htext, hstart, -⟩ := word.isWord.exists_cons
  have hdigit : c.isDigit = false := by
    by_contra hc
    rw [(isDigit_cases (Bool.not_eq_false _ ▸ hc)).1] at hstart
    cases hstart
  show lexeme? ('.' :: (word.text.toList ++ cs)) = _
  rw [htext, List.cons_append, lexeme?_plain (by decide) (by decide) (by decide)]
  have hnumber : number? ('.' :: c :: (tail ++ cs)) = none := by
    simp [number?, digitCount, markLength, hdigit]
  rw [hnumber]
  rfl

end Cuts

end Scan

/-- **A text that is cut into lexemes** has these as its tokens, and no lexical problem. -/
theorem tokenize_of_cuts {source : String} {ws : List Lexeme} (h : Scan.Cuts source.toList ws) :
    (tokenize source).problems = [] ∧ (tokenize source).tokens.dropLast.map (·.lexeme source) = ws := by
  obtain ⟨lead, ps, hsource, hlead, hps, rfl⟩ := h.exists_fit
  have hshows := Piece.tokens_shows ps lead []
  rw [List.append_nil, ← hsource, String.ofList_toList] at hshows
  rw [tokenize_of_fit source hlead hps hsource]
  refine ⟨rfl, ?_⟩
  rw [List.dropLast_concat, ← List.forall₂_eq_eq_eq, List.forall₂_map_left_iff]
  exact hshows.imp fun _ _ h => h.lexeme_eq

end Jpql
