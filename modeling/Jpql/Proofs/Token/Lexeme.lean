import Jpql.Token.Stream
import Mathlib.Tactic.Common

/-! # Lexemes

A lexeme is a token as it is written. A gap is part of no token, and changes none in front of it.

* `Scan.lexeme?_append_gap`: a token at the front of a text is also found if a gap follows the text.
* `Scan.lexeme?_gap`, `Scan.lexeme?_le`: no token starts with a gap, and none is longer than the text.
* `Lexeme.IsRead`: the lexeme by itself is read as its token. -/

namespace Jpql

/-- A token as it is written. -/
structure Lexeme where
  kind : TokenKind
  chars : List Char
deriving DecidableEq

/-- A token stands for a lexeme. -/
structure Token.Shows (source : String) (token : Token) (lexeme : Lexeme) : Prop where
  kind : token.kind = lexeme.kind
  text : token.text source = String.ofList lexeme.chars

/-- A token as it is written. -/
def Token.lexeme (source : String) (token : Token) : Lexeme := ⟨token.kind, (token.text source).toList⟩

theorem Token.Shows.lexeme_eq {source : String} {token : Token} {w : Lexeme} (h : token.Shows source w) :
    token.lexeme source = w := by
  rw [lexeme, h.kind, h.text, String.toList_ofList]

namespace Scan

/-! ## Tokens in front of a gap -/

section

variable {g : Char} (hg : isGap g = true) (cs rest : List Char)

include hg

/-- A gap is part of no token, and changes none in front of it. -/
theorem gap_cases : g = ' ' ∨ g = '\t' ∨ g = '\r' ∨ g = '\n' ∨ g = '\x0c' := by
  simpa [isGap, or_assoc] using hg

theorem not_isDigit_of_isGap : g.isDigit = false := by
  rcases gap_cases hg with rfl | rfl | rfl | rfl | rfl <;> rfl

theorem not_isWordPart_of_isGap : isWordPart g = false := by
  rcases gap_cases hg with rfl | rfl | rfl | rfl | rfl <;> rfl

omit hg in
theorem takeWhile_append_gap {p : Char → Bool} (hp : p g = false) :
    (cs ++ g :: rest).takeWhile p = cs.takeWhile p := by
  induction cs with
  | nil => simp [hp]
  | cons c cs ih => simp only [List.cons_append, List.takeWhile_cons, ih]

theorem wordLength_append_gap : wordLength (cs ++ g :: rest) = wordLength cs := by
  cases cs with
  | nil =>
    have hstart : isWordStart g = false := by
      rcases gap_cases hg with rfl | rfl | rfl | rfl | rfl <;> rfl
    simp [wordLength, hstart]
  | cons c cs =>
    simp only [List.cons_append, wordLength,
      takeWhile_append_gap cs rest (not_isWordPart_of_isGap hg)]

theorem digitCount_append_gap : digitCount (cs ++ g :: rest) = digitCount cs := by
  rw [digitCount, takeWhile_append_gap cs rest (not_isDigit_of_isGap hg), digitCount]

end

theorem wordLength_le (cs : List Char) : wordLength cs ≤ cs.length := by
  cases cs with
  | nil => exact Nat.le_refl _
  | cons c cs =>
    rw [wordLength]
    split
    · exact Nat.succ_le_succ (List.takeWhile_prefix _).length_le
    · exact Nat.zero_le _

theorem digitCount_le (cs : List Char) : digitCount cs ≤ cs.length := by
  rw [digitCount]
  exact (List.takeWhile_prefix _).length_le

theorem markLength_le (letters cs : List Char) : markLength letters cs ≤ cs.length := by
  cases cs with
  | nil => exact Nat.le_refl _
  | cons c cs =>
    rw [markLength]
    split <;> simp

theorem exponentLength_le (cs : List Char) : exponentLength cs ≤ cs.length := by
  unfold exponentLength
  split
  · exact Nat.zero_le _
  · next hmark =>
    have hmark' := markLength_le ['e', 'E'] cs
    have hsign := markLength_le ['+', '-'] (cs.drop 1)
    have hdigits := digitCount_le (cs.drop (1 + markLength ['+', '-'] (cs.drop 1)))
    simp only [List.length_drop] at hsign hdigits
    dsimp only
    split <;> omega

theorem scaleLength_le (cs : List Char) : scaleLength cs ≤ cs.length := by
  have hexponent := exponentLength_le cs
  have hmark := markLength_le ['f', 'F', 'd', 'D'] (cs.drop (exponentLength cs))
  rw [List.length_drop] at hmark
  unfold scaleLength
  dsimp only
  omega

theorem number?_le {cs : List Char} {numberClass : NumberClass} {n : Nat}
    (h : number? cs = some (numberClass, n)) : n ≤ cs.length := by
  have hwhole := digitCount_le cs
  have hpoint := markLength_le ['.'] (cs.drop (digitCount cs))
  have hscale := scaleLength_le (cs.drop (digitCount cs))
  have hlong := markLength_le ['l', 'L'] (cs.drop (digitCount cs))
  have hfraction := digitCount_le ((cs.drop (digitCount cs)).drop 1)
  have hrest := scaleLength_le ((cs.drop (digitCount cs)).drop
    (1 + digitCount ((cs.drop (digitCount cs)).drop 1)))
  simp only [List.length_drop] at hpoint hscale hlong hfraction hrest
  unfold number? at h
  dsimp only at h
  split at h
  · split at h
    · cases h
    · obtain ⟨-, rfl⟩ := Prod.mk.inj (Option.some.inj h)
      omega
  · split at h
    · cases h
    · split at h <;> obtain ⟨-, rfl⟩ := Prod.mk.inj (Option.some.inj h) <;> omega

theorem closingQuote?_le {cs : List Char} {n : Nat} (h : closingQuote? cs = some n) :
    n ≤ cs.length := by
  induction cs using closingQuote?.induct generalizing n with
  | case1 => cases h
  | case2 cs ih =>
    rw [closingQuote?, Option.map_eq_some_iff] at h
    obtain ⟨m, hm, rfl⟩ := h
    exact Nat.add_le_add_right (ih hm) 2
  | case3 cs hne =>
    rw [closingQuote?.eq_3 _ _ hne, if_pos rfl] at h
    obtain rfl := Option.some.inj h
    exact Nat.succ_le_succ (Nat.zero_le _)
  | case4 c cs hne hc ih =>
    rw [closingQuote?.eq_3 _ _ hne, if_neg hc, Option.map_eq_some_iff] at h
    obtain ⟨m, hm, rfl⟩ := h
    exact Nat.succ_le_succ (ih hm)

section

variable {g : Char} (hg : isGap g = true) (cs rest : List Char)

include hg

theorem markLength_append_gap {letters : List Char}
    (hletters : letters.all (fun c => !isGap c) = true) :
    markLength letters (cs ++ g :: rest) = markLength letters cs := by
  cases cs with
  | nil =>
    have hnot : letters.contains g = false := by
      rw [List.all_eq_true] at hletters
      by_contra hmem
      have := hletters g (by simpa using hmem)
      simp [hg] at this
    rw [List.nil_append, markLength, markLength, hnot]
    rfl
  | cons c cs => rfl

theorem exponentLength_append_gap : exponentLength (cs ++ g :: rest) = exponentLength cs := by
  unfold exponentLength
  rw [markLength_append_gap hg cs rest rfl]
  split
  · rfl
  · next hmark =>
    have hmark' := markLength_le ['e', 'E'] cs
    have hsign := markLength_le ['+', '-'] (cs.drop 1)
    rw [List.length_drop] at hsign
    have hone : (cs ++ g :: rest).drop 1 = cs.drop 1 ++ g :: rest :=
      List.drop_append_of_le_length (by omega)
    dsimp only
    rw [hone, markLength_append_gap hg _ _ rfl, List.drop_append_of_le_length (by omega),
      digitCount_append_gap hg]

theorem scaleLength_append_gap : scaleLength (cs ++ g :: rest) = scaleLength cs := by
  unfold scaleLength
  dsimp only
  rw [exponentLength_append_gap hg, List.drop_append_of_le_length (exponentLength_le cs),
    markLength_append_gap hg _ _ rfl]

theorem number?_append_gap : number? (cs ++ g :: rest) = number? cs := by
  unfold number?
  have hwhole := digitCount_le cs
  dsimp only
  rw [digitCount_append_gap hg, List.drop_append_of_le_length hwhole,
    markLength_append_gap hg _ _ rfl, scaleLength_append_gap hg, markLength_append_gap hg _ _ rfl]
  split
  · next hpoint =>
    have hmark := markLength_le ['.'] (cs.drop (digitCount cs))
    have hfraction := digitCount_le ((cs.drop (digitCount cs)).drop 1)
    simp only [List.length_drop] at hmark hfraction
    rw [List.drop_append_of_le_length (by simp only [List.length_drop]; omega),
      digitCount_append_gap hg, List.drop_append_of_le_length (by simp only [List.length_drop]; omega),
      scaleLength_append_gap hg]
  · rfl

theorem closingQuote?_append_gap {n : Nat} (h : closingQuote? cs = some n) :
    closingQuote? (cs ++ g :: rest) = some n := by
  induction cs using closingQuote?.induct generalizing n with
  | case1 => cases h
  | case2 cs ih =>
    rw [closingQuote?, Option.map_eq_some_iff] at h
    obtain ⟨m, hm, rfl⟩ := h
    rw [List.cons_append, List.cons_append, closingQuote?, ih hm]
    rfl
  | case3 cs hne =>
    have hgap : ∀ more, '\'' = '\'' → cs ++ g :: rest = '\'' :: more → False := by
      intro more _ heq
      cases cs with
      | nil =>
        obtain ⟨rfl, -⟩ := List.cons.inj heq
        exact absurd hg Bool.false_ne_true
      | cons d ds =>
        obtain ⟨rfl, -⟩ := List.cons.inj heq
        exact hne ds rfl rfl
    rw [closingQuote?.eq_3 _ _ hne, if_pos rfl] at h
    rw [List.cons_append, closingQuote?.eq_3 _ _ hgap, if_pos rfl, h]
  | case4 c cs hne hc ih =>
    rw [closingQuote?.eq_3 _ _ hne, if_neg hc, Option.map_eq_some_iff] at h
    obtain ⟨m, hm, rfl⟩ := h
    rw [List.cons_append, closingQuote?.eq_3 _ _ fun _ he => absurd he hc, if_neg hc, ih hm]
    rfl

theorem symbol?_append_gap {x : TokenKind × Nat} (h : symbol? cs = some x) :
    symbol? (cs ++ g :: rest) = some x := by
  unfold symbol? at h
  split at h <;> first | cases h; done | cases h
  case h_9 tail hgreater hequal =>
    cases tail with
    | nil => rcases gap_cases hg with rfl | rfl | rfl | rfl | rfl <;> rfl
    | cons d ds =>
      rw [List.cons_append, List.cons_append]
      unfold symbol?
      split <;> simp_all
  case h_11 tail hequal =>
    cases tail with
    | nil => rcases gap_cases hg with rfl | rfl | rfl | rfl | rfl <;> rfl
    | cons d ds =>
      rw [List.cons_append, List.cons_append]
      unfold symbol?
      split <;> simp_all
  all_goals rfl

end

/-- At most places the token is a word, a number or a symbol. -/
theorem lexeme?_plain {c : Char} (hquote : c ≠ '\'') (hmark : c ≠ '?') (hcolon : c ≠ ':')
    (cs : List Char) :
    lexeme? (c :: cs) =
      match wordLength (c :: cs) with
      | n + 1 => some (wordKind (String.ofList ((c :: cs).take (n + 1))), n + 1)
      | 0 =>
        match number? (c :: cs) with
        | some (.integer, n) => some (.integer (String.ofList ((c :: cs).take n)), n)
        | some (.decimal, n) => some (.decimal (String.ofList ((c :: cs).take n)), n)
        | none => symbol? (c :: cs) := by
  unfold lexeme?
  split <;> first | rfl | simp_all

theorem symbol?_le {cs : List Char} {kind : TokenKind} {n : Nat}
    (h : symbol? cs = some (kind, n)) : n ≤ cs.length := by
  unfold symbol? at h
  split at h <;> cases h <;> simp

/-- No token is longer than the text. -/
theorem lexeme?_le {cs : List Char} {kind : TokenKind} {n : Nat}
    (h : lexeme? cs = some (kind, n)) : n ≤ cs.length := by
  rcases cs with _ | ⟨c, body⟩
  · cases h
  by_cases hquote : c = '\''
  · subst hquote
    rw [lexeme?, Option.map_eq_some_iff] at h
    obtain ⟨m, hm, heq⟩ := h
    obtain ⟨-, rfl⟩ := Prod.mk.inj heq
    exact Nat.succ_le_succ (closingQuote?_le hm)
  by_cases hmark : c = '?'
  · subst hmark
    rw [lexeme?] at h
    split at h <;> cases h
    exact Nat.succ_le_succ (digitCount_le body)
  by_cases hcolon : c = ':'
  · subst hcolon
    rw [lexeme?] at h
    split at h <;> cases h
    exact Nat.succ_le_succ (wordLength_le body)
  rw [lexeme?_plain hquote hmark hcolon] at h
  have hword := wordLength_le (c :: body)
  split at h
  · next m hm =>
    cases h
    rwa [hm] at hword
  · split at h
    · next m hm =>
      cases h
      exact number?_le hm
    · next m hm =>
      cases h
      exact number?_le hm
    · exact symbol?_le h

section

variable {g : Char} (hg : isGap g = true)

include hg

/-- **A token is also found if a gap follows the text** that it starts. -/
theorem lexeme?_append_gap (cs rest : List Char) {kind : TokenKind} {n : Nat}
    (h : lexeme? cs = some (kind, n)) : lexeme? (cs ++ g :: rest) = some (kind, n) := by
  have htake : ∀ (body : List Char) (n : Nat), n ≤ body.length →
      (body ++ g :: rest).take n = body.take n := fun body n hn =>
    List.take_append_of_le_length hn
  rcases cs with _ | ⟨c, body⟩
  · cases h
  by_cases hquote : c = '\''
  · subst hquote
    rw [lexeme?, Option.map_eq_some_iff] at h
    obtain ⟨n, hn, heq⟩ := h
    have hle := closingQuote?_le hn
    rw [List.cons_append, lexeme?, closingQuote?_append_gap hg body rest hn, Option.map_some,
      htake body (n - 1) (by omega), heq]
  by_cases hmark : c = '?'
  · subst hmark
    have hle := digitCount_le body
    rw [List.cons_append, lexeme?, digitCount_append_gap hg body rest]
    rw [lexeme?] at h
    split at h
    · cases h
    · next n hn =>
      obtain ⟨hkind, hlength⟩ := Prod.mk.inj (Option.some.inj h)
      rw [htake body _ (by omega), hkind, hlength]
  by_cases hcolon : c = ':'
  · subst hcolon
    have hle := wordLength_le body
    rw [List.cons_append, lexeme?, wordLength_append_gap hg body rest]
    rw [lexeme?] at h
    split at h
    · cases h
    · next n hn =>
      obtain ⟨hkind, hlength⟩ := Prod.mk.inj (Option.some.inj h)
      rw [htake body _ (by omega), hkind, hlength]
  rw [List.cons_append, lexeme?_plain hquote hmark hcolon, ← List.cons_append,
    wordLength_append_gap hg (c :: body) rest, number?_append_gap hg (c :: body) rest]
  rw [lexeme?_plain hquote hmark hcolon] at h
  have hle := wordLength_le (c :: body)
  split at h
  · next n hn =>
    obtain ⟨hkind, hlength⟩ := Prod.mk.inj (Option.some.inj h)
    rw [htake _ _ (by omega), hkind, hlength]
  · split at h
    · next n hn =>
      obtain ⟨hkind, hlength⟩ := Prod.mk.inj (Option.some.inj h)
      rw [htake _ _ (number?_le hn), hkind, hlength]
    · next n hn =>
      obtain ⟨hkind, hlength⟩ := Prod.mk.inj (Option.some.inj h)
      rw [htake _ _ (number?_le hn), hkind, hlength]
    · exact symbol?_append_gap hg _ rest h

/-- No token starts with a gap. -/
theorem lexeme?_gap (cs : List Char) : lexeme? (g :: cs) = none := by
  have hword : wordLength (g :: cs) = 0 := wordLength_append_gap hg [] cs
  have hnumber : number? (g :: cs) = none := number?_append_gap hg [] cs
  rcases gap_cases hg with rfl | rfl | rfl | rfl | rfl
  all_goals
    rw [lexeme?_plain (by decide) (by decide) (by decide), hword, hnumber]
    rfl

end

end Scan

/-! ## Lexemes -/

namespace Lexeme

/-- **A lexeme is read as its token**, and as nothing else. -/
def IsRead (w : Lexeme) : Prop := Scan.lexeme? w.chars = some (w.kind, w.chars.length)

theorem IsRead.exists_cons {w : Lexeme} (h : w.IsRead) :
    ∃ c cs, w.chars = c :: cs ∧ Scan.isGap c = false := by
  unfold IsRead at h
  cases hw : w.chars with
  | nil =>
    rw [hw] at h
    cases h
  | cons c cs =>
    refine ⟨c, cs, rfl, ?_⟩
    by_contra hgap
    rw [hw, Scan.lexeme?_gap (by simpa using hgap)] at h
    cases h

end Lexeme

end Jpql
