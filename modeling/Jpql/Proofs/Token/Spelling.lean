import Jpql.Proofs.Token.Lexeme
import Mathlib.Data.List.TakeWhile

/-! # Spellings

The texts that are one token: words, names, numbers, strings, parameters, keywords and symbols. Each
kind of text is a type whose values carry the proof that they are such texts, and each has its
lexeme, which is read as that token.

* `Scan.lexeme?_word_append`: a word is a token wherever something else than a word part follows.
* `Scan.unquote_double`: a string with its quotes doubled has that string as its value.
* `Word.isRead`, `Numeral.isRead`, `Parameter.isRead`, `Lexeme.isRead_string`: the lexemes of these
  texts can be read again. -/

namespace Jpql

namespace Scan

/-! ## Words -/

/-- The letters of words are those of ASCII. -/
theorem isAlpha_iff {c : Char} : c.isAlpha = true ↔
    (65 ≤ c.toNat ∧ c.toNat ≤ 90) ∨ (97 ≤ c.toNat ∧ c.toNat ≤ 122) := by
  have hparts : c.isAlpha = (decide (c.val ≥ 'A'.val ∧ c.val ≤ 'Z'.val) ||
      (decide (c.val ≥ 'a'.val) && decide (c.val ≤ 'z'.val))) := rfl
  rw [hparts, Bool.or_eq_true, Bool.and_eq_true, decide_eq_true_eq, decide_eq_true_eq,
    decide_eq_true_eq]
  simp only [UInt32.le_iff_toNat_le, ge_iff_le]
  exact Iff.rfl

/-- The text is one word. -/
def IsWord (cs : List Char) : Prop := cs ≠ [] ∧ wordLength cs = cs.length

instance (cs : List Char) : Decidable (IsWord cs) := inferInstanceAs (Decidable (_ ∧ _))

theorem IsWord.exists_cons {cs : List Char} (h : IsWord cs) :
    ∃ c tail, cs = c :: tail ∧ isWordStart c = true ∧ ∀ d ∈ tail, isWordPart d = true := by
  obtain ⟨hne, hlength⟩ := h
  cases cs with
  | nil => exact absurd rfl hne
  | cons c tail =>
    rw [wordLength, List.length_cons] at hlength
    by_cases hstart : isWordStart c = true
    · rw [if_pos hstart, Nat.add_right_cancel_iff] at hlength
      exact ⟨c, tail, rfl, hstart, List.takeWhile_eq_self_iff.1
        ((List.takeWhile_prefix _).eq_of_length hlength)⟩
    · rw [if_neg hstart] at hlength
      omega

/-- A word ends where a character follows that is no part of words. -/
theorem wordLength_append {cs rest : List Char} (h : IsWord cs)
    (hrest : ∀ c ∈ rest.head?, isWordPart c = false) : wordLength (cs ++ rest) = cs.length := by
  obtain ⟨c, tail, rfl, hstart, htail⟩ := h.exists_cons
  have hstop : rest.takeWhile isWordPart = [] := by
    cases rest with
    | nil => rfl
    | cons d ds =>
      rw [List.takeWhile_cons, hrest d rfl]
      rfl
  rw [List.cons_append, wordLength, if_pos hstart, List.takeWhile_append_of_pos htail, hstop,
    List.append_nil, List.length_cons]

theorem isWordStart_ne {c : Char} (h : isWordStart c = true) : c ≠ '\'' ∧ c ≠ '?' ∧ c ≠ ':' := by
  refine ⟨?_, ?_, ?_⟩ <;> rintro rfl <;> exact absurd h Bool.false_ne_true

/-- **A word is a token** wherever something else than a word part follows. -/
theorem lexeme?_word_append {cs rest : List Char} (h : IsWord cs)
    (hrest : ∀ c ∈ rest.head?, isWordPart c = false) :
    lexeme? (cs ++ rest) = some (wordKind (String.ofList cs), cs.length) := by
  have hlength := wordLength_append h hrest
  obtain ⟨c, tail, rfl, hstart, -⟩ := h.exists_cons
  obtain ⟨hquote, hmark, hcolon⟩ := isWordStart_ne hstart
  rw [List.cons_append, lexeme?_plain hquote hmark hcolon, ← List.cons_append, hlength,
    List.length_cons]
  have htake : ((c :: tail) ++ rest).take (tail.length + 1) = c :: tail := by simp
  simp only [htake]

/-! ## Numbers -/

/-- The text is one number. -/
def IsNumeral (cs : List Char) : Prop := (number? cs).map (·.2) = some cs.length

instance (cs : List Char) : Decidable (IsNumeral cs) := inferInstanceAs (Decidable (_ = _))

/-- A number starts with a digit or a dot. -/
theorem IsNumeral.exists_cons {cs : List Char} (h : IsNumeral cs) :
    ∃ c tail, cs = c :: tail ∧ (c.isDigit = true ∨ c = '.') := by
  unfold IsNumeral at h
  cases cs with
  | nil => cases h
  | cons c tail =>
    refine ⟨c, tail, rfl, ?_⟩
    by_contra hnot
    rw [not_or, Bool.not_eq_true] at hnot
    have hwhole : digitCount (c :: tail) = 0 := by simp [digitCount, hnot.1]
    have hpoint : markLength ['.'] (c :: tail) = 0 := by simp [markLength, hnot.2]
    unfold number? at h
    rw [hwhole] at h
    dsimp only at h
    rw [List.drop_zero, hpoint, if_neg Nat.zero_ne_one, if_pos rfl] at h
    cases h

/-- A digit starts numbers only. -/
theorem isDigit_cases {c : Char} (h : c.isDigit = true) :
    isWordStart c = false ∧ c ≠ '\'' ∧ c ≠ '?' ∧ c ≠ ':' := by
  refine ⟨?_, ?_, ?_, ?_⟩
  · have hrange : 48 ≤ c.toNat ∧ c.toNat ≤ 57 := Char.isDigit_iff_toNat.mp h
    by_contra hstart
    simp only [isWordStart, Bool.not_eq_false, Bool.or_eq_true, isAlpha_iff, beq_iff_eq] at hstart
    rcases hstart with ((hupper | hlower) | rfl) | rfl
    · omega
    · omega
    · exact absurd h (by decide)
    · exact absurd h (by decide)
  all_goals
    rintro rfl
    exact absurd h Bool.false_ne_true

/-- The token of a number. -/
def numberKind (cs : List Char) : TokenKind :=
  match number? cs with
  | some (.integer, _) => .integer (String.ofList cs)
  | _ => .decimal (String.ofList cs)

theorem numberKind_cases (cs : List Char) :
    ∃ text, numberKind cs = .integer text ∨ numberKind cs = .decimal text := by
  unfold numberKind
  split
  · exact ⟨_, .inl rfl⟩
  · exact ⟨_, .inr rfl⟩

theorem lexeme?_number {cs : List Char} (h : IsNumeral cs) :
    lexeme? cs = some (numberKind cs, cs.length) := by
  obtain ⟨c, tail, rfl, hc⟩ := h.exists_cons
  have hplain : isWordStart c = false ∧ c ≠ '\'' ∧ c ≠ '?' ∧ c ≠ ':' := by
    rcases hc with hc | rfl
    · exact isDigit_cases hc
    · decide
  obtain ⟨hstart, hquote, hmark, hcolon⟩ := hplain
  have hword : wordLength (c :: tail) = 0 := by simp [wordLength, hstart]
  unfold IsNumeral at h
  rw [Option.map_eq_some_iff] at h
  obtain ⟨⟨numberClass, n⟩, hnumber, rfl⟩ := h
  rw [lexeme?_plain hquote hmark hcolon, hword, numberKind, hnumber]
  cases numberClass <;> simp only [List.take_length]

/-! ## Strings -/

/-- The text with every quote in it doubled. -/
def double : List Char → List Char
  | [] => []
  | c :: cs => if c = '\'' then '\'' :: '\'' :: double cs else c :: double cs

theorem closingQuote?_double (cs : List Char) :
    closingQuote? (double cs ++ ['\'']) = some ((double cs).length + 1) := by
  induction cs with
  | nil => rfl
  | cons c cs ih =>
    unfold double
    by_cases hc : c = '\''
    · rw [if_pos hc, List.cons_append, List.cons_append, closingQuote?, ih]
      rfl
    · rw [if_neg hc, List.cons_append, closingQuote?.eq_3 _ _ fun _ he => absurd he hc, if_neg hc,
        ih]
      rfl

/-- **Doubling the quotes of a text is undone** when its value is taken. -/
theorem unquote_double (cs : List Char) : unquote (double cs) = cs := by
  induction cs with
  | nil => rfl
  | cons c cs ih =>
    unfold double
    by_cases hc : c = '\''
    · rw [if_pos hc, unquote, ih, hc]
    · rw [if_neg hc, unquote.eq_3 _ _ fun _ he => absurd he hc, ih]

theorem lexeme?_string (cs : List Char) :
    lexeme? ('\'' :: (double cs ++ ['\''])) =
      some (.string (String.ofList cs), ('\'' :: (double cs ++ ['\''])).length) := by
  rw [lexeme?, closingQuote?_double, Option.map_some, Nat.add_sub_cancel, List.take_left,
    unquote_double]
  simp

end Scan

/-! ## Texts that are tokens -/

/-- A word: a name or a keyword. -/
structure Word where
  text : String
  isWord : Scan.IsWord text.toList

/-- A word that is no keyword. -/
structure Name extends Word where
  notKeyword : Keyword.ofWord? text = none

/-- A number as it is written. -/
structure Numeral where
  text : String
  isNumeral : Scan.IsNumeral text.toList

/-- The name of a parameter: digits after `?`, a word after `:`. -/
inductive Parameter where
  | positional (name : String) (isNumber : name ≠ "" ∧ name.toList.all Char.isDigit = true)
  | named (name : Word)

namespace Parameter

/-- The name without the mark in front of it. -/
def name : Parameter → String
  | .positional name _ => name
  | .named name => name.text

/-- The parameter is positional. -/
def isPositional : Parameter → Bool
  | .positional .. => true
  | .named _ => false

end Parameter

namespace Lexeme

/-- A keyword in its canonical spelling. -/
def keyword (word : Keyword) : Lexeme := ⟨.keyword word, word.spelling.toList⟩

/-- A word. -/
def word (word : Word) : Lexeme := ⟨Scan.wordKind word.text, word.text.toList⟩

/-- A number. -/
def numeral (numeral : Numeral) : Lexeme :=
  ⟨Scan.numberKind numeral.text.toList, numeral.text.toList⟩

/-- A string in quotes, with the quotes in it doubled. -/
def string (value : String) : Lexeme :=
  ⟨.string value, '\'' :: (Scan.double value.toList ++ ['\''])⟩

/-- A parameter. -/
def parameter : Parameter → Lexeme
  | .positional name _ => ⟨.positional name, '?' :: name.toList⟩
  | .named name => ⟨.named name.text, ':' :: name.text.toList⟩

/-- `(`. -/
def leftParen : Lexeme := ⟨.leftParen, ['(']⟩

/-- `)`. -/
def rightParen : Lexeme := ⟨.rightParen, [')']⟩

/-- `,`. -/
def comma : Lexeme := ⟨.comma, [',']⟩

/-- `.`. -/
def dot : Lexeme := ⟨.dot, ['.']⟩

/-- The items of a list behind the first one, each with a comma in front. -/
def listed {ι : Type} (chunk : ι → List Lexeme) (xs : List ι) : List Lexeme :=
  xs.flatMap fun x => comma :: chunk x

theorem isRead_word (word : Word) : (Lexeme.word word).IsRead := by
  have h := @Scan.lexeme?_word_append _ [] word.isWord fun _ hc => by cases hc
  rw [List.append_nil, String.ofList_toList] at h
  exact h

theorem isRead_numeral (numeral : Numeral) : (Lexeme.numeral numeral).IsRead :=
  Scan.lexeme?_number numeral.isNumeral

theorem isRead_string (value : String) : (string value).IsRead := by
  have h := Scan.lexeme?_string value.toList
  rw [String.ofList_toList] at h
  exact h

/-- Every keyword is spelled as a word. -/
theorem isWord_spelling (word : Keyword) : Scan.IsWord word.spelling.toList := by
  cases word <;> decide

theorem isRead_keyword (word : Keyword) : (keyword word).IsRead := by
  have h := isRead_word ⟨word.spelling, isWord_spelling word⟩
  unfold Lexeme.word Scan.wordKind at h
  rw [Keyword.ofWord?_spelling] at h
  exact h

theorem isRead_parameter (p : Parameter) : (parameter p).IsRead := by
  cases p with
  | positional name isNumber =>
    obtain ⟨hne, hall⟩ := isNumber
    have hcount : Scan.digitCount name.toList = name.toList.length := by
      rw [Scan.digitCount, List.takeWhile_eq_self_iff.2 (List.all_eq_true.1 hall)]
    obtain ⟨n, hn⟩ : ∃ n, name.toList.length = n + 1 := by
      refine Nat.exists_eq_succ_of_ne_zero fun hzero => hne ?_
      rw [List.length_eq_zero_iff] at hzero
      exact String.toList_eq_nil_iff.1 hzero
    unfold IsRead parameter Scan.lexeme?
    simp only [hcount, hn, List.length_cons]
    rw [← hn, List.take_length, String.ofList_toList]
  | named name =>
    have hlength := name.isWord.2
    obtain ⟨n, hn⟩ : ∃ n, name.text.toList.length = n + 1 := by
      obtain ⟨c, tail, heq, -⟩ := name.isWord.exists_cons
      exact ⟨tail.length, by rw [heq, List.length_cons]⟩
    unfold IsRead parameter Scan.lexeme?
    simp only [hlength, hn, List.length_cons]
    rw [← hn, List.take_length, String.ofList_toList]

end Lexeme

end Jpql
