import Jpql.Proofs.Token.Solid

/-! # Raw tokens

What the scanner takes for a token: words, numbers, strings, parameters and symbols, each described by
how it is written. The scanner finds the longest of them (`Scan.lexeme?_longest`).

* `Scan.IsRaw`: the text is a token.
* `Scan.isRaw_of_lexeme?`: what the scanner finds is a token.
* `Scan.lexeme?_of_isRaw`: where a token stands, it finds one that is not shorter. The exception is a
  string that another quote follows: that quote continues the string, and may leave it open. -/

namespace Jpql.Scan

/-! ## How tokens are written -/

/-- One of the letters, or nothing. -/
def IsMark (letters cs : List Char) : Prop := cs = [] ∨ ∃ c ∈ letters, cs = [c]

/-- Some digits, or nothing. -/
def AreDigits (cs : List Char) : Prop := ∀ c ∈ cs, c.isDigit = true

/-- `e5`, `E-12`. -/
def IsExponent (cs : List Char) : Prop :=
  ∃ c sign digits, c ∈ ['e', 'E'] ∧ IsMark ['+', '-'] sign ∧ AreDigits digits ∧ digits ≠ [] ∧
    cs = c :: (sign ++ digits)

/-- An optional exponent and an optional letter `f` or `d`. -/
def IsScale (cs : List Char) : Prop :=
  ∃ exponent suffix, (exponent = [] ∨ IsExponent exponent) ∧ IsMark ['f', 'F', 'd', 'D'] suffix ∧
    cs = exponent ++ suffix

/-- Operators and punctuation marks. -/
def symbols : List (List Char) :=
  [['('], [')'], [','], ['.'], ['='], ['<', '>'], ['!', '='], ['<'], ['<', '='], ['>'], ['>', '='],
    ['+'], ['-'], ['*'], ['/']]

/-- **The text is a token.** -/
inductive IsRaw : List Char → Prop
  | word {c : Char} {cs : List Char} (hstart : isWordStart c = true)
      (hparts : ∀ d ∈ cs, isWordPart d = true) : IsRaw (c :: cs)
  | integer {whole long : List Char} (hwhole : AreDigits whole) (hne : whole ≠ [])
      (hlong : IsMark ['l', 'L'] long) : IsRaw (whole ++ long)
  | point {whole fraction scale : List Char} (hwhole : AreDigits whole) (hfraction : AreDigits fraction)
      (hne : whole ≠ [] ∨ fraction ≠ []) (hscale : IsScale scale) :
      IsRaw (whole ++ '.' :: (fraction ++ scale))
  | scaled {whole scale : List Char} (hwhole : AreDigits whole) (hne : whole ≠ [])
      (hscale : IsScale scale) : IsRaw (whole ++ scale)
  | string (body : List Char) : IsRaw ('\'' :: (double body ++ ['\'']))
  | positional {digits : List Char} (hdigits : AreDigits digits) (hne : digits ≠ []) :
      IsRaw ('?' :: digits)
  | named {c : Char} {cs : List Char} (hstart : isWordStart c = true)
      (hparts : ∀ d ∈ cs, isWordPart d = true) : IsRaw (':' :: c :: cs)
  | symbol {cs : List Char} (h : cs ∈ symbols) : IsRaw cs

/-! ## Digits -/

theorem digitCount_append {digits : List Char} (h : AreDigits digits) (rest : List Char) :
    digitCount (digits ++ rest) = digits.length + digitCount rest := by
  rw [digitCount, List.takeWhile_append_of_pos h, List.length_append, digitCount]

theorem digitCount_cons {c : Char} (h : c.isDigit = false) (cs : List Char) :
    digitCount (c :: cs) = 0 := by
  simp [digitCount, h]

/-- A text starts with its digits. -/
theorem exists_digits (cs : List Char) : ∃ digits rest, cs = digits ++ rest ∧ AreDigits digits ∧
    digitCount cs = digits.length :=
  ⟨cs.takeWhile Char.isDigit, cs.dropWhile Char.isDigit, List.takeWhile_append_dropWhile.symm,
    fun _ hc => List.mem_takeWhile_imp hc, rfl⟩

/-! ## Scales -/

theorem markLength_cons {letters : List Char} {c : Char} (h : c ∈ letters) (cs : List Char) :
    markLength letters (c :: cs) = 1 := by
  simp [markLength, h]

theorem markLength_digits {letters digits : List Char} (hletters : ∀ c ∈ letters, c.isDigit = false)
    (h : AreDigits digits) (hne : digits ≠ []) (rest : List Char) :
    markLength letters (digits ++ rest) = 0 := by
  obtain ⟨c, digits, rfl⟩ := List.exists_cons_of_ne_nil hne
  have hdigit := h c List.mem_cons_self
  have hnot : c ∉ letters := fun hc => by simp [hletters c hc] at hdigit
  simp [markLength, hnot]

/-- The optional letter at the front. -/
theorem isMark_take (letters cs : List Char) : IsMark letters (cs.take (markLength letters cs)) := by
  cases cs with
  | nil => exact .inl rfl
  | cons c cs =>
    rw [markLength]
    split
    · next hc => exact .inr ⟨c, by simpa using hc, rfl⟩
    · exact .inl rfl

/-- **An exponent goes on as long as digits follow.** -/
theorem exponentLength_append {c : Char} {sign digits : List Char} (hc : c ∈ ['e', 'E'])
    (hsign : IsMark ['+', '-'] sign) (hdigits : AreDigits digits) (hne : digits ≠ [])
    (rest : List Char) : exponentLength (c :: (sign ++ (digits ++ rest))) =
      1 + sign.length + (digits.length + digitCount rest) := by
  have hpos := List.length_pos_iff.mpr hne
  have hmark : markLength ['+', '-'] (sign ++ (digits ++ rest)) = sign.length := by
    rcases hsign with rfl | ⟨d, hd, rfl⟩
    · exact markLength_digits (by simp) hdigits hne rest
    · exact markLength_cons hd _
  unfold exponentLength
  rw [markLength_cons hc, if_neg Nat.one_ne_zero]
  dsimp only
  rw [List.drop_one, List.tail_cons, hmark, Nat.add_comm 1 sign.length, List.drop_succ_cons,
    List.drop_left, digitCount_append hdigits, if_neg (by omega)]

theorem exponentLength_cons {c : Char} (h : c ∉ ['e', 'E']) (cs : List Char) :
    exponentLength (c :: cs) = 0 := by
  simp only [exponentLength, markLength, List.contains_eq_mem, h, decide_false, if_true,
    Bool.false_eq_true, if_false]

/-- The scanner reads as much of a scale as there is. -/
theorem length_le_scaleLength {scale : List Char} (h : IsScale scale) (rest : List Char) :
    scale.length ≤ scaleLength (scale ++ rest) := by
  obtain ⟨exponent, suffix, hexponent, hsuffix, rfl⟩ := h
  unfold scaleLength
  dsimp only
  rcases hexponent with rfl | ⟨c, sign, digits, hc, hsign, hdigits, hne, rfl⟩
  · rcases hsuffix with rfl | ⟨d, hd, rfl⟩
    · exact Nat.zero_le _
    · have hnot : d ∉ ['e', 'E'] := by
        intro he
        simp only [List.mem_cons, List.not_mem_nil, or_false] at hd he
        rcases he with rfl | rfl <;> simp at hd
      rw [List.nil_append, List.singleton_append, exponentLength_cons hnot, List.drop_zero,
        markLength_cons hd]
      rfl
  · have htext : c :: (sign ++ digits) ++ suffix ++ rest =
        c :: (sign ++ (digits ++ (suffix ++ rest))) := by simp
    rw [htext, exponentLength_append hc hsign hdigits hne]
    rcases hsuffix with rfl | ⟨d, hd, rfl⟩
    · simp only [List.append_nil, List.length_cons, List.length_append]
      omega
    · have hnot : d.isDigit = false := by
        simp only [List.mem_cons, List.not_mem_nil, or_false] at hd
        rcases hd with rfl | rfl | rfl | rfl <;> rfl
      have hdrop : (c :: (sign ++ (digits ++ d :: rest))).drop
          (1 + sign.length + (digits.length + 0)) = d :: rest := by
        rw [← List.append_assoc sign, ← List.cons_append]
        exact List.drop_left' (by simp; omega)
      rw [List.singleton_append, digitCount_cons hnot, hdrop, markLength_cons hd]
      simp only [List.length_cons, List.length_append, List.length_nil]
      omega

theorem isExponent_take (cs : List Char) :
    exponentLength cs = 0 ∨ IsExponent (cs.take (exponentLength cs)) := by
  unfold exponentLength
  split
  · exact .inl rfl
  · next hmark =>
    cases cs with
    | nil => exact absurd rfl hmark
    | cons c cs =>
      have hc : c ∈ ['e', 'E'] := by
        by_contra hnot
        simp [markLength] at hmark hnot
        exact hnot.2 (hmark hnot.1)
      dsimp only
      rw [List.drop_one, List.tail_cons, Nat.add_comm 1, List.drop_succ_cons]
      obtain ⟨digits, rest, hsplit, hdigits, hcount⟩ :=
        exists_digits (cs.drop (markLength ['+', '-'] cs))
      rw [hcount]
      split
      · exact .inl rfl
      · next hne =>
        refine .inr ⟨c, cs.take (markLength ['+', '-'] cs), digits, hc, isMark_take _ _, hdigits,
          fun hnil => hne (by rw [hnil]; rfl), ?_⟩
        rw [Nat.add_right_comm, List.take_succ_cons, List.take_add, hsplit, List.take_left]

/-- What the scanner reads as a scale is one. -/
theorem isScale_take (cs : List Char) : IsScale (cs.take (scaleLength cs)) := by
  refine ⟨cs.take (exponentLength cs), _, ?_, isMark_take _ (cs.drop (exponentLength cs)), ?_⟩
  · rcases isExponent_take cs with hzero | hexponent
    · exact .inl (by rw [hzero, List.take_zero])
    · exact .inr hexponent
  · rw [← List.take_add]
    rfl

/-! ## Numbers -/

/-- A number is read from its digits on. -/
theorem number?_digits {cs : List Char} (h : 0 < digitCount cs) :
    ∃ numberClass n, number? cs = some (numberClass, n) ∧ digitCount cs ≤ n := by
  unfold number?
  dsimp only
  split
  · rw [if_neg (by omega)]
    exact ⟨_, _, rfl, by omega⟩
  · rw [if_neg (by omega)]
    split
    · exact ⟨_, _, rfl, Nat.le_add_right _ _⟩
    · exact ⟨_, _, rfl, Nat.le_add_right _ _⟩

/-- A scale starts with a letter. -/
theorem IsScale.exists_cons {scale : List Char} (h : IsScale scale) (hne : scale ≠ []) :
    ∃ c cs, scale = c :: cs ∧ c.isDigit = false ∧ c ∉ ['.'] := by
  have hletter : ∀ c ∈ ['e', 'E', 'f', 'F', 'd', 'D'], c.isDigit = false ∧ c ∉ ['.'] := by simp
  obtain ⟨exponent, suffix, hexponent, hsuffix, rfl⟩ := h
  rcases hexponent with rfl | ⟨c, sign, digits, hc, -, -, -, rfl⟩
  · rcases hsuffix with rfl | ⟨c, hc, rfl⟩
    · exact absurd rfl hne
    · exact ⟨c, [], rfl, hletter c (List.mem_append_right ['e', 'E'] hc)⟩
  · exact ⟨c, _, rfl, hletter c (List.mem_append_left _ hc)⟩

/-- Digits with an optional scale. -/
theorem number?_scaled {whole scale : List Char} (hwhole : AreDigits whole) (hne : whole ≠ [])
    (hscale : IsScale scale) (rest : List Char) : ∃ numberClass n,
      number? (whole ++ (scale ++ rest)) = some (numberClass, n) ∧ (whole ++ scale).length ≤ n := by
  have hpos := List.length_pos_iff.mpr hne
  have hcount := digitCount_append hwhole (scale ++ rest)
  by_cases hnil : scale = []
  · subst hnil
    have hsome : 0 < digitCount (whole ++ ([] ++ rest)) := by omega
    obtain ⟨numberClass, n, hn, hle⟩ := number?_digits hsome
    exact ⟨numberClass, n, hn, by rw [List.append_nil]; omega⟩
  · obtain ⟨c, cs, rfl, hdigit, hpoint⟩ := hscale.exists_cons hnil
    have hlength := length_le_scaleLength hscale rest
    rw [List.cons_append, digitCount_cons hdigit, Nat.add_zero] at hcount
    rw [List.cons_append] at hlength
    have hmark : markLength ['.'] (c :: (cs ++ rest)) = 0 := by
      simpa [markLength] using hpoint
    unfold number?
    dsimp only
    rw [List.cons_append, hcount, List.drop_left, hmark, if_neg Nat.zero_ne_one, if_neg (by omega)]
    split
    · next hzero => simp [hzero] at hlength
    · next n hn => exact ⟨_, _, rfl, by rw [List.length_append]; omega⟩

/-- Digits with an optional letter `l`. -/
theorem number?_integer {whole long : List Char} (hwhole : AreDigits whole) (hne : whole ≠ [])
    (hlong : IsMark ['l', 'L'] long) (rest : List Char) : ∃ numberClass n,
      number? (whole ++ (long ++ rest)) = some (numberClass, n) ∧ (whole ++ long).length ≤ n := by
  rcases hlong with rfl | ⟨c, hc, rfl⟩
  · exact number?_scaled hwhole hne ⟨[], [], .inl rfl, .inl rfl, rfl⟩ rest
  · have hpos := List.length_pos_iff.mpr hne
    have hcases : ∀ c ∈ ['l', 'L'], c.isDigit = false ∧ c ∉ ['.'] ∧ c ∉ ['e', 'E'] ∧
        c ∉ ['f', 'F', 'd', 'D'] := by simp
    obtain ⟨hdigit, hpoint, hexponent, hsuffix⟩ := hcases c hc
    have hcount := digitCount_append hwhole (c :: rest)
    rw [digitCount_cons hdigit, Nat.add_zero] at hcount
    have hmark : markLength ['.'] (c :: rest) = 0 := by simpa [markLength] using hpoint
    have hscale : scaleLength (c :: rest) = 0 := by
      rw [scaleLength, exponentLength_cons hexponent]
      simpa [markLength] using hsuffix
    refine ⟨.integer, whole.length + 1, ?_, by simp⟩
    unfold number?
    dsimp only
    rw [List.singleton_append, hcount, List.drop_left, hmark, if_neg Nat.zero_ne_one,
      if_neg (by omega), hscale, markLength_cons hc]

/-- Digits with a point among them, and an optional scale. -/
theorem number?_point {whole fraction scale : List Char} (hwhole : AreDigits whole)
    (hfraction : AreDigits fraction) (hne : whole ≠ [] ∨ fraction ≠ []) (hscale : IsScale scale)
    (rest : List Char) : ∃ numberClass n,
      number? (whole ++ '.' :: (fraction ++ (scale ++ rest))) = some (numberClass, n) ∧
        (whole ++ '.' :: (fraction ++ scale)).length ≤ n := by
  have hcount := digitCount_append hwhole ('.' :: (fraction ++ (scale ++ rest)))
  rw [digitCount_cons rfl, Nat.add_zero] at hcount
  have hrest := digitCount_append hfraction (scale ++ rest)
  have hsome : ¬(whole.length = 0 ∧ digitCount (fraction ++ (scale ++ rest)) = 0) := by
    rintro ⟨hw, hf⟩
    rw [hrest] at hf
    rcases hne with hne | hne
    · exact hne (List.length_eq_zero_iff.mp hw)
    · exact hne (List.length_eq_zero_iff.mp (by omega))
  have hn : number? (whole ++ '.' :: (fraction ++ (scale ++ rest))) = some (.decimal,
      whole.length + 1 + digitCount (fraction ++ (scale ++ rest)) +
        scaleLength (('.' :: (fraction ++ (scale ++ rest))).drop
          (1 + digitCount (fraction ++ (scale ++ rest))))) := by
    unfold number?
    dsimp only
    rw [hcount, List.drop_left, markLength_cons (List.mem_singleton_self _), if_pos rfl,
      List.drop_one, List.tail_cons, if_neg hsome]
  refine ⟨_, _, hn, ?_⟩
  by_cases hnil : scale = []
  · subst hnil
    simp only [List.append_nil, List.length_append, List.length_cons]
    rw [List.nil_append] at hrest ⊢
    omega
  · obtain ⟨c, cs, rfl, hdigit, -⟩ := hscale.exists_cons hnil
    have hlength := length_le_scaleLength hscale rest
    rw [List.cons_append, digitCount_cons hdigit, Nat.add_zero] at hrest
    have hdrop : ('.' :: (fraction ++ (c :: cs ++ rest))).drop
        (1 + digitCount (fraction ++ (c :: cs ++ rest))) = c :: cs ++ rest := by
      rw [List.cons_append, hrest, Nat.add_comm, List.drop_succ_cons, List.drop_left]
    rw [hdrop, List.cons_append, hrest]
    simp only [List.length_append, List.length_cons] at hlength ⊢
    rw [List.cons_append] at hlength
    omega

/-- **What the scanner reads as a number is one.** -/
theorem isRaw_of_number? {cs : List Char} {numberClass : NumberClass} {n : Nat}
    (h : number? cs = some (numberClass, n)) : IsRaw (cs.take n) := by
  obtain ⟨whole, rest, rfl, hwhole, hcount⟩ := exists_digits cs
  unfold number? at h
  dsimp only at h
  rw [hcount, List.drop_left] at h
  split at h
  · next hpoint =>
    obtain ⟨rest, rfl⟩ : ∃ tail, rest = '.' :: tail := by
      cases rest with
      | nil => cases hpoint
      | cons c tail =>
        simp [markLength] at hpoint
        exact ⟨tail, by rw [hpoint]⟩
    rw [List.drop_one, List.tail_cons] at h
    obtain ⟨fraction, rest, rfl, hfraction, hcount⟩ := exists_digits rest
    rw [hcount, Nat.add_comm 1, List.drop_succ_cons, List.drop_left] at h
    split at h
    · cases h
    · next hsome =>
      obtain ⟨-, rfl⟩ := Prod.mk.inj (Option.some.inj h)
      have htake : (whole ++ '.' :: (fraction ++ rest)).take
          (whole.length + 1 + fraction.length + scaleLength rest) =
            whole ++ '.' :: (fraction ++ rest.take (scaleLength rest)) := by
        rw [show whole.length + 1 + fraction.length + scaleLength rest =
          whole.length + (fraction.length + scaleLength rest + 1) by omega, List.take_length_add_append,
          List.take_succ_cons, List.take_length_add_append]
      rw [htake]
      refine .point hwhole hfraction ?_ (isScale_take rest)
      by_contra hnone
      simp only [ne_eq, not_or, not_not] at hnone
      exact hsome ⟨by rw [hnone.1]; rfl, by rw [hnone.2]; rfl⟩
  · split at h
    · cases h
    · next hwholeSome =>
      have hne : whole ≠ [] := fun hnil => hwholeSome (by rw [hnil]; rfl)
      split at h
      · obtain ⟨-, rfl⟩ := Prod.mk.inj (Option.some.inj h)
        rw [List.take_length_add_append]
        exact .integer hwhole hne (isMark_take _ rest)
      · next scale hscale =>
        obtain ⟨-, rfl⟩ := Prod.mk.inj (Option.some.inj h)
        rw [List.take_length_add_append, show scale + 1 = scaleLength rest from hscale.symm]
        exact .scaled hwhole hne (isScale_take rest)

/-! ## Strings -/

/-- The scanner passes over what stands in a string. -/
theorem closingQuote?_append (body cs : List Char) :
    closingQuote? (double body ++ cs) = (closingQuote? cs).map (· + (double body).length) := by
  induction body with
  | nil => simp [double]
  | cons c body ih =>
    unfold double
    by_cases hc : c = '\''
    · rw [if_pos hc, List.cons_append, List.cons_append, closingQuote?, ih, Option.map_map]
      rfl
    · rw [if_neg hc, List.cons_append, closingQuote?.eq_3 _ _ fun _ he => absurd he hc, if_neg hc, ih,
        Option.map_map]
      rfl

/-! ## Tokens -/

theorem IsRaw.ne_nil {cs : List Char} (h : IsRaw cs) : cs ≠ [] := by
  cases h with
  | integer _ hne _ | scaled _ hne _ => simp [hne]
  | symbol h =>
    rintro rfl
    exact absurd h (by decide)
  | _ => simp

theorem isRaw_of_symbol? {cs : List Char} {kind : TokenKind} {n : Nat}
    (h : symbol? cs = some (kind, n)) : IsRaw (cs.take n) := by
  unfold symbol? at h
  split at h <;> first | (cases h; done) | (cases h; exact .symbol (by simp [symbols]))

/-- A word starts with what its length says. -/
theorem exists_word {cs : List Char} {n : Nat} (h : wordLength cs = n + 1) :
    ∃ c tail, cs.take (n + 1) = c :: tail ∧ isWordStart c = true ∧ ∀ d ∈ tail, isWordPart d = true := by
  cases cs with
  | nil => cases h
  | cons c cs =>
    rw [wordLength] at h
    split at h
    · next hstart =>
      refine ⟨c, cs.take n, rfl, hstart, ?_⟩
      obtain rfl := Nat.succ.inj h
      rw [← List.prefix_iff_eq_take.mp (List.takeWhile_prefix isWordPart)]
      exact fun _ hd => List.mem_takeWhile_imp hd
    · cases h

/-- The scanner reads as much of a word as there is. -/
theorem le_wordLength {c : Char} {cs : List Char} (hstart : isWordStart c = true)
    (hparts : ∀ d ∈ cs, isWordPart d = true) (rest : List Char) :
    ∃ n, wordLength (c :: (cs ++ rest)) = n + 1 ∧ cs.length ≤ n := by
  refine ⟨_, by rw [wordLength, if_pos hstart], ?_⟩
  rw [List.takeWhile_append_of_pos hparts, List.length_append]
  exact Nat.le_add_right _ _

/-- **What the scanner finds is a token.** -/
theorem isRaw_of_lexeme? {cs : List Char} {kind : TokenKind} {n : Nat}
    (h : lexeme? cs = some (kind, n)) : IsRaw (cs.take n) := by
  rcases cs with _ | ⟨c, body⟩
  · cases h
  by_cases hquote : c = '\''
  · subst hquote
    obtain ⟨value, rest, rfl, rfl, -, -⟩ := lexeme?_quote h
    have htake : ('\'' :: (double value ++ '\'' :: rest)).take ((double value).length + 2) =
        '\'' :: (double value ++ ['\'']) := by
      rw [List.take_succ_cons, List.take_length_add_append, List.take_succ_cons, List.take_zero]
    rw [htake]
    exact .string value
  by_cases hmark : c = '?'
  · subst hmark
    obtain ⟨digits, rest, rfl, hdigits, hcount⟩ := exists_digits body
    rw [lexeme?, hcount] at h
    split at h
    · cases h
    · next hsome =>
      obtain ⟨-, rfl⟩ := Prod.mk.inj (Option.some.inj h)
      rw [List.take_succ_cons, List.take_left]
      exact .positional hdigits fun hnil => hsome (by rw [hnil]; rfl)
  by_cases hcolon : c = ':'
  · subst hcolon
    rw [lexeme?] at h
    split at h
    · cases h
    · next hsome =>
      obtain ⟨-, rfl⟩ := Prod.mk.inj (Option.some.inj h)
      obtain ⟨m, hm⟩ := Nat.exists_eq_succ_of_ne_zero hsome
      obtain ⟨d, tail, htake, hstart, hparts⟩ := exists_word hm
      rw [hm, List.take_succ_cons, htake]
      exact .named hstart hparts
  rw [lexeme?_plain hquote hmark hcolon] at h
  split at h
  · next m hm =>
    obtain ⟨-, rfl⟩ := Prod.mk.inj (Option.some.inj h)
    obtain ⟨d, tail, htake, hstart, hparts⟩ := exists_word hm
    rw [htake]
    exact .word hstart hparts
  · split at h
    · next m hm =>
      cases h
      exact isRaw_of_number? hm
    · next m hm =>
      cases h
      exact isRaw_of_number? hm
    · exact isRaw_of_symbol? h

/-- A number is found where no word is. -/
theorem lexeme?_of_number {c : Char} {cs : List Char} (hc : c.isDigit = true ∨ c = '.')
    {numberClass : NumberClass} {n : Nat} (h : number? (c :: cs) = some (numberClass, n)) :
    ∃ kind, lexeme? (c :: cs) = some (kind, n) := by
  have hplain : isWordStart c = false ∧ c ≠ '\'' ∧ c ≠ '?' ∧ c ≠ ':' := by
    rcases hc with hc | rfl
    · exact isDigit_cases hc
    · decide
  obtain ⟨hstart, hquote, hmark, hcolon⟩ := hplain
  have hword : wordLength (c :: cs) = 0 := by simp [wordLength, hstart]
  rw [lexeme?_plain hquote hmark hcolon, hword, h]
  cases numberClass <;> exact ⟨_, rfl⟩

/-- The same for what starts with its digits. -/
theorem lexeme?_of_digits {whole tail : List Char} (hwhole : AreDigits whole) (hne : whole ≠ [])
    {numberClass : NumberClass} {n : Nat} (h : number? (whole ++ tail) = some (numberClass, n)) :
    ∃ kind, lexeme? (whole ++ tail) = some (kind, n) := by
  obtain ⟨c, cs, rfl⟩ := List.exists_cons_of_ne_nil hne
  exact lexeme?_of_number (.inl (hwhole c List.mem_cons_self)) h

theorem number?_eq_none {c : Char} {cs : List Char} (hdigit : c.isDigit = false) (hpoint : c ≠ '.') :
    number? (c :: cs) = none := by
  have hmark : markLength ['.'] (c :: cs) = 0 := by simp [markLength, hpoint]
  unfold number?
  dsimp only
  rw [digitCount_cons hdigit, List.drop_zero, hmark, if_neg Nat.zero_ne_one, if_pos rfl]

theorem symbol?_of_mem {front : List Char} (h : front ∈ symbols) (rest : List Char) :
    ∃ kind n, symbol? (front ++ rest) = some (kind, n) ∧ front.length ≤ n := by
  simp only [symbols, List.mem_cons, List.not_mem_nil, or_false] at h
  -- What follows `<` or `>` may belong to the symbol.
  rcases h with rfl | rfl | rfl | rfl | rfl | rfl | rfl | rfl | rfl | rfl | rfl | rfl | rfl | rfl | rfl
  case inr.inr.inr.inr.inr.inr.inr.inl | inr.inr.inr.inr.inr.inr.inr.inr.inr.inl =>
    rw [List.singleton_append]
    unfold symbol?
    split <;> simp_all
  all_goals exact ⟨_, _, rfl, Nat.le_refl _⟩

/-- A symbol is found where no number is. -/
theorem lexeme?_of_symbol {front : List Char} (h : front ∈ symbols) (rest : List Char) :
    ∃ kind n, lexeme? (front ++ rest) = some (kind, n) ∧ front.length ≤ n := by
  obtain ⟨kind, n, hn, hle⟩ := symbol?_of_mem h rest
  have hfirst : ∀ front ∈ symbols, front.head?.all (fun c => !isWordStart c && !c.isDigit &&
      c != '\'' && c != '?' && c != ':') = true := by decide
  have hpoint : ∀ front ∈ symbols, front.head? = some '.' → front = ['.'] := by decide
  obtain ⟨c, cs, rfl⟩ := List.exists_cons_of_ne_nil (IsRaw.symbol h).ne_nil
  have hc := hfirst _ h
  simp only [List.head?_cons, Option.all_some, Bool.and_eq_true, Bool.not_eq_true', bne_iff_ne] at hc
  obtain ⟨⟨⟨⟨hstart, hdigit⟩, hquote⟩, hmark⟩, hcolon⟩ := hc
  have hword : wordLength (c :: (cs ++ rest)) = 0 := by simp [wordLength, hstart]
  rw [List.cons_append] at hn ⊢
  rw [lexeme?_plain hquote hmark hcolon, hword]
  -- A point may be the start of a number.
  cases hnumber : number? (c :: (cs ++ rest)) with
  | none => exact ⟨kind, n, hn, hle⟩
  | some found =>
    obtain ⟨numberClass, m⟩ := found
    have hone : (c :: cs).length ≤ m := by
      by_cases hc : c = '.'
      · obtain rfl : cs = [] := (List.cons.inj (hpoint _ h (congrArg some hc))).2
        have hne := (isRaw_of_number? hnumber).ne_nil
        exact Nat.pos_of_ne_zero fun hzero => hne (by rw [hzero, List.take_zero])
      · rw [number?_eq_none hdigit hc] at hnumber
        cases hnumber
    cases numberClass <;> exact ⟨_, m, rfl, hone⟩

/-- A string is found where its quote closes it. Another quote continues it, and may leave it open. -/
theorem lexeme?_of_string (body rest : List Char) :
    (∃ kind n, lexeme? ('\'' :: (double body ++ '\'' :: rest)) = some (kind, n) ∧
      (double body).length + 2 ≤ n) ∨
      rest.head? = some '\'' ∧ lexeme? ('\'' :: (double body ++ '\'' :: rest)) = none := by
  rw [lexeme?, closingQuote?_append body ('\'' :: rest)]
  by_cases hrest : rest.head? = some '\''
  · obtain ⟨tail, rfl⟩ := List.head?_eq_some_iff.mp hrest
    rw [closingQuote?]
    cases closingQuote? tail with
    | none => exact .inr ⟨rfl, rfl⟩
    | some m => exact .inl ⟨_, _, rfl, by dsimp only; omega⟩
  · have hclosed : ∀ more, '\'' = '\'' → rest = '\'' :: more → False := by
      rintro more - rfl
      exact hrest rfl
    rw [closingQuote?.eq_3 _ _ hclosed, if_pos rfl]
    exact .inl ⟨_, _, rfl, by dsimp only; omega⟩

/-- **Where a token stands, the scanner finds one that is not shorter**, unless the token is a string
that another quote follows. Such a string may be open. -/
theorem lexeme?_of_isRaw {front : List Char} (h : IsRaw front) (rest : List Char) :
    (∃ kind n, lexeme? (front ++ rest) = some (kind, n) ∧ front.length ≤ n) ∨
      front.head? = some '\'' ∧ rest.head? = some '\'' ∧ lexeme? (front ++ rest) = none := by
  cases h with
  | word hstart hparts =>
    obtain ⟨hquote, hmark, hcolon⟩ := isWordStart_ne hstart
    obtain ⟨n, hn, hle⟩ := le_wordLength hstart hparts rest
    rw [List.cons_append, lexeme?_plain hquote hmark hcolon, hn]
    exact .inl ⟨_, _, rfl, Nat.succ_le_succ hle⟩
  | integer hwhole hne hlong =>
    obtain ⟨numberClass, n, hn, hle⟩ := number?_integer hwhole hne hlong rest
    obtain ⟨kind, hkind⟩ := lexeme?_of_digits hwhole hne hn
    rw [List.append_assoc]
    exact .inl ⟨kind, n, hkind, hle⟩
  | scaled hwhole hne hscale =>
    obtain ⟨numberClass, n, hn, hle⟩ := number?_scaled hwhole hne hscale rest
    obtain ⟨kind, hkind⟩ := lexeme?_of_digits hwhole hne hn
    rw [List.append_assoc]
    exact .inl ⟨kind, n, hkind, hle⟩
  | @point whole fraction scale hwhole hfraction hne hscale =>
    obtain ⟨numberClass, n, hn, hle⟩ := number?_point hwhole hfraction hne hscale rest
    rw [List.append_assoc, List.cons_append, List.append_assoc]
    by_cases hnil : whole = []
    · subst hnil
      obtain ⟨kind, hkind⟩ := lexeme?_of_number (.inr rfl) hn
      exact .inl ⟨kind, n, hkind, hle⟩
    · obtain ⟨kind, hkind⟩ := lexeme?_of_digits hwhole hnil hn
      exact .inl ⟨kind, n, hkind, hle⟩
  | string body =>
    have hlength : ('\'' :: (double body ++ ['\''])).length = (double body).length + 2 := by simp
    rw [hlength, List.cons_append, List.append_assoc, List.singleton_append]
    exact (lexeme?_of_string body rest).imp_right fun hopen => ⟨rfl, hopen⟩
  | @positional digits hall hne =>
    have hpos := List.length_pos_iff.mpr hne
    rw [List.cons_append, lexeme?, digitCount_append hall rest]
    split
    · next hzero => omega
    · exact .inl ⟨_, _, rfl, Nat.succ_le_succ (Nat.le_add_right _ _)⟩
  | named hstart hparts =>
    obtain ⟨n, hn, hle⟩ := le_wordLength hstart hparts rest
    rw [List.cons_append, List.cons_append, lexeme?, hn]
    exact .inl ⟨_, _, rfl, Nat.succ_le_succ (Nat.succ_le_succ hle)⟩
  | symbol h => exact .inl (lexeme?_of_symbol h rest)

/-! ## The longest token -/

/-- **The longest token at the front of a text.** -/
structure IsLongest (front rest : List Char) : Prop where
  raw : IsRaw front
  longest : ∀ other back, front ++ rest = other ++ back → IsRaw other → other.length ≤ front.length

/-- **The scanner finds the longest token.** -/
theorem lexeme?_longest {front rest : List Char} {kind : TokenKind}
    (h : lexeme? (front ++ rest) = some (kind, front.length)) : IsLongest front rest := by
  refine ⟨?_, fun other back hsplit hother => ?_⟩
  · have hraw := isRaw_of_lexeme? h
    rwa [List.take_left] at hraw
  · rw [hsplit] at h
    rcases lexeme?_of_isRaw hother back with ⟨found, n, hn, hle⟩ | ⟨-, -, hnone⟩
    · rw [hn] at h
      obtain ⟨-, rfl⟩ := Prod.mk.inj (Option.some.inj h)
      exact hle
    · rw [hnone] at h
      cases h

/-- Where the scanner finds nothing there is no token, but for strings that another quote follows. -/
theorem head?_of_lexeme?_none {cs front back : List Char} (h : lexeme? cs = none)
    (hsplit : cs = front ++ back) (hraw : IsRaw front) :
    cs.head? = some '\'' ∧ back.head? = some '\'' := by
  subst hsplit
  rcases lexeme?_of_isRaw hraw back with ⟨kind, n, hn, -⟩ | ⟨hfront, hback, -⟩
  · rw [h] at hn
    cases hn
  · exact ⟨by rw [List.head?_append, hfront]; rfl, hback⟩

end Jpql.Scan
