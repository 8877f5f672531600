import Jpql.Proofs.Token.Solid

/-! # Tokens and what follows them

The token at the front of a text depends on the token's own characters and on what follows them. It
does not matter how far the text goes on: a token that fits into a part of the text is the token of
that part alone.

* `Scan.Local`: a measure that the rest of a text does not change, as long as its value fits into the
  part before.
* `Scan.lexeme?_of_append`: a token that fits into the first part of a text is the token of that part.
* `Scan.Resumes`: two texts start alike, up to a gap or the end of the second.
  `Scan.Resumes.lexeme?_eq`: a token is still found where such a text replaces what followed it. -/

namespace Jpql.Scan

/-! ## Measures of a part -/

/-- **The measure of a text is that of its first part**, if it is no longer than this part. -/
def Local (f : List Char → Nat) : Prop :=
  ∀ cs tail, f (cs ++ tail) ≤ cs.length → f cs = f (cs ++ tail)

theorem local_takeWhile (p : Char → Bool) : Local fun cs => (cs.takeWhile p).length := by
  intro cs tail h
  induction cs with
  | nil => exact (Nat.le_zero.mp h).symm
  | cons c cs ih =>
    simp only [List.cons_append, List.takeWhile_cons] at h ⊢
    split at h
    · simp only [List.length_cons, Nat.add_le_add_iff_right] at h
      simp only [if_pos ‹p c = true›, List.length_cons, ih h]
    · simp only [if_neg ‹¬p c = true›]

theorem local_digitCount : Local digitCount := local_takeWhile Char.isDigit

theorem local_wordLength : Local wordLength := by
  intro cs tail h
  cases cs with
  | nil => exact (Nat.le_zero.mp h).symm
  | cons c cs =>
    simp only [List.cons_append, wordLength] at h ⊢
    split at h
    · simp only [if_pos ‹isWordStart c = true›]
      rw [List.length_cons, Nat.add_le_add_iff_right] at h
      exact congrArg (· + 1) (local_takeWhile isWordPart cs tail h)
    · simp only [if_neg ‹¬isWordStart c = true›]

theorem local_markLength (letters : List Char) : Local (markLength letters) := by
  intro cs tail h
  cases cs with
  | nil => exact (Nat.le_zero.mp h).symm
  | cons c cs => rfl

/-- Behind the first characters the same measure is taken of what is left of the part. -/
theorem Local.drop {f : List Char → Nat} (hf : Local f) {cs : List Char} (tail : List Char) {n : Nat}
    (hn : n ≤ cs.length) (h : f ((cs ++ tail).drop n) ≤ cs.length - n) :
    f (cs.drop n) = f ((cs ++ tail).drop n) := by
  rw [List.drop_append_of_le_length hn] at h ⊢
  exact hf _ _ (by rwa [List.length_drop])

theorem markLength_le_one (letters cs : List Char) : markLength letters cs ≤ 1 := by
  cases cs with
  | nil => exact Nat.zero_le _
  | cons c cs =>
    rw [markLength]
    split <;> simp

theorem markLength_append (letters cs tail : List Char) :
    markLength letters cs ≤ markLength letters (cs ++ tail) := by
  cases cs with
  | nil => exact Nat.zero_le _
  | cons c cs => exact Nat.le_refl _

theorem local_exponentLength : Local exponentLength := by
  intro cs tail h
  match cs with
  | [] => exact (Nat.le_zero.mp h).symm
  | [c] =>
    have hnone : exponentLength [c] = 0 := by
      unfold exponentLength
      split <;> rfl
    rw [hnone]
    unfold exponentLength at h ⊢
    dsimp only at h ⊢
    split at h
    · rw [if_pos ‹_›]
    · split at h
      · rw [if_neg ‹_›, if_pos ‹_›]
      · rw [List.length_singleton] at h
        omega
  | c :: d :: cs =>
    have hletter : markLength ['e', 'E'] (c :: d :: cs ++ tail) =
        markLength ['e', 'E'] (c :: d :: cs) := rfl
    have hsign : markLength ['+', '-'] ((c :: d :: cs ++ tail).drop 1) =
        markLength ['+', '-'] ((c :: d :: cs).drop 1) := rfl
    have hone := markLength_le_one ['+', '-'] ((c :: d :: cs).drop 1)
    unfold exponentLength at h ⊢
    rw [hletter, hsign] at h
    rw [hletter, hsign]
    dsimp only at h ⊢
    split at h
    · rw [if_pos ‹_›, if_pos ‹_›]
    · -- no digits, or few enough of them: either way they are those of the part
      have hdigits : digitCount ((c :: d :: cs).drop
          (1 + markLength ['+', '-'] ((c :: d :: cs).drop 1))) = _ :=
        local_digitCount.drop tail (by simp only [List.length_cons]; omega) (by
          split at h
          · omega
          · omega)
      rw [hdigits]

theorem local_scaleLength : Local scaleLength := by
  intro cs tail h
  have hexponent : exponentLength cs = exponentLength (cs ++ tail) :=
    local_exponentLength cs tail (Nat.le_trans (Nat.le_add_right _ _) h)
  have hle := exponentLength_le cs
  unfold scaleLength at h ⊢
  dsimp only at h ⊢
  rw [← hexponent] at h ⊢
  rw [(local_markLength _).drop tail hle (by omega)]

/-! ## Tokens of a part -/

theorem number?_of_append {cs tail : List Char} {numberClass : NumberClass} {n : Nat}
    (h : number? (cs ++ tail) = some (numberClass, n)) (hn : n ≤ cs.length) :
    number? cs = some (numberClass, n) := by
  unfold number? at h ⊢
  simp only [List.drop_drop] at h ⊢
  split at h
  · next hpoint =>
    split at h
    · cases h
    · next hdigits =>
      obtain ⟨rfl, rfl⟩ := Prod.mk.inj (Option.some.inj h)
      have hwhole := local_digitCount cs tail (by omega)
      rw [← hwhole] at hpoint hdigits hn
      have hpoint' := (local_markLength ['.']).drop tail
        (show digitCount cs ≤ cs.length by omega) (by omega)
      have hfraction := local_digitCount.drop tail
        (show digitCount cs + 1 ≤ cs.length by omega) (by omega)
      rw [← hfraction] at hdigits hn
      have hscale := local_scaleLength.drop tail (show digitCount cs +
        (1 + digitCount (cs.drop (digitCount cs + 1))) ≤ cs.length by omega) (by omega)
      rw [← hwhole, ← hfraction, if_pos (hpoint'.trans hpoint), if_neg hdigits, hscale]
  · next hpoint =>
    split at h
    · cases h
    · next hdigits =>
      have hwhole : digitCount cs = digitCount (cs ++ tail) := local_digitCount cs tail (by
        split at h <;> obtain ⟨-, rfl⟩ := Prod.mk.inj (Option.some.inj h) <;> omega)
      rw [← hwhole] at h hpoint hdigits
      have hle := digitCount_le cs
      have hscale : scaleLength (cs.drop (digitCount cs)) = _ := local_scaleLength.drop tail hle (by
        split at h <;> obtain ⟨-, rfl⟩ := Prod.mk.inj (Option.some.inj h) <;> omega)
      have hnot : markLength ['.'] (cs.drop (digitCount cs)) ≠ 1 := by
        have hmono := markLength_append ['.'] (cs.drop (digitCount cs)) tail
        rw [← List.drop_append_of_le_length hle] at hmono
        have hone := markLength_le_one ['.'] ((cs ++ tail).drop (digitCount cs))
        omega
      rw [if_neg hnot, if_neg hdigits, hscale]
      split at h
      · obtain ⟨rfl, rfl⟩ := Prod.mk.inj (Option.some.inj h)
        rw [(local_markLength ['l', 'L']).drop tail hle (by omega)]
      · exact h

/-- No number starts a part of a text that no number starts. -/
theorem number?_eq_none_of_append {cs tail : List Char} (h : number? (cs ++ tail) = none) :
    number? cs = none := by
  cases cs with
  | nil => rfl
  | cons c cs =>
    unfold number? at h ⊢
    simp only [List.drop_drop] at h ⊢
    have hwhole : digitCount (c :: cs ++ tail) = 0 := by
      split at h
      · split at h
        · next hdigits => exact hdigits.1
        · cases h
      · split at h
        · assumption
        · split at h <;> cases h
    rw [hwhole] at h
    rw [local_digitCount (c :: cs) tail (by omega), hwhole]
    have hpoint : markLength ['.'] ((c :: cs ++ tail).drop 0) =
        markLength ['.'] ((c :: cs).drop 0) := rfl
    rw [hpoint] at h
    split
    · rw [if_pos ‹_›] at h
      split at h
      · next hdigits =>
        have hfraction := local_digitCount.drop tail
          (show 0 + 1 ≤ (c :: cs).length by simp) (by omega)
        rw [if_pos ⟨rfl, hfraction.trans hdigits.2⟩]
      · cases h
    · rw [if_pos rfl]

theorem symbol?_of_append {cs tail : List Char} {kind : TokenKind} {n : Nat}
    (h : symbol? (cs ++ tail) = some (kind, n)) (hn : n ≤ cs.length) :
    symbol? cs = some (kind, n) := by
  obtain _ | ⟨c, cs⟩ := cs
  · unfold symbol? at h
    split at h <;> cases h <;> cases hn
  rw [List.cons_append] at h
  unfold symbol? at h
  split at h <;> rename_i heq <;> cases h <;> obtain ⟨rfl, hrest⟩ := List.cons.inj heq
  -- two characters, one that must not be followed by certain others, or one by itself
  case h_6 | h_7 | h_8 | h_10 =>
    obtain _ | ⟨d, ds⟩ := cs
    · exact absurd hn (by simp)
    · obtain ⟨rfl, -⟩ := List.cons.inj hrest
      rfl
  case h_9 hgreater hequal | h_11 hequal =>
    obtain _ | ⟨d, ds⟩ := cs
    · rfl
    · subst hrest
      unfold symbol?
      split <;> simp_all
  all_goals rfl

theorem closingQuote?_of_append {cs tail : List Char} {n : Nat}
    (h : closingQuote? (cs ++ tail) = some n) (hn : n ≤ cs.length) :
    closingQuote? cs = some n := by
  induction cs using closingQuote?.induct generalizing n with
  | case1 =>
    obtain ⟨value, rest, -, hlength, -⟩ := closingQuote?_eq_some h
    rw [List.length_nil] at hn
    omega
  | case2 cs ih =>
    rw [List.cons_append, List.cons_append, closingQuote?, Option.map_eq_some_iff] at h
    obtain ⟨m, hm, rfl⟩ := h
    rw [closingQuote?, ih hm (by simpa using hn)]
    rfl
  | case3 cs hne =>
    obtain _ | ⟨c, cs⟩ := cs
    · -- a quote at the end of the part closes the string, unless the next one doubles it
      obtain rfl : n = 1 := by
        rw [List.length_singleton] at hn
        obtain ⟨value, rest, -, hlength, -⟩ := closingQuote?_eq_some h
        omega
      rfl
    · have hmore : ∀ more, '\'' = '\'' → c :: cs ++ tail = '\'' :: more → False := by
        intro more _ heq
        obtain ⟨rfl, -⟩ := List.cons.inj heq
        exact hne cs rfl rfl
      rw [List.cons_append, closingQuote?.eq_3 _ _ hmore, if_pos rfl] at h
      rw [closingQuote?.eq_3 _ _ hne, if_pos rfl, h]
  | case4 c cs hne hc ih =>
    rw [List.cons_append, closingQuote?.eq_3 _ _ fun _ he => absurd he hc, if_neg hc,
      Option.map_eq_some_iff] at h
    obtain ⟨m, hm, rfl⟩ := h
    rw [closingQuote?.eq_3 _ _ hne, if_neg hc, ih hm (by simpa using hn)]
    rfl

/-- **A token that fits into the first part of a text** is the token of that part. -/
theorem lexeme?_of_append {cs tail : List Char} {kind : TokenKind} {n : Nat}
    (h : lexeme? (cs ++ tail) = some (kind, n)) (hn : n ≤ cs.length) :
    lexeme? cs = some (kind, n) := by
  rcases cs with _ | ⟨c, body⟩
  · obtain ⟨-, front, last, htake, -⟩ := lexeme?_last h
    obtain rfl := Nat.le_zero.mp hn
    exact absurd htake (by simp)
  have htake : ∀ (body : List Char) (n : Nat), n ≤ body.length →
      (body ++ tail).take n = body.take n := fun body n hn => List.take_append_of_le_length hn
  rw [List.length_cons] at hn
  by_cases hquote : c = '\''
  · subst hquote
    rw [List.cons_append, lexeme?, Option.map_eq_some_iff] at h
    obtain ⟨m, hm, heq⟩ := h
    obtain ⟨hkind, rfl⟩ := Prod.mk.inj heq
    rw [htake body _ (by omega)] at hkind
    rw [lexeme?, closingQuote?_of_append hm (by omega), Option.map_some, hkind]
  by_cases hmark : c = '?'
  · subst hmark
    rw [List.cons_append, lexeme?] at h
    split at h
    · cases h
    · next m hm =>
      obtain ⟨hkind, rfl⟩ := Prod.mk.inj (Option.some.inj h)
      rw [htake body _ (by omega)] at hkind
      rw [lexeme?, local_digitCount body tail (by omega)]
      split
      · exact absurd ‹_› hm
      · rw [hkind]
  by_cases hcolon : c = ':'
  · subst hcolon
    rw [List.cons_append, lexeme?] at h
    split at h
    · cases h
    · next m hm =>
      obtain ⟨hkind, rfl⟩ := Prod.mk.inj (Option.some.inj h)
      rw [htake body _ (by omega)] at hkind
      rw [lexeme?, local_wordLength body tail (by omega)]
      split
      · exact absurd ‹_› hm
      · rw [hkind]
  rw [List.cons_append, lexeme?_plain hquote hmark hcolon, ← List.cons_append] at h
  rw [lexeme?_plain hquote hmark hcolon]
  split at h
  · next m hm =>
    obtain ⟨hkind, rfl⟩ := Prod.mk.inj (Option.some.inj h)
    rw [htake _ _ hn] at hkind
    rw [local_wordLength (c :: body) tail (by rw [hm]; exact hn), hm]
    dsimp only
    rw [hkind]
  · next hm =>
    rw [local_wordLength (c :: body) tail (by rw [hm]; exact Nat.zero_le _), hm]
    dsimp only
    split at h
    · next m hnumber =>
      obtain ⟨hkind, rfl⟩ := Prod.mk.inj (Option.some.inj h)
      rw [htake _ _ hn] at hkind
      rw [number?_of_append hnumber hn]
      dsimp only
      rw [hkind]
    · next m hnumber =>
      obtain ⟨hkind, rfl⟩ := Prod.mk.inj (Option.some.inj h)
      rw [htake _ _ hn] at hkind
      rw [number?_of_append hnumber hn]
      dsimp only
      rw [hkind]
    · next hnumber =>
      rw [number?_eq_none_of_append hnumber]
      exact symbol?_of_append h hn

/-! ## Changed contexts -/

/-- **The second text starts as the first does**, up to its end or to a gap in it. -/
def Resumes (old new : List Char) : Prop :=
  ∃ common tail more, old = common ++ tail ∧ new = common ++ more ∧
    ∀ c ∈ more.head?, isGap c = true

namespace Resumes

variable {old new : List Char}

/-- A gap, or nothing, may stand in front of anything. -/
theorem of_gap (old : List Char) (h : ∀ c ∈ new.head?, isGap c = true) : Resumes old new :=
  ⟨[], old, new, rfl, rfl, h⟩

theorem append (h : Resumes old new) (cs : List Char) : Resumes (cs ++ old) (cs ++ new) := by
  obtain ⟨common, tail, more, rfl, rfl, hgap⟩ := h
  exact ⟨cs ++ common, tail, more, by simp, by simp, hgap⟩

/-- **A token is still found** where another text resumes what followed it. -/
theorem lexeme?_eq (h : Resumes old new) {cs : List Char} {kind : TokenKind}
    (hl : lexeme? (cs ++ old) = some (kind, cs.length)) :
    lexeme? (cs ++ new) = some (kind, cs.length) := by
  obtain ⟨common, tail, more, rfl, rfl, hgap⟩ := h
  rw [← List.append_assoc] at hl
  have hpart := lexeme?_of_append hl (by simp)
  rw [← List.append_assoc]
  cases more with
  | nil => rwa [List.append_nil]
  | cons g more => exact lexeme?_append_gap (hgap g rfl) _ _ hpart

end Resumes

end Jpql.Scan
