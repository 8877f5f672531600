import Jpql.Proofs.Token.Spelling
import Jpql.Text.Blank

/-! # The characters of tokens

A *solid* character is neither a blank nor a quote. Every token but a string is made of solid
characters, and a string is a text with its quotes doubled, between two quotes. So a token never ends
in a blank, and blanks stand between tokens or inside strings only.

* `Scan.lexeme?_solid`: what a token that is no string is made of.
* `Scan.closingQuote?_eq_some`: what a string is made of. -/

namespace Jpql.Scan

/-- A character that is neither a blank nor a quote. -/
def isSolid (c : Char) : Bool := !Text.isBlank c && c != '\''

/-- The first `n` characters are solid. -/
def Solid (cs : List Char) (n : Nat) : Prop := ∀ c ∈ cs.take n, isSolid c = true

/-! ## Words and numbers -/

/-- The characters of words are ASCII letters and digits, `_` and `$`. -/
theorem isWordPart_cases {c : Char} (h : isWordPart c = true) : (48 ≤ c.toNat ∧ c.toNat ≤ 57) ∨
    (65 ≤ c.toNat ∧ c.toNat ≤ 90) ∨ (97 ≤ c.toNat ∧ c.toNat ≤ 122) ∨ c = '_' ∨ c = '$' := by
  simp only [isWordPart, isWordStart, Bool.or_eq_true, isAlpha_iff, beq_iff_eq] at h
  rcases h with (((hupper | hlower) | hline) | hdollar) | hdigit
  · exact .inr (.inl hupper)
  · exact .inr (.inr (.inl hlower))
  · exact .inr (.inr (.inr (.inl hline)))
  · exact .inr (.inr (.inr (.inr hdollar)))
  · exact .inl (Char.isDigit_iff_toNat.mp hdigit)

theorem toNat_lt_of_isWordPart {c : Char} (h : isWordPart c = true) : c.toNat < 128 := by
  rcases isWordPart_cases h with h | h | h | rfl | rfl
  · omega
  · omega
  · omega
  · decide
  · decide

theorem isSolid_of_isWordPart {c : Char} (h : isWordPart c = true) : isSolid c = true := by
  have hascii : ∀ n : Nat, c.toNat = n → (48 ≤ n ∧ n ≤ 57) ∨ (65 ≤ n ∧ n ≤ 90) ∨
      (97 ≤ n ∧ n ≤ 122) → isSolid c = true := by
    rintro n rfl hn
    have hquote : c ≠ '\'' := by
      rintro rfl
      simp at hn
    simp only [isSolid, Text.isBlank, Bool.and_eq_true, Bool.not_eq_true', Bool.or_eq_false_iff,
      Bool.and_eq_false_iff, decide_eq_false_iff_not, beq_eq_false_iff_ne, bne_iff_ne]
    refine ⟨?_, hquote⟩
    omega
  rcases isWordPart_cases h with h | h | h | rfl | rfl
  · exact hascii _ rfl (.inl h)
  · exact hascii _ rfl (.inr (.inl h))
  · exact hascii _ rfl (.inr (.inr h))
  · rfl
  · rfl

theorem isSolid_of_isDigit {c : Char} (h : c.isDigit = true) : isSolid c = true :=
  isSolid_of_isWordPart (by simp [isWordPart, h])

theorem solid_zero (cs : List Char) : Solid cs 0 := fun c hc => by
  rw [List.take_zero] at hc
  exact absurd hc List.not_mem_nil

theorem Solid.add {cs : List Char} {m n : Nat} (h : Solid cs m) (k : Solid (cs.drop m) n) :
    Solid cs (m + n) := fun c hc => by
  rw [List.take_add, List.mem_append] at hc
  exact hc.elim (h c) (k c)

theorem Solid.cons {c : Char} {cs : List Char} {n : Nat} (hc : isSolid c = true)
    (h : Solid cs n) : Solid (c :: cs) (n + 1) := fun d hd => by
  rw [List.take_succ_cons] at hd
  rcases List.mem_cons.mp hd with rfl | hd
  · exact hc
  · exact h d hd

theorem solid_takeWhile {p : Char → Bool} (hp : ∀ c, p c = true → isSolid c = true)
    (cs : List Char) : Solid cs (cs.takeWhile p).length := fun c hc => by
  rw [← List.prefix_iff_eq_take.mp (List.takeWhile_prefix p)] at hc
  exact hp c (List.mem_takeWhile_imp hc)

theorem solid_digitCount (cs : List Char) : Solid cs (digitCount cs) :=
  solid_takeWhile (fun _ => isSolid_of_isDigit) cs

theorem solid_markLength {letters : List Char} (hletters : letters.all isSolid = true)
    (cs : List Char) : Solid cs (markLength letters cs) := by
  cases cs with
  | nil => exact solid_zero _
  | cons c cs =>
    rw [markLength]
    split
    · next hmem =>
      exact .cons (List.all_eq_true.mp hletters c (by simpa using hmem)) (solid_zero cs)
    · exact solid_zero _

theorem solid_wordLength (cs : List Char) : Solid cs (wordLength cs) := by
  cases cs with
  | nil => exact solid_zero _
  | cons c cs =>
    rw [wordLength]
    split
    · next hstart =>
      exact .cons (isSolid_of_isWordPart (by simp [isWordPart, hstart]))
        (solid_takeWhile (fun _ => isSolid_of_isWordPart) cs)
    · exact solid_zero _

theorem solid_exponentLength (cs : List Char) : Solid cs (exponentLength cs) := by
  unfold exponentLength
  split
  · exact solid_zero cs
  · next hmark =>
    dsimp only
    split
    · exact solid_zero cs
    · have hone : markLength ['e', 'E'] cs = 1 := by
        cases cs with
        | nil => exact absurd rfl hmark
        | cons c cs =>
          rw [markLength] at hmark ⊢
          split at hmark
          · exact if_pos ‹_›
          · exact absurd rfl hmark
      have hfirst : Solid cs 1 := hone ▸ solid_markLength rfl cs
      exact (hfirst.add (solid_markLength rfl _)).add (solid_digitCount _)

theorem solid_scaleLength (cs : List Char) : Solid cs (scaleLength cs) :=
  (solid_exponentLength cs).add (solid_markLength rfl _)

/-- A number is solid, and takes up a character at least. -/
theorem solid_number {cs : List Char} {numberClass : NumberClass} {n : Nat}
    (h : number? cs = some (numberClass, n)) : Solid cs n ∧ 0 < n := by
  have hwhole := solid_digitCount cs
  unfold number? at h
  dsimp only at h
  split at h
  · next hpoint =>
    split_ifs at h
    obtain ⟨-, rfl⟩ := Prod.mk.inj (Option.some.inj h)
    have hdot : Solid (cs.drop (digitCount cs)) 1 := hpoint ▸ solid_markLength rfl _
    refine ⟨?_, by omega⟩
    have hfraction := (hdot.add (solid_digitCount _)).add (solid_scaleLength _)
    have hall := hwhole.add hfraction
    rwa [← Nat.add_assoc, ← Nat.add_assoc] at hall
  · split_ifs at h with hzero
    split at h
    · obtain ⟨-, rfl⟩ := Prod.mk.inj (Option.some.inj h)
      exact ⟨hwhole.add (solid_markLength rfl _), by omega⟩
    · next scale hscale =>
      obtain ⟨-, rfl⟩ := Prod.mk.inj (Option.some.inj h)
      have hsolid := solid_scaleLength (cs.drop (digitCount cs))
      rw [hscale] at hsolid
      exact ⟨hwhole.add hsolid, by omega⟩

theorem solid_symbol {cs : List Char} {kind : TokenKind} {n : Nat}
    (h : symbol? cs = some (kind, n)) : Solid cs n ∧ 0 < n ∧ kind ≠ .eof := by
  unfold symbol? at h
  split at h <;> cases h <;> exact ⟨by simp [Solid]; decide, by decide, by simp⟩

/-- **A token that is no string is solid**, takes up a character at least, and is not the end. -/
theorem lexeme?_solid {c : Char} {cs : List Char} {kind : TokenKind} {n : Nat} (hquote : c ≠ '\'')
    (h : lexeme? (c :: cs) = some (kind, n)) : Solid (c :: cs) n ∧ 0 < n ∧ kind ≠ .eof := by
  by_cases hmark : c = '?'
  · subst hmark
    rw [lexeme?] at h
    split at h
    · cases h
    · obtain ⟨rfl, rfl⟩ := Prod.mk.inj (Option.some.inj h)
      exact ⟨.cons rfl (solid_digitCount cs), by omega, by simp⟩
  by_cases hcolon : c = ':'
  · subst hcolon
    rw [lexeme?] at h
    split at h
    · cases h
    · obtain ⟨rfl, rfl⟩ := Prod.mk.inj (Option.some.inj h)
      exact ⟨.cons rfl (solid_wordLength cs), by omega, by simp⟩
  rw [lexeme?_plain hquote hmark hcolon] at h
  split at h
  · next n hn =>
    obtain ⟨rfl, rfl⟩ := Prod.mk.inj (Option.some.inj h)
    have hsolid := solid_wordLength (c :: cs)
    rw [hn] at hsolid
    refine ⟨hsolid, by omega, ?_⟩
    unfold wordKind
    split <;> simp
  · split at h
    · next n hn =>
      obtain ⟨rfl, rfl⟩ := Prod.mk.inj (Option.some.inj h)
      exact ⟨(solid_number hn).1, (solid_number hn).2, by simp⟩
    · next n hn =>
      obtain ⟨rfl, rfl⟩ := Prod.mk.inj (Option.some.inj h)
      exact ⟨(solid_number hn).1, (solid_number hn).2, by simp⟩
    · exact solid_symbol h

/-! ## Strings -/

/-- **A string is closed by its first single quote.** What stands before has its quotes doubled. -/
theorem closingQuote?_eq_some {cs : List Char} {n : Nat} (h : closingQuote? cs = some n) :
    ∃ value rest, cs = double value ++ '\'' :: rest ∧ n = (double value).length + 1 ∧
      rest.head? ≠ some '\'' := by
  induction cs using closingQuote?.induct generalizing n with
  | case1 => cases h
  | case2 cs ih =>
    rw [closingQuote?, Option.map_eq_some_iff] at h
    obtain ⟨m, hm, rfl⟩ := h
    obtain ⟨value, rest, rfl, rfl, hrest⟩ := ih hm
    exact ⟨'\'' :: value, rest, rfl, rfl, hrest⟩
  | case3 cs hne =>
    rw [closingQuote?.eq_3 _ _ hne, if_pos rfl] at h
    obtain rfl := Option.some.inj h
    refine ⟨[], cs, rfl, rfl, fun hhead => ?_⟩
    cases cs with
    | nil => cases hhead
    | cons c cs => exact hne cs rfl (congrArg (· :: cs) (Option.some.inj hhead))
  | case4 c cs hne hc ih =>
    rw [closingQuote?.eq_3 _ _ hne, if_neg hc, Option.map_eq_some_iff] at h
    obtain ⟨m, hm, rfl⟩ := h
    obtain ⟨value, rest, rfl, rfl, hrest⟩ := ih hm
    refine ⟨c :: value, rest, ?_, ?_, hrest⟩
    · rw [double, if_neg hc]
      rfl
    · rw [double, if_neg hc]
      rfl

/-- **A string token** is a text with its quotes doubled, between two quotes. -/
theorem lexeme?_quote {cs : List Char} {kind : TokenKind} {n : Nat}
    (h : lexeme? ('\'' :: cs) = some (kind, n)) :
    ∃ value rest, cs = double value ++ '\'' :: rest ∧ n = (double value).length + 2 ∧
      rest.head? ≠ some '\'' ∧ kind = .string (String.ofList value) := by
  rw [lexeme?, Option.map_eq_some_iff] at h
  obtain ⟨m, hm, heq⟩ := h
  obtain ⟨value, rest, rfl, rfl, hrest⟩ := closingQuote?_eq_some hm
  obtain ⟨rfl, rfl⟩ := Prod.mk.inj heq
  refine ⟨value, rest, rfl, rfl, hrest, ?_⟩
  rw [Nat.add_sub_cancel, List.take_left, unquote_double]

/-- **No token ends in a blank**, and none is the end of the text. -/
theorem lexeme?_last {cs : List Char} {kind : TokenKind} {n : Nat}
    (h : lexeme? cs = some (kind, n)) :
    kind ≠ .eof ∧ ∃ front last, cs.take n = front ++ [last] ∧ Text.isBlank last = false := by
  cases cs with
  | nil => cases h
  | cons c cs =>
    by_cases hquote : c = '\''
    · subst hquote
      obtain ⟨value, rest, rfl, rfl, -, rfl⟩ := lexeme?_quote h
      refine ⟨by simp, '\'' :: double value, '\'', ?_, rfl⟩
      rw [List.take_succ_cons, List.take_append, List.take_of_length_le (Nat.le_succ _)]
      simp
    · obtain ⟨hsolid, hpos, hkind⟩ := lexeme?_solid hquote h
      refine ⟨hkind, ?_⟩
      obtain ⟨m, rfl⟩ := Nat.exists_eq_succ_of_ne_zero (Nat.pos_iff_ne_zero.mp hpos)
      have hne : (c :: cs).take (m + 1) ≠ [] := by simp
      obtain ⟨front, last, heq⟩ := List.eq_nil_or_concat ((c :: cs).take (m + 1)) |>.resolve_left hne
      rw [List.concat_eq_append] at heq
      refine ⟨front, last, heq, ?_⟩
      have hlast := hsolid last (by rw [heq]; simp)
      simp only [isSolid, Bool.and_eq_true, Bool.not_eq_true'] at hlast
      exact hlast.1

end Jpql.Scan
