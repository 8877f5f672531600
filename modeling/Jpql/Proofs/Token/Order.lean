import Jpql.Proofs.Token.Solid

/-! # Tokens in the order of the text

The scanner moves from left to right. So every token starts where the one before it has ended or
later, only the last token is the end of the text, and all others end before the blanks at the end of
the text do.

* `Token.Run`: tokens that follow one another.
* `tokenize_run`: those of a text do, whatever the scanner meets on its way. -/

namespace Jpql

/-- **Tokens that follow one another** from an offset on, the last of them `eof`. All others take up
some text, and end by the limit. -/
inductive Token.Run (limit : Nat) : Nat → List Token → Prop
  | eof {low stop : Nat} (h : low ≤ stop) : Run limit low [⟨.eof, .point stop⟩]
  | token {low : Nat} {token : Token} {rest : List Token} (hlow : low ≤ token.span.start)
      (hspan : token.span.start < token.span.stop) (hlimit : token.span.stop ≤ limit)
      (hkind : token.kind ≠ .eof) (h : Run limit token.span.stop rest) :
      Run limit low (token :: rest)

namespace Token.Run

variable {limit low : Nat} {tokens : List Token}

theorem mono {other : Nat} (h : Run limit low tokens) (hle : other ≤ low) :
    Run limit other tokens := by
  cases h with
  | eof h => exact .eof (Nat.le_trans hle h)
  | token hlow hspan hlimit hkind h => exact .token (Nat.le_trans hle hlow) hspan hlimit hkind h

theorem ne_nil (h : Run limit low tokens) : tokens ≠ [] := by
  cases h <;> simp

/-- Each token is a range of the text, after the offset. -/
theorem bounds (h : Run limit low tokens) :
    ∀ token ∈ tokens, low ≤ token.span.start ∧ token.span.start ≤ token.span.stop := by
  induction h with
  | eof h =>
    intro token hmem
    rw [List.mem_singleton.mp hmem]
    exact ⟨h, Nat.le_refl _⟩
  | token hlow hspan _ _ _ ih =>
    intro other hmem
    rcases List.mem_cons.mp hmem with rfl | hmem
    · exact ⟨hlow, Nat.le_of_lt hspan⟩
    · have hother := ih other hmem
      exact ⟨by omega, hother.2⟩

/-- No token starts before an earlier one has ended. -/
theorem pairwise (h : Run limit low tokens) :
    tokens.Pairwise fun a b => a.span.stop ≤ b.span.start := by
  induction h with
  | eof => exact List.pairwise_singleton _ _
  | token _ _ _ _ h ih => exact .cons (fun other hmem => (h.bounds other hmem).1) ih

theorem stop_le (h : Run limit low tokens) :
    ∀ token ∈ tokens, token.kind ≠ .eof → token.span.stop ≤ limit := by
  induction h with
  | eof =>
    intro token hmem hkind
    rw [List.mem_singleton.mp hmem] at hkind
    exact absurd rfl hkind
  | token _ _ hlimit _ _ ih =>
    intro other hmem hkind
    rcases List.mem_cons.mp hmem with rfl | hmem
    · exact hlimit
    · exact ih other hmem hkind

/-- Tokens before the end of the text take up some of it. -/
theorem start_lt_stop (h : Run limit low tokens) :
    ∀ token ∈ tokens, token.kind ≠ .eof → token.span.start < token.span.stop := by
  induction h with
  | eof =>
    intro token hmem hkind
    rw [List.mem_singleton.mp hmem] at hkind
    exact absurd rfl hkind
  | token _ hspan _ _ _ ih =>
    intro other hmem hkind
    rcases List.mem_cons.mp hmem with rfl | hmem
    · exact hspan
    · exact ih other hmem hkind

/-- Only the last token is the end of the text, and it is empty. -/
theorem eof_iff (h : Run limit low tokens) : ∀ i (hi : i < tokens.length),
    (tokens[i].kind = .eof ↔ i + 1 = tokens.length) ∧
      (tokens[i].kind = .eof → tokens[i].span.start = tokens[i].span.stop) := by
  induction h with
  | eof =>
    intro i hi
    obtain rfl : i = 0 := Nat.lt_one_iff.mp hi
    simp [Span.point]
  | @token _ token rest _ _ _ hkind h ih =>
    intro i hi
    have hpos : 0 < rest.length := List.length_pos_iff.mpr h.ne_nil
    cases i with
    | zero =>
      rw [List.getElem_cons_zero, List.length_cons]
      exact ⟨⟨fun he => absurd he hkind, fun he => by omega⟩, fun he => absurd he hkind⟩
    | succ i =>
      rw [List.getElem_cons_succ, List.length_cons, Nat.add_right_cancel_iff]
      exact ih i (by simpa using hi)

end Token.Run

namespace Text

/-- The length of a text without the blanks at its end. -/
def trimmedBytes (cs : List Char) : Nat := byteLength (cs.reverse.dropWhile isBlank)

theorem byteLength_reverse (cs : List Char) : byteLength cs.reverse = byteLength cs := by
  induction cs with
  | nil => rfl
  | cons c cs ih =>
    rw [List.reverse_cons, byteLength_append, ih, byteLength_cons, byteLength_cons, byteLength_nil]
    omega

/-- What ends in a character that is no blank is not trimmed. -/
theorem byteLength_le_trimmedBytes (front rest : List Char) {last : Char}
    (hlast : isBlank last = false) :
    byteLength (front ++ [last]) ≤ trimmedBytes (front ++ [last] ++ rest) := by
  have hkept : byteLength (front ++ [last]) = byteLength (last :: front.reverse) := by
    rw [byteLength_append, byteLength_cons, byteLength_cons, byteLength_reverse, byteLength_nil]
    omega
  have hdrop : (last :: front.reverse).dropWhile isBlank = last :: front.reverse := by
    rw [List.dropWhile_cons, hlast]
    rfl
  have hreverse : (front ++ [last] ++ rest).reverse = rest.reverse ++ last :: front.reverse := by
    simp
  rw [trimmedBytes, hreverse, List.dropWhile_append, hdrop, hkept]
  split
  · exact Nat.le_refl _
  · rw [byteLength_append]
    exact Nat.le_add_left _ _

end Text

namespace Scan

/-- **The tokens of a text follow one another.** What the token read last still takes up comes before
them. -/
theorem scan_run (cs before : List Char) (skip : Nat) :
    Token.Run (Text.trimmedBytes (before ++ cs))
      (Text.byteLength before + Text.byteLength (cs.take skip))
      (scan skip (Text.byteLength before) cs).tokens := by
  induction cs generalizing before skip with
  | nil => cases skip <;> exact .eof (Nat.le_refl _)
  | cons c cs ih =>
    have hnext : Text.byteLength before + c.utf8Size = Text.byteLength (before ++ [c]) := by simp
    have hwhole : before ++ [c] ++ cs = before ++ c :: cs := by simp
    have hrest : ∀ n, Token.Run (Text.trimmedBytes (before ++ c :: cs))
        (Text.byteLength before + Text.byteLength (c :: cs.take n))
        (scan n (Text.byteLength before + c.utf8Size) cs).tokens := by
      intro n
      have h := ih (before ++ [c]) n
      rw [hwhole, ← hnext] at h
      rwa [Text.byteLength_cons, ← Nat.add_assoc]
    cases skip with
    | succ n =>
      rw [List.take_succ_cons, scan]
      exact hrest n
    | zero =>
      rw [List.take_zero, Text.byteLength_nil, Nat.add_zero]
      have hlow : ∀ n, Text.byteLength before ≤
          Text.byteLength before + Text.byteLength (c :: cs.take n) := fun n => Nat.le_add_right _ _
      unfold scan
      dsimp only
      split
      · exact (hrest 0).mono (hlow 0)
      · split
        · next kind n hl =>
          obtain ⟨hkind, front, last, htake, hlast⟩ := lexeme?_last hl
          cases n with
          | zero => exact absurd htake (by simp)
          | succ n =>
            have hlimit := Text.byteLength_le_trimmedBytes (before ++ front)
              ((c :: cs).drop (n + 1)) hlast
            rw [List.append_assoc, ← htake, List.append_assoc, List.take_append_drop,
              Text.byteLength_append] at hlimit
            have hsome : 0 < Text.byteLength ((c :: cs).take (n + 1)) := by
              rw [List.take_succ_cons, Text.byteLength_cons]
              exact Nat.lt_of_lt_of_le c.utf8Size_pos (Nat.le_add_right _ _)
            refine .token (Nat.le_refl _) (Nat.lt_add_of_pos_right hsome) hlimit hkind ?_
            rw [List.take_succ_cons]
            exact hrest n
        · split
          · exact .eof (Nat.le_add_right _ _)
          · exact (hrest 0).mono (hlow 0)

end Scan

/-- **The tokens of a text follow one another**, and end before the blanks at its end. -/
theorem tokenize_run (source : String) :
    Token.Run (Text.trimmedLength source) 0 (tokenize source).tokens :=
  Scan.scan_run source.toList [] 0

end Jpql
