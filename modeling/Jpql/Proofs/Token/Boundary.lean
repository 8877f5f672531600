import Jpql.Proofs.Token.Order

/-! # Boundaries between characters

An offset into a text is a *boundary* if a whole number of characters comes before it. A span *fits* a
text if it is not reversed and both of its ends are boundaries. Such a span cuts a part out of the text
(`Span.Fits.cut`), and lies inside the text.

* `tokenize_fits`: the tokens of a text fit it, and so do the problems met on the way, whatever
  characters the text has. -/

namespace Jpql

namespace Text

/-- **The offset lies between two characters** of the list, or at one of its ends. -/
def IsBoundary (cs : List Char) (offset : Nat) : Prop :=
  ∃ front back, cs = front ++ back ∧ byteLength front = offset

theorem isBoundary_zero (cs : List Char) : IsBoundary cs 0 := ⟨[], cs, rfl, rfl⟩

theorem isBoundary_append (front back : List Char) :
    IsBoundary (front ++ back) (byteLength front) := ⟨front, back, rfl, rfl⟩

theorem isBoundary_length (cs : List Char) : IsBoundary cs (byteLength cs) :=
  ⟨cs, [], (List.append_nil cs).symm, rfl⟩

theorem IsBoundary.le {cs : List Char} {offset : Nat} (h : IsBoundary cs offset) :
    offset ≤ byteLength cs := by
  obtain ⟨front, back, rfl, rfl⟩ := h
  rw [byteLength_append]
  exact Nat.le_add_right _ _

/-- What the blanks at the end leave is cut at a boundary. -/
theorem isBoundary_trimmedBytes (cs : List Char) : IsBoundary cs (trimmedBytes cs) := by
  refine ⟨(cs.reverse.dropWhile isBlank).reverse, (cs.reverse.takeWhile isBlank).reverse, ?_,
    byteLength_reverse _⟩
  rw [← List.reverse_append, List.takeWhile_append_dropWhile, List.reverse_reverse]

theorem byteLength_lt_of_cons (front : List Char) (c : Char) (back : List Char) :
    byteLength front < byteLength (front ++ c :: back) := by
  have hc : 0 < c.utf8Size := c.utf8Size_pos
  rw [byteLength_append, byteLength_cons]
  omega

/-- Of two boundaries, the text up to the smaller one starts the text up to the other. -/
theorem prefix_of_boundaries {cs front back left right : List Char} (h : cs = front ++ back)
    (k : cs = left ++ right) (hle : byteLength front ≤ byteLength left) : front <+: left := by
  have hfront : front <+: cs := h ▸ List.prefix_append front back
  have hleft : left <+: cs := k ▸ List.prefix_append left right
  rcases List.prefix_or_prefix_of_prefix hfront hleft with hp | ⟨rest, rfl⟩
  · exact hp
  · cases rest with
    | nil => exact (List.append_nil left).symm ▸ List.prefix_rfl
    | cons c rest =>
      have hlt := byteLength_lt_of_cons left c rest
      omega

end Text

/-- **The span is a range of the text** with both ends between characters. -/
structure Span.Fits (span : Span) (text : String) : Prop where
  ordered : span.start ≤ span.stop
  start : Text.IsBoundary text.toList span.start
  stop : Text.IsBoundary text.toList span.stop

namespace Span

/-- The first span lies inside the second. -/
def Inside (inner outer : Span) : Prop := outer.start ≤ inner.start ∧ inner.stop ≤ outer.stop

theorem Inside.refl (span : Span) : span.Inside span := ⟨Nat.le_refl _, Nat.le_refl _⟩

theorem Inside.trans {a b c : Span} (h : a.Inside b) (k : b.Inside c) : a.Inside c :=
  ⟨Nat.le_trans k.1 h.1, Nat.le_trans h.2 k.2⟩

variable {span : Span} {text : String}

theorem Fits.stop_le (h : span.Fits text) : span.stop ≤ Text.byteLength text.toList := h.stop.le

theorem fits_point {offset : Nat} (h : Text.IsBoundary text.toList offset) :
    (point offset).Fits text := ⟨Nat.le_refl _, h, h⟩

theorem fits_whole (text : String) : (⟨0, Text.byteLength text.toList⟩ : Span).Fits text :=
  ⟨Nat.zero_le _, Text.isBoundary_zero _, Text.isBoundary_length _⟩

/-- What fits a text lies inside the text as a whole. -/
theorem Fits.inside_whole (h : span.Fits text) :
    span.Inside ⟨0, Text.byteLength text.toList⟩ := ⟨Nat.zero_le _, h.stop_le⟩

/-- **The span cuts the text** into what comes before it, the part that it selects, and the rest. -/
def Cuts (span : Span) (text : String) : Prop :=
  ∃ before between after, text.toList = before ++ between ++ after ∧
    Text.byteLength before = span.start ∧ Text.byteLength (before ++ between) = span.stop ∧
    Text.slice text span = String.ofList between

/-- **A span that fits a text cuts it.** -/
theorem Fits.cut (h : span.Fits text) : span.Cuts text := by
  obtain ⟨hordered, ⟨front, back, hfront, hstart⟩, ⟨left, right, hleft, hstop⟩⟩ := h
  obtain ⟨between, rfl⟩ := Text.prefix_of_boundaries hfront hleft (by omega)
  refine ⟨front, between, right, hleft, hstart, hstop, ?_⟩
  have hslice := Text.slice_append front between right
  rw [← hleft, String.ofList_toList, ← Text.byteLength_append, hstart, hstop] at hslice
  exact hslice

end Span

namespace Scan

/-- **Tokens and problems of the scanner fit the text.** The token read last still takes up `skip`
characters. -/
theorem scan_fits (cs before : List Char) (skip : Nat) :
    (∀ token ∈ (scan skip (Text.byteLength before) cs).tokens,
      token.span.Fits (String.ofList (before ++ cs))) ∧
    ∀ problem ∈ (scan skip (Text.byteLength before) cs).problems,
      problem.span.Fits (String.ofList (before ++ cs)) ∧ problem.anchor = none := by
  have hfits : ∀ first second third : List Char, (⟨Text.byteLength first,
      Text.byteLength first + Text.byteLength second⟩ : Span).Fits
        (String.ofList (first ++ (second ++ third))) := by
    intro first second third
    refine ⟨Nat.le_add_right _ _, ?_, ?_⟩
    · rw [String.toList_ofList]
      exact Text.isBoundary_append _ _
    · rw [String.toList_ofList, ← List.append_assoc, ← Text.byteLength_append]
      exact Text.isBoundary_append _ _
  induction cs generalizing before skip with
  | nil =>
    have hend := hfits before [] []
    cases skip <;>
    · refine ⟨fun token hmem => ?_, fun problem hmem => absurd hmem List.not_mem_nil⟩
      rw [List.mem_singleton.mp hmem]
      exact hend
  | cons c cs ih =>
    have hnext : Text.byteLength before + c.utf8Size = Text.byteLength (before ++ [c]) := by simp
    have hrest : ∀ n, (∀ token ∈ (scan n (Text.byteLength before + c.utf8Size) cs).tokens,
          token.span.Fits (String.ofList (before ++ c :: cs))) ∧
        ∀ problem ∈ (scan n (Text.byteLength before + c.utf8Size) cs).problems,
          problem.span.Fits (String.ofList (before ++ c :: cs)) ∧ problem.anchor = none := by
      intro n
      have h := ih (before ++ [c]) n
      rwa [← hnext, List.append_assoc] at h
    cases skip with
    | succ n => exact hrest n
    | zero =>
      unfold scan
      dsimp only
      split
      · exact hrest 0
      · split
        · next kind n _ =>
          refine ⟨fun token hmem => ?_, (hrest (n - 1)).2⟩
          rcases List.mem_cons.mp hmem with rfl | hmem
          · have htoken := hfits before ((c :: cs).take n) ((c :: cs).drop n)
            rwa [List.take_append_drop] at htoken
          · exact (hrest (n - 1)).1 token hmem
        · split
          · refine ⟨fun token hmem => ?_, fun problem hmem => ?_⟩
            · rw [List.mem_singleton.mp hmem]
              have hend := hfits (before ++ c :: cs) [] []
              rwa [List.append_nil, List.append_nil, Text.byteLength_append] at hend
            · rw [List.mem_singleton.mp hmem]
              have hwhole := hfits before (c :: cs) []
              rw [List.append_nil] at hwhole
              exact ⟨hwhole, rfl⟩
          · refine ⟨(hrest 0).1, fun problem hmem => ?_⟩
            rcases List.mem_cons.mp hmem with rfl | hmem
            · exact ⟨hfits before [c] cs, rfl⟩
            · exact (hrest 0).2 problem hmem

end Scan

/-- **The tokens of a text fit it**, and so do the problems of the scanner, which belong to no node. -/
theorem tokenize_fits (source : String) :
    (∀ token ∈ (tokenize source).tokens, token.span.Fits source) ∧
      ∀ problem ∈ (tokenize source).problems, problem.span.Fits source ∧ problem.anchor = none := by
  have h := Scan.scan_fits source.toList [] 0
  rwa [List.nil_append, String.ofList_toList] at h

end Jpql
