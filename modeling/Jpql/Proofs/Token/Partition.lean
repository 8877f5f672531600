import Jpql.Proofs.Token.Boundary
import Jpql.Proofs.Token.Piece
import Jpql.Proofs.Token.Raw
import Mathlib.Data.List.Pairwise

/-! # The parts of a text

The scanner divides a text: each part is a gap of one character, a token, or something that is reported.

* `Scan.Divides` is the rule by which it does: skip a gap; otherwise take the longest token at the front;
  otherwise report one character, or a string that is never closed, which takes up the rest of the text.
* `Scan.scan_divides`: the scanner follows that rule.
* `Scan.Divides.consecutive`: parts follow one another without a space between them.
* `tokenize_partitions`: what that means for the tokens and problems of a text. -/

namespace Jpql

/-! ## Consecutive spans -/

namespace Span

/-- One of the spans ends before the other starts. -/
def Apart (a b : Span) : Prop := a.stop ≤ b.start ∨ b.stop ≤ a.start

theorem Apart.symm {a b : Span} (h : a.Apart b) : b.Apart a := Or.symm h

/-- The offset is that of a byte of the span. -/
def Covers (span : Span) (offset : Nat) : Prop := span.start ≤ offset ∧ offset < span.stop

/-- **Spans that follow one another** without a space between them, none of them empty, up to an end. -/
inductive Consecutive (stop : Nat) : Nat → List Span → Prop
  | nil : Consecutive stop stop []
  | cons {start : Nat} {span : Span} {spans : List Span} (hstart : span.start = start)
      (hspan : span.start < span.stop) (hrest : Consecutive stop span.stop spans) :
      Consecutive stop start (span :: spans)

namespace Consecutive

variable {start stop : Nat} {spans : List Span}

theorem bounds (h : Consecutive stop start spans) : start ≤ stop ∧
    ∀ span ∈ spans, start ≤ span.start ∧ span.start < span.stop ∧ span.stop ≤ stop := by
  induction h with
  | nil => simp
  | cons hstart hspan _ ih =>
    refine ⟨by omega, fun span hmem => ?_⟩
    rcases List.mem_cons.mp hmem with rfl | hmem
    · omega
    · have := ih.2 span hmem
      omega

theorem pairwise (h : Consecutive stop start spans) :
    spans.Pairwise fun a b => a.stop ≤ b.start := by
  induction h with
  | nil => exact .nil
  | cons _ _ hrest ih => exact .cons (fun span hmem => (hrest.bounds.2 span hmem).1) ih

/-- Every byte on the way belongs to one of the spans. -/
theorem exists_covers (h : Consecutive stop start spans) {offset : Nat} (hstart : start ≤ offset)
    (hstop : offset < stop) : ∃ span ∈ spans, span.Covers offset := by
  induction h with
  | nil => omega
  | @cons start span spans heq hspan hrest ih =>
    by_cases hcovers : offset < span.stop
    · exact ⟨span, by simp, by omega, hcovers⟩
    · obtain ⟨other, hmem, hother⟩ := ih (by omega)
      exact ⟨other, by simp [hmem], hother⟩

end Consecutive

end Span

/-! ## Parts -/

namespace Scan

/-- **What the scanner makes of a part of a text.** -/
inductive Part where
  /-- A character that separates tokens. -/
  | gap (c : Char) (offset : Nat)
  | word (token : Token)
  | fault (problem : Problem)

namespace Part

def span : Part → Span
  | .gap c offset => ⟨offset, offset + c.utf8Size⟩
  | .word token => token.span
  | .fault problem => problem.span

def token? : Part → Option Token
  | .word token => some token
  | _ => none

def fault? : Part → Option Problem
  | .fault problem => some problem
  | _ => none

end Part

/-- The problem of a character that starts no token. -/
def invalidCharacter (c : Char) (offset : Nat) : Problem :=
  ⟨.invalidCharacter, [c.toString], ⟨offset, offset + c.utf8Size⟩, none⟩

/-- The problem of a string that is never closed. -/
def unterminatedString (cs : List Char) (offset : Nat) : Problem :=
  ⟨.unterminatedString, [], ⟨offset, offset + Text.byteLength cs⟩, none⟩

/-- **The rule by which a text is divided**, from an offset on. -/
inductive Divides : Nat → List Char → List Part → Prop
  | done (offset : Nat) : Divides offset [] []
  | gap {offset : Nat} {c : Char} {cs : List Char} {parts : List Part} (hgap : isGap c = true)
      (hrest : Divides (offset + c.utf8Size) cs parts) :
      Divides offset (c :: cs) (.gap c offset :: parts)
  /-- The longest token at the front. -/
  | word {offset : Nat} {kind : TokenKind} {front rest : List Char} {parts : List Part}
      (hlongest : IsLongest front rest) (hkind : lexeme? (front ++ rest) = some (kind, front.length))
      (hrest : Divides (offset + Text.byteLength front) rest parts) :
      Divides offset (front ++ rest)
        (.word ⟨kind, ⟨offset, offset + Text.byteLength front⟩⟩ :: parts)
  /-- A character at which no token starts. -/
  | invalid {offset : Nat} {c : Char} {cs : List Char} {parts : List Part} (hgap : isGap c = false)
      (hquote : c ≠ '\'') (hnone : ∀ front back, c :: cs = front ++ back → ¬IsRaw front)
      (hrest : Divides (offset + c.utf8Size) cs parts) :
      Divides offset (c :: cs) (.fault (invalidCharacter c offset) :: parts)
  /-- A quote that no other closes: each that could is followed by a quote that continues the string. -/
  | unterminated {offset : Nat} {cs : List Char} (hopen : ∀ front back, '\'' :: cs = front ++ back →
        IsRaw front → back.head? = some '\'') :
      Divides offset ('\'' :: cs) [.fault (unterminatedString ('\'' :: cs) offset)]

/-- The tokens and problems among the parts of a text of the given length. -/
def collect (parts : List Part) (length : Nat) : Lexed :=
  ⟨parts.filterMap Part.token? ++ [⟨.eof, .point length⟩], parts.filterMap Part.fault?⟩

/-- **The scanner follows the rule.** -/
theorem scan_divides (offset : Nat) (cs : List Char) : ∃ parts, Divides offset cs parts ∧
    scan 0 offset cs = collect parts (offset + Text.byteLength cs) := by
  induction hlength : cs.length using Nat.strong_induction_on generalizing offset cs with
  | _ length ih =>
  subst hlength
  cases cs with
  | nil => exact ⟨[], .done offset, rfl⟩
  | cons c cs =>
    have hnext := ih cs.length (by simp) (offset + c.utf8Size) cs rfl
    obtain ⟨parts, hparts, hscan⟩ := hnext
    rw [Nat.add_assoc, ← Text.byteLength_cons] at hscan
    by_cases hgap : isGap c = true
    · exact ⟨_, .gap hgap hparts, by rw [scan, if_pos hgap, hscan]; rfl⟩
    rw [Bool.not_eq_true] at hgap
    cases hlexeme : lexeme? (c :: cs) with
    | some found =>
      obtain ⟨kind, n⟩ := found
      have hle := lexeme?_le hlexeme
      obtain ⟨front, rest, hsplit, rfl⟩ : ∃ front rest, c :: cs = front ++ rest ∧ front.length = n :=
        ⟨(c :: cs).take n, (c :: cs).drop n, by simp, by simp only [List.length_take]; omega⟩
      rw [hsplit] at hlexeme ⊢
      have hlongest := lexeme?_longest hlexeme
      have hfront := hlongest.raw.ne_nil
      have hshort : rest.length < (front ++ rest).length := by
        simpa using List.length_pos_iff.mpr hfront
      obtain ⟨parts, hparts, hscan⟩ := ih rest.length (by simpa [hsplit] using hshort)
        (offset + Text.byteLength front) rest rfl
      rw [Nat.add_assoc, ← Text.byteLength_append] at hscan
      exact ⟨_, .word hlongest hlexeme hparts, by rw [scan_token hlexeme, hscan]; rfl⟩
    | none =>
      by_cases hquote : c = '\''
      · subst hquote
        exact ⟨_, .unterminated fun front back hsplit hraw =>
          (head?_of_lexeme?_none hlexeme hsplit hraw).2, by simp [scan, hgap, hlexeme, finish]; rfl⟩
      · have hnone : ∀ front back, c :: cs = front ++ back → ¬IsRaw front := fun front back hsplit hraw =>
          hquote (Option.some.inj (head?_of_lexeme?_none hlexeme hsplit hraw).1)
        refine ⟨_, .invalid hgap hquote hnone hparts, ?_⟩
        simp only [scan, hgap, hlexeme, hquote, hscan, if_false, Bool.false_eq_true]
        rfl

namespace Divides

variable {offset : Nat} {cs : List Char} {parts : List Part}

/-- **Parts follow one another**, from the offset to the end of the text. -/
theorem consecutive (h : Divides offset cs parts) :
    Span.Consecutive (offset + Text.byteLength cs) offset (parts.map Part.span) := by
  have hpos : ∀ c : Char, 0 < c.utf8Size := Char.utf8Size_pos
  induction h with
  | done offset => exact .nil
  | @gap offset c cs _ _ _ ih | @invalid offset c cs _ _ _ _ _ ih =>
    rw [Text.byteLength_cons, ← Nat.add_assoc]
    exact .cons rfl (Nat.lt_add_of_pos_right (hpos c)) ih
  | @word offset kind front rest parts hlongest _ _ ih =>
    rw [Text.byteLength_append, ← Nat.add_assoc]
    obtain ⟨c, front, rfl⟩ := List.exists_cons_of_ne_nil hlongest.raw.ne_nil
    have := hpos c
    exact .cons rfl (by simp only [Part.span, Text.byteLength_cons]; omega) ih
  | @unterminated offset cs _ =>
    have := hpos '\''
    exact .cons rfl (by simp only [Part.span, unterminatedString, Text.byteLength_cons]; omega) .nil

/-- A gap is one of the characters that separate tokens, and stands in the text where it says. -/
theorem gap_of_mem (before : List Char) (h : Divides (Text.byteLength before) cs parts) {c : Char}
    {place : Nat} (hmem : .gap c place ∈ parts) : isGap c = true ∧ ∃ front back,
      before ++ cs = front ++ c :: back ∧ Text.byteLength front = place := by
  generalize hoffset : Text.byteLength before = offset at h
  induction h generalizing before with
  | done => cases hmem
  | @gap offset other cs parts hgap _ ih =>
    rcases List.mem_cons.mp hmem with heq | hmem
    · cases heq
      exact ⟨hgap, before, cs, rfl, hoffset⟩
    · have := ih (before ++ [other]) hmem (by simp [hoffset])
      simpa using this
  | @word offset kind front rest parts _ _ _ ih =>
    have := ih (before ++ front) (by simpa using hmem) (by simp [hoffset])
    simpa using this
  | @invalid offset other cs parts _ _ _ _ ih =>
    have := ih (before ++ [other]) (by simpa using hmem) (by simp [hoffset])
    simpa using this
  | unterminated => simp at hmem

/-- **A token is what the text has where it says**, and is found there. -/
theorem lexeme_of_mem (before : List Char) (h : Divides (Text.byteLength before) cs parts)
    {token : Token} (hmem : .word token ∈ parts) : ∃ written rest,
      token.text (String.ofList (before ++ cs)) = String.ofList written ∧
        lexeme? (written ++ rest) = some (token.kind, written.length) := by
  generalize hoffset : Text.byteLength before = offset at h
  induction h generalizing before with
  | done => cases hmem
  | @gap offset c cs parts _ _ ih | @invalid offset c cs parts _ _ _ _ ih =>
    have := ih (before ++ [c]) (by simpa using hmem) (by simp [hoffset])
    simpa using this
  | @word offset kind front rest parts _ hkind _ ih =>
    rcases List.mem_cons.mp hmem with heq | hmem
    · cases heq
      refine ⟨front, rest, ?_, hkind⟩
      rw [← hoffset, ← List.append_assoc]
      exact Text.slice_append before front rest
    · have := ih (before ++ front) hmem (by simp [hoffset])
      simpa using this
  | unterminated => simp at hmem

theorem kind_ne_eof (h : Divides offset cs parts) {token : Token} (hmem : .word token ∈ parts) :
    token.kind ≠ .eof := by
  induction h with
  | done => cases hmem
  | gap _ _ ih | invalid _ _ _ _ ih => exact ih (by simpa using hmem)
  | word _ hlexeme _ ih =>
    rcases List.mem_cons.mp hmem with heq | hmem
    · cases heq
      exact (lexeme?_last hlexeme).1
    · exact ih hmem
  | unterminated => simp at hmem

/-- A string that is never closed takes up the rest of the text. -/
theorem stop_eq (h : Divides offset cs parts) {problem : Problem} (hmem : .fault problem ∈ parts)
    (hkey : problem.key = .unterminatedString) :
    problem.span.stop = offset + Text.byteLength cs := by
  induction h with
  | done => cases hmem
  | gap _ _ ih =>
    rw [Text.byteLength_cons, ← Nat.add_assoc]
    exact ih (by simpa using hmem)
  | word _ _ _ ih =>
    rw [Text.byteLength_append, ← Nat.add_assoc]
    exact ih (by simpa using hmem)
  | invalid _ _ _ _ ih =>
    rw [Text.byteLength_cons, ← Nat.add_assoc]
    rcases List.mem_cons.mp hmem with heq | hmem
    · cases heq
      cases hkey
    · exact ih hmem
  | unterminated =>
    cases List.mem_singleton.mp hmem
    rfl

end Divides

end Scan

/-! ## Tokens and problems of a text -/

namespace Lexed

/-- All tokens but the end of the text. -/
def words (lexed : Lexed) : List Token := lexed.tokens.filter (·.kind ≠ .eof)

/-- Where there are tokens, and where something is reported. -/
def spans (lexed : Lexed) : List Span := lexed.words.map (·.span) ++ lexed.problems.map (·.span)

/-- **Tokens and problems share out a text** of which nothing is left but gaps. -/
structure Partitions (lexed : Lexed) (source : String) : Prop where
  /-- The last token, and no other, is the end of the text. -/
  tokens_eq : lexed.tokens = lexed.words ++ [⟨.eof, .point (Text.byteLength source.toList)⟩]
  nonempty : ∀ span ∈ lexed.spans, span.start < span.stop
  fits : ∀ span ∈ lexed.spans, span.Fits source
  apart : lexed.spans.Pairwise Span.Apart
  words_ordered : lexed.words.Pairwise fun a b => a.span.stop ≤ b.span.start
  problems_ordered : lexed.problems.Pairwise fun a b => a.span.stop ≤ b.span.start
  /-- A byte that is in none of the spans is one of the five characters that separate tokens. -/
  gap : ∀ offset < Text.byteLength source.toList, (∃ span ∈ lexed.spans, span.Covers offset) ∨
    ∃ front c back, source.toList = front ++ c :: back ∧ Text.byteLength front = offset ∧
      Scan.isGap c = true
  /-- After a string that is never closed there is nothing. -/
  unterminated : ∀ front problem back, lexed.problems = front ++ problem :: back →
    problem.key = .unterminatedString → back = [] ∧
      problem.span.stop = Text.byteLength source.toList ∧
      ∀ token ∈ lexed.words, token.span.stop ≤ problem.span.start

end Lexed

namespace Scan

/-! ### Parts that are kept -/

theorem word_of_mem {parts : List Part} {token : Token} (h : token ∈ parts.filterMap Part.token?) :
    .word token ∈ parts := by
  obtain ⟨part, hpart, hsome⟩ := List.mem_filterMap.mp h
  cases part <;> cases hsome
  exact hpart

theorem fault_of_mem {parts : List Part} {problem : Problem}
    (h : problem ∈ parts.filterMap Part.fault?) : .fault problem ∈ parts := by
  obtain ⟨part, hpart, hsome⟩ := List.mem_filterMap.mp h
  cases part <;> cases hsome
  exact hpart

section

variable {source : String} {parts : List Part} (h : Divides 0 source.toList parts)

include h

theorem words_collect (length : Nat) : (collect parts length).words = parts.filterMap Part.token? := by
  have hall : ∀ token ∈ parts.filterMap Part.token?, token.kind ≠ .eof := fun token hmem =>
    h.kind_ne_eof (word_of_mem hmem)
  simpa [Lexed.words, collect] using hall

theorem mem_spans_collect {length : Nat} {span : Span} : span ∈ (collect parts length).spans ↔
    (∃ token, .word token ∈ parts ∧ token.span = span) ∨
      ∃ problem, .fault problem ∈ parts ∧ problem.span = span := by
  rw [Lexed.spans, words_collect h, List.mem_append, List.mem_map, List.mem_map]
  refine or_congr (exists_congr fun token => and_congr_left' ⟨word_of_mem, fun hmem => ?_⟩)
    (exists_congr fun problem => and_congr_left' ⟨fault_of_mem, fun hmem => ?_⟩)
  · exact List.mem_filterMap.mpr ⟨_, hmem, rfl⟩
  · exact List.mem_filterMap.mpr ⟨_, hmem, rfl⟩

/-- A part takes up some of the text, and none that is not there. -/
theorem bounds_of_mem {part : Part} (hmem : part ∈ parts) :
    part.span.start < part.span.stop ∧ part.span.stop ≤ Text.byteLength source.toList := by
  have hbounds := (h.consecutive.bounds.2 part.span (List.mem_map_of_mem hmem)).2
  rwa [Nat.zero_add] at hbounds

theorem apart_of_mem {a b : Part} (ha : a ∈ parts) (hb : b ∈ parts) (hne : a ≠ b) :
    a.span.Apart b.span := by
  have hsymm : Std.Symm fun a b : Part => a.span.Apart b.span := ⟨fun _ _ hab => hab.symm⟩
  have hpairwise := List.pairwise_map.mp h.consecutive.pairwise
  have hapart : parts.Pairwise fun a b => a.span.Apart b.span := hpairwise.imp Or.inl
  exact hapart.forall ha hb hne

/-- Parts of one sort stand in the order of the text. -/
theorem pairwise_filterMap {α : Type} (sort : Part → Option α) (place : α → Span)
    (hplace : ∀ part a, sort part = some a → part.span = place a) :
    (parts.filterMap sort).Pairwise fun a b => (place a).stop ≤ (place b).start := by
  have hpairwise := List.pairwise_map.mp h.consecutive.pairwise
  refine List.Pairwise.filterMap sort (fun a b hab x hx y hy => ?_) hpairwise
  rw [← hplace a x hx, ← hplace b y hy]
  exact hab

theorem words_pairwise : (parts.filterMap Part.token?).Pairwise fun a b =>
    a.span.stop ≤ b.span.start := by
  refine pairwise_filterMap h Part.token? (·.span) fun part a hsome => ?_
  cases part <;> cases hsome
  rfl

theorem faults_pairwise : (parts.filterMap Part.fault?).Pairwise fun a b =>
    a.span.stop ≤ b.span.start := by
  refine pairwise_filterMap h Part.fault? (·.span) fun part a hsome => ?_
  cases part <;> cases hsome
  rfl

/-- **A byte that belongs to no token and no problem is a gap.** All gaps are one byte long. -/
theorem covered_or_gap (length : Nat) {offset : Nat} (hlt : offset < Text.byteLength source.toList) :
    (∃ span ∈ (collect parts length).spans, span.Covers offset) ∨ ∃ front c back,
      source.toList = front ++ c :: back ∧ Text.byteLength front = offset ∧ isGap c = true := by
  obtain ⟨_, hmem, hcovers⟩ := h.consecutive.exists_covers (Nat.zero_le offset)
    (by rwa [Nat.zero_add])
  obtain ⟨part, hpart, rfl⟩ := List.mem_map.mp hmem
  cases part with
  | gap c place =>
    obtain ⟨hgap, front, back, hsource, hplace⟩ := Divides.gap_of_mem [] h hpart
    have hsize : c.utf8Size = 1 := by
      rcases gap_cases hgap with rfl | rfl | rfl | rfl | rfl <;> rfl
    simp only [Part.span, Span.Covers, hsize] at hcovers
    exact .inr ⟨front, c, back, hsource, by omega, hgap⟩
  | word token => exact .inl ⟨_, (mem_spans_collect h).mpr (.inl ⟨token, hpart, rfl⟩), hcovers⟩
  | fault problem => exact .inl ⟨_, (mem_spans_collect h).mpr (.inr ⟨problem, hpart, rfl⟩), hcovers⟩

/-- **Behind a string that is never closed there is nothing**: what would come later would have to start
behind the text. -/
theorem last_of_unterminated {front back : List Problem} {problem : Problem}
    (hproblems : parts.filterMap Part.fault? = front ++ problem :: back)
    (hkey : problem.key = .unterminatedString) : back = [] ∧
      problem.span.stop = Text.byteLength source.toList ∧
      ∀ token ∈ parts.filterMap Part.token?, token.span.stop ≤ problem.span.start := by
  have hmem : .fault problem ∈ parts := fault_of_mem (by simp [hproblems])
  have hstop := h.stop_eq hmem hkey
  rw [Nat.zero_add] at hstop
  refine ⟨List.eq_nil_iff_forall_not_mem.mpr fun other hother => ?_, hstop, fun token htoken => ?_⟩
  · have hordered := faults_pairwise h
    rw [hproblems, List.pairwise_append, List.pairwise_cons] at hordered
    have hafter := hordered.2.1.1 other hother
    have hbounds := bounds_of_mem h (fault_of_mem
      (show other ∈ parts.filterMap Part.fault? by simp [hproblems, hother]))
    simp only [Part.span] at hbounds
    omega
  · have hapart := apart_of_mem h (word_of_mem htoken) hmem (by simp)
    have hbounds := bounds_of_mem h (word_of_mem htoken)
    simp only [Part.span, Span.Apart] at hbounds hapart
    omega

/-- **The parts of a text partition it.** -/
theorem partitions_collect (hfits : ∀ span ∈ (collect parts (Text.byteLength source.toList)).spans,
    span.Fits source) : (collect parts (Text.byteLength source.toList)).Partitions source := by
  have hwords := words_collect h (Text.byteLength source.toList)
  refine
    { tokens_eq := ?_
      nonempty := fun span hmem => ?_
      fits := hfits
      apart := ?_
      words_ordered := hwords ▸ words_pairwise h
      problems_ordered := faults_pairwise h
      gap := fun offset hlt => covered_or_gap h _ hlt
      unterminated := fun front problem back hproblems hkey =>
        hwords ▸ last_of_unterminated h hproblems hkey }
  · rw [hwords]
    rfl
  · obtain ⟨token, hpart, rfl⟩ | ⟨problem, hpart, rfl⟩ := (mem_spans_collect h).mp hmem
    · exact (bounds_of_mem h hpart).1
    · exact (bounds_of_mem h hpart).1
  · rw [Lexed.spans, hwords, List.pairwise_append, List.pairwise_map, List.pairwise_map]
    refine ⟨(words_pairwise h).imp Or.inl, (faults_pairwise h).imp Or.inl, ?_⟩
    simp only [List.forall_mem_map]
    exact fun token htoken problem hproblem =>
      apart_of_mem h (word_of_mem htoken) (fault_of_mem hproblem) (by simp)

end

end Scan

/-- **The scanner divides every text by its rule, and leaves nothing out.** -/
theorem tokenize_partitions (source : String) :
    (∃ parts, Scan.Divides 0 source.toList parts ∧
      tokenize source = Scan.collect parts (Text.byteLength source.toList)) ∧
    (tokenize source).Partitions source := by
  obtain ⟨parts, hparts, hscan⟩ := Scan.scan_divides 0 source.toList
  rw [Nat.zero_add] at hscan
  refine ⟨⟨parts, hparts, hscan⟩, ?_⟩
  have hfits := tokenize_fits source
  rw [tokenize, hscan] at hfits ⊢
  refine Scan.partitions_collect hparts fun span hmem => ?_
  rw [Lexed.spans, List.mem_append, List.mem_map, List.mem_map] at hmem
  rcases hmem with ⟨token, hmem, rfl⟩ | ⟨problem, hmem, rfl⟩
  · exact hfits.1 token (List.mem_filter.mp hmem).1
  · exact (hfits.2 problem hmem).1

end Jpql
