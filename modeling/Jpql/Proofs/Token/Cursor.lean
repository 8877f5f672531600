import Jpql.Token.Stream
import Mathlib.Tactic.Common

/-! # Operations of a token stream

A token stream is used through its operations alone. Each of them answers, and leaves a stream behind.

* `TokenStream.Operation`, `TokenStream.perform`: the operations, by the type of their answers, and what each
  of them does. `TokenStream.run`: one operation after the other.
* `TokenStream.Over`: a stream over given tokens. Every operation keeps it so (`Over.perform`), and then so
  does every run (`Over.run`).
* `TokenStream.Attempts`: an operation that moves over the current token if it is the one asked for.
* `TokenStream.run_contract`: what holds of a stream after any run. -/

namespace Jpql

namespace TokenStream

/-! ## Operations -/

/-- **The operations of a stream**, by the type of their answers. -/
inductive Operation : Type → Type
  | current : Operation Token
  | kind : Operation TokenKind
  | peek : Operation Token
  | peekAhead (n : Nat) : Operation Token
  | atEnd : Operation Bool
  | check (kind : TokenKind) : Operation Bool
  | checkKeyword (word : Keyword) : Operation Bool
  | problemHere (key : ProblemKey) (arguments : List String) : Operation Problem
  | identifier? : Operation (Option String)
  | pathSegment? : Operation (Option String)
  | currentText : Operation String
  | position : Operation Nat
  | previousSpan : Operation Span
  | previousEnd : Operation Nat
  | currentStart : Operation Nat
  | advance : Operation Unit
  | seek (position : Nat) : Operation Unit
  /-- Says whether the token was there. -/
  | consume (kind : TokenKind) : Operation Bool
  | consumeKeyword (word : Keyword) : Operation (Option Span)
  | expect (kind : TokenKind) : Operation (Except Problem Span)
  | expectKeyword (word : Keyword) : Operation (Except Problem Span)

/-- The answer to what was expected, and the stream behind it. A stream without the token stays. -/
def settle (stream : TokenStream) :
    Except Problem (Span × TokenStream) → Except Problem Span × TokenStream
  | .ok (span, next) => (.ok span, next)
  | .error problem => (.error problem, stream)

/-- **What an operation does**: its answer, and the stream it leaves behind. -/
def perform {α : Type} (stream : TokenStream) : Operation α → α × TokenStream
  | .current => (stream.current, stream)
  | .kind => (stream.kind, stream)
  | .peek => (stream.peek, stream)
  | .peekAhead n => (stream.peekAhead n, stream)
  | .atEnd => (stream.atEnd, stream)
  | .check kind => (stream.check kind, stream)
  | .checkKeyword word => (stream.checkKeyword word, stream)
  | .problemHere key arguments => (stream.problemHere key arguments, stream)
  | .identifier? => (stream.identifier?, stream)
  | .pathSegment? => (stream.pathSegment?, stream)
  | .currentText => (stream.currentText, stream)
  | .position => (stream.position, stream)
  | .previousSpan => (stream.previousSpan, stream)
  | .previousEnd => (stream.previousEnd, stream)
  | .currentStart => (stream.currentStart, stream)
  | .advance => ((), stream.advance)
  | .seek position => ((), stream.seek position)
  | .consume kind =>
    match stream.consume? kind with
    | some (_, next) => (true, next)
    | none => (false, stream)
  | .consumeKeyword word =>
    match stream.consumeKeyword? word with
    | some (span, next) => (some span, next)
    | none => (none, stream)
  | .expect kind => stream.settle (stream.expect kind)
  | .expectKeyword word => stream.settle (stream.expectKeyword word)

/-- **The stream after operations**, one after the other. -/
def run (stream : TokenStream) (operations : List (Σ α, Operation α)) : TokenStream :=
  operations.foldl (fun stream operation => (stream.perform operation.2).2) stream

variable {source : String} {tokens : List Token} {stream : TokenStream}

/-! ## Moves over one token -/

/-- **One token further**, or nowhere at the last token. -/
structure Passes (before after : TokenStream) : Prop where
  source : after.source = before.source
  tokens : after.tokens = before.tokens
  position : after.position =
    if before.position + 1 < before.tokens.size then before.position + 1 else before.position

theorem passes_advance (stream : TokenStream) : stream.Passes stream.advance where
  source := source_advance stream
  tokens := tokens_advance stream
  position := by
    have hlast : stream.position + 1 < stream.tokens.size ↔
        stream.position < stream.tokens.size - 1 := by omega
    rw [advance, if_congr hlast rfl rfl]
    split <;> rfl

/-- **The operation moves over the current token if it is of the kind asked for.** It answers `hit` then,
and otherwise `miss`, and leaves everything as it is. -/
structure Attempts {α : Type} (stream : TokenStream) (operation : Operation α) (asked : TokenKind)
    (hit miss : α) : Prop where
  found : stream.current.kind = asked →
    (stream.perform operation).1 = hit ∧ stream.Passes (stream.perform operation).2
  missed : stream.current.kind ≠ asked → stream.perform operation = (miss, stream)

/-- It is enough to say where the operation goes in each case. -/
theorem Attempts.of_check {α : Type} {operation : Operation α} {asked : TokenKind} {hit miss : α}
    (h : stream.perform operation =
      if stream.check asked then (hit, stream.advance) else (miss, stream)) :
    stream.Attempts operation asked hit miss := by
  constructor
  · intro hkind
    have hcheck : stream.check asked = true := beq_iff_eq.mpr hkind
    rw [h, if_pos hcheck]
    exact ⟨rfl, passes_advance stream⟩
  · intro hkind
    have hcheck : ¬stream.check asked = true := mt beq_iff_eq.mp hkind
    rw [h, if_neg hcheck]

theorem attempts_consume (stream : TokenStream) (kind : TokenKind) :
    stream.Attempts (.consume kind) kind true false := by
  refine .of_check ?_
  rw [perform, consume?]
  cases stream.check kind <;> rfl

theorem attempts_consumeKeyword (stream : TokenStream) (word : Keyword) :
    stream.Attempts (.consumeKeyword word) (.keyword word) (some stream.current.span) none := by
  refine .of_check ?_
  rw [perform, consumeKeyword?_eq, consume?]
  cases stream.check (.keyword word) <;> rfl

theorem attempts_expect (stream : TokenStream) (kind : TokenKind) :
    stream.Attempts (.expect kind) kind (.ok stream.current.span)
      (.error (stream.problemHere .expectedToken [kind.describe])) := by
  refine .of_check ?_
  rw [perform, expect, consume?]
  cases stream.check kind <;> rfl

theorem attempts_expectKeyword (stream : TokenStream) (word : Keyword) :
    stream.Attempts (.expectKeyword word) (.keyword word) (.ok stream.current.span)
      (.error (stream.problemHere .expectedToken [word.spelling])) := by
  refine .of_check ?_
  rw [perform, expectKeyword_eq, expect, consume?]
  cases stream.check (.keyword word) <;> rfl

/-- Whether the token is there or not, the stream afterwards is the old one or one that was passed to. -/
theorem Attempts.stays_or_passes {α : Type} {operation : Operation α} {asked : TokenKind} {hit miss : α}
    (h : stream.Attempts operation asked hit miss) :
    (stream.perform operation).2 = stream ∨ stream.Passes (stream.perform operation).2 := by
  by_cases hkind : stream.current.kind = asked
  · exact .inr (h.found hkind).2
  · exact .inl (by rw [h.missed hkind])

/-! ## Runs -/

/-- **A stream over the given tokens**, at one of them, or at zero if there are none. -/
structure Over (source : String) (tokens : List Token) (stream : TokenStream) : Prop where
  same_source : stream.source = source
  same_tokens : stream.tokens = tokens.toArray
  position_le : stream.position ≤ tokens.length - 1

namespace Over

theorem ofTokens (source : String) (tokens : List Token) : Over source tokens (ofTokens source tokens) :=
  ⟨rfl, rfl, Nat.zero_le _⟩

theorem size (h : Over source tokens stream) : stream.tokens.size = tokens.length := by
  rw [h.same_tokens, List.size_toArray]

theorem passes (h : Over source tokens stream) {next : TokenStream} (hnext : stream.Passes next) :
    Over source tokens next where
  same_source := hnext.source.trans h.same_source
  same_tokens := hnext.tokens.trans h.same_tokens
  position_le := by
    have hle := h.position_le
    rw [hnext.position, h.size]
    split <;> omega

theorem attempts (h : Over source tokens stream) {α : Type} {operation : Operation α} {asked : TokenKind}
    {hit miss : α} (ha : stream.Attempts operation asked hit miss) :
    Over source tokens (stream.perform operation).2 := by
  rcases ha.stays_or_passes with heq | hpasses
  · rwa [heq]
  · exact h.passes hpasses

theorem seek_eq (h : Over source tokens stream) (position : Nat) :
    stream.seek position = { stream with position := min position (tokens.length - 1) } := by
  rw [seek, h.size]

/-- **Every operation keeps a stream over its tokens**, whatever its arguments. -/
theorem perform (h : Over source tokens stream) {α : Type} (operation : Operation α) :
    Over source tokens (stream.perform operation).2 := by
  cases operation with
  | advance => exact h.passes (passes_advance stream)
  | seek position =>
    show Over source tokens (stream.seek position)
    rw [h.seek_eq]
    exact ⟨h.same_source, h.same_tokens, Nat.min_le_right _ _⟩
  | consume kind => exact h.attempts (attempts_consume stream kind)
  | consumeKeyword word => exact h.attempts (attempts_consumeKeyword stream word)
  | expect kind => exact h.attempts (attempts_expect stream kind)
  | expectKeyword word => exact h.attempts (attempts_expectKeyword stream word)
  -- all others only look
  | _ => exact h

theorem run (h : Over source tokens stream) (operations : List (Σ α, Operation α)) :
    Over source tokens (stream.run operations) := by
  induction operations generalizing stream with
  | nil => exact h
  | cons operation operations ih => exact ih (h.perform operation.2)

/-- The current token is one of the tokens, unless there are none. -/
theorem current (h : Over source tokens stream) : tokens = [] ∧ stream.current = noToken ∨
    ∃ hlt : stream.position < tokens.length, stream.current = tokens[stream.position] := by
  rw [TokenStream.current, peekAhead, h.same_tokens, Nat.add_zero]
  cases tokens with
  | nil => exact .inl ⟨rfl, by simp⟩
  | cons token rest =>
    have hle := h.position_le
    have hlt : stream.position < (token :: rest).length := by
      rw [List.length_cons] at hle ⊢
      omega
    refine .inr ⟨hlt, ?_⟩
    simp [List.getElem?_eq_getElem hlt]

/-- The token before the current one, if there has to be one, is one of the tokens. -/
theorem previousSpan (h : Over source tokens stream) :
    stream.position = 0 ∧ stream.previousSpan = .point stream.current.span.start ∨
      ∃ (n : Nat) (hlt : n < tokens.length), stream.position = n + 1 ∧
        stream.previousSpan = tokens[n].span := by
  rw [TokenStream.previousSpan]
  cases hposition : stream.position with
  | zero => exact .inl ⟨rfl, rfl⟩
  | succ n =>
    have hle := h.position_le
    have hlt : n < tokens.length := by omega
    refine .inr ⟨n, hlt, rfl, ?_⟩
    simp [h.same_tokens, List.getElem?_eq_getElem hlt]

end Over

/-- **What a stream over tokens promises**, wherever it stands. -/
structure Contract (source : String) (tokens : List Token) (stream : TokenStream) : Prop
    extends Over source tokens stream where
  /-- The stream shows one of its tokens; without tokens it shows the end of an empty query. -/
  current : tokens = [] ∧ stream.current = noToken ∨
    ∃ hlt : stream.position < tokens.length, stream.current = tokens[stream.position]
  /-- The token before the current one is in the list whenever it is looked up. -/
  previous : stream.position = 0 ∧ stream.previousSpan = .point stream.current.span.start ∨
    ∃ (n : Nat) (hlt : n < tokens.length), stream.position = n + 1 ∧
      stream.previousSpan = tokens[n].span
  consume : ∀ kind : TokenKind, stream.Attempts (.consume kind) kind true false
  consumeKeyword : ∀ word : Keyword,
    stream.Attempts (.consumeKeyword word) (.keyword word) (some stream.current.span) none
  expect : ∀ kind : TokenKind, stream.Attempts (.expect kind) kind (.ok stream.current.span)
    (.error (stream.problemHere .expectedToken [kind.describe]))
  expectKeyword : ∀ word : Keyword,
    stream.Attempts (.expectKeyword word) (.keyword word) (.ok stream.current.span)
      (.error (stream.problemHere .expectedToken [word.spelling]))
  seek : ∀ position : Nat, (stream.perform (.seek position)).2 =
    { stream with position := min position (tokens.length - 1) }

/-- **No run leaves the tokens.** After any operations, whatever their arguments, a stream stands at one of
its tokens (at zero if it has none), the token before it is found where it is looked for, and a token that
is asked for is moved over if it is there, and otherwise nothing changes. -/
theorem run_contract (source : String) (tokens : List Token) (operations : List (Σ α, Operation α)) :
    Contract source tokens ((ofTokens source tokens).run operations) := by
  have hover := (Over.ofTokens source tokens).run operations
  exact
    { toOver := hover
      current := hover.current
      previous := hover.previousSpan
      consume := attempts_consume _
      consumeKeyword := attempts_consumeKeyword _
      expect := attempts_expect _
      expectKeyword := attempts_expectKeyword _
      seek := hover.seek_eq }

/-- Without tokens there is an end of the query to be moved over, but nowhere to go. -/
example : ((ofTokens "a" []).run [⟨_, .seek 7⟩, ⟨_, .expect .eof⟩, ⟨_, .advance⟩]).position = 0 := rfl

end TokenStream

end Jpql
