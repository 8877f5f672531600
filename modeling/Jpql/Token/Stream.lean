import Jpql.Token.Scan

/-! # Token streams

A stream is a cursor over the tokens of a query text. It never leaves its list: past the last token
it stays there, and a stream without tokens shows an end of query at offset zero.

* `current`, `peek`, `previousSpan` look around; `advance`, `seek` move.
* `consume?` and `expect` move over the current token if it is the one asked for, and leave the
  stream as it is otherwise; `consumeKeyword?` and `expectKeyword` ask for a keyword.
* `identifier?` and `pathSegment?` say when the current token can name something. -/

namespace Jpql

/-- A cursor over tokens. -/
structure TokenStream where
  source : String
  tokens : Array Token
  position : Nat

namespace TokenStream

/-- The stream at its first token. -/
def ofTokens (source : String) (tokens : List Token) : TokenStream := ⟨source, tokens.toArray, 0⟩

/-- What a stream shows when it has no tokens. -/
def noToken : Token := ⟨.eof, .point 0⟩

/-- The token `n` places ahead, or the last one. -/
def peekAhead (stream : TokenStream) (n : Nat) : Token :=
  (stream.tokens[stream.position + n]?.or stream.tokens.back?).getD noToken

/-- The current token. -/
def current (stream : TokenStream) : Token := stream.peekAhead 0

/-- The token after the current one. -/
def peek (stream : TokenStream) : Token := stream.peekAhead 1

/-- The kind of the current token. -/
def kind (stream : TokenStream) : TokenKind := stream.current.kind

/-- The stream at a position, or at its last token if the position lies behind that. -/
def seek (stream : TokenStream) (position : Nat) : TokenStream :=
  { stream with position := min position (stream.tokens.size - 1) }

/-- Moves to the next token; the last token is not left. -/
def advance (stream : TokenStream) : TokenStream :=
  if stream.position < stream.tokens.size - 1 then
    { stream with position := stream.position + 1 }
  else stream

/-- The current token is the end of the query. -/
def atEnd (stream : TokenStream) : Bool := stream.kind == .eof

/-- The current token has the given kind. -/
def check (stream : TokenStream) (kind : TokenKind) : Bool := stream.kind == kind

/-- The current token is the given keyword. -/
def checkKeyword (stream : TokenStream) (word : Keyword) : Bool := stream.kind.isKeyword word

/-- **Moves over a token of the given kind**, and gives its span. -/
def consume? (stream : TokenStream) (kind : TokenKind) : Option (Span × TokenStream) :=
  if stream.check kind then some (stream.current.span, stream.advance) else none

/-- Moves over a keyword, and gives its span. -/
def consumeKeyword? (stream : TokenStream) (word : Keyword) : Option (Span × TokenStream) :=
  if stream.checkKeyword word then some (stream.current.span, stream.advance) else none

/-- A problem at the current token. -/
def problemHere (stream : TokenStream) (key : ProblemKey) (arguments : List String) : Problem :=
  ⟨key, arguments, stream.current.span, none⟩

/-- Moves over a token of the given kind, or says that it was expected here. -/
def expect (stream : TokenStream) (kind : TokenKind) : Except Problem (Span × TokenStream) :=
  match stream.consume? kind with
  | some found => .ok found
  | none => .error (stream.problemHere .expectedToken [kind.describe])

/-- Moves over a keyword, or says that it was expected here. -/
def expectKeyword (stream : TokenStream) (word : Keyword) : Except Problem (Span × TokenStream) :=
  match stream.consumeKeyword? word with
  | some found => .ok found
  | none => .error (stream.problemHere .expectedToken [word.spelling])

/-- The current token as it is written. -/
def currentText (stream : TokenStream) : String := stream.current.text stream.source

/-- **The name the current token gives, if it can name something.** Keywords that are not reserved
can, unless a parenthesis follows. -/
def identifier? (stream : TokenStream) : Option String :=
  match stream.kind with
  | .identifier name => some name
  | .keyword word =>
    if !word.isReserved && stream.peek.kind != .leftParen then some stream.currentText else none
  | _ => none

/-- The name the current token gives after a dot, where every word is a name: `e.order`. -/
def pathSegment? (stream : TokenStream) : Option String :=
  match stream.kind with
  | .identifier name => some name
  | .keyword _ => some stream.currentText
  | _ => none

/-- The span of the token before the current one; at the first token the empty span at its start. -/
def previousSpan (stream : TokenStream) : Span :=
  match stream.position with
  | 0 => .point stream.current.span.start
  | n + 1 => (stream.tokens[n]?.getD noToken).span

/-- Where the token before the current one ends. -/
def previousEnd (stream : TokenStream) : Nat := stream.previousSpan.stop

/-- Where the current token starts. -/
def currentStart (stream : TokenStream) : Nat := stream.current.span.start

theorem checkKeyword_eq (stream : TokenStream) (word : Keyword) :
    stream.checkKeyword word = stream.check (.keyword word) :=
  TokenKind.isKeyword_eq_beq _ _

theorem consumeKeyword?_eq (stream : TokenStream) (word : Keyword) :
    stream.consumeKeyword? word = stream.consume? (.keyword word) := by
  rw [consumeKeyword?, checkKeyword_eq, consume?]

/-- A message names a keyword by its spelling. -/
theorem expectKeyword_eq (stream : TokenStream) (word : Keyword) :
    stream.expectKeyword word = stream.expect (.keyword word) := by
  rw [expectKeyword, consumeKeyword?_eq, expect, TokenKind.describe]

@[simp] theorem tokens_advance (stream : TokenStream) : stream.advance.tokens = stream.tokens := by
  unfold advance; split <;> rfl

@[simp] theorem source_advance (stream : TokenStream) : stream.advance.source = stream.source := by
  unfold advance; split <;> rfl

theorem position_advance (stream : TokenStream) (h : stream.position ≤ stream.tokens.size - 1) :
    stream.advance.position = min (stream.position + 1) (stream.tokens.size - 1) := by
  unfold advance
  split
  · simp only; omega
  · omega

theorem position_advance_le (stream : TokenStream)
    (h : stream.position ≤ stream.tokens.size - 1) :
    stream.advance.position ≤ stream.advance.tokens.size - 1 := by
  rw [position_advance stream h, tokens_advance]; omega

end TokenStream

end Jpql
