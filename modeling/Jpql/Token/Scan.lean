import Jpql.Problem.Basic
import Jpql.Token.Basic

/-! # Scanning

A query text is cut into tokens from left to right. Space, tab, line feed, form feed and carriage
return separate tokens; at any other place the longest token is taken. A character that starts no
token is reported and passed over. A string that is never closed is reported as a whole and takes
the rest of the text.

* `lexeme?` finds the token at the front of a text and its length in characters. Its parts are one
  measure for each class of tokens: `wordLength`, `numberLength`, `closingQuote?`, `symbol?`.
* `scan` walks over the text; it recurses on the text itself, counting off the characters of the
  token it has just read.
* `tokenize` is the whole scanner. Its list of tokens is never empty and ends with `eof`
  (`tokenize_getLast`). -/

namespace Jpql

namespace Scan

/-- A character that separates tokens. -/
def isGap (c : Char) : Bool :=
  c == ' ' || c == '\t' || c == '\r' || c == '\n' || c == '\x0c'

/-- A character that starts a word. -/
def isWordStart (c : Char) : Bool := c.isAlpha || c == '_' || c == '$'

/-- A character that continues a word. -/
def isWordPart (c : Char) : Bool := isWordStart c || c.isDigit

/-- The length of the word at the front, zero if there is none. -/
def wordLength : List Char → Nat
  | [] => 0
  | c :: cs => if isWordStart c then (cs.takeWhile isWordPart).length + 1 else 0

/-- The number of digits at the front. -/
def digitCount (cs : List Char) : Nat := (cs.takeWhile Char.isDigit).length

/-- One if the first character is among `letters`, else zero. -/
def markLength (letters : List Char) : List Char → Nat
  | [] => 0
  | c :: _ => if letters.contains c then 1 else 0

/-- The length of the exponent at the front (`e5`, `E-12`), zero if there is none. -/
def exponentLength (cs : List Char) : Nat :=
  if markLength ['e', 'E'] cs = 0 then 0
  else
    let sign := markLength ['+', '-'] (cs.drop 1)
    let digits := digitCount (cs.drop (1 + sign))
    if digits = 0 then 0 else 1 + sign + digits

/-- The length of an optional exponent and an optional letter `f` or `d`. -/
def scaleLength (cs : List Char) : Nat :=
  let exponent := exponentLength cs
  exponent + markLength ['f', 'F', 'd', 'D'] (cs.drop exponent)

/-- What is in a number besides digits decides whether it is an integer. -/
inductive NumberClass where
  | integer | decimal

/-- The number at the front, with its length: digits with an optional `l`, or a decimal, which has a
point, an exponent or a letter `f` or `d`. A number starts with a digit, or with a point that a
digit follows. -/
def number? (cs : List Char) : Option (NumberClass × Nat) :=
  let whole := digitCount cs
  let rest := cs.drop whole
  if markLength ['.'] rest = 1 then
    let fraction := digitCount (rest.drop 1)
    if whole = 0 ∧ fraction = 0 then none
    else some (.decimal, whole + 1 + fraction + scaleLength (rest.drop (1 + fraction)))
  else if whole = 0 then none
  else
    match scaleLength rest with
    | 0 => some (.integer, whole + markLength ['l', 'L'] rest)
    | scale + 1 => some (.decimal, whole + (scale + 1))

/-- The number of characters up to the quote that closes a string, that quote included, counted
after the opening quote. A doubled quote belongs to the string. -/
def closingQuote? : List Char → Option Nat
  | [] => none
  | '\'' :: '\'' :: cs => (closingQuote? cs).map (· + 2)
  | c :: cs => if c = '\'' then some 1 else (closingQuote? cs).map (· + 1)

/-- The value of a string from what stands between its outer quotes: doubled quotes become one. -/
def unquote : List Char → List Char
  | [] => []
  | '\'' :: '\'' :: cs => '\'' :: unquote cs
  | c :: cs => c :: unquote cs

/-- The operator or punctuation mark at the front, with its length. -/
def symbol? : List Char → Option (TokenKind × Nat)
  | '(' :: _ => some (.leftParen, 1)
  | ')' :: _ => some (.rightParen, 1)
  | ',' :: _ => some (.comma, 1)
  | '.' :: _ => some (.dot, 1)
  | '=' :: _ => some (.equal, 1)
  | '<' :: '>' :: _ => some (.notEqual, 2)
  | '!' :: '=' :: _ => some (.notEqual, 2)
  | '<' :: '=' :: _ => some (.lessEqual, 2)
  | '<' :: _ => some (.less, 1)
  | '>' :: '=' :: _ => some (.greaterEqual, 2)
  | '>' :: _ => some (.greater, 1)
  | '+' :: _ => some (.plus, 1)
  | '-' :: _ => some (.minus, 1)
  | '*' :: _ => some (.star, 1)
  | '/' :: _ => some (.slash, 1)
  | _ => none

/-- The token a word stands for: a keyword or an identifier. -/
def wordKind (word : String) : TokenKind :=
  match Keyword.ofWord? word with
  | some keyword => .keyword keyword
  | none => .identifier word

/-- **The longest token at the front of a text**, with its length in characters. -/
def lexeme? (cs : List Char) : Option (TokenKind × Nat) :=
  match cs with
  | [] => none
  | '\'' :: rest =>
    (closingQuote? rest).map fun n =>
      (.string (String.ofList (unquote (rest.take (n - 1)))), n + 1)
  | '?' :: rest =>
    match digitCount rest with
    | 0 => none
    | n => some (.positional (String.ofList (rest.take n)), n + 1)
  | ':' :: rest =>
    match wordLength rest with
    | 0 => none
    | n => some (.named (String.ofList (rest.take n)), n + 1)
  | _ =>
    match wordLength cs with
    | n + 1 => some (wordKind (String.ofList (cs.take (n + 1))), n + 1)
    | 0 =>
      match number? cs with
      | some (.integer, n) => some (.integer (String.ofList (cs.take n)), n)
      | some (.decimal, n) => some (.decimal (String.ofList (cs.take n)), n)
      | none => symbol? cs

end Scan

/-- The tokens of a text, the last of them `eof`, and the problems met on the way. -/
structure Lexed where
  tokens : List Token
  problems : List Problem

namespace Scan

/-- The end of a text of the given length. -/
def finish (length : Nat) : Lexed := ⟨[⟨.eof, .point length⟩], []⟩

/-- **Scans the text from an offset on.** `skip` counts the characters that still belong to the
token read last. -/
def scan : (skip offset : Nat) → List Char → Lexed
  | _, offset, [] => finish offset
  | skip + 1, offset, c :: cs => scan skip (offset + c.utf8Size) cs
  | 0, offset, c :: cs =>
    let next := offset + c.utf8Size
    if isGap c then scan 0 next cs
    else
      match lexeme? (c :: cs) with
      | some (kind, n) =>
        let token : Token := ⟨kind, ⟨offset, offset + Text.byteLength ((c :: cs).take n)⟩⟩
        let rest := scan (n - 1) next cs
        { rest with tokens := token :: rest.tokens }
      | none =>
        if c = '\'' then
          let stop := offset + Text.byteLength (c :: cs)
          { finish stop with problems := [⟨.unterminatedString, [], ⟨offset, stop⟩, none⟩] }
        else
          let rest := scan 0 next cs
          { rest with
            problems := ⟨.invalidCharacter, [c.toString], ⟨offset, next⟩, none⟩ :: rest.problems }

end Scan

/-- **Cuts a query text into tokens.** -/
def tokenize (source : String) : Lexed := Scan.scan 0 0 source.toList

namespace Scan

theorem scan_getLast (skip offset : Nat) (cs : List Char) :
    (scan skip offset cs).tokens.getLast? =
      some ⟨.eof, .point (offset + Text.byteLength cs)⟩ := by
  induction cs generalizing skip offset with
  | nil => cases skip <;> simp [scan, finish]
  | cons c cs ih =>
    have step (n : Nat) := ih n (offset + c.utf8Size)
    simp only [Nat.add_assoc] at step
    cases skip with
    | succ n => simpa [scan] using step n
    | zero =>
      simp only [scan, Text.byteLength_cons]
      split
      · exact step 0
      · split
        · simp [List.getLast?_cons, step]
        · split
          · simp [finish]
          · exact step 0

end Scan

/-- The last token of a text is `eof`, at the end of the text. -/
theorem tokenize_getLast (source : String) :
    (tokenize source).tokens.getLast? =
      some ⟨.eof, .point (Text.byteLength source.toList)⟩ := by
  simpa [tokenize] using Scan.scan_getLast 0 0 source.toList

end Jpql
