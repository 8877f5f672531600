import Jpql.Text.Slice
import Jpql.Token.Keyword

/-! # Tokens

A token is a kind with the span it was read from. Names, literals and parameters keep the text that
matters later: a string literal its value without quotes, a parameter its name without the mark. -/

namespace Jpql

/-- The kind of a token. -/
inductive TokenKind where
  | keyword (word : Keyword)
  | identifier (name : String)
  /-- `12`, `12L`. -/
  | integer (text : String)
  /-- `1.5`, `.5`, `2e3`, `3F`. -/
  | decimal (text : String)
  /-- A string literal; the value has no outer quotes, and its doubled quotes are single. -/
  | string (value : String)
  /-- `?1`. -/
  | positional (name : String)
  /-- `:name`. -/
  | named (name : String)
  | leftParen | rightParen | comma | dot
  | equal | notEqual | less | lessEqual | greater | greaterEqual
  | plus | minus | star | slash
  /-- The end of the query. -/
  | eof
deriving DecidableEq

namespace TokenKind

/-- The keyword a token is, if it is one. -/
def keyword? : TokenKind → Option Keyword
  | .keyword word => some word
  | _ => none

/-- The token is the given keyword. -/
def isKeyword (kind : TokenKind) (word : Keyword) : Bool := kind.keyword? == some word

theorem isKeyword_eq_beq (kind : TokenKind) (word : Keyword) :
    kind.isKeyword word = (kind == .keyword word) := by
  rw [Bool.eq_iff_iff, isKeyword, beq_iff_eq, beq_iff_eq]
  cases kind <;> simp [keyword?]

/-- The token is one of `= <> < <= > >=`. -/
def isComparison : TokenKind → Bool
  | .equal | .notEqual | .less | .lessEqual | .greater | .greaterEqual => true
  | _ => false

/-- The token is a numeric or a string literal. -/
def isLiteral : TokenKind → Bool
  | .integer _ | .decimal _ | .string _ => true
  | _ => false

/-- How a message names a token. -/
def describe : TokenKind → String
  | .keyword word => word.spelling
  | .identifier name => "identifier '" ++ name ++ "'"
  | .integer text | .decimal text => text
  | .string value => "'" ++ value ++ "'"
  | .positional name => "?" ++ name
  | .named name => ":" ++ name
  | .leftParen => "'('"
  | .rightParen => "')'"
  | .comma => "','"
  | .dot => "'.'"
  | .equal => "'='"
  | .notEqual => "'<>'"
  | .less => "'<'"
  | .lessEqual => "'<='"
  | .greater => "'>'"
  | .greaterEqual => "'>='"
  | .plus => "'+'"
  | .minus => "'-'"
  | .star => "'*'"
  | .slash => "'/'"
  | .eof => "end of query"

end TokenKind

/-- A token with the place it was read from. -/
structure Token where
  kind : TokenKind
  span : Span
deriving DecidableEq

/-- The token exactly as it is written in `source`. -/
def Token.text (token : Token) (source : String) : String := Text.slice source token.span

end Jpql
