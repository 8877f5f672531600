import Jpql.Token.Basic

/-! # Triggers and constructs

A *trigger* is what a token says about the expression it may start; a *construct* is what the reader
of queries builds. A grammar ties the two together. -/

namespace Jpql

/-- What kind of token can start an expression. -/
inductive Trigger where
  | keyword (word : Keyword)
  | identifier | number | string | parameter | openParen
deriving DecidableEq

/-- The trigger of a token. Punctuation other than `(` never starts an expression. -/
def Trigger.ofKind? : TokenKind → Option Trigger
  | .keyword word => some (.keyword word)
  | .identifier _ => some .identifier
  | .integer _ | .decimal _ => some .number
  | .string _ => some .string
  | .positional _ | .named _ => some .parameter
  | .leftParen => some .openParen
  | _ => none

/-- What a factory builds. -/
inductive Construct where
  | selectStatement | updateStatement | deleteStatement | simpleSelectStatement
  | group | path | number | string | wordLiteral | parameter | moment
  | abs | sqrt | mod | length | locate | size | index
  | concat | substring | trim | lower | upper
  | aggregate | caseOf | coalesce | nullif
  | type | treat | key | value | entry
  | call | existence | quantified | object | constructor
deriving DecidableEq

end Jpql
