import Jpql.Parse.Recovery

/-! # Variables and paths

A path is a variable, or a qualified one such as `KEY(m)`, followed by segments with dots between
them. After a dot every word is a name, keywords included.

In an `UPDATE` or `DELETE` without alias there is a *virtual* variable. A bare name is then a field
of it, and a path that does not start at the virtual variable is a path below it. -/

namespace Jpql

/-- **The segments that follow**, each a dot and a name, with a flag for text that ends in a dot. -/
def TokenStream.segments : (bound : Nat) → TokenStream →
    (List (Located String) × Bool) × TokenStream
  | 0, stream => (([], false), stream)
  | bound + 1, stream =>
    match stream.consume? .dot with
    | none => (([], false), stream)
    | some (_, next) =>
      match next.pathSegment? with
      | none => (([], true), next)
      | some name =>
        let ((rest, endsWithDot), last) := segments bound next.advance
        ((⟨name, next.current.span⟩ :: rest, endsWithDot), last)

namespace Parse

/-- Moves over the segments that follow. -/
def segments : Parser (List (Located String) × Bool) := do
  let bound := (← read).tokens.size
  step (·.segments bound)

/-- Adds a variable that is written in the text. -/
def pushVariable (name : String) (span : Span) : Parser NodeId :=
  push (.identifier name false none) span

/-- Adds a path below the virtual variable, which is empty in the text; `field` comes first. -/
def pushVirtualPath (virtualName : String) (field : Located String)
    (segments : List (Located String)) (endsWithDot : Bool) : Parser NodeId := do
  let start := field.span.start
  let root ← push (.identifier virtualName true none) (.point start)
  pushFrom (.path .stateField root (field :: segments) endsWithDot) start

/-- The virtual variable that a path with this first name belongs to, if there is one. -/
def virtualFor? (name : String) : Parser (Option String) := do
  return (← get).virtualVariable.filter fun virtualName => !Text.sameWord name virtualName

/-- **A variable or a path**, where the current token is the name it starts with. -/
def pathOrVariable : Parser NodeId := do
  let span ← look (·.current.span)
  let name ← look (·.currentText)
  advance
  let (segments, endsWithDot) ← segments
  let bare := segments.isEmpty && !endsWithDot
  match ← virtualFor? name with
  | some virtualName =>
    let path ← pushVirtualPath virtualName ⟨name, span⟩ segments endsWithDot
    if bare then push (.identifier name true (some path)) span else return path
  | none =>
    let root ← pushVariable name span
    if bare then return root
    else pushFrom (.path .stateField root segments endsWithDot) span.start

/-- Reads segments after `KEY(m)`, `VALUE(m)` or `TREAT(..)`, if there are any. -/
def continuePath (root : NodeId) (start : Nat) : Parser NodeId := do
  if ← look (·.check .dot) then
    let (segments, endsWithDot) ← segments
    pushFrom (.path .stateField root segments endsWithDot) start
  else return root

/-- The target of a `SET` item. It is always a path, even if it is a bare name. -/
def updateTarget : Parser NodeId := do
  match ← look (·.identifier?) with
  | none => missing "update item"
  | some name =>
    let span ← look (·.current.span)
    advance
    let (segments, endsWithDot) ← segments
    match ← virtualFor? name with
    | some virtualName => pushVirtualPath virtualName ⟨name, span⟩ segments endsWithDot
    | none =>
      let root ← pushVariable name span
      pushFrom (.path .stateField root segments endsWithDot) span.start

/-- The variable that the current token declares, if it can name one. -/
def declaredVariable? : Parser (Option NodeId) := do
  match ← look (·.identifier?) with
  | none => return none
  | some name =>
    let span ← look (·.current.span)
    advance
    return some (← pushVariable name span)

/-- Reads the current token as the name of an entity type. -/
def entityType (name : String) : Parser NodeId := do
  let span ← look (·.current.span)
  advance
  push (.entityType name) span

end Parse

end Jpql
