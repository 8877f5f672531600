/-! # Message templates

A template is a text with numbered places, a number in curly brackets. `fill` puts the arguments in
one after the other, so a place that occurs inside an argument is filled by a later one. -/

namespace Jpql.Text

/-- Replaces `pattern` from left to right. `skip` counts the characters of a match that are still to
be passed over. -/
def replaceFrom (pattern replacement : List Char) : Nat → List Char → List Char
  | _, [] => []
  | skip + 1, _ :: cs => replaceFrom pattern replacement skip cs
  | 0, c :: cs =>
    if pattern.isPrefixOf (c :: cs) then
      replacement ++ replaceFrom pattern replacement (pattern.length - 1) cs
    else c :: replaceFrom pattern replacement 0 cs

/-- The text that stands for argument `index` in a template. -/
def place (index : Nat) : List Char := '{' :: (toString index).toList ++ ['}']

/-- Puts `arguments` into their places, the first of them into place `index`. -/
def fillFrom (index : Nat) : List String → List Char → List Char
  | [], text => text
  | argument :: arguments, text =>
    fillFrom (index + 1) arguments (replaceFrom (place index) argument.toList 0 text)

/-- **A template with its arguments put in.** Places without an argument stay as they are. -/
def fill (template : String) (arguments : List String) : String :=
  String.ofList (fillFrom 0 arguments template.toList)

theorem fill_nil (template : String) : fill template [] = template := by
  simp [fill, fillFrom]

end Jpql.Text
