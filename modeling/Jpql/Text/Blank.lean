import Jpql.Text.Slice

/-! # Blank characters

`isBlank` holds of the characters with the Unicode property `White_Space`. Two things depend on it:
how the text of a node is shown (`normalizeBlanks`) and where a query text ends for a reader
(`trimmedLength`). The token scanner has a narrower notion of its own. -/

namespace Jpql.Text

/-- The Unicode property `White_Space`. -/
def isBlank (c : Char) : Bool :=
  let n := c.toNat
  (0x9 ≤ n && n ≤ 0xD) || n == 0x20 || n == 0x85 || n == 0xA0 || n == 0x1680 ||
    (0x2000 ≤ n && n ≤ 0x200A) || n == 0x2028 || n == 0x2029 || n == 0x202F || n == 0x205F ||
    n == 0x3000

/-- One pass of `normalizeBlanks`. `quoted` holds between single quotes, `pending` after a run of
blanks that is not written yet, and `started` once something was written. -/
def collapseBlanks (quoted pending started : Bool) : List Char → List Char
  | [] => []
  | c :: cs =>
    if !quoted && isBlank c then collapseBlanks quoted true started cs
    else
      let rest := c :: collapseBlanks (quoted != (c == '\'')) false true cs
      if pending && started then ' ' :: rest else rest

/-- **Runs of blanks outside single-quoted strings become one space, and the ends are trimmed.**
A quote that is never closed keeps all that follows it as it is. -/
def normalizeBlanks (text : String) : String :=
  String.ofList (collapseBlanks false false false text.toList)

/-- The length in bytes of a text without the blanks at its end. -/
def trimmedLength (text : String) : Nat :=
  byteLength (text.toList.reverse.dropWhile isBlank)

/-- Every blank of the ASCII range that core knows is a blank here. -/
theorem isBlank_of_isWhitespace {c : Char} (h : c.isWhitespace = true) : isBlank c = true := by
  simp only [Char.isWhitespace, Bool.or_eq_true, decide_eq_true_eq] at h
  rcases h with ((h | h) | h) | h <;> subst h <;> decide

end Jpql.Text
