import Jpql.Text.Span

/-! # Cutting a text at byte offsets

A text is a list of characters, its offsets count UTF-8 bytes. Cutting at an offset that falls
inside a character, or past the end, has no result; `slice` reads that as the empty text.

* `dropBytes_append`, `takeBytes_append`: a cut after a first part gives back the two parts.
* `slice_append`: the slice between the ends of a middle part is that part. -/

namespace Jpql.Text

/-- The number of UTF-8 bytes of a list of characters. -/
def byteLength : List Char → Nat
  | [] => 0
  | c :: cs => c.utf8Size + byteLength cs

@[simp] theorem byteLength_nil : byteLength [] = 0 := rfl

@[simp] theorem byteLength_cons (c : Char) (cs : List Char) :
    byteLength (c :: cs) = c.utf8Size + byteLength cs := rfl

@[simp] theorem byteLength_append (a b : List Char) :
    byteLength (a ++ b) = byteLength a + byteLength b := by
  induction a with
  | nil => simp
  | cons c cs ih => simp [ih, Nat.add_assoc]

/-- What is left after the first `n` bytes. -/
def dropBytes : Nat → List Char → Option (List Char)
  | 0, cs => some cs
  | _ + 1, [] => none
  | n + 1, c :: cs => if c.utf8Size ≤ n + 1 then dropBytes (n + 1 - c.utf8Size) cs else none

/-- The characters that make up the first `n` bytes. -/
def takeBytes : Nat → List Char → Option (List Char)
  | 0, _ => some []
  | _ + 1, [] => none
  | n + 1, c :: cs =>
    if c.utf8Size ≤ n + 1 then (takeBytes (n + 1 - c.utf8Size) cs).map (c :: ·) else none

/-- **The part of a text between two offsets**; empty if the span is reversed, leaves the text or
cuts a character. -/
def slice (text : String) (span : Span) : String :=
  if span.start ≤ span.stop then
    match (dropBytes span.start text.toList).bind (takeBytes (span.stop - span.start)) with
    | some cs => String.ofList cs
    | none => ""
  else ""

theorem dropBytes_append (a b : List Char) : dropBytes (byteLength a) (a ++ b) = some b := by
  induction a with
  | nil => cases b <;> rfl
  | cons c cs ih =>
    have hc : 0 < c.utf8Size := c.utf8Size_pos
    obtain ⟨n, hn⟩ : ∃ n, byteLength (c :: cs) = n + 1 :=
      ⟨c.utf8Size + byteLength cs - 1, by rw [byteLength_cons]; omega⟩
    rw [byteLength_cons] at hn
    rw [byteLength_cons, hn, List.cons_append, dropBytes, if_pos (by omega),
      show n + 1 - c.utf8Size = byteLength cs by omega, ih]

theorem takeBytes_append (a b : List Char) : takeBytes (byteLength a) (a ++ b) = some a := by
  induction a with
  | nil => cases b <;> rfl
  | cons c cs ih =>
    have hc : 0 < c.utf8Size := c.utf8Size_pos
    obtain ⟨n, hn⟩ : ∃ n, byteLength (c :: cs) = n + 1 :=
      ⟨c.utf8Size + byteLength cs - 1, by rw [byteLength_cons]; omega⟩
    rw [byteLength_cons] at hn
    rw [byteLength_cons, hn, List.cons_append, takeBytes, if_pos (by omega),
      show n + 1 - c.utf8Size = byteLength cs by omega, ih]
    rfl

theorem slice_append (a b c : List Char) :
    slice (String.ofList (a ++ b ++ c)) ⟨byteLength a, byteLength a + byteLength b⟩ =
      String.ofList b := by
  simp only [slice, String.toList_ofList, List.append_assoc, dropBytes_append, Option.bind_some,
    Nat.add_sub_cancel_left, takeBytes_append]
  simp

end Jpql.Text
