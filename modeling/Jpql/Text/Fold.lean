/-! # Letter case of ASCII words

Keywords are recognised, and a name is matched with the variable of a declaration, without regard to
the case of the letters `a` to `z`. Letters outside ASCII are told apart by their case. -/

namespace Jpql.Text

/-- Upper case for the letters `a` to `z`; every other character is kept. -/
def asciiUpper (text : String) : String := String.ofList (text.toList.map Char.toUpper)

/-- Lower case for the letters `A` to `Z`; every other character is kept. -/
def asciiLower (text : String) : String := String.ofList (text.toList.map Char.toLower)

/-- Equality up to the case of ASCII letters. -/
def sameWord (a b : String) : Bool := a.toList.map Char.toLower == b.toList.map Char.toLower

theorem sameWord_iff {a b : String} :
    sameWord a b = true ↔ a.toList.map Char.toLower = b.toList.map Char.toLower := by
  simp [sameWord]

theorem sameWord_refl (a : String) : sameWord a a = true := by simp [sameWord]

theorem sameWord_comm (a b : String) : sameWord a b = sameWord b a := by
  rw [Bool.eq_iff_iff, sameWord_iff, sameWord_iff, eq_comm]

end Jpql.Text
