import Jpql.Parse.Primary
import Mathlib.Tactic.Common

/-! # Streams of the same tokens

Two streams are *alike* if their tokens agree in kind and spelling and they stand at the same
position; where the tokens are in the texts is left open. A look at a stream is *textual* if it
cannot tell such streams apart. A move is *forward* if it stays among the tokens and never goes back.

* `TokenStream.Textual`: kinds, spellings and names are textual, places are not.
* `TokenStream.Forward`: every move of a reader is forward. -/

namespace Jpql

/-- A token without its place. -/
def Token.spelled (source : String) (token : Token) : TokenKind × String :=
  (token.kind, token.text source)

namespace TokenStream

/-- **The same tokens in possibly different places.** -/
structure Alike (a b : TokenStream) : Prop where
  position : a.position = b.position
  tokens : a.tokens.map (Token.spelled a.source) = b.tokens.map (Token.spelled b.source)

/-- **The look depends on the tokens alone**, not on their places. -/
def Textual {α : Type} (f : TokenStream → α) : Prop := ∀ a b : TokenStream, a.Alike b → f a = f b

namespace Alike

variable {a b : TokenStream}

theorem size (h : a.Alike b) : a.tokens.size = b.tokens.size := by
  have hsize := congrArg Array.size h.tokens
  rwa [Array.size_map, Array.size_map] at hsize

theorem spelled_peekAhead (h : a.Alike b) (n : Nat) :
    (a.peekAhead n).spelled a.source = (b.peekAhead n).spelled b.source := by
  have hget : ∀ i, a.tokens[i]?.map (Token.spelled a.source) =
      b.tokens[i]?.map (Token.spelled b.source) := fun i => by
    rw [← Array.getElem?_map, ← Array.getElem?_map, h.tokens]
  have hback : a.tokens.back?.map (Token.spelled a.source) =
      b.tokens.back?.map (Token.spelled b.source) := by
    rw [Array.back?_eq_getElem?, Array.back?_eq_getElem?, hget, h.size]
  have hnone : noToken.spelled a.source = noToken.spelled b.source := by
    simp [Token.spelled, Token.text, noToken, Span.point, Text.slice, Text.dropBytes,
      Text.takeBytes]
  have houter : ∀ (x y : Option Token) (source : String),
      ((x.or y).getD noToken).spelled source =
        ((x.map (Token.spelled source)).or (y.map (Token.spelled source))).getD
          (noToken.spelled source) := by
    intro x y source
    cases x <;> cases y <;> rfl
  rw [peekAhead, peekAhead, houter, houter, h.position, hget, hback, hnone]

theorem kind_peekAhead (h : a.Alike b) (n : Nat) : (a.peekAhead n).kind = (b.peekAhead n).kind :=
  congrArg Prod.fst (h.spelled_peekAhead n)

theorem kind (h : a.Alike b) : a.kind = b.kind := h.kind_peekAhead 0

theorem peek (h : a.Alike b) : a.peek.kind = b.peek.kind := h.kind_peekAhead 1

theorem currentText (h : a.Alike b) : a.currentText = b.currentText :=
  congrArg Prod.snd (h.spelled_peekAhead 0)

theorem check (h : a.Alike b) (kind : TokenKind) : a.check kind = b.check kind := by
  rw [TokenStream.check, TokenStream.check, h.kind]

theorem checkKeyword (h : a.Alike b) (word : Keyword) : a.checkKeyword word = b.checkKeyword word := by
  rw [TokenStream.checkKeyword, TokenStream.checkKeyword, h.kind]

theorem advance (h : a.Alike b) : a.advance.Alike b.advance where
  position := by
    unfold TokenStream.advance
    rw [h.position, h.size]
    split <;> first | rfl | exact h.position
  tokens := by
    rw [tokens_advance, tokens_advance, source_advance, source_advance]
    exact h.tokens

theorem pathSegment? (h : a.Alike b) : a.pathSegment? = b.pathSegment? := by
  unfold TokenStream.pathSegment?
  rw [h.kind, h.currentText]

end Alike

/-! ## Looks -/

theorem textual_kind : Textual (·.kind) := fun _ _ h => h.kind

theorem textual_currentText : Textual (·.currentText) := fun _ _ h => h.currentText

theorem textual_check (kind : TokenKind) : Textual (·.check kind) := fun _ _ h => h.check kind

theorem textual_checkKeyword (word : Keyword) : Textual (·.checkKeyword word) := fun _ _ h =>
  h.checkKeyword word

theorem textual_atEnd : Textual (·.atEnd) := fun a b h => by
  show (a.kind == .eof) = (b.kind == .eof)
  rw [h.kind]

theorem textual_identifier? : Textual (·.identifier?) := fun a b h => by
  dsimp only [identifier?]
  rw [h.kind, h.peek, h.currentText]

theorem textual_trigger? : Textual Parse.trigger? := fun a b h => by
  dsimp only [Parse.trigger?]
  rw [h.kind, h.peek]

/-! ## Moves -/

/-- **The move stays among the tokens and never goes back.** -/
structure Forward (before after : TokenStream) : Prop where
  source : after.source = before.source
  tokens : after.tokens = before.tokens
  bounds : before.position ≤ before.tokens.size - 1 →
    before.position ≤ after.position ∧ after.position ≤ before.tokens.size - 1

namespace Forward

variable {a b c : TokenStream}

theorem refl (a : TokenStream) : a.Forward a := ⟨rfl, rfl, fun h => ⟨Nat.le_refl _, h⟩⟩

theorem trans (h : a.Forward b) (k : b.Forward c) : a.Forward c where
  source := k.source.trans h.source
  tokens := k.tokens.trans h.tokens
  bounds ha := by
    have hb := h.bounds ha
    have hc := k.bounds
    rw [h.tokens] at hc
    exact ⟨Nat.le_trans hb.1 (hc hb.2).1, (hc hb.2).2⟩

theorem advance (a : TokenStream) : a.Forward a.advance where
  source := source_advance a
  tokens := tokens_advance a
  bounds h := by
    rw [position_advance a h]
    omega

end Forward

end TokenStream

end Jpql
