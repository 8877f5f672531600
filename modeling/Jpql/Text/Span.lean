/-! # Spans of a query text

Positions in a query text are byte offsets into its UTF-8 form, and a *span* is a half-open range of
them. Tokens, tree nodes, path segments and problems all carry one.

* `Span.cover`: the smallest span around two others.
* `Located`: a value together with the place it was read from; `Located.map` keeps the place. -/

namespace Jpql

/-- The byte range from `start` (included) to `stop` (excluded). -/
structure Span where
  start : Nat
  stop : Nat
deriving DecidableEq, Inhabited

namespace Span

/-- The empty span at an offset. -/
def point (offset : Nat) : Span := ⟨offset, offset⟩

/-- **The smallest span that contains both arguments.** -/
def cover (a b : Span) : Span := ⟨min a.start b.start, max a.stop b.stop⟩

/-- A span cut to a text of the given length, and never reversed. -/
def clamp (length : Nat) (span : Span) : Span :=
  let start := min span.start length
  ⟨start, max (min span.stop length) start⟩

theorem cover_comm (a b : Span) : cover a b = cover b a := by
  simp [cover, Nat.min_comm, Nat.max_comm]

theorem clamp_bounds (length : Nat) (span : Span) :
    (clamp length span).start ≤ (clamp length span).stop ∧
      (clamp length span).stop ≤ length := by
  simp only [clamp]; omega

end Span

/-- A value with the place it was read from. A path keeps its segments in this form, so that a
problem can point at one segment of `e.address.city` alone. -/
structure Located (α : Type) where
  value : α
  span : Span
deriving DecidableEq

/-- Changes the value and keeps the place. -/
def Located.map {α β : Type} (f : α → β) (a : Located α) : Located β := ⟨f a.value, a.span⟩

end Jpql
