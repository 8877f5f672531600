import Jpql.Proofs.Reader.Query
import Jpql.Proofs.Reader.Tile
import Jpql.Proofs.Tree.WellFormed

/-! # Where variables are written

A variable that is written in a text is added once its token has been moved over, and takes the place
of that token. Readers never move back, so no two variables of a tree are written at one place
(`parse_written`).

* `Draft.Written`: the variables that are written in a draft stand one behind the other, up to a place.
* `Env.InOrder.written`: while a text is read, they stand before the current token. -/

namespace Jpql

theorem NodeKind.isWritten_asCollection (kind : NodeKind) :
    kind.asCollection.isWritten = kind.isWritten := by
  cases kind <;> rfl

namespace Parse

/-- **The variables that are written stand one behind the other**, in the order of their ids, and each
takes up some of the text before the place. -/
structure Draft.Written (draft : Draft) (place : Nat) : Prop where
  solid : ∀ id, (draft.kind id).isWritten = true → (draft.span id).start < (draft.span id).stop
  before : ∀ id, (draft.kind id).isWritten = true → (draft.span id).stop ≤ place
  apart : ∀ id other, id < other → (draft.kind id).isWritten = true →
    (draft.kind other).isWritten = true → (draft.span id).stop ≤ (draft.span other).start

namespace Draft.Written

variable {draft : Draft} {low high : Nat}

theorem mono (h : draft.Written low) (hle : low ≤ high) : draft.Written high :=
  ⟨h.solid, fun id hid => Nat.le_trans (h.before id hid) hle, h.apart⟩

/-- Only what has been added is written. -/
theorem lt_size {id : Nat} (h : (draft.kind id).isWritten = true) : id < draft.size := by
  by_contra hge
  rw [Draft.kind, TreeBuilder.kind_of_size_le (Nat.le_of_not_lt hge)] at h
  cases h

/-- What is written after a node was added was so before, or is the node itself. -/
theorem of_push {kind : NodeKind} {span : Span} {id : Nat}
    (h : ((draft.push kind span).kind id).isWritten = true) :
    (id = draft.size ∧ kind.isWritten = true ∧ (draft.push kind span).span id = span) ∨
      (id < draft.size ∧ (draft.kind id).isWritten = true ∧
        (draft.push kind span).span id = draft.span id) := by
  have hlt := lt_size h
  rw [size_push] at hlt
  rcases Nat.lt_succ_iff_lt_or_eq.mp hlt with hlt | rfl
  · rw [(draft.grows_push kind span).kind_eq id hlt] at h
    exact .inr ⟨hlt, h, draft.span_push_of_lt kind span hlt⟩
  · rw [kind_push] at h
    exact .inl ⟨rfl, h, draft.span_push kind span⟩

/-- Other nodes may stand anywhere. -/
theorem push (h : draft.Written low) {kind : NodeKind} (span : Span) (hkind : kind.isWritten = false) :
    (draft.push kind span).Written low := by
  have hold : ∀ id, ((draft.push kind span).kind id).isWritten = true →
      (draft.kind id).isWritten = true ∧ (draft.push kind span).span id = draft.span id := by
    intro id hid
    rcases of_push hid with ⟨-, hnew, -⟩ | ⟨-, hold⟩
    · rw [hkind] at hnew
      cases hnew
    · exact hold
  refine ⟨fun id hid => ?_, fun id hid => ?_, fun id other hlt hid hother => ?_⟩
  · rw [(hold id hid).2]
    exact h.solid id (hold id hid).1
  · rw [(hold id hid).2]
    exact h.before id (hold id hid).1
  · rw [(hold id hid).2, (hold other hother).2]
    exact h.apart id other hlt (hold id hid).1 (hold other hother).1

/-- **A variable may be written behind the place.** -/
theorem written (h : draft.Written low) (name : String) {span : Span} (hlow : low ≤ span.start)
    (hsolid : span.start < span.stop) :
    (draft.push (.identifier name false none) span).Written span.stop := by
  refine ⟨fun id hid => ?_, fun id hid => ?_, fun id other hlt hid hother => ?_⟩
  · rcases of_push hid with ⟨-, -, hspan⟩ | ⟨-, hold, hspan⟩
    · rw [hspan]
      exact hsolid
    · rw [hspan]
      exact h.solid id hold
  · rcases of_push hid with ⟨-, -, hspan⟩ | ⟨-, hold, hspan⟩
    · rw [hspan]
    · have hbefore := h.before id hold
      rw [hspan]
      omega
  · rcases of_push hid with ⟨rfl, -, -⟩ | ⟨-, hid, hspan⟩
    · have hsize := lt_size hother
      rw [size_push] at hsize
      omega
    · rcases of_push hother with ⟨-, -, hplace⟩ | ⟨-, hother, hplace⟩
      · rw [hspan, hplace]
        exact Nat.le_trans (h.before id hid) hlow
      · rw [hspan, hplace]
        exact h.apart id other hlt hid hother

theorem record (h : draft.Written low) (problem : Problem) : (draft.record problem).Written low :=
  ⟨h.solid, h.before, h.apart⟩

theorem asCollection (h : draft.Written low) (id : Nat) : (draft.asCollection id).Written low := by
  have hkind : ∀ other, ((draft.asCollection id).kind other).isWritten =
      (draft.kind other).isWritten := by
    intro other
    rcases Nat.lt_or_ge id draft.size with hlt | hge
    · rw [kind_asCollection draft hlt]
      split
      · next heq => rw [NodeKind.isWritten_asCollection, heq]
      · rfl
    · rw [asCollection_eq_self]
      rw [Draft.kind, TreeBuilder.kind_of_size_le hge]
      rfl
  refine ⟨fun other hother => ?_, fun other hother => ?_, fun first second hlt hfirst hsecond => ?_⟩
  · rw [span_asCollection]
    exact h.solid other (hkind other ▸ hother)
  · rw [span_asCollection]
    exact h.before other (hkind other ▸ hother)
  · rw [span_asCollection, span_asCollection]
    exact h.apart first second hlt (hkind first ▸ hfirst) (hkind second ▸ hsecond)

/-- No two variables are written at one place. -/
theorem inj (h : draft.Written low) {id other : Nat} (hid : (draft.kind id).isWritten = true)
    (hother : (draft.kind other).isWritten = true) (hspan : draft.span id = draft.span other) :
    id = other := by
  have hsolid := h.solid id hid
  rcases Nat.lt_trichotomy id other with hlt | heq | hlt
  · have hapart := h.apart id other hlt hid hother
    rw [← hspan] at hapart
    omega
  · exact heq
  · have hapart := h.apart other id hlt hother hid
    rw [← hspan] at hapart
    omega

end Draft.Written

/-- What a run has written stands before the current token. -/
structure State.Written (env : Env) (s : State) : Prop where
  inside : s.position ≤ env.tokens.size - 1
  written : s.draft.Written (env.startAt s.position)

variable {env : Env}

/-- **While a text is read, variables are written one behind the other.** -/
theorem Env.InOrder.written (h : env.InOrder) : Invariant env (State.Written env) where
  moved hs _ hle hn := ⟨hn, hs.written.mono (h.startAt_mono hle (h.lt_size hn))⟩
  renamed hs _ := ⟨hs.inside, hs.written⟩
  pushed hs _ span hkind := ⟨hs.inside, hs.written.push span (NodeKind.isWritten_of_isPlain hkind)⟩
  named {s} hs hkind name n hle hn := by
    have hlt := h.lt_size hs.inside
    have hcurrent : (s.stream env).current = env.tokens[s.position] := Env.InOrder.current_eq hlt
    rw [position_advance_of_ne_eof h hs.inside hkind] at hle
    rw [TokenStream.kind, hcurrent] at hkind
    -- The name ends before any later token starts.
    have hstop : env.tokens[s.position].span.stop ≤ env.startAt n := by
      rw [Env.InOrder.startAt_eq (h.lt_size hn)]
      exact h.stop_le_start hle hlt (h.lt_size hn)
    have hsolid := Token.Run.start_lt_stop h _ (Array.getElem_mem_toList hlt) hkind
    have hstart := hs.written
    rw [Env.InOrder.startAt_eq hlt] at hstart
    rw [hcurrent]
    exact ⟨hn, (hstart.written name (Nat.le_refl _) hsolid).mono hstop⟩
  recorded hs problem _ := ⟨hs.inside, hs.written.record problem⟩
  missed {s} hs what n :=
    ⟨hs.inside, (hs.written.push (.point n) (rfl : NodeKind.bad.isWritten = false)).record _⟩
  leftOver hs _ span text _ _ :=
    ⟨hs.inside, (hs.written.push span (rfl : (NodeKind.unknown text).isWritten = false)).record _⟩
  reread hs id := ⟨hs.inside, hs.written.asCollection id⟩

end Parse

/-- **No two variables are written at one place**, in the tree of any text that is read. -/
theorem parse_written {source rule : String} {maxDepth : Nat} {parsed : Parsed}
    (hrule : (Grammar.standard.rule? rule).isSome = true)
    (hparse : parse source rule maxDepth = .ok parsed) {id other : Nat}
    (hid : (parsed.tree.kind id).isWritten = true) (hother : (parsed.tree.kind other).isWritten = true)
    (hspan : parsed.tree.span id = parsed.tree.span other) : id = other := by
  obtain ⟨root, state, hrun, hparsed⟩ := parse_run source rule maxDepth hrule
  obtain rfl := Except.ok.inj (hparsed.symm.trans hparse)
  have hempty : ∀ id, (Parse.State.initial.draft.kind id).isWritten ≠ true := fun id =>
    Bool.false_ne_true
  have hwritten := ((Parse.textEnv_inOrder source maxDepth).written.query hrun
    ⟨Nat.zero_le _, fun id h => absurd h (hempty id), fun id h => absurd h (hempty id),
      fun id _ _ h => absurd h (hempty id)⟩).written
  rw [Tree.kind_finish] at hid hother
  rw [Tree.span_finish, Tree.span_finish] at hspan
  exact hwritten.inj hid hother hspan

end Jpql
