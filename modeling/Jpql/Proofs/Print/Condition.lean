import Jpql.Proofs.Print.Level

/-! # Reading written conditions

A simple condition starts with an operand. The token behind it decides how it goes on: an operator, or
a word with `NOT` in front of it or without (`isReadAt_comparison`, `isReadAt_continued`). What the
word calls for is read by `conditionRest?`, one lemma for each word. -/

namespace Jpql.Expression

open Parse
open TokenKind (Stops)

variable {env : Env} {deeper : Deeper} {s : State} {rest : List Lexeme} {a b e : Expression}
  {left : NodeId} {negated : Bool}

/-- Operands behind the first one are scalar. -/
theorem IsReadAt.scalar (h : e.IsReadAt env deeper 4) (hstop : Stops 4 (headKind rest))
    (hs : s.Ahead env (e.lexemes ++ rest)) :
    Reads env (Parse.scalar deeper) s rest fun id d => Represents d.kind id e :=
  h s rest _ accepts_scalar hstop hs

/-! ## The ways to go on -/

theorem comparison?_lexeme (operator : Comparison) :
    comparison? operator.lexeme.kind = some operator := by
  cases operator <;> rfl

theorem follow?_comparison (operator : Comparison) :
    operator.lexeme.kind.follow? = some 3 := by
  cases operator <;> rfl

/-- **Two operands with an operator between them.** -/
theorem isReadAt_comparison (operator : Comparison) (ha : a.IsReadAt env deeper 4)
    (hb : b.IsReadAt env deeper 4) : (comparison a operator b).IsReadAt env deeper 3 := by
  intro s rest rule hrule hstop hs
  rw [lexemes, List.append_assoc, List.cons_append] at hs
  have hafter : Stops 4 operator.lexeme.kind := .of_some (follow?_comparison operator) (by decide)
  refine (ha s (operator.lexeme :: (b.lexemes ++ rest)) rule hrule hafter hs).bind
    fun left t ht hleft => Reads.startOf_bind fun start => Reads.look_bind ?_
  rw [ht.ahead.kind, headKind, comparison?_lexeme]
  refine (Reads.advance ht.ahead).bind fun _ u hu hdraft => ?_
  refine (hb u rest _ accepts_comparisonRight (hstop.mono (by decide)) hu.ahead).bind
    fun right v hv hright => Reads.pushFrom_makes hv.ahead ?_ start
  exact fun after id hafter hid =>
    .comparison hid (hleft.grows (hu.grows.trans (hv.grows.trans hafter))) (hright.grows hafter)

/-- A word goes on with a condition whose first operand is read. -/
def ContinuedBy (env : Env) (deeper : Deeper) (e a : Expression) (negated : Bool)
    (ws : List Lexeme) : Prop :=
  ∀ s rest left, Stops 3 (headKind rest) → Represents s.draft.kind left a →
    s.Ahead env (ws ++ rest) → Reads env (conditionRest? deeper left negated) s rest
      fun kind? d => ∃ kind, kind? = some kind ∧ e.Makes kind d

/-- **An operand, then a word that calls for more**, with `NOT` in front of it or without. -/
theorem isReadAt_continued {word : Keyword} {ws : List Lexeme}
    (hword : word = .between ∨ word = .like ∨ word = .in ∨ word = .is ∧ negated = false)
    (ha : a.IsReadAt env deeper 4)
    (hlexemes : e.lexemes = a.lexemes ++ (Lexeme.negation negated ++ Lexeme.keyword word :: ws))
    (h : e.ContinuedBy env deeper a negated (Lexeme.keyword word :: ws)) :
    e.IsReadAt env deeper 3 := by
  intro s rest rule hrule hstop hs
  rw [hlexemes, List.append_assoc, List.append_assoc] at hs
  have hafter : Stops 4 (headKind (Lexeme.negation negated ++ (Lexeme.keyword word :: ws ++ rest))) := by
    cases negated with
    | true => exact .of_some rfl (by decide)
    | false => rcases hword with rfl | rfl | rfl | ⟨rfl, -⟩ <;> exact .of_some rfl (by decide)
  refine (ha s _ rule hrule hafter hs).bind
    fun left t ht hleft => Reads.startOf_bind fun start => Reads.look_bind ?_
  have hcomparison : comparison? (t.stream env).kind = none := by
    rw [ht.ahead.kind]
    cases negated <;> rfl
  rw [hcomparison]
  refine Reads.look_bind ?_
  have hpush : ∀ {u : State}, Reached env t u (Lexeme.keyword word :: ws ++ rest) →
      Reads env (conditionRest deeper left start negated) u rest fun id d =>
        Represents d.kind id e := by
    intro u hu
    refine (h u rest left hstop (hleft.grows hu.grows) hu.ahead).bind fun kind? v hv hkind => ?_
    obtain ⟨kind, rfl, hmakes⟩ := hkind
    exact Reads.pushFrom_makes hv.ahead hmakes start
  cases negated with
  | false =>
    have hnot : atNegatedWord (t.stream env) = false := by
      rw [atNegatedWord, TokenStream.checkKeyword, ht.ahead.kind]
      rcases hword with rfl | rfl | rfl | ⟨rfl, -⟩ <;> rfl
    rw [hnot]
    exact hpush (.refl ht.ahead)
  | true =>
    have hnot : atNegatedWord (t.stream env) = true := by
      rw [atNegatedWord, TokenStream.checkKeyword, ht.ahead.kind, ht.ahead.kind_peek]
      rcases hword with rfl | rfl | rfl | ⟨-, hfalse⟩
      · rfl
      · rfl
      · rfl
      · cases hfalse
    rw [hnot]
    exact (Reads.advance ht.ahead).bind fun _ u hu _ => hpush hu

/-! ## The words -/

/-- `BETWEEN` calls for two operands; the `AND` between them is no connective. -/
theorem continuedBy_between {lower upper : Expression} (hl : lower.IsReadAt env deeper 4)
    (hu : upper.IsReadAt env deeper 4) :
    (between a negated lower upper).ContinuedBy env deeper a negated
      (Lexeme.keyword .between :: (lower.lexemes ++ Lexeme.keyword .and :: upper.lexemes)) := by
  intro s rest left hstop hleft hs
  rw [List.cons_append, List.append_assoc, List.cons_append] at hs
  refine Reads.look_bind ?_
  rw [hs.kind]
  refine (Reads.advance hs).bind fun _ t ht hdraft => ?_
  have hand : Stops 4 (headKind (Lexeme.keyword .and :: (upper.lexemes ++ rest))) :=
    .of_some rfl (by decide)
  refine (hl.scalar hand ht.ahead).bind fun first u hu' hfirst => ?_
  refine (Reads.expectKeyword hu'.ahead rfl).bind fun _ v hv hdraft' => ?_
  refine (hu.scalar (hstop.mono (by decide)) hv.ahead).bind fun last x hx hlast => ?_
  refine Reads.pure hx.ahead ⟨_, rfl, fun after id hafter hid => .between hid ?_ ?_ ?_⟩
  · exact hleft.grows (ht.grows.trans (hu'.grows.trans (hv.grows.trans (hx.grows.trans hafter))))
  · exact hfirst.grows (hv.grows.trans (hx.grows.trans hafter))
  · exact hlast.grows hafter

/-- `LIKE` calls for a pattern. -/
theorem continuedBy_like {pattern : Expression} (hp : pattern.IsReadAt env deeper 4) :
    (like a negated pattern).ContinuedBy env deeper a negated
      (Lexeme.keyword .like :: pattern.lexemes) := by
  intro s rest left hstop hleft hs
  refine Reads.look_bind ?_
  rw [hs.kind]
  refine (Reads.advance hs).bind fun _ t ht hdraft => ?_
  refine (hp.scalar (hstop.mono (by decide)) ht.ahead).bind fun right u hu hright => ?_
  refine Reads.consume_miss_bind hu.ahead (hstop.ne rfl (Nat.le_refl 3)) ?_
  refine Reads.pure hu.ahead ⟨_, rfl, fun after id hafter hid => .like hid ?_ ?_⟩
  · exact hleft.grows (ht.grows.trans (hu.grows.trans hafter))
  · exact hright.grows hafter

/-- `LIKE` may also call for an escape character. -/
theorem continuedBy_likeEscape {pattern escape : Expression} (hp : pattern.IsReadAt env deeper 4)
    (hc : escape.IsReadAt env deeper 4) :
    (likeEscape a negated pattern escape).ContinuedBy env deeper a negated
      (Lexeme.keyword .like :: (pattern.lexemes ++ Lexeme.keyword .escape :: escape.lexemes)) := by
  intro s rest left hstop hleft hs
  rw [List.cons_append, List.append_assoc, List.cons_append] at hs
  refine Reads.look_bind ?_
  rw [hs.kind]
  refine (Reads.advance hs).bind fun _ t ht hdraft => ?_
  have hescape : Stops 4 (headKind (Lexeme.keyword .escape :: (escape.lexemes ++ rest))) :=
    .of_some rfl (by decide)
  refine (hp.scalar hescape ht.ahead).bind fun right u hu hright => ?_
  refine Reads.consume_hit_bind hu.ahead rfl fun v hv hdraft' => ?_
  refine (hc.scalar (hstop.mono (by decide)) hv.ahead).bind fun last x hx hlast => ?_
  refine Reads.pure hx.ahead ⟨_, rfl, fun after id hafter hid => .likeEscape hid ?_ ?_ ?_⟩
  · exact hleft.grows (ht.grows.trans (hu.grows.trans (hv.grows.trans (hx.grows.trans hafter))))
  · exact hright.grows (hv.grows.trans (hx.grows.trans hafter))
  · exact hlast.grows hafter

/-- An expression is never what `TYPE` gives, so the items of a list are operands. -/
theorem ne_type {kindOf : Nat → NodeKind} {id child : NodeId} (h : Represents kindOf id e) :
    kindOf id ≠ .type child := by
  intro htype
  cases h with
  | path h =>
    obtain ⟨_, _, hpath, -⟩ := h
    rw [htype] at hpath
    cases hpath
  | name h | number h | string h | wordLiteral h | parameter h | group h | sign h | arithmetic h
  | comparison h | between h | like h | likeEscape h | inList h | nullCheck h | not h
  | logical h =>
    have hkind := htype.symm.trans h
    cases hkind

theorem IsReadAt.inItem (h : e.IsReadAt env deeper 4) (hstop : Stops 4 (headKind rest))
    (hs : s.Ahead env (e.lexemes ++ rest)) :
    Reads env (Parse.inItem deeper false) s rest fun id d => Represents d.kind id e := by
  have hread : Reads env (operand deeper RuleId.inItem) s rest fun id d => Represents d.kind id e :=
    h s rest _ accepts_inItem hstop hs
  refine Reads.look_bind ?_
  split
  · exact hread
  · exact hread

/-- **The items of a list in parentheses.** -/
theorem reads_inItems {item : Expression} {items : List Expression}
    (hw : item.WrittenOut) (hi : ∀ x ∈ item :: items, x.IsReadAt env deeper 4)
    (hleft : Represents s.draft.kind left a)
    (hs : s.Ahead env (Lexeme.leftParen ::
      (item.lexemes ++ (moreLexemes items ++ Lexeme.rightParen :: rest)))) :
    Reads env (inItems deeper left) s rest fun ids d =>
      List.Forall₂ (fun x id => Represents d.kind id x) (item :: items) ids := by
  refine Reads.look_bind ?_
  rw [hs.kind]
  refine (Reads.expect .leftParen hs rfl).bind ?_
  rintro _ t ht ⟨rfl, hdraft⟩
  refine Reads.look_bind ?_
  rw [hw.not_select ht.ahead]
  refine Reads.kindOf_bind ?_
  suffices h : ∀ ofTypes, ofTypes = false → Reads env (do
      let ids ← separated (Parse.inItem deeper ofTypes)
      discard (expect .rightParen)
      return ids) t rest fun ids d =>
        List.Forall₂ (fun x id => Represents d.kind id x) (item :: items) ids by
    refine h _ ?_
    split
    · exact absurd ‹_› (ne_type (hdraft ▸ hleft))
    · rfl
  rintro _ rfl
  have hahead := ht.ahead
  rw [moreLexemes_eq] at hahead
  have hcomma : headKind (Lexeme.rightParen :: rest) ≠ .comma :=
    (by decide : TokenKind.rightParen ≠ .comma)
  refine (Reads.separated (fun _ _ _ _ hg hx => hx.grows hg) (.of_none rfl) (.of_none rfl) hcomma
    (fun x hx u ws hstop hu => (hi x hx).inItem hstop hu) hahead).bind fun ids u hu hids => ?_
  refine (Reads.discard_expect hu.ahead rfl).bind fun _ v hv _ => ?_
  exact Reads.pure hv.ahead (hids.imp fun x id hx => hx.grows hv.grows)

/-- `IN` calls for a list in parentheses. -/
theorem continuedBy_in {item : Expression} {items : List Expression} (hw : item.WrittenOut)
    (hi : ∀ x ∈ item :: items, x.IsReadAt env deeper 4) :
    (inList a negated item items).ContinuedBy env deeper a negated (Lexeme.keyword .in ::
      Lexeme.leftParen :: (item.lexemes ++ (moreLexemes items ++ [Lexeme.rightParen]))) := by
  intro s rest left hstop hleft hs
  simp only [List.cons_append, List.append_assoc, List.nil_append] at hs
  refine Reads.look_bind ?_
  rw [hs.kind]
  refine (Reads.advance hs).bind fun _ t ht hdraft => ?_
  refine (reads_inItems hw hi (hleft.grows ht.grows) ht.ahead).bind fun ids u hu hids => ?_
  refine Reads.pure hu.ahead ⟨_, rfl, fun after id hafter hid => ?_⟩
  have hzip := List.forall₂_iff_zip.1 hids.flip
  exact .inList hid (hleft.grows (ht.grows.trans (hu.grows.trans hafter))) hzip.1
    fun i x hx => (hzip.2 hx).grows hafter

/-- `IS` calls for `NULL`, or for `NOT NULL`. -/
theorem continuedBy_is :
    (nullCheck a negated).ContinuedBy env deeper a false
      (Lexeme.keyword .is :: (Lexeme.negation negated ++ [Lexeme.keyword .null])) := by
  intro s rest left hstop hleft hs
  refine Reads.look_bind ?_
  rw [hs.kind]
  refine (Reads.advance hs).bind fun _ t ht hdraft => ?_
  have hnull : ∀ {u : State}, Reached env t u (Lexeme.keyword .null :: rest) →
      Reads env (do
        if ← consumeKeyword .empty then
          asCollection left
          return NodeKind.emptyCheck left negated
        else
          if !(← consumeKeyword .null) then
            recordHere .expectedToken ["NULL or EMPTY"]
          return NodeKind.nullCheck left negated) u rest
        fun kind d => (nullCheck a negated).Makes kind d := by
    intro u hu
    refine Reads.consume_miss_bind hu.ahead nofun ?_
    refine Reads.consume_hit_bind hu.ahead rfl fun v hv _ => ?_
    refine Reads.pure hv.ahead fun after id hafter hid => .nullCheck hid ?_
    exact hleft.grows (ht.grows.trans (hu.grows.trans (hv.grows.trans hafter)))
  have hcheck : Reads env (isCheck left) t rest fun kind d => (nullCheck a negated).Makes kind d := by
    cases negated with
    | false => exact Reads.consume_miss_bind ht.ahead nofun (hnull (.refl ht.ahead))
    | true => exact Reads.consume_hit_bind ht.ahead rfl fun u hu _ => hnull hu
  exact hcheck.bind fun kind u hu hkind => Reads.pure hu.ahead ⟨kind, rfl, hkind⟩

end Jpql.Expression
