import Jpql.Proofs.Print.Expression
import Jpql.Proofs.Reader.Follow

/-! # Reading written expressions, level by level

`Expression.IsReadAt` says that the reader of a strength reads an expression that is written out, in
front of every token that does not continue it. A reader of a lower strength then reads it too
(`IsReadAt.lower`). A chain of binary operators is read from the left: `Expression.Opens` says what has
happened when its first operands are read and more may follow. -/

namespace Jpql

open Parse
open TokenKind (Stops)

variable {env : Env} {deeper : Deeper} {s : State} {ws rest : List Lexeme} {e a b : Expression}

/-! ## Nodes to come -/

/-- **A node of this kind is the expression**, once it is added. -/
def Expression.Makes (e : Expression) (kind : NodeKind) (d : Draft) : Prop :=
  ∀ after id, d.Grows after → after.kind id = kind → Represents after.kind id e

namespace Parse.Reads

theorem pushFrom_makes {kind : NodeKind} (h : s.Ahead env ws) (hkind : e.Makes kind s.draft)
    (start : Nat) : Reads env (Parse.pushFrom kind start) s ws fun id d => Represents d.kind id e :=
  (pushFrom kind start h).mono fun id d hd hid => hkind d id hd hid.2

end Parse.Reads

/-! ## First lexemes -/

/-- **What an expression may start with**, by how tightly it binds. -/
structure Expression.Heads (strength : Nat) (kind : TokenKind) : Prop where
  not_select : kind ≠ .keyword .select
  not_exists : kind ≠ .keyword .exists
  not_not : 3 ≤ strength → kind ≠ .keyword .not
  not_sign : 7 ≤ strength → kind ≠ .minus ∧ kind ≠ .plus

theorem Expression.Heads.mono {m n : Nat} {kind : TokenKind} (h : Heads m kind) (hnm : n ≤ m) :
    Heads n kind :=
  ⟨h.not_select, h.not_exists, fun hn => h.not_not (by omega), fun hn => h.not_sign (by omega)⟩

/-- **The first lexeme of an expression.** -/
theorem Expression.WrittenOut.exists_head (h : e.WrittenOut) :
    ∃ w ws, e.lexemes = w :: ws ∧ Heads e.strength w.kind := by
  have hleft : ∀ {a e : Expression} (tail : List Lexeme), e.lexemes = a.lexemes ++ tail →
      e.strength ≤ a.strength → (∃ w ws, a.lexemes = w :: ws ∧ Heads a.strength w.kind) →
      ∃ w ws, e.lexemes = w :: ws ∧ Heads e.strength w.kind := by
    rintro a e tail he hle ⟨w, ws, ha, hhead⟩
    exact ⟨w, ws ++ tail, by rw [he, ha]; rfl, hhead.mono hle⟩
  have hatom : ∀ {kind : TokenKind}, kind.keyword? = none → kind ≠ .minus → kind ≠ .plus →
      ∀ n, Heads n kind := fun {kind} hk hminus hplus n => by
    have hword : ∀ word, kind ≠ .keyword word := by
      rintro word rfl
      cases hk
    exact ⟨hword _, hword _, fun _ => hword _, fun _ => ⟨hminus, hplus⟩⟩
  induction h with
  | name name => exact ⟨_, _, rfl, hatom rfl (by simp [Lexeme.name]) (by simp [Lexeme.name]) _⟩
  | path root => exact ⟨_, _, rfl, hatom rfl (by simp [Lexeme.name]) (by simp [Lexeme.name]) _⟩
  | number numeral =>
    refine ⟨_, _, rfl, ?_⟩
    obtain ⟨text, hk | hk⟩ := Scan.numberKind_cases numeral.text.toList
    · exact hatom (by simp [Lexeme.numeral, hk, TokenKind.keyword?]) (by simp [Lexeme.numeral, hk])
        (by simp [Lexeme.numeral, hk]) _
    · exact hatom (by simp [Lexeme.numeral, hk, TokenKind.keyword?]) (by simp [Lexeme.numeral, hk])
        (by simp [Lexeme.numeral, hk]) _
  | string value => exact ⟨_, _, rfl, hatom rfl (by simp [Lexeme.string]) (by simp [Lexeme.string]) _⟩
  | wordLiteral literal =>
    refine ⟨_, _, rfl, ?_⟩
    cases literal <;> exact ⟨by decide, by decide, fun _ => by decide, fun _ => by decide⟩
  | parameter p =>
    refine ⟨_, _, rfl, ?_⟩
    cases p <;> exact hatom rfl (by simp [Lexeme.parameter]) (by simp [Lexeme.parameter]) _
  | group => exact ⟨_, _, rfl, hatom rfl (by simp [Lexeme.leftParen]) (by simp [Lexeme.leftParen]) _⟩
  | sign negative =>
    refine ⟨_, _, rfl, ?_⟩
    cases negative <;>
      exact ⟨by decide, by decide, fun _ => by decide, fun h => absurd h (by simp [strength])⟩
  | arithmetic operation _ _ hsa _ iha _ => exact hleft _ rfl hsa iha
  | comparison operator _ _ hsa _ iha _ => exact hleft _ rfl (Nat.le_of_succ_le hsa) iha
  | between negated _ _ _ hse _ _ ihe _ _ => exact hleft _ rfl (Nat.le_of_succ_le hse) ihe
  | like negated _ _ hse _ ihe _ => exact hleft _ rfl (Nat.le_of_succ_le hse) ihe
  | likeEscape negated _ _ _ hse _ _ ihe _ _ => exact hleft _ rfl (Nat.le_of_succ_le hse) ihe
  | inList negated _ _ hse _ ihe _ => exact hleft _ rfl (Nat.le_of_succ_le hse) ihe
  | nullCheck negated _ hse ihe => exact hleft _ rfl (Nat.le_of_succ_le hse) ihe
  | not =>
    exact ⟨_, _, rfl, by decide, by decide, fun h => absurd h (by simp [strength]), fun _ => by decide⟩
  | logical connective _ _ hsa _ iha _ => exact hleft _ rfl hsa iha

/-- No expression starts as a subquery does. -/
theorem Expression.WrittenOut.not_select (h : e.WrittenOut) (hs : s.Ahead env (e.lexemes ++ ws)) :
    (s.stream env).checkKeyword .select = false := by
  obtain ⟨w, tail, hlexemes, hhead⟩ := h.exists_head
  rw [TokenStream.checkKeyword, hs.kind, hlexemes]
  exact TokenKind.isKeyword_eq_false hhead.not_select

namespace Expression

/-! ## Levels -/

/-- **The expression is read by the reader of a strength**, under every rule that accepts it, in front of
every token that does not continue it. -/
def IsReadAt (env : Env) (deeper : Deeper) (e : Expression) (strength : Nat) : Prop :=
  ∀ s rest rule, Accepts rule → Stops strength (headKind rest) → s.Ahead env (e.lexemes ++ rest) →
    Reads env (Parse.expression deeper strength rule) s rest fun id d => Represents d.kind id e

/-- An operator of a strength with its right side, behind what was read so far. -/
def chainStep (deeper : Deeper) (strength : Nat) (rule : String) (start : Nat) (left : NodeId) :
    Parser (Option NodeId) := do
  match ← operatorAt strength with
  | none => return none
  | some combine =>
    let right ← Parse.expression deeper (strength + 1) (operandRule rule strength)
    return some (← pushFrom (combine left right) start)

/-- **The expression starts a chain of operators of a strength**: the reader of that strength comes to its
end, and may then go on. -/
def Opens (env : Env) (deeper : Deeper) (e : Expression) (strength : Nat) : Prop :=
  ∀ s ws rest rule post, Accepts rule → Stops (strength + 1) (headKind ws) →
    s.Ahead env (e.lexemes ++ ws) →
    (∀ t left start bound, Reached env s t ws → Represents t.draft.kind left e → ws.length ≤ bound →
      Reads env (loopTo (chainStep deeper strength rule start) bound left) t rest post) →
    Reads env (Parse.expression deeper strength rule) s rest post

/-- An operand is a chain without operators. -/
theorem IsReadAt.opens {strength : Nat} (hbinary : isBinary strength = true)
    (h : e.IsReadAt env deeper (strength + 1)) : e.Opens env deeper strength := by
  intro s ws rest rule post hrule hstop hs hnext
  rw [expression_eq_leftChain hbinary]
  refine (h s ws rule hrule hstop hs).bind fun left t ht hleft => ?_
  refine Reads.startOf_bind fun start => Reads.read_bind ?_
  exact hnext t left start _ ht hleft (Nat.le_of_lt ht.ahead.length_lt)

/-- **A chain with one more operator** at its end. -/
theorem Opens.operator {strength : Nat} {w : Lexeme} {combine : NodeId → NodeId → NodeKind}
    (ha : a.Opens env deeper strength) (hb : b.IsReadAt env deeper (strength + 1))
    (hw : w.kind.follow? = some strength)
    (hoperator : ∀ s ws, s.Ahead env (w :: ws) → Reads env (operatorAt strength) s ws fun found d =>
      found = some combine ∧ d = s.draft)
    (hlexemes : e.lexemes = a.lexemes ++ w :: b.lexemes)
    (he : ∀ kindOf left right id, kindOf id = combine left right → Represents kindOf left a →
      Represents kindOf right b → Represents kindOf id e) : e.Opens env deeper strength := by
  intro s ws rest rule post hrule hstop hs hnext
  rw [hlexemes, List.append_assoc, List.cons_append] at hs
  have hafter : Stops (strength + 1) w.kind := .of_some hw (Nat.lt_succ_self _)
  refine ha s (w :: (b.lexemes ++ ws)) rest rule post hrule hafter hs ?_
  intro t left start bound ht hleft hbound
  obtain ⟨bound, rfl⟩ : ∃ n, bound = n + 1 := Nat.exists_eq_succ_of_ne_zero (by
    rw [List.length_cons] at hbound
    omega)
  have hstep : Reads env (chainStep deeper strength rule start left) t ws fun found d =>
      ∃ id, found = some id ∧ Represents d.kind id e := by
    refine (hoperator t _ ht.ahead).bind fun found u hu hfound => ?_
    obtain ⟨rfl, hdraft⟩ := hfound
    refine (hb u ws _ (hrule.operandRule strength) hstop hu.ahead).bind fun right v hv hright => ?_
    have hmakes : e.Makes (combine left right) v.draft := fun after id hafter hid =>
      he _ left right id hid ((hleft.grows hu.grows).grows (hv.grows.trans hafter))
        (hright.grows hafter)
    refine (Reads.pushFrom_makes hv.ahead hmakes start).bind fun id x hx hid => ?_
    exact Reads.pure hx.ahead ⟨id, rfl, hid⟩
  refine Reads.loop_next hstep ?_
  rintro _ u hu ⟨id, rfl, hid⟩
  refine ⟨id, rfl, hnext u id start bound (ht.trans hu) hid ?_⟩
  rw [List.length_cons, List.length_append] at hbound
  omega

/-- **A chain that is not continued is read.** -/
theorem Opens.isReadAt {strength : Nat} (hbinary : isBinary strength = true)
    (h : e.Opens env deeper strength) : e.IsReadAt env deeper strength := by
  intro s rest rule hrule hstop hs
  refine h s rest rest rule _ hrule (hstop.mono (Nat.le_succ _)) hs ?_
  intro t left start bound ht hleft _
  refine Reads.loop_done bound ?_ ht.ahead hleft
  refine Runs.bind (operatorAt_miss hbinary ht.ahead hstop) ?_
  rintro _ _ ⟨rfl, rfl⟩
  exact Runs.pure ⟨rfl, rfl⟩

/-- **What binds more tightly is read as well**, without an operator. -/
theorem IsReadAt.lower {strength : Nat} (hw : e.WrittenOut) (hlt : strength < e.strength)
    (h : e.IsReadAt env deeper (strength + 1)) : e.IsReadAt env deeper strength := by
  by_cases hbinary : isBinary strength = true
  · exact (h.opens hbinary).isReadAt hbinary
  obtain ⟨w, ws, hlexemes, hhead⟩ := hw.exists_head
  intro s rest rule hrule hstop hs
  have hread := h s rest rule hrule (hstop.mono (Nat.le_succ _)) hs
  have hkind : (s.stream env).kind = w.kind := by
    rw [hs.kind, hlexemes]
    rfl
  match strength, hlt, hbinary with
  | 2, hlt, _ =>
    refine Reads.look_bind ?_
    rw [TokenStream.checkKeyword, hkind, TokenKind.isKeyword_eq_false (hhead.not_not hlt)]
    exact hread
  | 3, _, _ => exact hread.simpleCondition_end hstop
  | 6, hlt, _ =>
    refine Reads.look_bind ?_
    rw [hkind]
    obtain ⟨hminus, hplus⟩ := hhead.not_sign hlt
    split
    · exact absurd ‹_› hminus
    · exact absurd ‹_› hplus
    · exact hread
  | n + 7, _, _ => exact hread

end Expression

end Jpql
