import Jpql.Proofs.Reader.Name
import Jpql.Proofs.Token.Piece

/-! # Expressions and their texts

`Expression` is the abstract syntax of conditions over variables, paths, literals and parameters.
`Expression.lexemes` writes an expression down, `Expression.text` puts single spaces between its
lexemes. Parentheses are a construct of their own: an expression is *written out* if every operand
that binds more loosely than its place allows stands in parentheses.

* `Expression.WrittenOut`: the expressions whose operands bind tightly enough.
* `Expression.depth`: how many parentheses, negations and signs are open at once at most.
* `Represents kindOf id e`: the node `id` is the expression `e`, in its kind, its fields and its
  children. -/

namespace Jpql

/-! ## Operators -/

/-- The lexeme of a comparison. -/
def Comparison.lexeme (operator : Comparison) : Lexeme :=
  let kind : TokenKind := match operator with
    | .equal => .equal
    | .notEqual => .notEqual
    | .less => .less
    | .lessEqual => .lessEqual
    | .greater => .greater
    | .greaterEqual => .greaterEqual
  ⟨kind, operator.symbol.toList⟩

namespace Arithmetic

/-- The lexeme of an operation. -/
def lexeme : Arithmetic → Lexeme
  | .add => ⟨.plus, ['+']⟩
  | .subtract => ⟨.minus, ['-']⟩
  | .multiply => ⟨.star, ['*']⟩
  | .divide => ⟨.slash, ['/']⟩

/-- How tightly an operation binds. -/
def strength : Arithmetic → Nat
  | .add | .subtract => 4
  | .multiply | .divide => 5

end Arithmetic

namespace Connective

/-- The word of a connective. -/
def word : Connective → Keyword
  | .and => .and
  | .or => .or

/-- How tightly a connective binds. -/
def strength : Connective → Nat
  | .or => 0
  | .and => 1

end Connective

/-- The word of a literal. -/
def WordLiteral.word : WordLiteral → Keyword
  | .true => .true
  | .false => .false
  | .null => .null

namespace Lexeme

/-- The sign in front of an operand. -/
def sign (negative : Bool) : Lexeme := if negative then ⟨.minus, ['-']⟩ else ⟨.plus, ['+']⟩

/-- `NOT`, if it is there. -/
def negation (negated : Bool) : List Lexeme := if negated then [keyword .not] else []

end Lexeme

/-! ## Expressions -/

/-- **A condition or an operand.** -/
inductive Expression where
  /-- A variable. -/
  | name (name : Name)
  /-- `root.segment.segment`. -/
  | path (root : Name) (segment : Word) (segments : List Word)
  | number (numeral : Numeral)
  | string (value : String)
  | wordLiteral (literal : WordLiteral)
  | parameter (parameter : Parameter)
  /-- An expression in parentheses. -/
  | group (expression : Expression)
  | sign (negative : Bool) (expression : Expression)
  | arithmetic (operation : Arithmetic) (left right : Expression)
  | comparison (left : Expression) (operator : Comparison) (right : Expression)
  | between (expression : Expression) (negated : Bool) (lower upper : Expression)
  | like (expression : Expression) (negated : Bool) (pattern : Expression)
  | likeEscape (expression : Expression) (negated : Bool) (pattern escape : Expression)
  | inList (expression : Expression) (negated : Bool) (item : Expression) (items : List Expression)
  | nullCheck (expression : Expression) (negated : Bool)
  | not (expression : Expression)
  | logical (connective : Connective) (left right : Expression)

namespace Expression

/-- **How tightly an expression binds**, as `NodeKind.strength` does for its node. -/
def strength : Expression → Nat
  | .logical connective _ _ => connective.strength
  | .not _ => 2
  | .comparison .. | .between .. | .like .. | .likeEscape .. | .inList .. | .nullCheck .. => 3
  | .arithmetic operation _ _ => operation.strength
  | .sign .. => 6
  | _ => 7

mutual

/-- **The lexemes of an expression**, from left to right. -/
def lexemes : Expression → List Lexeme
  | .name n => [Lexeme.name n]
  | .path root segment segments => Lexeme.name root :: Lexeme.dotted (segment :: segments)
  | .number numeral => [Lexeme.numeral numeral]
  | .string value => [Lexeme.string value]
  | .wordLiteral literal => [Lexeme.keyword literal.word]
  | .parameter p => [Lexeme.parameter p]
  | .group expression => Lexeme.leftParen :: (expression.lexemes ++ [Lexeme.rightParen])
  | .sign negative expression => Lexeme.sign negative :: expression.lexemes
  | .arithmetic operation left right => left.lexemes ++ operation.lexeme :: right.lexemes
  | .comparison left operator right => left.lexemes ++ operator.lexeme :: right.lexemes
  | .between expression negated lower upper =>
    expression.lexemes ++ (Lexeme.negation negated ++ (Lexeme.keyword .between ::
      (lower.lexemes ++ Lexeme.keyword .and :: upper.lexemes)))
  | .like expression negated pattern =>
    expression.lexemes ++ (Lexeme.negation negated ++ (Lexeme.keyword .like :: pattern.lexemes))
  | .likeEscape expression negated pattern escape =>
    expression.lexemes ++ (Lexeme.negation negated ++ (Lexeme.keyword .like ::
      (pattern.lexemes ++ Lexeme.keyword .escape :: escape.lexemes)))
  | .inList expression negated item items =>
    expression.lexemes ++ (Lexeme.negation negated ++ (Lexeme.keyword .in :: Lexeme.leftParen ::
      (item.lexemes ++ (moreLexemes items ++ [Lexeme.rightParen]))))
  | .nullCheck expression negated =>
    expression.lexemes ++ (Lexeme.keyword .is :: (Lexeme.negation negated ++ [Lexeme.keyword .null]))
  | .not expression => Lexeme.keyword .not :: expression.lexemes
  | .logical connective left right =>
    left.lexemes ++ Lexeme.keyword connective.word :: right.lexemes

/-- The lexemes of the items of a list behind the first one. -/
def moreLexemes : List Expression → List Lexeme
  | [] => []
  | item :: items => Lexeme.comma :: (item.lexemes ++ moreLexemes items)

end

/-- **The text of an expression**: its lexemes with single spaces between them. -/
def text (e : Expression) : String := String.ofList (Lexeme.spaced e.lexemes)

mutual

/-- **The largest number of parentheses, negations and signs** on a way from the expression down to
one without parts. -/
def depth : Expression → Nat
  | .name _ | .path .. | .number _ | .string _ | .wordLiteral _ | .parameter _ => 0
  | .group expression | .sign _ expression | .not expression => expression.depth + 1
  | .arithmetic _ left right | .comparison left _ right | .logical _ left right =>
    max left.depth right.depth
  | .between expression _ lower upper => max expression.depth (max lower.depth upper.depth)
  | .like expression _ pattern => max expression.depth pattern.depth
  | .likeEscape expression _ pattern escape =>
    max expression.depth (max pattern.depth escape.depth)
  | .inList expression _ item items => max expression.depth (max item.depth (maxDepth items))
  | .nullCheck expression _ => expression.depth

/-- The largest depth in a list. -/
def maxDepth : List Expression → Nat
  | [] => 0
  | item :: items => max item.depth (maxDepth items)

end

/-- **Every operand binds tightly enough for its place**; what does not stands in parentheses.
Binary operators nest to the left, so a right operand binds more tightly than its operator. -/
inductive WrittenOut : Expression → Prop
  | name (name : Name) : WrittenOut (.name name)
  | path (root : Name) (segment : Word) (segments : List Word) :
      WrittenOut (.path root segment segments)
  | number (numeral : Numeral) : WrittenOut (.number numeral)
  | string (value : String) : WrittenOut (.string value)
  | wordLiteral (literal : WordLiteral) : WrittenOut (.wordLiteral literal)
  | parameter (parameter : Parameter) : WrittenOut (.parameter parameter)
  | group {e : Expression} (he : WrittenOut e) : WrittenOut (.group e)
  | sign {e : Expression} (negative : Bool) (he : WrittenOut e) (hs : 6 ≤ e.strength) :
      WrittenOut (.sign negative e)
  | arithmetic {a b : Expression} (operation : Arithmetic) (ha : WrittenOut a) (hb : WrittenOut b)
      (hsa : operation.strength ≤ a.strength) (hsb : operation.strength < b.strength) :
      WrittenOut (.arithmetic operation a b)
  | comparison {a b : Expression} (operator : Comparison) (ha : WrittenOut a) (hb : WrittenOut b)
      (hsa : 4 ≤ a.strength) (hsb : 4 ≤ b.strength) : WrittenOut (.comparison a operator b)
  | between {e lower upper : Expression} (negated : Bool) (he : WrittenOut e)
      (hl : WrittenOut lower) (hu : WrittenOut upper) (hse : 4 ≤ e.strength)
      (hsl : 4 ≤ lower.strength) (hsu : 4 ≤ upper.strength) :
      WrittenOut (.between e negated lower upper)
  | like {e pattern : Expression} (negated : Bool) (he : WrittenOut e) (hp : WrittenOut pattern)
      (hse : 4 ≤ e.strength) (hsp : 4 ≤ pattern.strength) : WrittenOut (.like e negated pattern)
  | likeEscape {e pattern escape : Expression} (negated : Bool) (he : WrittenOut e)
      (hp : WrittenOut pattern) (hc : WrittenOut escape) (hse : 4 ≤ e.strength)
      (hsp : 4 ≤ pattern.strength) (hsc : 4 ≤ escape.strength) :
      WrittenOut (.likeEscape e negated pattern escape)
  | inList {e item : Expression} {items : List Expression} (negated : Bool) (he : WrittenOut e)
      (hi : ∀ x ∈ item :: items, WrittenOut x) (hse : 4 ≤ e.strength)
      (hsi : ∀ x ∈ item :: items, 4 ≤ x.strength) : WrittenOut (.inList e negated item items)
  | nullCheck {e : Expression} (negated : Bool) (he : WrittenOut e) (hse : 4 ≤ e.strength) :
      WrittenOut (.nullCheck e negated)
  | not {e : Expression} (he : WrittenOut e) (hs : 2 ≤ e.strength) : WrittenOut (.not e)
  | logical {a b : Expression} (connective : Connective) (ha : WrittenOut a) (hb : WrittenOut b)
      (hsa : connective.strength ≤ a.strength) (hsb : connective.strength < b.strength) :
      WrittenOut (.logical connective a b)

/-! ## Texts -/

theorem moreLexemes_eq (items : List Expression) :
    moreLexemes items = Lexeme.listed lexemes items := by
  induction items with
  | nil => rfl
  | cons item items ih =>
    rw [moreLexemes, ih]
    rfl

theorem depth_le_maxDepth {items : List Expression} {e : Expression} (h : e ∈ items) :
    e.depth ≤ maxDepth items := by
  induction items with
  | nil => cases h
  | cons item items ih =>
    rw [maxDepth]
    rcases List.mem_cons.1 h with rfl | h
    · exact Nat.le_max_left _ _
    · exact Nat.le_trans (ih h) (Nat.le_max_right _ _)

theorem isRead_sign (negative : Bool) : (Lexeme.sign negative).IsRead := by
  cases negative <;> rfl

theorem isRead_arithmetic (operation : Arithmetic) : operation.lexeme.IsRead := by
  cases operation <;> rfl

theorem isRead_comparison (operator : Comparison) : operator.lexeme.IsRead := by
  cases operator <;> rfl

theorem isRead_negation (negated : Bool) : ∀ w ∈ Lexeme.negation negated, w.IsRead := by
  cases negated with
  | false => exact fun w hw => absurd hw List.not_mem_nil
  | true =>
    intro w hw
    rw [List.mem_singleton.1 hw]
    exact Lexeme.isRead_keyword .not

theorem isRead_dotted (words : List Word) : ∀ w ∈ Lexeme.dotted words, w.IsRead := by
  intro w hw
  obtain ⟨word, -, hw⟩ := List.mem_flatMap.1 hw
  rcases List.mem_pair.1 hw with rfl | rfl
  · rfl
  · exact Lexeme.isRead_word word

/-- **Each lexeme of an expression is read as itself.** -/
theorem isRead_lexemes {e : Expression} (h : e.WrittenOut) : ∀ w ∈ e.lexemes, w.IsRead := by
  have hkeyword := Lexeme.isRead_keyword
  have hleft : Lexeme.leftParen.IsRead := rfl
  have hright : Lexeme.rightParen.IsRead := rfl
  have hcomma : Lexeme.comma.IsRead := rfl
  induction h with
  | name name => simpa [lexemes] using Lexeme.isRead_name name
  | path root segment segments =>
    intro w hw
    rw [lexemes, List.mem_cons] at hw
    rcases hw with rfl | hw
    · exact Lexeme.isRead_name root
    · exact isRead_dotted _ w hw
  | number numeral => simpa [lexemes] using Lexeme.isRead_numeral numeral
  | string value => simpa [lexemes] using Lexeme.isRead_string value
  | wordLiteral literal => simpa [lexemes] using hkeyword literal.word
  | parameter p => simpa [lexemes] using Lexeme.isRead_parameter p
  | group he ihe =>
    simp only [lexemes, List.forall_mem_cons, List.forall_mem_append]
    exact ⟨hleft, ihe, hright, List.forall_mem_nil _⟩
  | sign negative he hs ihe =>
    simp only [lexemes, List.forall_mem_cons]
    exact ⟨isRead_sign negative, ihe⟩
  | arithmetic operation ha hb hsa hsb iha ihb =>
    simp only [lexemes, List.forall_mem_cons, List.forall_mem_append]
    exact ⟨iha, isRead_arithmetic operation, ihb⟩
  | comparison operator ha hb hsa hsb iha ihb =>
    simp only [lexemes, List.forall_mem_cons, List.forall_mem_append]
    exact ⟨iha, isRead_comparison operator, ihb⟩
  | between negated he hl hu hse hsl hsu ihe ihl ihu =>
    simp only [lexemes, List.forall_mem_cons, List.forall_mem_append]
    exact ⟨ihe, isRead_negation negated, hkeyword _, ihl, hkeyword _, ihu⟩
  | like negated he hp hse hsp ihe ihp =>
    simp only [lexemes, List.forall_mem_cons, List.forall_mem_append]
    exact ⟨ihe, isRead_negation negated, hkeyword _, ihp⟩
  | likeEscape negated he hp hc hse hsp hsc ihe ihp ihc =>
    simp only [lexemes, List.forall_mem_cons, List.forall_mem_append]
    exact ⟨ihe, isRead_negation negated, hkeyword _, ihp, hkeyword _, ihc⟩
  | @inList e item items negated he hi hse hsi ihe ihi =>
    rw [List.forall_mem_cons] at ihi
    have hmore : ∀ w ∈ moreLexemes items, w.IsRead := by
      intro w hw
      rw [moreLexemes_eq] at hw
      obtain ⟨x, hx, hw⟩ := List.mem_flatMap.1 hw
      rcases List.mem_cons.1 hw with rfl | hw
      · exact hcomma
      · exact ihi.2 x hx w hw
    simp only [lexemes, List.forall_mem_cons, List.forall_mem_append]
    exact ⟨ihe, isRead_negation negated, hkeyword _, hleft, ihi.1, hmore, hright,
      List.forall_mem_nil _⟩
  | nullCheck negated he hse ihe =>
    simp only [lexemes, List.forall_mem_cons, List.forall_mem_append]
    exact ⟨ihe, hkeyword _, isRead_negation negated, hkeyword _, List.forall_mem_nil _⟩
  | not he hs ihe =>
    simp only [lexemes, List.forall_mem_cons]
    exact ⟨hkeyword _, ihe⟩
  | logical connective ha hb hsa hsb iha ihb =>
    simp only [lexemes, List.forall_mem_cons, List.forall_mem_append]
    exact ⟨iha, hkeyword _, ihb⟩

end Expression

/-! ## Nodes that are expressions -/

/-- **A node is an expression**: they agree in kinds and fields, and the children of the node are
the parts of the expression. -/
inductive Represents (kindOf : Nat → NodeKind) : Nat → Expression → Prop
  | name {id : Nat} {name : Name} (h : Parse.IsVariable kindOf id name.text) :
      Represents kindOf id (.name name)
  | path {id : Nat} {root : Name} {segment : Word} {segments : List Word}
      (h : Parse.HasPath kindOf .stateField id root.text (segment :: segments)) :
      Represents kindOf id (.path root segment segments)
  | number {id : Nat} {numeral : Numeral} (h : kindOf id = .number numeral.text) :
      Represents kindOf id (.number numeral)
  | string {id : Nat} {value : String} (h : kindOf id = .string value) :
      Represents kindOf id (.string value)
  | wordLiteral {id : Nat} {literal : WordLiteral} (h : kindOf id = .wordLiteral literal) :
      Represents kindOf id (.wordLiteral literal)
  | parameter {id : Nat} {parameter : Parameter}
      (h : kindOf id = .parameter parameter.name parameter.isPositional) :
      Represents kindOf id (.parameter parameter)
  | group {id child : Nat} {e : Expression} (h : kindOf id = .group child)
      (he : Represents kindOf child e) : Represents kindOf id (.group e)
  | sign {id child : Nat} {negative : Bool} {e : Expression} (h : kindOf id = .sign negative child)
      (he : Represents kindOf child e) : Represents kindOf id (.sign negative e)
  | arithmetic {id left right : Nat} {operation : Arithmetic} {a b : Expression}
      (h : kindOf id = .arithmetic operation left right) (ha : Represents kindOf left a)
      (hb : Represents kindOf right b) : Represents kindOf id (.arithmetic operation a b)
  | comparison {id left right : Nat} {operator : Comparison} {a b : Expression}
      (h : kindOf id = .comparison left operator right) (ha : Represents kindOf left a)
      (hb : Represents kindOf right b) : Represents kindOf id (.comparison a operator b)
  | between {id child first last : Nat} {negated : Bool} {e lower upper : Expression}
      (h : kindOf id = .between child negated first last) (he : Represents kindOf child e)
      (hl : Represents kindOf first lower) (hu : Represents kindOf last upper) :
      Represents kindOf id (.between e negated lower upper)
  | like {id child right : Nat} {negated : Bool} {e pattern : Expression}
      (h : kindOf id = .like child negated right none) (he : Represents kindOf child e)
      (hp : Represents kindOf right pattern) : Represents kindOf id (.like e negated pattern)
  | likeEscape {id child right last : Nat} {negated : Bool} {e pattern escape : Expression}
      (h : kindOf id = .like child negated right (some last)) (he : Represents kindOf child e)
      (hp : Represents kindOf right pattern) (hc : Represents kindOf last escape) :
      Represents kindOf id (.likeEscape e negated pattern escape)
  | inList {id child : Nat} {ids : List Nat} {negated : Bool} {e item : Expression}
      {items : List Expression} (h : kindOf id = .inList child negated ids)
      (he : Represents kindOf child e)
      (hlength : ids.length = items.length + 1)
      (hi : ∀ i x, (i, x) ∈ ids.zip (item :: items) → Represents kindOf i x) :
      Represents kindOf id (.inList e negated item items)
  | nullCheck {id child : Nat} {negated : Bool} {e : Expression}
      (h : kindOf id = .nullCheck child negated) (he : Represents kindOf child e) :
      Represents kindOf id (.nullCheck e negated)
  | not {id child : Nat} {e : Expression} (h : kindOf id = .not child)
      (he : Represents kindOf child e) : Represents kindOf id (.not e)
  | logical {id left right : Nat} {connective : Connective} {a b : Expression}
      (h : kindOf id = .logical connective left right) (ha : Represents kindOf left a)
      (hb : Represents kindOf right b) : Represents kindOf id (.logical connective a b)

namespace Represents

/-- What a node stands for stays the same while nodes are added. -/
theorem grows {a b : Parse.Draft} (hg : a.Grows b) {id : Nat} {e : Expression}
    (h : Represents a.kind id e) : Represents b.kind id e := by
  induction h with
  | name h => exact .name (hg.kind_eq_of h (by simp))
  | path h =>
    obtain ⟨root, segments, hpath, hroot, hvalues⟩ := h
    exact .path ⟨root, segments, hg.kind_eq_of hpath (by simp),
      hg.kind_eq_of hroot (by simp), hvalues⟩
  | number h => exact .number (hg.kind_eq_of h (by simp))
  | string h => exact .string (hg.kind_eq_of h (by simp))
  | wordLiteral h => exact .wordLiteral (hg.kind_eq_of h (by simp))
  | parameter h => exact .parameter (hg.kind_eq_of h (by simp))
  | group h _ ihe => exact .group (hg.kind_eq_of h (by simp)) ihe
  | sign h _ ihe => exact .sign (hg.kind_eq_of h (by simp)) ihe
  | arithmetic h _ _ iha ihb => exact .arithmetic (hg.kind_eq_of h (by simp)) iha ihb
  | comparison h _ _ iha ihb => exact .comparison (hg.kind_eq_of h (by simp)) iha ihb
  | between h _ _ _ ihe ihl ihu => exact .between (hg.kind_eq_of h (by simp)) ihe ihl ihu
  | like h _ _ ihe ihp => exact .like (hg.kind_eq_of h (by simp)) ihe ihp
  | likeEscape h _ _ _ ihe ihp ihc => exact .likeEscape (hg.kind_eq_of h (by simp)) ihe ihp ihc
  | inList h _ hlength _ ihe ihi => exact .inList (hg.kind_eq_of h (by simp)) ihe hlength ihi
  | nullCheck h _ ihe => exact .nullCheck (hg.kind_eq_of h (by simp)) ihe
  | not h _ ihe => exact .not (hg.kind_eq_of h (by simp)) ihe
  | logical h _ _ iha ihb => exact .logical (hg.kind_eq_of h (by simp)) iha ihb

end Represents

end Jpql
