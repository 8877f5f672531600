import Jpql.Proofs.Elide.Clause
import Jpql.Parse.Query

/-! # Calls and whole texts without some `AS`

Constructs that a keyword introduces are followed, and so is every nested construct, at any number of
levels (`Elision.nested_level`); then so is a whole text (`Elision.follows_query`). -/

namespace Jpql.Elision

open Parse

variable {M : Elision} {s s' t : State} {first mid last known : Bool}

/-- What stands in parentheses is followed. -/
theorem Follows.inParens {α : Type} {p q : Parser α} (h : M.Follows mid p q last) :
    M.Follows first (Parse.inParens p) (Parse.inParens q) false :=
  (follows_expect _).strict.bind fun _ => h.closed _

/-! ## Arguments -/

/-- The side that `TRIM` works on is told by words that may also be names. -/
theorem follows_trimSide : M.Follows true trimSide trimSide true := by
  refine (clear_consume _).bind fun found => ?_
  cases found with
  | true => exact .pure _
  | false =>
    refine (clear_consume _).bind fun found => ?_
    cases found with
    | true => exact .pure _
    | false =>
      refine (clear_consume _).bind fun found => ?_
      cases found with
      | true => exact .pure _
      | false => exact .pure _

/-- `FROM` follows the next token. -/
def atCharacter (stream : TokenStream) : Bool :=
  !stream.checkKeyword .from && stream.peek.kind.isKeyword .from

/-- Neither `AS` nor a name is `FROM`. -/
theorem atCharacter_eq {a b : TokenStream} (h : a.Agrees b) : atCharacter b = atCharacter a := by
  have hpeek := h.peek_eq (f := (·.isKeyword .from)) <|
    TokenKind.forall_naming (fun _ => rfl) fun word hword => by
      cases word <;> first | rfl | cases hword
  rw [atCharacter, atCharacter, TokenStream.checkKeyword, TokenStream.checkKeyword, h.kind, hpeek]

/-- **The name of a class is followed.** -/
theorem follows_className : M.Follows first className className false := by
  refine .starts (.identifier? (fun name => ?_) (Never.recordHere _ _ _).follows)
  refine follows_advance.bind fun _ => .segments fun left right dot hvalues => ?_
  show M.Follows false (pure (".".intercalate (name :: left.map (·.value))))
    (pure (".".intercalate (name :: right.map (·.value)))) false
  rw [hvalues]
  exact .pure _

section

variable {deeper : Deeper} (hd : M.Nested deeper)

include hd

theorem follows_path : M.Follows first (path deeper) (path deeper) false := follows_primary hd _

theorem follows_twoScalars : M.Follows first (twoScalars deeper) (twoScalars deeper) false :=
  have hscalar : M.Follows false (scalar deeper) (scalar deeper) false := follows_scalar hd
  (follows_scalar hd).bind fun _ => (follows_expect _).bind fun _ => hscalar.bind fun _ => .pure _

theorem follows_threeScalars : M.Follows first (threeScalars deeper) (threeScalars deeper) false := by
  have hscalar : M.Follows false (scalar deeper) (scalar deeper) false := follows_scalar hd
  refine (follows_twoScalars hd).bind fun nodes => (follows_consume rfl).bind fun found => ?_
  cases found with
  | true => exact hscalar.bind fun _ => .pure _
  | false => exact .pure _

theorem follows_aggregateArgument :
    M.Follows true (aggregateArgument deeper) (aggregateArgument deeper) false :=
  (follows_consume rfl).bind fun _ => (follows_scalar hd).bind fun _ => .pure _

/-- **`TRIM` is followed.** -/
theorem follows_trimArguments :
    M.Follows true (trimArguments deeper) (trimArguments deeper) false := by
  have hrest : ∀ {known} side character, M.Follows known (do
      let hasFrom ← consumeKeyword .from
      let string ← scalar deeper
      return NodeKind.trim side character hasFrom string) (do
      let hasFrom ← consumeKeyword .from
      let string ← scalar deeper
      return NodeKind.trim side character hasFrom string) false := fun side character =>
    (follows_consume rfl).bind fun _ => (follows_scalar hd).bind fun _ => .pure _
  refine follows_trimSide.bind fun side => ?_
  refine .lookClear (k := atCharacter) (fun _ _ h => atCharacter_eq h) fun withCharacter => ?_
  cases withCharacter with
  | true => exact ((follows_primary hd _).map some).bind fun character => hrest side character
  | false => exact hrest side none

/-- **`TREAT` is followed.** Its own `AS` introduces nothing, so it is not omitted. -/
theorem follows_treatArguments :
    M.Follows true (treatArguments deeper) (treatArguments deeper) false := by
  refine (follows_path hd).strict.bind fun path => (follows_asCollection path).bind fun _ =>
    (clear_consume _).bind fun hasAs => .identifier? (fun name => ?_) ?_
  · exact (follows_entityType name).bind fun _ => .pure _
  · exact ((never_missing _).gives fun id => NodeKind.treat path hasAs id).follows

/-! ## `CASE` -/

theorem follows_whenClause : M.Follows true (whenClause deeper) (whenClause deeper) false :=
  .place fun m n => follows_advance.bind fun _ => (follows_condition hd).bind fun _ =>
    (follows_expectKeyword _).bind fun _ => (follows_scalar hd).bind fun _ => follows_pushFrom rfl m n

/-- A clause has a word of its own. -/
theorem advances_whenClause : M.Advances (whenClause deeper) :=
  have hscalar : M.Follows false (scalar deeper) (scalar deeper) false := follows_scalar hd
  have hcondition : M.Follows false (condition deeper) (condition deeper) false := follows_condition hd
  .look fun m => .bind_right follows_advance fun _ => .bind_right hcondition fun _ =>
    .bind (.expectKeyword .then) fun _ => hscalar.bind fun _ => follows_pushFrom rfl m m

/-- **`CASE` is followed.** -/
theorem follows_caseBody : M.Follows false (caseBody deeper) (caseBody deeper) false := by
  have hscalar : M.Follows false (scalar deeper) (scalar deeper) false := follows_scalar hd
  have hmore : ∀ whens, M.Follows false (do
      if ← atKeyword .when then return some (whens ++ [← whenClause deeper]) else return none) (do
      if ← atKeyword .when then return some (whens ++ [← whenClause deeper]) else return none) false :=
    fun whens => .atKeyword rfl fun found => by
      cases found with
      | true => exact (follows_whenClause hd).loose.gives fun id => some (whens ++ [id])
      | false => exact .pure none
  have hlast : ∀ operand whens, M.Follows false (do
      expectKeyword .else
      let otherwise ← scalar deeper
      expectKeyword .end
      return NodeKind.caseOf operand whens otherwise) (do
      expectKeyword .else
      let otherwise ← scalar deeper
      expectKeyword .end
      return NodeKind.caseOf operand whens otherwise) false := fun operand whens =>
    (follows_expectKeyword _).bind fun _ => hscalar.bind fun otherwise =>
      (follows_expectKeyword _).bind fun _ => .pure _
  have hrest : ∀ operand : Option NodeId, M.Follows false (do
        let whens ← loop (fun whens => do
          if ← atKeyword .when then return some (whens ++ [← whenClause deeper]) else return none) []
        if whens.isEmpty then expectKeyword .when
        expectKeyword .else
        let otherwise ← scalar deeper
        expectKeyword .end
        return NodeKind.caseOf operand whens otherwise) (do
        let whens ← loop (fun whens => do
          if ← atKeyword .when then return some (whens ++ [← whenClause deeper]) else return none) []
        if whens.isEmpty then expectKeyword .when
        expectKeyword .else
        let otherwise ← scalar deeper
        expectKeyword .end
        return NodeKind.caseOf operand whens otherwise) false := by
    intro operand
    refine (follows_loop hmore (.of_look (advances_whenClause hd)) []).bind fun whens => ?_
    cases whens.isEmpty with
    | true => exact (follows_expectKeyword _).bind fun _ => hlast operand whens
    | false => exact hlast operand whens
  refine .atKeyword rfl fun found => ?_
  cases found with
  | true => exact hrest none
  | false => exact (hscalar.map some).bind hrest

theorem follows_callArguments :
    M.Follows true (callArguments deeper) (callArguments deeper) false := by
  have hrest : ∀ name, M.Follows false (do
      let arguments ← if ← consume .comma then separated (scalar deeper) else pure []
      return NodeKind.call name arguments) (do
      let arguments ← if ← consume .comma then separated (scalar deeper) else pure []
      return NodeKind.call name arguments) false := fun name =>
    (follows_consume rfl).bind fun found => by
      cases found with
      | true =>
        exact (Follows.separated (follows_scalar hd)).gives fun arguments => NodeKind.call name arguments
      | false => exact .pure _
  refine .lookClear (fun _ _ h => h.kind) fun kind => ?_
  cases kind with
  | string name => exact (follows_advance.seqRight (.pure name)).bind hrest
  | _ => exact ((Never.recordHere _ _ _).bind hrest).follows

/-- **What is constructed is followed.** -/
theorem follows_constructorBody :
    M.Follows first (constructorBody deeper) (constructorBody deeper) false :=
  have hitems : M.Follows false (separated (operand deeper RuleId.constructorItem))
      (separated (operand deeper RuleId.constructorItem)) false := .separated (follows_operand hd _)
  follows_className.bind fun name => hitems.inParens.gives fun items => NodeKind.constructor name items

/-! ## Calls -/

/-- **What a construct looks like is followed.** -/
theorem follows_callBody (construct : Construct) (word : TokenKind) : M.Follows false
    (callBody deeper construct word) (callBody deeper construct word) false := by
  have hscalar : M.Follows false (scalar deeper) (scalar deeper) false := follows_scalar hd
  have hpath : M.Follows false (path deeper) (path deeper) false := follows_path hd
  have htwo : M.Follows false (twoScalars deeper) (twoScalars deeper) false := follows_twoScalars hd
  have hthree : M.Follows false (threeScalars deeper) (threeScalars deeper) false :=
    follows_threeScalars hd
  cases construct
  case abs | sqrt | length | lower | upper => exact hscalar.inParens.gives _
  case mod | nullif => exact htwo.inParens.gives _
  case locate | substring => exact hthree.inParens.gives _
  case concat | coalesce => exact (Follows.separated hscalar).inParens.gives _
  case index | entry | key | value | object => exact hpath.inParens.gives _
  case type =>
    have hprimary : M.Follows false (primary deeper RuleId.scalar) (primary deeper RuleId.scalar) false :=
      follows_primary hd _
    exact hprimary.inParens.gives _
  case size =>
    exact hscalar.inParens.bind fun expression => (follows_asCollection expression).bind fun _ => .pure _
  case aggregate => exact (follows_aggregateArgument hd).inParens.gives _
  case trim => exact (follows_trimArguments hd).inParens.map some
  case treat => exact (follows_treatArguments hd).inParens.map some
  case call => exact (follows_callArguments hd).inParens.map some
  case caseOf => exact (follows_caseBody hd).map some
  case constructor => exact (follows_constructorBody hd).map some
  case existence | quantified => exact (follows_parenSubquery hd).gives _
  all_goals exact .pure none

/-- **A construct that a keyword introduces is followed.** -/
theorem follows_call (construct : Construct) :
    M.Follows true (call deeper construct) (call deeper construct) false := by
  refine .place fun m n => .lookClear (fun _ _ h => h.kind) fun word =>
    follows_advance.bind fun _ s t => ?_
  refine (follows_callBody hd construct word s t).bind_of fun kind? s t hrun => ?_
  cases kind? with
  | none => exact (never_missing _).follows s t
  | some kind =>
    have hplain := NodeKind.introduced?_of_isOperation (makes_callBody construct word _ _ _ hrun kind rfl).1
    refine (follows_pushFrom hplain m n s t).bind fun id s t => ?_
    split
    · exact follows_continuePath id m n s t
    · exact .pure id

end

/-- **Every nested construct is followed**, at any number of levels. What lies too deep is reported. -/
theorem nested_level (levels : Nat) : M.Nested (level levels) := by
  induction levels with
  | zero => exact fun construct => never_skipTooDeep.follows
  | succ levels ih =>
    intro construct
    cases construct with
    | negation rule => exact follows_negation ih rule
    | sign negative => exact follows_signed ih negative
    | group => exact follows_group ih
    | subquery => exact follows_simpleSelect ih
    | call construct => exact follows_call ih construct

/-! ## Whole texts -/

section

variable {deeper : Deeper} (hd : M.Nested deeper)

include hd

/-- **A statement is followed**, if the token behind it is not omitted. -/
theorem follows_statement? (rule : String) :
    M.Follows true (statement? deeper rule) (statement? deeper rule) true := by
  have hnone : M.Never (do
      let stop := Text.trimmedLength (← read).source
      let start ← look (·.currentStart)
      record ⟨.invalidStatement, [], ⟨min start stop, stop⟩, none⟩
      return (none : Option NodeId)) :=
    .bind_right fun _ => .bind_right fun _ => .record _ none
  refine .lookClear (fun _ _ h => h.kind) fun kind => ?_
  cases Trigger.ofKind? kind with
  | none => exact hnone.follows
  | some trigger =>
    refine .dispatch fun construct? _ => ?_
    cases construct? with
    | none => exact hnone.follows
    | some construct =>
      cases construct
      case selectStatement => exact (follows_selectStatement hd).map some
      case simpleSelectStatement => exact (follows_simpleSelect hd).strict.map some
      case updateStatement => exact (follows_updateStatement hd).strict.map some
      case deleteStatement => exact (follows_deleteStatement hd).strict.map some
      all_goals exact hnone.follows

theorem follows_start? (rule : String) :
    M.Follows true (start? deeper rule) (start? deeper rule) true := by
  unfold start?
  split
  · exact follows_statement? hd rule
  · exact (follows_disjunction hd rule).strict.map some

omit hd in
/-- Nothing stands behind a statement; the end of the text is not omitted. -/
theorem follows_trailingText : M.Follows true trailingText trailingText false := by
  intro s t
  refine .look (fun hs _ hrel => hrel.isKind hs (f := (· == .eof)) fun kind hkind => ?_) ?_
  · cases kind <;> first | rfl | cases hkind
  cases hat : (s.stream M.left).atEnd with
  | true =>
    refine .of_kept (not_omits_of_kind ?_) (.pure none)
    rw [beq_iff_eq.mp hat]
    rintro ⟨⟩
  | false =>
    exact (Never.bind_right fun _ => .bind_right fun _ => .bind_right fun _ =>
      (never_pushUnknown _ _ _ _).gives some).follows s t

/-- **A whole text is followed.** -/
theorem follows_query (rule : String) :
    M.Follows true (query deeper rule) (query deeper rule) false :=
  (follows_start? hd rule).bind fun _ => follows_trailingText.bind fun _ s t y s' hrun =>
    follows_push (.refl _) rfl _ ⟨0, Text.byteLength M.right.source.toList⟩ s t y s' hrun

end

end Jpql.Elision
