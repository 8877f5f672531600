import Jpql.Proofs.Elide.Step
import Jpql.Proofs.Reader.Make

/-! # Expressions without some `AS`

One lemma for each reader from names up to conditions: its run is followed. None of them starts with `AS`,
so each is followed whatever is known of its first token. The reader of nested constructs is assumed to be
followed (`Elision.Nested`). -/

namespace Jpql

/-- Operations introduce nothing. -/
theorem NodeKind.introduced?_of_isOperation {kind : NodeKind} (h : kind.isOperation = true) :
    kind.introduced? = none := by
  cases kind <;> first | rfl | cases h

/-- What depends on neither `AS` nor places is the same at kinds that agree but for these. -/
theorem NodeKind.ButAs.congr {α : Type} {a b : NodeKind} (h : a.ButAs b) {f : NodeKind → α}
    (hf : ∀ kind : NodeKind, f kind.withoutAs = f kind)
    (halike : ∀ {left right : NodeKind}, left.Alike right → f left = f right) : f a = f b :=
  (hf a).symm.trans ((halike h).trans (hf b))

namespace Elision

open Parse

variable {M : Elision} {s s' t : State} {first mid last known : Bool}

/-! ## Names and paths -/

section

variable {β : Type}

/-- **Segments are followed.** Their words are the same in both runs. -/
theorem Follows.segments {f g : List (Located String) × Bool → Parser β}
    (h : ∀ (left right : List (Located String)) dot, left.map (·.value) = right.map (·.value) →
      M.Follows false (f (left, dot)) (g (right, dot)) last) :
    M.Follows false (Parse.segments >>= f) (Parse.segments >>= g) last := by
  intro s t y s' hrun hclean hinside
  let found := (s.stream M.left).segments M.left.tokens.size
  change f found.1 M.left { s with position := found.2.position } = _ at hrun
  have hle : s.position ≤ found.2.position :=
    le_segments M.left.tokens.size (s.stream M.left)
  have hrest := fun right hvalues t =>
    h found.1.1 right found.1.2 hvalues { s with position := found.2.position } t y s' hrun hclean hinside
  obtain ⟨hcourse, -⟩ := hrest _ rfl t
  have hstill : M.Course s { s with position := found.2.position } := .still hle rfl
  refine ⟨hstill.trans hcourse, fun hcovers hclear => ⟨Clear.loose s, fun hrel => ?_⟩⟩
  obtain ⟨hmoved, hlater⟩ := hcovers.split hstill hcourse
  have hs : s.position < M.left.tokens.size :=
    Nat.lt_of_le_of_lt (hle.trans hcourse.position_le) hinside
  have halong := Env.segments_along M.elided.inOrder (f := M.place)
    (n := M.left.tokens.size) (m := M.right.tokens.size) hs (Nat.le_add_left _ _) (Nat.le_add_left _ _)
    (fun j _ hj => ⟨M.elided.kept_lt hj, M.elided.isKind hj (f := (· == .dot)) fun _ hnaming =>
      TokenKind.beq_of_isPlain rfl hnaming, fun hnone => by
        have hkept : ¬M.Omits j := fun homits => by
          rw [TokenStream.pathSegment?, M.elided.isAs homits] at hnone
          cases hnone
        exact (M.elided.tokenAt_kept hj hkept).pathSegment?_eq.trans hnone⟩)
    fun j hge hj hlt =>
      have hkept : ¬M.Omits j := hmoved.not_omits rfl hge hlt
      ⟨M.elided.tokenAt_kept hj hkept, Env.kept_succ_of_not_omits hj hkept⟩
  rw [← hrel.stream] at halong
  obtain ⟨hvalues, hdot, hposition⟩ := halong
  let other := (t.stream M.right).segments M.right.tokens.size
  obtain ⟨-, hmore⟩ :=
    (hrest other.1.1 hvalues.symm { t with position := other.2.position }).2 hlater hclear
  obtain ⟨t', hother, hrel'⟩ := hmore (hrel.move hposition)
  rw [← show other.1.2 = found.1.2 from hdot] at hother
  exact ⟨t', hother, hrel'⟩

end

/-- A path with the same words is added in both runs. -/
theorem follows_pushPath (kind : PathKind) (root : NodeId) {left right : List (Located String)} (dot : Bool)
    (h : left.map (·.value) = right.map (·.value)) (m n : Nat) :
    M.Follows known (pushFrom (.path kind root left dot) m) (pushFrom (.path kind root right dot) n)
      known :=
  follows_pushFrom_of (.of_alike (.path kind root dot h)) rfl m n

theorem follows_pushVariable (name : String) (span place : Span) :
    M.Follows known (pushVariable name span) (pushVariable name place) known :=
  follows_push (.refl _) rfl span place

theorem follows_pushVirtualPath (owner name : String) (span place : Span)
    {left right : List (Located String)} (dot : Bool) (h : left.map (·.value) = right.map (·.value)) :
    M.Follows known (pushVirtualPath owner ⟨name, span⟩ left dot)
      (pushVirtualPath owner ⟨name, place⟩ right dot) known :=
  (follows_push (.refl _) rfl _ _).bind fun root =>
    follows_pushPath .stateField root dot (by simp [h]) _ _

/-- **A variable or a path is followed.** -/
theorem follows_pathOrVariable : M.Follows true pathOrVariable pathOrVariable false := by
  refine .place fun span place => .lookClear (fun _ _ h => h.currentText) fun name =>
    follows_advance.bind fun _ => .segments fun left right dot hvalues => ?_
  have hempty : left.isEmpty = right.isEmpty := by
    rw [← List.isEmpty_map (f := (·.value)), hvalues, List.isEmpty_map]
  refine .virtualFor? fun owner => ?_
  rw [hempty]
  cases owner with
  | none =>
    refine (follows_pushVariable name span place).bind fun root => ?_
    split
    · exact .pure root
    · exact follows_pushPath .stateField root dot hvalues _ _
  | some owner =>
    refine (follows_pushVirtualPath owner name span place dot hvalues).bind fun path => ?_
    split
    · exact follows_push (.refl _) rfl _ _
    · exact .pure path

theorem follows_continuePath (root : NodeId) (m n : Nat) :
    M.Follows false (continuePath root m) (continuePath root n) false :=
  .check rfl fun found => by
    cases found with
    | true => exact .segments fun left right dot hvalues => follows_pushPath .stateField root dot hvalues m n
    | false => exact .pure root

theorem follows_updateTarget : M.Follows first updateTarget updateTarget false := by
  refine .starts (.identifier? (fun name => ?_) (never_missing _).follows)
  refine .place fun span place => follows_advance.bind fun _ => .segments fun left right dot hvalues =>
    .virtualFor? fun owner => ?_
  cases owner with
  | none =>
    exact (follows_pushVariable name span place).bind fun root =>
      follows_pushPath .stateField root dot hvalues _ _
  | some owner => exact follows_pushVirtualPath owner name span place dot hvalues

theorem follows_entityType (name : String) : M.Follows true (entityType name) (entityType name) false :=
  .place fun span place => follows_advance.bind fun _ => follows_push (.refl _) rfl span place

/-- A variable is declared at a name. -/
theorem follows_declare (name : String) : M.Follows true (do
    let span ← look (·.current.span)
    advance
    return some (← pushVariable name span)) (do
    let span ← look (·.current.span)
    advance
    return some (← pushVariable name span)) false :=
  .place fun span place => follows_advance.bind fun _ => (follows_pushVariable name span place).gives some

/-! ## Repetition -/

/-- **Items with commas between them are followed** if an item is. -/
theorem Follows.separated {item : Parser NodeId} (hitem : M.Follows known item item known) :
    M.Follows known (Parse.separated item) (Parse.separated item) known := by
  have hmore : ∀ items found, M.Follows known
      (if found = true then do return some (items ++ [← item]) else return none)
      (if found = true then do return some (items ++ [← item]) else return none) known := by
    intro items found
    cases found with
    | true => exact hitem.gives fun id => some (items ++ [id])
    | false => exact .pure none
  have hcomma : M.Follows known (Parse.consume .comma) (Parse.consume .comma) known := follows_consume rfl
  refine hitem.bind fun first => follows_loop (fun items => hcomma.bind (hmore items))
    (fun items more s s' hrun hclean hinside => ?_) [first]
  obtain ⟨found, s₁, hfirst, hrest⟩ := bind_eq_ok hrun
  obtain ⟨hcourse, -⟩ := hmore items found s₁ s₁ _ _ hrest hclean hinside
  cases found with
  | false => cases hrest
  | true =>
    obtain ⟨hmoved, -⟩ := hcomma s s _ _ hfirst (hcourse.stays.clean hclean)
      (Nat.lt_of_le_of_lt hcourse.position_le hinside)
    have hs : s.position < M.left.tokens.size :=
      Nat.lt_of_le_of_lt (hmoved.position_le.trans hcourse.position_le) hinside
    exact Nat.lt_of_lt_of_le (lt_of_consume M.elided.inOrder (by simp) hfirst hs) hcourse.position_le

/-- **An operator is found in both runs**, and moves over a token. What it makes introduces nothing. -/
structure Joins (M : Elision) (operator : Parser (Option (NodeId → NodeId → NodeKind))) : Prop where
  follows : M.Follows false operator operator false
  moves : ∀ s combine s', operator M.left s = .ok (some combine, s') →
    s.position < M.left.tokens.size → s.position < s'.position
  makes : Gives M.left (fun combine? => ∀ combine ∈ combine?, ∀ left right : NodeId,
    NodeKind.introduced? (combine left right) = none) operator

theorem Joins.none : M.Joins (Pure.pure none) where
  follows := .pure _
  moves := by rintro _ _ _ ⟨⟩
  makes := .pure nofun

/-- An operator is looked for, and others if it is not there. -/
theorem Joins.consume {kind : TokenKind} (hkind : kind.isPlain = true) (heof : kind ≠ .eof)
    {combine : NodeId → NodeId → NodeKind} (hcombine : ∀ left right, (combine left right).introduced? = .none)
    {rest : Parser (Option (NodeId → NodeId → NodeKind))} (hrest : M.Joins rest) :
    M.Joins (do if ← Parse.consume kind then return some combine else rest) where
  follows := (follows_consume hkind).bind fun found => by
    cases found with
    | true => exact .pure _
    | false => exact hrest.follows
  moves s other s' hrun hs := by
    obtain ⟨found, s₁, hfirst, hlast⟩ := bind_eq_ok hrun
    cases found with
    | true =>
      obtain ⟨-, rfl⟩ := Prod.mk.inj (Except.ok.inj hlast)
      exact lt_of_consume M.elided.inOrder heof hfirst hs
    | false =>
      obtain rfl := eq_of_not_consume hfirst
      exact hrest.moves _ other s' hlast hs
  makes := .bind fun found => by
    cases found with
    | true =>
      refine .pure ?_
      rintro _ ⟨⟩
      exact hcombine
    | false => exact hrest.makes

/-- **Operands with operators between them are followed.** -/
theorem Follows.leftChain {head operand : Parser NodeId}
    {operator : Parser (Option (NodeId → NodeId → NodeKind))}
    (hhead : M.Follows first head head false) (hoperator : M.Joins operator)
    (hoperand : M.Follows false operand operand false) :
    M.Follows first (Parse.leftChain head operator operand) (Parse.leftChain head operator operand)
      false := by
  refine hhead.bind fun left => .startOf fun m n => ?_
  have hjoined : ∀ left (combine : NodeId → NodeId → NodeKind),
      (∀ left right, (combine left right).introduced? = none) → M.Follows false (do
        let right ← operand
        return some (← Parse.pushFrom (combine left right) m)) (do
        let right ← operand
        return some (← Parse.pushFrom (combine left right) n)) false := fun left combine hcombine =>
    hoperand.bind fun right => (follows_pushFrom (hcombine left right) m n).gives some
  refine follows_loop (fun left s t => ?_) (fun left combined s s' hrun hclean hinside => ?_) left
  · refine (hoperator.follows s t).bind_of fun combine? s₁ t hrun => ?_
    have hmakes := hoperator.makes s combine? s₁ hrun
    cases combine? with
    | none => exact .pure none
    | some combine => exact hjoined left combine (hmakes combine rfl) s₁ t
  · obtain ⟨combine?, s₁, hfirst, hrest⟩ := bind_eq_ok hrun
    cases combine? with
    | none => cases hrest
    | some combine =>
      have hcombine := hoperator.makes s _ _ hfirst combine rfl
      obtain ⟨hcourse, -⟩ := hjoined left combine hcombine s₁ s₁ _ _ hrest hclean hinside
      obtain ⟨hmoved, -⟩ := hoperator.follows s s _ _ hfirst (hcourse.stays.clean hclean)
        (Nat.lt_of_le_of_lt hcourse.position_le hinside)
      have hs : s.position < M.left.tokens.size :=
        Nat.lt_of_le_of_lt (hmoved.position_le.trans hcourse.position_le) hinside
      exact Nat.lt_of_lt_of_le (hoperator.moves s combine s₁ hfirst hs) hcourse.position_le

/-! ## Primaries -/

/-- A node without children for a token that is moved over. -/
theorem follows_leaf {kind : NodeKind} (hplain : kind.introduced? = none) :
    M.Follows true (leaf kind) (leaf kind) false :=
  .place fun m n => follows_advance.bind fun _ => follows_pushFrom hplain m n

/-- **Nested constructs are followed.** Each moves over its first token. -/
def Nested (M : Elision) (deeper : Deeper) : Prop :=
  ∀ construct, M.Follows true (deeper construct) (deeper construct) false

section

variable {deeper : Deeper} (hd : M.Nested deeper)

include hd

/-- **A construct is followed.** -/
theorem follows_build (construct : Construct) :
    M.Follows true (build deeper construct) (build deeper construct) false := by
  have hkind : ∀ {g : TokenKind → Parser NodeId}, (∀ kind, M.Follows true (g kind) (g kind) false) →
      M.Follows true (look (·.kind) >>= g) (look (·.kind) >>= g) false :=
    .lookClear fun _ _ h => h.kind
  cases construct
  case updateStatement => exact never_unknownToken.follows
  case deleteStatement => exact never_unknownToken.follows
  case path => exact follows_pathOrVariable
  case number => exact .lookClear (fun _ _ h => h.currentText) fun _ => follows_leaf rfl
  case string => exact hkind fun kind => by cases kind <;> exact follows_leaf rfl
  case wordLiteral => exact hkind fun kind => follows_leaf rfl
  case moment => exact hkind fun kind => follows_leaf rfl
  case parameter =>
    refine hkind fun kind => ?_
    cases kind
    case positional | named => exact follows_leaf rfl
    all_goals exact never_unknownToken.follows
  all_goals exact hd _

/-- **A primary is followed.** What has no place under the rule is reported. -/
theorem follows_primary (rule : String) :
    M.Follows first (primary deeper rule) (primary deeper rule) false := by
  refine .starts (.lookClear (fun _ _ h => h.trigger?) fun trigger? => ?_)
  cases trigger? with
  | none => exact (never_missing rule).follows
  | some trigger =>
    refine .dispatch fun construct? _ => ?_
    cases construct? with
    | some construct => exact follows_build hd construct
    | none =>
      refine Never.follows ?_
      cases trigger with
      | keyword word =>
        refine Never.bind_right fun env => ?_
        cases env.grammar.forKeyword? word with
        | none => exact never_missing rule
        | some construct =>
          exact Never.bind_right fun _ => Never.bind_right fun id => Never.record _ id
      | _ => exact never_unknownToken

/-! ## Operands -/

/-- **A factor is followed.** -/
theorem follows_factor (rule : String) :
    M.Follows first (factor deeper rule) (factor deeper rule) false := by
  refine .lookKind (fun kind hkind => ?_) fun kind => ?_
  · cases kind <;> first | rfl | cases hkind
  · cases kind
    case minus => exact (hd _).starts
    case plus => exact (hd _).starts
    all_goals exact follows_primary hd rule

omit hd in
theorem joins_productOperator : M.Joins productOperator :=
  .consume rfl (by simp) (fun _ _ => rfl) (.consume rfl (by simp) (fun _ _ => rfl) .none)

omit hd in
theorem joins_sumOperator : M.Joins sumOperator :=
  .consume rfl (by simp) (fun _ _ => rfl) (.consume rfl (by simp) (fun _ _ => rfl) .none)

theorem follows_term (rule : String) : M.Follows first (term deeper rule) (term deeper rule) false :=
  .leftChain (follows_factor hd rule) joins_productOperator (follows_factor hd _)

/-- **An operand is followed.** -/
theorem follows_operand (rule : String) :
    M.Follows first (operand deeper rule) (operand deeper rule) false :=
  .leftChain (follows_term hd rule) joins_sumOperator (follows_term hd _)

theorem follows_scalar : M.Follows first (scalar deeper) (scalar deeper) false := follows_operand hd _

theorem follows_signed (negative : Bool) :
    M.Follows true (signed deeper negative) (signed deeper negative) false :=
  .place fun m n => follows_advance.bind fun _ => (follows_factor hd _).bind fun _ =>
    follows_pushFrom rfl m n

/-! ## Conditions -/

/-- **An item of a list is followed.** -/
theorem follows_inItem (ofTypes : Bool) :
    M.Follows first (inItem deeper ofTypes) (inItem deeper ofTypes) false := by
  refine .starts (.identifier? (fun name => ?_) (follows_operand hd _))
  cases ofTypes with
  | true => exact follows_entityType name
  | false => exact follows_operand hd _

/-- A list in parentheses, or a subquery. -/
def bracketedItems (deeper : Deeper) (left : NodeId) : Parser (List NodeId) := do
  if !(← expect .leftParen) then return [← missing "IN items"]
  if ← atKeyword .select then
    let subquery ← deeper .subquery
    discard (expect .rightParen)
    return [subquery]
  let ofTypes := match ← kindOf left with
    | .type _ => true
    | _ => false
  let items ← separated (inItem deeper ofTypes)
  discard (expect .rightParen)
  return items

/-- The node is the type of another. -/
def isTypeOf : NodeKind → Bool
  | .type _ => true
  | _ => false

/-- **What follows `IN` is followed.** -/
theorem follows_inItems (left : NodeId) :
    M.Follows first (inItems deeper left) (inItems deeper left) false := by
  have hprimary : M.Follows first (do return [← primary deeper RuleId.inItem])
      (do return [← primary deeper RuleId.inItem]) false := (follows_primary hd _).gives fun id => [id]
  have hitems : ∀ ofTypes, M.Follows false (do
      let items ← separated (inItem deeper ofTypes)
      discard (expect .rightParen)
      return items) (do
      let items ← separated (inItem deeper ofTypes)
      discard (expect .rightParen)
      return items) false := fun ofTypes =>
    (Follows.separated (follows_inItem hd ofTypes)).closed _
  have hlist : M.Follows first (bracketedItems deeper left) (bracketedItems deeper left) false := by
    refine (follows_expect_found .leftParen).bind fun found => ?_
    cases found with
    | false => exact ((never_missing _).gives fun id => [id]).follows
    | true =>
      refine .atKeyword rfl fun found => ?_
      cases found with
      | true => exact (hd .subquery).loose.bind fun id => (follows_expect _).bind fun _ => .pure _
      | false =>
        refine .kindOf fun kind other hkind => ?_
        have hsame : isTypeOf kind = isTypeOf other :=
          hkind.congr (fun kind => by cases kind <;> rfl) fun h => by cases h <;> rfl
        show M.Follows false (separated (inItem deeper (isTypeOf kind)) >>= _)
          (separated (inItem deeper (isTypeOf other)) >>= _) false
        rw [← hsame]
        exact hitems _
  refine .lookKind (fun kind hkind => ?_) fun kind => ?_
  · cases kind <;> first | rfl | cases hkind
  · cases kind
    case positional | named => exact hprimary
    all_goals exact hlist

omit hd in
/-- **What follows `IS` is followed.** A path in front of `IS EMPTY` is read as collection-valued. -/
theorem follows_isCheck (left : NodeId) : M.Follows known (isCheck left) (isCheck left) known := by
  refine (follows_consume rfl).bind fun negated => (follows_consume rfl).bind fun found => ?_
  cases found with
  | true => exact (follows_asCollection left).bind fun _ => .pure _
  | false =>
    refine (follows_consume rfl).bind fun found => ?_
    cases found with
    | true => exact .pure (NodeKind.nullCheck left negated)
    | false => exact (Never.recordHere _ _ _).follows

/-- **The rest of a condition is followed.** -/
theorem follows_conditionRest? (left : NodeId) (negated : Bool) :
    M.Follows false (conditionRest? deeper left negated) (conditionRest? deeper left negated) false := by
  have hscalar : M.Follows false (scalar deeper) (scalar deeper) false := follows_scalar hd
  have hadvance : M.Follows false advance advance false := follows_advance.loose
  refine .lookKind (TokenKind.forall_naming (fun _ => rfl) fun word hword => ?_) fun kind => ?_
  · cases word <;> first | rfl | cases hword
  cases kind with
  | keyword word =>
    cases word
    case between =>
      exact hadvance.bind fun _ => hscalar.bind fun lower => (follows_expectKeyword _).bind fun _ =>
        hscalar.gives fun upper => some (NodeKind.between left negated lower upper)
    case like =>
      refine hadvance.bind fun _ => hscalar.bind fun pattern => (follows_consume rfl).bind fun found => ?_
      cases found with
      | true => exact hscalar.gives fun escape => some (NodeKind.like left negated pattern (some escape))
      | false => exact .pure _
    case «in» =>
      exact hadvance.bind fun _ => (follows_inItems hd left).gives fun items =>
        some (NodeKind.inList left negated items)
    case member =>
      exact hadvance.bind fun _ => (follows_consume rfl).bind fun hasOf =>
        (follows_operand hd _).bind fun collection => (follows_asCollection collection).bind fun _ => .pure _
    case is =>
      exact hadvance.bind fun _ => (follows_isCheck left).gives some
    all_goals exact .pure none
  | _ => exact .pure none

omit hd in
/-- A negated word is ahead in both runs, or in neither. -/
theorem Rel.atNegatedWord (h : M.Rel s t) (hs : s.position < M.left.tokens.size) :
    Parse.atNegatedWord (t.stream M.right) = Parse.atNegatedWord (s.stream M.left) := by
  by_cases homits : M.Omits s.position
  · have hfalse : ∀ {stream : TokenStream}, stream.kind.isNaming = true ∨ stream.kind = .keyword .as →
        Parse.atNegatedWord stream = false := fun {stream} hkind => by
      rw [Parse.atNegatedWord, Bool.and_eq_false_iff]
      refine .inl (Bool.eq_false_iff.mpr fun hc => ?_)
      rw [TokenKind.eq_of_isKeyword hc] at hkind
      rcases hkind with hkind | hkind <;> cases hkind
    refine (hfalse (.inl ?_)).trans (hfalse (.inr (M.elided.isAs homits))).symm
    rw [h.stream]
    exact M.elided.kind_of_omits homits
  · exact (h.agrees hs homits).atNegatedWord

/-- **A simple condition is followed.** -/
theorem follows_simpleCondition (rule : String) :
    M.Follows first (simpleCondition deeper rule) (simpleCondition deeper rule) false := by
  refine (follows_operand hd rule).bind fun left => .startOf fun m n => ?_
  refine .lookAt (k := comparison?) (fun kind hkind => ?_) fun operator? => ?_
  · cases kind <;> first | rfl | cases hkind
  cases operator? with
  | some operator =>
    exact follows_advance.loose.bind fun _ => (follows_operand hd _).bind fun right =>
      follows_pushFrom rfl m n
  | none =>
    have hrest : ∀ negated, M.Follows false (conditionRest deeper left m negated)
        (conditionRest deeper left n negated) false := by
      intro negated s t
      refine (follows_conditionRest? hd left negated s t).bind_of fun kind? s₁ t hrun => ?_
      cases kind? with
      | none => exact .pure left
      | some kind =>
        have hmade := makes_conditionRest? left negated s (some kind) s₁ hrun kind rfl
        exact follows_pushFrom (NodeKind.introduced?_of_isOperation hmade) m n s₁ t
    intro s t
    refine FollowsAt.look (fun hs _ hrel => hrel.atNegatedWord hs) ?_
    cases atNegatedWord (s.stream M.left) with
    | true => exact (follows_advance.loose.bind fun _ => hrest true) s t
    | false => exact hrest false s t

theorem follows_negatable (rule : String) :
    M.Follows first (negatable deeper rule) (negatable deeper rule) false := by
  refine .atKeyword rfl fun found => ?_
  cases found with
  | true => exact (hd _).starts
  | false => exact follows_simpleCondition hd rule

omit hd in
theorem joins_connective {word : Keyword} (hword : (TokenKind.keyword word).isPlain = true)
    (connective : Connective) : M.Joins (Parse.connective word connective) :=
  .consume hword (by simp) (fun _ _ => rfl) .none

theorem follows_conjunction (rule : String) :
    M.Follows first (conjunction deeper rule) (conjunction deeper rule) false :=
  .leftChain (follows_negatable hd rule) (joins_connective rfl _) (follows_negatable hd rule)

/-- **Conditions are followed.** -/
theorem follows_disjunction (rule : String) :
    M.Follows first (disjunction deeper rule) (disjunction deeper rule) false :=
  .leftChain (follows_conjunction hd rule) (joins_connective rfl _) (follows_conjunction hd rule)

theorem follows_condition : M.Follows first (condition deeper) (condition deeper) false :=
  follows_disjunction hd _

end

end Elision

end Jpql
