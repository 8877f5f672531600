import Jpql.Proofs.Elide.Declaration
import Jpql.Parse.Statement

/-! # Clauses and statements without some `AS`

Every clause is followed, and so is every statement that is put together from them.

A result may be named without `AS`, too, but then by a word that is no keyword
(`Elision.follows_selectItem`). An `ORDER BY` clause may end where words stand that may also be names
(`NULLS`, `FIRST`, `LAST`), so it has to be known of the token behind it that it is not omitted. -/

namespace Jpql.Elision

open Parse

variable {M : Elision} {s s' t : State} {first mid last known : Bool}

/-! ## Results -/

/-- A name that is no keyword is ahead. -/
def atResult (stream : TokenStream) : Bool :=
  match stream.kind with
  | .identifier _ => true
  | _ => false

/-- An item of a `SELECT` clause behind the variable of its result. -/
def resultBody (expression : NodeId) (start : Nat) (hasAs : Bool) (declared? : Option NodeId) :
    Parser NodeId := do
  let declared ← match declared? with
    | some declared => pure declared
    | none => missing "result variable"
  pushFrom (.resultVariable expression hasAs declared) start

/-- An item of a `SELECT` clause behind its expression, and behind `AS` if that is there. -/
def resultHead (expression : NodeId) (start : Nat) (hasAs : Bool) : Parser NodeId := do
  let named ← look atResult
  if !hasAs && !named then return expression
  declaredVariable? >>= resultBody expression start hasAs

theorem resultHead_eq {env : Env} (expression : NodeId) (start : Nat) (hasAs : Bool)
    (h : hasAs = false → ∃ name, (s.stream env).kind = .identifier name) :
    resultHead expression start hasAs env s =
      (declaredVariable? >>= resultBody expression start hasAs) env s := by
  cases hasAs with
  | true => rfl
  | false =>
    obtain ⟨name, hkind⟩ := h rfl
    have hat : atResult (s.stream env) = true := by rw [atResult, hkind]
    exact (look_run hat).trans rfl

/-- **The variable of a result is followed.** -/
theorem follows_resultHead (expression : NodeId) (m n : Nat) : M.Follows false
    (consumeKeyword .as >>= resultHead expression m) (consumeKeyword .as >>= resultHead expression n)
    false := by
  have hmissing : ∀ m hasAs, M.Never (resultBody expression m hasAs none) := fun m hasAs =>
    (never_missing _).pushFrom _ m
  refine follows_introducing (fun hasAs declared _ => .resultVariable expression hasAs declared)
    (pure ()) true (fun m hasAs env s h => resultHead_eq expression m hasAs fun hfalse => h hfalse rfl)
    (fun _ _ _ => rfl) (fun m => hmissing m true) (.pure ()) (fun _ _ _ => .refl _) (fun _ _ => rfl)
    (fun _ _ => rfl) (fun m n s t hkept => ?_) m n
  refine .lookKept hkept (fun a b h => by rw [atResult, atResult, h.kind]) ?_
  cases atResult (s.stream M.left) with
  | false => exact .pure expression
  | true =>
    refine (FollowsAt.declaredVariable? hkept).bind fun declared? s t => ?_
    cases declared? with
    | some declared => exact follows_pushFrom rfl m n s t
    | none => exact (hmissing m false).follows s t

section

variable {deeper : Deeper} (hd : M.Nested deeper)

include hd

/-- **An item of a `SELECT` clause is followed.** -/
theorem follows_selectItem : M.Follows first (selectItem deeper) (selectItem deeper) false :=
  (follows_operand hd _).bind fun expression => .startOf fun m n => follows_resultHead expression m n

/-! ## Clauses -/

/-- **A `SELECT` clause is followed.** -/
theorem follows_selectClause (simple : Bool) :
    M.Follows first (selectClause deeper simple) (selectClause deeper simple) false := by
  have hdistinct : M.Follows false (consumeKeyword .distinct) (consumeKeyword .distinct) false :=
    follows_consume rfl
  refine .place fun m n => (follows_expectKeyword _).bind fun _ => hdistinct.bind fun distinct => ?_
  cases simple with
  | true => exact (Follows.separated (follows_operand hd _)).bind fun _ => follows_pushFrom rfl m n
  | false => exact (Follows.separated (follows_selectItem hd)).bind fun _ => follows_pushFrom rfl m n

/-- **A `FROM` clause is followed.** -/
theorem follows_fromClause? (simple : Bool) :
    M.Follows false (fromClause? deeper simple) (fromClause? deeper simple) false := by
  refine .place fun m n => (follows_consume rfl).bind fun found => ?_
  cases found with
  | true =>
    refine (Follows.separated (follows_declaration hd)).bind fun declarations => ?_
    cases simple with
    | true => exact (follows_pushFrom rfl m n).gives some
    | false => exact (follows_pushFrom rfl m n).gives some
  | false => exact (Never.missingClause _ _).follows

/-- **A clause that is a keyword with a condition is followed.** -/
theorem follows_conditionClause? {word : Keyword} (hword : (TokenKind.keyword word).isPlain = true)
    {kind : NodeId → NodeKind} (hkind : ∀ condition, (kind condition).introduced? = none) :
    M.Follows false (conditionClause? deeper word kind) (conditionClause? deeper word kind) false := by
  refine .place fun m n => (follows_consume hword).bind fun found => ?_
  cases found with
  | true =>
    exact (follows_condition hd).bind fun condition => (follows_pushFrom (hkind condition) m n).gives some
  | false => exact .pure none

theorem follows_whereClause? :
    M.Follows false (whereClause? deeper) (whereClause? deeper) false :=
  follows_conditionClause? hd rfl fun _ => rfl

theorem follows_havingClause? :
    M.Follows false (havingClause? deeper) (havingClause? deeper) false :=
  follows_conditionClause? hd rfl fun _ => rfl

theorem follows_groupByClause? :
    M.Follows false (groupByClause? deeper) (groupByClause? deeper) false := by
  refine .place fun m n => (follows_consume rfl).bind fun found => ?_
  cases found with
  | true =>
    exact (follows_expectKeyword _).bind fun _ => (Follows.separated (follows_operand hd _)).bind fun _ =>
      (follows_pushFrom rfl m n).gives some
  | false => exact .pure none

omit hd in
theorem follows_sortOrder : M.Follows known sortOrder sortOrder known := by
  refine (follows_consume rfl).bind fun found => ?_
  cases found with
  | true => exact .pure _
  | false =>
    refine (follows_consume rfl).bind fun found => ?_
    cases found with
    | true => exact .pure _
    | false => exact .pure _

omit hd in
/-- Where nulls are put is followed, as far as that is known not to be omitted. -/
theorem follows_nullsOrder : M.Follows true nullsOrder nullsOrder true := by
  refine (clear_consume _).bind fun found => ?_
  cases found with
  | true =>
    refine (clear_consume _).bind fun found => ?_
    cases found with
    | true => exact .pure _
    | false =>
      refine (clear_consume _).bind fun found => ?_
      cases found with
      | true => exact .pure _
      | false => exact (Never.recordHere _ _ _).follows
  | false => exact .pure _

theorem follows_orderByItem : M.Follows first (orderByItem deeper) (orderByItem deeper) true :=
  (follows_operand hd _).strict.bind fun _ => .startOf fun m n => follows_sortOrder.bind fun _ =>
    follows_nullsOrder.bind fun _ => follows_pushFrom rfl m n

/-- **An `ORDER BY` clause is followed**, if the token behind it is not omitted. -/
theorem follows_orderByClause? :
    M.Follows true (orderByClause? deeper) (orderByClause? deeper) true := by
  refine .place fun m n => (follows_consume rfl).bind fun found => ?_
  cases found with
  | true =>
    exact (follows_expectKeyword _).strict.bind fun _ =>
      (Follows.separated (follows_orderByItem hd)).bind fun _ => (follows_pushFrom rfl m n).gives some
  | false => exact .pure none

theorem follows_updateItem : M.Follows first (updateItem deeper) (updateItem deeper) false :=
  .place fun m n => follows_updateTarget.bind fun _ => (follows_expect _).bind fun _ =>
    (follows_operand hd _).bind fun _ => follows_pushFrom rfl m n

/-- **The items of an `UPDATE` are followed.** -/
theorem follows_updateItems : M.Follows false (updateItems deeper) (updateItems deeper) false := by
  refine (follows_consume rfl).bind fun found => ?_
  cases found with
  | true => exact Follows.separated (follows_updateItem hd)
  | false => exact (Never.missingClause _ _).follows

/-! ## Statements -/

/-- **A `SELECT` statement is followed.** -/
theorem follows_selectStatement :
    M.Follows first (selectStatement deeper) (selectStatement deeper) true :=
  .place fun m n => (follows_selectClause hd false).bind fun _ =>
    (follows_fromClause? hd false).bind fun _ => (follows_whereClause? hd).bind fun _ =>
      (follows_groupByClause? hd).bind fun _ => (follows_havingClause? hd).bind fun _ =>
        (follows_orderByClause? hd).loose.bind fun _ => follows_pushFrom rfl m n

/-- **A subquery is followed.** -/
theorem follows_simpleSelect : M.Follows first (simpleSelect deeper) (simpleSelect deeper) false :=
  .withoutVirtual <| .place fun m n => (follows_selectClause hd true).bind fun _ =>
    (follows_fromClause? hd true).bind fun _ => (follows_whereClause? hd).bind fun _ =>
      (follows_groupByClause? hd).bind fun _ => (follows_havingClause? hd).bind fun _ =>
        follows_pushFrom rfl m n

/-- **An `UPDATE` is followed.** -/
theorem follows_updateStatement :
    M.Follows first (updateStatement deeper) (updateStatement deeper) false :=
  have hadvance : M.Follows first advance advance false := follows_advance.starts
  .withoutVirtual <| .place fun m n => hadvance.bind fun _ => (follows_rangeDeclaration true).bind fun _ =>
    (follows_updateItems hd).bind fun _ => (follows_pushFrom rfl m n).bind fun _ =>
      (follows_whereClause? hd).bind fun _ => follows_pushFrom rfl m n

/-- **A `DELETE` is followed.** -/
theorem follows_deleteStatement :
    M.Follows first (deleteStatement deeper) (deleteStatement deeper) false :=
  have hadvance : M.Follows first advance advance false := follows_advance.starts
  .withoutVirtual <| .place fun m n => hadvance.bind fun _ => (follows_expectKeyword _).bind fun _ =>
    (follows_rangeDeclaration true).bind fun _ => (follows_pushFrom rfl m n).bind fun _ =>
      (follows_whereClause? hd).bind fun _ => follows_pushFrom rfl m n

/-! ## What stands in parentheses -/

theorem follows_parenSubquery :
    M.Follows first (parenSubquery deeper) (parenSubquery deeper) false := by
  have hmissing : M.Follows false (missing "subquery") (missing "subquery") false :=
    (never_missing _).follows
  refine (follows_expect _).bind fun _ => .atKeyword rfl fun found => ?_
  cases found with
  | true => exact (follows_simpleSelect hd).closed _
  | false => exact hmissing.closed _

theorem follows_negation (rule : String) :
    M.Follows true (negation deeper rule) (negation deeper rule) false := by
  refine .place fun m n => follows_advance.bind fun _ => (follows_consume rfl).bind fun found => ?_
  cases found with
  | true => exact (follows_parenSubquery hd).bind fun _ => follows_pushFrom rfl m n
  | false => exact (follows_negatable hd rule).bind fun _ => follows_pushFrom rfl m n

theorem follows_group : M.Follows true (group deeper) (group deeper) false := by
  refine .place fun m n => follows_advance.bind fun _ => .atKeyword rfl fun found => ?_
  have hclosed : ∀ {p : Parser NodeId}, M.Follows false p p false → M.Follows false (do
      let expression ← p
      discard (expect .rightParen)
      pushFrom (.group expression) m) (do
      let expression ← p
      discard (expect .rightParen)
      pushFrom (.group expression) n) false := fun h =>
    h.bind fun _ => (follows_expect _).bind fun _ => follows_pushFrom rfl m n
  cases found with
  | true => exact hclosed (follows_simpleSelect hd)
  | false => exact hclosed (follows_condition hd)

end

end Jpql.Elision
