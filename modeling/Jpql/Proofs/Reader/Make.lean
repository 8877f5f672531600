import Jpql.Parse.Call
import Jpql.Proofs.Reader.Passage

/-! # Kinds that readers make

The readers of conditions and calls do not add their node themselves; they say which kind it is to be of.
That is always an *operation*: no name, no path, and no declaration.

* `Gives env P p`: what `p` comes to satisfies `P`, wherever it starts.
* `makes_conditionRest?`, `makes_callBody`: what is made of conditions and calls. -/

namespace Jpql

/-- **What conditions and calls are made of**: no name, no path, no declaration, and no part of a
statement. -/
def NodeKind.isOperation : NodeKind → Bool
  | .between .. | .like .. | .inList .. | .nullCheck .. | .emptyCheck .. | .member .. | .existence ..
  | .quantified .. | .basicFunction .. | .size _ | .index _ | .key _ | .value _ | .entry _ | .type _
  | .mod .. | .locate .. | .substring .. | .concat _ | .trim .. | .aggregate .. | .coalesce _
  | .nullif .. | .caseOf .. | .treat .. | .call .. | .constructor .. | .object _ => true
  | _ => false

/-- A call that a path may start with. -/
def NodeKind.isQualified : NodeKind → Bool
  | .key _ | .value _ | .treat .. => true
  | _ => false

namespace Parse

variable {α β : Type} {env : Env}

/-- **What a reader comes to satisfies `P`**, wherever it starts. -/
def Gives (env : Env) (P : α → Prop) (p : Parser α) : Prop :=
  ∀ s, After env p s fun y _ => P y

/-- The kind, if there is one, satisfies `P`. -/
def Makes (env : Env) (P : NodeKind → Prop) (p : Parser (Option NodeKind)) : Prop :=
  Gives env (fun kind? => ∀ kind ∈ kind?, P kind) p

namespace Gives

variable {P : β → Prop} {Q : α → Prop} {p : Parser α} {f : α → Parser β}

theorem pure {y : β} (h : P y) : Gives env P (Pure.pure y) := fun _ => .pure h

theorem bind_of (h : Gives env Q p) (hf : ∀ y, Q y → Gives env P (f y)) : Gives env P (p >>= f) :=
  fun s => (h s).bind fun y t hy => hf y hy t

theorem bind (hf : ∀ y, Gives env P (f y)) : Gives env P (p >>= f) :=
  bind_of (Q := fun _ => True) (fun _ _ _ _ => trivial) fun y _ => hf y

theorem mono (h : Gives env Q p) {Q' : α → Prop} (hQ : ∀ y, Q y → Q' y) : Gives env Q' p :=
  fun s => (h s).mono fun y _ => hQ y

theorem map {g : α → β} (h : Gives env (fun y => P (g y)) p) : Gives env P (g <$> p) :=
  fun s => .map (h s)

theorem inParens (h : Gives env Q p) : Gives env Q (Parse.inParens p) :=
  .bind fun _ => .bind_of h fun _ hy => .bind fun _ => .pure hy

end Gives

namespace Makes

variable {P : NodeKind → Prop}

theorem none : Makes env P (Pure.pure none) := .pure nofun

theorem some {kind : NodeKind} (h : P kind) : Makes env P (Pure.pure (some kind)) :=
  .pure fun _ hother => by cases hother; exact h

theorem of_gives {p : Parser NodeKind} (h : Gives env P p) : Makes env P (Option.some <$> p) :=
  .map (h.mono fun _ hy _ hother => by cases hother; exact hy)

end Makes

section

variable {deeper : Deeper}

/-! ## Conditions -/

theorem gives_isCheck (left : NodeId) : Gives env (·.isOperation = true) (isCheck left) := by
  refine .bind fun negated => .bind fun found => ?_
  cases found with
  | true => exact .bind fun _ => .pure rfl
  | false =>
    refine .bind fun found => ?_
    cases found with
    | true => exact Gives.pure (y := NodeKind.nullCheck left negated) rfl
    | false => exact .bind fun _ => .pure rfl

/-- **The rest of a condition makes an operation.** -/
theorem makes_conditionRest? (left : NodeId) (negated : Bool) :
    Makes env (·.isOperation = true) (conditionRest? deeper left negated) := by
  have hmade : ∀ {kind : NodeKind}, kind.isOperation = true →
      Makes env (·.isOperation = true) (Pure.pure (some kind)) := fun h =>
    Makes.some (P := (·.isOperation = true)) h
  refine .bind fun kind => ?_
  cases kind with
  | keyword word =>
    cases word
    case between =>
      exact .bind fun _ => .bind fun _ => .bind fun _ => .bind fun _ => hmade rfl
    case like =>
      refine .bind fun _ => .bind fun _ => .bind fun found => ?_
      cases found with
      | true => exact .bind fun _ => hmade rfl
      | false => exact hmade rfl
    case «in» => exact .bind fun _ => .bind fun _ => hmade rfl
    case member =>
      exact .bind fun _ => .bind fun _ => .bind fun _ => .bind fun _ => hmade rfl
    case is => exact .bind fun _ => .bind_of (gives_isCheck left) fun _ h => hmade h
    all_goals exact Makes.none
  | _ => exact Makes.none

/-! ## Calls -/

/-- **What a construct makes of a call**: an operation, which names a variable if a path may start
there. -/
def Makes.OfCall (construct : Construct) (kind : NodeKind) : Prop :=
  kind.isOperation = true ∧ (startsPath construct = true → kind.isQualified = true)

theorem gives_treatArguments : Gives env (Makes.OfCall .treat) (treatArguments deeper) := by
  refine .bind fun path => .bind fun _ => .bind fun hasAs => .bind fun name? => ?_
  cases name? with
  | some name => exact .bind fun _ => .pure ⟨rfl, fun _ => rfl⟩
  | none => exact .bind fun _ => .pure ⟨rfl, fun _ => rfl⟩

theorem gives_trimArguments : Gives env (Makes.OfCall .trim) (trimArguments deeper) := by
  have hrest : ∀ side character, Gives env (Makes.OfCall .trim) (do
      let hasFrom ← consumeKeyword .from
      let string ← scalar deeper
      return NodeKind.trim side character hasFrom string) :=
    fun _ _ => .bind fun _ => .bind fun _ => .pure ⟨rfl, nofun⟩
  refine .bind fun side => .bind fun withCharacter => ?_
  cases withCharacter with
  | true => exact .bind fun character => hrest side character
  | false => exact hrest side none

theorem gives_caseBody : Gives env (Makes.OfCall .caseOf) (caseBody deeper) := by
  have hrest : ∀ operand : Option NodeId, Gives env (Makes.OfCall .caseOf) (do
      let whens ← loop (fun whens => do
        if ← atKeyword .when then return some (whens ++ [← whenClause deeper]) else return none) []
      if whens.isEmpty then expectKeyword .when
      expectKeyword .else
      let otherwise ← scalar deeper
      expectKeyword .end
      return NodeKind.caseOf operand whens otherwise) := by
    intro operand
    refine .bind fun whens => ?_
    have hlast : Gives env (Makes.OfCall .caseOf) (do
        expectKeyword .else
        let otherwise ← scalar deeper
        expectKeyword .end
        return NodeKind.caseOf operand whens otherwise) :=
      .bind fun _ => .bind fun _ => .bind fun _ => .pure ⟨rfl, nofun⟩
    cases whens.isEmpty with
    | true => exact .bind fun _ => hlast
    | false => exact hlast
  refine .bind fun found => ?_
  cases found with
  | true => exact hrest none
  | false => exact .bind hrest

theorem gives_callArguments : Gives env (Makes.OfCall .call) (callArguments deeper) := by
  have hrest : ∀ name, Gives env (Makes.OfCall .call) (do
      let arguments ← if ← consume .comma then separated (scalar deeper) else pure []
      return NodeKind.call name arguments) := fun name => .bind fun found => by
    cases found with
    | true => exact .bind fun _ => .pure ⟨rfl, nofun⟩
    | false => exact .pure ⟨rfl, nofun⟩
  refine .bind fun kind => ?_
  split
  · exact .bind hrest
  · exact .bind hrest

/-- **What a keyword introduces makes an operation.** -/
theorem makes_callBody (construct : Construct) (word : TokenKind) :
    Makes env (Makes.OfCall construct) (callBody deeper construct word) := by
  have hplain : ∀ {kind : NodeKind}, kind.isOperation = true → startsPath construct = false →
      Makes env (Makes.OfCall construct) (Pure.pure (some kind)) := fun h hpath =>
    .some ⟨h, fun hc => by rw [hpath] at hc; cases hc⟩
  cases construct
  case treat => exact .of_gives (.inParens gives_treatArguments)
  case caseOf => exact .of_gives gives_caseBody
  case call => exact .of_gives (.inParens gives_callArguments)
  case constructor => exact .of_gives (.bind fun _ => .bind fun _ => .pure ⟨rfl, nofun⟩)
  case trim => exact .of_gives (.inParens gives_trimArguments)
  case key | value => exact .bind fun _ => Makes.some ⟨rfl, fun _ => rfl⟩
  case size => exact .bind fun _ => .bind fun _ => hplain rfl rfl
  case abs | sqrt | length | lower | upper | index | entry | object | type | mod | nullif | locate |
      substring | concat | coalesce | aggregate | existence | quantified =>
    exact .bind fun _ => hplain rfl rfl
  all_goals exact Makes.none

end

end Parse

end Jpql
