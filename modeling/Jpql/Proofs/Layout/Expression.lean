import Jpql.Parse.Condition
import Jpql.Proofs.Layout.Simulation
import Jpql.Proofs.Reader.Run

/-! # Expressions are read in step

One lemma for each reader from recovery up to conditions: it does the same in two runs over the same
tokens. The reader of nested constructs is assumed to (`Deeper.Lockstep`). -/

namespace Jpql

namespace TokenStream

/-- Moving over segments moves forward. -/
theorem segments_forward (bound : Nat) (stream : TokenStream) :
    stream.Forward (stream.segments bound).2 := by
  induction bound generalizing stream with
  | zero => exact .refl stream
  | succ bound ih =>
    unfold segments consume?
    split
    · exact .refl stream
    · next next heq =>
      split at heq
      · obtain rfl : stream.advance = next := (Prod.mk.inj (Option.some.inj heq)).2
        split
        · exact .advance stream
        · exact (Forward.advance stream).trans ((Forward.advance _).trans (ih _))
      · cases heq

/-- Two streams of the same tokens have the same segments ahead. -/
theorem Alike.segments {a b : TokenStream} (h : a.Alike b) (bound : Nat) :
    (a.segments bound).1.1.map (·.value) = (b.segments bound).1.1.map (·.value) ∧
      (a.segments bound).1.2 = (b.segments bound).1.2 ∧
      (a.segments bound).2.position = (b.segments bound).2.position := by
  induction bound generalizing a b with
  | zero => exact ⟨rfl, rfl, h.position⟩
  | succ bound ih =>
    unfold TokenStream.segments consume?
    rw [h.check .dot]
    cases b.check .dot with
    | false => exact ⟨rfl, rfl, h.position⟩
    | true =>
      rw [if_pos rfl, if_pos rfl]
      dsimp only
      rw [h.advance.pathSegment?]
      cases b.advance.pathSegment? with
      | none => exact ⟨rfl, rfl, h.advance.position⟩
      | some name =>
        obtain ⟨hvalues, hdot, hposition⟩ := ih h.advance.advance
        exact ⟨by rw [List.map_cons, List.map_cons, hvalues], hdot, hposition⟩

/-- Moving over the rest of a level moves forward. -/
theorem skipLevel_forward (bound level : Nat) (stream : TokenStream) :
    stream.Forward (stream.skipLevel bound level) := by
  induction bound generalizing level stream with
  | zero => exact .refl stream
  | succ bound ih =>
    unfold skipLevel
    split
    · exact .refl stream
    · exact (Forward.advance stream).trans (ih _ _)
    · exact .refl stream
    · exact (Forward.advance stream).trans (ih _ _)
    · exact (Forward.advance stream).trans (ih _ _)

/-- Two streams of the same tokens leave a level at the same position. -/
theorem Alike.skipLevel {a b : TokenStream} (h : a.Alike b) (bound level : Nat) :
    (a.skipLevel bound level).position = (b.skipLevel bound level).position := by
  induction bound generalizing level a b with
  | zero => exact h.position
  | succ bound ih =>
    unfold TokenStream.skipLevel
    rw [h.kind]
    split
    · exact h.position
    · exact ih h.advance _
    · exact h.position
    · exact ih h.advance _
    · exact ih h.advance _

end TokenStream

namespace Parse

variable {α : Type} {a b : Env} {rel : State → State → Prop}

/-- **Nested constructs are read in step.** -/
def Deeper.Lockstep (a b : Env) (rel : State → State → Prop) (deeper : Deeper) : Prop :=
  ∀ construct, Parse.Lockstep a b rel (deeper construct)

/-! ## Names -/

/-- What is read after a name that stands at a place: a path below the virtual variable, or one that
starts at a variable written there. -/
def afterName (name : String) (place : Span)
    (below : List (Located String) → Bool → String → Parser NodeId)
    (atRoot : List (Located String) → Bool → NodeId → Parser NodeId) : Parser NodeId := do
  advance
  let (segments, dot) ← segments
  match ← virtualFor? name with
  | some owner => below segments dot owner
  | none => atRoot segments dot (← pushVariable name place)

theorem pathOrVariable_eq : pathOrVariable = (do
    let place ← look (·.current.span)
    let name ← look (·.currentText)
    afterName name place
      (fun segments dot owner => do
        let path ← pushVirtualPath owner ⟨name, place⟩ segments dot
        if segments.isEmpty && !dot then push (.identifier name true (some path)) place
        else return path)
      (fun segments dot root =>
        if segments.isEmpty && !dot then return root
        else pushFrom (.path .stateField root segments dot) place.start)) := rfl

theorem updateTarget_eq : updateTarget = look (·.identifier?) >>= fun
    | none => missing "update item"
    | some name => look (·.current.span) >>= fun place =>
      afterName name place (fun segments dot owner => pushVirtualPath owner ⟨name, place⟩ segments dot)
        (fun segments dot root => pushFrom (.path .stateField root segments dot) place.start) := by
  unfold updateTarget
  congr 1

theorem afterName_run {env : Env} {s : State} {name : String} {place : Span}
    {below : List (Located String) → Bool → String → Parser NodeId}
    {atRoot : List (Located String) → Bool → NodeId → Parser NodeId} :
    afterName name place below atRoot env s =
      let found := (s.stream env).advance.segments env.tokens.size
      (match s.virtualVariable.filter fun owner => !Text.sameWord name owner with
        | some owner => below found.1.1 found.1.2 owner
        | none => pushVariable name place >>= atRoot found.1.1 found.1.2) env
        { s with position := found.2.position } := by
  rw [← State.stream_advance]
  rfl

namespace Simulation

variable (S : Simulation a b rel)

include S

/-! ## Recovery -/

theorem missingVariable : Lockstep a b rel missingVariable := fun _ _ hs =>
  .ok rfl (S.recorded hs rfl rfl)

theorem missingClause (clause : String) : Lockstep a b rel (missingClause clause) := fun _ _ hs =>
  .ok rfl (S.recorded hs rfl rfl)

theorem unknownToken : Lockstep a b rel unknownToken :=
  .place fun _ _ => .place fun _ _ => S.advance.same fun _ => S.pushUnknown _ _ _ _ _ _ rfl

theorem skipTooDeep : Lockstep a b rel skipTooDeep := by
  refine .read (.place fun _ _ => ?_)
  have hskip : Lockstep a b rel
      (Parse.step fun stream => ((), stream.skipLevel a.tokens.size 0)) :=
    S.step (TokenStream.skipLevel_forward _ _) fun _ _ h => ⟨rfl, h.skipLevel _ _⟩
  rw [← S.env.size]
  exact hskip.same fun _ => .place fun _ _ => S.pushUnknown _ _ _ _ _ _ rfl

theorem trailingText : Lockstep a b rel trailingText := by
  refine (S.look TokenStream.textual_atEnd).same fun atEnd => ?_
  cases atEnd with
  | true => exact .pure rfl
  | false =>
    have hend : Agree a b rel (Parse.step fun stream => ((), stream.seek a.tokens.size))
        (Parse.step fun stream => ((), stream.seek b.tokens.size)) Eq := by
      intro s t hs
      have hinside := S.inside hs
      have hmove := S.moved hs (min a.tokens.size (a.tokens.size - 1)) (by omega) (by omega)
      have hright : { t with position := min a.tokens.size (a.tokens.size - 1) } =
          { t with position := min b.tokens.size (b.tokens.size - 1) } := by rw [S.env.size]
      rw [hright] at hmove
      exact .ok rfl hmove
    refine .read (.place fun _ _ => hend.same fun _ => ?_)
    exact (S.pushUnknown _ _ _ _ _ _ rfl).same fun id => .pure rfl

/-! ## Variables and paths -/

/-- Segments that are read in step agree in all but their places. -/
theorem segments : Agree a b rel segments segments fun x y =>
    x.1.map (·.value) = y.1.map (·.value) ∧ x.2 = y.2 := by
  refine .read ?_
  rw [S.env.size]
  refine S.step (TokenStream.segments_forward _) fun _ _ h => ?_
  obtain ⟨hvalues, hdot, hposition⟩ := h.segments b.tokens.size
  exact ⟨⟨hvalues, hdot⟩, hposition⟩

theorem pushVirtualPath (name : String) (field other : Located String)
    {left right : List (Located String)} (dot : Bool) (hfield : field.value = other.value)
    (h : left.map (·.value) = right.map (·.value)) :
    Agree a b rel (pushVirtualPath name field left dot) (pushVirtualPath name other right dot)
      Eq := by
  refine (S.push _ _ (.refl _) rfl).same fun root => S.pushFrom _ _ (.path _ _ _ ?_) rfl
  rw [List.map_cons, List.map_cons, hfield, h]

/-- A name ahead is no end of the text. -/
theorem look_identifier? {f : Option String → Parser α}
    (hnone : Agree a b rel (f none) (f none) Eq)
    (hsome : ∀ name s t, rel s t → (s.stream a).kind ≠ .eof →
      Outcome Eq rel (f (some name) a s) (f (some name) b t)) :
    Lockstep a b rel (Parse.look (·.identifier?) >>= f) := by
  intro s t hs
  refine .look ?_
  have hsame : (s.stream a).identifier? = (t.stream b).identifier? :=
    TokenStream.textual_identifier? _ _ (S.env.stream (S.alike hs))
  rw [← hsame]
  cases hname : (s.stream a).identifier? with
  | none => exact hnone s t hs
  | some name =>
    refine hsome name s t hs fun hkind => ?_
    rw [TokenStream.identifier?, hkind] at hname
    cases hname

/-- **A name with the segments behind it** is a path below the virtual variable, or starts at a variable
that is written there. -/
theorem afterName {s t : State} (hs : rel s t) (hkind : (s.stream a).kind ≠ .eof) (name : String)
    {below below' : List (Located String) → Bool → String → Parser NodeId}
    {atRoot atRoot' : List (Located String) → Bool → NodeId → Parser NodeId}
    (hbelow : ∀ (left right : List (Located String)) (dot : Bool) (owner : String),
      left.map (·.value) = right.map (·.value) →
      Agree a b rel (below left dot owner) (below' right dot owner) Eq)
    (hroot : ∀ (left right : List (Located String)) (dot : Bool) (root : NodeId),
      left.map (·.value) = right.map (·.value) →
      Agree a b rel (atRoot left dot root) (atRoot' right dot root) Eq) :
    Outcome Eq rel (Parse.afterName name (s.stream a).current.span below atRoot a s)
      (Parse.afterName name (t.stream b).current.span below' atRoot' b t) := by
  obtain ⟨hvalues, hdot, hposition⟩ :=
    (S.env.stream (S.alike hs)).advance.segments b.tokens.size
  have hfirst := (TokenStream.Forward.advance (s.stream a)).bounds (S.inside hs)
  have hforward := (TokenStream.segments_forward b.tokens.size (s.stream a).advance).bounds (by
    rw [TokenStream.tokens_advance]
    exact hfirst.2)
  rw [TokenStream.tokens_advance] at hforward
  have howner : s.virtualVariable.filter (fun owner => !Text.sameWord name owner) =
      t.virtualVariable.filter fun owner => !Text.sameWord name owner := by
    rw [(S.alike hs).virtualVariable]
  rw [afterName_run, afterName_run, S.env.size, howner]
  dsimp only
  rw [← hposition, ← hdot]
  cases t.virtualVariable.filter fun owner => !Text.sameWord name owner with
  | some owner =>
    exact hbelow _ _ _ _ hvalues _ _ (S.moved hs _ (Nat.le_trans hfirst.1 hforward.1) hforward.2)
  | none =>
    exact S.written hs hkind name hforward.1 hforward.2 fun root => hroot _ _ _ root hvalues

theorem pathOrVariable {s t : State} (hs : rel s t) (hkind : (s.stream a).kind ≠ .eof) :
    Outcome Eq rel (Parse.pathOrVariable a s) (Parse.pathOrVariable b t) := by
  have hname : (s.stream a).currentText = (t.stream b).currentText :=
    TokenStream.textual_currentText _ _ (S.env.stream (S.alike hs))
  have hempty : ∀ left right : List (Located String), left.map (·.value) = right.map (·.value) →
      left.isEmpty = right.isEmpty := fun left right hvalues => by
    rw [← List.isEmpty_map, hvalues, List.isEmpty_map]
  rw [pathOrVariable_eq]
  refine .look (.look ?_)
  rw [← hname]
  refine S.afterName hs hkind _ (fun left right dot owner hvalues => ?_)
    fun left right dot root hvalues => ?_
  · refine (S.pushVirtualPath owner ⟨(s.stream a).currentText, (s.stream a).current.span⟩
      ⟨(s.stream a).currentText, (t.stream b).current.span⟩ dot rfl hvalues).same fun path => ?_
    rw [hempty left right hvalues]
    split
    · exact S.push _ _ (.refl _) rfl
    · exact .pure rfl
  · rw [hempty left right hvalues]
    split
    · exact .pure rfl
    · exact S.pushFrom _ _ (.path _ _ _ hvalues) rfl

theorem continuePath (root m n : Nat) :
    Agree a b rel (continuePath root m) (continuePath root n) Eq := by
  refine (S.look (TokenStream.textual_check .dot)).same fun hasDot => ?_
  split
  · refine S.segments.bind ?_
    rintro ⟨left, dot⟩ ⟨right, dot'⟩ h
    obtain ⟨hvalues, rfl⟩ : left.map (·.value) = right.map (·.value) ∧ dot = dot' := h
    exact S.pushFrom _ _ (.path _ _ _ hvalues) rfl
  · exact .pure rfl

theorem updateTarget : Lockstep a b rel updateTarget := by
  rw [updateTarget_eq]
  refine S.look_identifier? (S.missing _) fun name s t hs hkind => ?_
  refine .look (S.afterName hs hkind name (fun left right dot owner hvalues => ?_)
    fun left right dot root hvalues => ?_)
  · exact S.pushVirtualPath owner ⟨name, _⟩ ⟨name, _⟩ dot rfl hvalues
  · exact S.pushFrom _ _ (.path _ _ _ hvalues) rfl

theorem declaredVariable? : Lockstep a b rel declaredVariable? := by
  refine S.look_identifier? (.pure rfl) fun name s t hs hkind => .look (.advance ?_)
  exact S.writtenHere hs hkind name fun _ => .pure rfl

theorem entityType (name : String) : Lockstep a b rel (entityType name) :=
  .place fun _ _ => S.advance.same fun _ => S.push _ _ (.refl _) rfl

/-! ## Primaries -/

theorem leaf {kind : NodeKind} (hplain : kind.isPlain = true) : Lockstep a b rel (leaf kind) :=
  .place fun _ _ => S.advance.same fun _ => S.pushFrom _ _ (.refl _) hplain

/-- The grammar is asked in both runs alike, and no state changes. -/
theorem dispatch_bind {rule : String} {trigger : Trigger} {f g : Option Construct → Parser α}
    {post : α → α → Prop} {s t : State}
    (h : ∀ construct?, Outcome post rel (f construct? a s) (g construct? b t)) :
    Outcome post rel ((dispatch rule trigger >>= f) a s) ((dispatch rule trigger >>= g) b t) := by
  have hrun : ∀ (env : Env) (s : State) (f : Option Construct → Parser α),
      (dispatch rule trigger >>= f) env s =
        (env.grammar.dispatch rule trigger >>= fun construct? => f construct? env s) := by
    intro env s f
    show ((dispatch rule trigger env s) >>= fun found => f found.1 env found.2) = _
    rw [dispatch_run]
    cases env.grammar.dispatch rule trigger <;> rfl
  rw [hrun, hrun, S.env.grammar]
  cases b.grammar.dispatch rule trigger with
  | ok construct? => exact h construct?
  | error error => exact .error error

theorem lookKind : Lockstep a b rel (Parse.look (·.kind)) := S.look TokenStream.textual_kind

section

variable {deeper : Deeper} (hd : deeper.Lockstep a b rel)

include hd

/-- **A construct is read in step** where a token is ahead. -/
theorem build (construct : Construct) {s t : State} (hs : rel s t) (hkind : (s.stream a).kind ≠ .eof) :
    Outcome Eq rel (Parse.build deeper construct a s) (Parse.build deeper construct b t) := by
  cases construct
  case selectStatement => exact hd _ s t hs
  case simpleSelectStatement => exact hd _ s t hs
  case updateStatement => exact S.unknownToken s t hs
  case deleteStatement => exact S.unknownToken s t hs
  case group => exact hd _ s t hs
  case path => exact S.pathOrVariable hs hkind
  case number =>
    exact (S.look TokenStream.textual_currentText).same (fun text => S.leaf rfl) s t hs
  case string => exact S.lookKind.same (fun kind => by split <;> exact S.leaf rfl) s t hs
  case wordLiteral => exact S.lookKind.same (fun kind => S.leaf rfl) s t hs
  case moment => exact S.lookKind.same (fun kind => S.leaf rfl) s t hs
  case parameter =>
    refine S.lookKind.same (fun kind => ?_) s t hs
    split
    · exact S.leaf rfl
    · exact S.leaf rfl
    · exact S.unknownToken
  all_goals exact hd _ s t hs

/-- **A primary is read in step**; which construct it is depends on the tokens alone. -/
theorem primary (rule : String) : Lockstep a b rel (primary deeper rule) := by
  intro s t hs
  refine .look ?_
  have hsame : trigger? (s.stream a) = trigger? (t.stream b) :=
    TokenStream.textual_trigger? _ _ (S.env.stream (S.alike hs))
  rw [← hsame]
  cases htrigger : trigger? (s.stream a) with
  | none => exact S.missing rule s t hs
  | some trigger =>
    have hkind : (s.stream a).kind ≠ .eof := fun hend => by
      rw [trigger?, hend] at htrigger
      cases htrigger
    refine S.dispatch_bind fun construct? => ?_
    cases construct? with
    | some construct => exact S.build hd construct hs hkind
    | none =>
      cases trigger with
      | keyword word =>
        refine .read ?_
        rw [S.env.grammar]
        cases b.grammar.forKeyword? word with
        | none => exact S.missing rule s t hs
        | some construct =>
          refine .look ((S.build hd construct hs hkind).bind fun id other s t hid hs => ?_)
          subst hid
          exact .ok rfl (S.recorded hs rfl rfl)
      | _ => exact S.unknownToken s t hs

/-! ## Operands -/

theorem factor (rule : String) : Lockstep a b rel (factor deeper rule) := by
  refine S.lookKind.same fun kind => ?_
  split
  · exact hd _
  · exact hd _
  · exact S.primary hd rule

omit hd in
theorem productOperator : Joins a b rel productOperator := by
  refine (S.consume .star).same fun star => ?_
  split
  · exact .pure ⟨rfl, by rintro _ ⟨⟩ _ _; rfl⟩
  · refine (S.consume .slash).same fun slash => ?_
    split
    · exact .pure ⟨rfl, by rintro _ ⟨⟩ _ _; rfl⟩
    · exact .pure ⟨rfl, by rintro _ ⟨⟩⟩

omit hd in
theorem sumOperator : Joins a b rel sumOperator := by
  refine (S.consume .plus).same fun plus => ?_
  split
  · exact .pure ⟨rfl, by rintro _ ⟨⟩ _ _; rfl⟩
  · refine (S.consume .minus).same fun minus => ?_
    split
    · exact .pure ⟨rfl, by rintro _ ⟨⟩ _ _; rfl⟩
    · exact .pure ⟨rfl, by rintro _ ⟨⟩⟩

theorem term (rule : String) : Lockstep a b rel (term deeper rule) :=
  S.leftChain (S.factor hd rule) S.productOperator (S.factor hd _)

/-- **An operand is read in step.** -/
theorem operand (rule : String) : Lockstep a b rel (operand deeper rule) :=
  S.leftChain (S.term hd rule) S.sumOperator (S.term hd _)

theorem scalar : Lockstep a b rel (scalar deeper) := S.operand hd _

theorem signed (negative : Bool) : Lockstep a b rel (signed deeper negative) :=
  .place fun _ _ => S.advance.same fun _ => (S.factor hd _).same fun _ => S.pushFrom _ _ (.refl _) rfl

/-! ## Conditions -/

theorem inItem (ofTypes : Bool) : Lockstep a b rel (inItem deeper ofTypes) := by
  refine (S.look TokenStream.textual_identifier?).same fun name? => ?_
  cases name? with
  | none => exact S.operand hd _
  | some name =>
    dsimp only
    split
    · exact S.entityType name
    · exact S.operand hd _

theorem inItems (left : Nat) : Lockstep a b rel (inItems deeper left) := by
  have hparameter : Lockstep a b rel (do return [← Parse.primary deeper RuleId.inItem]) :=
    (S.primary hd _).same fun id => .pure rfl
  refine S.lookKind.same fun kind => ?_
  split
  · exact hparameter
  · exact hparameter
  refine (S.expect .leftParen).same fun found => ?_
  cases found with
  | false => exact (S.missing _).same fun id => .pure rfl
  | true =>
    refine (S.atKeyword .select).same fun isSubquery => ?_
    split
    · exact (hd _).same fun subquery => (S.discard_expect _).same fun _ => .pure rfl
    · refine S.kindOf fun kind other hkind => ?_
      have hitems : ∀ ofTypes, Lockstep a b rel (do
          let items ← Parse.separated (Parse.inItem deeper ofTypes)
          discard (Parse.expect .rightParen)
          return items) := fun ofTypes =>
        (S.separated (S.inItem hd ofTypes)).same fun items =>
          (S.discard_expect _).same fun _ => .pure rfl
      cases hkind <;> exact hitems _

/-- What a condition becomes is the same in both runs, and no defect. -/
def Makes (a b : Env) (rel : State → State → Prop) (p : Parser NodeKind) : Prop :=
  Agree a b rel p p fun x y => x = y ∧ x.isPlain = true

omit hd in
theorem isCheck (left : Nat) : Makes a b rel (isCheck left) := by
  refine (S.consumeKeyword .not).same fun negated => (S.consumeKeyword .empty).same fun isEmpty => ?_
  split
  · exact (S.asCollection left).same fun _ => .pure ⟨rfl, rfl⟩
  · refine (S.consumeKeyword .null).same fun isNull => ?_
    split
    · exact (S.recordHere rfl _).same fun _ => .pure ⟨rfl, rfl⟩
    · exact .pure ⟨rfl, rfl⟩

theorem conditionRest? (left : Nat) (negated : Bool) :
    Agree a b rel (conditionRest? deeper left negated) (conditionRest? deeper left negated)
      fun x y => x = y ∧ ∀ kind ∈ x, kind.isPlain = true := by
  have hscalar := S.scalar hd
  refine S.lookKind.same fun kind => ?_
  split
  · refine S.advance.same fun _ => hscalar.same fun lower => (S.expectKeyword .and).same fun _ => ?_
    exact hscalar.same fun upper => .pure ⟨rfl, by rintro _ ⟨⟩; rfl⟩
  · refine S.advance.same fun _ => hscalar.same fun pattern => ?_
    refine (S.consumeKeyword .escape).same fun hasEscape => ?_
    split
    · exact hscalar.same fun escape => .pure ⟨rfl, by rintro _ ⟨⟩; rfl⟩
    · exact .pure ⟨rfl, by rintro _ ⟨⟩; rfl⟩
  · refine S.advance.same fun _ => (S.inItems hd left).same fun items => ?_
    exact .pure ⟨rfl, by rintro _ ⟨⟩; rfl⟩
  · refine S.advance.same fun _ => (S.consumeKeyword .of).same fun hasOf => ?_
    refine (S.operand hd _).same fun collection => (S.asCollection collection).same fun _ => ?_
    exact .pure ⟨rfl, by rintro _ ⟨⟩; rfl⟩
  · refine S.advance.same fun _ => (S.isCheck left).bind ?_
    rintro kind _ ⟨rfl, hplain⟩
    exact .pure ⟨rfl, by rintro _ ⟨⟩; exact hplain⟩
  · exact .pure ⟨rfl, by rintro _ ⟨⟩⟩

omit hd in
theorem comparison? : Lockstep a b rel (Parse.look (Parse.comparison? ·.kind)) :=
  S.look fun _ _ h => by rw [h.kind]

omit hd in
theorem atNegatedWord : Lockstep a b rel (Parse.look Parse.atNegatedWord) :=
  S.look fun x y h => by
    unfold Parse.atNegatedWord
    rw [h.checkKeyword, h.peek]

theorem simpleCondition (rule : String) : Lockstep a b rel (simpleCondition deeper rule) := by
  refine (S.operand hd rule).same fun left => .startOf fun m n => S.comparison?.same fun operator? => ?_
  cases operator? with
  | some operator =>
    exact S.advance.same fun _ => (S.operand hd _).same fun right => S.pushFrom m n (.refl _) rfl
  | none =>
    have hrest : ∀ negated, Agree a b rel (conditionRest deeper left m negated)
        (conditionRest deeper left n negated) Eq := by
      refine fun negated => (S.conditionRest? hd left negated).bind ?_
      rintro kind? _ ⟨rfl, hplain⟩
      cases kind? with
      | none => exact .pure rfl
      | some kind => exact S.pushFrom m n (.refl _) (hplain kind rfl)
    refine S.atNegatedWord.same fun negated => ?_
    cases negated with
    | false => exact hrest _
    | true => exact S.advance.same fun _ => hrest _

theorem negatable (rule : String) : Lockstep a b rel (negatable deeper rule) := by
  refine (S.atKeyword .not).same fun isNegated => ?_
  split
  · exact hd _
  · exact S.simpleCondition hd rule

omit hd in
theorem connective (word : Keyword) (connective : Connective) :
    Joins a b rel (Parse.connective word connective) := by
  refine (S.consumeKeyword word).same fun found => ?_
  split
  · exact .pure ⟨rfl, by rintro _ ⟨⟩ _ _; rfl⟩
  · exact .pure ⟨rfl, by rintro _ ⟨⟩⟩

theorem conjunction (rule : String) : Lockstep a b rel (conjunction deeper rule) :=
  S.leftChain (S.negatable hd rule) (S.connective _ _) (S.negatable hd rule)

/-- **A condition is read in step.** -/
theorem disjunction (rule : String) : Lockstep a b rel (disjunction deeper rule) :=
  S.leftChain (S.conjunction hd rule) (S.connective _ _) (S.conjunction hd rule)

theorem condition : Lockstep a b rel (condition deeper) := S.disjunction hd _

end

end Simulation

end Parse

end Jpql
