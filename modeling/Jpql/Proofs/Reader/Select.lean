import Jpql.Proofs.Reader.Query
import Jpql.Proofs.Reader.Follow
import Jpql.Proofs.Tree.WellFormed

/-! # Reading a query from its lexemes

* `Text.lexemes`: the lexemes of a text. `parse_of_reads`: a text is read as its lexemes are.
* `Parse.Reads.query`: what a text starts with is the statement of its query, if nothing follows.
* `Parse.Reads.path`: a path that starts with a name is a condition, and so is one behind which a dot is
  left over.
* `Parse.Reads.selection`: `SELECT v FROM E v WHERE` is read in front of every condition. -/

namespace Jpql

/-! ## Lexemes of a text -/

/-- **The lexemes of a text**, without the end. -/
def Text.lexemes (source : String) : List Lexeme :=
  (tokenize source).tokens.dropLast.map (·.lexeme source)

/-- At the start of a text its lexemes lie ahead. -/
theorem Parse.State.ahead_lexemes (source : String) (maxDepth : Nat) :
    State.initial.Ahead ⟨source, (tokenize source).tokens.toArray, .standard, maxDepth⟩
      (Text.lexemes source) := by
  have htokens := List.dropLast_append_getLast? _ (tokenize_getLast source)
  refine ⟨⟨[], (tokenize source).tokens.dropLast, _, congrArg List.toArray htokens.symm, rfl, ?_⟩, rfl⟩
  rw [Text.lexemes, List.forall₂_map_right_iff, List.forall₂_same]
  exact fun token _ => ⟨rfl, String.ofList_toList.symm⟩

/-- **A text is read as its lexemes are**: what a reader leaves behind to which they lie ahead is the tree
of the text, and nothing is reported. -/
theorem parse_of_reads {source rule : String} {maxDepth : Nat}
    (post : NodeId → (Nat → NodeKind) → Prop) (hlexical : (tokenize source).problems = [])
    (hrule : (Grammar.standard.rule? rule).isSome = true)
    (h : Parse.Reads ⟨source, (tokenize source).tokens.toArray, .standard, maxDepth⟩
      (Parse.query (Parse.level maxDepth) rule) .initial [] fun root d => post root d.kind) :
    ∃ tree, parse source rule maxDepth = .ok ⟨tree, []⟩ ∧ post tree.root tree.kind := by
  obtain ⟨root, state, hrun, hparse⟩ := parse_run source rule maxDepth hrule
  obtain ⟨hreached, hpost⟩ := h.of_eq hrun
  refine ⟨state.builder.finish source root, ?_, ?_⟩
  · rw [hparse, hlexical, hreached.problems]
    rfl
  · rw [funext (Tree.kind_finish state.builder source root)]
    exact hpost

namespace Parse

variable {env : Env} {deeper : Deeper} {s : State} {ws rest : List Lexeme} {rule : String}

namespace Reads

/-! ## Queries -/

/-- **What a text starts with is the statement of its query**, if nothing follows. -/
theorem query {post : NodeId → Draft → Prop} (hgrow : ∀ id a b, a.Grows b → post id a → post id b)
    (h : Reads env (start? deeper rule) s [] fun statement d => ∃ id, statement = some id ∧ post id d) :
    Reads env (Parse.query deeper rule) s [] fun root d =>
      ∃ id, d.kind root = .query (some id) none ∧ post id d := by
  refine h.bind fun statement t ht hstatement => ?_
  obtain ⟨id, rfl, hid⟩ := hstatement
  have htrailing : Reads env trailingText t [] fun unknown d => unknown = none ∧ d = t.draft := by
    refine look_bind ?_
    rw [TokenStream.atEnd, ht.ahead.kind]
    exact Reads.pure ht.ahead ⟨rfl, rfl⟩
  refine htrailing.bind fun unknown u hu hunknown => ?_
  obtain ⟨rfl, -⟩ := hunknown
  refine read_bind ((push _ _ hu.ahead).mono fun root d hgrows hroot => ?_)
  exact ⟨id, hroot.2, hgrow _ _ _ (hu.grows.trans hgrows) hid⟩

/-! ## Paths -/

/-- **A path that starts with a name is read at every strength**, up to the first token that is not part
of it and continues nothing. -/
theorem path (hgrammar : env.grammar = .standard)
    (hrule : Grammar.standard.dispatch rule .identifier = .ok (some .path)) {strength : Nat}
    (hle : strength ≤ 7) {name : Name} {words : List Word} {dot : Bool}
    (hrest : EndsPath dot (headKind rest)) (hstop : TokenKind.Stops strength (headKind rest))
    (h : s.Ahead env (Lexeme.name name :: (Lexeme.dotted words ++ (Lexeme.trailing dot ++ rest)))) :
    Reads env (expression deeper strength rule) s rest fun id d =>
      if words = [] ∧ dot = false then IsVariable d.kind id name.text
      else StartsPath d.kind .stateField id name.text words dot := by
  refine of_primary hle h (primary_of_dispatch hgrammar hrule ?_ ?_) hstop
  · rw [trigger?, h.kind]
    rfl
  · exact (pathOrVariable h hrest).mono fun id d _ hid => hid.2

end Reads

/-! ## Selections -/

/-- A clause `SELECT v`. -/
def SelectsOne (kindOf : Nat → NodeKind) (id : Nat) (var : String) : Prop :=
  ∃ item, kindOf id = .selectClause false [item] ∧ IsVariable kindOf item var

/-- A range `E v`. -/
def Ranges (kindOf : Nat → NodeKind) (id : Nat) (entity var : String) : Prop :=
  ∃ schema declared, kindOf id = .rangeDeclaration schema false (some declared) ∧
    kindOf schema = .schemaName entity ∧ IsVariable kindOf declared var

/-- A clause `FROM E v`. -/
def RangesOver (kindOf : Nat → NodeKind) (id : Nat) (entity var : String) : Prop :=
  ∃ entry range, kindOf id = .fromClause [entry] ∧ kindOf entry = .variableDeclaration range [] ∧
    Ranges kindOf range entity var

/-- **A statement `SELECT v FROM E v WHERE condition`.** -/
def Selects (kindOf : Nat → NodeKind) (id : Nat) (entity var : String) (condition : Nat) : Prop :=
  ∃ select fromClause whereClause,
    kindOf id = .selectStatement select (some fromClause) (some whereClause) none none none ∧
    SelectsOne kindOf select var ∧ RangesOver kindOf fromClause entity var ∧
    kindOf whereClause = .whereClause condition

section

variable {a b : Draft} (hg : a.Grows b) {id : Nat} {entity var : String}

include hg

theorem SelectsOne.grows (h : SelectsOne a.kind id var) : SelectsOne b.kind id var := by
  obtain ⟨item, hid, hitem⟩ := h
  exact ⟨item, hg.kind_eq_of hid (by simp), hitem.grows hg⟩

theorem Ranges.grows (h : Ranges a.kind id entity var) : Ranges b.kind id entity var := by
  obtain ⟨schema, declared, hid, hschema, hdeclared⟩ := h
  exact ⟨schema, declared, hg.kind_eq_of hid (by simp), hg.kind_eq_of hschema (by simp),
    hdeclared.grows hg⟩

theorem RangesOver.grows (h : RangesOver a.kind id entity var) :
    RangesOver b.kind id entity var := by
  obtain ⟨entry, range, hid, hentry, hrange⟩ := h
  exact ⟨entry, range, hg.kind_eq_of hid (by simp), hg.kind_eq_of hentry (by simp), hrange.grows hg⟩

theorem Selects.grows {condition : Nat} (h : Selects a.kind id entity var condition) :
    Selects b.kind id entity var condition := by
  obtain ⟨select, fromClause, whereClause, hid, hselect, hfrom, hwhere⟩ := h
  exact ⟨select, fromClause, whereClause, hg.kind_eq_of hid (by simp), hselect.grows hg,
    hfrom.grows hg, hg.kind_eq_of hwhere (by simp)⟩

end

end Parse

namespace Lexeme

/-- A keyword in any spelling. -/
def spelt (spelling : Keyword → List Char) (word : Keyword) : Lexeme := ⟨.keyword word, spelling word⟩

/-- **`SELECT v FROM E v WHERE`**, in any spelling. -/
def selection (spelling : Keyword → List Char) (entity var : Name) : List Lexeme :=
  [spelt spelling .select, name var, spelt spelling .from, name entity, name var,
    spelt spelling .where]

end Lexeme

namespace Parse.Reads

variable {env : Env} {deeper : Deeper} {s : State} {ws rest : List Lexeme} {entity var : Name}
  {rule : String} {spelling : Keyword → List Char}

theorem dispatch_select : Grammar.standard.dispatch RuleId.select .identifier = .ok (some .path) := by
  decide +kernel

/-- A list of one item. -/
theorem separated_one {item : Parser NodeId} {post : NodeId → Draft → Prop}
    (h : Reads env item s rest post) (hcomma : headKind rest ≠ .comma) :
    Reads env (Parse.separated item) s rest fun ids d => ∃ id, ids = [id] ∧ post id d := by
  refine h.bind fun id t ht hid => read_bind (loop_done _ ?_ ht.ahead ⟨id, rfl, hid⟩)
  refine Runs.bind (consume_miss ht.ahead hcomma) ?_
  rintro _ _ ⟨rfl, rfl⟩
  exact Runs.pure ⟨rfl, rfl⟩

theorem headKind_name_ne {name : Name} {word : Keyword} :
    headKind (Lexeme.name name :: ws) ≠ .keyword word := nofun

theorem headKind_spelt_ne {word : Keyword} {kind : TokenKind} (h : .keyword word ≠ kind) :
    headKind (Lexeme.spelt spelling word :: ws) ≠ kind := h

/-- `SELECT v` is read in front of `FROM`. -/
theorem selectClause (hgrammar : env.grammar = .standard)
    (h : s.Ahead env (Lexeme.spelt spelling .select :: Lexeme.name var ::
      Lexeme.spelt spelling .from :: ws)) :
    Reads env (Parse.selectClause deeper false) s (Lexeme.spelt spelling .from :: ws) fun id d =>
      SelectsOne d.kind id var.text := by
  refine look_bind ((expectKeyword h rfl).bind fun _ t ht _ => ?_)
  refine consume_miss_bind ht.ahead headKind_name_ne ?_
  have hitem : Reads env (selectItem deeper) t (Lexeme.spelt spelling .from :: ws) fun id d =>
      IsVariable d.kind id var.text := by
    have hahead : t.Ahead env (Lexeme.name var ::
        (Lexeme.dotted [] ++ (Lexeme.trailing false ++ Lexeme.spelt spelling .from :: ws))) := ht.ahead
    have hend : EndsPath false (headKind (Lexeme.spelt spelling .from :: ws)) := headKind_spelt_ne nofun
    have hread : Reads env (operand deeper RuleId.select) t (Lexeme.spelt spelling .from :: ws)
        fun id d => IsVariable d.kind id var.text :=
      path hgrammar dispatch_select (by decide : 4 ≤ 7) hend (.of_none rfl) hahead
    refine hread.bind fun item u hu hitem => startOf_bind fun start => ?_
    refine consume_miss_bind hu.ahead (headKind_spelt_ne (by decide)) (look_bind ?_)
    rw [hu.ahead.kind]
    exact Reads.pure hu.ahead hitem
  refine (separated_one hitem (headKind_spelt_ne (by decide))).bind fun items u hu hitems => ?_
  obtain ⟨item, rfl, hitem⟩ := hitems
  exact (pushFrom _ _ hu.ahead).mono fun id d hgrows hid => ⟨item, hid.2, hitem.grows hgrows⟩

theorem identifier?_name {name : Name} (h : s.Ahead env (Lexeme.name name :: ws)) :
    (s.stream env).identifier? = some name.text := by
  rw [TokenStream.identifier?, h.kind]
  rfl

/-- A name declares a variable. -/
theorem declaredVariable? (h : s.Ahead env (Lexeme.name var :: ws)) :
    Reads env Parse.declaredVariable? s ws fun id? d =>
      ∃ id, id? = some id ∧ IsVariable d.kind id var.text := by
  refine look_bind ?_
  rw [identifier?_name h]
  refine look_bind ((advance h).bind fun _ t ht _ => ?_)
  refine (push _ _ ht.ahead).bind fun id u hu hid => ?_
  exact Reads.pure hu.ahead ⟨id, rfl, hid.2⟩

/-- `E v` is read in front of everything. -/
theorem rangeDeclaration (h : s.Ahead env (Lexeme.name entity :: Lexeme.name var :: ws)) :
    Reads env (Parse.rangeDeclaration false) s ws fun id d => Ranges d.kind id entity.text var.text := by
  have hroot : Reads env rangeRoot s (Lexeme.name var :: ws) fun found d =>
      found.2 = some entity.text ∧ d.kind found.1 = .schemaName entity.text := by
    refine look_bind ?_
    rw [identifier?_name h]
    refine look_bind ((advance h).bind fun _ u hu _ => look_bind ?_)
    rw [TokenStream.check, hu.ahead.kind]
    refine (push (.schemaName entity.text) _ hu.ahead).bind fun id v hv hid => ?_
    exact Reads.pure hv.ahead ⟨rfl, hid.2⟩
  refine look_bind (hroot.bind fun found u hu hfound => ?_)
  obtain ⟨schema, name?⟩ := found
  refine consume_miss_bind hu.ahead headKind_name_ne ?_
  refine (declaredVariable? hu.ahead).bind fun id? v hv hid => ?_
  obtain ⟨declared, rfl, hdeclared⟩ := hid
  refine (pushFrom _ _ hv.ahead).mono fun id d hgrows hid => ?_
  exact ⟨schema, declared, hid.2, (hv.grows.trans hgrows).kind_eq_of hfound.2 (by simp),
    hdeclared.grows hgrows⟩

/-- `FROM E v` is read in front of `WHERE`. -/
theorem fromClause
    (h : s.Ahead env (Lexeme.spelt spelling .from :: Lexeme.name entity :: Lexeme.name var ::
      Lexeme.spelt spelling .where :: ws)) :
    Reads env (Parse.fromClause? deeper false) s (Lexeme.spelt spelling .where :: ws) fun id? d =>
      ∃ id, id? = some id ∧ RangesOver d.kind id entity.text var.text := by
  refine look_bind (consume_hit_bind h rfl fun t ht _ => ?_)
  have hentry : Reads env (declaration deeper) t (Lexeme.spelt spelling .where :: ws) fun id d =>
      ∃ range, d.kind id = .variableDeclaration range [] ∧ Ranges d.kind range entity.text var.text := by
    refine look_bind ?_
    rw [TokenStream.checkKeyword, ht.ahead.kind]
    refine look_bind ((rangeDeclaration ht.ahead).bind fun range u hu hrange => ?_)
    have hjoins : Reads env (loop (fun joins => do
        if ← look atJoin then return some (joins ++ [← join deeper]) else return none) []) u
          (Lexeme.spelt spelling .where :: ws) fun joins d => joins = [] ∧ d = u.draft := by
      refine read_bind (loop_done _ ?_ hu.ahead ⟨rfl, rfl⟩)
      refine (Runs.look atJoin u).bind ?_
      rintro _ _ ⟨rfl, rfl⟩
      rw [atJoin, hu.ahead.kind]
      exact Runs.pure ⟨rfl, rfl⟩
    refine hjoins.bind fun joins v hv hnone => ?_
    obtain ⟨rfl, hdraft⟩ := hnone
    rw [← hdraft] at hrange
    exact (pushFrom _ _ hv.ahead).mono fun id d hgrows hid => ⟨range, hid.2, hrange.grows hgrows⟩
  refine (separated_one hentry (headKind_spelt_ne (by decide))).bind fun ids u hu hids => ?_
  obtain ⟨entry, rfl, range, hentry, hrange⟩ := hids
  refine (pushFrom _ _ hu.ahead).bind fun id v hv hid => Reads.pure hv.ahead ⟨id, rfl, ?_⟩
  exact ⟨entry, range, hid.2, hv.grows.kind_eq_of hentry (by simp), hrange.grows hv.grows⟩

/-- At the end of a text there is no further clause. -/
theorem clause_miss_bind {word : Keyword} {p : Nat → Parser (Option NodeId)}
    {g : Option NodeId → Parser NodeId} {post : NodeId → Draft → Prop} (h : s.Ahead env [])
    (hg : Reads env (g none) s [] post) :
    Reads env ((do
      let start ← look (·.currentStart)
      if ← consumeKeyword word then p start else return none) >>= g) s [] post := by
  have hmiss : Runs env (do
      let start ← look (·.currentStart)
      if ← consumeKeyword word then p start else return none) s fun id? t => id? = none ∧ t = s := by
    refine (Runs.look _ s).bind ?_
    rintro _ _ ⟨-, rfl⟩
    refine Runs.bind (consume_miss h nofun) ?_
    rintro _ _ ⟨rfl, rfl⟩
    exact Runs.pure ⟨rfl, rfl⟩
  refine Runs.bind hmiss ?_
  rintro _ _ ⟨rfl, rfl⟩
  exact hg

/-- **`SELECT v FROM E v WHERE` is read in front of every condition** with nothing behind it. -/
theorem selection (hgrammar : env.grammar = .standard) {post : NodeId → Draft → Prop}
    (hgrow : ∀ id a b, a.Grows b → post id a → post id b)
    (hcondition : ∀ t, t.Ahead env ws → Reads env (condition deeper) t [] post)
    (h : s.Ahead env (Lexeme.selection spelling entity var ++ ws)) :
    Reads env (selectStatement deeper) s [] fun id d =>
      ∃ condition, Selects d.kind id entity.text var.text condition ∧ post condition d := by
  refine look_bind ((selectClause hgrammar h).bind fun select t ht hselect => ?_)
  refine (fromClause ht.ahead).bind fun from? u hu hfrom => ?_
  obtain ⟨fromClause, rfl, hfrom⟩ := hfrom
  have hwhere : Reads env (whereClause? deeper) u [] fun id? d => ∃ id condition,
      id? = some id ∧ d.kind id = .whereClause condition ∧ post condition d := by
    refine look_bind (consume_hit_bind hu.ahead rfl fun v hv _ => ?_)
    refine (hcondition v hv.ahead).bind fun condition w hw hpost => ?_
    refine (pushFrom _ _ hw.ahead).bind fun id x hx hid => ?_
    exact Reads.pure hx.ahead ⟨id, condition, rfl, hid.2, hgrow _ _ _ hx.grows hpost⟩
  refine hwhere.bind fun where? v hv hwhere => ?_
  obtain ⟨whereClause, condition, rfl, hwhere, hpost⟩ := hwhere
  refine clause_miss_bind hv.ahead (clause_miss_bind hv.ahead (clause_miss_bind hv.ahead ?_))
  refine (pushFrom _ _ hv.ahead).mono fun id d hgrows hid => ?_
  refine ⟨condition, ⟨select, fromClause, whereClause, hid.2, ?_, ?_, ?_⟩, hgrow _ _ _ hgrows hpost⟩
  · exact hselect.grows (hu.grows.trans (hv.grows.trans hgrows))
  · exact hfrom.grows (hv.grows.trans hgrows)
  · exact hgrows.kind_eq_of hwhere (by simp)

/-- **A text that starts with `SELECT`** is read as a statement. -/
theorem start_select (hgrammar : env.grammar = .standard) (hselect : headKind ws = .keyword .select)
    {post : NodeId → Draft → Prop} (h : Reads env (selectStatement deeper) s [] post)
    (hs : s.Ahead env ws) :
    Reads env (start? deeper RuleId.statement) s [] fun statement d =>
      ∃ id, statement = some id ∧ post id d := by
  have hdispatch : Grammar.standard.dispatch RuleId.statement (.keyword .select) =
      .ok (some .selectStatement) := by decide +kernel
  refine look_bind ?_
  rw [hs.kind, hselect]
  exact dispatch_bind hgrammar hdispatch (h.map fun id d hid => ⟨id, rfl, hid⟩)

/-- Under a rule for expressions a text starts with a condition. -/
theorem start_condition (hrule : Grammar.standard.dispatch rule .identifier = .ok (some .path))
    {post : NodeId → Draft → Prop} (h : Reads env (expression deeper 0 rule) s [] post) :
    Reads env (start? deeper rule) s [] fun statement d => ∃ id, statement = some id ∧ post id d := by
  have hne : (rule == RuleId.statement || rule == RuleId.subquery) = false := by
    rw [Bool.or_eq_false_iff]
    refine ⟨beq_false_of_ne ?_, beq_false_of_ne ?_⟩
    · rintro rfl
      exact absurd hrule (by decide +kernel)
    · rintro rfl
      exact absurd hrule (by decide +kernel)
  unfold start?
  rw [hne]
  exact h.map fun id d hid => ⟨id, rfl, hid⟩

end Parse.Reads

end Jpql
