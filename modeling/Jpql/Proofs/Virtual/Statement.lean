import Jpql.Proofs.Place.Expression
import Jpql.Proofs.Virtual.Walk

/-! # The statement that virtual variables belong to

An `UPDATE` or `DELETE` whose range is an entity without `AS` and without alias has an owner, named like
the entity in lower case, from its range on (`Walk.rangeDeclaration`). Nothing else has one: so the draft
of a whole text is either free of virtual variables, or has a statement of this kind (`query_owned`).

* `Unaliased`: a range that is nothing but an entity.
* `RangeOf`: the range of an `UPDATE` or `DELETE`.
* `Draft.Owned`: a draft with the virtual variables of its statement. -/

namespace Jpql

/-- **The range is nothing but an entity**, without `AS` and without alias. The virtual variable is
named like the entity in lower case, and takes up no text. -/
def Unaliased (kind : NodeId → NodeKind) (span : NodeId → Span) (range : NodeId) (entity : String) :
    Prop :=
  ∃ root declared, kind range = .rangeDeclaration root false (some declared) ∧
    kind root = .schemaName entity ∧ span range = span root ∧
    kind declared = .identifier (Text.asciiLower entity) true none ∧
    (span declared).start = (span declared).stop

/-- **The statement is an `UPDATE` or `DELETE` with this range.** -/
def RangeOf (kind : NodeId → NodeKind) (statement range : NodeId) : Prop :=
  (∃ clause items condition, kind statement = .updateStatement clause condition ∧
    kind clause = .updateClause range items) ∨
  ∃ clause condition, kind statement = .deleteStatement clause condition ∧
    kind clause = .deleteClause range

namespace Parse

variable {env : Env} {owner : Option String} {low : Nat} {base : Draft} {s t : State}

theorem Draft.Stays.unaliased {draft later : Draft} (h : draft.Stays later) {range : NodeId}
    {entity : String} (hrange : Unaliased draft.kind draft.span range entity) :
    Unaliased later.kind later.span range entity := by
  obtain ⟨root, declared, hkind, hroot, hspan, hdeclared, hempty⟩ := hrange
  have hlt : range < draft.size := lt_size_of_kind (hkind ▸ NodeKind.noConfusion)
  have hrootLt : root < draft.size := lt_size_of_kind (hroot ▸ NodeKind.noConfusion)
  have hdeclaredLt : declared < draft.size := lt_size_of_kind (hdeclared ▸ NodeKind.noConfusion)
  refine ⟨root, declared, h.kind_eq_of hlt hkind rfl, h.kind_eq_of hrootLt hroot rfl, ?_,
    h.kind_eq_of hdeclaredLt hdeclared rfl, ?_⟩
  · rw [h.span_eq range hlt, h.span_eq root hrootLt, hspan]
  · rw [h.span_eq declared hdeclaredLt, hempty]

theorem Draft.Stays.rangeOf {draft later : Draft} (h : draft.Stays later) {statement range : NodeId}
    (hrange : RangeOf draft.kind statement range) : RangeOf later.kind statement range := by
  rcases hrange with ⟨clause, items, condition, hkind, hclause⟩ | ⟨clause, condition, hkind, hclause⟩
  all_goals
    have hlt : statement < draft.size := lt_size_of_kind (hkind ▸ NodeKind.noConfusion)
    have hclauseLt : clause < draft.size := lt_size_of_kind (hclause ▸ NodeKind.noConfusion)
  · exact .inl ⟨clause, items, condition, h.kind_eq_of hlt hkind rfl, h.kind_eq_of hclauseLt hclause rfl⟩
  · exact .inr ⟨clause, condition, h.kind_eq_of hlt hkind rfl, h.kind_eq_of hclauseLt hclause rfl⟩

/-! ## Ranges -/

/-- An entity is named by one token. -/
theorem rangeRoot_entity (h : env.OfText) (hs : s.position ≤ env.tokens.size - 1) :
    After env rangeRoot s fun root t => ∀ entity ∈ root.2, t.draft.kind root.1 = .schemaName entity ∧
      t.draft.span root.1 = ⟨env.startAt s.position, env.endBefore t.position⟩ ∧
      env.startAt s.position ≤ env.endBefore t.position := by
  refine .look_bind ?_
  cases hname : (s.stream env).identifier? with
  | none => exact After.bind (.missing _) fun id t _ => .pure fun _ he => by cases he
  | some name =>
    refine .look_bind (After.bind .advance fun _ t ht => .look_bind ?_)
    have hlt := h.inOrder.lt_size hs
    have hcurrent : (s.stream env).current = env.tokens[s.position] := Env.InOrder.current_eq hlt
    have hposition : t.position = s.position + 1 := by
      rw [ht]
      exact (h.advance_position hs (ne_eof_of_identifier? hname)).1
    have hspan : (s.stream env).current.span = ⟨env.startAt s.position, env.endBefore t.position⟩ := by
      rw [hposition, Env.InOrder.endBefore_succ hlt, Env.InOrder.startAt_eq hlt, hcurrent]
    have hle : env.startAt s.position ≤ env.endBefore t.position := by
      rw [hposition, Env.InOrder.endBefore_succ hlt, Env.InOrder.startAt_eq hlt]
      exact h.inOrder.start_le_stop hlt
    split
    · refine After.bind (fun _ _ _ => trivial) fun root u (_ : True) => ?_
      refine After.bind (fun _ _ _ => trivial) fun found v (_ : True) => ?_
      exact After.bind (fun _ _ _ => trivial) fun path w (_ : True) => .pure fun _ he => by cases he
    · refine After.bind (.push _ _) fun root u hu => .pure ?_
      obtain ⟨rfl, rfl⟩ := hu
      rintro _ ⟨⟩
      exact ⟨Draft.kind_push _ _ _, (Draft.span_push _ _ _).trans hspan, hle⟩

/-- Words that are not there are not moved over, and neither is a variable. -/
theorem declaredVariable?_none : After env declaredVariable? s fun declared t =>
    declared = none → t = s := by
  refine .look_bind ?_
  cases (s.stream env).identifier? with
  | none => exact .pure fun _ => rfl
  | some name =>
    refine .look_bind (After.bind (fun _ _ _ => trivial) fun _ t (_ : True) => ?_)
    exact After.bind (fun _ _ _ => trivial) fun _ u (_ : True) => .pure fun h => by cases h

/-- The owner is there from its declaration on. -/
theorem Walk.virtualVariable (h : Walk env none low base s) (entity : String) :
    After env (virtualVariable entity) s fun id t =>
      Walk env (some (Text.asciiLower entity)) low base t ∧ low ≤ id ∧
      t.draft.kind id = .identifier (Text.asciiLower entity) true none ∧
      (t.draft.span id).start = (t.draft.span id).stop ∧ t.position = s.position ∧
      s.draft.Stays t.draft := by
  refine .look_bind (.modify_bind ((After.push _ _).mono fun id t ht => ?_))
  obtain ⟨rfl, rfl⟩ := ht
  have hkind := s.draft.kind_push (.identifier (Text.asciiLower entity) true none)
    (.point (env.endBefore s.position))
  have hspan := s.draft.span_push (.identifier (Text.asciiLower entity) true none)
    (.point (env.endBefore s.position))
  have hempty := (congrArg Span.start hspan).trans (congrArg Span.stop hspan).symm
  have hmarked := (h.2.marked.weaken (some (Text.asciiLower entity))).push
    (.point (env.endBefore s.position)) (fun _ hc => absurd hc List.not_mem_nil)
    (fun _ => ⟨_, rfl, .owner hkind hempty⟩) fun hk => absurd hk Bool.false_ne_true
  exact ⟨⟨rfl, h.2.stays.trans (.push _ _ _), hmarked⟩, h.2.marked.low_le, hkind, hempty, rfl,
    .push _ _ _⟩

/-- **A range has been read**: there is no owner, or the range is nothing but the entity that is the
owner from now on. -/
def RangeRead (env : Env) (low : Nat) (base : Draft) (range : NodeId) (t : State) : Prop :=
  low ≤ range ∧ (Walk env none low base t ∨ ∃ entity,
    Unaliased t.draft.kind t.draft.span range entity ∧
      Walk env (some (Text.asciiLower entity)) low base t)

/-- **An entity without `AS` and without alias becomes the owner.** -/
theorem Walk.pushOwner {root : NodeId} {entity : String} (h : Walk env none low base s)
    (hlow : low ≤ root) (hroot : s.draft.kind root = .schemaName entity) {start : Nat}
    (hspan : s.draft.span root = ⟨start, env.endBefore s.position⟩)
    (hle : start ≤ env.endBefore s.position) :
    After env (do
        let declared ← some <$> Parse.virtualVariable entity
        Parse.pushFrom (.rangeDeclaration root false declared) start) s (RangeRead env low base) := by
  have hdeclared : After env (some <$> Parse.virtualVariable entity) s fun declared? t => ∃ id,
      declared? = some id ∧ Walk env (some (Text.asciiLower entity)) low base t ∧ low ≤ id ∧
      t.draft.kind id = .identifier (Text.asciiLower entity) true none ∧
      (t.draft.span id).start = (t.draft.span id).stop ∧ t.position = s.position ∧
      s.draft.Stays t.draft := .map ((h.virtualVariable entity).mono fun id t ht => ⟨id, rfl, ht⟩)
  refine hdeclared.bind fun _ t ht => ?_
  obtain ⟨declared, rfl, ht, hdeclaredLow, hdeclared, hempty, hposition, hstays⟩ := ht
  have C : Conserved env (Walk env (some (Text.asciiLower entity)) low base) (low ≤ ·) :=
    Walk.conserved
  have hpush := C.pushRange hlow (allKnown_some hdeclaredLow) false start t ht
  refine (hpush.and (After.pushFrom _ _)).mono fun range u hu => ?_
  obtain ⟨⟨hwalk, hrange⟩, rfl, rfl⟩ := hu
  refine ⟨hrange, .inr ⟨entity, ⟨root, declared, Draft.kind_push _ _ _, ?_, ?_, ?_, ?_⟩, hwalk⟩⟩
  all_goals
    have hrootLt : root < s.draft.size := Draft.lt_size_of_kind (hroot ▸ NodeKind.noConfusion)
    have hdeclaredLt : declared < t.draft.size :=
      Draft.lt_size_of_kind (hdeclared ▸ NodeKind.noConfusion)
    have hkept := hstays.trans (Draft.Stays.push t.draft
      (.rangeDeclaration root false (some declared)) ⟨start, max (env.endBefore t.position) start⟩)
  · exact hkept.kind_eq_of hrootLt hroot rfl
  · refine (Draft.span_push _ _ _).trans (.trans ?_ (hkept.span_eq root hrootLt).symm)
    rw [hspan, hposition, Nat.max_eq_left hle]
  · exact (Draft.Stays.push t.draft _ _).kind_eq_of hdeclaredLt hdeclared rfl
  · have hsame := t.draft.span_push_of_lt (.rangeDeclaration root false (some declared))
      ⟨start, max (env.endBefore t.position) start⟩ hdeclaredLt
    exact (congrArg Span.start hsame).trans (hempty.trans (congrArg Span.stop hsame).symm)

/-- A range with a variable of its own, or one that lacks it, has no owner. -/
theorem Walk.pushRange {root : NodeId} {declared : Option NodeId} (hs : Walk env none low base s)
    (hroot : low ≤ root) (hdeclared : AllKnown (low ≤ ·) declared) (hasAs : Bool) (start : Nat) :
    After env (Parse.pushFrom (.rangeDeclaration root hasAs declared) start) s
      (RangeRead env low base) :=
  (Walk.conserved.pushRange hroot hdeclared hasAs start s hs).mono fun _ _ ht => ⟨ht.2, .inl ht.1⟩

/-- **A range of an `UPDATE` or `DELETE`**: if it has no variable of its own, its entity is the owner
from now on. -/
theorem Walk.rangeDeclaration (h : env.OfText) (hinside : s.position ≤ env.tokens.size - 1)
    (hs : Walk env none low base s) :
    After env (rangeDeclaration true) s (RangeRead env low base) := by
  have C : Conserved env (Walk env none low base) (low ≤ ·) := Walk.conserved
  have hpasses : Passes env rangeRoot := .of_agree fun _ S => S.rangeRoot
  have hread := (C.rangeRoot s hs).and ((rangeRoot_entity h hinside).and (hpasses s hinside))
  refine .look_bind (hread.bind fun root t ht => ?_)
  obtain ⟨⟨ht, hroot⟩, hentity, hpassage⟩ := ht
  have hmissing : ∀ hasAs u, Walk env none low base u → After env (do
      let declared ← Parse.missingVariable *> pure none
      Parse.pushFrom (.rangeDeclaration root.1 hasAs declared) (env.startAt s.position)) u
        (RangeRead env low base) :=
    fun hasAs u hu => ((C.missingVariable.seqRight (.pure allKnown_none)) u hu).bind
      fun declared v hv => hv.1.pushRange hroot hv.2 hasAs _
  refine ((C.consumeKeyword .as t ht).and (consume_after _ hpassage.inside)).bind fun hasAs u hu => ?_
  obtain ⟨⟨hu, -⟩, -, hsame⟩ := hu
  refine ((C.declaredVariable? u hu).and declaredVariable?_none).bind fun declared? v hv => ?_
  obtain ⟨⟨hv, hdeclared⟩, hthere⟩ := hv
  cases declared? with
  | some declared => exact hv.pushRange hroot hdeclared hasAs _
  | none =>
    cases hname : root.2 with
    | none => exact hmissing hasAs v hv
    | some entity =>
      cases hasAs with
      | true => exact hmissing true v hv
      | false =>
        -- Neither `AS` nor a name was there, so the entity has just been read.
        obtain rfl := hthere rfl
        obtain rfl := hsame rfl
        obtain ⟨hkind, hspan, hle⟩ := hentity entity hname
        exact ht.pushOwner hroot hkind hspan hle

/-! ## Statements -/

/-- **The virtual variables of a draft are those of its statement**: there are none, or the statement is
an `UPDATE` or `DELETE` of an entity without alias, and they belong to that. -/
def Draft.Owned (source : String) (draft : Draft) (statement : Option NodeId) : Prop :=
  Draft.Marked source none 0 draft ∨ ∃ id ∈ statement, ∃ range entity,
    RangeOf draft.kind id range ∧ Unaliased draft.kind draft.span range entity ∧
      Draft.Marked source (some (Text.asciiLower entity)) 0 draft

/-- What is read after the range: the clause with the range, and a condition. -/
theorem Walk.clauses (clause : NodeKind) (statement : NodeId → Option NodeId → NodeKind)
    (hs : Walk env owner 0 base s) (hclause : clause.isContextFree = true)
    (hkept : clause.asCollection = clause)
    (hstatement : ∀ id condition, (statement id condition).isContextFree = true) (levels start : Nat) :
    After env (do
        let id ← pushFrom clause start
        let condition ← whereClause? (level levels)
        pushFrom (statement id condition) start) s fun id u =>
      Walk env owner 0 s.draft u ∧ ∃ part condition, u.draft.kind id = statement part condition ∧
        u.draft.kind part = clause := by
  have C : ∀ base, Conserved env (Walk env owner 0 base) (0 ≤ ·) := fun _ => Walk.conserved
  have hover : ∀ {kind : NodeKind}, kind.isContextFree = true → kind.Over (0 ≤ ·) :=
    fun hkind => ⟨hkind, fun _ _ => Nat.zero_le _⟩
  refine (((C _).pushFrom (hover hclause) start s hs.rebase).and (After.pushFrom _ _)).bind
    fun part t ht => ?_
  obtain ⟨⟨hfirst, -⟩, rfl, rfl⟩ := ht
  have hpart : s.draft.size < (s.draft.push clause
      ⟨start, max (env.endBefore s.position) start⟩).size := by
    rw [Draft.size_push]
    exact Nat.lt_succ_self _
  refine ((C _).whereClause? (level_reads env levels _ _ _) _ hfirst.rebase).bind
    fun condition u hu => ?_
  refine (((C _).pushFrom (hover (hstatement _ _)) start u hu.1).and (After.pushFrom _ _)).mono
    fun id v hv => ?_
  obtain ⟨⟨hlast, -⟩, rfl, rfl⟩ := hv
  refine ⟨⟨hlast.1, hfirst.2.stays.trans hlast.2.stays, hlast.2.marked⟩, s.draft.size, condition,
    Draft.kind_push _ _ _, hlast.2.stays.kind_eq_of hpart (Draft.kind_push _ _ _) hkept⟩

/-- **A statement is that of its virtual variables** if its range comes first. -/
theorem Walk.ranged (h : env.OfText) {rest : NodeId → Parser NodeId}
    (hrest : ∀ owner range s base, Walk env owner 0 base s → After env (rest range) s fun id u =>
      Walk env owner 0 s.draft u ∧ RangeOf u.draft.kind id range)
    (hinside : s.position ≤ env.tokens.size - 1) (hs : Walk env none 0 base s) :
    After env (Parse.rangeDeclaration true >>= rest) s fun id t =>
      t.draft.Owned env.source (some id) := by
  refine (hs.rangeDeclaration h hinside).bind fun range t ht => ?_
  rcases ht.2 with ht | ⟨entity, hrange, ht⟩
  · exact (hrest _ range t _ ht).mono fun id u hu => .inl hu.1.2.marked
  · refine (hrest _ range t _ ht).mono fun id u hu => .inr ⟨id, rfl, range, entity, hu.2, ?_, ?_⟩
    · exact hu.1.2.stays.unaliased hrange
    · exact hu.1.2.marked

/-- Virtual variables are what they are, whatever the owner is from now on. -/
theorem withoutVirtual_owned {p : Parser NodeId} {s : State}
    (hp : ∀ s, s.position ≤ env.tokens.size - 1 → Walk env none 0 base s →
      After env p s fun id t => t.draft.Owned env.source (some id))
    (hinside : s.position ≤ env.tokens.size - 1) (hs : Walk env none 0 base s) :
    After env (withoutVirtual p) s fun id t => t.draft.Owned env.source (some id) := by
  have hinner : Walk env none 0 base { s with virtualVariable := none } :=
    ⟨rfl, hs.2.stays, hs.2.marked⟩
  have hread := hp { s with virtualVariable := none } hinside hinner
  exact .get_bind (.modify_bind (hread.bind fun id t ht => .modify_bind (.pure ht)))

theorem updateStatement_owned (h : env.OfText) (levels : Nat)
    (hinside : s.position ≤ env.tokens.size - 1) (hs : Walk env none 0 base s) :
    After env (updateStatement (level levels)) s fun id t => t.draft.Owned env.source (some id) := by
  refine withoutVirtual_owned (fun s hinside hs => .look_bind ?_) hinside hs
  have C : ∀ owner base, Conserved env (Walk env owner 0 base) (0 ≤ ·) := fun _ _ => Walk.conserved
  refine (((C _ _).advance s hs).and (passes_advance s hinside)).bind fun _ t ht => ?_
  refine Walk.ranged h (fun owner range s base hs => ?_) ht.2.inside ht.1.1
  refine ((C _ _).updateItems (level_reads env levels _ _ _) s hs.rebase).bind fun items u hu => ?_
  have hclauses := Walk.clauses (.updateClause range items) .updateStatement hu.1 rfl rfl
    (fun _ _ => rfl) levels
  refine (hclauses _).mono fun id v hv => ?_
  obtain ⟨hv, part, condition, hkind, hpart⟩ := hv
  have hrange : RangeOf v.draft.kind id range := .inl ⟨part, items, condition, hkind, hpart⟩
  exact ⟨⟨hv.1, hu.1.2.stays.trans hv.2.stays, hv.2.marked⟩, hrange⟩

theorem deleteStatement_owned (h : env.OfText) (levels : Nat)
    (hinside : s.position ≤ env.tokens.size - 1) (hs : Walk env none 0 base s) :
    After env (deleteStatement (level levels)) s fun id t => t.draft.Owned env.source (some id) := by
  refine withoutVirtual_owned (fun s hinside hs => .look_bind ?_) hinside hs
  have C : ∀ owner base, Conserved env (Walk env owner 0 base) (0 ≤ ·) := fun _ _ => Walk.conserved
  refine (((C _ _).advance s hs).and (passes_advance s hinside)).bind fun _ t ht => ?_
  have hfrom : Passes env (expectKeyword .from) := .of_agree fun _ S => S.expectKeyword _
  refine (((C _ _).expectKeyword .from t ht.1.1).and (hfrom t ht.2.inside)).bind fun _ u hu => ?_
  refine Walk.ranged h (fun owner range s base hs => ?_) hu.2.inside hu.1.1
  have hclauses := Walk.clauses (.deleteClause range) .deleteStatement hs rfl rfl
    (fun _ _ => rfl) levels
  refine (hclauses _).mono fun id v hv => ?_
  obtain ⟨hv, part, condition, hkind, hpart⟩ := hv
  exact ⟨hv, .inr ⟨part, condition, hkind, hpart⟩⟩

/-! ## Whole texts -/

/-- What keeps to having no owner has no virtual variables. -/
theorem Walk.map_owned {p : Parser NodeId} {post : NodeId → Prop} (hs : Walk env none 0 base s)
    (hp : Keeps env (Walk env none 0 base) p post) :
    After env (some <$> p) s fun statement t => t.draft.Owned env.source statement :=
  .map ((hp s hs).mono fun _ _ ht => .inl ht.1.2.marked)

theorem statementOf_owned (h : env.OfText) (levels : Nat) (construct? : Option Construct)
    (hinside : s.position ≤ env.tokens.size - 1) (hs : Walk env none 0 base s) :
    After env (statementOf (level levels) construct?) s fun statement t =>
      t.draft.Owned env.source statement := by
  have C : Conserved env (Walk env none 0 base) (0 ≤ ·) := Walk.conserved
  unfold statementOf
  split
  · exact hs.map_owned (C.selectStatement (level_reads env levels none 0 base))
  · exact hs.map_owned (Walk.simpleSelect fun low base => level_reads env levels none low base)
  · exact .map (updateStatement_owned h levels hinside hs)
  · exact .map (deleteStatement_owned h levels hinside hs)
  · exact .read_bind (.look_bind ((C.record _ s hs).bind fun _ t ht => .pure (.inl ht.1.2.marked)))

/-- **The virtual variables of a text are those of its statement.** -/
theorem start?_owned (h : env.OfText) (levels : Nat) (rule : String)
    (hinside : s.position ≤ env.tokens.size - 1) (hs : Walk env none 0 base s) :
    After env (start? (level levels) rule) s fun statement t => t.draft.Owned env.source statement := by
  unfold start?
  split
  · refine .look_bind ?_
    split
    · refine (After.dispatch rule _).bind fun construct? t ht => ?_
      rw [ht]
      exact statementOf_owned h levels construct? hinside hs
    · exact statementOf_owned h levels none hinside hs
  · exact hs.map_owned (Walk.conserved.disjunction (level_reads env levels none 0 base) rule)

/-- Nodes that are added above a statement do not change what it owns. -/
theorem owned_kept {α : Type} {p : Parser α} {statement : Option NodeId}
    (hs : s.draft.Owned env.source statement)
    (hp : ∀ owner base, Keeps env (Marks env.source owner 0 base) p fun _ => True) :
    After env p s fun _ t => t.draft.Owned env.source statement := by
  rcases hs with hs | ⟨id, hid, range, entity, hrange, hunaliased, hs⟩
  · exact (hp none s.draft s ⟨.refl _, hs⟩).mono fun _ t ht => .inl ht.1.marked
  · refine (hp _ s.draft s ⟨.refl _, hs⟩).mono fun _ t ht => .inr ⟨id, hid, range, entity, ?_, ?_, ?_⟩
    · exact ht.1.stays.rangeOf hrange
    · exact ht.1.stays.unaliased hunaliased
    · exact ht.1.marked

/-- **The virtual variables of a text are those of the statement that its root holds.** -/
theorem query_owned (h : env.OfText) (levels : Nat) (rule : String) :
    After env (query (level levels) rule) .initial fun root t => ∃ statement leftover,
      t.draft.kind root = .query statement leftover ∧ t.draft.Owned env.source statement := by
  have hinitial : Walk env none 0 ⟨.empty, []⟩ .initial :=
    ⟨rfl, .refl _, .start env.source none ⟨.empty, []⟩⟩
  refine (start?_owned h levels rule (Nat.zero_le _) hinitial).bind fun statement t ht => ?_
  have C : ∀ owner base, Conserved env (Marks env.source owner 0 base) (0 ≤ ·) :=
    fun _ _ => Marks.conserved
  have htrailing : After env trailingText t fun _ u => u.draft.Owned env.source statement :=
    owned_kept ht fun owner base => (C owner base).trailingText.mono fun _ _ => trivial
  refine htrailing.bind fun leftover u hu => .read_bind ?_
  have hroot : (NodeKind.query statement leftover).Over (0 ≤ ·) := ⟨rfl, fun _ _ => Nat.zero_le _⟩
  have hpush : After env (push (.query statement leftover) ⟨0, Text.byteLength env.source.toList⟩) u
      fun _ v => v.draft.Owned env.source statement :=
    owned_kept hu fun owner base => ((C owner base).push hroot _).mono fun _ _ => trivial
  refine (hpush.and (After.push _ _)).mono fun root v hv => ?_
  obtain ⟨howned, rfl, rfl⟩ := hv
  exact ⟨statement, leftover, Draft.kind_push _ _ _, howned⟩

end Parse

end Jpql
