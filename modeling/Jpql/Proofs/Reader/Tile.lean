import Jpql.Proofs.Reader.Cover
import Jpql.Proofs.Reader.Yield

/-! # Clauses side by side

In a text without problems the clauses of a statement stand side by side: each starts with a token of
its own, and ends with the token before the next clause starts. An absent clause takes up no token.

* `Tiles`: nodes whose spans reach, one after the other, from one position to another.
* `Laid`: what a part of a statement has read is laid out like this, unless there are problems.
* `query_tiles`: so is a whole text without problems, from its first token to its end. -/

namespace Jpql.Parse

variable {α : Type} {env : Env} {s t u : State}

/-! ## Tiles -/

/-- **Nodes that reach from position `i` to position `j`**, each of them over a token at least. -/
inductive Tiles (env : Env) (spanOf : Nat → Span) : Nat → List Nat → Nat → Prop
  | nil (i : Nat) : Tiles env spanOf i [] i
  | cons {i m j id : Nat} {ids : List Nat} (hlt : i < m)
      (hspan : spanOf id = ⟨env.startAt i, env.endBefore m⟩) (h : Tiles env spanOf m ids j) :
      Tiles env spanOf i (id :: ids) j

namespace Tiles

variable {f g : Nat → Span} {i m j : Nat} {ids more : List Nat}

theorem append (h : Tiles env f i ids m) (k : Tiles env f m more j) :
    Tiles env f i (ids ++ more) j := by
  induction h with
  | nil => exact k
  | cons hlt hspan _ ih => exact .cons hlt hspan (ih k)

theorem congr (h : Tiles env f i ids j) (hfg : ∀ id ∈ ids, g id = f id) : Tiles env g i ids j := by
  induction h with
  | nil => exact .nil _
  | cons hlt hspan _ ih =>
    rw [List.forall_mem_cons] at hfg
    exact .cons hlt (hfg.1.trans hspan) (ih hfg.2)

theorem le (h : Tiles env f i ids j) : i ≤ j := by
  induction h with
  | nil => exact Nat.le_refl _
  | cons hlt _ _ ih => omega

end Tiles

/-! ## Parts of a statement -/

/-- **What was read from `s` to `t` is laid out as `ids`**, unless there are problems. -/
structure Laid (env : Env) (s : State) (ids : List Nat) (t : State) : Prop where
  passage : Passage env s t
  lt_size : ∀ id ∈ ids, id < t.draft.size
  tiles : t.draft.problems = [] → Tiles env t.draft.span s.position ids t.position

/-- Problems stay. -/
theorem Passage.clean (h : Passage env s t) (ht : t.draft.problems = []) : s.draft.problems = [] :=
  List.prefix_nil.mp (ht ▸ h.problems)

namespace Laid

variable {ids more : List Nat}

theorem refl (hs : s.position ≤ env.tokens.size - 1) : Laid env s [] s :=
  ⟨.refl hs, List.forall_mem_nil _, fun _ => .nil _⟩

theorem append (h : Laid env s ids t) (k : Laid env t more u) : Laid env s (ids ++ more) u where
  passage := h.passage.trans k.passage
  lt_size id hid := by
    rcases List.mem_append.mp hid with hid | hid
    · exact Nat.lt_of_lt_of_le (h.lt_size id hid) k.passage.size_le
    · exact k.lt_size id hid
  tiles hclean := by
    have hbefore := (h.tiles (k.passage.clean hclean)).congr fun id hid =>
      k.passage.span_eq id (h.lt_size id hid)
    exact hbefore.append (k.tiles hclean)

/-- **A node over all that was moved over** is one tile, if something was. -/
theorem single (h : env.InOrder) {id : Nat} (hpassage : Passage env s t) (hid : id < t.draft.size)
    (hspan : t.draft.span id = env.upTo (env.startAt s.position) t.position)
    (hmoved : t.draft.problems = [] → s.position < t.position) : Laid env s [id] t := by
  refine ⟨hpassage, by simpa using hid, fun hclean => .cons (hmoved hclean) ?_ (.nil _)⟩
  have hlt := h.lt_size hpassage.inside
  obtain ⟨j, hj⟩ : ∃ j, t.position = j + 1 := ⟨t.position - 1, by have := hmoved hclean; omega⟩
  have hend : env.startAt s.position ≤ env.endBefore t.position := by
    have hle := hmoved hclean
    rw [hj] at hlt hle ⊢
    have hmono := h.startAt_mono (Nat.le_of_lt_succ hle) (Nat.lt_of_succ_lt hlt)
    have hstop := h.start_le_stop (Nat.lt_of_succ_lt hlt)
    rw [Env.InOrder.startAt_eq (Nat.lt_of_succ_lt hlt)] at hmono
    rw [Env.InOrder.endBefore_succ (Nat.lt_of_succ_lt hlt)]
    exact Nat.le_trans hmono hstop
  rw [hspan, Env.upTo, Nat.max_eq_left hend]

end Laid

/-- **The nodes a reader gives are laid out over what it reads.** -/
def Lays (env : Env) (p : Parser α) (ids : α → List Nat) : Prop :=
  ∀ s, s.position ≤ env.tokens.size - 1 → After env p s fun a t => Laid env s (ids a) t

theorem Laid.bind {p : Parser α} {ids : α → List Nat} {before : List Nat} {β : Type}
    {f : α → Parser β} {post : β → State → Prop} (h : Laid env s before t) (hp : Lays env p ids)
    (hf : ∀ a u, Laid env s (before ++ ids a) u → After env (f a) u post) :
    After env (p >>= f) t post :=
  (hp t h.passage.inside).bind fun a u hu => hf a u (h.append hu)

/-! ## Moves -/

/-- A token that is not the last one is moved over. -/
theorem position_advance_of_ne_eof (h : env.InOrder) (hs : s.position ≤ env.tokens.size - 1)
    (hkind : (s.stream env).kind ≠ .eof) :
    (s.stream env).advance.position = s.position + 1 := by
  have hlt := h.lt_size hs
  have hcurrent : (s.stream env).current = env.tokens[s.position] := Env.InOrder.current_eq hlt
  rw [TokenStream.kind, hcurrent] at hkind
  have hmore : s.position + 1 ≠ env.tokens.size := fun he => hkind ((h.eof_iff hlt).1.mpr he)
  rw [TokenStream.position_advance _ hs]
  show min (s.position + 1) (env.tokens.size - 1) = _
  omega

theorem advance_moves (h : env.InOrder) (hs : s.position ≤ env.tokens.size - 1)
    (hkind : (s.stream env).kind ≠ .eof) : After env advance s fun _ t =>
      Passage env s t ∧ s.position < t.position := by
  refine ((passes_advance s hs).and After.advance).mono ?_
  rintro _ _ ⟨ht, rfl⟩
  have hposition := position_advance_of_ne_eof h hs hkind
  refine ⟨ht, ?_⟩
  show s.position < (s.stream env).advance.position
  omega

/-- A token that is found is moved over. -/
theorem consume_moves (h : env.InOrder) {kind : TokenKind} (hkind : kind ≠ .eof)
    (hs : s.position ≤ env.tokens.size - 1) : After env (consume kind) s fun found t =>
      Passage env s t ∧ (found = false → t = s) ∧ (found = true → s.position < t.position) := by
  refine ((consume_after kind hs).and fun found t hrun => ?_).mono
    fun found t ht => ⟨ht.1.1, ht.1.2, ht.2⟩
  rintro rfl
  rw [consume_eq] at hrun
  obtain ⟨hfound, rfl⟩ := After.step _ _ _ hrun
  split at hfound
  · next hcheck =>
    have hposition := position_advance_of_ne_eof h hs fun heof =>
      hkind ((eq_of_beq hcheck).symm.trans heof)
    rw [if_pos hcheck]
    show s.position < (s.stream env).advance.position
    omega
  · cases hfound

/-- A required keyword is moved over, or there is a problem. -/
theorem expectKeyword_moves (h : env.InOrder) (word : Keyword)
    (hs : s.position ≤ env.tokens.size - 1) : After env (expectKeyword word) s fun _ t =>
      Passage env s t ∧ (t.draft.problems = [] → s.position < t.position) := by
  have hpasses : Passes env (expectKeyword word) := .of_agree fun _ S => S.expectKeyword word
  refine (hpasses s hs).and (.map ?_)
  intro found t hrun hclean
  cases hcheck : (s.stream env).check (.keyword word) with
  | true =>
    have hfound : (s.stream env).expect (.keyword word) =
        .ok ((s.stream env).current.span, (s.stream env).advance) := by
      unfold TokenStream.expect TokenStream.consume?
      rw [hcheck]
      rfl
    obtain ⟨-, rfl⟩ := (Runs.expect_ok hfound).of_eq hrun
    have hposition := position_advance_of_ne_eof h hs fun heof => by
      rw [TokenStream.check, heof] at hcheck
      cases hcheck
    show s.position < (s.stream env).advance.position
    omega
  | false =>
    have hmissing : (s.stream env).expect (.keyword word) =
        .error ((s.stream env).problemHere .expectedToken [(TokenKind.keyword word).describe]) := by
      unfold TokenStream.expect TokenStream.consume?
      rw [hcheck]
      rfl
    obtain ⟨-, rfl⟩ := (Runs.expect_error hmissing).of_eq hrun
    exact absurd hclean (by simp [State.draft])

/-! ## Clauses -/

/-- **A reader of an optional clause** that is there: it ends with a node from `start` up to the last
token moved over. -/
def Closes (env : Env) (start : Nat) (p : Parser (Option NodeId)) : Prop :=
  ∀ s, s.position ≤ env.tokens.size - 1 → After env p s fun clause t => Passage env s t ∧
    ∃ id, clause = some id ∧ id < t.draft.size ∧ t.draft.span id = env.upTo start t.position

namespace Closes

variable {start : Nat}

theorem bind {p : Parser α} {f : α → Parser (Option NodeId)} (hp : Passes env p)
    (hf : ∀ a, Closes env start (f a)) : Closes env start (p >>= f) := fun s hs =>
  (hp s hs).bind fun a t ht => (hf a t ht.inside).mono fun _ _ hu => ⟨ht.trans hu.1, hu.2⟩

theorem pushFrom (kind : NodeKind) (start : Nat) : Closes env start do
    return some (← Parse.pushFrom kind start) := fun s hs =>
  (Ends.pushFrom kind start s hs).bind fun _ _ ⟨ht, hid, hspan⟩ => .pure ⟨ht, _, rfl, hid, hspan⟩

end Closes

/-- **A clause that a keyword introduces**, if the keyword is there. -/
theorem clause_lays (h : env.InOrder) (word : Keyword) {clause : Nat → Parser (Option NodeId)}
    {absent : Parser (Option NodeId)} (hclause : ∀ start, Closes env start (clause start))
    (habsent : ∀ s, s.position ≤ env.tokens.size - 1 →
      After env absent s fun found t => found = none ∧ Laid env s [] t) :
    Lays env (do
      let start ← look (·.currentStart)
      if ← consumeKeyword word then clause start else absent) Option.toList := by
  refine fun s hs => .look_bind ((consume_moves h (by simp) hs).bind
    fun found t ⟨ht, hnot, hmoved⟩ => ?_)
  cases found with
  | false =>
    obtain rfl := hnot rfl
    refine (habsent t hs).mono ?_
    rintro _ _ ⟨rfl, hu⟩
    exact hu
  | true =>
    refine (hclause _ t ht.inside).mono ?_
    rintro _ u ⟨hu, id, rfl, hid, hspan⟩
    exact .single h (ht.trans hu) hid hspan fun _ => Nat.lt_of_lt_of_le (hmoved rfl) hu.position_le

/-- An optional clause may be absent. -/
theorem absent_after (s : State) (hs : s.position ≤ env.tokens.size - 1) :
    After env (pure none : Parser (Option NodeId)) s fun found t => found = none ∧ Laid env s [] t :=
  .pure ⟨rfl, .refl hs⟩

section

variable {deeper : Deeper} (h : env.InOrder) (hd : deeper.Steady env)

include h hd

/-- **The `SELECT` clause** starts with its keyword. -/
theorem selectClause_lays (simple : Bool) :
    Lays env (selectClause deeper simple) fun id => [id] := by
  refine fun s hs => .look_bind ((expectKeyword_moves h .select hs).bind
    fun _ t ⟨ht, hmoved⟩ => ?_)
  have hitems : Ends env (env.startAt s.position) (do
      let distinct ← consumeKeyword .distinct
      if simple then
        let items ← separated (operand deeper RuleId.simpleSelect)
        pushFrom (.simpleSelectClause distinct items) (env.startAt s.position)
      else
        let items ← separated (selectItem deeper)
        pushFrom (.selectClause distinct items) (env.startAt s.position)) := by
    refine .bind (passes_consume _) fun distinct => ?_
    split
    · exact .bind (.of_agree fun _ S => S.separated (S.operand (hd _ S) _)) fun _ => .pushFrom _ _
    · exact .bind (.of_agree fun _ S => S.separated (S.selectItem (hd _ S))) fun _ => .pushFrom _ _
  refine (hitems t ht.inside).mono fun id u ⟨hu, hid, hspan⟩ => ?_
  exact .single h (ht.trans hu) hid hspan fun hclean =>
    Nat.lt_of_lt_of_le (hmoved (hu.clean hclean)) hu.position_le

theorem fromClause?_lays (simple : Bool) : Lays env (fromClause? deeper simple) Option.toList := by
  refine clause_lays h .from (fun start => ?_) fun s hs => ?_
  · refine .bind (.of_agree fun _ S => S.separated (S.declaration (hd _ S))) fun _ => ?_
    split
    · exact .pushFrom _ _
    · exact .pushFrom _ _
  · have hmissing : After env (missingClause "FROM") s fun _ t => Laid env s [] t := by
      rintro _ _ ⟨⟩
      exact ⟨(Passage.refl hs).record _, List.forall_mem_nil _, fun _ => .nil _⟩
    exact hmissing.bind fun _ _ ht => .pure ⟨rfl, ht⟩

theorem conditionClause?_lays (word : Keyword) (kind : NodeId → NodeKind) :
    Lays env (conditionClause? deeper word kind) Option.toList :=
  clause_lays h word (fun _ => .bind (.of_agree fun _ S => S.condition (hd _ S)) fun _ =>
    .pushFrom _ _) absent_after

theorem groupByClause?_lays : Lays env (groupByClause? deeper) Option.toList :=
  clause_lays h .group (fun _ => .bind (.of_agree fun _ S => S.expectKeyword .by) fun _ =>
    .bind (.of_agree fun _ S => S.separated (S.operand (hd _ S) _)) fun _ => .pushFrom _ _)
    absent_after

theorem orderByClause?_lays : Lays env (orderByClause? deeper) Option.toList :=
  clause_lays h .order (fun _ => .bind (.of_agree fun _ S => S.expectKeyword .by) fun _ =>
    .bind (.of_agree fun _ S => S.separated (S.orderByItem (hd _ S))) fun _ => .pushFrom _ _)
    absent_after

end

/-! ## Statements -/

/-- **The node stands for what was read**, and its children are laid out over it. -/
def Built (env : Env) (s : State) (id : NodeId) (t : State) : Prop :=
  id < t.draft.size ∧ Laid env s (t.draft.kind id).children t

/-- The parts of a statement become its children. -/
theorem Laid.pushFrom {ids : List Nat} (ht : Laid env s ids t) {kind : NodeKind}
    (hchildren : kind.children = ids) (start : Nat) :
    After env (Parse.pushFrom kind start) t (Built env s) := by
  refine (After.pushFrom kind start).mono ?_
  rintro _ _ ⟨rfl, rfl⟩
  have hsize := t.draft.size_push kind ⟨start, max (env.endBefore t.position) start⟩
  refine ⟨hsize ▸ Nat.lt_succ_self _, ?_⟩
  show Laid env s ((t.draft.push kind _).kind t.draft.size).children _
  rw [Draft.kind_push, hchildren]
  exact ⟨ht.passage.push _ _, fun id hid => hsize ▸ Nat.lt_succ_of_lt (ht.lt_size id hid),
    fun hclean => (ht.tiles hclean).congr fun id hid => Draft.span_push_of_lt _ _ _ (ht.lt_size id hid)⟩

/-- Without a virtual variable the same is built. -/
theorem withoutVirtual_built {p : Parser NodeId}
    (hp : ∀ s : State, s.position ≤ env.tokens.size - 1 → (s.stream env).kind ≠ .eof →
      After env p s (Built env s)) (hs : s.position ≤ env.tokens.size - 1)
    (hkind : (s.stream env).kind ≠ .eof) : After env (withoutVirtual p) s (Built env s) := by
  refine .get_bind (.modify_bind ?_)
  refine (hp { s with virtualVariable := none } hs hkind).bind fun id t ⟨hid, ht⟩ => ?_
  have hpassage := ht.passage
  exact .modify_bind (.pure ⟨hid, ⟨hpassage.position_le, hpassage.inside, hpassage.size_le,
    hpassage.span_eq, hpassage.problems⟩, ht.lt_size, ht.tiles⟩)

section

variable {deeper : Deeper} (h : env.InOrder) (hd : deeper.Steady env)

include h hd

theorem selectStatement_built (hs : s.position ≤ env.tokens.size - 1) :
    After env (selectStatement deeper) s (Built env s) := by
  refine .look_bind ((Laid.refl hs).bind (selectClause_lays h hd false) fun select a ha => ?_)
  refine ha.bind (fromClause?_lays h hd false) fun fromClause b hb => ?_
  refine hb.bind (conditionClause?_lays h hd _ _) fun whereClause c hc => ?_
  refine hc.bind (groupByClause?_lays h hd) fun groupBy d hgroup => ?_
  refine hgroup.bind (conditionClause?_lays h hd _ _) fun having e he => ?_
  refine he.bind (orderByClause?_lays h hd) fun orderBy f hf => ?_
  exact hf.pushFrom (by simp [NodeKind.children]) _

theorem simpleSelect_built (hs : s.position ≤ env.tokens.size - 1)
    (hkind : (s.stream env).kind ≠ .eof) :
    After env (simpleSelect deeper) s (Built env s) := by
  refine withoutVirtual_built (fun s hs _ => ?_) hs hkind
  refine .look_bind ((Laid.refl hs).bind (selectClause_lays h hd true) fun select a ha => ?_)
  refine ha.bind (fromClause?_lays h hd true) fun fromClause b hb => ?_
  refine hb.bind (conditionClause?_lays h hd _ _) fun whereClause c hc => ?_
  refine hc.bind (groupByClause?_lays h hd) fun groupBy d hgroup => ?_
  refine hgroup.bind (conditionClause?_lays h hd _ _) fun having e he => ?_
  exact he.pushFrom (by simp [NodeKind.children]) _

theorem updateStatement_built (hs : s.position ≤ env.tokens.size - 1)
    (hkind : (s.stream env).kind ≠ .eof) :
    After env (updateStatement deeper) s (Built env s) := by
  refine withoutVirtual_built (fun s hs hkind => .look_bind ?_) hs hkind
  have hrange : Passes env (rangeDeclaration true) := .of_agree fun _ S => S.rangeDeclaration true
  have hitems : Passes env (updateItems deeper) := .of_agree fun _ S => S.updateItems (hd _ S)
  refine (advance_moves h hs hkind).bind fun _ a ⟨ha, hmoved⟩ => ?_
  refine (hrange a ha.inside).bind fun range b hb => ?_
  refine (hitems b hb.inside).bind fun items c hc => ?_
  refine (Ends.pushFrom _ _ c hc.inside).bind fun update d ⟨hpush, hid, hspan⟩ => ?_
  have hafter := (hb.trans hc).trans hpush
  have hupdate : Laid env s [update] d := .single h (ha.trans hafter) hid hspan fun _ =>
    Nat.lt_of_lt_of_le hmoved hafter.position_le
  refine hupdate.bind (conditionClause?_lays h hd _ _) fun whereClause e he => ?_
  exact he.pushFrom rfl _

theorem deleteStatement_built (hs : s.position ≤ env.tokens.size - 1)
    (hkind : (s.stream env).kind ≠ .eof) :
    After env (deleteStatement deeper) s (Built env s) := by
  refine withoutVirtual_built (fun s hs hkind => .look_bind ?_) hs hkind
  have hfrom : Passes env (expectKeyword .from) := .of_agree fun _ S => S.expectKeyword .from
  have hrange : Passes env (rangeDeclaration true) := .of_agree fun _ S => S.rangeDeclaration true
  refine (advance_moves h hs hkind).bind fun _ a ⟨ha, hmoved⟩ => ?_
  refine (hfrom a ha.inside).bind fun _ b hb => ?_
  refine (hrange b hb.inside).bind fun range c hc => ?_
  refine (Ends.pushFrom _ _ c hc.inside).bind fun delete d ⟨hpush, hid, hspan⟩ => ?_
  have hafter := (hb.trans hc).trans hpush
  have hdelete : Laid env s [delete] d := .single h (ha.trans hafter) hid hspan fun _ =>
    Nat.lt_of_lt_of_le hmoved hafter.position_le
  refine hdelete.bind (conditionClause?_lays h hd _ _) fun whereClause e he => ?_
  exact he.pushFrom rfl _

/-- **A statement that is read without problems** is built from clauses side by side. -/
theorem statement?_built (rule : String) (hs : s.position ≤ env.tokens.size - 1) :
    After env (statement? deeper rule) s fun statement t => t.draft.problems = [] →
      ∃ id, statement = some id ∧ Built env s id t := by
  have hfound : ∀ {p : Parser NodeId}, After env p s (Built env s) →
      After env (some <$> p) s fun statement t => t.draft.problems = [] →
        ∃ id, statement = some id ∧ Built env s id t := fun hp =>
    .map (hp.mono fun id _ hid _ => ⟨id, rfl, hid⟩)
  refine .look_bind ?_
  have hconstruct : ∀ construct?, (construct? ≠ none → (s.stream env).kind ≠ .eof) →
      After env (statementOf deeper construct?) s fun statement t => t.draft.problems = [] →
        ∃ id, statement = some id ∧ Built env s id t := by
    intro construct? hkind
    unfold statementOf
    split
    · exact hfound (selectStatement_built h hd hs)
    · exact hfound (simpleSelect_built h hd hs (hkind (by simp)))
    · exact hfound (updateStatement_built h hd hs (hkind (by simp)))
    · exact hfound (deleteStatement_built h hd hs (hkind (by simp)))
    · refine .read_bind (.look_bind (.modify_bind (.pure fun hclean => ?_)))
      exact absurd hclean (by simp [State.draft])
  split
  · next trigger htrigger =>
    refine (After.dispatch rule _).bind fun construct? t ht => ?_
    rw [ht]
    refine hconstruct construct? fun _ heof => ?_
    rw [show (s.stream env).kind = _ from heof] at htrigger
    cases htrigger
  · exact hconstruct none fun hne => absurd rfl hne

end

/-! ## Whole texts -/

/-- Text that is left over is a problem. -/
theorem trailingText_clean :
    After env trailingText s fun leftover t => t.draft.problems = [] →
      leftover = none ∧ t = s ∧ (s.stream env).kind = .eof := by
  refine .look_bind ?_
  split
  · next hend => exact .pure fun _ => ⟨rfl, rfl, eq_of_beq hend⟩
  · refine .read_bind (.look_bind ((After.step _).bind fun _ t _ => ?_))
    refine (After.pushUnknown _ _ _ _).bind ?_
    rintro _ _ ⟨rfl, rfl⟩
    exact .pure fun hclean => absurd hclean (Draft.record_problems_ne_nil _ _)

/-- **A text without problems is a statement whose clauses stand side by side**, from the first token up
to the end. -/
theorem query_tiles (h : env.InOrder) {deeper : Deeper} (hd : deeper.Steady env) {rule : String}
    (hrule : rule = RuleId.statement ∨ rule = RuleId.subquery) :
    After env (query deeper rule) .initial fun root t => t.draft.problems = [] →
      ∃ id, t.draft.kind root = .query (some id) none ∧
        Tiles env t.draft.span 0 (t.draft.kind id).children (env.tokens.size - 1) := by
  have hstart : start? deeper rule = statement? deeper rule := if_pos (by
    rcases hrule with rfl | rfl <;> rfl)
  have hinitial : State.initial.position ≤ env.tokens.size - 1 := Nat.zero_le _
  have hpasses : Passes env (statement? deeper rule) := .of_agree fun _ S => S.statement? (hd _ S) _
  unfold query
  rw [hstart]
  refine ((hpasses _ hinitial).and (statement?_built h hd rule hinitial)).bind
    fun statement a ⟨ha, hbuilt⟩ => ?_
  refine (trailingText_clean).bind fun leftover b hb => .read_bind ?_
  refine (After.push _ _).mono ?_
  rintro _ _ ⟨rfl, rfl⟩ hclean
  obtain ⟨rfl, rfl, hend⟩ := hb hclean
  obtain ⟨id, rfl, hid, hlaid⟩ := hbuilt hclean
  have hlt := h.lt_size ha.inside
  have hcurrent : (b.stream env).current = env.tokens[b.position] := Env.InOrder.current_eq hlt
  rw [TokenStream.kind, hcurrent] at hend
  have hlast := (h.eof_iff hlt).1.mp hend
  have htiles := hlaid.tiles hclean
  rw [show b.position = env.tokens.size - 1 by omega] at htiles
  refine ⟨id, Draft.kind_push _ _ _, ?_⟩
  show Tiles env (b.draft.push _ _).span 0 ((b.draft.push _ _).kind id).children _
  rw [(b.draft.grows_push _ _).kind_eq id hid]
  exact htiles.congr fun child hchild => Draft.span_push_of_lt _ _ _ (hlaid.lt_size child hchild)

end Jpql.Parse
