import Jpql.Proofs.Print.Condition
import Jpql.Proofs.Reader.Select

/-! # Printing and reading again

An expression that is written out is read back from its text: the reader reports nothing, leaves nothing
over, and builds the expression.

What opens a level (parentheses, signs and negations) is read by the reader for one level less. So
there are two inductions: over the expression (`Expression.WrittenOut.readable`), for a given reader of
what is nested, and over the number of levels (`Parse.level_admits`), for that reader. They meet in
`parse_text`. -/

namespace Jpql

open Parse
open TokenKind (Stops)

variable {env : Env} {deeper : Deeper} {levels : Nat} {s : State} {rest : List Lexeme} {e : Expression}

/-! ## What opens a level -/

/-- **The construct that is handed on** to read an expression that opens a level. -/
inductive Parse.Nested.Opens : Nested → Expression → Prop
  | group (e : Expression) : Nested.group.Opens (.group e)
  | sign (negative : Bool) (e : Expression) : (Nested.sign negative).Opens (.sign negative e)
  | negation (rule : String) (e : Expression) (h : Accepts rule) :
      (Nested.negation rule).Opens (.not e)

/-- **Nested constructs are read** that open at most this many levels. -/
def Parse.Deeper.Admits (env : Env) (deeper : Deeper) (levels : Nat) : Prop :=
  ∀ construct e, Nested.Opens construct e → e.WrittenOut → e.depth ≤ levels → ∀ s rest,
    Stops e.strength (headKind rest) → s.Ahead env (e.lexemes ++ rest) →
    Reads env (deeper construct) s rest fun id d => Represents d.kind id e

namespace Expression

/-- **An expression is read at every level that is not tighter than itself**, alone and as the start of
a chain. -/
structure Readable (env : Env) (deeper : Deeper) (e : Expression) : Prop where
  isReadAt : ∀ k ≤ e.strength, e.IsReadAt env deeper k
  opens : ∀ k ≤ e.strength, isBinary k = true → e.Opens env deeper k

/-- What is read at its own level is read at every looser one. -/
theorem IsReadAt.of_le {m n : Nat} (hw : e.WrittenOut) (h : e.IsReadAt env deeper n)
    (hn : n ≤ e.strength) (hmn : m ≤ n) : e.IsReadAt env deeper m := by
  induction hmn using Nat.decreasingInduction with
  | self => exact h
  | of_succ k hk ih => exact ih.lower hw (Nat.lt_of_lt_of_le hk hn)

theorem Readable.of_opens (hw : e.WrittenOut) (hbinary : isBinary e.strength = true)
    (h : e.Opens env deeper e.strength) : Readable env deeper e := by
  have hread : ∀ k ≤ e.strength, e.IsReadAt env deeper k :=
    fun k hk => (h.isReadAt hbinary).of_le hw (Nat.le_refl _) hk
  refine ⟨hread, fun k hk hbinary' => ?_⟩
  rcases Nat.lt_or_eq_of_le hk with hlt | rfl
  · exact (hread (k + 1) hlt).opens hbinary'
  · exact h

theorem Readable.of_isReadAt (hw : e.WrittenOut) (hbinary : isBinary e.strength = false)
    (h : e.IsReadAt env deeper e.strength) : Readable env deeper e := by
  have hread : ∀ k ≤ e.strength, e.IsReadAt env deeper k :=
    fun k hk => h.of_le hw (Nat.le_refl _) hk
  refine ⟨hread, fun k hk hbinary' => ?_⟩
  rcases Nat.lt_or_eq_of_le hk with hlt | rfl
  · exact (hread (k + 1) hlt).opens hbinary'
  · exact absurd (hbinary'.symm.trans hbinary) (by decide)

/-! ## Expressions without operands -/

/-- What the grammar builds from the first token is read as a primary expression. -/
theorem isReadAt_primary (hgrammar : env.grammar = .standard) (trigger : Trigger)
    (construct : Construct) {w : Lexeme} {ws : List Lexeme} (hlexemes : e.lexemes = w :: ws)
    (hkind : w.kind.keyword? = none) (htrigger : Trigger.ofKind? w.kind = some trigger)
    (hbasic : (trigger, construct) ∈ basics)
    (h : ∀ s rest, Stops 7 (headKind rest) → s.Ahead env (w :: (ws ++ rest)) →
      Reads env (build deeper construct) s rest fun id d => Represents d.kind id e) :
    e.IsReadAt env deeper 7 := by
  intro s rest rule hrule hstop hs
  rw [hlexemes, List.cons_append] at hs
  refine Reads.primary hgrammar hrule hbasic ?_ (h s rest hstop hs)
  unfold trigger?
  rw [hs.kind, headKind]
  split
  · next word heq =>
    rw [heq] at hkind
    cases hkind
  · exact htrigger

theorem isReadAt_name (hgrammar : env.grammar = .standard) (name : Name) :
    (Expression.name name).IsReadAt env deeper 7 := by
  refine isReadAt_primary hgrammar .identifier .path rfl rfl rfl (by decide) fun s rest hstop hs => ?_
  have hahead : s.Ahead env (Lexeme.name name :: (Lexeme.dotted [] ++ (Lexeme.trailing false ++ rest))) :=
    hs
  refine (Reads.pathOrVariable hahead (hstop.ne rfl (Nat.le_refl 7))).mono fun id d _ h => ?_
  exact .name h.2

theorem isReadAt_path (hgrammar : env.grammar = .standard) (root : Name) (segment : Word)
    (segments : List Word) : (path root segment segments).IsReadAt env deeper 7 := by
  refine isReadAt_primary hgrammar .identifier .path rfl rfl rfl (by decide) fun s rest hstop hs => ?_
  have hahead : s.Ahead env (Lexeme.name root ::
      (Lexeme.dotted (segment :: segments) ++ (Lexeme.trailing false ++ rest))) := hs
  refine (Reads.pathOrVariable hahead (hstop.ne rfl (Nat.le_refl 7))).mono fun id d _ h => ?_
  exact .path h.2

theorem isReadAt_number (hgrammar : env.grammar = .standard) (numeral : Numeral) :
    (number numeral).IsReadAt env deeper 7 := by
  obtain ⟨text, hkind⟩ := Scan.numberKind_cases numeral.text.toList
  refine isReadAt_primary hgrammar .number .number rfl ?_ ?_ (by decide) fun s rest hstop hs => ?_
  · show (Scan.numberKind numeral.text.toList).keyword? = none
    rcases hkind with h | h <;> rw [h] <;> rfl
  · show Trigger.ofKind? (Scan.numberKind numeral.text.toList) = some .number
    rcases hkind with h | h <;> rw [h] <;> rfl
  · refine Reads.look_bind ((Reads.leaf _ hs).mono fun id d _ h => ?_)
    rw [hs.currentText] at h
    exact .number (h.trans (congrArg _ String.ofList_toList))

theorem isReadAt_string (hgrammar : env.grammar = .standard) (value : String) :
    (Expression.string value).IsReadAt env deeper 7 := by
  refine isReadAt_primary hgrammar .string .string rfl rfl rfl (by decide) fun s rest hstop hs => ?_
  refine Reads.look_bind ?_
  rw [hs.kind]
  exact (Reads.leaf _ hs).mono fun id d _ h => .string h

theorem isReadAt_parameter (hgrammar : env.grammar = .standard) (p : Parameter) :
    (Expression.parameter p).IsReadAt env deeper 7 := by
  cases p with
  | positional name isNumber =>
    refine isReadAt_primary hgrammar .parameter .parameter rfl rfl rfl (by decide)
      fun s rest hstop hs => ?_
    refine Reads.look_bind ?_
    rw [hs.kind]
    exact (Reads.leaf _ hs).mono fun id d _ h => .parameter h
  | named name =>
    refine isReadAt_primary hgrammar .parameter .parameter rfl rfl rfl (by decide)
      fun s rest hstop hs => ?_
    refine Reads.look_bind ?_
    rw [hs.kind]
    exact (Reads.leaf _ hs).mono fun id d _ h => .parameter h

/-- The words of literals are reserved, so they are no names. -/
theorem isReadAt_wordLiteral (hgrammar : env.grammar = .standard) (literal : WordLiteral) :
    (Expression.wordLiteral literal).IsReadAt env deeper 7 := by
  intro s rest rule hrule hstop hs
  have hahead : s.Ahead env (Lexeme.keyword literal.word :: rest) := hs
  have hliteral : Parse.wordLiteral (.keyword literal.word) = literal := by cases literal <;> rfl
  have htrigger : trigger? (s.stream env) = some (.keyword literal.word) := by
    unfold trigger?
    rw [hahead.kind]
    cases literal <;> rfl
  have hbasic : (.keyword literal.word, .wordLiteral) ∈ basics := by cases literal <;> decide
  refine Reads.primary hgrammar hrule hbasic htrigger (Reads.look_bind ?_)
  refine (Reads.leaf _ hahead).mono fun id d _ h => .wordLiteral (h.trans ?_)
  rw [hahead.kind]
  exact congrArg _ hliteral

/-! ## Expressions with operands -/

theorem operatorAt_arithmetic (operation : Arithmetic) {ws : List Lexeme}
    (hs : s.Ahead env (operation.lexeme :: ws)) :
    Reads env (operatorAt operation.strength) s ws fun found d =>
      found = some (.arithmetic operation) ∧ d = s.draft := by
  have hfound : ∀ {t : State}, Reached env s t ws → t.draft = s.draft →
      Reads env (return some (NodeKind.arithmetic operation)) t ws fun found d =>
        found = some (.arithmetic operation) ∧ d = s.draft :=
    fun ht hdraft => Reads.pure ht.ahead ⟨rfl, hdraft⟩
  cases operation with
  | add => exact Reads.consume_hit_bind hs rfl fun t ht hdraft => hfound ht hdraft
  | subtract =>
    refine Reads.consume_miss_bind hs (by decide : TokenKind.minus ≠ .plus) ?_
    exact Reads.consume_hit_bind hs rfl fun t ht hdraft => hfound ht hdraft
  | multiply => exact Reads.consume_hit_bind hs rfl fun t ht hdraft => hfound ht hdraft
  | divide =>
    refine Reads.consume_miss_bind hs (by decide : TokenKind.slash ≠ .star) ?_
    exact Reads.consume_hit_bind hs rfl fun t ht hdraft => hfound ht hdraft

theorem operatorAt_logical (connective : Connective) {ws : List Lexeme}
    (hs : s.Ahead env (Lexeme.keyword connective.word :: ws)) :
    Reads env (operatorAt connective.strength) s ws fun found d =>
      found = some (.logical connective) ∧ d = s.draft := by
  cases connective with
  | and => exact Reads.consume_hit_bind hs rfl fun t ht hdraft => Reads.pure ht.ahead ⟨rfl, hdraft⟩
  | or => exact Reads.consume_hit_bind hs rfl fun t ht hdraft => Reads.pure ht.ahead ⟨rfl, hdraft⟩

theorem arithmetic_strength (operation : Arithmetic) :
    isBinary operation.strength = true ∧
      operation.lexeme.kind.follow? = some operation.strength := by
  cases operation <;> exact ⟨rfl, rfl⟩

theorem connective_strength (connective : Connective) :
    isBinary connective.strength = true ∧
      (Lexeme.keyword connective.word).kind.follow? = some connective.strength := by
  cases connective <;> exact ⟨rfl, rfl⟩

/-- Parentheses are a primary expression. -/
theorem isReadAt_group (hgrammar : env.grammar = .standard) (hd : deeper.Admits env levels)
    (hw : (group e).WrittenOut) (hdepth : (group e).depth ≤ levels) :
    (group e).IsReadAt env deeper 7 :=
  isReadAt_primary hgrammar .openParen .group rfl rfl rfl (by decide) fun s rest hstop hs =>
    hd _ _ (.group e) hw hdepth s rest hstop hs

theorem isReadAt_sign (hd : deeper.Admits env levels) {negative : Bool}
    (hw : (sign negative e).WrittenOut) (hdepth : (sign negative e).depth ≤ levels) :
    (sign negative e).IsReadAt env deeper 6 := by
  intro s rest rule _ hstop hs
  refine Reads.look_bind ?_
  rw [hs.kind]
  have hread := hd _ _ (.sign negative e) hw hdepth s rest hstop hs
  cases negative with
  | true => exact hread
  | false => exact hread

theorem isReadAt_not (hd : deeper.Admits env levels) (hw : (Expression.not e).WrittenOut)
    (hdepth : (Expression.not e).depth ≤ levels) : (Expression.not e).IsReadAt env deeper 2 := by
  intro s rest rule hrule hstop hs
  refine Reads.look_bind ?_
  rw [TokenStream.checkKeyword, hs.kind]
  exact hd _ _ (.negation rule e hrule) hw hdepth s rest hstop hs

/-! ## Every expression -/

/-- **Every expression that is written out is readable**, if the levels that it opens are. -/
theorem WrittenOut.readable (hgrammar : env.grammar = .standard) (hd : deeper.Admits env levels)
    (h : e.WrittenOut) (hdepth : e.depth ≤ levels) : e.Readable env deeper := by
  induction h with
  | name name => exact .of_isReadAt (.name name) rfl (isReadAt_name hgrammar name)
  | path root segment segments =>
    exact .of_isReadAt (.path root segment segments) rfl (isReadAt_path hgrammar _ _ _)
  | number numeral => exact .of_isReadAt (.number numeral) rfl (isReadAt_number hgrammar numeral)
  | string value => exact .of_isReadAt (.string value) rfl (isReadAt_string hgrammar value)
  | wordLiteral literal =>
    exact .of_isReadAt (.wordLiteral literal) rfl (isReadAt_wordLiteral hgrammar literal)
  | parameter p => exact .of_isReadAt (.parameter p) rfl (isReadAt_parameter hgrammar p)
  | group he _ => exact .of_isReadAt (.group he) rfl (isReadAt_group hgrammar hd (.group he) hdepth)
  | sign negative he hs _ =>
    exact .of_isReadAt (.sign negative he hs) rfl (isReadAt_sign hd (.sign negative he hs) hdepth)
  | not he hs _ => exact .of_isReadAt (.not he hs) rfl (isReadAt_not hd (.not he hs) hdepth)
  | arithmetic operation ha hb hsa hsb iha ihb =>
    obtain ⟨hda, hdb⟩ := Nat.max_le.1 hdepth
    obtain ⟨hbinary, hfollow⟩ := arithmetic_strength operation
    refine .of_opens (.arithmetic operation ha hb hsa hsb) hbinary ?_
    refine ((iha hda).opens _ hsa hbinary).operator ((ihb hdb).isReadAt _ hsb) hfollow
      (fun s ws hs => operatorAt_arithmetic operation hs) rfl ?_
    exact fun kindOf left right id hid hleft hright => .arithmetic hid hleft hright
  | logical connective ha hb hsa hsb iha ihb =>
    obtain ⟨hda, hdb⟩ := Nat.max_le.1 hdepth
    obtain ⟨hbinary, hfollow⟩ := connective_strength connective
    refine .of_opens (.logical connective ha hb hsa hsb) hbinary ?_
    refine ((iha hda).opens _ hsa hbinary).operator ((ihb hdb).isReadAt _ hsb) hfollow
      (fun s ws hs => operatorAt_logical connective hs) rfl ?_
    exact fun kindOf left right id hid hleft hright => .logical hid hleft hright
  | comparison operator ha hb hsa hsb iha ihb =>
    obtain ⟨hda, hdb⟩ := Nat.max_le.1 hdepth
    exact .of_isReadAt (.comparison operator ha hb hsa hsb) rfl
      (isReadAt_comparison operator ((iha hda).isReadAt _ hsa) ((ihb hdb).isReadAt _ hsb))
  | between negated he hl hu hse hsl hsu ihe ihl ihu =>
    obtain ⟨hde, hdmore⟩ := Nat.max_le.1 hdepth
    obtain ⟨hdl, hdu⟩ := Nat.max_le.1 hdmore
    exact .of_isReadAt (.between negated he hl hu hse hsl hsu) rfl
      (isReadAt_continued (.inl rfl) ((ihe hde).isReadAt _ hse) rfl
        (continuedBy_between ((ihl hdl).isReadAt _ hsl) ((ihu hdu).isReadAt _ hsu)))
  | like negated he hp hse hsp ihe ihp =>
    obtain ⟨hde, hdp⟩ := Nat.max_le.1 hdepth
    exact .of_isReadAt (.like negated he hp hse hsp) rfl
      (isReadAt_continued (.inr (.inl rfl)) ((ihe hde).isReadAt _ hse) rfl
        (continuedBy_like ((ihp hdp).isReadAt _ hsp)))
  | likeEscape negated he hp hc hse hsp hsc ihe ihp ihc =>
    obtain ⟨hde, hdmore⟩ := Nat.max_le.1 hdepth
    obtain ⟨hdp, hdc⟩ := Nat.max_le.1 hdmore
    exact .of_isReadAt (.likeEscape negated he hp hc hse hsp hsc) rfl
      (isReadAt_continued (.inr (.inl rfl)) ((ihe hde).isReadAt _ hse) rfl
        (continuedBy_likeEscape ((ihp hdp).isReadAt _ hsp) ((ihc hdc).isReadAt _ hsc)))
  | @inList e item items negated he hi hse hsi ihe ihi =>
    obtain ⟨hde, hditems⟩ := Nat.max_le.1 hdepth
    have hitem : ∀ x ∈ item :: items, x.IsReadAt env deeper 4 := fun x hx =>
      (ihi x hx (Nat.le_trans (depth_le_maxDepth hx) hditems)).isReadAt _ (hsi x hx)
    exact .of_isReadAt (.inList negated he hi hse hsi) rfl
      (isReadAt_continued (.inr (.inr (.inl rfl))) ((ihe hde).isReadAt _ hse) rfl
        (continuedBy_in (hi item List.mem_cons_self) hitem))
  | nullCheck negated he hse ihe =>
    exact .of_isReadAt (.nullCheck negated he hse) rfl
      (isReadAt_continued (.inr (.inr (.inr ⟨rfl, rfl⟩))) ((ihe hdepth).isReadAt _ hse) rfl
        continuedBy_is)

end Expression

/-! ## Levels -/

namespace Parse

/-- Between parentheses there is a condition of any strength. -/
theorem group_reads (hw : e.WrittenOut) (h : e.IsReadAt env deeper 0)
    (hs : s.Ahead env ((Expression.group e).lexemes ++ rest)) :
    Reads env (group deeper) s rest fun id d => Represents d.kind id (.group e) := by
  rw [Expression.lexemes, List.cons_append, List.append_assoc] at hs
  refine Reads.look_bind ((Reads.advance hs).bind fun _ t ht _ => Reads.look_bind ?_)
  rw [hw.not_select ht.ahead]
  have hparen : Stops 0 (headKind (Lexeme.rightParen :: rest)) := .of_none rfl
  refine (h t _ _ accepts_conditional hparen ht.ahead).bind fun child u hu hchild => ?_
  refine (Reads.discard_expect hu.ahead rfl).bind fun _ v hv _ => ?_
  exact Reads.pushFrom_makes hv.ahead (fun after id hafter hid =>
    .group hid (hchild.grows (hv.grows.trans hafter))) _

theorem signed_reads {negative : Bool} (h : e.IsReadAt env deeper 6) (hstop : Stops 6 (headKind rest))
    (hs : s.Ahead env ((Expression.sign negative e).lexemes ++ rest)) :
    Reads env (signed deeper negative) s rest fun id d => Represents d.kind id (.sign negative e) := by
  refine Reads.look_bind ((Reads.advance hs).bind fun _ t ht _ => ?_)
  refine (h t rest _ accepts_scalar hstop ht.ahead).bind fun child u hu hchild => ?_
  exact Reads.pushFrom_makes hu.ahead (fun after id hafter hid => .sign hid (hchild.grows hafter)) _

theorem negation_reads {rule : String} (hrule : Accepts rule) (hw : e.WrittenOut)
    (h : e.IsReadAt env deeper 2) (hstop : Stops 2 (headKind rest))
    (hs : s.Ahead env ((Expression.not e).lexemes ++ rest)) :
    Reads env (negation deeper rule) s rest fun id d => Represents d.kind id (.not e) := by
  refine Reads.look_bind ((Reads.advance hs).bind fun _ t ht _ => ?_)
  -- `NOT EXISTS` is a construct of its own, but no expression starts with `EXISTS`
  obtain ⟨w, ws, hlexemes, hhead⟩ := hw.exists_head
  have hexists : headKind (e.lexemes ++ rest) ≠ .keyword .exists := by
    rw [hlexemes]
    exact hhead.not_exists
  refine Reads.consume_miss_bind ht.ahead hexists ?_
  refine (h t rest _ hrule hstop ht.ahead).bind fun child u hu hchild => ?_
  exact Reads.pushFrom_makes hu.ahead (fun after id hafter hid => .not hid (hchild.grows hafter)) _

/-- **The reader for a number of levels reads what opens at most as many.** -/
theorem level_admits (hgrammar : env.grammar = .standard) (levels : Nat) :
    (level levels).Admits env levels := by
  induction levels with
  | zero =>
    intro construct e hopens _ hdepth
    cases hopens <;> cases hdepth
  | succ levels ih =>
    intro construct e hopens hw hdepth s rest hstop hs
    -- what is nested opens one level less, and is read by the reader for one level less
    cases hopens with
    | group e =>
      cases hw with
      | group he =>
        have hread := he.readable hgrammar ih (Nat.le_of_succ_le_succ hdepth)
        exact group_reads he (hread.isReadAt 0 (Nat.zero_le _)) hs
    | sign negative e =>
      cases hw with
      | sign _ he hstrength =>
        have hread := he.readable hgrammar ih (Nat.le_of_succ_le_succ hdepth)
        exact signed_reads (hread.isReadAt 6 hstrength) hstop hs
    | negation rule e hrule =>
      cases hw with
      | not he hstrength =>
        have hread := he.readable hgrammar ih (Nat.le_of_succ_le_succ hdepth)
        exact negation_reads hrule he (hread.isReadAt 2 hstrength) hstop hs

/-- **The query of an expression** has that expression as its statement, and nothing behind it. -/
theorem query_reads (hgrammar : env.grammar = .standard) (hw : e.WrittenOut) (hdepth : e.depth ≤ levels)
    (hs : s.Ahead env e.lexemes) : Reads env (query (level levels) RuleId.conditional) s []
      fun root d => ∃ id, d.kind root = .query (some id) none ∧ Represents d.kind id e := by
  have hread := hw.readable hgrammar (level_admits hgrammar levels) hdepth
  refine Reads.query (fun id a b hg h => h.grows hg) ?_
  refine (hread.isReadAt 0 (Nat.zero_le _) s [] _ accepts_conditional (.of_none rfl) ?_).map
    fun id d hid => ⟨id, rfl, hid⟩
  rw [List.append_nil]
  exact hs

end Parse

/-- **Printing and reading again is the identity on expressions.** The text of an expression that is
written out, read as a condition, gives no problem and a tree whose statement is the expression, with
nothing behind it, if the levels that the expression opens are allowed. -/
theorem parse_text {maxDepth : Nat} (hw : e.WrittenOut) (hdepth : e.depth ≤ maxDepth) :
    ∃ parsed id, parse e.text RuleId.conditional maxDepth = .ok parsed ∧ parsed.problems = [] ∧
      parsed.tree.kind parsed.tree.root = .query (some id) none ∧
      Represents parsed.tree.kind id e := by
  obtain ⟨tokens, stop, htokens, hshows⟩ := tokenize_spaced (Expression.isRead_lexemes hw)
  obtain ⟨root, state, hrun, hparse⟩ := parse_run e.text RuleId.conditional maxDepth
    (by decide +kernel)
  have hahead : State.initial.Ahead
      ⟨e.text, (tokenize e.text).tokens.toArray, .standard, maxDepth⟩ e.lexemes :=
    ⟨⟨[], tokens, stop, congrArg (fun lexed => lexed.tokens.toArray) htokens, rfl, hshows⟩, rfl⟩
  obtain ⟨hreached, id, hroot, hid⟩ := (query_reads rfl hw hdepth hahead).of_eq hrun
  have hlexical : (tokenize e.text).problems = [] := congrArg Lexed.problems htokens
  refine ⟨_, id, hparse, ?_, ?_, ?_⟩
  · show (tokenize e.text).problems ++ state.problems.map (·.anchoredAt root) = []
    rw [hlexical, hreached.problems]
    rfl
  · rw [Tree.kind_finish]
    exact hroot
  · rw [funext (Tree.kind_finish state.builder e.text root)]
    exact hid

/-- An expression in which `NOT` and `AND` have two meanings each, and a keyword is a segment. -/
def Expression.sample : Expression :=
  .logical .and
    (.not (.group (.logical .or
      (.between (.path ⟨⟨"a", by decide⟩, by decide⟩ ⟨"order", by decide⟩ []) true
        (.sign true (.number ⟨"1.5", by decide⟩)) (.parameter (.named ⟨"p", by decide⟩)))
      (.likeEscape (.string "it's") false (.parameter (.positional "1" (by decide))) (.string "!")))))
    (.inList (.arithmetic .add (.arithmetic .multiply (.name ⟨⟨"b", by decide⟩, by decide⟩)
      (.number ⟨"2", by decide⟩)) (.number ⟨"3", by decide⟩)) false (.wordLiteral .true)
        [.wordLiteral .null])

theorem parse_text_sample :
    Expression.sample.text = "NOT ( a . order NOT BETWEEN - 1.5 AND :p OR 'it''s' LIKE ?1 " ++
      "ESCAPE '!' ) AND b * 2 + 3 IN ( TRUE , NULL )" ∧
    Expression.sample.WrittenOut ∧ Expression.sample.depth ≤ 3 ∧
    ∃ parsed id, parse Expression.sample.text RuleId.conditional 3 = .ok parsed ∧
      parsed.problems = [] ∧ parsed.tree.kind parsed.tree.root = .query (some id) none ∧
      Represents parsed.tree.kind id Expression.sample := by
  have hitems : ∀ x ∈ [Expression.wordLiteral .true, .wordLiteral .null], x.WrittenOut := by
    simp [Expression.WrittenOut.wordLiteral]
  have hw : Expression.sample.WrittenOut := by
    refine .logical .and (.not (.group (.logical .or ?_ ?_ ?_ ?_)) ?_) ?_ ?_ ?_
    · exact .between true (.path _ _ _) (.sign true (.number _) (by decide)) (.parameter _) (by decide)
        (by decide) (by decide)
    · exact .likeEscape false (.string _) (.parameter _) (.string _) (by decide) (by decide) (by decide)
    · decide
    · decide
    · decide
    · refine .inList false (.arithmetic .add (.arithmetic .multiply (.name _) (.number _) ?_ ?_)
        (.number _) ?_ ?_) hitems ?_ ?_
      all_goals decide
    · decide
    · decide
  have hdepth : Expression.sample.depth ≤ 3 := by decide
  exact ⟨by decide, hw, hdepth, parse_text hw hdepth⟩

end Jpql
