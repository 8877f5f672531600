import Jpql.Proofs.Progress.Query
import Jpql.Proofs.Scope.Binding
import Jpql.Proofs.Token.Alone

/-! # Two lookups of a name

Whether a name is declared is asked in two ways: of a table, by upper case (`DeclaredVariables.contains`), and
of the declarations one by one, up to the case of ASCII letters (`Declaration.declares`). The upper case of
other letters can be an ASCII letter, so in general the answers differ. But words are made of ASCII
characters, and variables have no names but those that words spell (`parse_variables`): for an ASCII name both
lookups give one answer in every tree that was read (`parse_lookups_agree`). -/

namespace Jpql

/-! ## Words -/

namespace Text

/-- All characters of the text are ASCII. -/
def IsAscii (text : String) : Prop := ∀ c ∈ text.toList, c.toNat < 128

instance (text : String) : Decidable (IsAscii text) :=
  inferInstanceAs (Decidable (∀ c ∈ text.toList, c.toNat < 128))

/-- What holds of all ASCII characters can be tried out. -/
theorem forall_ascii {p : Char → Prop} (h : ∀ n < 128, p (Char.ofNat n)) {c : Char}
    (hc : c.toNat < 128) : p c := by
  have hp := h c.toNat hc
  rwa [Char.ofNat_toNat] at hp

theorem IsAscii.asciiLower {text : String} (h : IsAscii text) : IsAscii (asciiLower text) := by
  intro c hc
  rw [Text.asciiLower, String.toList_ofList] at hc
  obtain ⟨d, hd, rfl⟩ := List.mem_map.mp hc
  exact forall_ascii (p := fun c => c.toLower.toNat < 128) (by decide) (h d hd)

/-- **ASCII words have one upper case if and only if they are the same up to case.** -/
theorem sameWord_iff_upperCase {a b : String} (ha : IsAscii a) (hb : IsAscii b) :
    sameWord a b = true ↔ upperCase a = upperCase b := by
  refine ⟨upperCase_eq_of_sameWord, fun hupper => ?_⟩
  have hlower : ∀ {text : String}, IsAscii text →
      text.toList.map Char.toLower = (text.toList.map Char.toUpper).map Char.toLower := fun h => by
    rw [List.map_map]
    exact List.map_congr_left fun c hc =>
      forall_ascii (p := fun c => c.toLower = c.toUpper.toLower) (by decide) (h c hc)
  rw [sameWord_iff, hlower ha, hlower hb, ← toList_upperCase_of_ascii ha, ← toList_upperCase_of_ascii hb,
    hupper]

end Text

namespace Scan

/-- **What is found as a word is one**: it is made of the characters of words, and its kind is that of the
word. -/
theorem word_of_lexeme? {cs : List Char} {kind : TokenKind} {n : Nat}
    (h : lexeme? cs = some (kind, n)) (hword : kind.isWord = true) :
    (∀ c ∈ cs.take n, isWordPart c = true) ∧ kind = wordKind (String.ofList (cs.take n)) := by
  rcases cs with _ | ⟨c, body⟩
  · cases h
  by_cases hquote : c = '\''
  · subst hquote
    obtain ⟨_, -, heq⟩ := Option.map_eq_some_iff.mp h
    cases heq
    cases hword
  by_cases hmark : c = '?'
  · subst hmark
    rw [lexeme?] at h
    split at h <;> cases h
    cases hword
  by_cases hcolon : c = ':'
  · subst hcolon
    rw [lexeme?] at h
    split at h <;> cases h
    cases hword
  rw [lexeme?_plain hquote hmark hcolon] at h
  split at h
  · next m hm =>
    cases h
    obtain ⟨d, tail, htake, hstart, hparts⟩ := exists_word hm
    refine ⟨?_, rfl⟩
    rw [htake]
    rintro e (_ | ⟨_, he⟩)
    · simp [isWordPart, hstart]
    · exact hparts e he
  · split at h
    · cases h
      cases hword
    · cases h
      cases hword
    · unfold symbol? at h
      split at h <;> cases h <;> cases hword

end Scan

/-- **A word of a text is ASCII**, and an identifier is spelled as its name. -/
theorem tokenize_word {source : String} {token : Token} (hmem : token ∈ (tokenize source).tokens)
    (hword : token.kind.isWord = true) : Text.IsAscii (token.text source) ∧
      ∀ name, token.kind = .identifier name → name = token.text source := by
  have heof : token.kind ≠ .eof := fun hend => by
    rw [hend] at hword
    cases hword
  have hread := lexeme_isRead (List.mem_filter.mpr ⟨hmem, decide_eq_true heof⟩)
  obtain ⟨hparts, hkind⟩ := Scan.word_of_lexeme? hread hword
  have htext : (token.lexeme source).chars.take (token.lexeme source).chars.length =
      (token.text source).toList := List.take_length
  rw [htext] at hparts hkind
  rw [String.ofList_toList] at hkind
  refine ⟨fun c hc => Scan.toNat_lt_of_isWordPart (hparts c hc), fun name hname => ?_⟩
  have hsame : Scan.wordKind (token.text source) = .identifier name := hkind.symm.trans hname
  unfold Scan.wordKind at hsame
  split at hsame <;> cases hsame
  rfl

namespace Parse

/-- **The surroundings in which a text is read**: its words are ASCII. -/
theorem Env.regular_tokenize (source : String) (maxDepth : Nat) :
    Env.Regular ⟨source, (tokenize source).tokens.toArray, .standard, maxDepth⟩ Text.IsAscii := by
  have hword : ∀ token ∈ (tokenize source).tokens.toArray, token.kind.isWord = true →
      Text.IsAscii (token.text source) ∧
        ∀ name, token.kind = .identifier name → name = token.text source :=
    fun token hmem => tokenize_word (List.mem_toArray.mp hmem)
  refine ⟨rfl, ?_, fun token hmem name hkind => ?_, fun token hmem hkind => (hword token hmem hkind).1,
    fun _ => Text.IsAscii.asciiLower⟩
  · rw [tokens_eq_words]
    simp
  · obtain ⟨hascii, hname⟩ := hword token hmem (by rw [hkind]; rfl)
    rw [hname name hkind]
    exact hascii

end Parse

/-- **The variables of a tree that was read have ASCII names.** -/
theorem parse_variables (source rule : String) (maxDepth : Nat)
    (hrule : (Grammar.standard.rule? rule).isSome = true) :
    ∃ parsed, parse source rule maxDepth = .ok parsed ∧
      ∀ id name, parsed.tree.IsNamed id name → Text.IsAscii name := by
  obtain ⟨root, state, hrun, hparse⟩ := parse_run source rule maxDepth hrule
  have hproceeds := Parse.proceeds_query
    (Parse.level_proceeding (Parse.Env.regular_tokenize source maxDepth) maxDepth) hrule
  have hinitial : Parse.Arrived ⟨source, (tokenize source).tokens.toArray, .standard, maxDepth⟩
      Text.IsAscii 0 .initial :=
    ⟨⟨fun _ _ h => (nomatch h), fun _ h => (nomatch h)⟩, Nat.le_refl _, Nat.zero_le _⟩
  obtain ⟨-, hnamed, -⟩ := (hproceeds 0 .initial hinitial).of_eq hrun
  refine ⟨_, hparse, fun id name hname => ?_⟩
  obtain ⟨isVirtual, behind, hkind⟩ := hname
  rw [Tree.kind_finish] at hkind
  refine hnamed.nodes id name ?_
  rw [show state.draft.kind id = _ from hkind]
  rfl

/-! ## Scopes -/

/-- The names of results are those of nodes. -/
theorem Scope.isNamed_of_mem_results {tree : Tree} {statement node : NodeId} {name : String}
    (h : (name, node) ∈ (ofStatement tree statement).results) : tree.IsNamed node name := by
  have hselect : ∀ select, (name, node) ∈ tree.resultNames select → tree.IsNamed node name := by
    intro select hmem
    unfold Tree.resultNames at hmem
    split at hmem
    · obtain ⟨item, -, hitem⟩ := List.mem_filterMap.mp hmem
      unfold Tree.resultName? at hitem
      split at hitem
      · obtain ⟨other, hother, hpair⟩ := Option.bind_eq_some_iff.mp hitem
        cases hpair
        exact Tree.variableName?_eq_some.mp hother
      · cases hitem
    · cases hmem
  unfold ofStatement at h
  split at h
  · exact hselect _ h
  · exact hselect _ h
  · cases h
  · cases h
  · cases h

namespace QueryContext

variable {context : QueryContext} {name : String}

/-- **Some scope declares the name**: a declaration by its own variable or by a join, or the name is that of
a result. -/
def Declares (context : QueryContext) (name : String) : Prop :=
  ∃ scope ∈ context.scopes, (∃ declaration ∈ scope.declarations, declaration.declares name = true) ∨
    ∃ result ∈ scope.results, Text.sameWord result.1 name = true

/-- All scopes are read off the tree of the context. -/
def Reads (context : QueryContext) : Prop :=
  ∀ scope ∈ context.scopes, ∃ statement, scope = .ofStatement context.tree statement

theorem reads_ofTree (tree : Tree) (metamodel : Metamodel) : (ofTree tree metamodel).Reads := by
  intro scope hscope
  exact ⟨statementOf tree, List.mem_singleton.mp hscope⟩

theorem Reads.enter (h : context.Reads) (subquery : NodeId) : (context.enter subquery).Reads := by
  intro scope hscope
  rcases List.mem_cons.mp hscope with rfl | hscope
  · exact ⟨subquery, rfl⟩
  · exact h scope hscope

/-- **Entering subqueries keeps the tree**, and reads the scopes off it. -/
theorem reads_foldl_enter (h : context.Reads) (subqueries : List NodeId) :
    (subqueries.foldl enter context).Reads ∧ (subqueries.foldl enter context).tree = context.tree := by
  induction subqueries generalizing context with
  | nil => exact ⟨h, rfl⟩
  | cons subquery subqueries ih => exact ih (h.enter subquery)

/-- **A name that a declaration declares is in the table.** -/
theorem contains_of_declares (h : context.Reads) (hdeclares : context.Declares name) :
    context.allVariables.contains name = true := by
  refine (Scope.contains_foldr _ _).mpr ?_
  obtain ⟨scope, hscope, ⟨declaration, hmem, hd⟩ | ⟨⟨other, node⟩, hmem, hsame⟩⟩ := hdeclares
  · obtain ⟨statement, rfl⟩ := h scope hscope
    obtain ⟨other, node, hname, hsame⟩ := (Scope.names_of_mem hmem).exists_name hd
    exact ⟨_, hscope, (other, node), List.mem_append_left _ (List.mem_flatMap.mpr ⟨declaration, hmem, hname⟩),
      Text.upperCase_eq_of_sameWord hsame⟩
  · exact ⟨scope, hscope, (other, node), List.mem_append_right _ hmem, Text.upperCase_eq_of_sameWord hsame⟩

/-- **A name that is bound is declared.** -/
theorem declares_of_binding? {binding : Binding} (h : context.binding? name = some binding) :
    context.Declares name := by
  obtain ⟨declaration, hfind, -⟩ := Option.bind_eq_some_iff.mp h
  obtain ⟨scope, hscope, hmem⟩ := List.mem_flatMap.mp (List.mem_of_find?_eq_some hfind)
  have hdeclares := List.find?_some hfind
  exact ⟨scope, hscope, .inl ⟨declaration, hmem, hdeclares⟩⟩

/-- A name with a type, or of a collection, is bound. -/
theorem binding?_of_resolved (h : (context.variableType? name).isSome = true ∨
    context.isCollectionVariable name = true) : ∃ binding, context.binding? name = some binding := by
  cases hbinding : context.binding? name with
  | some binding => exact ⟨binding, rfl⟩
  | none =>
    rcases h with h | h
    · rw [variableType?, resolutionLimit, variableTypeIn?, hbinding] at h
      cases h
    · rw [isCollectionVariable, hbinding] at h
      cases h

/-- **An ASCII name in the table is declared**, if the names of the tree are ASCII as well. -/
theorem declares_of_contains (h : context.Reads)
    (hnames : ∀ id other, context.tree.IsNamed id other → Text.IsAscii other) (hname : Text.IsAscii name)
    (hcontains : context.allVariables.contains name = true) : context.Declares name := by
  have hnamed : ∀ {node? : Option NodeId} {other : String}, context.tree.variableName? node? = some other →
      Text.upperCase other = Text.upperCase name → Text.sameWord other name = true := by
    intro node? other hother hupper
    cases node? with
    | none => cases hother
    | some node =>
      exact (Text.sameWord_iff_upperCase (hnames node other (Tree.variableName?_eq_some.mp hother))
        hname).mpr hupper
  obtain ⟨scope, hscope, ⟨other, node⟩, hentry, hupper⟩ := (Scope.contains_foldr _ _).mp hcontains
  obtain ⟨statement, rfl⟩ := h scope hscope
  refine ⟨_, hscope, ?_⟩
  rcases List.mem_append.mp hentry with hentry | hresult
  · obtain ⟨declaration, hmem, hentry⟩ := List.mem_flatMap.mp hentry
    have hread := Scope.names_of_mem hmem
    refine .inl ⟨declaration, hmem, Bool.or_eq_true_iff.mpr ?_⟩
    rcases Scope.mem_declarationNames.mp hentry with ⟨hown, -⟩ | ⟨join, hjoin, hown, -⟩
    · exact .inl (isNamed_iff.mpr ⟨other, hown, hnamed (hread.own ▸ hown) hupper⟩)
    · exact .inr (List.any_eq_true.mpr
        ⟨join, hjoin, isNamed_iff.mpr ⟨other, hown, hnamed (hread.joins join hjoin ▸ hown) hupper⟩⟩)
  · exact .inr ⟨(other, node), hresult,
      (Text.sameWord_iff_upperCase (hnames node other (Scope.isNamed_of_mem_results hresult)) hname).mpr
        hupper⟩

end QueryContext

/-- **The two lookups agree.** In every tree that was read, with any subqueries of it entered, an ASCII name is
in the table of all variables if and only if some scope declares it. So a name that has a managed type, or
is a variable of a collection, is in the table. -/
theorem parse_lookups_agree (source rule : String) (maxDepth : Nat) (metamodel : Metamodel)
    (hrule : (Grammar.standard.rule? rule).isSome = true) :
    ∃ parsed, parse source rule maxDepth = .ok parsed ∧ ∀ (subqueries : List NodeId) (name : String),
      Text.IsAscii name →
        let context := subqueries.foldl QueryContext.enter (.ofTree parsed.tree metamodel)
        (context.allVariables.contains name = true ↔ context.Declares name) ∧
          ((context.variableType? name).isSome = true ∨ context.isCollectionVariable name = true →
            context.allVariables.contains name = true) := by
  obtain ⟨parsed, hparse, hnames⟩ := parse_variables source rule maxDepth hrule
  refine ⟨parsed, hparse, fun subqueries name hname => ?_⟩
  obtain ⟨hreads, htree⟩ :=
    QueryContext.reads_foldl_enter (QueryContext.reads_ofTree parsed.tree metamodel) subqueries
  refine ⟨⟨QueryContext.declares_of_contains hreads (htree ▸ hnames) hname,
    QueryContext.contains_of_declares hreads⟩, fun hresolved => ?_⟩
  obtain ⟨binding, hbinding⟩ := QueryContext.binding?_of_resolved hresolved
  exact QueryContext.contains_of_declares hreads (QueryContext.declares_of_binding? hbinding)

/-- A join in a subquery, a collection around it and a result. -/
theorem parse_lookups_agree_subquery : ∃ parsed, parse
      "SELECT e.name AS n FROM Employee e, IN(e.phones) p WHERE EXISTS (SELECT t FROM e.tasks t JOIN t.parts q)"
        RuleId.statement 8 = .ok parsed ∧ ∀ (subqueries : List NodeId) (name : String),
      Text.IsAscii name →
        let context := subqueries.foldl QueryContext.enter (.ofTree parsed.tree ⟨[], []⟩)
        (context.allVariables.contains name = true ↔ context.Declares name) ∧
          ((context.variableType? name).isSome = true ∨ context.isCollectionVariable name = true →
            context.allVariables.contains name = true) :=
  parse_lookups_agree
    "SELECT e.name AS n FROM Employee e, IN(e.phones) p WHERE EXISTS (SELECT t FROM e.tasks t JOIN t.parts q)"
    RuleId.statement 8 ⟨[], []⟩ (Grammar.standard_registers (by simp))

end Jpql
