import Jpql.Proofs.Elide.Call
import Jpql.Proofs.Layout.Rewrite
import Jpql.Proofs.Reader.Query
import Jpql.Proofs.Tree.Order
import Mathlib.Data.List.Chain

/-! # Texts without some of their `AS`

Wherever `AS` introduces a variable it can be left out, with a space in its place: the text is still read
without problems, and into the same tree but for the flags that say whether `AS` is there
(`parse_without`). The one exception is a result that is called like a keyword, as in `e.name AS value`:
without its `AS` that is not read as a name (`parse_without_keyword`). -/

namespace Jpql

namespace Text

variable (source : String) (omits : Token → Bool)

/-- What is written for a token, or a space in place of it. -/
def unlessOmitted (token : Token) : String := if omits token then " " else token.text source

/-- **The text without some of its tokens.** Each of them is replaced by a space. -/
def without : String := rewritten source (unlessOmitted source omits)

end Text

/-- What is left of a token: itself or nothing. -/
def Token.unlessOmitted (source : String) (omits : Token → Bool) (token : Token) :
    List (TokenKind × String) :=
  if omits token then [] else [token.spelled source]

section

variable {source : String} {omits : Token → Bool}

/-- **What is left of a token can be read.** A space separates as any gap does. -/
theorem rewrites_unlessOmitted :
    Piece.Rewrites source (Text.unlessOmitted source omits) (Token.unlessOmitted source omits) := by
  intro p token hkind htext after hl gap lead hgap hlead qs hfit hresumes
  have hspace : ∀ c : Char, c = ' ' → Scan.isGap c = true := fun c hc => by rw [hc]; rfl
  rw [Text.unlessOmitted, Token.unlessOmitted]
  split
  · refine ⟨gap ++ ' ' :: lead, qs, by simp, ?_, hfit, rfl, ?_⟩
    · simpa [or_imp, forall_and] using ⟨hgap, hspace _ rfl, hlead⟩
    · exact ⟨gap, p.chars ++ after, ' ' :: _, rfl, by rw [List.append_assoc]; rfl,
        fun c hc => hspace c (Option.some.inj hc).symm⟩
  · refine ⟨gap, ⟨p.toLexeme, lead⟩ :: qs, ?_, hgap, .cons (hresumes.lexeme?_eq hl) hlead hfit, ?_,
      (hresumes.append p.chars).append gap⟩
    · rw [htext]
      simp [Piece.render]
    · rw [Token.spelled, hkind, htext]
      rfl

/-- **The text without some tokens has the other tokens.** -/
theorem tokenize_without (hclean : (tokenize source).problems = [])
    (hkept : ∀ token ∈ (tokenize source).tokens, omits token = true → token.kind ≠ .eof) :
    (tokenize (Text.without source omits)).problems = [] ∧
      (tokenize (Text.without source omits)).tokens.map (Token.spelled (Text.without source omits)) =
        ((tokenize source).tokens.filter (!omits ·)).map (Token.spelled source) := by
  have hrewrites : Piece.Rewrites source (Text.unlessOmitted source omits)
      (Token.unlessOmitted source omits) := rewrites_unlessOmitted
  have hlast : omits (Token.last source) = false := by
    obtain ⟨lead, ps, hsource, hlead, hps⟩ := Scan.exists_fit source.toList 0 hclean
    have hmem : Token.last source ∈ (tokenize source).tokens := by
      rw [tokenize_of_fit source hlead hps hsource]
      exact List.mem_append_right _ (List.mem_singleton_self _)
    exact Bool.eq_false_iff.mpr fun homits => hkept _ hmem homits rfl
  have hend : Text.unlessOmitted source omits (Token.last source) = "" := by
    rw [Text.unlessOmitted, hlast]
    exact Token.text_last source
  have hreads : Token.unlessOmitted source omits (Token.last source) = [(.eof, "")] := by
    rw [Token.unlessOmitted, hlast, Token.spelled, Token.text_last]
    rfl
  obtain ⟨hproblems, htokens⟩ := hrewrites.tokenize hend hreads hclean
  refine ⟨hproblems, htokens.trans ?_⟩
  generalize (tokenize source).tokens = tokens
  induction tokens with
  | nil => rfl
  | cons token tokens ih =>
    rw [List.flatMap_cons, ih, Token.unlessOmitted]
    cases homits : omits token <;> simp [homits]

end

/-! ## What can be left out -/

namespace Tree

variable (tree : Tree)

/-- **The node has an `AS` that introduces its variable**, and the token is the name of the variable. -/
def Introduces (name : Token) (id : NodeId) : Prop :=
  ∃ declared ∈ (tree.kind id).introduced?, (tree.span declared).start = name.span.start

instance (tree : Tree) (name : Token) (id : NodeId) : Decidable (tree.Introduces name id) :=
  inferInstanceAs (Decidable (∃ declared ∈ (tree.kind id).introduced?, _))

/-- **What is omitted is `AS` that introduces a variable**, by the name that is the next token. If that
names a result, it is no keyword. -/
structure CanOmit (omits : Token → Bool) : Prop where
  isAs : ∀ word ∈ (tokenize tree.source).tokens, omits word = true → word.kind = .keyword .as
  introduces : (tokenize tree.source).tokens.IsChain fun word name => omits word = true →
    ∃ id < tree.size, tree.Introduces name id ∧
      ((tree.kind id).isResult = true → name.kind.keyword? = none)

instance (tree : Tree) (omits : Token → Bool) : Decidable (tree.CanOmit omits) :=
  decidable_of_iff (_ ∧ _) ⟨fun h => ⟨h.1, h.2⟩, fun h => ⟨h.isAs, h.introduces⟩⟩

/-- **Trees that agree in all but places and `AS`.** -/
structure ButAs (a b : Tree) : Prop where
  root : a.root = b.root
  size : a.size = b.size
  kind : ∀ id, (a.kind id).ButAs (b.kind id)
  parent : ∀ id, a.parent? id = b.parent? id

end Tree

section

open Parse

variable {source rule : String} {maxDepth : Nat} {parsed : Parsed} {omits : Token → Bool}

/-- A text can be followed by itself. -/
def Elision.whole (source : String) (maxDepth : Nat) : Elision where
  left := textEnv source maxDepth
  right := textEnv source maxDepth
  omits := fun _ => false
  elided :=
    { inOrder := textEnv_inOrder source maxDepth
      tokens := congrArg _ (List.filter_eq_self.mpr fun _ _ => rfl).symm
      isAs := fun ⟨_, h⟩ => by cases h
      isNaming := fun ⟨_, h⟩ => by cases h
      grammarLeft := rfl
      grammarRight := rfl }

/-- **What can be omitted introduces a variable** at one of the nodes that were added. -/
theorem Tree.CanOmit.introduced {M : Elision} {state : State} {root : NodeId} {i : Nat}
    (hleft : M.left = textEnv source maxDepth) (hwf : (state.builder.finish source root).WellFormed)
    (hcan : (state.builder.finish source root).CanOmit omits) (homits : M.left.Omits omits i) :
    i + 1 < M.left.tokens.size ∧
      TokenStream.kind ⟨M.left.source, M.left.tokens, i⟩ = .keyword .as ∧ M.Introduced 0 state i := by
  obtain ⟨hi, homit⟩ := homits
  have htokens : (tokenize source).tokens = M.left.tokens.toList := by rw [hleft]; rfl
  obtain ⟨has, hchain⟩ := hcan
  change ∀ word ∈ (tokenize source).tokens, _ at has
  change (tokenize source).tokens.IsChain _ at hchain
  rw [htokens] at has hchain
  have hkind := has _ (Array.getElem_mem_toList hi) homit
  have hlt : i + 1 < M.left.tokens.size := M.elided.inOrder.succ_lt hi (by
    rw [TokenStream.kind, Env.InOrder.current_eq hi, hkind]
    rintro ⟨⟩)
  obtain ⟨id, hid, ⟨declared, hdeclared, hstart⟩, hresult⟩ :=
    List.isChain_iff_getElem.mp hchain i hlt homit
  rw [Tree.kind_finish] at hdeclared hresult
  have hchild : declared < id := hwf.child_lt (by
    rw [Tree.children, Tree.kind_finish]
    exact NodeKind.mem_children_of_introduced? hdeclared)
  refine ⟨hlt, ?_, id, declared, Nat.zero_le _, hid, hchild, hdeclared, ?_, ?_⟩
  · rw [TokenStream.kind, Env.InOrder.current_eq hi]
    exact hkind
  · rw [Tree.span_finish] at hstart
    rw [Env.InOrder.startAt_eq hlt]
    exact hstart
  · rw [TokenStream.kind, Env.InOrder.current_eq hlt]
    exact hresult

/-- **A text without some of its `AS` is read** without problems if the text with them is, and into the same
tree, but for places and the flags that say whether `AS` is there. -/
theorem parse_without (hparse : parse source rule maxDepth = .ok parsed) (hclean : parsed.problems = [])
    (hcan : parsed.tree.CanOmit omits) :
    ∃ other, parse (Text.without source omits) rule maxDepth = .ok other ∧ other.problems = [] ∧
      parsed.tree.ButAs other.tree := by
  have hrule := isSome_rule_of_parse hparse
  have hwf := wellFormed_of_parse hparse
  obtain ⟨root, state, hrun, hparse'⟩ := parse_run source rule maxDepth hrule
  obtain ⟨root', state', hrun', hother⟩ := parse_run (Text.without source omits) rule maxDepth hrule
  obtain rfl := Except.ok.inj (hparse.symm.trans hparse')
  obtain ⟨hlexed, hproblems⟩ := List.append_eq_nil_iff.mp hclean
  rw [List.map_eq_nil_iff] at hproblems
  have hinside : state.position < (textEnv source maxDepth).tokens.size :=
    (textEnv_inOrder source maxDepth).lt_size
      ((Passage.invariant .initial).query hrun (.refl (Nat.zero_le _))).inside
  have hkept : ∀ token ∈ (tokenize source).tokens, omits token = true → token.kind ≠ .eof := by
    intro token hmem homits hkind
    have has := hcan.isAs token hmem homits
    rw [hkind] at has
    cases has
  obtain ⟨hlexed', htokens⟩ := tokenize_without hlexed hkept
  -- the run itself shows that a name stands behind each `AS` that introduces a variable
  obtain ⟨hcourse, -⟩ := Elision.follows_query (M := .whole source maxDepth) (Elision.nested_level maxDepth)
    rule .initial .initial root state hrun hproblems hinside
  have hwhole : ∀ {i}, (textEnv source maxDepth).Omits omits i → _ := fun h =>
    hcan.introduced (M := .whole source maxDepth) rfl hwf h
  let M : Elision :=
    { left := textEnv source maxDepth
      right := textEnv (Text.without source omits) maxDepth
      omits := omits
      elided :=
        { inOrder := textEnv_inOrder source maxDepth
          tokens := htokens
          isAs := fun h => (hwhole h).2.1
          isNaming := fun h => hcourse.names _ (hwhole h).1 (hwhole h).2.2
          grammarLeft := rfl
          grammarRight := rfl } }
  obtain ⟨-, hfollows⟩ := Elision.follows_query (M := M) (Elision.nested_level maxDepth) rule .initial .initial
    root state hrun hproblems hinside
  have hcovers : M.Covers .initial state := fun _ _ _ h => (hcan.introduced (M := M) rfl hwf h).2.2
  obtain ⟨-, hmirror⟩ := hfollows hcovers (Elision.Clear.loose state)
  obtain ⟨t, hright, hrel⟩ := hmirror
    { position := rfl
      virtualVariable := rfl
      problems := rfl
      draft := ⟨rfl, fun _ => .refl _, fun _ => rfl⟩ }
  obtain ⟨rfl, rfl⟩ := Prod.mk.inj (Except.ok.inj (hrun'.symm.trans hright))
  refine ⟨_, hother, ?_, rfl, hrel.draft.size, fun id => ?_, fun id => ?_⟩
  · show (tokenize (Text.without source omits)).problems ++ state'.problems.map _ = []
    rw [hlexed', show state'.problems = [] from hrel.problems]
    rfl
  · rw [Tree.kind_finish, Tree.kind_finish]
    exact hrel.draft.kind id
  · rw [Tree.parent?_finish, Tree.parent?_finish]
    exact hrel.draft.parent id

end

/-- The `AS` of a range, a collection, a join and a result, one of which is called like a keyword. The `AS`
of `TREAT` introduces nothing. -/
theorem parse_without_all : ∃ parsed other,
    parse "SELECT e.name AS n FROM E AS e JOIN TREAT(e.a AS M) AS first, IN(e.b) AS c" RuleId.statement 2 =
      .ok parsed ∧ parsed.problems = [] ∧
    parsed.tree.CanOmit (fun token => token.kind == .keyword .as && token.span.start != 46) ∧
    Text.without "SELECT e.name AS n FROM E AS e JOIN TREAT(e.a AS M) AS first, IN(e.b) AS c"
      (fun token => token.kind == .keyword .as && token.span.start != 46) =
        "SELECT e.name   n FROM E   e JOIN TREAT(e.a AS M)   first, IN(e.b)   c" ∧
    parse "SELECT e.name   n FROM E   e JOIN TREAT(e.a AS M)   first, IN(e.b)   c" RuleId.statement 2 =
      .ok other ∧ other.problems = [] ∧ parsed.tree.ButAs other.tree := by
  let source := "SELECT e.name AS n FROM E AS e JOIN TREAT(e.a AS M) AS first, IN(e.b) AS c"
  let omits : Token → Bool := fun token => token.kind == .keyword .as && token.span.start != 46
  have hread : (match parse source RuleId.statement 2 with
      | .ok parsed => parsed.problems.isEmpty && decide (parsed.tree.CanOmit omits)
      | .error _ => false) = true := by decide +kernel
  have htext : Text.without source omits =
      "SELECT e.name   n FROM E   e JOIN TREAT(e.a AS M)   first, IN(e.b)   c" := by decide +kernel
  cases hparse : parse source RuleId.statement 2 with
  | error e =>
    rw [hparse] at hread
    cases hread
  | ok parsed =>
    rw [hparse] at hread
    obtain ⟨hempty, hcan⟩ := Bool.and_eq_true_iff.mp hread
    have hclean : parsed.problems = [] := List.isEmpty_iff.mp hempty
    obtain ⟨other, hother, hagrees⟩ := parse_without hparse hclean (of_decide_eq_true hcan)
    rw [htext] at hother
    exact ⟨parsed, other, rfl, hclean, of_decide_eq_true hcan, htext, hother, hagrees⟩

/-- **The exception**: a result that is called like a keyword needs its `AS`. Without it the name is not
read as one, although it is behind `AS`, and although a range or a join can be called so. -/
theorem parse_without_keyword : ∃ parsed other,
    parse "SELECT e.name AS value FROM Employee e" RuleId.statement 2 = .ok parsed ∧ parsed.problems = [] ∧
    (∃ name ∈ (tokenize parsed.tree.source).tokens, ∃ id < parsed.tree.size,
      parsed.tree.Introduces name id ∧ (parsed.tree.kind id).isResult = true ∧
        name.kind = .keyword .value) ∧
    Text.without "SELECT e.name AS value FROM Employee e" (·.kind == .keyword .as) =
      "SELECT e.name   value FROM Employee e" ∧
    parse "SELECT e.name   value FROM Employee e" RuleId.statement 2 = .ok other ∧
    other.problems.map (·.key) = [.missingClause, .unknownExpression] := by
  have hread : (match parse "SELECT e.name AS value FROM Employee e" RuleId.statement 2,
        parse "SELECT e.name   value FROM Employee e" RuleId.statement 2 with
      | .ok parsed, .ok other => decide (parsed.problems = [] ∧
        (∃ name ∈ (tokenize parsed.tree.source).tokens, ∃ id < parsed.tree.size,
          parsed.tree.Introduces name id ∧ (parsed.tree.kind id).isResult = true ∧
            name.kind = .keyword .value) ∧
        Text.without "SELECT e.name AS value FROM Employee e" (·.kind == .keyword .as) =
          "SELECT e.name   value FROM Employee e" ∧
        other.problems.map (·.key) = [.missingClause, .unknownExpression])
      | _, _ => false) = true := by decide +kernel
  split at hread
  · next parsed other hparse hother =>
    obtain ⟨hclean, hresult, htext, hkeys⟩ := of_decide_eq_true hread
    exact ⟨parsed, other, hparse, hclean, hresult, htext, hother, hkeys⟩
  · cases hread

end Jpql
