import Jpql.Proofs.Layout.Check
import Jpql.Proofs.Layout.Query
import Jpql.Proofs.Tree.WellFormed
import Jpql.Validate

/-! # Validation does not depend on the layout

Two texts with the same tokens, however these are laid out, are read into trees that are alike, and
the same problems are found in them (`validate_alike`). Spans, slices of the text and reconstructed
texts are handed around everywhere, but nothing is decided by them.

* `Parsed.Alike`: the same tree but for places, and the same problems in the same order.
* `parseTokens_alike`: what is read from the same tokens is alike, under any grammar. -/

namespace Jpql

/-- **Results that differ in places only**: the trees are alike, and the problems agree in order on
cause and node. -/
structure Parsed.Alike (a b : Parsed) : Prop where
  tree : a.tree.Alike b.tree
  problems : a.problems.map Problem.outline = b.problems.map Problem.outline

/-- **Two results that cannot be told apart**: both are the same error, or both are there and differ
in places only. -/
inductive Parsed.SameResult : Except GrammarError Parsed → Except GrammarError Parsed → Prop
  | ok {a b : Parsed} (h : a.Alike b) : SameResult (.ok a) (.ok b)
  | error (error : GrammarError) : SameResult (.error error) (.error error)

namespace Parsed.SameResult

variable {x y : Except GrammarError Parsed} {f g : Parsed → Parsed}

theorem map (h : SameResult x y) (hmap : ∀ a b : Parsed, a.Alike b → (f a).Alike (g b)) :
    SameResult (f <$> x) (g <$> y) := by
  cases h with
  | ok h => exact .ok (hmap _ _ h)
  | error error => exact .error error

end Parsed.SameResult

/-- Problems without a node of their own belong to the root on both sides. -/
theorem Problem.outline_anchoredAt {problems others : List Problem} (root : Nat)
    (h : problems.map Problem.outline = others.map Problem.outline) :
    (problems.map (·.anchoredAt root)).map Problem.outline =
      (others.map (·.anchoredAt root)).map Problem.outline := by
  have hroot : ∀ list : List Problem, (list.map (·.anchoredAt root)).map Problem.outline =
      (list.map Problem.outline).map fun outline => (outline.1, some (outline.2.getD root)) :=
    fun list => by rw [List.map_map, List.map_map]; rfl
  rw [hroot, hroot, h]

/-- What is read by drafts that are alike. -/
theorem Parse.Draft.Alike.parsed {a b : Parse.Draft} (h : a.Alike b) (source other : String)
    (root : Nat) : Parsed.Alike
      ⟨a.builder.finish source root, a.problems.map (·.anchoredAt root)⟩
      ⟨b.builder.finish other root, b.problems.map (·.anchoredAt root)⟩ where
  tree :=
    { root := rfl
      size := h.size
      kind := fun id => by
        rw [Tree.kind_finish, Tree.kind_finish]
        exact h.kind id
      parent := fun id => by
        rw [Tree.parent?_finish, Tree.parent?_finish]
        exact h.parent id }
  problems := Problem.outline_anchoredAt root h.problems

/-- **The same tokens are read alike**, under any grammar. -/
theorem parseTokens_alike (grammar : Grammar) {source other : String} {tokens others : List Token}
    (htokens : tokens.map (Token.spelled source) = others.map (Token.spelled other)) (rule : String)
    (maxDepth : Nat) : Parsed.SameResult (parseTokens grammar source tokens rule maxDepth)
      (parseTokens grammar other others rule maxDepth) := by
  unfold parseTokens
  cases grammar.lookup rule with
  | error error => exact .error error
  | ok entry =>
    let a : Parse.Env := ⟨source, tokens.toArray, grammar, maxDepth⟩
    let b : Parse.Env := ⟨other, others.toArray, grammar, maxDepth⟩
    have henv : a.Alike b := ⟨by simpa [a, b] using htokens, rfl, rfl⟩
    have S := Parse.simulation_alike henv
    have hrun := S.query (S.level maxDepth) rule .initial .initial
      ⟨⟨rfl, rfl, .refl _⟩, Nat.zero_le _⟩
    show Parsed.SameResult
      (Parse.query (Parse.level maxDepth) rule a .initial >>= fun x =>
        pure ⟨x.2.builder.finish source x.1, x.2.problems.map (·.anchoredAt x.1)⟩)
      (Parse.query (Parse.level maxDepth) rule b .initial >>= fun x =>
        pure ⟨x.2.builder.finish other x.1, x.2.problems.map (·.anchoredAt x.1)⟩)
    generalize Parse.query (Parse.level maxDepth) rule a .initial = x at hrun
    generalize Parse.query (Parse.level maxDepth) rule b .initial = y at hrun
    cases hrun with
    | error error => exact .error error
    | ok hroot hstate =>
      subst hroot
      exact .ok (hstate.1.draft.parsed source other _)

/-- **Validation does not depend on the layout.** Two texts without lexical problems, whose tokens
agree in kind and spelling, have the same result from every rule, against every metamodel and with
all options: trees that differ in places only, and problems that agree in order on cause and node. If
the rule is there, there is a result. -/
theorem validate_alike {source other : String} (hsource : (tokenize source).problems = [])
    (hother : (tokenize other).problems = [])
    (htokens : (tokenize source).tokens.map (Token.spelled source) =
      (tokenize other).tokens.map (Token.spelled other))
    (rule : String) (metamodel : Metamodel) (options : ValidationOptions) :
    Parsed.SameResult (validate source rule metamodel options)
      (validate other rule metamodel options) ∧
    ((Grammar.standard.rule? rule).isSome = true →
      ∃ parsed, validate source rule metamodel options = .ok parsed) := by
  constructor
  · have hparse : Parsed.SameResult (parse source rule options.maxNestingDepth)
        (parse other rule options.maxNestingDepth) := by
      refine (parseTokens_alike .standard htokens rule options.maxNestingDepth).map fun a b h => ?_
      refine ⟨h.tree, ?_⟩
      rw [hsource, hother]
      exact h.problems
    refine hparse.map fun a b h => ⟨h.tree, ?_⟩
    rw [List.map_append, List.map_append, h.problems, h.tree.checkTree]
  · intro hrule
    obtain ⟨parsed, hparsed, -⟩ := parse_draft source rule options.maxNestingDepth hrule
    let found := checkTree (.ofTree parsed.tree metamodel) options.checkEnv
    refine ⟨{ parsed with problems := parsed.problems ++ found }, ?_⟩
    rw [validate, hparsed]
    rfl

/-- A query with a gap in it, once on one line and once spread out. -/
theorem validate_alike_spread :
    Parsed.SameResult (validate "SELECT x,FROM E e" RuleId.statement ⟨[], []⟩ .standard)
      (validate "SELECT x ,\n  FROM E e " RuleId.statement ⟨[], []⟩ .standard) ∧
    ((Grammar.standard.rule? RuleId.statement).isSome = true →
      ∃ parsed, validate "SELECT x,FROM E e" RuleId.statement ⟨[], []⟩ .standard = .ok parsed) :=
  validate_alike (by decide +kernel) (by decide +kernel) (by decide +kernel) _ _ _

end Jpql
