import Jpql.Proofs.Alias.Visit
import Jpql.Validate

/-! # Statements with and without the alias agree

An `UPDATE` or `DELETE` without alias and the same statement with its alias written out are validated to
problems with the same keys (`validate_aliased`). The one exception is a path that leads to no field: its
words may be the name of a type once the alias is in front of them (`validate_aliased_type`). -/

namespace Jpql

/-- **The checks of both trees find problems with the same keys**, if nothing is left out of the one
without alias. -/
theorem AliasedCheck.checkTree_keys (c : AliasedCheck)
    (hwhole : ∀ problem ∈ checkTree (.ofTree c.left c.metamodel) c.env, problem.key ≠ .traversalTooDeep) :
    (checkTree (.ofTree c.right c.metamodel) c.env).map (·.key) =
      (checkTree (.ofTree c.left c.metamodel) c.env).map (·.key) := by
  have hlt : c.left.root < c.left.size :=
    Tree.lt_size_of_kind (by rw [c.isQuery.root]; nofun)
  have hkept : c.Kept c.left.root :=
    kept_of_not_path hlt (by rw [Tree.pathBehind?, c.isQuery.root])
  obtain ⟨-, hrun⟩ := visitTo_keeps (Nat.le_refl c.env.maxDepth) hlt hkept
    (.initial (.ofTree c.left c.metamodel)) rfl
  have hroot : c.right.root = c.image c.left.root := c.aliased.root
  obtain ⟨-, haligned⟩ := (hrun hwhole).2 (.initial (.ofTree c.right c.metamodel))
    ⟨rfl, rfl, rfl, fun _ hmem => absurd hmem List.not_mem_nil, rfl⟩
  rw [← hroot] at haligned
  exact haligned.problems.symm

/-- **A statement without alias and the same with its alias written out agree.** Whatever word the alias
is, the aliased text is read without problems if the text without alias is, and is validated to problems
with the same keys. This holds of every layout of the text; `Tree.aliasedText` is one. No path without a
field may spell out a type behind the alias, and nothing may lie too deep for the check. -/
theorem validate_aliased {source : String} {metamodel : Metamodel} {options : ValidationOptions}
    {parsed outcome : Parsed} (v : Name)
    (hparse : parse source RuleId.statement options.maxNestingDepth = .ok parsed)
    (hclean : parsed.problems = []) (homits : parsed.tree.OmitsAlias)
    (hfree : parsed.tree.SpellsNoType metamodel v.text)
    (hvalidate : validate source RuleId.statement metamodel options = .ok outcome)
    (hwhole : ∀ problem ∈ outcome.problems, problem.key ≠ .traversalTooDeep) :
    parsed.tree.SpellsAliased v.text (parsed.tree.aliasedText v.text) ∧
      ∀ aliased, parsed.tree.SpellsAliased v.text aliased →
        ∃ other result, parse aliased RuleId.statement options.maxNestingDepth = .ok other ∧
          other.problems = [] ∧
          validate aliased RuleId.statement metamodel options = .ok result ∧
          result.problems.map (·.key) = outcome.problems.map (·.key) := by
  obtain ⟨statement, hquery⟩ := parse_isQuery hparse hclean
  refine ⟨spellsAliased_of_parse v hparse hclean, fun aliased hspells => ?_⟩
  obtain ⟨other, hother, hclean', haliased⟩ := parse_aliased hparse hclean homits hspells
  let A : Aliasing := ⟨parsed.tree, other.tree, v.text, statement, hquery, homits, haliased⟩
  obtain ⟨entity, name, hover⟩ := A.exists_over
  let c : AliasedCheck :=
    { A with metamodel, env := options.checkEnv, entity, name, ranges := hover, free := hfree }
  have hrun : ∀ {text : String} {read : Parsed},
      parse text RuleId.statement options.maxNestingDepth = .ok read → read.problems = [] →
      validate text RuleId.statement metamodel options =
        .ok ⟨read.tree, checkTree (.ofTree read.tree metamodel) options.checkEnv⟩ := by
    intro text read hread hnone
    rw [validate, hread]
    exact congrArg (fun problems => Except.ok (Parsed.mk _ (problems ++ _))) hnone
  obtain rfl := Except.ok.inj ((hrun hparse hclean).symm.trans hvalidate)
  exact ⟨other, _, hother, hclean', hrun hother hclean', c.checkTree_keys hwhole⟩

/-- An entity with a field that is called like a part of a package, and an enum in that package. -/
def withPackages : Metamodel :=
  (Metamodel.initial.withManaged (.entity "Employee" "com.acme.Employee"
    [⟨"id", .id, "int"⟩, ⟨"acme", .basic, "int"⟩, ⟨"projects", .oneToMany, "com.acme.Employee"⟩])).withEnum
    "com.acme.Status" ["ON"]

/-- Fields of all kinds of places, with an alias that spells out no type. -/
theorem validate_aliased_fields : ∃ parsed outcome,
    parse "UPDATE Employee SET id=acme WHERE projects IS EMPTY OR acme.Status.ON=1"
      RuleId.statement ValidationOptions.standard.maxNestingDepth = .ok parsed ∧
    parsed.problems = [] ∧ parsed.tree.OmitsAlias ∧ parsed.tree.SpellsNoType withPackages "e" ∧
    validate "UPDATE Employee SET id=acme WHERE projects IS EMPTY OR acme.Status.ON=1"
      RuleId.statement withPackages .standard = .ok outcome ∧
    (∀ problem ∈ outcome.problems, problem.key ≠ .traversalTooDeep) ∧
    parsed.tree.SpellsAliased "e" (parsed.tree.aliasedText "e") ∧
      ∀ aliased, parsed.tree.SpellsAliased "e" aliased →
        ∃ other result, parse aliased RuleId.statement ValidationOptions.standard.maxNestingDepth = .ok other ∧
          other.problems = [] ∧
          validate aliased RuleId.statement withPackages .standard = .ok result ∧
          result.problems.map (·.key) = outcome.problems.map (·.key) := by
  let source := "UPDATE Employee SET id=acme WHERE projects IS EMPTY OR acme.Status.ON=1"
  have hread : (match parse source RuleId.statement ValidationOptions.standard.maxNestingDepth with
      | .ok parsed => parsed.problems.isEmpty && decide parsed.tree.OmitsAlias &&
        decide (parsed.tree.SpellsNoType withPackages "e")
      | .error _ => false) = true := by decide +kernel
  have hcheck : (match validate source RuleId.statement withPackages .standard with
      | .ok outcome => outcome.problems.all (·.key != .traversalTooDeep)
      | .error _ => false) = true := by decide +kernel
  cases hparse : parse source RuleId.statement ValidationOptions.standard.maxNestingDepth with
  | error e =>
    rw [hparse] at hread
    cases hread
  | ok parsed =>
    cases hvalidate : validate source RuleId.statement withPackages .standard with
    | error e =>
      rw [hvalidate] at hcheck
      cases hcheck
    | ok outcome =>
      rw [hparse] at hread
      rw [hvalidate] at hcheck
      simp only [Bool.and_eq_true, decide_eq_true_eq] at hread
      obtain ⟨⟨hempty, homits⟩, hfree⟩ := hread
      have hclean : parsed.problems = [] := List.isEmpty_iff.mp hempty
      have hwhole : ∀ problem ∈ outcome.problems, problem.key ≠ .traversalTooDeep := by
        simpa using hcheck
      exact ⟨parsed, outcome, rfl, hclean, homits, hfree, rfl, hwhole,
        validate_aliased ⟨⟨"e", by decide⟩, by decide⟩ hparse hclean homits hfree hvalidate hwhole⟩

/-- The alias is called like the package of an enum. Behind it a path that leads to no field spells out a
constant of the enum; without the alias it is reported. -/
theorem validate_aliased_type : ∃ parsed outcome result,
    parse "DELETE FROM Employee WHERE acme.Status.ON = 1"
      RuleId.statement ValidationOptions.standard.maxNestingDepth = .ok parsed ∧
    parsed.problems = [] ∧ parsed.tree.OmitsAlias ∧ withPackages.entity? "com" = none ∧
    (∀ id < parsed.tree.size, (parsed.tree.kind id).isPath = true →
      ((withPackages.entity? "Employee").any fun type =>
        (parsed.tree.kind id).segments.head?.any fun first =>
          (type.mapping? first.value).isSome) = true) ∧
    parsed.tree.SpellsAliased "com" "DELETE FROM Employee com WHERE com.acme.Status.ON = 1" ∧
    validate "DELETE FROM Employee WHERE acme.Status.ON = 1" RuleId.statement withPackages .standard =
      .ok outcome ∧
    validate "DELETE FROM Employee com WHERE com.acme.Status.ON = 1" RuleId.statement withPackages
      .standard = .ok result ∧
    outcome.problems.map (·.key) = [.statePathNotResolvable] ∧ result.problems.map (·.key) = [] := by
  have hread : (match parse "DELETE FROM Employee WHERE acme.Status.ON = 1" RuleId.statement
        ValidationOptions.standard.maxNestingDepth with
      | .ok parsed => decide (parsed.problems = [] ∧ parsed.tree.OmitsAlias ∧
        (∀ id < parsed.tree.size, (parsed.tree.kind id).isPath = true →
          ((withPackages.entity? "Employee").any fun type =>
            (parsed.tree.kind id).segments.head?.any fun first =>
              (type.mapping? first.value).isSome) = true) ∧
        parsed.tree.SpellsAliased "com" "DELETE FROM Employee com WHERE com.acme.Status.ON = 1")
      | .error _ => false) = true := by decide +kernel
  have hcheck : (match validate "DELETE FROM Employee WHERE acme.Status.ON = 1" RuleId.statement
        withPackages .standard, validate "DELETE FROM Employee com WHERE com.acme.Status.ON = 1"
        RuleId.statement withPackages .standard with
      | .ok outcome, .ok result => decide (outcome.problems.map (·.key) = [.statePathNotResolvable] ∧
        result.problems.map (·.key) = [])
      | _, _ => false) = true := by decide +kernel
  split at hread
  · next parsed hparse =>
    split at hcheck
    · next outcome result hvalidate hvalidate' =>
      obtain ⟨hclean, homits, hfields, hspells⟩ := of_decide_eq_true hread
      obtain ⟨hkeys, hkeys'⟩ := of_decide_eq_true hcheck
      exact ⟨parsed, outcome, result, hparse, hclean, homits, rfl, hfields, hspells, hvalidate, hvalidate',
        hkeys, hkeys'⟩
    · cases hcheck
  · cases hread

end Jpql
