import Jpql.Proofs.Depth.Visit
import Jpql.Proofs.Place.Validate

/-! # The limit on the depth of a check

* `Tree.IsRead.checkTree_follows`: all checks of a tree follow one trace, each down to its limit.
* `OnlyLoses`: a lower limit only loses findings, and says so.
* `validate_onlyLoses`: this is so for every text, whatever is wrong with it. -/

namespace Jpql

/-- **A lower limit only loses findings.** Those that are left stand in the same order; a run reports at
most once that something lies too deep; and where it does not, a higher limit changes nothing. -/
structure OnlyLoses (found : Nat → List Problem) : Prop where
  sublist : ∀ low high, low ≤ high → (faults (found low)).Sublist (faults (found high))
  once : ∀ depth, marks (found depth) ≤ 1
  same : ∀ low high, low ≤ high → marks (found low) = 0 → found low = found high

/-- What follows a trace down to a limit only loses findings. -/
theorem OnlyLoses.of_trace {t : Check.Trace} (ht : t.Sound) {found : Nat → List Problem}
    (hfound : ∀ depth, faults (found depth) = upTo depth t.found)
    (hmarks : ∀ depth, marks (found depth) = (decide (depth < t.reach)).toNat) : OnlyLoses found := by
  have hall : ∀ depth, marks (found depth) = 0 →
      t.reach ≤ depth ∧ found depth = t.found.map (·.2) := by
    intro depth hnone
    have hreach : t.reach ≤ depth := by
      rw [hmarks] at hnone
      simpa using hnone
    refine ⟨hreach, ?_⟩
    rw [← faults_eq_self.mpr (marks_eq_zero.mp hnone), hfound]
    exact upTo_eq_all fun entry hmem => Nat.le_trans (ht.found_le entry hmem) hreach
  refine ⟨fun low high hle => ?_, fun depth => ?_, fun low high hle hnone => ?_⟩
  · rw [hfound, hfound]
    exact upTo_sublist hle
  · rw [hmarks]
    exact Bool.toNat_le _
  · obtain ⟨hreach, hlow⟩ := hall low hnone
    have hnone' : marks (found high) = 0 := by
      rw [hmarks]
      simpa using Nat.le_trans hreach hle
    rw [hlow, (hall high hnone').2]

namespace Check

variable {tree : Tree}

/-- **The root of a tree follows a trace.** The variables of its statement are looked up at the end. -/
theorem root_finds (hread : tree.IsRead) (setting : Setting tree) : ∃ t : Trace, t.Sound ∧
    ∀ levels env s, setting.Starts env s → s.used = [] →
      t.Finds levels s (visitKind (visitTo levels) tree.root env s).2 := by
  obtain ⟨statement, leftover, hroot⟩ := hread.root
  have hkind : ∀ env s, setting.Starts env s →
      s.context.tree.kind tree.root = .query statement leftover := fun env s hs => by
    rw [hs.context, setting.context_tree, hroot]
  cases statement with
  | none =>
    refine ⟨.empty, Trace.sound_empty, fun levels env s hs _ => ?_⟩
    rw [visitKind, kindOf_run, hkind env s hs]
    exact Trace.Run.empty.toFinds
  | some statement =>
    have hc : statement ∈ tree.children tree.root := by
      rw [Tree.children, hroot]
      exact List.mem_cons_self
    obtain ⟨t, ht⟩ := (visits hread visitTo_descends statement (hread.query_ne hc)).visit setting
    have hrun := fun levels env s (hs : setting.Starts env s) (hused : s.used = []) =>
      (ht.run levels env s hs (by simp [hused])).2
    refine ⟨if (tree.kind statement).isStatement then t.lookup setting.context else t, ?_,
      fun levels env s hs hused => ?_⟩
    · split
      · exact ht.sound.lookup
      · exact ht.sound
    · have hstatement := hrun levels env s hs hused
      have hnext := hs.step hstatement
      have hkept : (visitTo levels statement env s).2.used = upTo levels t.uses := by
        rw [hstatement.used, hused]
        exact note_fresh (ht.sound.nodup_upTo levels) fun _ _ => List.not_mem_nil
      rw [visitKind, kindOf_run, hkind env s hs]
      show Trace.Finds _ levels s ((kindOf statement >>= fun kind => if kind.isStatement then
        get >>= fun state => checkVariables state.used else pure ()) env
          (visitTo levels statement env s).2).2
      rw [kindOf_run, hnext.context, setting.context_tree]
      split
      · show Trace.Finds _ levels s (checkVariables (visitTo levels statement env s).2.used env
          (visitTo levels statement env s).2).2
        have hlookup := hstatement.toFinds.lookup setting.context
        rw [checkVariables_run, hkept, hnext.context]
        exact ⟨hlookup.found, hlookup.exceeded, hlookup.marks⟩
      · exact hstatement.toFinds

end Check

/-- **All checks of a tree follow one trace**, each down to its limit. -/
theorem Tree.IsRead.checkTree_follows {tree : Tree} (hread : tree.IsRead) (metamodel : Metamodel)
    (updateValues : Bool) : ∃ t : Check.Trace, t.Sound ∧ ∀ depth,
      faults (checkTree (.ofTree tree metamodel) ⟨updateValues, depth⟩) = upTo depth t.found ∧
        marks (checkTree (.ofTree tree metamodel) ⟨updateValues, depth⟩) =
          (decide (depth < t.reach)).toNat := by
  obtain ⟨t, ht, hfinds⟩ := Check.root_finds hread ⟨.ofTree tree metamodel, rfl, true, updateValues⟩
  refine ⟨t.deeper, ht.deeper, fun depth => ?_⟩
  have hrun := Check.finds_visit (fun levels => hfinds levels ⟨updateValues, depth⟩
    (.initial (.ofTree tree metamodel)) ⟨rfl, rfl, rfl⟩ rfl) depth
  refine ⟨hrun.found, ?_⟩
  have hmarks := hrun.marks
  have hnone : marks (Check.State.initial (.ofTree tree metamodel)).problems = 0 := rfl
  have hwhole : (Check.State.initial (.ofTree tree metamodel)).exceeded = false := rfl
  rw [hrun.exceeded, hnone, hwhole, Bool.false_or, Nat.zero_add] at hmarks
  exact hmarks

/-- **The limit on the depth of a check only loses findings.** Whatever the text is, and from whatever
rule it is read, its tree is one and the same with every limit; the findings of a check are added to the
problems of the reader. -/
theorem validate_onlyLoses (source rule : String) (metamodel : Metamodel) (maxNestingDepth : Nat)
    (updateValues : Bool) (hrule : (Grammar.standard.rule? rule).isSome = true) :
    ∃ parsed, parse source rule maxNestingDepth = .ok parsed ∧ ∃ found : Nat → List Problem,
      (∀ depth, found depth = checkTree (.ofTree parsed.tree metamodel) ⟨updateValues, depth⟩) ∧
      (∀ depth, validate source rule metamodel ⟨maxNestingDepth, depth, updateValues⟩ =
        .ok { parsed with problems := parsed.problems ++ found depth }) ∧ OnlyLoses found := by
  obtain ⟨read, -, hparse, -, hread, -⟩ := parse_isRead source rule maxNestingDepth hrule
  obtain ⟨t, ht, hfollows⟩ := hread.checkTree_follows metamodel updateValues
  refine ⟨_, hparse, _, fun _ => rfl, fun depth => ?_, .of_trace ht (fun depth => (hfollows depth).1)
    fun depth => (hfollows depth).2⟩
  rw [validate, hparse]
  rfl

/-- An operand that is visited twice, with a subquery below it, in a text that stops too early. -/
theorem validate_onlyLoses_twice :
    ∃ parsed, parse "SELECT e FROM E e WHERE KEY((SELECT f FROM F g)).a > e.b AND (h" RuleId.statement
        100 = .ok parsed ∧ ∃ found : Nat → List Problem,
      (∀ depth, found depth = checkTree (.ofTree parsed.tree ⟨[], []⟩) ⟨true, depth⟩) ∧
      (∀ depth, validate "SELECT e FROM E e WHERE KEY((SELECT f FROM F g)).a > e.b AND (h"
          RuleId.statement ⟨[], []⟩ ⟨100, depth, true⟩ =
        .ok { parsed with problems := parsed.problems ++ found depth }) ∧ OnlyLoses found :=
  validate_onlyLoses "SELECT e FROM E e WHERE KEY((SELECT f FROM F g)).a > e.b AND (h" RuleId.statement
    ⟨[], []⟩ 100 true (Grammar.standard_registers (by simp))

end Jpql
