import Jpql.Proofs.Place.Check
import Jpql.Validate

/-! # Places in an outcome

`validate_placed`: whatever the text is, a validation from a registered rule has an outcome in which every
span is a part of the text, and every problem stands where it belongs. Problems of the scanner come first
and belong to no node. Those of the reader and of the check follow, each inside the node it is anchored
at. -/

namespace Jpql

/-- **A span of an outcome**: that of a node, of a segment of a path, or of a problem. -/
inductive Parsed.HasSpan (outcome : Parsed) : Span → Prop
  | node {id : Nat} (hid : id < outcome.tree.size) : HasSpan outcome (outcome.tree.span id)
  | segment {id : Nat} {segment : Located String} (hid : id < outcome.tree.size)
      (hsegment : segment ∈ (outcome.tree.kind id).segments) : HasSpan outcome segment.span
  | problem {problem : Problem} (hproblem : problem ∈ outcome.problems) :
      HasSpan outcome problem.span

/-- **An outcome with everything in its place.** Every span is a part of the text with both ends between
characters, so that it can be cut out. The problems of the scanner belong to no node; each of the others
lies in the node that it is anchored at. There is a node for every id. -/
structure Parsed.IsPlaced (outcome : Parsed) (source : String) (scanned read found : List Problem) :
    Prop where
  source_eq : outcome.tree.source = source
  problems_eq : outcome.problems = scanned ++ read ++ found
  spans : ∀ span, outcome.HasSpan span → span.Fits source ∧ span.Cuts source
  unanchored : ∀ problem ∈ scanned, problem.anchor = none
  anchored : ∀ problem ∈ read ++ found, ∃ node, problem.anchor = some node ∧
    node < outcome.tree.size ∧ problem.span.Inside (outcome.tree.span node)
  root_lt : outcome.tree.root < outcome.tree.size
  child_lt : ∀ id, ∀ child ∈ outcome.tree.children id, child < outcome.tree.size
  parent_lt : ∀ id parent, outcome.tree.parent? id = some parent → parent < outcome.tree.size

/-- **Every text is read into the tree of a text**, with the problems of the scanner in front of those of
the reader. -/
theorem parse_isRead (source rule : String) (maxDepth : Nat)
    (hrule : (Grammar.standard.rule? rule).isSome = true) :
    ∃ read, parseTokens .standard source (tokenize source).tokens rule maxDepth = .ok read ∧
      parse source rule maxDepth =
        .ok ⟨read.tree, (tokenize source).problems ++ read.problems⟩ ∧
      read.tree.source = source ∧ read.tree.IsRead ∧
      ∀ problem ∈ read.problems, problem.LiesIn read.tree := by
  obtain ⟨parsed, hparsed, hsource, hplaced, found, hproblems, hfound⟩ :=
    parse_placed source rule maxDepth hrule
  have hwf := wellFormed_of_parse hparsed
  obtain ⟨_, hsame, hschema⟩ := parse_schematic source rule maxDepth hrule
  obtain rfl := Except.ok.inj (hparsed.symm.trans hsame)
  obtain ⟨_, hsame, draft, htree, -, -, statement, leftover, hroot, -⟩ :=
    parse_draft source rule maxDepth hrule
  obtain rfl := Except.ok.inj (hparsed.symm.trans hsame)
  cases hread : parseTokens .standard source (tokenize source).tokens rule maxDepth with
  | error e =>
    have herror : parse source rule maxDepth = .error e := by
      rw [parse, hread]
      rfl
    rw [hparsed] at herror
    cases herror
  | ok read =>
    have hok : parse source rule maxDepth =
        .ok ⟨read.tree, (tokenize source).problems ++ read.problems⟩ := by
      rw [parse, hread]
      rfl
    obtain rfl := Except.ok.inj (hparsed.symm.trans hok)
    obtain rfl := List.append_cancel_left hproblems
    refine ⟨read, rfl, hok, hsource, ⟨hwf, ⟨hschema.conforms, fun h => h.elim⟩, hplaced,
      statement, leftover, ?_⟩, hfound⟩
    rw [← hroot]
    show read.tree.kind read.tree.root = _
    have hfinish := Tree.kind_finish draft.builder source read.tree.root read.tree.root
    rwa [← htree] at hfinish

/-- **All positions of an outcome are valid.** From every registered rule a text is validated, with
everything in its place: the problems of the scanner come first, then those of the reader, then those of
the check. The tokens fit the text, too. -/
theorem validate_placed (source rule : String) (metamodel : Metamodel) (options : ValidationOptions)
    (hrule : (Grammar.standard.rule? rule).isSome = true) :
    ∃ read outcome, parseTokens .standard source (tokenize source).tokens rule
        options.maxNestingDepth = .ok read ∧
      validate source rule metamodel options = .ok outcome ∧ outcome.tree = read.tree ∧
      outcome.IsPlaced source (tokenize source).problems read.problems
        (checkTree (.ofTree read.tree metamodel) options.checkEnv) ∧
      ∀ token ∈ (tokenize source).tokens, token.span.Fits source ∧ token.span.Cuts source := by
  obtain ⟨read, hread, hparse, hsource, htree, hlies⟩ :=
    parse_isRead source rule options.maxNestingDepth hrule
  have hchecked := htree.checkTree_liesIn metamodel options.checkEnv
  obtain ⟨htokens, hscanned⟩ := tokenize_fits source
  refine ⟨read, ⟨read.tree, (tokenize source).problems ++ read.problems ++
    checkTree (.ofTree read.tree metamodel) options.checkEnv⟩, hread, ?_, rfl, ?_,
    fun token hmem => ⟨htokens token hmem, (htokens token hmem).cut⟩⟩
  · rw [validate, hparse]
    rfl
  refine ⟨hsource, rfl, fun span h => ?_, fun problem hmem => (hscanned problem hmem).2,
    fun problem hmem => (List.mem_append.mp hmem).elim (fun hmem => (hlies problem hmem).2)
      fun hmem => (hchecked problem hmem).2,
    htree.placed.root, fun id child hc => htree.lt_of_child hc,
    fun id parent hp => (htree.wellFormed.of_parent hp).2.1⟩
  suffices hfits : span.Fits source from ⟨hfits, hfits.cut⟩
  cases h with
  | node hid => exact hsource ▸ htree.placed.fits _ hid
  | segment hid hsegment => exact hsource ▸ (htree.placed.segments _ hid _ hsegment).1
  | problem hproblem =>
    rw [List.append_assoc] at hproblem
    rcases List.mem_append.mp hproblem with hmem | hmem
    · exact (hscanned _ hmem).1
    · rcases List.mem_append.mp hmem with hmem | hmem
      · exact hsource ▸ (hlies _ hmem).1
      · exact hsource ▸ (hchecked _ hmem).1

/-- A text with letters of several bytes that stops in the middle of a `WHERE` clause. -/
theorem validate_placed_malformed :
    ∃ read outcome, parseTokens .standard "SELECT é FROM Ähre é, “ WHERE é.ü. > (é."
        (tokenize "SELECT é FROM Ähre é, “ WHERE é.ü. > (é.").tokens RuleId.statement
        ValidationOptions.standard.maxNestingDepth = .ok read ∧
      validate "SELECT é FROM Ähre é, “ WHERE é.ü. > (é." RuleId.statement ⟨[], []⟩ .standard =
        .ok outcome ∧ outcome.tree = read.tree ∧
      outcome.IsPlaced "SELECT é FROM Ähre é, “ WHERE é.ü. > (é."
        (tokenize "SELECT é FROM Ähre é, “ WHERE é.ü. > (é.").problems read.problems
        (checkTree (.ofTree read.tree ⟨[], []⟩) ValidationOptions.standard.checkEnv) ∧
      ∀ token ∈ (tokenize "SELECT é FROM Ähre é, “ WHERE é.ü. > (é.").tokens,
        token.span.Fits "SELECT é FROM Ähre é, “ WHERE é.ü. > (é." ∧
          token.span.Cuts "SELECT é FROM Ähre é, “ WHERE é.ü. > (é." :=
  validate_placed "SELECT é FROM Ähre é, “ WHERE é.ü. > (é." RuleId.statement ⟨[], []⟩ .standard
    (Grammar.standard_registers (by simp))

end Jpql
