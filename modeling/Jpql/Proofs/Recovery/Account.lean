import Jpql.Proofs.Reader.Passage
import Jpql.Proofs.Tree.WellFormed

/-! # Recovery is accounted for

Every node for a missing expression comes with one problem that says so, and so does every node for
text that has no place. The problem is anchored at the node and has its span. No such node is left
unreported or reported twice, since the nodes in the order of their ids and the problems in the order
in which they were met are the same list (`parse_accounted`).

* `Parse.Draft.Tallies`: the two lists of a draft are the same.
* `Parse.Pairing.invariant`: every basic step keeps it so. Recovery adds to both lists, and whatever
  else is done adds to neither. -/

namespace Jpql

/-- Nodes that stand for a missing expression. -/
def NodeKind.isMissing : NodeKind → Bool
  | .bad => true
  | _ => false

/-- Nodes that stand for text that has no place. -/
def NodeKind.isLeftover : NodeKind → Bool
  | .unknown _ => true
  | _ => false

/-- Reading a path as collection-valued makes no recovery node of it, nor of anything else. -/
theorem NodeKind.isRecovery_asCollection (kind : NodeKind) :
    kind.asCollection = kind ∨
      kind.asCollection.isRecovery = false ∧ kind.isRecovery = false := by
  cases kind <;> first | exact .inl rfl | exact .inr ⟨rfl, rfl⟩

/-- Where a problem is anchored, and its span. -/
def Problem.place (problem : Problem) : Option NodeId × Span := (problem.anchor, problem.span)

/-- The places of the problems with certain causes, in their order. -/
def Problem.places (keys : ProblemKey → Bool) (problems : List Problem) :
    List (Option NodeId × Span) :=
  (problems.filter (keys ·.key)).map Problem.place

/-- The nodes of certain kinds with their spans, in the order of their ids. -/
def Tree.places (kinds : NodeKind → Bool) (tree : Tree) : List (Option NodeId × Span) :=
  ((List.range tree.size).filter (kinds <| tree.kind ·)).map fun id => (some id, tree.span id)

/-- **Recovery is accounted for.** The nodes for missing expressions are the places where an
expression is reported missing, the nodes for leftover text those where text is reported unknown or
nested too deep, each once and with its span. A missing expression takes no text. -/
structure Parsed.Accounted (parsed : Parsed) : Prop where
  missing : Problem.places (· == .missingExpression) parsed.problems =
    parsed.tree.places NodeKind.isMissing
  leftover : Problem.places ProblemKey.isLeftover parsed.problems =
    parsed.tree.places NodeKind.isLeftover
  empty : ∀ id < parsed.tree.size, parsed.tree.kind id = .bad →
    (parsed.tree.span id).start = (parsed.tree.span id).stop

/-- Without problems of recovery there are no nodes of recovery. -/
theorem Parsed.Accounted.clean {parsed : Parsed} (h : parsed.Accounted)
    (hclean : ∀ problem ∈ parsed.problems, problem.key.isRecovery = false) :
    ∀ id < parsed.tree.size, (parsed.tree.kind id).isRecovery = false := by
  have hnone : ∀ (kinds : NodeKind → Bool) (keys : ProblemKey → Bool),
      (∀ key, key.isRecovery = false → keys key = false) →
      Problem.places keys parsed.problems = parsed.tree.places kinds →
      ∀ id < parsed.tree.size, kinds (parsed.tree.kind id) = false := by
    intro kinds keys hkeys hplaces id hid
    have hnil : parsed.problems.filter (keys ·.key) = [] :=
      List.filter_eq_nil_iff.mpr fun problem hmem => by
        rw [hkeys _ (hclean problem hmem)]
        exact Bool.false_ne_true
    rw [Problem.places, hnil, List.map_nil, Tree.places, eq_comm, List.map_eq_nil_iff,
      List.filter_eq_nil_iff] at hplaces
    simpa using hplaces id (List.mem_range.mpr hid)
  intro id hid
  have hmissing := hnone _ _ (fun key hk => by cases key <;> first | rfl | cases hk) h.missing id hid
  have hleftover := hnone _ _ (fun key hk => by cases key <;> first | rfl | cases hk) h.leftover id hid
  cases hk : parsed.tree.kind id with
  | bad =>
    rw [hk] at hmissing
    cases hmissing
  | unknown text =>
    rw [hk] at hleftover
    cases hleftover
  | _ => rfl

namespace Parse

/-! ## Tallies -/

namespace Draft

/-- The nodes of certain kinds with their spans, in the order of their ids. -/
def places (kinds : NodeKind → Bool) (draft : Draft) : List (Option NodeId × Span) :=
  ((List.range draft.size).filter (kinds <| draft.kind ·)).map fun id => (some id, draft.span id)

/-- **The nodes of certain kinds are the places of the problems with certain causes.** -/
def Tallies (kinds : NodeKind → Bool) (keys : ProblemKey → Bool) (draft : Draft) : Prop :=
  Problem.places keys draft.problems = draft.places kinds

variable (kinds : NodeKind → Bool) (keys : ProblemKey → Bool) (draft : Draft)

/-- A new node comes last. -/
theorem places_push (new : NodeKind) (span : Span) : (draft.push new span).places kinds =
    draft.places kinds ++ if kinds new then [(some draft.size, span)] else [] := by
  have hold : ((List.range draft.size).filter (kinds <| (draft.push new span).kind ·)).map
      (fun id => (some id, (draft.push new span).span id)) = draft.places kinds := by
    rw [places, List.filter_congr (q := (kinds <| draft.kind ·)) fun id hid => by
      rw [(draft.grows_push new span).kind_eq id (List.mem_range.mp hid)]]
    refine List.map_congr_left fun id hid => ?_
    rw [draft.span_push_of_lt new span (List.mem_range.mp (List.mem_filter.mp hid).1)]
  rw [places, size_push, List.range_succ, List.filter_append, List.map_append, hold,
    List.filter_cons, kind_push, List.filter_nil]
  split
  · rw [List.map_singleton, span_push]
  · rfl

theorem places_asCollection (hplain : ∀ kind, kind.isRecovery = false → kinds kind = false)
    (id : Nat) : (draft.asCollection id).places kinds = draft.places kinds := by
  have hkind : ∀ other, kinds ((draft.asCollection id).kind other) = kinds (draft.kind other) := by
    intro other
    rcases Nat.lt_or_ge id draft.size with hlt | hge
    · rw [kind_asCollection draft hlt]
      split
      · next heq =>
        rw [heq]
        rcases (draft.kind id).isRecovery_asCollection with he | ⟨hnew, hold⟩
        · rw [he]
        · rw [hplain _ hnew, hplain _ hold]
      · rfl
    · rw [asCollection_eq_self]
      rw [Draft.kind, TreeBuilder.kind_of_size_le hge]
      rfl
  unfold places
  simp only [size_asCollection, hkind, span_asCollection]

/-- A new problem comes last. -/
theorem places_record (problem : Problem) : Problem.places keys (draft.record problem).problems =
    Problem.places keys draft.problems ++ if keys problem.key then [problem.place] else [] := by
  show Problem.places keys (draft.problems ++ [problem]) = _
  rw [Problem.places, List.filter_append, List.map_append, List.filter_cons, List.filter_nil]
  split <;> rfl

end Draft

/-- **Kinds of nodes and causes that recovery brings together.** -/
structure Pairing (kinds : NodeKind → Bool) (keys : ProblemKey → Bool) : Prop where
  plain : ∀ kind : NodeKind, kind.isRecovery = false → kinds kind = false
  other : ∀ key : ProblemKey, key.isRecovery = false → keys key = false
  missing : keys .missingExpression = kinds .bad
  leftover : ∀ (key : ProblemKey) (text : String), key.isLeftover = true →
    keys key = kinds (.unknown text)

variable {env : Env} {kinds : NodeKind → Bool} {keys : ProblemKey → Bool}

/-- **Every basic step keeps the tallies.** -/
theorem Pairing.invariant (h : Pairing kinds keys) :
    Invariant env fun s => s.draft.Tallies kinds keys where
  moved hs _ _ _ := hs
  renamed hs _ := hs
  pushed {s} hs kind span hplain := by
    show Problem.places keys s.draft.problems = (s.draft.push kind span).places kinds
    rw [Draft.places_push, h.plain kind (NodeKind.isRecovery_of_isPlain hplain), hs]
    exact (List.append_nil _).symm
  named {s} hs _ name _ _ _ := by
    show Problem.places keys s.draft.problems = (s.draft.variable name _).places kinds
    rw [Draft.variable, Draft.places_push, h.plain _ rfl, hs]
    exact (List.append_nil _).symm
  recorded {s} hs problem hplain := by
    show Problem.places keys (s.draft.record problem).problems = s.draft.places kinds
    rw [Draft.places_record, h.other problem.key hplain, hs]
    exact List.append_nil _
  missed {s} hs what n := by
    show Problem.places keys ((s.draft.push .bad (.point n)).record _).problems =
      (s.draft.push .bad (.point n)).places kinds
    rw [Draft.places_record, Draft.places_push, h.missing]
    exact congrArg (· ++ _) hs
  leftOver {s} hs key span text argument hkey := by
    show Problem.places keys ((s.draft.push (.unknown text) span).record _).problems =
      (s.draft.push (.unknown text) span).places kinds
    rw [Draft.places_record, Draft.places_push, h.leftover key text hkey]
    exact congrArg (· ++ _) hs
  reread {s} hs id := by
    show Problem.places keys s.draft.problems = (s.draft.asCollection id).places kinds
    rw [Draft.places_asCollection kinds s.draft h.plain, hs]

theorem pairing_missing : Pairing NodeKind.isMissing (· == .missingExpression) where
  plain kind hplain := by cases kind <;> first | rfl | cases hplain
  other key hplain := by cases key <;> first | rfl | cases hplain
  missing := rfl
  leftover key text hkey := by cases key <;> first | rfl | cases hkey

theorem pairing_leftover : Pairing NodeKind.isLeftover ProblemKey.isLeftover where
  plain kind hplain := by cases kind <;> first | rfl | cases hplain
  other key hplain := by cases key <;> first | rfl | cases hplain
  missing := rfl
  leftover key text hkey := by cases key <;> first | rfl | cases hkey

/-- **A node for a missing expression takes no text.** -/
def Draft.MissingEmpty (draft : Draft) : Prop :=
  ∀ id < draft.size, draft.kind id = .bad → (draft.span id).start = (draft.span id).stop

theorem Draft.MissingEmpty.push {draft : Draft} (h : draft.MissingEmpty) {kind : NodeKind}
    {span : Span} (hnew : kind = .bad → span.start = span.stop) :
    (draft.push kind span).MissingEmpty := by
  intro id hid hkind
  rw [size_push] at hid
  rcases Nat.lt_succ_iff_lt_or_eq.mp hid with hlt | rfl
  · rw [(draft.grows_push kind span).kind_eq id hlt] at hkind
    rw [draft.span_push_of_lt kind span hlt]
    exact h id hlt hkind
  · rw [kind_push] at hkind
    rw [span_push]
    exact hnew hkind

theorem Draft.MissingEmpty.asCollection {draft : Draft} (h : draft.MissingEmpty) (id : Nat) :
    (draft.asCollection id).MissingEmpty := by
  intro other hother hkind
  rw [size_asCollection] at hother
  rw [span_asCollection]
  rcases Nat.lt_or_ge id draft.size with hlt | hge
  · rw [kind_asCollection draft hlt] at hkind
    split at hkind
    · next heq =>
      rcases (draft.kind id).isRecovery_asCollection with he | ⟨hnew, -⟩
      · rw [he, ← heq] at hkind
        exact h other hother hkind
      · rw [hkind] at hnew
        cases hnew
    · exact h other hother hkind
  · have hsame : draft.asCollection id = draft := asCollection_eq_self (by
      rw [Draft.kind, TreeBuilder.kind_of_size_le hge]
      rfl)
    rw [hsame] at hkind
    exact h other hother hkind

theorem invariant_missingEmpty : Invariant env fun s => s.draft.MissingEmpty where
  moved hs _ _ _ := hs
  renamed hs _ := hs
  pushed hs kind span hplain := hs.push fun hbad => by rw [hbad] at hplain; cases hplain
  named hs _ _ _ _ _ := hs.push fun hbad => by cases hbad
  recorded hs _ _ := hs
  missed hs what n := hs.push fun _ => rfl
  leftOver hs key span text argument _ := hs.push fun hbad => by cases hbad
  reread hs id := hs.asCollection id

end Parse

/-! ## Texts -/

/-- What the scanner reports is not recovered from by a node. -/
theorem Scan.scan_problems (skip offset : Nat) (cs : List Char) :
    ∀ problem ∈ (scan skip offset cs).problems, problem.key.isRecovery = false := by
  induction cs generalizing skip offset with
  | nil => cases skip <;> exact fun problem hmem => absurd hmem List.not_mem_nil
  | cons c cs ih =>
    cases skip with
    | succ skip => exact ih skip _
    | zero =>
      unfold scan
      dsimp only
      split
      · exact ih 0 _
      · split
        · exact ih _ _
        · split
          · intro problem hmem
            rw [List.mem_singleton.mp hmem]
            rfl
          · intro problem hmem
            rcases List.mem_cons.mp hmem with rfl | hmem
            · rfl
            · exact ih 0 _ problem hmem

/-- Neither the problems of the scanner nor an anchor for the others changes the places of
recovery, since problems of recovery have an anchor. -/
theorem Problem.places_of_scanned {keys : ProblemKey → Bool} {scanned problems : List Problem}
    {root : NodeId} {nodes : List (Option NodeId × Span)}
    (hscanned : ∀ problem ∈ scanned, keys problem.key = false)
    (hplaces : Problem.places keys problems = nodes) (hnodes : ∀ node ∈ nodes, node.1 ≠ none) :
    Problem.places keys (scanned ++ problems.map (·.anchoredAt root)) = nodes := by
  have hnone : scanned.filter (keys ·.key) = [] := List.filter_eq_nil_iff.mpr fun problem hmem => by
    rw [hscanned problem hmem]
    exact Bool.false_ne_true
  rw [Problem.places, List.filter_append, hnone, List.nil_append, List.filter_map, List.map_map,
    ← hplaces, Problem.places]
  refine List.map_congr_left fun problem hmem => ?_
  have hanchor : problem.anchor ≠ none :=
    hnodes problem.place (hplaces ▸ List.mem_map_of_mem hmem)
  obtain ⟨id, hid⟩ := Option.ne_none_iff_exists'.mp hanchor
  show (some (problem.anchor.getD root), problem.span) = (problem.anchor, problem.span)
  rw [hid]
  rfl

/-- **Recovery is accounted for in every text**, read from any rule there is and with any limit on
nesting. In particular, a text without problems of recovery has no nodes of recovery. -/
theorem parse_accounted (source rule : String) (maxDepth : Nat)
    (hrule : (Grammar.standard.rule? rule).isSome = true) :
    ∃ parsed, parse source rule maxDepth = .ok parsed ∧ parsed.Accounted ∧
      ((∀ problem ∈ parsed.problems, problem.key.isRecovery = false) →
        ∀ id < parsed.tree.size, (parsed.tree.kind id).isRecovery = false) := by
  obtain ⟨root, state, hrun, hparse⟩ := parse_run source rule maxDepth hrule
  have hplaces : ∀ kinds keys, Parse.Pairing kinds keys →
      Problem.places keys ((tokenize source).problems ++ state.problems.map (·.anchoredAt root)) =
        (state.builder.finish source root).places kinds := by
    intro kinds keys hpairing
    have htree : (state.builder.finish source root).places kinds = state.draft.places kinds := by
      unfold Tree.places Parse.Draft.places
      simp only [Tree.kind_finish, Tree.span_finish]
      rfl
    rw [htree]
    refine Problem.places_of_scanned (fun problem hmem => hpairing.other _ ?_)
      (hpairing.invariant.query hrun rfl) fun node hmem => ?_
    · exact Scan.scan_problems 0 0 _ problem hmem
    · obtain ⟨id, -, rfl⟩ := List.mem_map.mp hmem
      exact Option.some_ne_none id
  have haccounted : Parsed.Accounted ⟨state.builder.finish source root,
      (tokenize source).problems ++ state.problems.map (·.anchoredAt root)⟩ := by
    refine ⟨hplaces _ _ Parse.pairing_missing, hplaces _ _ Parse.pairing_leftover,
      fun id hid hkind => ?_⟩
    have hempty : state.draft.MissingEmpty :=
      Parse.invariant_missingEmpty.query hrun fun id hid => absurd hid (Nat.not_lt_zero _)
    rw [Tree.kind_finish] at hkind
    rw [Tree.span_finish]
    exact hempty id hid hkind
  exact ⟨_, hparse, haccounted, haccounted.clean⟩

/-- A text with missing expressions, leftover text and too deep a level. -/
theorem parse_accounted_malformed :
    ∃ parsed, parse "SELECT ((e), , FROM E WHERE )" RuleId.statement 1 = .ok parsed ∧
      parsed.Accounted ∧
      ((∀ problem ∈ parsed.problems, problem.key.isRecovery = false) →
        ∀ id < parsed.tree.size, (parsed.tree.kind id).isRecovery = false) :=
  parse_accounted "SELECT ((e), , FROM E WHERE )" RuleId.statement 1 (by decide +kernel)

end Jpql
