import Jpql.Proofs.Print.Blank
import Jpql.Proofs.Reader.Tile
import Jpql.Proofs.Tree.WellFormed

/-! # Clause texts rebuild the query

The clauses of a statement without problems stand side by side over the pieces of the text, and the text
of a clause is that of its pieces with the gaps made single spaces. So the texts of all clauses, with
single spaces between them, are the lexemes of the query with other gaps (`parse_rebuilds`). -/

namespace Jpql

variable {lead : List Char} {pieces : List Piece} {env : Parse.Env}

/-! ## Places of pieces -/

/-- **The tokens of a text are those of its pieces**, and then the end. -/
structure Parse.Env.MadeOf (env : Parse.Env) (lead : List Char) (pieces : List Piece) : Prop where
  source : env.source.toList = lead ++ Piece.render pieces
  tokens : ∃ stop, env.tokens.toList = Piece.tokens (Text.byteLength lead) pieces ++ [⟨.eof, stop⟩]

namespace Parse.Env.MadeOf

variable (h : env.MadeOf lead pieces)

include h

theorem size : env.tokens.size = pieces.length + 1 := by
  obtain ⟨stop, htokens⟩ := h.tokens
  rw [← Array.length_toList, htokens, List.length_append, Piece.length_tokens, List.length_singleton]

/-- The token of a piece stands behind the pieces before. -/
theorem token {before after : List Piece} {p : Piece} (hp : pieces = before ++ p :: after)
    (hlt : before.length < env.tokens.size) : env.tokens[before.length] =
      ⟨p.kind, ⟨Text.byteLength (lead ++ Piece.render before),
        Text.byteLength (lead ++ Piece.render before) + Text.byteLength p.chars⟩⟩ := by
  obtain ⟨stop, htokens⟩ := h.tokens
  rw [hp, Piece.tokens_append, Piece.tokens, ← Text.byteLength_append, List.append_assoc] at htokens
  rw [← Array.getElem_toList]
  simp only [htokens]
  rw [List.getElem_append_right (by simp)]
  simp

/-- **The text from one piece to another**, the gap behind the last of them left out. -/
theorem slice {before inner after : List Piece} {last : Piece}
    (hp : pieces = before ++ (inner ++ last :: after)) {stop : Nat}
    (hstop : stop = before.length + inner.length + 1) :
    Text.slice env.source ⟨env.startAt before.length, env.endBefore stop⟩ =
      String.ofList (Piece.render inner ++ last.chars) := by
  have hsize := h.size
  have hlength := congrArg List.length hp
  simp only [List.length_append, List.length_cons] at hlength
  have hfirst : env.startAt before.length = Text.byteLength (lead ++ Piece.render before) := by
    rw [Env.InOrder.startAt_eq (by omega)]
    cases inner with
    | nil => rw [h.token hp]
    | cons p inner => rw [h.token hp]
  have hlast : env.endBefore stop = Text.byteLength (lead ++ Piece.render before) +
      Text.byteLength (Piece.render inner ++ last.chars) := by
    have hlt : (before ++ inner).length < env.tokens.size := by
      rw [List.length_append]
      omega
    rw [hstop, ← List.length_append, Env.InOrder.endBefore_succ hlt,
      h.token (hp.trans (List.append_assoc before inner _).symm), Piece.render_append]
    simp only [Text.byteLength_append, Nat.add_assoc]
  have hsource : env.source = String.ofList (lead ++ Piece.render before ++
      (Piece.render inner ++ last.chars) ++ (last.gap ++ Piece.render after)) := by
    rw [← String.ofList_toList (s := env.source), h.source, hp]
    simp only [Piece.render_append, Piece.render, List.append_assoc]
  rw [hfirst, hlast, hsource, Text.slice_append]

end Parse.Env.MadeOf

/-! ## Clauses -/

/-- **The texts of the children of a node**, with single spaces between them. -/
def Tree.childrenText (tree : Tree) (id : NodeId) : String :=
  " ".intercalate ((tree.children id).map tree.parsedText)

/-- **The texts of clauses side by side** are the lexemes below them, with other gaps. -/
theorem Parse.Tiles.exists_respaced (h : env.MadeOf lead pieces) (hfit : Piece.Fit pieces)
    {tree : Tree} (hsource : tree.source = env.source) {i j : Nat} {ids : List Nat}
    (ht : Tiles env tree.span i ids j) (hj : j = pieces.length) {before rest : List Piece}
    (hp : pieces = before ++ rest) (hi : before.length = i) :
    ∃ qs, Piece.Respaced rest qs ∧
      Piece.render qs = [' '].intercalate (ids.map fun id => (tree.parsedText id).toList) := by
  induction ht generalizing before rest with
  | nil i =>
    obtain rfl : rest = [] := by
      rw [hp, List.length_append] at hj
      exact List.length_eq_zero_iff.mp (by omega)
    exact ⟨[], .nil, rfl⟩
  | @cons i m j id ids hlt hspan ht ih =>
    have hle := ht.le
    have hlength : pieces.length = before.length + rest.length := by rw [hp, List.length_append]
    -- the pieces below the clause are `inner` and `last`
    obtain ⟨inner, last, after, rfl, hinner⟩ : ∃ inner last after, rest = inner ++ last :: after ∧
        inner.length = m - i - 1 := by
      have hsplit : m - i - 1 < rest.length := by omega
      refine ⟨rest.take (m - i - 1), rest[m - i - 1], rest.drop (m - i - 1 + 1), ?_,
        List.length_take_of_le hsplit.le⟩
      rw [List.getElem_cons_drop, List.take_append_drop]
    have hafter : pieces = before ++ (inner ++ [last]) ++ after := by simp [hp]
    obtain ⟨qs, hqs, htext⟩ := ih hj hafter (by simp; omega)
    have hplain : Piece.Plain (inner ++ last :: after) := (hp ▸ hfit).of_append.plain
    rw [Piece.Plain, List.forall_mem_append, List.forall_mem_cons] at hplain
    have hclause : (tree.parsedText id).toList =
        Piece.render (inner.map Piece.tidy) ++ last.chars := by
      rw [Tree.parsedText, Tree.text, hsource, hspan, ← hi, h.slice hp (by omega),
        Piece.normalizeBlanks_render hplain.1 hplain.2.1.1]
    cases ids with
    | nil =>
      cases ht
      obtain rfl : after = [] := by
        rw [List.length_append, List.length_cons] at hlength
        exact List.length_eq_zero_iff.mp (by omega)
      cases hqs
      have hend : Piece.Respaced (inner ++ [last]) (inner.map Piece.tidy ++ [{ last with gap := [] }]) :=
        .tidy_append hplain.1 (List.forall_mem_nil _) (fun _ => rfl) .nil
      refine ⟨_, hend, ?_⟩
      simp [Piece.render_append, Piece.render, hclause]
    | cons next ids =>
      have hspace : ∀ c ∈ [' '], Scan.isGap c = true := by simp [Scan.isGap]
      refine ⟨_, .tidy_append hplain.1 hspace (by simp) hqs, ?_⟩
      rw [Piece.render_append, Piece.render, htext]
      simp only [List.map_cons, List.intercalate_cons_cons, hclause, List.append_assoc]

/-- **Clause texts rebuild the query.** In a text without problems, read as a statement or a subquery, the
texts of the children of the statement, with single spaces between them, are cut into tokens of the same
kinds as the text itself, without a problem. -/
theorem parse_rebuilds {source rule : String} {maxDepth : Nat} {parsed : Parsed}
    (hrule : rule = RuleId.statement ∨ rule = RuleId.subquery)
    (hparse : parse source rule maxDepth = .ok parsed) (hclean : parsed.problems = []) :
    ∃ statement, parsed.tree.kind parsed.tree.root = .query (some statement) none ∧
      (tokenize (parsed.tree.childrenText statement)).tokens.map (·.kind) =
        (tokenize source).tokens.map (·.kind) ∧
      (tokenize (parsed.tree.childrenText statement)).problems = [] := by
  let env := Parse.textEnv source maxDepth
  have hregistered : (Grammar.standard.rule? rule).isSome = true :=
    Grammar.standard_registers (by rcases hrule with rfl | rfl <;> simp)
  obtain ⟨root, state, hrun, hparsed⟩ := parse_run source rule maxDepth hregistered
  obtain rfl := Except.ok.inj (hparse.symm.trans hparsed)
  obtain ⟨hlexical, hproblems⟩ := List.append_eq_nil_iff.mp hclean
  obtain ⟨statement, hkind, htiles⟩ := Parse.query_tiles (Parse.textEnv_inOrder source maxDepth)
    (Parse.level_steady maxDepth) hrule root state hrun (List.map_eq_nil_iff.mp hproblems)
  -- the text is made of pieces, and the clauses of the statement stand over all of them
  obtain ⟨lead, pieces, hsource, hlead, hfit⟩ := Scan.exists_fit source.toList 0 hlexical
  have htokens := tokenize_of_fit source hlead hfit hsource
  have hmade : env.MadeOf lead pieces := ⟨hsource, _, congrArg Lexed.tokens htokens⟩
  have hspans : Parse.Tiles env (state.builder.finish source root).span 0
      ((state.builder.finish source root).children statement) (env.tokens.size - 1) := by
    rw [Tree.children, Tree.kind_finish]
    exact htiles.congr fun id _ => Tree.span_finish _ _ _ _
  obtain ⟨qs, hrespaced, htext⟩ := hspans.exists_respaced hmade hfit rfl
    (by rw [hmade.size, Nat.add_sub_cancel]) (show pieces = [] ++ pieces from rfl) rfl
  have hchildren : ((state.builder.finish source root).childrenText statement).toList =
      [] ++ Piece.render qs := by
    rw [Tree.childrenText, String.toList_intercalate, List.map_map, htext]
    rfl
  have hagain := tokenize_of_fit _ (List.forall_mem_nil _) (hrespaced.fit hfit) hchildren
  refine ⟨statement, by rw [Tree.kind_finish]; exact hkind, ?_, congrArg Lexed.problems hagain⟩
  rw [hagain, htokens]
  simp only [List.map_append, Piece.map_kind_tokens, hrespaced.map_kind, List.map_cons]

/-- A query with gaps of several kinds, with clauses that no gap divides, and with a string that has
blanks and a quote in it. -/
theorem parse_rebuilds_gaps :
    ∃ parsed, parse "SELECT\te,'it''s \n'FROM E  e WHERE e.a=1ORDER BY\n e.a " RuleId.statement 2 =
        .ok parsed ∧ parsed.problems = [] ∧ ∃ statement,
      parsed.tree.kind parsed.tree.root = .query (some statement) none ∧
      (tokenize (parsed.tree.childrenText statement)).tokens.map (·.kind) =
        (tokenize "SELECT\te,'it''s \n'FROM E  e WHERE e.a=1ORDER BY\n e.a ").tokens.map (·.kind) ∧
      (tokenize (parsed.tree.childrenText statement)).problems = [] := by
  let source := "SELECT\te,'it''s \n'FROM E  e WHERE e.a=1ORDER BY\n e.a "
  have hread : (match parse source RuleId.statement 2 with
      | .ok parsed => parsed.problems.isEmpty
      | .error _ => false) = true := by decide +kernel
  cases hparse : parse source RuleId.statement 2 with
  | error e =>
    rw [hparse] at hread
    cases hread
  | ok parsed =>
    rw [hparse] at hread
    have hclean : parsed.problems = [] := List.isEmpty_iff.mp hread
    exact ⟨parsed, rfl, hclean, parse_rebuilds (.inl rfl) hparse hclean⟩

end Jpql
