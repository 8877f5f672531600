import Jpql.Proofs.Alias.Statement
import Jpql.Proofs.Alias.Text
import Jpql.Proofs.Reader.Query
import Jpql.Proofs.Token.Piece
import Jpql.Proofs.Tree.Clean

/-! # A statement with its alias written out is read

If a statement without alias is read without problems, so is every text with the tokens of the same
statement with its alias, and the trees correspond (`parse_aliased`).

* `Tree.OmitsAlias`: the trees of the statements without alias that this is about.
* `Tree.Aliased`: what is known of the other tree. -/

namespace Jpql

namespace Scan

/-- An identifier is spelled as its name. -/
theorem eq_of_lexeme?_identifier {cs : List Char} {name : String} {n : Nat}
    (h : lexeme? cs = some (.identifier name, n)) : name = String.ofList (cs.take n) := by
  have hword : ∀ {word : String} {m : Nat},
      some (wordKind word, m) = some (TokenKind.identifier name, n) → name = word ∧ m = n := by
    intro word m heq
    obtain ⟨hkind, rfl⟩ := Prod.mk.inj (Option.some.inj heq)
    unfold wordKind at hkind
    split at hkind <;> cases hkind
    exact ⟨rfl, rfl⟩
  unfold lexeme? at h
  split at h
  · cases h
  · rw [Option.map_eq_some_iff] at h
    obtain ⟨_, -, heq⟩ := h
    cases heq
  · split at h <;> cases h
  · split at h <;> cases h
  · split at h
    · obtain ⟨rfl, rfl⟩ := hword h
      rfl
    · split at h
      · cases h
      · cases h
      · unfold symbol? at h
        split at h <;> cases h

end Scan

/-- Identifiers among the tokens of pieces are spelled as their names. -/
theorem Piece.Fit.text_identifier {ps : List Piece} (h : Piece.Fit ps) (before : List Char) :
    ∀ token ∈ Piece.tokens (Text.byteLength before) ps, ∀ name, token.kind = .identifier name →
      token.text (String.ofList (before ++ Piece.render ps)) = name := by
  induction h generalizing before with
  | nil => simp [Piece.tokens]
  | @cons p ps hl hgap h ih =>
    intro token hmem name hkind
    have hrest := ih (before ++ (p.chars ++ p.gap))
    rw [Text.byteLength_append] at hrest
    rw [Piece.tokens, List.mem_cons] at hmem
    rcases hmem with rfl | hmem
    · have hslice := Text.slice_append before p.chars (p.gap ++ Piece.render ps)
      have hname := Scan.eq_of_lexeme?_identifier (hl.trans (by rw [show p.kind = _ from hkind]))
      rw [List.take_left] at hname
      rw [hname]
      simpa only [Token.text, Piece.render, List.append_assoc] using hslice
    · simpa only [Piece.render, List.append_assoc] using hrest token hmem name hkind

/-- **The text of an identifier is its name**, in a text without lexical problems. -/
theorem text_of_identifier {source : String} (h : (tokenize source).problems = []) {token : Token}
    (hmem : token ∈ (tokenize source).tokens) {name : String} (hkind : token.kind = .identifier name) :
    token.text source = name := by
  obtain ⟨lead, ps, hsource, hlead, hfit⟩ := Scan.exists_fit source.toList 0 h
  rw [tokenize_of_fit source hlead hfit hsource] at hmem
  rcases List.mem_append.mp hmem with hmem | hmem
  · have htext := hfit.text_identifier lead token hmem name hkind
    rwa [← hsource, String.ofList_toList] at htext
  · rw [List.mem_singleton] at hmem
    rw [hmem] at hkind
    cases hkind

/-! ## Trees -/

namespace Tree

/-- **A tree that could be that of a statement without alias.** Its variables are all virtual: no alias
is declared, and no name starts with the name of the entity. -/
def OmitsAlias (tree : Tree) : Prop := ∀ id < tree.size, (tree.kind id).omitsAlias tree.kind = true

instance (tree : Tree) : Decidable tree.OmitsAlias :=
  inferInstanceAs (Decidable (∀ id < tree.size, (tree.kind id).omitsAlias tree.kind = true))

/-- **The tree `y` is `x` with the alias `v` written out.** A bare field is one node there. -/
structure Aliased (x y : Tree) (v : String) : Prop where
  root : y.root = x.image x.root
  kind : ∀ id < x.size, (x.kind id).isField = false →
    x.Matches v (x.kind id) (y.kind (x.image id)) id
  field : ∀ id name isVirtual, ∀ path : Nat, x.kind id = .identifier name isVirtual (some path) →
    path + 1 = id
  owner : ∀ id name, x.kind id = .identifier name true none → x.Owns name

end Tree

section

open Parse

variable {source aliased v rule : String} {maxDepth : Nat} {parsed : Parsed}

/-- **Both texts are read in the surroundings of their tokens.** -/
theorem textEnv_aliased (maxDepth : Nat) (hlexed : (tokenize source).problems = []) {tree : Tree}
    (hsource : tree.source = source)
    (htokens : (tokenize aliased).tokens.map (Token.spelled aliased) = tree.aliasedTokens v) :
    (textEnv source maxDepth).Aliased (textEnv aliased maxDepth) tree v where
  inOrder := textEnv_inOrder source maxDepth
  source := hsource
  tokens := by
    rw [Tree.aliasedTokens, hsource] at htokens
    exact htokens
  words token hmem name hkind := text_of_identifier hlexed hmem hkind
  grammarLeft := rfl
  grammarRight := rfl
  maxDepth := rfl

/-- The alias can be written into a text that is read without problems. -/
theorem spellsAliased_of_parse (v : Name) (hparse : parse source rule maxDepth = .ok parsed)
    (hclean : parsed.problems = []) :
    parsed.tree.SpellsAliased v.text (parsed.tree.aliasedText v.text) := by
  obtain ⟨root, state, -, hparse'⟩ := parse_run source rule maxDepth (isSome_rule_of_parse hparse)
  obtain rfl := Except.ok.inj (hparse.symm.trans hparse')
  exact Tree.spellsAliased_aliasedText v (List.append_eq_nil_iff.mp hclean).1

/-- **A statement with its alias written out is read** if the statement without it is, and the trees
correspond. -/
theorem parse_aliased (hparse : parse source rule maxDepth = .ok parsed)
    (hclean : parsed.problems = []) (homits : parsed.tree.OmitsAlias)
    (hspells : parsed.tree.SpellsAliased v aliased) :
    ∃ other, parse aliased rule maxDepth = .ok other ∧ other.problems = [] ∧
      parsed.tree.Aliased other.tree v := by
  obtain ⟨hlexed, htokens⟩ := hspells
  have hrule := isSome_rule_of_parse hparse
  obtain ⟨root, state, hrun, hparse'⟩ := parse_run source rule maxDepth hrule
  obtain ⟨root', state', hrun', hother⟩ := parse_run aliased rule maxDepth hrule
  obtain ⟨statement, htree, -⟩ := parse_isClean hrule hparse hclean
  obtain rfl := Except.ok.inj (hparse.symm.trans hparse')
  obtain ⟨hlexed', hproblems⟩ := List.append_eq_nil_iff.mp hclean
  rw [List.map_eq_nil_iff] at hproblems
  let M : Mirror := ⟨_, _, _, v, textEnv_aliased maxDepth hlexed' rfl htokens,
    htree.wellFormed, homits⟩
  have hkind : ∀ id, M.tree.kind id = state.draft.kind id := Tree.kind_finish state.builder source root
  have hinside : state.position ≤ M.left.tokens.size - 1 :=
    ((Passage.invariant .initial).query hrun (.refl (Nat.zero_le _))).inside
  have hleads : M.Leads state :=
    { inside := M.aliased.inOrder.lt_size hinside
      problems := hproblems
      size_le := Nat.le_refl _
      span_eq := fun id _ => Tree.span_finish state.builder source root id
      kind_eq := fun id _ => .inl (hkind id)
      ahead := fun id hle hlt => absurd hlt (Nat.not_lt.mpr hle) }
  have hrel : M.Rel .initial .initial :=
    { position := rfl
      owner := nofun
      virtualLeft := nofun
      virtualRight := rfl
      problems := rfl
      size := rfl
      kind := nofun
      field := nofun
      behind := nofun
      noType := fun id expression h => by cases h }
  obtain ⟨-, -, -, hmirror⟩ := Mirror.follows_query (Mirror.nested_level maxDepth) rule .initial .initial
    root state hrun hleads trivial
  obtain ⟨t, hright, hlast⟩ := hmirror hrel
  obtain ⟨rfl, rfl⟩ := Prod.mk.inj (Except.ok.inj (hrun'.symm.trans hright))
  refine ⟨_, hother, ?_, ?_⟩
  · show (tokenize aliased).problems ++ state'.problems.map _ = []
    rw [hlexed, hlast.problems]
    rfl
  · have hbound : ∀ id, state.draft.kind id ≠ .bad → id < state.draft.size := fun id hne =>
      Nat.lt_of_not_le fun hle => hne (TreeBuilder.kind_of_size_le hle)
    exact
      { root := rfl
        kind := fun id hid hfield => by
          have hmatches := hlast.kind id hid (hkind id ▸ hfield)
          rw [← hkind] at hmatches
          rw [Tree.kind_finish state'.builder]
          exact hmatches
        field := fun id name isVirtual path hk => by
          have hk' : state.draft.kind id = _ := (hkind id).symm.trans hk
          exact (hlast.field id (hbound id (by rw [hk']; nofun)) name isVirtual path hk').1
        owner := fun id name hk => by
          have hk' : state.draft.kind id = _ := (hkind id).symm.trans hk
          exact hlast.virtualLeft id (hbound id (by rw [hk']; nofun)) name hk' }

end

end Jpql
