import Jpql.Proofs.Alias.Node
import Jpql.Proofs.Reader.Cover
import Jpql.Proofs.Reader.Move

/-! # A statement with its alias written out

An `UPDATE` or `DELETE` may leave out the alias of its entity; the names in it are then fields of that
entity. With an alias the statement has two more tokens in front of each such name, the alias and a
dot, and one more behind the name of the entity (`Tree.withAlias`). Which tokens are names is read off
the tree: those at which a path starts.

* `Parse.Env.Aliased`: the surroundings of two runs, over a statement without alias and over the same
  statement with one.
* `Parse.Env.place`: where a token of the first is to be found in the second.
* `Parse.Env.Aliased.kind_place`: at that place stands the same token, or the alias in front of it. -/

namespace Jpql

namespace Tree

/-- A path starts at the token. -/
def startsPath (tree : Tree) (token : Token) : Bool :=
  token.kind.isNaming &&
    tree.nodes.any fun node => node.kind.isPath && node.span.start == token.span.start

/-- The token is the name of an entity. -/
def startsEntity (tree : Tree) (token : Token) : Bool :=
  token.kind.isNaming &&
    tree.nodes.any fun node => node.kind.isSchemaName && node.span.start == token.span.start

/-- The token is neither the start of a path nor the name of an entity. -/
def Keeps (tree : Tree) (token : Token) : Prop :=
  tree.startsPath token = false ∧ tree.startsEntity token = false

/-- The nodes that satisfy a property and start at a token. -/
theorem any_starts {tree : Tree} {p : NodeKind → Bool} {token : Token} :
    (tree.nodes.any fun node => p node.kind && node.span.start == token.span.start) = true ↔
      ∃ id < tree.size, p (tree.kind id) = true ∧ (tree.span id).start = token.span.start := by
  have hnode : ∀ {id : Nat} (hid : id < tree.nodes.size), tree.node id = tree.nodes[id] := by
    intro id hid
    rw [Tree.node, Array.getElem?_eq_getElem hid]
    rfl
  simp only [Array.any_eq_true, Bool.and_eq_true, beq_iff_eq, Tree.kind, Tree.span]
  refine ⟨fun ⟨id, hid, h⟩ => ⟨id, hid, ?_⟩, fun ⟨id, hid, h⟩ => ⟨id, hid, ?_⟩⟩
  · rw [hnode hid]
    exact h
  · rw [hnode hid] at h
    exact h

/-- **What stands for a token where an alias is written out.** -/
def withAlias (tree : Tree) (v : String) (token : Token) : List (TokenKind × String) :=
  if tree.startsPath token then
    [(.identifier v, v), (.dot, "."), token.spelled tree.source]
  else if tree.startsEntity token then [token.spelled tree.source, (.identifier v, v)]
  else [token.spelled tree.source]

/-- **The tokens of a statement with its alias written out**, as kinds and spellings. -/
def aliasedTokens (tree : Tree) (v : String) : List (TokenKind × String) :=
  (tokenize tree.source).tokens.flatMap (tree.withAlias v)

end Tree

namespace Parse

/-- Where a token of a statement without alias is to be found in the statement with one. -/
def Env.place (env : Env) (tree : Tree) (v : String) (i : Nat) : Nat :=
  ((env.tokens.toList.take i).flatMap (tree.withAlias v)).length

/-- **The surroundings of two runs**: over the statement without alias that was read into `tree`, and
over the same statement with an alias. -/
structure Env.Aliased (a b : Env) (tree : Tree) (v : String) : Prop where
  inOrder : a.InOrder
  source : tree.source = a.source
  tokens : b.tokens.toList.map (Token.spelled b.source) =
    a.tokens.toList.flatMap (tree.withAlias v)
  words : ∀ token ∈ a.tokens.toList, ∀ name, token.kind = .identifier name →
    token.text a.source = name
  grammarLeft : a.grammar = .standard
  grammarRight : b.grammar = .standard
  maxDepth : b.maxDepth = a.maxDepth

namespace Env.Aliased

variable {a b : Env} {tree : Tree} {v : String} (h : a.Aliased b tree v) {i : Nat}

theorem place_succ (hi : i < a.tokens.size) :
    a.place tree v (i + 1) =
      a.place tree v i + (tree.withAlias v a.tokens[i]).length := by
  rw [Env.place, Env.place, List.take_succ_eq_append_getElem (by simpa using hi),
    List.flatMap_append, List.length_append]
  simp

theorem place_mono {j : Nat} (hij : i ≤ j) : a.place tree v i ≤ a.place tree v j := by
  obtain ⟨n, rfl⟩ := Nat.exists_eq_add_of_le hij
  rw [Env.place, Env.place, List.take_add, List.flatMap_append, List.length_append]
  exact Nat.le_add_right _ _

/-- No token is lost. -/
theorem le_place (hi : i ≤ a.tokens.size) : i ≤ a.place tree v i := by
  induction i with
  | zero => exact Nat.zero_le _
  | succ i ih =>
    have hpos : 0 < (tree.withAlias v a.tokens[i]).length := by
      unfold Tree.withAlias
      split
      · simp
      · split <;> simp
    rw [place_succ hi]
    have hle := ih (Nat.le_of_succ_le hi)
    omega

include h

theorem size_eq : b.tokens.size = a.place tree v a.tokens.size := by
  have hlength := congrArg List.length h.tokens
  rw [List.length_map, Array.length_toList] at hlength
  rw [Env.place, hlength, List.take_of_length_le (by simp)]

/-- **What stands for a token is found at its place.** -/
theorem tokenAt_place (hi : i < a.tokens.size) {n : Nat}
    (hn : n < (tree.withAlias v a.tokens[i]).length) :
    b.TokenAt (a.place tree v i + n) (tree.withAlias v a.tokens[i])[n] := by
  have hlt : a.place tree v i + n < b.tokens.size := by
    have hle : a.place tree v (i + 1) ≤ a.place tree v a.tokens.size := place_mono hi
    rw [place_succ hi] at hle
    rw [h.size_eq]
    omega
  refine ⟨hlt, ?_⟩
  have hsplit : a.tokens.toList = a.tokens.toList.take i ++ (a.tokens[i] ::
      a.tokens.toList.drop (i + 1)) := by
    have hdrop : a.tokens.toList.drop i = a.tokens[i] :: a.tokens.toList.drop (i + 1) := by
      rw [List.drop_eq_getElem_cons (by simpa using hi)]
      rfl
    rw [← hdrop, List.take_append_drop]
  have hget : (b.tokens.toList.map (Token.spelled b.source))[a.place tree v i + n]? =
      (tree.withAlias v a.tokens[i])[n]? := by
    rw [h.tokens, hsplit, List.flatMap_append, List.flatMap_cons,
      List.getElem?_append_right (by rw [Env.place]; omega)]
    have hsub : a.place tree v i + n -
        ((a.tokens.toList.take i).flatMap (tree.withAlias v)).length = n := by
      rw [Env.place]
      omega
    rw [hsub, List.getElem?_append_left hn]
  rw [List.getElem?_map, List.getElem?_eq_getElem (by simpa using hlt),
    List.getElem?_eq_getElem hn, Option.map_some, Option.some_inj] at hget
  simpa using hget

/-! ## Names, the entity, and other tokens -/

/-- **In front of a name stand the alias and a dot.** -/
theorem of_startsPath (hi : i < a.tokens.size) (hpath : tree.startsPath a.tokens[i] = true) :
    b.TokenAt (a.place tree v i) (.identifier v, v) ∧
      b.TokenAt (a.place tree v i + 1) (.dot, ".") ∧
      b.TokenAt (a.place tree v i + 2) (a.tokens[i].spelled a.source) ∧
      a.place tree v (i + 1) = a.place tree v i + 3 := by
  have hall : tree.withAlias v a.tokens[i] =
      [(.identifier v, v), (.dot, "."), a.tokens[i].spelled a.source] := by
    rw [Tree.withAlias, if_pos hpath, h.source]
  have hat := fun n hn => h.tokenAt_place hi (n := n) hn
  simp only [hall, List.length_cons, List.length_nil] at hat
  exact ⟨hat 0 (by omega), hat 1 (by omega), hat 2 (by omega), by rw [place_succ hi, hall]; rfl⟩

/-- **Behind the name of the entity stands the alias.** -/
theorem of_startsEntity (hi : i < a.tokens.size) (hpath : tree.startsPath a.tokens[i] = false)
    (hentity : tree.startsEntity a.tokens[i] = true) :
    b.TokenAt (a.place tree v i) (a.tokens[i].spelled a.source) ∧
      b.TokenAt (a.place tree v i + 1) (.identifier v, v) ∧
      a.place tree v (i + 1) = a.place tree v i + 2 := by
  have hall : tree.withAlias v a.tokens[i] =
      [a.tokens[i].spelled a.source, (.identifier v, v)] := by
    rw [Tree.withAlias, hpath, if_neg Bool.false_ne_true, if_pos hentity, h.source]
  have hat := fun n hn => h.tokenAt_place hi (n := n) hn
  simp only [hall, List.length_cons, List.length_nil] at hat
  exact ⟨hat 0 (by omega), hat 1 (by omega), by rw [place_succ hi, hall]; rfl⟩

/-- **Every other token stands alone.** -/
theorem of_keeps (hi : i < a.tokens.size) (hkeeps : tree.Keeps a.tokens[i]) :
    b.TokenAt (a.place tree v i) (a.tokens[i].spelled a.source) ∧
      a.place tree v (i + 1) = a.place tree v i + 1 := by
  have hall : tree.withAlias v a.tokens[i] = [a.tokens[i].spelled a.source] := by
    rw [Tree.withAlias, hkeeps.1, if_neg Bool.false_ne_true, hkeeps.2, if_neg Bool.false_ne_true,
      h.source]
  have hat := fun n hn => h.tokenAt_place hi (n := n) hn
  simp only [hall, List.length_cons, List.length_nil] at hat
  exact ⟨hat 0 (by omega), by rw [place_succ hi, hall]; rfl⟩

theorem place_lt (hi : i < a.tokens.size) : a.place tree v i < b.tokens.size := by
  by_cases hpath : tree.startsPath a.tokens[i] = true
  · exact (h.of_startsPath hi hpath).1.1
  rw [Bool.not_eq_true] at hpath
  by_cases hentity : tree.startsEntity a.tokens[i] = true
  · exact (h.of_startsEntity hi hpath hentity).1.1
  · exact (h.of_keeps hi ⟨hpath, by simpa using hentity⟩).1.1

/-- **At the place of a token stands a token of the same kind**, or the alias in front of it. -/
theorem kind_place (hi : i < a.tokens.size) :
    TokenStream.kind ⟨b.source, b.tokens, a.place tree v i⟩ = a.tokens[i].kind ∨
      tree.startsPath a.tokens[i] = true ∧
        TokenStream.kind ⟨b.source, b.tokens, a.place tree v i⟩ = .identifier v := by
  by_cases hpath : tree.startsPath a.tokens[i] = true
  · exact .inr ⟨hpath, (h.of_startsPath hi hpath).1.kind_eq⟩
  rw [Bool.not_eq_true] at hpath
  by_cases hentity : tree.startsEntity a.tokens[i] = true
  · exact .inl (h.of_startsEntity hi hpath hentity).1.kind_eq
  · exact .inl (h.of_keeps hi ⟨hpath, by simpa using hentity⟩).1.kind_eq

/-- The token after one that stands alone is the next one, or the alias in front of that. -/
theorem peek_place (hi : i < a.tokens.size) (hkeeps : tree.Keeps a.tokens[i]) :
    (TokenStream.peek ⟨b.source, b.tokens, a.place tree v i⟩).kind =
        (TokenStream.peek ⟨a.source, a.tokens, i⟩).kind ∨
      ∃ hnext : i + 1 < a.tokens.size, tree.startsPath a.tokens[i + 1] = true ∧
        (TokenStream.peek ⟨b.source, b.tokens, a.place tree v i⟩).kind = .identifier v := by
  obtain ⟨hat, hplace⟩ := h.of_keeps hi hkeeps
  rcases Nat.lt_or_ge (i + 1) a.tokens.size with hnext | hlast
  · have hleft : TokenStream.peek ⟨a.source, a.tokens, i⟩ = a.tokens[i + 1] :=
      Env.InOrder.current_eq hnext
    have hright : (TokenStream.peek ⟨b.source, b.tokens, a.place tree v i⟩).kind =
        TokenStream.kind ⟨b.source, b.tokens, a.place tree v (i + 1)⟩ := by
      rw [hplace]
      rfl
    rw [hright, hleft]
    exact (h.kind_place hnext).imp_right fun ⟨hpath, hkind⟩ => ⟨hnext, hpath, hkind⟩
  · -- both streams are at their last token, and peek at that
    refine .inl ?_
    have hsize : b.tokens.size = a.place tree v i + 1 := by
      rw [h.size_eq, ← hplace, show a.tokens.size = i + 1 by omega]
    have hleft : TokenStream.peek ⟨a.source, a.tokens, i⟩ = a.tokens[i] := by
      show ((a.tokens[i + 1]?).or a.tokens.back?).getD TokenStream.noToken = _
      rw [Array.getElem?_eq_none hlast, Array.back?_eq_getElem?,
        show a.tokens.size - 1 = i by omega, Array.getElem?_eq_getElem hi]
      rfl
    obtain ⟨hlt, hspelled⟩ := hat
    have hright : TokenStream.peek ⟨b.source, b.tokens, a.place tree v i⟩ =
        b.tokens[a.place tree v i] := by
      show ((b.tokens[a.place tree v i + 1]?).or b.tokens.back?).getD TokenStream.noToken = _
      rw [Array.getElem?_eq_none (by omega), Array.back?_eq_getElem?,
        show b.tokens.size - 1 = a.place tree v i by omega, Array.getElem?_eq_getElem hlt]
      rfl
    rw [hleft, hright]
    exact congrArg Prod.fst hspelled

/-- **A move over a token that stands alone** is the same move on both sides. -/
theorem advance_place (hi : i < a.tokens.size) (hkeeps : tree.Keeps a.tokens[i]) :
    (TokenStream.advance ⟨b.source, b.tokens, a.place tree v i⟩).position =
      a.place tree v (TokenStream.advance ⟨a.source, a.tokens, i⟩).position := by
  have hplace := (h.of_keeps hi hkeeps).2
  have hlt := h.place_lt hi
  rw [TokenStream.position_advance _ (by simp only; omega),
    TokenStream.position_advance _ (by simp only; omega)]
  simp only
  rcases Nat.lt_or_ge (i + 1) a.tokens.size with hnext | hlast
  · have hmore := h.place_lt hnext
    rw [show min (i + 1) (a.tokens.size - 1) = i + 1 by omega]
    omega
  · have hsize : b.tokens.size = a.place tree v i + 1 := by
      rw [h.size_eq, ← hplace, show a.tokens.size = i + 1 by omega]
    rw [show min (i + 1) (a.tokens.size - 1) = i by omega]
    omega

end Env.Aliased

end Parse

end Jpql
