import Jpql.Proofs.Scope.Names
import Mathlib.Data.List.Nodup

/-! # A scope has each variable once

The names of a scope stand at nodes that are pairwise distinct: each is introduced by a node of its
own, an entry of the `FROM` clause or a part of one, or an item of the `SELECT` clause.

* `Scope.nodup_names`: no node is named twice.
* `DeclaredVariables.perm_nodes`: a table of variables loses no node. -/

namespace Jpql

namespace DeclaredVariables

/-- The nodes of all variables. -/
def nodes (table : DeclaredVariables) : List Nat := table.entries.flatMap (·.2)

theorem perm_insert (table : DeclaredVariables) (name : String) (node : Nat) :
    (table.insert name node).nodes.Perm (table.nodes ++ [node]) := by
  unfold nodes insert
  induction table.entries with
  | nil => exact .refl _
  | cons entry rest ih =>
    simp only [insertKey]
    split
    · rw [List.flatMap_cons, List.flatMap_cons, List.append_assoc, List.append_assoc]
      exact List.perm_append_comm.append_left _
    · split
      · exact (List.perm_append_singleton node _).symm
      · rw [List.flatMap_cons, List.flatMap_cons, List.append_assoc]
        exact ih.append_left _

/-- **A table of variables loses no node.** -/
theorem perm_nodes (scope : Scope) (table : DeclaredVariables) :
    (scope.addTo table).nodes.Perm (table.nodes ++ scope.names.map (·.2)) := by
  unfold Scope.addTo
  generalize scope.names = names
  induction names generalizing table with
  | nil => simp
  | cons entry names ih =>
    refine (ih _).trans ?_
    rw [List.map_cons, ← List.singleton_append, ← List.append_assoc]
    exact (perm_insert table entry.1 entry.2).append_right _

/-- The nodes of the variables that are declared more than once are among those of all. -/
theorem sublist_duplicates (table : DeclaredVariables) :
    (table.duplicates.flatMap (·.2)).Sublist table.nodes := by
  unfold duplicates nodes
  induction table.entries with
  | nil => exact .refl _
  | cons entry rest ih =>
    rw [List.filter_cons]
    split
    · exact ih.append_left _
    · exact ih.trans (List.sublist_append_right _ _)

end DeclaredVariables

namespace Tree

variable {tree : Tree}

/-- The variable that a node introduces, if any. -/
def introduced (tree : Tree) (id : Nat) : List Nat := (tree.kind id).introduces?.toList

theorem holds_introduced (hwf : tree.WellFormed) {id node : Nat} (h : node ∈ tree.introduced id) :
    tree.Holds id node :=
  Holds.refl.of_child hwf (NodeKind.introduces?_mem_children (by simpa [introduced] using h))

/-- **Different nodes introduce different variables.** -/
theorem nodup_introduced (hwf : tree.WellFormed) {ids : List Nat} (h : ids.Nodup) :
    (ids.flatMap tree.introduced).Nodup := by
  refine List.nodup_flatMap.mpr ⟨fun id _ => Option.toList_nodup _, h.imp fun {a b} hne => ?_⟩
  refine fun node ha hb => hne ?_
  have hpa := hwf.child a node (NodeKind.introduces?_mem_children (by simpa [introduced] using ha))
  have hpb := hwf.child b node (NodeKind.introduces?_mem_children (by simpa [introduced] using hb))
  rw [hpa, Option.some_inj] at hpb
  exact hpb

/-- What entries and their parts introduce is pairwise distinct. -/
theorem nodup_entries (hwf : tree.WellFormed) (clause : Nat) :
    ((tree.children clause).flatMap fun entry => entry :: tree.children entry).Nodup := by
  refine List.nodup_flatMap.mpr ⟨fun entry _ => List.nodup_cons.mpr
    ⟨fun h => absurd (hwf.child_lt h) (Nat.lt_irrefl _), hwf.children_nodup entry⟩, ?_⟩
  have hheld : ∀ entry node, node ∈ entry :: tree.children entry → tree.Holds entry node := by
    intro entry node hmem
    rcases List.mem_cons.mp hmem with rfl | hmem
    · exact .refl
    · exact Holds.refl.of_child hwf hmem
  exact (apart_children hwf clause).imp fun hapart node ha hb =>
    hapart node (hheld _ _ ha) (hheld _ _ hb)

end Tree

namespace Scope

variable {tree : Tree}

/-! ## The names of declarations -/

theorem sublist_namedNode? (tree : Tree) (declared : Option Nat) :
    ((namedNode? (tree.variableName? declared) declared).toList.map (·.2)).Sublist
      declared.toList := by
  cases declared with
  | none => exact .refl _
  | some node => cases h : tree.variableName? (some node) <;> simp [namedNode?]

theorem sublist_range (tree : Tree) (range node : Nat) :
    ((declarationNames (tree.rangeDeclaration range node)).map (·.2)).Sublist
      (tree.introduced range) := by
  unfold Tree.rangeDeclaration Tree.introduced
  cases hk : tree.kind range with
  | rangeDeclaration root hasAs declared =>
    simpa [declarationNames, NodeKind.introduces?] using sublist_namedNode? tree declared
  | _ => exact List.nil_sublist _

theorem sublist_joins (joins : List Nat) :
    (((joins.filterMap tree.joinDeclaration?).filterMap fun join =>
      namedNode? join.name join.nameNode).map (·.2)).Sublist (joins.flatMap tree.introduced) := by
  induction joins with
  | nil => exact .refl _
  | cons join joins ih =>
    rw [List.flatMap_cons]
    cases hk : tree.kind join with
    | join type fetch path hasAs declared on =>
      have hjoin : tree.joinDeclaration? join =
          some ⟨join, path, tree.variableName? declared, declared⟩ := by
        rw [Tree.joinDeclaration?, hk]
      have hintro : tree.introduced join = declared.toList := by
        rw [Tree.introduced, hk]
        rfl
      have hhead := sublist_namedNode? tree declared
      rw [List.filterMap_cons_some hjoin, hintro, List.filterMap_cons]
      cases hname : namedNode? (tree.variableName? declared) declared with
      | none => exact ih.trans (List.sublist_append_right _ _)
      | some entry =>
        rw [hname] at hhead
        exact hhead.append ih
    | _ =>
      have hjoin : tree.joinDeclaration? join = none := by rw [Tree.joinDeclaration?, hk]
      rw [List.filterMap_cons_none hjoin]
      exact ih.trans (List.sublist_append_right _ _)

/-- **An entry names what it and its parts introduce.** -/
theorem sublist_declaration (entry : Nat) :
    ((declarationNames (tree.declaration entry)).map (·.2)).Sublist
      ((entry :: tree.children entry).flatMap tree.introduced) := by
  rw [List.flatMap_cons]
  cases hk : tree.kind entry with
  | variableDeclaration range joins =>
    have hdeclaration : tree.declaration entry =
        { tree.rangeDeclaration range entry with joins := joins.filterMap tree.joinDeclaration? } := by
      rw [Tree.declaration, hk]
    have hchildren : tree.children entry = range :: joins := by rw [Tree.children, hk]; rfl
    have hrange := sublist_range tree range entry
    have hnone : (tree.rangeDeclaration range entry).joins = [] := by
      unfold Tree.rangeDeclaration
      split <;> rfl
    rw [declarationNames, hnone, List.filterMap_nil, List.append_nil] at hrange
    rw [hdeclaration, declarationNames, List.map_append, hchildren, List.flatMap_cons]
    exact (hrange.append (sublist_joins joins)).trans (List.sublist_append_right _ _)
  | collectionDeclaration path hasAs declared =>
    have hdeclaration : tree.declaration entry =
        ⟨.collection, entry, path, none, tree.variableName? declared, declared, []⟩ := by
      rw [Tree.declaration, hk]
    have hintro : tree.introduced entry = declared.toList := by
      rw [Tree.introduced, hk]
      rfl
    rw [hdeclaration, hintro, declarationNames, List.filterMap_nil, List.append_nil]
    exact (sublist_namedNode? tree declared).trans (List.sublist_append_left _ _)
  | _ =>
    have hdeclaration : tree.declaration entry = .unknownAt entry := by rw [Tree.declaration, hk]
    rw [hdeclaration]
    exact List.nil_sublist _

/-! ## The names of statements -/

/-- What the entries of a clause name. -/
theorem sublist_entries (tree : Tree) (entries : List Nat) :
    (((entries.map tree.declaration).flatMap declarationNames).map (·.2)).Sublist
      ((entries.flatMap fun entry => entry :: tree.children entry).flatMap tree.introduced) := by
  induction entries with
  | nil => exact .refl _
  | cons entry entries ih =>
    rw [List.map_cons, List.flatMap_cons, List.map_append, List.flatMap_cons, List.flatMap_append]
    exact (sublist_declaration entry).append ih

theorem fromDeclarations_cases (tree : Tree) (clause : Option Nat) : tree.fromDeclarations clause = [] ∨
    ∃ id, clause = some id ∧ tree.fromDeclarations clause = (tree.children id).map tree.declaration := by
  cases clause with
  | none => exact .inl rfl
  | some id =>
    unfold Tree.fromDeclarations
    cases hk : tree.kind id with
    | fromClause entries | simpleFromClause entries =>
      refine .inr ⟨id, rfl, ?_⟩
      rw [Option.map_some, hk, Tree.children, hk]
      rfl
    | _ =>
      refine .inl ?_
      rw [Option.map_some, hk]

/-- **A `FROM` clause names nodes that it holds**, none of them twice. -/
theorem nodup_from (hwf : tree.WellFormed) (clause : Option Nat) :
    (((tree.fromDeclarations clause).flatMap declarationNames).map (·.2)).Nodup ∧
      ∀ node ∈ ((tree.fromDeclarations clause).flatMap declarationNames).map (·.2),
        ∃ id ∈ clause, tree.Holds id node := by
  rcases fromDeclarations_cases tree clause with heq | ⟨id, rfl, heq⟩
  · rw [heq]
    simp
  · rw [heq]
    have hsub := sublist_entries tree (tree.children id)
    refine ⟨hsub.nodup (Tree.nodup_introduced hwf (Tree.nodup_entries hwf id)), fun node hmem => ?_⟩
    obtain ⟨parent, hparent, hnode⟩ := List.mem_flatMap.mp (hsub.subset hmem)
    obtain ⟨entry, hentry, hparent⟩ := List.mem_flatMap.mp hparent
    have hheld : tree.Holds entry parent := by
      rcases List.mem_cons.mp hparent with rfl | hc
      · exact .refl
      · exact Tree.Holds.refl.of_child hwf hc
    exact ⟨id, rfl, ((Tree.Holds.refl.of_child hwf hentry).trans hheld).trans
      (Tree.holds_introduced hwf hnode)⟩

theorem sublist_results (items : List Nat) :
    ((items.filterMap tree.resultName?).map (·.2)).Sublist (items.flatMap tree.introduced) := by
  induction items with
  | nil => exact .refl _
  | cons item items ih =>
    rw [List.flatMap_cons]
    cases hname : tree.resultName? item with
    | none =>
      rw [List.filterMap_cons_none hname]
      exact ih.trans (List.sublist_append_right _ _)
    | some entry =>
      have hintro : tree.introduced item = [entry.2] := by
        unfold Tree.resultName? at hname
        split at hname
        · next hk =>
          obtain ⟨name, -, hentry⟩ := Option.bind_eq_some_iff.mp hname
          rw [← Option.some.inj hentry, Tree.introduced, hk]
          rfl
        · cases hname
      rw [List.filterMap_cons_some hname, hintro]
      exact ih.cons_cons _

/-- **A `SELECT` clause names nodes that it holds**, none of them twice. -/
theorem nodup_results (hwf : tree.WellFormed) (select : Nat) :
    ((tree.resultNames select).map (·.2)).Nodup ∧
      ∀ node ∈ (tree.resultNames select).map (·.2), tree.Holds select node := by
  have hsub : ((tree.resultNames select).map (·.2)).Sublist
      ((tree.children select).flatMap tree.introduced) := by
    unfold Tree.resultNames
    rw [Tree.children]
    cases hk : tree.kind select with
    | selectClause distinct items => exact sublist_results items
    | _ => exact List.nil_sublist _
  refine ⟨hsub.nodup (Tree.nodup_introduced hwf (hwf.children_nodup select)), fun node hmem => ?_⟩
  obtain ⟨item, hitem, hnode⟩ := List.mem_flatMap.mp (hsub.subset hmem)
  exact (Tree.holds_introduced hwf hnode).of_child hwf hitem

/-- **No node of a scope is named twice.** -/
theorem nodup_names (hwf : tree.WellFormed) (statement : Nat) :
    ((ofStatement tree statement).names.map (·.2)).Nodup := by
  have hselect : ∀ select clause, select ∈ tree.children statement →
      (∀ id ∈ clause, id ∈ tree.children statement ∧ id ≠ select) →
      (((tree.fromDeclarations clause).flatMap declarationNames ++ tree.resultNames select).map
        (·.2)).Nodup := by
    intro select clause hselect hclause
    obtain ⟨hfrom, hheld⟩ := nodup_from hwf clause
    obtain ⟨hresults, hbelow⟩ := nodup_results hwf select
    rw [List.map_append]
    refine List.nodup_append.mpr ⟨hfrom, hresults, fun a ha b hb hab => ?_⟩
    obtain ⟨id, hid, ha⟩ := hheld a ha
    obtain ⟨hc, hne⟩ := hclause id hid
    exact hne (Tree.Holds.unique hwf hc hselect ha (hab ▸ hbelow b hb))
  have hclause : ∀ clause,
      (((tree.clauseDeclarations clause).flatMap declarationNames ++ []).map
        fun entry : String × Nat => entry.2).Nodup := by
    intro clause
    rw [List.append_nil]
    unfold Tree.clauseDeclarations
    split
    · rw [List.flatMap_singleton]
      exact (sublist_range _ _ _).nodup (Option.toList_nodup _)
    · rw [List.flatMap_singleton]
      exact (sublist_range _ _ _).nodup (Option.toList_nodup _)
    · exact List.nodup_nil
  have hnodup := hwf.children_nodup statement
  unfold names ofStatement
  cases hk : tree.kind statement with
  | selectStatement select clause | simpleSelectStatement select clause =>
    have hchildren : tree.children statement = (tree.kind statement).children := rfl
    rw [hk] at hchildren
    rw [hchildren] at hnodup
    refine hselect select clause ?_ fun id hid => ⟨?_, ?_⟩
    · rw [hchildren]
      exact List.mem_cons_self
    · rw [hchildren]
      simp [NodeKind.children, Option.mem_def.mp hid]
    · rintro rfl
      simp [NodeKind.children, Option.mem_def.mp hid] at hnodup
  | updateStatement clause | deleteStatement clause => exact hclause clause
  | _ => exact List.nodup_nil

end Scope

end Jpql
