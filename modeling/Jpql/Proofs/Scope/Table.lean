import Jpql.Proofs.Scope.Distinct
import Mathlib.Data.String.Basic

/-! # What a table of variables lists

A table lists the nodes of each name in the order in which they were added, and no name twice. So the
variables that it gives as declared more than once are those with two nodes of the same name
(`Scope.mem_duplicates`). -/

namespace Jpql

namespace DeclaredVariables

variable {key other : String} {node : NodeId} {entries : List (String × List NodeId)}

/-- The nodes that entries list under a key. -/
def nodesAt (entries : List (String × List NodeId)) (key : String) : List NodeId :=
  (entries.filter (·.1 == key)).flatMap (·.2)

/-- **The entries are in the order of their keys**, and no key is there twice. -/
abbrev Sorted (entries : List (String × List NodeId)) : Prop :=
  entries.Pairwise fun a b => a.1 < b.1

theorem nodesAt_cons (entry : String × List NodeId) (entries : List (String × List NodeId)) (key : String) :
    nodesAt (entry :: entries) key = (if entry.1 = key then entry.2 else []) ++ nodesAt entries key := by
  unfold nodesAt
  by_cases h : entry.1 = key <;> simp [h]

theorem nodesAt_eq_nil (h : ∀ entry ∈ entries, entry.1 ≠ key) : nodesAt entries key = [] := by
  have hnone : entries.filter (·.1 == key) = [] := by simpa [List.filter_eq_nil_iff] using h
  rw [nodesAt, hnone, List.flatMap_nil]

/-- An entry lists all nodes of its key. -/
theorem nodesAt_of_mem (h : Sorted entries) {entry : String × List NodeId} (hmem : entry ∈ entries) :
    nodesAt entries entry.1 = entry.2 := by
  induction entries with
  | nil => cases hmem
  | cons first rest ih =>
    obtain ⟨hfirst, hrest⟩ := List.pairwise_cons.mp h
    rw [nodesAt_cons]
    rcases List.mem_cons.mp hmem with rfl | hlater
    · rw [if_pos rfl, nodesAt_eq_nil fun later hl => (hfirst later hl).ne', List.append_nil]
    · rw [if_neg (hfirst entry hlater).ne, List.nil_append, ih hrest hlater]

/-! ## Insertion -/

theorem sorted_insertKey (h : Sorted entries) : Sorted (insertKey key node entries) := by
  induction entries with
  | nil => exact List.pairwise_singleton _ _
  | cons first rest ih =>
    obtain ⟨hfirst, hrest⟩ := List.pairwise_cons.mp h
    simp only [insertKey]
    split
    · exact List.pairwise_cons.mpr ⟨hfirst, hrest⟩
    · split
      · next hlt =>
        refine List.pairwise_cons.mpr ⟨fun entry hmem => ?_, h⟩
        rcases List.mem_cons.mp hmem with rfl | hlater
        · exact hlt
        · exact hlt.trans (hfirst entry hlater)
      · next hne hle =>
        refine List.pairwise_cons.mpr ⟨fun entry hmem => ?_, ih hrest⟩
        have hany : (insertKey key node rest).any (·.1 == entry.1) = true :=
          List.any_eq_true.mpr ⟨entry, hmem, beq_self_eq_true _⟩
        rw [any_insertKey, Bool.or_eq_true] at hany
        rcases hany with hsame | hold
        · rw [← beq_iff_eq.mp hsame]
          exact lt_of_le_of_ne (not_lt.mp hle) (Ne.symm hne)
        · obtain ⟨old, hmem, hsame⟩ := List.any_eq_true.mp hold
          rw [← beq_iff_eq.mp hsame]
          exact hfirst old hmem

/-- **A node comes last under its key**, and nothing else changes. -/
theorem nodesAt_insertKey (h : Sorted entries) :
    nodesAt (insertKey key node entries) other =
      nodesAt entries other ++ if key = other then [node] else [] := by
  induction entries with
  | nil =>
    rw [insertKey, nodesAt_cons]
    simp [nodesAt]
  | cons first rest ih =>
    obtain ⟨hfirst, hrest⟩ := List.pairwise_cons.mp h
    simp only [insertKey]
    split
    · next hsame =>
      rw [nodesAt_cons, nodesAt_cons, hsame]
      split
      · next hother =>
        rw [nodesAt_eq_nil fun later hl => hother ▸ (hfirst later hl).ne', List.append_nil, List.append_nil]
      · rw [List.append_nil]
    · split
      · next hlt =>
        rw [nodesAt_cons]
        by_cases hother : key = other
        · subst hother
          have hnone : nodesAt (first :: rest) key = [] := nodesAt_eq_nil fun entry hmem => by
            rcases List.mem_cons.mp hmem with rfl | hlater
            · exact hlt.ne'
            · exact (hlt.trans (hfirst entry hlater)).ne'
          rw [hnone, if_pos rfl, List.append_nil, List.nil_append]
        · rw [if_neg hother, List.nil_append, List.append_nil]
      · rw [nodesAt_cons, nodesAt_cons, ih hrest, List.append_assoc]

/-! ## Duplicates -/

/-- **The variables that are declared more than once.** -/
theorem mem_duplicates {table : DeclaredVariables} (h : Sorted table.entries) :
    node ∈ table.duplicates.flatMap (·.2) ↔
      ∃ key, node ∈ nodesAt table.entries key ∧ 1 < (nodesAt table.entries key).length := by
  constructor
  · intro hmem
    obtain ⟨entry, hentry, hnode⟩ := List.mem_flatMap.mp hmem
    obtain ⟨hentry, hlength⟩ := List.mem_filter.mp hentry
    refine ⟨entry.1, ?_⟩
    rw [nodesAt_of_mem h hentry]
    exact ⟨hnode, of_decide_eq_true hlength⟩
  · rintro ⟨key, hmem, hlength⟩
    obtain ⟨entry, hentry, hnode⟩ := List.mem_flatMap.mp hmem
    obtain ⟨hentry, hkey⟩ := List.mem_filter.mp hentry
    rw [← beq_iff_eq.mp hkey, nodesAt_of_mem h hentry] at hlength
    exact List.mem_flatMap.mpr ⟨entry, List.mem_filter.mpr ⟨hentry, decide_eq_true hlength⟩, hnode⟩

end DeclaredVariables

namespace Scope

open DeclaredVariables

/-- **The nodes at which a scope introduces a name**, given in upper case. -/
def nodesNamed (scope : Scope) (key : String) : List NodeId :=
  (scope.names.filter fun name => Text.upperCase name.1 == key).map (·.2)

/-- A table of a scope lists the names of the scope. -/
theorem sorted_addTo (scope : Scope) {table : DeclaredVariables} (h : Sorted table.entries) :
    Sorted (scope.addTo table).entries ∧ ∀ key, nodesAt (scope.addTo table).entries key =
      nodesAt table.entries key ++ scope.nodesNamed key := by
  unfold addTo nodesNamed
  generalize scope.names = names
  induction names generalizing table with
  | nil => exact ⟨h, fun key => by simp⟩
  | cons name names ih =>
    have hinsert : Sorted (table.insert name.1 name.2).entries := sorted_insertKey h
    obtain ⟨hsorted, hnodes⟩ := ih hinsert
    refine ⟨hsorted, fun key => (hnodes key).trans ?_⟩
    show nodesAt (insertKey _ _ table.entries) key ++ _ = _
    rw [nodesAt_insertKey h, List.append_assoc, List.filter_cons]
    by_cases hkey : Text.upperCase name.1 = key <;> simp [hkey]

/-- **A scope declares the same name more than once** at the nodes that its table gives. -/
theorem mem_duplicates {scope : Scope} {node : NodeId} :
    node ∈ (scope.addTo .empty).duplicates.flatMap (·.2) ↔
      ∃ key, node ∈ scope.nodesNamed key ∧ 1 < (scope.nodesNamed key).length := by
  have hempty : Sorted DeclaredVariables.empty.entries := List.Pairwise.nil
  obtain ⟨hsorted, hnodes⟩ := scope.sorted_addTo hempty
  have hnone : ∀ key, nodesAt DeclaredVariables.empty.entries key = [] := fun _ => rfl
  simp only [DeclaredVariables.mem_duplicates hsorted, hnodes, hnone, List.nil_append]

end Scope

end Jpql
