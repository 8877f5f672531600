import Jpql.Proofs.Grammar.DepthFirst

/-! # Dispatch tables

What a trigger leads to need not be searched for each time: it can be entered into a table, by one
walk over the rules.

* `Table`: what triggers lead to. The first entry for a trigger stays.
* `Grammar.collect`: a walk that keeps the ids it has visited and fills a table on the way.
* `Grammar.collect_depthFirst`: it meets the rules in depth-first order.
* `Grammar.table_find?`: so the table gives the first factory in that order. -/

namespace Jpql

/-- **What triggers lead to.** -/
structure Table where
  entries : List (Trigger × Construct)

namespace Table

/-- A table without entries. -/
def empty : Table := ⟨[]⟩

/-- The entry for a trigger. -/
def find? (table : Table) (trigger : Trigger) : Option Construct :=
  table.entries.lookup trigger

/-- Makes an entry for a trigger that has none. -/
def enter (table : Table) (trigger : Trigger) (construct : Construct) : Table :=
  match table.find? trigger with
  | some _ => table
  | none => ⟨(trigger, construct) :: table.entries⟩

/-- Enters a factory under each of its triggers. -/
def enterFactory (table : Table) (factory : Factory) : Table :=
  factory.triggers.foldl (·.enter · factory.construct) table

variable {table : Table} {trigger : Trigger}

@[simp] theorem find?_empty : empty.find? trigger = none := rfl

theorem find?_mk_cons (other : Trigger) (construct : Construct) :
    find? ⟨(other, construct) :: table.entries⟩ trigger =
      if trigger = other then some construct else table.find? trigger := by
  rw [find?, List.lookup_cons, find?]
  by_cases heq : trigger = other
  · rw [if_pos heq, beq_iff_eq.mpr heq]
  · rw [if_neg heq, beq_eq_false_iff_ne.mpr heq]

theorem find?_enter (other : Trigger) (construct : Construct) :
    (table.enter other construct).find? trigger =
      (table.find? trigger).or (if trigger = other then some construct else none) := by
  unfold enter
  cases hentry : table.find? other with
  | some first =>
    by_cases heq : trigger = other
    · subst heq
      rw [hentry, Option.some_or]
    · rw [if_neg heq, Option.or_none]
  | none =>
    rw [find?_mk_cons]
    by_cases heq : trigger = other
    · subst heq
      rw [hentry, Option.none_or, if_pos rfl]
    · rw [if_neg heq, if_neg heq, Option.or_none]

theorem find?_enterFactory (factory : Factory) : (table.enterFactory factory).find? trigger =
    (table.find? trigger).or
      (if factory.triggers.contains trigger then some factory.construct else none) := by
  unfold enterFactory
  induction factory.triggers generalizing table with
  | nil => simp
  | cons other triggers ih =>
    rw [List.foldl_cons, ih, find?_enter, Option.or_assoc]
    by_cases heq : trigger = other <;> simp [heq]

/-- **The first factory that a trigger selects has the entry.** -/
theorem find?_foldl (factories : List Factory) : (factories.foldl enterFactory table).find? trigger =
    (table.find? trigger).or
      ((factories.find? (·.triggers.contains trigger)).map (·.construct)) := by
  induction factories generalizing table with
  | nil => simp
  | cons factory factories ih =>
    rw [List.foldl_cons, ih, find?_enterFactory, Option.or_assoc]
    congr 1
    cases hselects : factory.triggers.contains trigger with
    | true => simp only [List.find?_cons, hselects]; rfl
    | false => simp only [List.find?_cons, hselects]; rfl

end Table

namespace Grammar

/-- **Fills a table on a walk from a rule.** A rule that is visited already is left alone; its own
factories are entered before what lies below its children. The levels of the recursion are bounded. -/
def collect (grammar : Grammar) :
    (levels : Nat) → (state : List String × Table) → (id : String) → List String × Table
  | 0, state, _ => state
  | levels + 1, (visited, table), id =>
    if visited.contains id then (visited, table)
    else match grammar.rule? id with
      | none => (id :: visited, table)
      | some rule => rule.children.foldl (grammar.collect levels)
          (id :: visited, (grammar.owned rule).foldl Table.enterFactory table)

/-- **The table of a rule.** On the way down no rule is met twice, which bounds the levels. -/
def table (grammar : Grammar) (id : String) : Table :=
  (grammar.collect (grammar.ruleCount + 1) ([], .empty) id).2

/-- **What a walk leaves behind** that has met the rules of `order`: it has visited them, apart from
ids that are not registered, and has entered their factories. -/
structure Collects (grammar : Grammar) (state : List String × Table) (ids : List String)
    (order : List Rule) (result : List String × Table) : Prop where
  depthFirst : grammar.DepthFirst state.1 ids order
  visited : ∀ name, (grammar.rule? name).isSome = true →
    (name ∈ result.1 ↔ name ∈ order.map (·.id) ++ state.1)
  table : result.2 = (order.flatMap grammar.owned).foldl Table.enterFactory state.2

variable {grammar : Grammar} {state : List String × Table} {id : String} {ids : List String}

/-- The more is visited, the fewer rules are left. -/
theorem length_unmet_le {seen visited : List String}
    (hle : ∀ name, (grammar.rule? name).isSome = true → name ∈ seen → name ∈ visited) :
    (grammar.unmet visited).length ≤ (grammar.unmet seen).length := by
  have heq : grammar.unmet visited =
      (grammar.unmet seen).filter fun rule => decide (rule.id ∉ visited) := by
    rw [unmet, unmet, List.filter_filter]
    refine List.filter_congr fun rule hrule => ?_
    have hmono := hle rule.id (rule?_isSome.mpr ⟨rule, hrule, rfl⟩)
    grind
  rw [heq]
  exact List.length_filter_le ..

/-- Visiting a rule leaves one less. -/
theorem length_unmet_lt {seen : List String} {rule : Rule} (hnew : id ∉ seen)
    (hrule : grammar.rule? id = some rule) :
    (grammar.unmet (id :: seen)).length < (grammar.unmet seen).length := by
  obtain rfl := id_of_rule? hrule
  rw [unmet_cons]
  refine List.length_filter_lt_length_iff_exists.mpr ⟨rule, ?_, by simp⟩
  exact List.mem_filter.mpr ⟨mem_rules_of_rule? hrule, decide_eq_true hnew⟩

/-- Children are walked one after the other. -/
theorem collect_foldl {levels : Nat}
    (h : ∀ (state : List String × Table) (id : String), (grammar.unmet state.1).length < levels →
      ∃ order, grammar.Collects state [id] order (grammar.collect levels state id))
    (hlevels : (grammar.unmet state.1).length < levels) :
    ∃ order, grammar.Collects state ids order (ids.foldl (grammar.collect levels) state) := by
  induction ids generalizing state with
  | nil => exact ⟨[], .nil _, fun _ _ => Iff.rfl, rfl⟩
  | cons id ids ih =>
    obtain ⟨before, hbefore⟩ := h state id hlevels
    have hless : (grammar.unmet (grammar.collect levels state id).1).length < levels :=
      Nat.lt_of_le_of_lt (length_unmet_le fun name hname hmem =>
        (hbefore.visited name hname).mpr (List.mem_append_right _ hmem)) hlevels
    obtain ⟨after, hafter⟩ := ih hless
    refine ⟨before ++ after, ?_, fun name hname => ?_, ?_⟩
    · exact hbefore.depthFirst.cons (hafter.depthFirst.congr fun name hname =>
        (hbefore.visited name hname).symm)
    · rw [List.foldl_cons, hafter.visited name hname, List.mem_append, hbefore.visited name hname]
      simp only [List.map_append, List.mem_append]
      grind
    · rw [List.foldl_cons, hafter.table, hbefore.table, List.flatMap_append, List.foldl_append]

/-- **The walk meets the rules in depth-first order**, if it may go as deep as there are rules left. -/
theorem collect_depthFirst {levels : Nat} (hlevels : (grammar.unmet state.1).length < levels) :
    ∃ order, grammar.Collects state [id] order (grammar.collect levels state id) := by
  induction levels generalizing state id with
  | zero => exact absurd hlevels (Nat.not_lt_zero _)
  | succ levels ih =>
    obtain ⟨visited, table⟩ := state
    rw [collect]
    by_cases hvisited : id ∈ visited
    · rw [if_pos (by simpa using hvisited)]
      exact ⟨[], .pass (.inl hvisited) (.nil _), fun _ _ => Iff.rfl, rfl⟩
    rw [if_neg (by simpa using hvisited)]
    cases hrule : grammar.rule? id with
    | none =>
      refine ⟨[], .pass (.inr hrule) (.nil _), fun name hname => ?_, rfl⟩
      have hne : name ≠ id := by
        rintro rfl
        simp [hrule] at hname
      simp [hne]
    | some rule =>
      have hless : (grammar.unmet (id :: visited)).length < levels :=
        Nat.lt_of_lt_of_le (length_unmet_lt hvisited hrule) (Nat.le_of_lt_succ hlevels)
      obtain ⟨below, hbelow⟩ : ∃ below, grammar.Collects
          (id :: visited, (grammar.owned rule).foldl Table.enterFactory table) rule.children below _ :=
        collect_foldl (fun _ _ => ih) hless
      refine ⟨rule :: (below ++ []), ?_, fun name hname => ?_, ?_⟩
      · exact .meet hvisited hrule hbelow.depthFirst (.nil _)
      · obtain rfl := id_of_rule? hrule
        rw [hbelow.visited name hname]
        simp only [List.append_nil, List.map_cons, List.mem_append, List.mem_cons]
        grind
      · rw [hbelow.table, List.append_nil, List.flatMap_cons, List.foldl_append]

/-- **The table of a rule gives the first factory that the trigger selects**, in depth-first order. -/
theorem table_find? (grammar : Grammar) (id : String) (trigger : Trigger) :
    (grammar.table id).find? trigger =
      ((grammar.factoriesFrom id).find? (·.triggers.contains trigger)).map (·.construct) := by
  have hlevels : (grammar.unmet []).length < grammar.ruleCount + 1 :=
    Nat.lt_succ_of_le (List.length_filter_le ..)
  obtain ⟨order, hcollects⟩ : ∃ order, grammar.Collects ([], .empty) [id] order _ :=
    collect_depthFirst hlevels
  obtain rfl := (reach_depthFirst grammar id).unique hcollects.depthFirst
  rw [table, hcollects.table, Table.find?_foldl, Table.find?_empty, Option.none_or]
  rfl

end Grammar

end Jpql
