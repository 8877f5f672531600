import Jpql.Check.Visit
import Jpql.Proofs.Check.Rule
import Mathlib.Data.List.Nodup

/-! # What a check finds at each depth

A check with a limit on its depth leaves out what lies below the limit. What it does can be told from
a *trace* that does not depend on the limit: everything that is found, and every variable that comes
into use, with the depth at which this happens.

* `upTo`: the entries of a trace that a limit leaves.
* `note`: variables come into use one after the other, each once.
* `Check.Trace`: what is found, what comes into use, and how deep the nodes go.
* `Check.Trace.Run`: what a run with a limit does to the state of a check. -/

namespace Jpql

/-! ### Entries with a depth -/

section

variable {α β : Type}

/-- **The entries down to a depth.** -/
def upTo (levels : Nat) (entries : List (Nat × α)) : List α :=
  (entries.filter (·.1 ≤ levels)).map (·.2)

/-- The entry one level further down. -/
def sink (entry : Nat × α) : Nat × α := (entry.1 + 1, entry.2)

/-- An entry at the surface. -/
def surface (a : α) : Nat × α := (0, a)

variable {levels : Nat} {entries others : List (Nat × α)}

@[simp] theorem upTo_nil : upTo levels ([] : List (Nat × α)) = [] := rfl

@[simp] theorem upTo_append :
    upTo levels (entries ++ others) = upTo levels entries ++ upTo levels others := by
  simp [upTo]

theorem mem_upTo {a : α} : a ∈ upTo levels entries ↔ ∃ depth ≤ levels, (depth, a) ∈ entries := by
  simp [upTo, and_comm]

@[simp] theorem upTo_surface (as : List α) : upTo levels (as.map surface) = as := by
  simp [upTo, surface, List.filter_map, Function.comp_def]

/-- Nothing that lies one level further down is left at the surface. -/
@[simp] theorem upTo_zero_sink : upTo 0 (entries.map sink) = [] := by
  simp [upTo, sink, List.filter_map, Function.comp_def]

@[simp] theorem upTo_succ_sink : upTo (levels + 1) (entries.map sink) = upTo levels entries := by
  simp [upTo, sink, List.filter_map, Function.comp_def]

theorem upTo_map (f : α → β) : upTo levels (entries.map fun entry => (entry.1, f entry.2)) =
    (upTo levels entries).map f := by
  simp [upTo, List.filter_map, Function.comp_def]

theorem upTo_filter (p : α → Bool) :
    upTo levels (entries.filter fun entry => p entry.2) = (upTo levels entries).filter p := by
  simp [upTo, List.filter_map, List.filter_filter, Function.comp_def, Bool.and_comm]

/-- **A higher limit leaves more.** -/
theorem upTo_sublist {more : Nat} (hle : levels ≤ more) :
    (upTo levels entries).Sublist (upTo more entries) := by
  refine List.Sublist.map _ ?_
  have hboth : entries.filter (·.1 ≤ levels) =
      (entries.filter (·.1 ≤ more)).filter (·.1 ≤ levels) := by
    rw [List.filter_filter]
    exact congrArg (List.filter · _) (funext fun entry => by grind)
  rw [hboth]
  exact List.filter_sublist

/-- A limit that nothing lies below leaves everything. -/
theorem upTo_eq_all (hle : ∀ entry ∈ entries, entry.1 ≤ levels) :
    upTo levels entries = entries.map (·.2) := by
  rw [upTo, List.filter_eq_self.mpr fun entry hmem => decide_eq_true (hle entry hmem)]

end

/-! ### Variables that come into use -/

/-- **Notes ids one after the other**, each of them once. -/
def note (used ids : List NodeId) : List NodeId :=
  ids.foldl (fun used id => if used.contains id then used else used ++ [id]) used

section

variable {used ids others : List NodeId} {id : NodeId}

@[simp] theorem note_nil : note used [] = used := rfl

theorem note_cons : note used (id :: ids) = note (if id ∈ used then used else used ++ [id]) ids := by
  simp [note]

theorem note_append : note used (ids ++ others) = note (note used ids) others := List.foldl_append

theorem mem_note : id ∈ note used ids ↔ id ∈ used ∨ id ∈ ids := by
  induction ids generalizing used with
  | nil => simp
  | cons first ids ih =>
    rw [note_cons, ih]
    split <;> grind

/-- What is noted already makes no difference. -/
theorem note_filter {p : NodeId → Bool} (h : ∀ id ∈ ids, p id = false → id ∈ used) :
    note used (ids.filter p) = note used ids := by
  induction ids generalizing used with
  | nil => rfl
  | cons first ids ih =>
    obtain ⟨hfirst, hrest⟩ := List.forall_mem_cons.mp h
    cases hp : p first with
    | false => rw [List.filter_cons_of_neg (by simp [hp]), note_cons, if_pos (hfirst hp), ih hrest]
    | true =>
      rw [List.filter_cons_of_pos hp, note_cons, note_cons]
      refine ih fun id hid hno => ?_
      split
      · exact hrest id hid hno
      · exact List.mem_append_left _ (hrest id hid hno)

/-- What is new is noted in its order. -/
theorem note_fresh (hnodup : ids.Nodup) (hnew : ∀ id ∈ ids, id ∉ used) :
    note used ids = used ++ ids := by
  induction ids generalizing used with
  | nil => simp
  | cons first ids ih =>
    obtain ⟨hfirst, hnodup⟩ := List.nodup_cons.mp hnodup
    obtain ⟨hnot, hnew⟩ := List.forall_mem_cons.mp hnew
    rw [note_cons, if_neg hnot, ih hnodup fun id hid => ?_, List.append_assoc, List.singleton_append]
    rw [List.mem_append, List.mem_singleton]
    rintro (hused | rfl)
    · exact hnew id hid hused
    · exact hfirst hid

/-- What is taken back might as well not have been noted. -/
theorem filter_note (p : NodeId → Bool) :
    (note used ids).filter p = note (used.filter p) (ids.filter p) := by
  induction ids generalizing used with
  | nil => rfl
  | cons first ids ih =>
    rw [note_cons, ih]
    cases hp : p first with
    | true =>
      rw [List.filter_cons_of_pos hp, note_cons]
      congr 1
      by_cases hmem : first ∈ used
      · rw [if_pos hmem, if_pos (List.mem_filter.mpr ⟨hmem, hp⟩)]
      · rw [if_neg hmem, if_neg fun h => hmem (List.mem_filter.mp h).1]
        simp [hp]
    | false =>
      rw [List.filter_cons_of_neg (by simp [hp])]
      congr 1
      split
      · rfl
      · simp [hp]

end

/-! ### Traces -/

/-- A rule on references says nothing about depth. -/
theorem ProblemKey.ne_traversalTooDeep {key : ProblemKey} (h : key.isReference = true) :
    key ≠ .traversalTooDeep := by
  rintro rfl
  cases h

/-- The problems that say something about the query. -/
def faults (problems : List Problem) : List Problem := problems.filter (·.key != .traversalTooDeep)

/-- How often it is reported that something lies too deep. -/
def marks (problems : List Problem) : Nat := problems.countP (·.key == .traversalTooDeep)

@[simp] theorem faults_append (problems others : List Problem) :
    faults (problems ++ others) = faults problems ++ faults others := List.filter_append ..

@[simp] theorem marks_append (problems others : List Problem) :
    marks (problems ++ others) = marks problems + marks others := List.countP_append

theorem faults_eq_self {problems : List Problem} :
    faults problems = problems ↔ ∀ problem ∈ problems, problem.key ≠ .traversalTooDeep := by
  simp [faults, List.filter_eq_self]

theorem marks_eq_zero {problems : List Problem} :
    marks problems = 0 ↔ ∀ problem ∈ problems, problem.key ≠ .traversalTooDeep := by
  simp [marks, List.countP_eq_zero]

namespace Check

/-- **What an operation does, whatever the limit**: what it finds and which variables come into use,
each with its depth, and how deep the nodes go that it visits. -/
structure Trace where
  found : List (Nat × Problem)
  uses : List (Nat × NodeId)
  reach : Nat

namespace Trace

/-- The nodes of the variables that come into use. -/
def nodes (t : Trace) : List NodeId := t.uses.map (·.2)

/-- **A trace in which everything lies where the operation gets to**, and every variable comes into use
once. Findings never say that something lies too deep. -/
structure Sound (t : Trace) : Prop where
  found_le : ∀ entry ∈ t.found, entry.1 ≤ t.reach
  uses_le : ∀ entry ∈ t.uses, entry.1 ≤ t.reach
  key_ne : ∀ entry ∈ t.found, entry.2.key ≠ .traversalTooDeep
  nodup : t.nodes.Nodup

/-- Problems are found at the surface. -/
def finds (problems : List Problem) : Trace := ⟨problems.map surface, [], 0⟩

/-- Nothing happens. -/
def empty : Trace := finds []

/-- **One operation after the other.** What came into use before does not do so again. -/
def andThen (t u : Trace) : Trace :=
  ⟨t.found ++ u.found, t.uses ++ u.uses.filter fun entry => !t.nodes.contains entry.2,
    max t.reach u.reach⟩

/-- The same one level further down. -/
def deeper (t : Trace) : Trace := ⟨t.found.map sink, t.uses.map sink, t.reach + 1⟩

/-- The use of a variable is taken back. -/
def without (t : Trace) (id : NodeId) : Trace :=
  ⟨t.found, t.uses.filter fun entry => entry.2 != id, t.reach⟩

variable {t u : Trace}

theorem mem_nodes {id : NodeId} : id ∈ t.nodes ↔ ∃ depth, (depth, id) ∈ t.uses := by
  simp [nodes]

theorem mem_nodes_of_mem_upTo {levels : Nat} {id : NodeId} (h : id ∈ upTo levels t.uses) :
    id ∈ t.nodes := by
  obtain ⟨depth, -, hmem⟩ := mem_upTo.mp h
  exact mem_nodes.mpr ⟨depth, hmem⟩

@[simp] theorem nodes_deeper : t.deeper.nodes = t.nodes := by
  simp [nodes, deeper, sink, Function.comp_def]

theorem nodes_andThen : (t.andThen u).nodes = t.nodes ++ u.nodes.filter (!t.nodes.contains ·) := by
  simp [nodes, andThen, List.filter_map, Function.comp_def]

theorem mem_nodes_andThen {id : NodeId} : id ∈ (t.andThen u).nodes ↔ id ∈ t.nodes ∨ id ∈ u.nodes := by
  rw [nodes_andThen, List.mem_append, List.mem_filter]
  by_cases hid : id ∈ t.nodes <;> simp [hid]

theorem nodes_without (id : NodeId) : (t.without id).nodes = t.nodes.filter (· != id) := by
  simp [nodes, without, List.filter_map, Function.comp_def]

/-- Variables come into use once, with whatever limit. -/
theorem Sound.nodup_upTo (h : t.Sound) (levels : Nat) : (upTo levels t.uses).Nodup :=
  h.nodup.sublist (List.filter_sublist.map _)

theorem sound_empty : empty.Sound := ⟨nofun, nofun, nofun, List.nodup_nil⟩

theorem sound_finds {problems : List Problem}
    (h : ∀ problem ∈ problems, problem.key ≠ .traversalTooDeep) :
    (finds problems).Sound := by
  refine ⟨fun entry hmem => ?_, nofun, fun entry hmem => ?_, List.nodup_nil⟩ <;>
    obtain ⟨problem, hproblem, rfl⟩ := List.mem_map.mp hmem
  · exact Nat.le_refl _
  · exact h problem hproblem

theorem Sound.andThen (ht : t.Sound) (hu : u.Sound) : (t.andThen u).Sound := by
  refine ⟨fun entry hmem => ?_, fun entry hmem => ?_, fun entry hmem => ?_, ?_⟩
  · rcases List.mem_append.mp hmem with hmem | hmem
    · exact Nat.le_trans (ht.found_le entry hmem) (Nat.le_max_left _ _)
    · exact Nat.le_trans (hu.found_le entry hmem) (Nat.le_max_right _ _)
  · rcases List.mem_append.mp hmem with hmem | hmem
    · exact Nat.le_trans (ht.uses_le entry hmem) (Nat.le_max_left _ _)
    · exact Nat.le_trans (hu.uses_le entry (List.mem_filter.mp hmem).1) (Nat.le_max_right _ _)
  · rcases List.mem_append.mp hmem with hmem | hmem
    · exact ht.key_ne entry hmem
    · exact hu.key_ne entry hmem
  · rw [nodes_andThen, List.nodup_append]
    refine ⟨ht.nodup, hu.nodup.filter _, fun id hid other ho heq => ?_⟩
    subst heq
    have hnew := (List.mem_filter.mp ho).2
    simp [hid] at hnew

theorem Sound.deeper (h : t.Sound) : t.deeper.Sound := by
  refine ⟨fun entry hmem => ?_, fun entry hmem => ?_, fun entry hmem => ?_, ?_⟩
  · obtain ⟨inner, hinner, rfl⟩ := List.mem_map.mp hmem
    exact Nat.succ_le_succ (h.found_le inner hinner)
  · obtain ⟨inner, hinner, rfl⟩ := List.mem_map.mp hmem
    exact Nat.succ_le_succ (h.uses_le inner hinner)
  · obtain ⟨inner, hinner, rfl⟩ := List.mem_map.mp hmem
    exact h.key_ne inner hinner
  · rw [nodes_deeper]
    exact h.nodup

theorem Sound.without (h : t.Sound) (id : NodeId) : (t.without id).Sound := by
  refine ⟨h.found_le, fun entry hmem => h.uses_le entry (List.mem_filter.mp hmem).1, h.key_ne, ?_⟩
  rw [nodes_without]
  exact h.nodup.filter _

/-- **What one operation may do before another.** A node that both use is used by the first at no greater
depth; and of the nodes that concern both, both use the same. -/
structure Before (N : NodeId → Prop) (t : Trace) (M : NodeId → Prop) (u : Trace) : Prop where
  late : ∀ entry ∈ u.uses, entry.2 ∈ t.nodes →
    ∃ first ∈ t.uses, first.2 = entry.2 ∧ first.1 ≤ entry.1
  left : ∀ id ∈ u.nodes, N id → id ∈ t.nodes
  right : ∀ id ∈ t.nodes, M id → id ∈ u.nodes

namespace Before

variable {N M M' : NodeId → Prop} {u' : Trace}

/-- Operations on nodes that lie apart are independent. -/
theorem of_apart (ht : ∀ id ∈ t.nodes, N id) (hu : ∀ id ∈ u.nodes, M id)
    (hapart : ∀ id, N id → ¬M id) : Before N t M u where
  late _ hmem hagain := absurd (hu _ (mem_nodes.mpr ⟨_, hmem⟩)) (hapart _ (ht _ hagain))
  left id hid hn := absurd (hu id hid) (hapart id hn)
  right id hid hm := absurd hm (hapart id (ht id hid))

/-- An operation may come before one after another. -/
theorem andThen (h : Before N t M u) (h' : Before N t M' u') :
    Before N t (fun id => M id ∨ M' id) (u.andThen u') where
  late entry hmem := (List.mem_append.mp hmem).elim (h.late entry) fun hmem =>
    h'.late entry (List.mem_filter.mp hmem).1
  left id hid := (mem_nodes_andThen.mp hid).elim (h.left id) (h'.left id)
  right id hid hm := mem_nodes_andThen.mpr (hm.imp (h.right id hid) (h'.right id hid))

end Before

/-- **A run with a limit** finds what lies within the limit. The first node that lies too deep is
reported. -/
structure Finds (t : Trace) (levels : Nat) (s s' : State) : Prop where
  found : faults s'.problems = faults s.problems ++ upTo levels t.found
  exceeded : s'.exceeded = (s.exceeded || decide (levels < t.reach))
  marks : marks s'.problems + s.exceeded.toNat = marks s.problems + s'.exceeded.toNat

/-- It notes what comes into use within the limit, too, and keeps the place. -/
structure Run (t : Trace) (levels : Nat) (s s' : State) : Prop extends t.Finds levels s s' where
  context : s'.context = s.context
  registers : s'.registers = s.registers
  used : s'.used = note s.used (upTo levels t.uses)

namespace Run

variable {levels : Nat} {s s' s'' : State}

theorem empty : Trace.empty.Run levels s s :=
  ⟨⟨by simp [Trace.empty, Trace.finds], by simp [Trace.empty, Trace.finds], rfl⟩, rfl, rfl, rfl⟩

/-- Problems are found. -/
theorem finds {problems : List Problem} (h : ∀ problem ∈ problems, problem.key ≠ .traversalTooDeep) :
    (Trace.finds problems).Run levels s { s with problems := s.problems ++ problems } where
  context := rfl
  registers := rfl
  found := by rw [faults_append, faults_eq_self.mpr h, Trace.finds, upTo_surface]
  used := rfl
  exceeded := by simp [Trace.finds]
  marks := by rw [marks_append, marks_eq_zero.mpr h, Nat.add_zero]

/-- **One run after the other**, where nothing comes into use again before it first did. -/
theorem andThen (ht : t.Run levels s s') (hu : u.Run levels s' s'')
    (hlate : ∀ entry ∈ u.uses, entry.2 ∈ t.nodes →
      ∃ first ∈ t.uses, first.2 = entry.2 ∧ first.1 ≤ entry.1) :
    (t.andThen u).Run levels s s'' where
  context := hu.context.trans ht.context
  registers := hu.registers.trans ht.registers
  found := by rw [hu.found, ht.found, Trace.andThen, upTo_append, List.append_assoc]
  used := by
    rw [hu.used, ht.used, Trace.andThen, upTo_append, note_append]
    rw [upTo_filter (fun id => !t.nodes.contains id), note_filter]
    intro id hid hagain
    obtain ⟨depth, hdepth, hmem⟩ := mem_upTo.mp hid
    obtain ⟨⟨shallow, other⟩, hfirst, heq, hle⟩ := hlate _ hmem (by simpa using hagain)
    rw [mem_note]
    obtain rfl : other = id := heq
    exact .inr (mem_upTo.mpr ⟨shallow, Nat.le_trans hle hdepth, hfirst⟩)
  exceeded := by
    rw [hu.exceeded, ht.exceeded, Trace.andThen, Bool.or_assoc]
    congr 1
    rw [Bool.eq_iff_iff, Bool.or_eq_true, decide_eq_true_eq, decide_eq_true_eq, decide_eq_true_eq]
    show levels < t.reach ∨ levels < u.reach ↔ levels < max t.reach u.reach
    omega
  marks := by
    have h := ht.marks
    have h' := hu.marks
    omega

end Run

end Trace

end Check

end Jpql
