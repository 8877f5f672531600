import Mathlib.Algebra.Order.BigOperators.Group.List
import Mathlib.Algebra.Order.Ring.Nat
import Mathlib.Logic.Relation
import Jpql.Grammar.Basic

/-! # Depth-first order

The rules that a rule accepts are listed by a walk with an agenda and a bound on its steps.
Here the order is described without either.

* `Grammar.DepthFirst seen ids order`: a walk from `ids`, one after the other, that leaves out what
  is in `seen` meets the rules of `order`. There is exactly one such order.
* `Grammar.reach_depthFirst`: the walk of the grammar meets the rules in that order; its bound is
  never reached.
* `Grammar.DepthFirst.mem_iff`: the rules that are met are those that can be reached at all, along
  any cycles, and no rule is met twice. -/

namespace Jpql

namespace Grammar

variable (grammar : Grammar)

/-- **A depth-first walk.** A rule is met before what lies below its children, and its children are
taken in the order in which it lists them. What was met before is passed by, and so is an id that is
not registered. -/
inductive DepthFirst : (seen : List String) → (ids : List String) → (order : List Rule) → Prop
  | nil (seen : List String) : DepthFirst seen [] []
  | pass {seen : List String} {id : String} {ids : List String} {order : List Rule}
      (hpass : id ∈ seen ∨ grammar.rule? id = none) (rest : DepthFirst seen ids order) :
      DepthFirst seen (id :: ids) order
  | meet {seen : List String} {id : String} {ids : List String} {rule : Rule}
      {below order : List Rule} (hnew : id ∉ seen) (hrule : grammar.rule? id = some rule)
      (children : DepthFirst (id :: seen) rule.children below)
      (rest : DepthFirst (below.map (·.id) ++ id :: seen) ids order) :
      DepthFirst seen (id :: ids) (rule :: (below ++ order))

/-- One rule accepts another because it lists it as a child. -/
def Child (parent child : String) : Prop :=
  ∃ rule, grammar.rule? parent = some rule ∧ child ∈ rule.children

/-- **A rule accepts another** in any number of steps, itself in none. -/
def Reaches (id other : String) : Prop := Relation.ReflTransGen grammar.Child id other

/-- The factories of a rule's own, in the order in which it lists them. -/
def owned (rule : Rule) : List Factory := rule.factories.filterMap grammar.factory?

variable {grammar}

theorem id_of_rule? {id : String} {rule : Rule} (h : grammar.rule? id = some rule) :
    rule.id = id := by
  rw [rule?] at h
  simpa using List.find?_some h

theorem mem_rules_of_rule? {id : String} {rule : Rule} (h : grammar.rule? id = some rule) :
    rule ∈ grammar.rules :=
  List.mem_of_find?_eq_some h

theorem rule?_isSome {id : String} :
    (grammar.rule? id).isSome = true ↔ ∃ rule ∈ grammar.rules, rule.id = id := by
  simp [rule?, List.find?_isSome]

namespace DepthFirst

variable {seen ids : List String} {order : List Rule}

/-- There is only one order. -/
theorem unique (h : grammar.DepthFirst seen ids order) {other : List Rule}
    (hother : grammar.DepthFirst seen ids other) : other = order := by
  induction h generalizing other with
  | nil => cases hother; rfl
  | pass hpass _ ih =>
    cases hother with
    | pass _ rest => exact ih rest
    | meet hnew hrule _ _ => simp [hnew, hrule] at hpass
  | meet hnew hrule _ _ ihchildren ihrest =>
    cases hother with
    | pass hpass _ => simp [hnew, hrule] at hpass
    | meet _ hrule' children rest =>
      obtain rfl := Option.some_inj.mp (hrule.symm.trans hrule')
      obtain rfl := ihchildren children
      obtain rfl := ihrest rest
      rfl

/-- Every rule that is met is new, registered, and reached from one of the ids. -/
theorem reached (h : grammar.DepthFirst seen ids order) {rule : Rule} (hmem : rule ∈ order) :
    rule.id ∉ seen ∧ grammar.rule? rule.id = some rule ∧ ∃ id ∈ ids, grammar.Reaches id rule.id := by
  induction h with
  | nil => cases hmem
  | pass _ _ ih =>
    obtain ⟨hnew, hrule, id, hid, hreaches⟩ := ih hmem
    exact ⟨hnew, hrule, id, List.mem_cons_of_mem _ hid, hreaches⟩
  | @meet seen id ids parent below order hnew hparent _ _ ihchildren ihrest =>
    obtain rfl := id_of_rule? hparent
    rcases List.mem_cons.mp hmem with rfl | hmem
    · exact ⟨hnew, hparent, rule.id, List.mem_cons_self, .refl⟩
    rcases List.mem_append.mp hmem with hbelow | hlater
    · obtain ⟨hseen, hrule, child, hchild, hreaches⟩ := ihchildren hbelow
      refine ⟨fun hs => hseen (List.mem_cons_of_mem _ hs), hrule, parent.id, List.mem_cons_self, ?_⟩
      exact Relation.ReflTransGen.head ⟨parent, hparent, hchild⟩ hreaches
    · obtain ⟨hseen, hrule, id, hid, hreaches⟩ := ihrest hlater
      exact ⟨fun hs => hseen (List.mem_append_right _ (List.mem_cons_of_mem _ hs)), hrule, id,
        List.mem_cons_of_mem _ hid, hreaches⟩

/-- No rule is met twice. -/
theorem nodup (h : grammar.DepthFirst seen ids order) : (order.map (·.id)).Nodup := by
  induction h with
  | nil => exact List.nodup_nil
  | pass _ _ ih => exact ih
  | @meet seen id ids parent below order hnew hparent children rest ihchildren ihrest =>
    obtain rfl := id_of_rule? hparent
    rw [List.map_cons, List.map_append, List.nodup_cons, List.nodup_append]
    refine ⟨fun hmem => ?_, ihchildren, ihrest, ?_⟩
    · rcases List.mem_append.mp hmem with hm | hm <;> obtain ⟨rule, hrule, heq⟩ := List.mem_map.mp hm
      · exact (children.reached hrule).1 (heq ▸ List.mem_cons_self)
      · exact (rest.reached hrule).1 (heq ▸ List.mem_append_right _ List.mem_cons_self)
    · rintro _ hbelow _ hlater rfl
      obtain ⟨rule, hrule, heq⟩ := List.mem_map.mp hlater
      exact (rest.reached hrule).1 (heq ▸ List.mem_append_left _ hbelow)

/-- After the walk, every registered id it started from is among those that were met or seen, and so
are the children of every rule that was met. -/
theorem closed (h : grammar.DepthFirst seen ids order) :
    (∀ id ∈ ids, (grammar.rule? id).isSome = true → id ∈ order.map (·.id) ++ seen) ∧
      ∀ rule ∈ order, ∀ child ∈ rule.children, (grammar.rule? child).isSome = true →
        child ∈ order.map (·.id) ++ seen := by
  induction h with
  | nil => simp
  | pass hpass _ ih =>
    refine ⟨fun id hid hsome => ?_, ih.2⟩
    rcases List.mem_cons.mp hid with rfl | hid
    · rcases hpass with hseen | hnone
      · exact List.mem_append_right _ hseen
      · rw [hnone] at hsome
        cases hsome
    · exact ih.1 id hid hsome
  | @meet seen id ids parent below order hnew hparent _ _ ihchildren ihrest =>
    obtain rfl := id_of_rule? hparent
    have hmet : ∀ {name : String},
        name ∈ order.map (·.id) ++ (below.map (·.id) ++ parent.id :: seen) →
        name ∈ (parent :: (below ++ order)).map (·.id) ++ seen := by
      intro name hname
      simp only [List.map_cons, List.map_append, List.mem_append, List.mem_cons] at hname ⊢
      grind
    refine ⟨fun id hid hsome => ?_, fun rule hrule child hchild hsome => ?_⟩
    · rcases List.mem_cons.mp hid with rfl | hid
      · exact List.mem_append_left _ List.mem_cons_self
      · exact hmet (ihrest.1 id hid hsome)
    · rcases List.mem_cons.mp hrule with rfl | hrule
      · exact hmet (List.mem_append_right _ (ihchildren.1 child hchild hsome))
      rcases List.mem_append.mp hrule with hrule | hrule
      · exact hmet (List.mem_append_right _ (ihchildren.2 rule hrule child hchild hsome))
      · exact hmet (ihrest.2 rule hrule child hchild hsome)

/-- **The rules that a walk from nothing meets are those that can be reached.** -/
theorem mem_iff (h : grammar.DepthFirst [] ids order)
    (hverified : ∀ rule ∈ grammar.rules, ∀ child ∈ rule.children,
      (grammar.rule? child).isSome = true)
    (hids : ∀ id ∈ ids, (grammar.rule? id).isSome = true) {rule : Rule} :
    rule ∈ order ↔ grammar.rule? rule.id = some rule ∧ ∃ id ∈ ids, grammar.Reaches id rule.id := by
  refine ⟨fun hmem => (h.reached hmem).2, ?_⟩
  rintro ⟨hrule, id, hid, hreaches⟩
  -- The ids that are met contain the start and, with every id, its children.
  have hmet : ∀ {name : String}, grammar.Reaches id name → name ∈ order.map (·.id) := by
    intro name hname
    induction hname with
    | refl => simpa using h.closed.1 id hid (hids id hid)
    | @tail middle last _ hchild ih =>
      obtain ⟨parent, hparent, hmem⟩ := hchild
      obtain ⟨met, hmet, heq⟩ := List.mem_map.mp ih
      obtain rfl : met = parent := by
        have hself := (h.reached hmet).2.1
        rw [heq, hparent] at hself
        exact (Option.some_inj.mp hself).symm
      simpa using h.closed.2 met hmet last hmem
        (hverified met (mem_rules_of_rule? hparent) last hmem)
  obtain ⟨met, hmem, heq⟩ := List.mem_map.mp (hmet hreaches)
  have hself := (h.reached hmem).2.1
  rw [heq, hrule] at hself
  exact Option.some_inj.mp hself ▸ hmem

end DepthFirst

/-- Only the look-up of rules matters. -/
theorem DepthFirst.transfer {other : Grammar} (hrules : ∀ id, other.rule? id = grammar.rule? id)
    {seen ids : List String} {order : List Rule} (h : grammar.DepthFirst seen ids order) :
    other.DepthFirst seen ids order := by
  induction h with
  | nil seen => exact .nil seen
  | pass hpass _ ih => exact .pass (hpass.imp_right (hrules _).trans) ih
  | meet hnew hrule _ _ ihchildren ihrest =>
    exact .meet hnew ((hrules _).trans hrule) ihchildren ihrest

/-! ### The walk of the grammar -/

namespace DepthFirst

/-- Of what was met before, only the registered ids matter. -/
theorem congr {seen other ids : List String} {order : List Rule}
    (h : grammar.DepthFirst seen ids order)
    (heq : ∀ id, (grammar.rule? id).isSome = true → (id ∈ other ↔ id ∈ seen)) :
    grammar.DepthFirst other ids order := by
  induction h generalizing other with
  | nil => exact .nil other
  | @pass seen id ids order hpass _ ih =>
    refine .pass ?_ (ih heq)
    cases hrule : grammar.rule? id with
    | none => exact .inr rfl
    | some rule => exact .inl ((heq id (by simp [hrule])).mpr (by simpa [hrule] using hpass))
  | meet hnew hrule _ _ ihchildren ihrest =>
    refine .meet (fun hmem => hnew ((heq _ (by simp [hrule])).mp hmem)) hrule
      (ihchildren fun name hname => ?_) (ihrest fun name hname => ?_)
    · simp only [List.mem_cons, heq name hname]
    · simp only [List.mem_append, List.mem_cons, heq name hname]

/-- A walk from one id, and then one from others. -/
theorem cons {seen ids : List String} {id : String} {before after : List Rule}
    (h : grammar.DepthFirst seen [id] before)
    (hrest : grammar.DepthFirst (before.map (·.id) ++ seen) ids after) :
    grammar.DepthFirst seen (id :: ids) (before ++ after) := by
  cases h with
  | pass hpass rest =>
    cases rest
    exact .pass hpass hrest
  | @meet _ _ _ rule below order hnew hrule children rest =>
    cases rest
    rw [List.append_nil] at hrest ⊢
    refine .meet hnew hrule children (hrest.congr fun name _ => ?_)
    obtain rfl := id_of_rule? hrule
    simp only [List.map_cons, List.mem_append, List.mem_cons]
    grind

/-- A walk from two lists is a walk from the first and then one from the second. -/
theorem split {seen first second : List String} {order : List Rule}
    (h : grammar.DepthFirst seen (first ++ second) order) :
    ∃ before after, order = before ++ after ∧ grammar.DepthFirst seen first before ∧
      grammar.DepthFirst (before.map (·.id) ++ seen) second after := by
  generalize hids : first ++ second = ids at h
  induction h generalizing first with
  | nil =>
    obtain ⟨rfl, rfl⟩ := List.append_eq_nil_iff.mp hids
    exact ⟨[], [], rfl, .nil _, .nil _⟩
  | @pass seen id ids order hpass rest ih =>
    cases first with
    | nil =>
      obtain rfl : second = id :: ids := hids
      exact ⟨[], order, rfl, .nil _, .pass hpass rest⟩
    | cons head first =>
      obtain ⟨rfl, htail⟩ : head = id ∧ first ++ second = ids := List.cons.inj hids
      obtain ⟨before, after, rfl, hfirst, hsecond⟩ := ih htail
      exact ⟨before, after, rfl, .pass hpass hfirst, hsecond⟩
  | @meet seen id ids rule below order hnew hrule children rest _ ih =>
    cases first with
    | nil =>
      obtain rfl : second = id :: ids := hids
      exact ⟨[], _, rfl, .nil _, .meet hnew hrule children rest⟩
    | cons head first =>
      obtain ⟨rfl, htail⟩ : head = id ∧ first ++ second = ids := List.cons.inj hids
      obtain ⟨before, after, rfl, hfirst, hsecond⟩ := ih htail
      refine ⟨rule :: (below ++ before), after, by simp, .meet hnew hrule children hfirst, ?_⟩
      refine hsecond.congr fun name _ => ?_
      obtain rfl := id_of_rule? hrule
      simp only [List.map_cons, List.map_append, List.mem_append, List.mem_cons]
      grind

end DepthFirst

section

variable (grammar : Grammar) (seen : List String)

/-- The rules that have not been met. -/
def unmet : List Rule := grammar.rules.filter fun rule => decide (rule.id ∉ seen)

/-- A number of steps that is enough for a walk. -/
def steps (pending : List String) : Nat :=
  pending.length + ((grammar.unmet seen).map (·.children.length)).sum

theorem find?_unmet (id : String) :
    (grammar.unmet seen).find? (·.id == id) = if id ∈ seen then none else grammar.rule? id := by
  rw [unmet, List.find?_filter, rule?]
  split
  · next hseen => exact List.find?_eq_none.mpr fun rule _ => by grind
  · next hnew => exact congrArg (List.find? · _) (funext fun rule => by grind)

theorem unmet_cons (id : String) :
    grammar.unmet (id :: seen) = (grammar.unmet seen).filter (·.id != id) := by
  rw [unmet, unmet, List.filter_filter]
  exact congrArg (List.filter · _) (funext fun rule => by grind)

variable {grammar seen}

/-- Meeting a rule pays for its children. -/
theorem steps_meet {id : String} {rule : Rule} {pending : List String} (hnew : id ∉ seen)
    (hrule : grammar.rule? id = some rule) :
    grammar.steps (id :: seen) (rule.children ++ pending) < grammar.steps seen (id :: pending) := by
  have hmem : rule.children.length ∈
      ((grammar.unmet seen).filter (decide <| ·.id = id)).map (·.children.length) := by
    obtain rfl := id_of_rule? hrule
    refine List.mem_map.mpr ⟨rule, List.mem_filter.mpr ⟨?_, decide_eq_true rfl⟩, rfl⟩
    exact List.mem_filter.mpr ⟨mem_rules_of_rule? hrule, decide_eq_true hnew⟩
  have hle := List.le_sum_of_mem hmem
  have hsum := List.sum_map_filter_add_sum_map_filter_not (·.id = id) (·.children.length)
    (grammar.unmet seen)
  have hleft : grammar.unmet (id :: seen) = (grammar.unmet seen).filter (decide <| ¬ ·.id = id) := by
    rw [unmet_cons]
    exact congrArg (List.filter · _) (funext fun rule => by grind)
  simp only [steps, List.length_append, List.length_cons, hleft]
  omega

/-- Given enough steps, the agenda is worked off depth first. -/
theorem explore_depthFirst {fuel : Nat} {seen pending : List String}
    (hfuel : grammar.steps seen pending ≤ fuel) :
    grammar.DepthFirst seen pending (explore fuel (grammar.unmet seen) pending) := by
  induction fuel generalizing seen pending with
  | zero =>
    obtain rfl : pending = [] := by
      rw [steps] at hfuel
      exact List.length_eq_zero_iff.mp (by omega)
    exact .nil seen
  | succ fuel ih =>
    cases pending with
    | nil => exact .nil seen
    | cons id pending =>
      have hrest : grammar.steps seen pending ≤ fuel := by
        simp only [steps, List.length_cons] at hfuel ⊢
        omega
      rw [explore, find?_unmet]
      by_cases hseen : id ∈ seen
      · rw [if_pos hseen]
        exact .pass (.inl hseen) (ih hrest)
      rw [if_neg hseen]
      cases hrule : grammar.rule? id with
      | none => exact .pass (.inr hrule) (ih hrest)
      | some rule =>
        have hmeet : grammar.steps (id :: seen) (rule.children ++ pending) ≤ fuel :=
          Nat.le_of_lt_succ (Nat.lt_of_lt_of_le (steps_meet hseen hrule) hfuel)
        obtain ⟨below, order, heq, hbelow, horder⟩ := (ih hmeet).split
        simp only [← unmet_cons, heq]
        exact .meet hseen hrule hbelow horder

end

/-- **The rules reachable from a rule are listed depth first.** -/
theorem reach_depthFirst (grammar : Grammar) (id : String) :
    grammar.DepthFirst [] [id] (grammar.reach id) := by
  have hall : grammar.unmet [] = grammar.rules := List.filter_eq_self.mpr fun _ _ => by simp
  rw [reach, ← List.sum_eq_foldr]
  nth_rewrite 2 [← hall]
  refine explore_depthFirst ?_
  simp only [steps, hall, List.length_singleton]
  omega

end Grammar

end Jpql
