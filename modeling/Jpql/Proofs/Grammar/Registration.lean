import Mathlib.Data.List.Nodup
import Jpql.Grammar.Basic

/-! # Registration

A grammar is built from calls that register rules and factories, in any order.

* `GrammarBuilder.addAll` makes the calls one after the other and stops at the first that fails;
  `GrammarBuilder.attemptAll` goes on, since a call that fails changes nothing.
* `GrammarBuilder.Distinct`: no id is registered twice. This holds of every builder.
* `GrammarBuilder.addAll_eq_ok`: the calls succeed where their ids are distinct, and what they
  register stands in the builder in their order.
* `GrammarBuilder.build_eq_ok`: a builder makes a grammar where it is `Closed`, which means that
  every id a rule mentions is registered. -/

namespace Jpql

/-- A call that registers a rule or a factory. -/
inductive Registration where
  | ofRule (rule : Rule)
  | ofFactory (factory : Factory)

namespace Registration

/-- The rule that is registered. -/
def rule? : Registration → Option Rule
  | .ofRule rule => some rule
  | .ofFactory _ => none

/-- The factory that is registered. -/
def factory? : Registration → Option Factory
  | .ofRule _ => none
  | .ofFactory factory => some factory

end Registration

/-! ### Tables with unique ids -/

section

variable {α : Type} {table : List α} {key : α → String}

/-- Where ids are unique, a look-up finds the entry with the id. -/
theorem find?_key (hnodup : (table.map key).Nodup) {id : String} {entry : α} :
    table.find? (key · == id) = some entry ↔ entry ∈ table ∧ key entry = id := by
  constructor
  · intro h
    exact ⟨List.mem_of_find?_eq_some h, by simpa using List.find?_some h⟩
  · rintro ⟨hmem, rfl⟩
    cases hfound : table.find? (key · == key entry) with
    | none => simpa using List.find?_eq_none.mp hfound entry hmem
    | some other =>
      have hkey : key other = key entry := by simpa using List.find?_some hfound
      have hmem' := List.mem_of_find?_eq_some hfound
      exact congrArg some (List.inj_on_of_nodup_map hnodup hmem' hmem hkey)

/-- So the order of the table does not matter to look-ups. -/
theorem find?_key_perm {other : List α} (hperm : table.Perm other)
    (hnodup : (table.map key).Nodup) (id : String) :
    other.find? (key · == id) = table.find? (key · == id) := by
  have hother : (other.map key).Nodup := (hperm.map key).nodup_iff.mp hnodup
  refine Option.ext fun entry => ?_
  rw [find?_key hnodup, find?_key hother, hperm.mem_iff]

/-- One more entry keeps ids unique where its own is new. -/
theorem nodup_key_append (hnodup : (table.map key).Nodup) (entry : α) :
    ((table ++ [entry]).map key).Nodup ↔ ¬ table.any (key · == key entry) = true := by
  rw [List.map_append, List.nodup_append]
  simp [hnodup]

end

namespace GrammarBuilder

/-- **Makes a call.** -/
def add (builder : GrammarBuilder) : Registration → Except GrammarError GrammarBuilder
  | .ofRule rule => builder.register rule
  | .ofFactory factory => builder.registerFactory factory

/-- **Makes calls one after the other**, up to the first that fails. -/
def addAll (builder : GrammarBuilder) (calls : List Registration) :
    Except GrammarError GrammarBuilder :=
  calls.foldlM add builder

/-- Makes a call and forgets about it if it fails. -/
def attempt (builder : GrammarBuilder) (call : Registration) : GrammarBuilder :=
  match builder.add call with
  | .ok next => next
  | .error _ => builder

/-- **Makes calls one after the other**, whether they succeed or not. -/
def attemptAll (builder : GrammarBuilder) (calls : List Registration) : GrammarBuilder :=
  calls.foldl attempt builder

/-- No id is taken twice. -/
structure Distinct (builder : GrammarBuilder) : Prop where
  rules : (builder.rules.map (·.id)).Nodup
  factories : (builder.factories.map (·.id)).Nodup

/-- What was registered, followed by what calls register. -/
def extend (builder : GrammarBuilder) (calls : List Registration) : GrammarBuilder :=
  ⟨builder.rules ++ calls.filterMap Registration.rule?,
    builder.factories ++ calls.filterMap Registration.factory?⟩

/-- **Every id that a rule mentions is registered.** -/
structure Closed (builder : GrammarBuilder) : Prop where
  children : ∀ rule ∈ builder.rules, ∀ child ∈ rule.children, ∃ other ∈ builder.rules, other.id = child
  factories : ∀ rule ∈ builder.rules, ∀ id ∈ rule.factories,
    ∃ factory ∈ builder.factories, factory.id = id

variable {builder next : GrammarBuilder}

theorem extend_cons (call : Registration) (calls : List Registration) :
    builder.extend (call :: calls) = (builder.extend [call]).extend calls := by
  cases call <;> simp [extend, List.filterMap_cons, Registration.rule?, Registration.factory?]

/-- What a builder held before is distinct, if what it holds afterwards is. -/
theorem Distinct.of_extend {calls : List Registration} (h : (builder.extend calls).Distinct) :
    builder.Distinct where
  rules := h.rules.sublist ((List.sublist_append_left _ _).map _)
  factories := h.factories.sublist ((List.sublist_append_left _ _).map _)

theorem distinct_empty : empty.Distinct := ⟨List.nodup_nil, List.nodup_nil⟩

theorem extend_rule (rule : Rule) :
    builder.extend [.ofRule rule] = { builder with rules := builder.rules ++ [rule] } := by
  simp [extend, List.filterMap_cons, Registration.rule?, Registration.factory?]

theorem extend_factory (factory : Factory) :
    builder.extend [.ofFactory factory] =
      { builder with factories := builder.factories ++ [factory] } := by
  simp [extend, List.filterMap_cons, Registration.rule?, Registration.factory?]

/-- A call succeeds where its id is new. -/
theorem add_eq_ok (h : builder.Distinct) {call : Registration} :
    builder.add call = .ok next ↔ next = builder.extend [call] ∧ next.Distinct := by
  cases call with
  | ofRule rule =>
    have hids := nodup_key_append h.rules rule
    rw [add, register, extend_rule]
    split
    · next htaken =>
      refine iff_of_false nofun ?_
      rintro ⟨rfl, hdistinct⟩
      exact hids.mp hdistinct.rules htaken
    · next hnew =>
      rw [Except.ok.injEq, eq_comm, iff_self_and]
      rintro rfl
      exact ⟨hids.mpr hnew, h.factories⟩
  | ofFactory factory =>
    have hids := nodup_key_append h.factories factory
    rw [add, registerFactory, extend_factory]
    split
    · next htaken =>
      refine iff_of_false nofun ?_
      rintro ⟨rfl, hdistinct⟩
      exact hids.mp hdistinct.factories htaken
    · next hnew =>
      rw [Except.ok.injEq, eq_comm, iff_self_and]
      rintro rfl
      exact ⟨h.rules, hids.mpr hnew⟩

/-- **Calls succeed where their ids are distinct**, and then the builder holds what they register. -/
theorem addAll_eq_ok (h : builder.Distinct) {calls : List Registration} :
    builder.addAll calls = .ok next ↔ next = builder.extend calls ∧ next.Distinct := by
  induction calls generalizing builder with
  | nil =>
    have hnil : builder.extend [] = builder := by simp [extend]
    rw [addAll, List.foldlM_nil, hnil]
    show Except.ok builder = .ok next ↔ _
    rw [Except.ok.injEq, eq_comm, iff_self_and]
    rintro rfl
    exact h
  | cons call calls ih =>
    rw [addAll, List.foldlM_cons, extend_cons]
    constructor
    · intro hok
      obtain ⟨middle, hadd, hrest⟩ : ∃ middle, builder.add call = .ok middle ∧
          middle.addAll calls = .ok next := by
        cases hadd : builder.add call with
        | error error => rw [hadd] at hok; cases hok
        | ok middle => exact ⟨middle, rfl, by rw [hadd] at hok; exact hok⟩
      obtain ⟨rfl, hmiddle⟩ := (add_eq_ok h).mp hadd
      exact (ih hmiddle).mp hrest
    · rintro ⟨rfl, hnext⟩
      have hmiddle := hnext.of_extend
      rw [(add_eq_ok h).mpr ⟨rfl, hmiddle⟩]
      exact (ih hmiddle).mpr ⟨rfl, hnext⟩

theorem distinct_attempt (h : builder.Distinct) (call : Registration) :
    (builder.attempt call).Distinct := by
  unfold attempt
  split
  · next hadd => exact ((add_eq_ok h).mp hadd).2
  · exact h

/-- Whatever calls are made, no id is taken twice. -/
theorem distinct_attemptAll (h : builder.Distinct) (calls : List Registration) :
    (builder.attemptAll calls).Distinct := by
  induction calls generalizing builder with
  | nil => exact h
  | cons call calls ih => exact ih (distinct_attempt h call)

/-! ### Building -/

theorem dangling?_eq_none {rule : Rule} :
    builder.dangling? rule = none ↔
      (∀ child ∈ rule.children, ∃ other ∈ builder.rules, other.id = child) ∧
        ∀ id ∈ rule.factories, ∃ factory ∈ builder.factories, factory.id = id := by
  simp [dangling?, List.find?_eq_none]

/-- **A builder makes a grammar where every id that a rule mentions is registered.** -/
theorem build_eq_ok {grammar : Grammar} :
    builder.build = .ok grammar ↔ grammar = ⟨builder.rules, builder.factories⟩ ∧ builder.Closed := by
  have hclosed : builder.rules.findSome? builder.dangling? = none ↔ builder.Closed := by
    rw [List.findSome?_eq_none_iff]
    simp only [dangling?_eq_none]
    exact ⟨fun h => ⟨fun rule hr => (h rule hr).1, fun rule hr => (h rule hr).2⟩,
      fun h rule hr => ⟨h.children rule hr, h.factories rule hr⟩⟩
  unfold build
  split
  · next error herror =>
    refine iff_of_false nofun fun h => ?_
    rw [hclosed.mpr h.2] at herror
    cases herror
  · next hnone =>
    rw [Except.ok.injEq, eq_comm, iff_self_and]
    exact fun _ => hclosed.mp hnone

end GrammarBuilder

end Jpql
