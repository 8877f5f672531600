import Jpql.Proofs.Grammar.Registration
import Jpql.Proofs.Grammar.Table

/-! # Dispatch

What a rule builds from an expression is decided by the rules that it reaches, in depth-first order.

* `Grammar.Sound`: what is known of every grammar that a builder makes.
* `Grammar.Dispatches`: the result is that of the first factory, rule by rule, that the trigger
  selects.
* `GrammarBuilder.build_dispatches`: so every rule of every grammar that can be built dispatches. -/

namespace Jpql

namespace Grammar

/-- **Ids are unique, and every id that a rule mentions is registered.** -/
structure Sound (grammar : Grammar) : Prop where
  rules : (grammar.rules.map (·.id)).Nodup
  factories : (grammar.factories.map (·.id)).Nodup
  children : ∀ rule ∈ grammar.rules, ∀ child ∈ rule.children, (grammar.rule? child).isSome = true
  owned : ∀ rule ∈ grammar.rules, ∀ id ∈ rule.factories, (grammar.factory? id).isSome = true

theorem factory?_isSome {grammar : Grammar} {id : String} :
    (grammar.factory? id).isSome = true ↔ ∃ factory ∈ grammar.factories, factory.id = id := by
  simp [factory?, List.find?_isSome]

/-- Among factories, the first that a trigger selects. -/
def First (factories : List Factory) (trigger : Trigger) (factory : Factory) : Prop :=
  trigger ∈ factory.triggers ∧ ∃ before after, factories = before ++ factory :: after ∧
    ∀ earlier ∈ before, trigger ∉ earlier.triggers

theorem first_iff {factories : List Factory} {trigger : Trigger} {factory : Factory} :
    First factories trigger factory ↔
      factories.find? (·.triggers.contains trigger) = some factory := by
  simp [First, List.find?_eq_some_iff_append]

/-- Factories in front of others win. -/
theorem First.append {factories : List Factory} {trigger : Trigger} {factory : Factory}
    (h : First factories trigger factory) (more : List Factory) :
    First (factories ++ more) trigger factory := by
  obtain ⟨hmem, before, after, rfl, hbefore⟩ := h
  exact ⟨hmem, before, after ++ more, by simp, hbefore⟩

/-- **What a rule dispatches to.** The rules that it reaches, itself first, are taken in depth-first
order, and their factories in the order in which each rule lists them: the first that the trigger
selects gives the result. The table of the rule, which is filled once, has the same entry. -/
structure Dispatches (grammar : Grammar) (rule : Rule) (trigger : Trigger) (order : List Rule)
    (result : Option Construct) : Prop where
  depthFirst : grammar.DepthFirst [] [rule.id] order
  unique : ∀ other, grammar.DepthFirst [] [rule.id] other → other = order
  mem_iff : ∀ met, met ∈ order ↔ met ∈ grammar.rules ∧ grammar.Reaches rule.id met.id
  listed : ∀ met ∈ order, (grammar.owned met).map (·.id) = met.factories
  some_iff : result.isSome = true ↔ ∃ met ∈ grammar.rules, grammar.Reaches rule.id met.id ∧
    ∃ factory ∈ grammar.owned met, trigger ∈ factory.triggers
  first : ∀ construct, result = some construct ↔
    ∃ factory, First (order.flatMap grammar.owned) trigger factory ∧ factory.construct = construct
  own : ∀ factory, First (grammar.owned rule) trigger factory → result = some factory.construct
  tabled : (grammar.table rule.id).find? trigger = result

variable {grammar : Grammar}

theorem Sound.rule?_eq_some (h : grammar.Sound) {id : String} {rule : Rule} :
    grammar.rule? id = some rule ↔ rule ∈ grammar.rules ∧ rule.id = id :=
  find?_key h.rules

/-- None of the factories that a rule lists is missing. -/
theorem Sound.map_owned (h : grammar.Sound) {rule : Rule} (hrule : rule ∈ grammar.rules) :
    (grammar.owned rule).map (·.id) = rule.factories := by
  suffices hall : ∀ ids : List String, (∀ id ∈ ids, (grammar.factory? id).isSome = true) →
      (ids.filterMap grammar.factory?).map (·.id) = ids from hall _ (h.owned rule hrule)
  intro ids hids
  induction ids with
  | nil => rfl
  | cons id ids ih =>
    obtain ⟨factory, hfactory⟩ := Option.isSome_iff_exists.mp (hids id List.mem_cons_self)
    have hid : factory.id = id := ((find?_key h.factories).mp hfactory).2
    rw [List.filterMap_cons_some hfactory, List.map_cons, hid,
      ih fun id hmem => hids id (List.mem_cons_of_mem _ hmem)]

/-- The rule itself is the first that is met. -/
theorem DepthFirst.head {rule : Rule} {order : List Rule} (hrule : grammar.rule? rule.id = some rule)
    (h : grammar.DepthFirst [] [rule.id] order) : ∃ others, order = rule :: others := by
  cases h with
  | pass hpass _ => simp [hrule] at hpass
  | meet _ hrule' _ _ =>
    obtain rfl := Option.some_inj.mp (hrule.symm.trans hrule')
    exact ⟨_, rfl⟩

/-- Every rule of a sound grammar dispatches. -/
theorem Sound.dispatches (h : grammar.Sound) {rule : Rule} (hmem : rule ∈ grammar.rules)
    (trigger : Trigger) : ∃ order result,
    grammar.dispatch rule.id trigger = .ok result ∧ grammar.Dispatches rule trigger order result := by
  have hrule : grammar.rule? rule.id = some rule := h.rule?_eq_some.mpr ⟨hmem, rfl⟩
  have horder := reach_depthFirst grammar rule.id
  have hmet : ∀ met, met ∈ grammar.reach rule.id ↔
      met ∈ grammar.rules ∧ grammar.Reaches rule.id met.id := fun met => by
    rw [horder.mem_iff h.children (by simp [hrule])]
    simp [h.rule?_eq_some]
  have hfirst : ∀ construct,
      ((grammar.factoriesFrom rule.id).find? (·.triggers.contains trigger)).map (·.construct) =
          some construct ↔
        ∃ factory, First ((grammar.reach rule.id).flatMap grammar.owned) trigger factory ∧
          factory.construct = construct := fun construct => by
    simp only [Option.map_eq_some_iff, first_iff]
    rfl
  refine ⟨grammar.reach rule.id, _, by rw [dispatch, hrule], ?_⟩
  refine ⟨horder, fun other hother => horder.unique hother, hmet, fun met hm => ?_, ?_, hfirst, ?_,
    table_find? grammar rule.id trigger⟩
  · exact h.map_owned ((hmet met).mp hm).1
  · rw [Option.isSome_map, List.find?_isSome]
    simp only [factoriesFrom, List.mem_flatMap, hmet, List.contains_iff_mem]
    constructor
    · rintro ⟨factory, ⟨met, ⟨hm, hreaches⟩, howned⟩, htrigger⟩
      exact ⟨met, hm, hreaches, factory, howned, htrigger⟩
    · rintro ⟨met, hm, hreaches, factory, howned, htrigger⟩
      exact ⟨factory, ⟨met, ⟨hm, hreaches⟩, howned⟩, htrigger⟩
  · intro factory hown
    obtain ⟨others, hothers⟩ := horder.head hrule
    refine (hfirst _).mpr ⟨factory, ?_, rfl⟩
    rw [hothers, List.flatMap_cons]
    exact hown.append _

end Grammar

namespace GrammarBuilder

/-- A grammar that is built is sound. -/
theorem build_sound {builder : GrammarBuilder} (hdistinct : builder.Distinct) {grammar : Grammar}
    (hbuild : builder.build = .ok grammar) : grammar.Sound := by
  obtain ⟨rfl, hclosed⟩ := build_eq_ok.mp hbuild
  exact ⟨hdistinct.rules, hdistinct.factories,
    fun rule hr child hc => Grammar.rule?_isSome.mpr (hclosed.children rule hr child hc),
    fun rule hr id hid => Grammar.factory?_isSome.mpr (hclosed.factories rule hr id hid)⟩

/-- **Every rule dispatches to the first factory that the trigger selects**, in depth-first order
over the rules that it reaches. The grammar may come from any calls, and its rules may form any
cycles. -/
theorem build_dispatches (calls : List Registration) (grammar : Grammar)
    (hbuild : (empty.attemptAll calls).build = .ok grammar) (rule : Rule)
    (hrule : rule ∈ grammar.rules) (trigger : Trigger) : ∃ order result,
    grammar.dispatch rule.id trigger = .ok result ∧ grammar.Dispatches rule trigger order result :=
  (build_sound (distinct_attemptAll distinct_empty calls) hbuild).dispatches hrule trigger

/-- Two rules that accept each other. The first is registered twice, and lacks a factory that the
second brings in. -/
def cyclicCalls : List Registration :=
  [.ofRule ⟨"a", ["b"], ["f"]⟩, .ofFactory ⟨"f", .path, [.identifier]⟩, .ofRule ⟨"a", [], []⟩,
    .ofFactory ⟨"g", .number, [.number, .identifier]⟩, .ofRule ⟨"b", ["a", "b"], ["g"]⟩]

theorem build_dispatches_cyclic : ∃ grammar, (empty.attemptAll cyclicCalls).build = .ok grammar ∧
    ∃ order result, grammar.dispatch "a" .number = .ok result ∧
      grammar.Dispatches ⟨"a", ["b"], ["f"]⟩ .number order result :=
  ⟨_, rfl, build_dispatches cyclicCalls _ rfl ⟨"a", ["b"], ["f"]⟩ (by decide) .number⟩

end GrammarBuilder

end Jpql
