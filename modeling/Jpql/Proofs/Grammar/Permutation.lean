import Mathlib.Data.String.Basic
import Jpql.Proofs.Grammar.Dispatch

/-! # The order of registration

Nothing that can be asked of a grammar depends on the order in which its rules and factories were
registered: every table is looked up by id, the walk of a dispatch follows the lists of the rules
alone, and among factories with one keyword the smallest id decides.

* `Grammar.Agree`: two grammars give the same answers. `Grammar.agree_of_perm`: those with the same
  entries do, whatever their order.
* `Grammar.Sound.forKeyword?_eq_some`: a keyword finds the factory with the smallest id.
* `Grammar.Sound.keywordTable_find?`: so it does in a table of keywords, in whatever order the
  factories come.
* `GrammarBuilder.build_perm`: calls in another order succeed, too, and lead to a grammar that gives
  the same answers, or to none. -/

namespace Jpql

namespace Grammar

/-- **Two grammars give the same answers.** -/
structure Agree (grammar other : Grammar) : Prop where
  lookup : ∀ id, other.lookup id = grammar.lookup id
  factory : ∀ id, other.factory id = grammar.factory id
  dispatch : ∀ id trigger, other.dispatch id trigger = grammar.dispatch id trigger
  forKeyword : ∀ word, other.forKeyword? word = grammar.forKeyword? word
  ruleCount : other.ruleCount = grammar.ruleCount

/-- Among factories, the one with the smallest id. -/
def Smallest (factories : List Factory) (factory : Factory) : Prop :=
  factory ∈ factories ∧ ∀ other ∈ factories, factory.id ≤ other.id

/-! ### The smallest id -/

/-- What is kept of a list is the smallest. -/
theorem foldl_smaller (factories : List Factory) (best : Factory) : ∃ factory,
    factories.foldl smaller (some best) = some factory ∧ Smallest (best :: factories) factory := by
  induction factories generalizing best with
  | nil => exact ⟨best, rfl, by simp [Smallest]⟩
  | cons next factories ih =>
    rw [List.foldl_cons, smaller]
    split
    · next hlt =>
      obtain ⟨factory, heq, hmem, hle⟩ := ih next
      refine ⟨factory, heq, List.mem_cons_of_mem _ hmem, List.forall_mem_cons.mpr ⟨?_, hle⟩⟩
      exact (hle next List.mem_cons_self).trans hlt.le
    · next hge =>
      obtain ⟨factory, heq, hmem, hle⟩ := ih best
      have hbest := hle best List.mem_cons_self
      refine ⟨factory, heq, ?_, ?_⟩
      · rcases List.mem_cons.mp hmem with rfl | hmem
        · exact List.mem_cons_self
        · exact List.mem_cons_of_mem _ (List.mem_cons_of_mem _ hmem)
      · refine List.forall_mem_cons.mpr ⟨hbest, List.forall_mem_cons.mpr ⟨?_, fun other hother => ?_⟩⟩
        · exact hbest.trans (not_lt.mp hge)
        · exact hle other (List.mem_cons_of_mem _ hother)

theorem Smallest.unique {factories : List Factory} (hnodup : (factories.map (·.id)).Nodup)
    {factory other : Factory} (h : Smallest factories factory) (hother : Smallest factories other) :
    factory = other :=
  List.inj_on_of_nodup_map hnodup h.1 hother.1 (le_antisymm (h.2 other hother.1) (hother.2 factory h.1))

theorem foldl_smaller_eq_some {factories : List Factory} (hnodup : (factories.map (·.id)).Nodup)
    {factory : Factory} :
    factories.foldl smaller none = some factory ↔ Smallest factories factory := by
  cases factories with
  | nil => simp [Smallest]
  | cons best factories =>
    obtain ⟨least, heq, hleast⟩ := foldl_smaller factories best
    rw [List.foldl_cons, smaller, heq, Option.some_inj]
    constructor
    · rintro rfl
      exact hleast
    · exact hleast.unique hnodup

/-- **A keyword finds the factory with the smallest id** among those that it selects. -/
theorem Sound.forKeyword?_eq_some {grammar : Grammar} (h : grammar.Sound) {word : Keyword}
    {construct : Construct} :
    grammar.forKeyword? word = some construct ↔ ∃ factory,
      Smallest (grammar.factories.filter (·.triggers.contains (.keyword word))) factory ∧
        factory.construct = construct := by
  have hnodup := h.factories.sublist ((List.filter_sublist
    (p := (·.triggers.contains (Trigger.keyword word)))).map _)
  simp only [forKeyword?, Option.map_eq_some_iff, foldl_smaller_eq_some hnodup]

/-! ### The table of keywords -/

/-- The trigger is a keyword. -/
def isKeyword : Trigger → Bool
  | .keyword _ => true
  | _ => false

/-- A factory as far as keywords select it. -/
def onKeywords (factory : Factory) : Factory :=
  { factory with triggers := factory.triggers.filter isKeyword }

/-- **The table of keywords.** However the factories are listed, they are entered in the order of
their ids. -/
def keywordTable (listed : List Factory) : Table :=
  ((listed.mergeSort (·.id ≤ ·.id)).map onKeywords).foldl Table.enterFactory .empty

/-- **In the order of the ids, the first factory that is selected has the smallest id.** -/
theorem find?_sorted {sorted factories : List Factory} (hperm : sorted.Perm factories)
    (hsorted : sorted.Pairwise (·.id ≤ ·.id)) (hnodup : (factories.map (·.id)).Nodup)
    {p : Factory → Bool} {factory : Factory} :
    sorted.find? p = some factory ↔ Smallest (factories.filter p) factory := by
  have hfirst : ∀ {first}, sorted.find? p = some first → Smallest (factories.filter p) first := by
    intro first hfind
    obtain ⟨hp, before, after, rfl, hbefore⟩ := List.find?_eq_some_iff_append.mp hfind
    refine ⟨List.mem_filter.mpr ⟨hperm.mem_iff.mp (by simp), hp⟩, fun other hother => ?_⟩
    obtain ⟨hmem, hother⟩ := List.mem_filter.mp hother
    rcases List.mem_append.mp (hperm.mem_iff.mpr hmem) with hmem | hmem
    · exact absurd hother (by simpa using hbefore other hmem)
    rcases List.mem_cons.mp hmem with rfl | hmem
    · exact le_rfl
    · exact List.rel_of_pairwise_cons (List.pairwise_append.mp hsorted).2.1 hmem
  refine ⟨hfirst, fun hleast => ?_⟩
  obtain ⟨hmem, hp⟩ := List.mem_filter.mp hleast.1
  obtain ⟨first, hfind⟩ := Option.isSome_iff_exists.mp
    (List.find?_isSome.mpr ⟨factory, hperm.mem_iff.mpr hmem, hp⟩)
  have hnodup := hnodup.sublist ((List.filter_sublist (p := p)).map _)
  rw [hfind, (hfirst hfind).unique hnodup hleast]

/-- **The table gives what the grammar finds for a keyword.** -/
theorem Sound.keywordTable_find? {grammar : Grammar} (h : grammar.Sound) {listed : List Factory}
    (hlisted : listed.Perm grammar.factories) (word : Keyword) :
    (keywordTable listed).find? (.keyword word) = grammar.forKeyword? word := by
  have hperm := (List.mergeSort_perm listed (·.id ≤ ·.id)).trans hlisted
  have hsorted := @List.pairwise_mergeSort Factory (·.id ≤ ·.id)
    (fun a b c => by simpa using le_trans) (fun a b => by simpa using le_total a.id b.id) listed
  simp only [decide_eq_true_eq] at hsorted
  have hselects : ∀ factory,
      (onKeywords factory).triggers.contains (.keyword word) =
        factory.triggers.contains (.keyword word) := fun factory => by
    simp [onKeywords, isKeyword]
  refine Option.ext fun construct => ?_
  rw [h.forKeyword?_eq_some, keywordTable, Table.find?_foldl, Table.find?_empty, Option.none_or,
    List.find?_map, Option.map_map]
  simp only [Function.comp_def, hselects, Option.map_eq_some_iff,
    find?_sorted hperm hsorted h.factories]
  rfl

/-! ### Permuted tables -/

section

variable {grammar other : Grammar}

/-- Dispatch looks at the tables by id only. -/
theorem dispatch_congr (hrules : ∀ id, other.rule? id = grammar.rule? id)
    (hfactories : ∀ id, other.factory? id = grammar.factory? id) (id : String) (trigger : Trigger) :
    other.dispatch id trigger = grammar.dispatch id trigger := by
  have hreach : other.reach id = grammar.reach id :=
    ((reach_depthFirst grammar id).transfer hrules).unique (reach_depthFirst other id)
  have hfrom : other.factoriesFrom id = grammar.factoriesFrom id := by
    rw [factoriesFrom, factoriesFrom, hreach, funext hfactories]
  rw [dispatch, dispatch, hrules, hfrom]

/-- **Grammars with the same entries give the same answers.** -/
theorem agree_of_perm (h : grammar.Sound) (hother : other.Sound)
    (hrules : grammar.rules.Perm other.rules) (hfactories : grammar.factories.Perm other.factories) :
    grammar.Agree other := by
  have hrule : ∀ id, other.rule? id = grammar.rule? id := find?_key_perm hrules h.rules
  have hfactory : ∀ id, other.factory? id = grammar.factory? id :=
    find?_key_perm hfactories h.factories
  refine ⟨fun id => ?_, fun id => ?_, dispatch_congr hrule hfactory, fun word => ?_, ?_⟩
  · rw [lookup, lookup, hrule]
  · rw [factory, factory, hfactory]
  · refine Option.ext fun construct => ?_
    rw [h.forKeyword?_eq_some, hother.forKeyword?_eq_some]
    simp only [Smallest, List.mem_filter, hfactories.mem_iff]
  · exact hrules.length_eq.symm

end

end Grammar

namespace GrammarBuilder

variable {builder other : GrammarBuilder}

/-- Whether ids are distinct does not depend on their order. -/
theorem Distinct.perm (h : builder.Distinct) (hrules : builder.rules.Perm other.rules)
    (hfactories : builder.factories.Perm other.factories) : other.Distinct where
  rules := (hrules.map _).nodup_iff.mp h.rules
  factories := (hfactories.map _).nodup_iff.mp h.factories

/-- Nor does it matter to what is registered. -/
theorem closed_perm (hrules : builder.rules.Perm other.rules)
    (hfactories : builder.factories.Perm other.factories) : builder.Closed ↔ other.Closed := by
  constructor
  · rintro ⟨hchildren, howned⟩
    simp only [hrules.mem_iff, hfactories.mem_iff] at hchildren howned
    exact ⟨hchildren, howned⟩
  · rintro ⟨hchildren, howned⟩
    simp only [← hrules.mem_iff, ← hfactories.mem_iff] at hchildren howned
    exact ⟨hchildren, howned⟩

theorem exists_build_error : (∃ error, builder.build = .error error) ↔ ¬ builder.Closed := by
  cases hbuild : builder.build with
  | error error =>
    refine iff_of_true ⟨error, rfl⟩ fun hclosed => ?_
    rw [build_eq_ok.mpr ⟨rfl, hclosed⟩] at hbuild
    cases hbuild
  | ok grammar => exact iff_of_false (by rintro ⟨_, ⟨⟩⟩) (not_not_intro (build_eq_ok.mp hbuild).2)

/-- Among the factories that are registered for a keyword, the one with the smallest id. -/
def LeastFor (calls : List Registration) (word : Keyword) (factory : Factory) : Prop :=
  .ofFactory factory ∈ calls ∧ .keyword word ∈ factory.triggers ∧
    ∀ rival, .ofFactory rival ∈ calls → .keyword word ∈ rival.triggers → factory.id ≤ rival.id

/-- The factories of a builder are those that are registered. -/
theorem mem_factories_extend {calls : List Registration} {factory : Factory} :
    factory ∈ (empty.extend calls).factories ↔ .ofFactory factory ∈ calls := by
  have hcall : ∀ call : Registration, call.factory? = some factory ↔ call = .ofFactory factory := by
    rintro (rule | other) <;> simp [Registration.factory?]
  simp [extend, empty, List.mem_filterMap, hcall]

/-- **What two builders lead to is the same.** Either neither makes a grammar, or both do, and then
the grammars give the same answers. -/
def BuildAlike (builder other : GrammarBuilder) : Prop :=
  (∃ error, builder.build = .error error) ∧ (∃ error, other.build = .error error) ∨
    ∃ grammar grammar', builder.build = .ok grammar ∧ other.build = .ok grammar' ∧
      grammar.Agree grammar'

/-- **What a keyword finds** in a grammar: the factory with the smallest id among those registered for
it. The table of keywords has the same entry, however the factories are listed for it. -/
structure FindsLeast (calls : List Registration) (grammar : Grammar) (word : Keyword) : Prop where
  least : ∀ construct, grammar.forKeyword? word = some construct ↔
    ∃ factory, LeastFor calls word factory ∧ factory.construct = construct
  tabled : ∀ listed : List Factory, listed.Perm grammar.factories →
    (Grammar.keywordTable listed).find? (.keyword word) = grammar.forKeyword? word

/-- **The order of registration does not matter.** The same calls in another order succeed as well,
and what they lead to is the same. In a grammar that is built from them, a keyword finds the factory
with the smallest id among those registered for it. -/
theorem build_perm (calls others : List Registration) (hperm : calls.Perm others)
    (builder : GrammarBuilder) (hcalls : empty.addAll calls = .ok builder) :
    (∃ other, empty.addAll others = .ok other ∧ builder.BuildAlike other) ∧
      ∀ grammar, builder.build = .ok grammar → ∀ word, FindsLeast calls grammar word := by
  obtain ⟨rfl, hdistinct⟩ := (addAll_eq_ok distinct_empty).mp hcalls
  have hrules : (empty.extend calls).rules.Perm (empty.extend others).rules :=
    (hperm.filterMap _).append_left _
  have hfactories : (empty.extend calls).factories.Perm (empty.extend others).factories :=
    (hperm.filterMap _).append_left _
  have hother := hdistinct.perm hrules hfactories
  have hboth := closed_perm hrules hfactories
  constructor
  · refine ⟨empty.extend others, (addAll_eq_ok distinct_empty).mpr ⟨rfl, hother⟩, ?_⟩
    by_cases hclosed : (empty.extend calls).Closed
    · have hbuild := build_eq_ok.mpr ⟨rfl, hclosed⟩
      have hbuild' := build_eq_ok.mpr ⟨rfl, hboth.mp hclosed⟩
      refine .inr ⟨_, _, hbuild, hbuild', ?_⟩
      exact Grammar.agree_of_perm (build_sound hdistinct hbuild) (build_sound hother hbuild') hrules
        hfactories
    · exact .inl ⟨exists_build_error.mpr hclosed, exists_build_error.mpr fun h => hclosed (hboth.mpr h)⟩
  · intro grammar hbuild word
    have hsound := build_sound hdistinct hbuild
    refine ⟨fun construct => ?_, fun listed hlisted => hsound.keywordTable_find? hlisted word⟩
    rw [hsound.forKeyword?_eq_some]
    obtain ⟨rfl, -⟩ := build_eq_ok.mp hbuild
    simp only [Grammar.Smallest, LeastFor, List.mem_filter, mem_factories_extend,
      List.contains_iff_mem, and_assoc, and_imp]

/-- Two rules that accept each other, and two factories for one keyword. -/
def rivalCalls : List Registration :=
  [.ofRule ⟨"a", ["b"], ["f"]⟩, .ofFactory ⟨"f", .path, [.keyword .key]⟩,
    .ofFactory ⟨"e", .key, [.keyword .key]⟩, .ofRule ⟨"b", ["a"], ["e"]⟩]

theorem build_perm_reverse : ∃ builder, empty.addAll rivalCalls = .ok builder ∧
    (∃ other, empty.addAll rivalCalls.reverse = .ok other ∧ builder.BuildAlike other) ∧
      ∀ grammar, builder.build = .ok grammar → ∀ word, FindsLeast rivalCalls grammar word :=
  ⟨_, rfl, build_perm rivalCalls rivalCalls.reverse (List.reverse_perm _).symm _ rfl⟩

end GrammarBuilder

end Jpql
