import Jpql.Proofs.Grammar.Permutation

/-! # Verification

A builder takes calls, refuses some of them, and verifies what the others registered.

* `GrammarBuilder.accepted`: the calls of a run that succeed. `GrammarBuilder.attemptAll_eq`: what they
  register, and nothing else, stands in the builder afterwards.
* `GrammarBuilder.buildFrom`: verification with the rules taken in another order. A grammar keeps its
  rules in a hash map (`byId`), which gives them out in any order, and loses none as their ids differ
  (`byId_spec`).
* `GrammarBuilder.calls_verified`: which calls are refused, when a grammar is made, what its answers are, and
  what is reported if it is not made. -/

namespace Jpql

namespace Registration

/-- Two calls register a rule each, or a factory each, under the same id. -/
def SameId : Registration → Registration → Prop
  | .ofRule rule, .ofRule other => rule.id = other.id
  | .ofFactory factory, .ofFactory other => factory.id = other.id
  | _, _ => False

/-- What is reported of a call whose id is taken. -/
def duplicate : Registration → GrammarError
  | .ofRule rule => .duplicateRule rule.id
  | .ofFactory factory => .duplicateFactory factory.id

end Registration

/-! ### Maps -/

/-- **A table as a map.** Of entries with one id the last is kept. -/
def byId {α : Type} (key : α → String) (table : List α) : Std.HashMap String α :=
  .ofList (table.map fun entry => (key entry, entry))

/-- **A map of a table with unique ids loses nothing.** -/
theorem byId_spec {α : Type} {key : α → String} {table : List α} (hnodup : (table.map key).Nodup) :
    (byId key table).size = table.length ∧
      ∀ id : String, (byId key table)[id]? = table.find? (key · == id) := by
  have hdistinct : (table.map fun entry => (key entry, entry)).Pairwise
      fun a b => (a.1 == b.1) = false := by
    rw [List.Nodup, List.pairwise_map] at hnodup
    rw [List.pairwise_map]
    simpa using hnodup
  refine ⟨by rw [byId, Std.HashMap.size_ofList hdistinct, List.length_map], fun id => ?_⟩
  cases hfound : table.find? (key · == id) with
  | some entry =>
    obtain ⟨hmem, rfl⟩ := (find?_key hnodup).mp hfound
    exact Std.HashMap.getElem?_ofList_of_mem (by simp) hdistinct (List.mem_map_of_mem hmem)
  | none =>
    refine Std.HashMap.getElem?_ofList_of_contains_eq_false ?_
    simpa using hfound

namespace Grammar

variable {grammar : Grammar} {id : String}

theorem lookup_eq_error {error : GrammarError} :
    grammar.lookup id = .error error ↔ grammar.rule? id = none ∧ error = .unknownRule id := by
  unfold lookup
  split
  · next h => simp [h]
  · next h => simp [h, eq_comm]

/-- Dispatch succeeds on every registered rule. -/
theorem exists_dispatch {trigger : Trigger} :
    (∃ result, grammar.dispatch id trigger = .ok result) ↔ ∃ rule, grammar.rule? id = some rule := by
  unfold dispatch
  split
  · next h => simp [h]
  · next h => simp [h]

end Grammar

namespace GrammarBuilder

variable {builder : GrammarBuilder}

/-! ### Calls -/

/-- **The calls that succeed** when they are made one after the other. -/
def accepted (builder : GrammarBuilder) : List Registration → List Registration
  | [] => []
  | call :: calls =>
    match builder.add call with
    | .ok next => call :: next.accepted calls
    | .error _ => builder.accepted calls

theorem mem_rules_extend {calls : List Registration} {rule : Rule} :
    rule ∈ (empty.extend calls).rules ↔ .ofRule rule ∈ calls := by
  have hcall : ∀ call : Registration, call.rule? = some rule ↔ call = .ofRule rule := by
    rintro (other | factory) <;> simp [Registration.rule?]
  simp [extend, empty, List.mem_filterMap, hcall]

theorem attemptAll_cons (builder : GrammarBuilder) (call : Registration) (calls : List Registration) :
    builder.attemptAll (call :: calls) = (builder.attempt call).attemptAll calls := rfl

theorem attemptAll_append (builder : GrammarBuilder) (before after : List Registration) :
    builder.attemptAll (before ++ after) = (builder.attemptAll before).attemptAll after :=
  List.foldl_append

/-- **The builder holds what the calls that succeed register.** -/
theorem attemptAll_eq (h : builder.Distinct) (calls : List Registration) :
    builder.attemptAll calls = builder.extend (builder.accepted calls) := by
  induction calls generalizing builder with
  | nil => simp [attemptAll, accepted, extend]
  | cons call calls ih =>
    rw [attemptAll_cons, attempt, accepted]
    cases hadd : builder.add call with
    | ok next =>
      obtain ⟨rfl, hnext⟩ := (add_eq_ok h).mp hadd
      exact (ih hnext).trans (extend_cons call _).symm
    | error error => exact ih h

/-- A call fails where its id is taken. -/
theorem add_eq_error {calls : List Registration} {call : Registration} {error : GrammarError} :
    (empty.extend calls).add call = .error error ↔
      error = call.duplicate ∧ ∃ earlier ∈ calls, earlier.SameId call := by
  have htaken : ∀ (taken : Prop) [Decidable taken] (next : GrammarBuilder),
      (if taken then Except.error call.duplicate else .ok next) = .error error ↔
        error = call.duplicate ∧ taken := by
    intro taken _ next
    split <;> simp_all [eq_comm]
  cases call with
  | ofRule rule =>
    refine (htaken _ _).trans (and_congr_right' ?_)
    simp only [List.any_eq_true, mem_rules_extend, beq_iff_eq]
    constructor
    · rintro ⟨other, hmem, hid⟩
      exact ⟨_, hmem, hid⟩
    · rintro ⟨other | factory, hmem, hid⟩
      · exact ⟨other, hmem, hid⟩
      · exact hid.elim
  | ofFactory factory =>
    refine (htaken _ _).trans (and_congr_right' ?_)
    simp only [List.any_eq_true, mem_factories_extend, beq_iff_eq]
    constructor
    · rintro ⟨other, hmem, hid⟩
      exact ⟨_, hmem, hid⟩
    · rintro ⟨rule | other, hmem, hid⟩
      · exact hid.elim
      · exact ⟨other, hmem, hid⟩

/-! ### Building -/

/-- **Verification that takes the rules in the given order.** -/
def buildFrom (builder : GrammarBuilder) (order : List Rule) : Except GrammarError Grammar :=
  match order.findSome? builder.dangling? with
  | some error => .error error
  | none => .ok ⟨builder.rules, builder.factories⟩

theorem buildFrom_rules (builder : GrammarBuilder) :
    builder.buildFrom builder.rules = builder.build := rfl

theorem buildFrom_eq_ok {order : List Rule} (horder : order.Perm builder.rules) {grammar : Grammar} :
    builder.buildFrom order = .ok grammar ↔ builder.build = .ok grammar := by
  have hnone : order.findSome? builder.dangling? = none ↔
      builder.rules.findSome? builder.dangling? = none := by
    simp only [List.findSome?_eq_none_iff, horder.mem_iff]
  rw [← buildFrom_rules]
  unfold buildFrom
  cases horder : order.findSome? builder.dangling? with
  | none => rw [hnone.mp horder]
  | some error =>
    cases hrules : builder.rules.findSome? builder.dangling? with
    | none =>
      rw [hnone.mpr hrules] at horder
      cases horder
    | some other => simp

/-- **A reference that dangles**: a rule mentions an id that no call registers. -/
def Dangles (calls : List Registration) : GrammarError → Prop
  | .unknownRule id => (∃ rule, .ofRule rule ∈ calls ∧ id ∈ rule.children) ∧
      ∀ other, .ofRule other ∈ calls → other.id ≠ id
  | .unknownFactory id ruleId =>
      (∃ rule, .ofRule rule ∈ calls ∧ rule.id = ruleId ∧ id ∈ rule.factories) ∧
        ∀ factory, .ofFactory factory ∈ calls → factory.id ≠ id
  | .duplicateRule _ | .duplicateFactory _ => False

/-- What is reported of a rule is a reference of it that dangles. -/
theorem dangles_of_dangling? {calls : List Registration} {rule : Rule} (hrule : .ofRule rule ∈ calls)
    {error : GrammarError} (h : (empty.extend calls).dangling? rule = some error) :
    Dangles calls error := by
  rw [dangling?, Option.or_eq_some_iff] at h
  rcases h with hchild | ⟨-, howned⟩
  · obtain ⟨child, hfind, rfl⟩ := Option.map_eq_some_iff.mp hchild
    have hmissing := List.find?_some hfind
    simp only [Bool.not_eq_true', List.any_eq_false, mem_rules_extend, beq_iff_eq] at hmissing
    exact ⟨⟨rule, hrule, List.mem_of_find?_eq_some hfind⟩, hmissing⟩
  · obtain ⟨id, hfind, rfl⟩ := Option.map_eq_some_iff.mp howned
    have hmissing := List.find?_some hfind
    simp only [Bool.not_eq_true', List.any_eq_false, mem_factories_extend, beq_iff_eq] at hmissing
    exact ⟨⟨rule, hrule, rfl, List.mem_of_find?_eq_some hfind⟩, hmissing⟩

/-- **Every reference of a rule is to something that is registered.** -/
def Complete (calls : List Registration) : Prop := ∀ rule, .ofRule rule ∈ calls →
  (∀ child ∈ rule.children, ∃ other, .ofRule other ∈ calls ∧ other.id = child) ∧
    ∀ id ∈ rule.factories, ∃ factory, .ofFactory factory ∈ calls ∧ factory.id = id

theorem closed_extend {calls : List Registration} : (empty.extend calls).Closed ↔ Complete calls := by
  constructor
  · rintro ⟨hchildren, howned⟩
    simp only [mem_rules_extend, mem_factories_extend] at hchildren howned
    exact fun rule hrule => ⟨hchildren rule hrule, howned rule hrule⟩
  · intro h
    refine ⟨fun rule hrule child hmem => ?_, fun rule hrule id hmem => ?_⟩
    · simpa only [mem_rules_extend] using (h rule (mem_rules_extend.mp hrule)).1 child hmem
    · simpa only [mem_factories_extend] using (h rule (mem_rules_extend.mp hrule)).2 id hmem

/-- **What a grammar knows**: the rules that are registered, each by its id. -/
structure Knows (calls : List Registration) (grammar : Grammar) : Prop where
  lookup_ok : ∀ id rule, grammar.lookup id = .ok rule ↔ .ofRule rule ∈ calls ∧ rule.id = id
  lookup_error : ∀ id error, grammar.lookup id = .error error ↔
    error = .unknownRule id ∧ ∀ rule, .ofRule rule ∈ calls → rule.id ≠ id
  dispatch_ok : ∀ id trigger, (∃ result, grammar.dispatch id trigger = .ok result) ↔
    ∃ rule, .ofRule rule ∈ calls ∧ rule.id = id
  dispatch_error : ∀ id trigger error, grammar.dispatch id trigger = .error error ↔
    error = .unknownRule id ∧ ∀ rule, .ofRule rule ∈ calls → rule.id ≠ id
  ruleCount : grammar.ruleCount = (calls.filterMap Registration.rule?).length
  /-- The map of the rules has them all. -/
  mapped : (byId Rule.id grammar.rules).size = grammar.ruleCount ∧
    ∀ id : String, (byId Rule.id grammar.rules)[id]? = grammar.rule? id

theorem knows_of_build {calls : List Registration} (hdistinct : (empty.extend calls).Distinct)
    {grammar : Grammar} (hbuild : (empty.extend calls).build = .ok grammar) :
    Knows calls grammar := by
  have hsound := build_sound hdistinct hbuild
  obtain ⟨hgrammar, -⟩ := build_eq_ok.mp hbuild
  have hrules : grammar.rules = (empty.extend calls).rules := by rw [hgrammar]
  have hsome : ∀ id rule, grammar.rule? id = some rule ↔ .ofRule rule ∈ calls ∧ rule.id = id :=
    fun id rule => by rw [hsound.rule?_eq_some, hrules, mem_rules_extend]
  have hnone : ∀ id, grammar.rule? id = none ↔ ∀ rule, .ofRule rule ∈ calls → rule.id ≠ id :=
    fun id => by simp only [Option.eq_none_iff_forall_ne_some, ne_eq, hsome, not_and]
  refine
    { lookup_ok := fun id rule => by rw [Grammar.lookup_eq_ok, hsome]
      lookup_error := fun id error => by rw [Grammar.lookup_eq_error, hnone, and_comm]
      dispatch_ok := fun id trigger => by simp only [Grammar.exists_dispatch, hsome]
      dispatch_error := fun id trigger error => by rw [Grammar.dispatch_eq_error, hnone, and_comm]
      ruleCount := by simp [Grammar.ruleCount, hrules, extend, empty]
      mapped := byId_spec hsound.rules }

/-- **What comes of calls and of building a grammar behind them.** -/
structure Verified (calls : List Registration) : Prop where
  /-- A call fails where an earlier one that succeeded took its id. -/
  refused : ∀ before call after error, calls = before ++ call :: after →
    ((empty.attemptAll before).add call = .error error ↔
      error = call.duplicate ∧ ∃ earlier ∈ empty.accepted before, earlier.SameId call)
  /-- Then the builder is as it was, and so is all that follows. -/
  unchanged : ∀ before call after error, calls = before ++ call :: after →
    (empty.attemptAll before).add call = .error error →
      empty.attemptAll (before ++ [call]) = empty.attemptAll before ∧
        empty.attemptAll calls = empty.attemptAll (before ++ after)
  /-- Calls that succeed do so without the others as well, and fill the same builder. -/
  kept : empty.addAll (empty.accepted calls) = .ok (empty.attemptAll calls)
  /-- In whatever order the rules are verified, a grammar is made where no reference dangles. -/
  builds : ∀ order : List Rule, order.Perm (empty.attemptAll calls).rules →
    ((∃ grammar, (empty.attemptAll calls).buildFrom order = .ok grammar) ↔
      Complete (empty.accepted calls))
  /-- What is reported is a reference that dangles. -/
  reports : ∀ order : List Rule, order.Perm (empty.attemptAll calls).rules → ∀ error,
    (empty.attemptAll calls).buildFrom order = .error error → Dangles (empty.accepted calls) error
  answers : ∀ order : List Rule, order.Perm (empty.attemptAll calls).rules → ∀ grammar,
    (empty.attemptAll calls).buildFrom order = .ok grammar → Knows (empty.accepted calls) grammar

/-- **The builder verifies exactly**, whatever calls are made, and in whatever order it takes their
rules. -/
theorem calls_verified (calls : List Registration) : Verified calls := by
  have heq : ∀ calls, empty.attemptAll calls = empty.extend (empty.accepted calls) :=
    attemptAll_eq distinct_empty
  have hdistinct := distinct_attemptAll distinct_empty calls
  have hunchanged : ∀ before call error, (empty.attemptAll before).add call = .error error →
      empty.attemptAll (before ++ [call]) = empty.attemptAll before := by
    intro before call error herror
    rw [attemptAll_append, attemptAll_cons, attempt, herror]
    rfl
  refine
    { refused := fun before call after error _ => by rw [heq, add_eq_error]
      unchanged := ?_
      kept := (addAll_eq_ok distinct_empty).mpr ⟨heq calls, hdistinct⟩
      builds := fun order horder => ?_
      reports := fun order horder error herror => ?_
      answers := fun order horder grammar hbuild => ?_ }
  · rintro before call after error rfl herror
    refine ⟨hunchanged before call error herror, ?_⟩
    rw [List.append_cons, attemptAll_append, hunchanged before call error herror, ← attemptAll_append]
  · simp only [buildFrom_eq_ok horder, build_eq_ok, exists_eq_left]
    rw [heq, closed_extend]
  · unfold buildFrom at herror
    split at herror
    · next found hfound =>
      cases herror
      obtain ⟨rule, hmem, hdangling⟩ := List.exists_of_findSome?_eq_some hfound
      rw [horder.mem_iff, heq, mem_rules_extend] at hmem
      rw [heq] at hdangling
      exact dangles_of_dangling? hmem hdangling
    · cases herror
  · rw [buildFrom_eq_ok horder, heq] at hbuild
    rw [heq] at hdistinct
    exact knows_of_build hdistinct hbuild

/-- The third call is refused, so nothing refers to `f`. -/
example : empty.accepted [.ofRule ⟨"a", ["b"], []⟩, .ofRule ⟨"b", ["b", "c"], ["g"]⟩,
      .ofRule ⟨"a", [], ["f"]⟩] = [.ofRule ⟨"a", ["b"], []⟩, .ofRule ⟨"b", ["b", "c"], ["g"]⟩] ∧
    (empty.attemptAll [.ofRule ⟨"a", ["b"], []⟩, .ofRule ⟨"b", ["b", "c"], ["g"]⟩,
      .ofRule ⟨"a", [], ["f"]⟩]).build = .error (.unknownRule "c") := ⟨rfl, rfl⟩

end GrammarBuilder

end Jpql
