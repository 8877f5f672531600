import Jpql.Parse.Recovery
import Jpql.Proofs.Reader.Run

/-! # What a reader of nodes must guarantee

`Yields env p slot` says of a reader of one node that it succeeds on every sound draft, and leaves a
sound draft with one more loose node, its result, which fits the slot. Everything is in this one
judgement: the reader never fails, forgets no node, hands out no node twice, and follows the schema.

`Draft.Gains` is the state between two steps of a reader: the nodes read so far are loose, and each
fits its slot. When the slots are those of the node to be built, the node can be added
(`Draft.Gains.pushFrom_writes`).

* `loop_items`, `separated_yields`, `leftChain_yields`: the ways of repeating readers. -/

namespace Jpql.Parse

open NodeKind (AllFit)

variable {env : Env}

/-! ## What has been read -/

/-- **A later draft has new loose nodes, each of which fits its slot.** -/
structure Draft.Gains (before after : Draft) (loose : List Nat) (entries : List (Nat × Slot)) :
    Prop where
  adds : before.Adds after loose (entries.map (·.1))
  fits : AllFit after.kind entries

namespace Draft.Gains

variable {a b c before draft : Draft} {loose : List Nat} {us vs entries : List (Nat × Slot)}

theorem refl (h : a.Sound loose) : a.Gains a loose [] := ⟨.refl h, trivial⟩

/-- Later drafts keep what fits. -/
theorem fits_of_grows (h : a.Gains b loose us) (hg : b.Grows c) : AllFit c.kind us := by
  refine NodeKind.allFit_iff.mpr fun entry he => ?_
  rw [hg.kind_eq entry.1 (h.adds.lt_size (List.mem_map_of_mem he))]
  exact NodeKind.allFit_iff.mp h.fits entry he

theorem trans (h : a.Gains b loose us) (k : b.Gains c (loose ++ us.map (·.1)) vs) :
    a.Gains c loose (us ++ vs) where
  adds := by rw [List.map_append]; exact h.adds.trans k.adds
  fits := NodeKind.allFit_append.mpr ⟨h.fits_of_grows k.adds.grows, k.fits⟩

theorem record (h : a.Gains b loose us) (problem : Problem) : a.Gains (b.record problem) loose us :=
  ⟨h.adds.record problem, h.fits⟩

/-- One node, whose kind is known. -/
theorem of_kind {id : Nat} {new : NodeKind} {slot : Slot} (h : a.Adds b loose [id])
    (hk : b.kind id = new) (hslot : slot.admits new = true) : a.Gains b loose [(id, slot)] :=
  ⟨h, by rw [hk]; exact hslot, trivial⟩

/-- The last node fits its slot. -/
theorem last {id : Nat} {slot : Slot} (h : a.Gains b loose (us ++ [(id, slot)])) :
    slot.admits (b.kind id) = true :=
  (NodeKind.allFit_append.mp h.fits).2.1

/-- What binds more tightly than required fits, too. -/
theorem weaken {id weak strong : Nat} (h : a.Gains b loose [(id, .expression strong)])
    (hle : weak ≤ strong) : a.Gains b loose [(id, .expression weak)] :=
  ⟨h.adds, Slot.admits_of_le hle h.fits.1, trivial⟩

/-- **The last node is read as a collection.** The others are other nodes. -/
theorem asCollection {id strength : Nat}
    (h : a.Gains b loose (us ++ [(id, .expression strength)])) :
    a.Gains (b.asCollection id) loose (us ++ [(id, .collection strength)]) := by
  have hmem : id ∈ (us ++ [(id, Slot.expression strength)]).map (·.1) := by simp
  have hlt : id < b.size := h.adds.lt_size hmem
  have hnodup := (List.nodup_append.mp h.adds.sound.forest.nodup).2.1
  refine ⟨?_, NodeKind.allFit_append.mpr ⟨?_, ?_, trivial⟩⟩
  · simpa using h.adds.asCollection hmem
  · refine NodeKind.allFit_iff.mpr fun entry he => ?_
    have hne : entry.1 ≠ id := by
      rw [List.map_append] at hnodup
      exact (List.nodup_append.mp hnodup).2.2 entry.1 (List.mem_map_of_mem he) id (by simp)
    rw [kind_asCollection b hlt, if_neg hne]
    exact NodeKind.allFit_iff.mp (NodeKind.allFit_append.mp h.fits).1 entry he
  · show Slot.admits _ ((b.asCollection id).kind id) = true
    rw [kind_asCollection b hlt, if_pos rfl]
    exact NodeKind.admits_asCollection h.last

/-- **The last step of most readers**: what was read becomes the children of a new node. -/
theorem push_kind (new : NodeKind) (h : before.Gains draft loose new.slots) (span : Span)
    (hcomplete : draft.problems = [] → new.Complete draft.kind) :
    Writes env (Parse.push new span) draft fun id d =>
      before.Adds d loose [id] ∧ d.kind id = new := by
  refine (Writes.push new span).mono ?_
  rintro _ _ ⟨rfl, rfl⟩
  exact ⟨h.adds.push new (NodeKind.map_fst_slots new).symm span h.fits hcomplete,
    draft.kind_push new span⟩

theorem pushFrom_kind (new : NodeKind) (h : before.Gains draft loose new.slots) (start : Nat)
    (hcomplete : draft.problems = [] → new.Complete draft.kind) :
    Writes env (Parse.pushFrom new start) draft fun id d =>
      before.Adds d loose [id] ∧ d.kind id = new :=
  (Silent.spanFrom start).andThen fun _ => push_kind new h _ hcomplete

theorem pushFrom_writes (new : NodeKind) {slot : Slot} (h : before.Gains draft loose new.slots)
    (start : Nat) (hslot : slot.admits new = true)
    (hcomplete : draft.problems = [] → new.Complete draft.kind) :
    Writes env (Parse.pushFrom new start) draft fun id d => before.Gains d loose [(id, slot)] :=
  (pushFrom_kind new h start hcomplete).mono fun _ _ hp => .of_kind hp.1 hp.2 hslot

end Draft.Gains

theorem Draft.record_problems_ne_nil (draft : Draft) (problem : Problem) :
    (draft.record problem).problems ≠ [] :=
  List.append_ne_nil_of_right_ne_nil _ (by simp)

/-! ## The judgements -/

/-- **The reader adds one node, which fits the slot.** -/
def Yields (env : Env) (p : Parser NodeId) (slot : Slot) : Prop :=
  ∀ draft loose, draft.Sound loose →
    Writes env p draft fun id d => draft.Gains d loose [(id, slot)]

/-- The reader adds one or more nodes, which fit the slot. -/
def YieldsAll (env : Env) (p : Parser (List NodeId)) (slot : Slot) : Prop :=
  ∀ draft loose, draft.Sound loose →
    Writes env p draft fun ids d => draft.Gains d loose (ids.map (·, slot)) ∧ ids ≠ []

/-- The reader adds one node or none. -/
def YieldsOption (env : Env) (p : Parser (Option NodeId)) (slot : Slot) : Prop :=
  ∀ draft loose, draft.Sound loose →
    Writes env p draft fun id d => draft.Gains d loose (id.toList.map (·, slot))

section

variable {before draft : Draft} {loose : List Nat} {entries : List (Nat × Slot)} {slot : Slot}

theorem Yields.weaken {p : Parser NodeId} {weak strong : Nat}
    (h : Yields env p (.expression strong)) (hle : weak ≤ strong) :
    Yields env p (.expression weak) :=
  fun draft loose hs => (h draft loose hs).mono fun _ _ hp => hp.weaken hle

/-- One more node is read. -/
theorem Yields.after {p : Parser NodeId} (hp : Yields env p slot)
    (h : before.Gains draft loose entries) :
    Writes env p draft fun id d => before.Gains d loose (entries ++ [(id, slot)]) :=
  (hp draft _ h.adds.sound).mono fun _ _ hg => h.trans hg

theorem YieldsAll.after {p : Parser (List NodeId)} (hp : YieldsAll env p slot)
    (h : before.Gains draft loose entries) :
    Writes env p draft fun ids d =>
      before.Gains d loose (entries ++ ids.map (·, slot)) ∧ ids ≠ [] :=
  (hp draft _ h.adds.sound).mono fun _ _ hg => ⟨h.trans hg.1, hg.2⟩

/-- One more node or none is read, and nothing is lost on the way. -/
theorem YieldsOption.after {p : Parser (Option NodeId)} (hp : YieldsOption env p slot)
    (h : before.Gains draft loose entries) :
    Writes env p draft fun id d =>
      before.Gains d loose (entries ++ id.toList.map (·, slot)) ∧ draft.Grows d :=
  (hp draft _ h.adds.sound).mono fun _ _ hg => ⟨h.trans hg, hg.adds.grows⟩

/-- One node may be all there could be. -/
theorem Yields.option {p : Parser NodeId} (hp : Yields env p slot) :
    YieldsOption env (some <$> p) slot :=
  fun draft loose hs => (hp draft loose hs).map

/-- A token that is expected but not there is a problem, and nothing else. -/
theorem expect_writes (kind : TokenKind) (h : before.Gains draft loose entries) :
    Writes env (expect kind) draft fun found d => before.Gains d loose entries ∧
      d.kind = draft.kind ∧ draft.problems <+: d.problems ∧
      (found = false → d.problems ≠ []) := by
  refine (Writes.expect kind).mono ?_
  rintro found d (⟨rfl, rfl⟩ | ⟨rfl, problem, rfl⟩)
  · exact ⟨h, rfl, List.prefix_refl _, fun hf => by cases hf⟩
  · exact ⟨h.record problem, rfl, List.prefix_append _ _,
      fun _ => draft.record_problems_ne_nil problem⟩

theorem discard_expect_writes (kind : TokenKind) (h : before.Gains draft loose entries) :
    Writes env (discard (expect kind)) draft fun _ d => before.Gains d loose entries ∧
      d.kind = draft.kind ∧ draft.problems <+: d.problems :=
  Writes.discard ((expect_writes kind h).mono fun _ _ hp => ⟨hp.1, hp.2.1, hp.2.2.1⟩)

theorem expectKeyword_writes (word : Keyword) (h : before.Gains draft loose entries) :
    Writes env (expectKeyword word) draft fun _ d => before.Gains d loose entries :=
  (discard_expect_writes (.keyword word) h).mono fun _ _ hp => hp.1

/-! ## Repetition -/

/-- **Items as long as there are more.** What was there at the start stays in front. -/
theorem loopTo_items {cond : Parser Bool} {item : Parser NodeId} (hcond : Silent env cond)
    (hitem : Yields env item slot) (bound : Nat) {first : List NodeId}
    (h : before.Gains draft loose (entries ++ first.map (·, slot))) :
    Writes env (loopTo (fun items => do
        if ← cond then return some (items ++ [← item]) else return none) bound first) draft
      fun items d => before.Gains d loose (entries ++ items.map (·, slot)) ∧ first <+: items := by
  refine Writes.loopTo (fun items d =>
    before.Gains d loose (entries ++ items.map (·, slot)) ∧ first <+: items) ?_ bound
    ⟨h, List.prefix_refl _⟩
  rintro items d ⟨hg, hp⟩
  refine hcond.andThen fun more => ?_
  cases more with
  | false => exact .pure ⟨hg, hp⟩
  | true =>
    refine (hitem.after hg).bind fun id e he => .pure ⟨?_, hp.trans (List.prefix_append _ _)⟩
    simpa using he

theorem loop_items {cond : Parser Bool} {item : Parser NodeId} (hcond : Silent env cond)
    (hitem : Yields env item slot) {first : List NodeId}
    (h : before.Gains draft loose (entries ++ first.map (·, slot))) :
    Writes env (loop (fun items => do
        if ← cond then return some (items ++ [← item]) else return none) first) draft
      fun items d => before.Gains d loose (entries ++ items.map (·, slot)) ∧ first <+: items :=
  .read_bind (loopTo_items hcond hitem _ h)

/-- A list with commas has an item. -/
theorem separated_yields {item : Parser NodeId} (hitem : Yields env item slot) :
    YieldsAll env (separated item) slot := by
  intro draft loose hs
  refine (hitem draft loose hs).bind fun first d hd => ?_
  have hfirst : draft.Gains d loose ([] ++ [first].map (·, slot)) := hd
  refine (loop_items (Silent.consume .comma) hitem hfirst).mono ?_
  rintro items e ⟨hg, hp⟩
  refine ⟨hg, fun hnil => ?_⟩
  simp [hnil] at hp

/-- The way an operator combines its sides: the left side may bind as loosely as the whole, the
right side binds more tightly. -/
structure Combines (combine : Nat → Nat → NodeKind) (low high : Nat) : Prop where
  slots : ∀ left right,
    (combine left right).slots = [(left, .expression low), (right, .expression high)]
  admits : ∀ left right, (Slot.expression low).admits (combine left right) = true
  whole : ∀ left right, (combine left right).isWhole = true
  argument : ∀ left right, (combine left right).argument? = none

/-- **A chain of operators binds as loosely as its operator.** -/
theorem leftChain_yields {first operand : Parser NodeId}
    {operator : Parser (Option (NodeId → NodeId → NodeKind))} {low high : Nat} (hle : low ≤ high)
    (hfirst : Yields env first (.expression high)) (hoperand : Yields env operand (.expression high))
    (hoperator : ∀ draft, Writes env operator draft fun combine d =>
      d = draft ∧ ∀ c ∈ combine, Combines c low high) :
    Yields env (leftChain first operator operand) (.expression low) := by
  intro draft loose hs
  refine (hfirst draft loose hs).bind fun left d hd => ?_
  refine (Silent.startOf left).andThen fun start => ?_
  refine Writes.loop (fun id d => draft.Gains d loose [(id, .expression low)]) ?_
    (hd.weaken hle)
  intro id d hg
  refine (hoperator d).bind ?_
  rintro combine _ ⟨rfl, hc⟩
  cases combine with
  | none => exact .pure hg
  | some combine =>
    have hcombine := hc combine rfl
    refine (hoperand.after hg).bind fun right e he => ?_
    rw [List.singleton_append, ← hcombine.slots id right] at he
    refine (he.pushFrom_writes _ start (hcombine.admits id right) fun _ => ?_).bind
      fun _ _ hn => .pure hn
    exact .of_plain (hcombine.whole id right) (hcombine.argument id right)

end

end Jpql.Parse
