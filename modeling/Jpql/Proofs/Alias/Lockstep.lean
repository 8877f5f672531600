import Jpql.Proofs.Alias.Resolution
import Jpql.Proofs.Check.NodeReport

/-! # Checks with and without the alias

The two trees are checked in step, though not level by level: a bare field takes one level more than
its path. So the checks are compared as long as nothing of the statement without alias is left out.

* `AliasedCheck`: the two statements, with what they are checked against.
* `AliasedCheck.Aligned`: the two checks have found problems with the same keys.
* `AliasedCheck.Keeps`: two operations keep checks aligned. The judgement looks both ways: what is not
  left out at the end was not left out before. -/

namespace Jpql

open Check

/-- **A check of two statements**, without and with the alias, against one metamodel. Both range over an
entity, and the alias makes the name of a type of no path. -/
structure AliasedCheck extends Aliasing where
  metamodel : Metamodel
  env : Env
  entity : String
  name : String
  ranges : toAliasing.Over entity name
  free : left.SpellsNoType metamodel v

namespace AliasedCheck

variable (c : AliasedCheck)

/-- The context of the statement without alias. -/
def contextBefore : QueryContext := c.before c.metamodel

/-- The context of the statement with its alias. -/
def contextAfter : QueryContext := c.after c.metamodel

/-- **The checks have found problems with the same keys.** Only the alias is used so far, and nothing was
left out. -/
structure Aligned (s t : State) : Prop where
  context : t.context = c.contextAfter
  problems : s.problems.map (·.key) = t.problems.map (·.key)
  unused : s.used = []
  used : ∀ id ∈ t.used, c.right.kind id = .identifier c.v false none
  exceeded : s.exceeded = false

/-- **Two operations keep checks aligned** and end with the same result, unless something is left
out. -/
def Keeps {α : Type} (p q : Checker α) : Prop :=
  ∀ s, s.context = c.contextBefore → (p c.env s).2.context = c.contextBefore ∧
    ((p c.env s).2.IsWhole → s.IsWhole ∧ ∀ t, c.Aligned s t →
      (q c.env t).1 = (p c.env s).1 ∧ c.Aligned (p c.env s).2 (q c.env t).2)

/-- Two visitors keep checks aligned at the nodes whose paths are read the same way. -/
def Visits (visit other : Visitor) : Prop :=
  ∀ id < c.left.size, c.Kept id → c.Keeps (visit id) (other (c.image id))

variable {c} {α β γ : Type}

namespace Keeps

variable {p q : Checker α}

theorem pure (a : α) : c.Keeps (Pure.pure a) (Pure.pure a) :=
  fun _ hs => ⟨hs, fun hw => ⟨hw, fun _ ht => ⟨rfl, ht⟩⟩⟩

/-- **One operation after the other.** -/
theorem bind {f g : α → Checker β} (h : c.Keeps p q) (hf : ∀ a, c.Keeps (f a) (g a)) :
    c.Keeps (p >>= f) (q >>= g) := by
  intro s hs
  obtain ⟨hcontext, hfirst⟩ := h s hs
  obtain ⟨hcontext', hsecond⟩ := hf (p c.env s).1 (p c.env s).2 hcontext
  refine ⟨hcontext', fun hw => ?_⟩
  obtain ⟨hwhole, hlast⟩ := hsecond hw
  obtain ⟨hwhole', hnext⟩ := hfirst hwhole
  refine ⟨hwhole', fun t ht => ?_⟩
  obtain ⟨hresult, haligned⟩ := hnext t ht
  rw [bind_run, bind_run, hresult]
  exact hlast _ haligned

theorem discard (h : c.Keeps p q) : c.Keeps (discard p) (discard q) :=
  h.bind fun _ => .pure PUnit.unit

/-- Only the runs matter. -/
theorem congr {p' q' : Checker α} (h : c.Keeps p q)
    (hp : ∀ s : State, s.context = c.contextBefore → p' c.env s = p c.env s)
    (hq : ∀ t : State, t.context = c.contextAfter → q' c.env t = q c.env t) : c.Keeps p' q' := by
  intro s hs
  rw [hp s hs]
  refine ⟨(h s hs).1, fun hw => ⟨((h s hs).2 hw).1, fun t ht => ?_⟩⟩
  rw [hq t ht.context]
  exact ((h s hs).2 hw).2 t ht

/-! ## Questions -/

/-- A question to the contexts has answers of its own on each side. -/
theorem ask {f : QueryContext → β} {g : QueryContext → γ} {k : β → Checker α} {l : γ → Checker α}
    (h : c.Keeps (k (f c.contextBefore)) (l (g c.contextAfter))) :
    c.Keeps (Check.ask f >>= k) (Check.ask g >>= l) :=
  h.congr (fun s hs => by rw [ask_run, hs]) fun t ht => by rw [ask_run, ht]

/-- So has a question to the trees. -/
theorem inTree {f : Tree → β} {g : Tree → γ} {k : β → Checker α} {l : γ → Checker α}
    (h : c.Keeps (k (f c.left)) (l (g c.right))) :
    c.Keeps (Check.inTree f >>= k) (Check.inTree g >>= l) :=
  .ask (f := fun context => f context.tree) (g := fun context => g context.tree) h

theorem kindOf {id other : Nat} {k l : NodeKind → Checker α}
    (h : c.Keeps (k (c.left.kind id)) (l (c.right.kind other))) :
    c.Keeps (Check.kindOf id >>= k) (Check.kindOf other >>= l) :=
  .inTree (f := (·.kind id)) (g := (·.kind other)) h

/-- The switches are the same for both. -/
theorem read {k l : Env → Checker α} (h : c.Keeps (k c.env) (l c.env)) :
    c.Keeps (MonadReader.read >>= k) (MonadReader.read >>= l) := h

/-! ## Problems and uses -/

/-- Problems with the same keys are added. -/
theorem recordAll {problems others : List Problem} (h : problems.map (·.key) = others.map (·.key)) :
    c.Keeps (Check.recordAll problems) (Check.recordAll others) := by
  refine fun s hs => ⟨hs, fun hw => ⟨fun problem hmem => hw problem (List.mem_append_left _ hmem),
    fun t ht => ⟨rfl, { ht with problems := ?_ }⟩⟩⟩
  show (s.problems ++ problems).map _ = (t.problems ++ others).map _
  rw [List.map_append, List.map_append, ht.problems, h]

theorem recordAt (key : ProblemKey) (id other : Nat) :
    c.Keeps (Check.recordAt key id) (Check.recordAt key other) := .inTree (.recordAll rfl)

theorem unuse (id other : Nat) : c.Keeps (Check.unuse id) (Check.unuse other) :=
  fun s hs => ⟨hs, fun hw => ⟨hw, fun t ht => ⟨rfl,
    { ht with
      unused := by
        show s.used.filter _ = []
        rw [ht.unused]
        rfl
      used := fun id hmem => ht.used id (List.mem_filter.mp hmem).1 }⟩⟩⟩

/-- **The alias is the only variable used**, and the virtual variable is no use. -/
theorem variableUse {other : Nat} (hk : c.right.kind other = .identifier c.v false none)
    (visit visit' : Visitor) (id : Nat) :
    c.Keeps (Check.variableUse visit id c.name true none)
      (Check.variableUse visit' other c.v false none) := by
  refine fun s hs => ⟨hs, fun hw => ⟨hw, fun t ht => ⟨rfl, ?_⟩⟩⟩
  have hused : c.Aligned s (use other c.env t).2 := by
    show c.Aligned s (if t.used.contains other then t else { t with used := t.used ++ [other] })
    split
    · exact ht
    · refine { ht with used := fun id hmem => ?_ }
      rcases List.mem_append.mp hmem with hmem | hmem
      · exact ht.used id hmem
      · rw [List.mem_singleton.mp hmem]
        exact hk
  show c.Aligned s ((if t.registers then (Check.ask _ >>= fun isEntity => Check.inTree _ >>= fun isCompared =>
    if !(isEntity && isCompared) then use other else Pure.pure ()) else Pure.pure () : Checker Unit) c.env t).2
  split
  · rw [ask_run, inTree_run]
    split
    · exact hused
    · exact ht
  · exact ht

/-- **All variables used are declared**, and none twice. -/
theorem checkVariables : c.Keeps (get >>= fun state => Check.checkVariables state.used)
    (get >>= fun state => Check.checkVariables state.used) := by
  intro s hs
  have hbefore : c.contextBefore.RangesOver c.entity c.name true := c.ranges.rangesBefore
  have hafter : c.contextAfter.RangesOver c.entity c.v false := c.ranges.rangesAfter
  refine ⟨hs, fun hw => ⟨fun problem hmem => hw problem ?_, fun t ht => ⟨rfl, { ht with problems := ?_ }⟩⟩⟩
  · exact List.mem_append_left _ (List.mem_append_left _ hmem)
  · show (s.problems ++ s.context.duplicates ++ s.context.undeclared s.used).map _ =
      (t.problems ++ t.context.duplicates ++ t.context.undeclared t.used).map _
    rw [hs, ht.context, hbefore.duplicates, hafter.duplicates,
      hbefore.undeclared (by rw [ht.unused]; nofun), hafter.undeclared ht.used]
    simpa using ht.problems

/-- A variable where it is declared. -/
theorem visitDeclared {visit visit' : Visitor} {id other : Nat}
    (h : c.Keeps (visit id) (visit' other)) :
    c.Keeps (Check.visitDeclared visit (some id)) (Check.visitDeclared visit' (some other)) := by
  intro s hs
  obtain ⟨hcontext, hrun⟩ := h { s with registers := false } hs
  refine ⟨hcontext, fun hw => ⟨(hrun hw).1, fun t ht => ⟨rfl, ?_⟩⟩⟩
  exact { ((hrun hw).2 { t with registers := false } { ht with }).2 with }

/-- Something was left out where nothing was before. -/
theorem leaveOut (id : Nat) (q : Checker Unit) : c.Keeps (Check.leaveOut id) q := by
  intro s hs
  have hrun := leaveOut_run id c.env s
  refine ⟨?_, fun hw => ?_⟩
  · rw [hrun]
    split <;> exact hs
  · rw [hrun] at hw
    cases hexceeded : s.exceeded with
    | true =>
      rw [hexceeded, if_pos rfl] at hw
      refine ⟨hw, fun t ht => ?_⟩
      rw [ht.exceeded] at hexceeded
      cases hexceeded
    | false =>
      rw [hexceeded, if_neg Bool.false_ne_true] at hw
      exact absurd rfl (hw _ (List.mem_append_right _ (List.mem_singleton_self _)))

end Keeps

/-! ## Visitors -/

section

variable {visit visit' : Visitor}

theorem Visits.visitAll (hv : c.Visits visit visit') {ids : List Nat}
    (h : ∀ id ∈ ids, id < c.left.size ∧ c.Kept id) :
    c.Keeps (visitAll visit ids) (visitAll visit' (ids.map c.image)) := by
  induction ids with
  | nil => exact .pure _
  | cons id ids ih =>
    obtain ⟨hlt, hkept⟩ := h id List.mem_cons_self
    exact (hv id hlt hkept).bind fun _ => ih fun other hmem => h other (List.mem_cons_of_mem _ hmem)

end

end AliasedCheck

end Jpql
