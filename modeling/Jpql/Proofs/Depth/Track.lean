import Jpql.Proofs.Check.Effect
import Jpql.Proofs.Depth.Trace
import Jpql.Proofs.Tree.Order

/-! # Operations with a trace

An operation of a check is taken here for every limit at once: as a family that is given a limit, which
tells the number of levels left for the nodes below.

* `Check.Limit`: what limits an operation, the number of levels at least.
* `Check.Setting`: what a check keeps at a place.
* `Check.Tracks`: every run of an operation in a setting, with whatever limit, follows one trace.
* `Check.Tracks.bind`: so does one operation after another, if a node that both use is used by the first
  at no greater depth.
* `Check.Traced`, `Check.Sweeps`: some trace is followed, for nodes that lie apart. -/

namespace Jpql.Check

/-- **What limits an operation**: it tells how many levels are left for the nodes below. -/
class Limit (ι : Type) where
  levels : ι → Nat

instance : Limit Nat where
  levels levels := levels

/-- **What a check keeps at a place** of a tree. -/
structure Setting (tree : Tree) where
  context : QueryContext
  context_tree : context.tree = tree
  registers : Bool
  updateValues : Bool

namespace Setting

variable {tree : Tree} (setting : Setting tree)

/-- A run starts in the setting. -/
structure Starts (env : Env) (s : State) : Prop where
  context : s.context = setting.context
  registers : s.registers = setting.registers
  updateValues : env.updateValues = setting.updateValues

/-- The setting in a subquery. -/
def enter (id : NodeId) : Setting tree :=
  { setting with context := setting.context.enter id, context_tree := setting.context_tree }

/-- The setting where a variable is declared. -/
def silent : Setting tree := { setting with registers := false }

variable {setting}

theorem Starts.step {env : Env} {s s' : State} (h : setting.Starts env s) {t : Trace} {levels : Nat}
    (hrun : t.Run levels s s') : setting.Starts env s' :=
  ⟨hrun.context.trans h.context, hrun.registers.trans h.registers, h.updateValues⟩

end Setting

variable {tree : Tree} {ι α β : Type} [Limit ι]

/-- **An operation follows a trace** with whatever limit. The variables that come into use are among the
nodes in `N`; of these none must have been in use before, unless it comes into use again. -/
structure Tracks (setting : Setting tree) (N : NodeId → Prop) (p : ι → Checker α) (a : α)
    (t : Trace) : Prop where
  sound : t.Sound
  within : ∀ id ∈ t.nodes, N id
  run : ∀ limit env s, setting.Starts env s → (∀ id ∈ s.used, N id → id ∈ t.nodes) →
    (p limit env s).1 = a ∧ t.Run (Limit.levels limit) s (p limit env s).2

/-- **Some trace is followed.** -/
def Traced (setting : Setting tree) (N : NodeId → Prop) (p : ι → Checker α) (a : α) : Prop :=
  ∃ t, Tracks setting N p a t

/-- **Some trace is followed for what is below nodes that lie apart.** -/
def Sweeps (setting : Setting tree) (ids : List NodeId) (p : ι → Checker Unit) : Prop :=
  ids.Pairwise tree.Apart → Traced setting (tree.Below ids) p ()

variable {setting : Setting tree} {N M : NodeId → Prop} {p q : ι → Checker α}
  {f : ι → α → Checker β} {a : α} {b : β} {t u : Trace} {id : NodeId}

/-! ### One level further down -/

/-- **What is done at a node is found one level further down by a visit.** With no level left, the node
is left out. -/
theorem finds_visit {env : Env} {s : State}
    (h : ∀ levels, t.Finds levels s (visitKind (visitTo levels) id env s).2) (levels : Nat) :
    t.deeper.Finds levels s (visitTo levels id env s).2 := by
  cases levels with
  | succ levels =>
    have hdeep : decide (levels + 1 < t.deeper.reach) = decide (levels < t.reach) :=
      decide_eq_decide.mpr Nat.add_lt_add_iff_right
    refine ⟨?_, ?_, (h levels).marks⟩
    · rw [Trace.deeper, upTo_succ_sink]
      exact (h levels).found
    · rw [hdeep]
      exact (h levels).exceeded
  | zero =>
    have hfound : upTo 0 t.deeper.found = [] := upTo_zero_sink
    have hdeep : decide (0 < t.deeper.reach) = true := decide_eq_true (Nat.succ_pos _)
    show t.deeper.Finds 0 s (leaveOut id env s).2
    rw [leaveOut_run]
    split
    · next hexceeded => exact ⟨by simp [hfound], by simp [hexceeded], rfl⟩
    · next hexceeded =>
      exact ⟨by simp [hfound, faults], by simp [hdeep], by simp [marks, hexceeded]⟩

/-! ### One operation -/

namespace Tracks

/-- Only the runs in the setting matter. -/
theorem congr (h : Tracks setting N q a t)
    (heq : ∀ limit env s, setting.Starts env s → p limit env s = q limit env s) :
    Tracks setting N p a t :=
  ⟨h.sound, h.within, fun limit env s hs hclear => heq limit env s hs ▸ h.run limit env s hs hclear⟩

theorem mono (h : Tracks setting N p a t) (hle : ∀ id, N id → M id) : Tracks setting M p a t :=
  ⟨h.sound, fun id hid => hle id (h.within id hid),
    fun limit env s hs hclear => h.run limit env s hs fun id hid hn => hclear id hid (hle id hn)⟩

protected theorem pure (a : α) : Tracks setting N (fun _ : ι => Pure.pure a) a .empty :=
  ⟨Trace.sound_empty, fun _ h => absurd h List.not_mem_nil, fun _ _ _ _ _ => ⟨rfl, .empty⟩⟩

/-- Findings are recorded at the surface. -/
theorem recordAll {problems : List Problem}
    (h : ∀ problem ∈ problems, problem.key ≠ .traversalTooDeep) :
    Tracks setting N (fun _ : ι => recordAll problems) () (.finds problems) :=
  ⟨Trace.sound_finds h, fun _ h => absurd h List.not_mem_nil, fun _ _ _ _ _ => ⟨rfl, .finds h⟩⟩

/-- A variable comes into use at the surface. -/
theorem use (hid : N id) : Tracks setting N (fun _ : ι => use id) () ⟨[], [surface id], 0⟩ := by
  refine ⟨⟨nofun, ?_, nofun, List.nodup_singleton _⟩, ?_, fun limit env s _ _ => ⟨rfl, ?_⟩⟩
  · simp [surface]
  · simpa [Trace.nodes, surface] using hid
  · have hrun : (Check.use id env s).2 = { s with used := note s.used [id] } := by
      show (if s.used.contains id then s else { s with used := s.used ++ [id] }) = _
      rw [note_cons, note_nil]
      simp only [List.contains_iff_mem]
      split <;> rfl
    rw [hrun]
    exact ⟨⟨by simp, by simp, rfl⟩, rfl, rfl, rfl⟩

/-- **One operation after the other.** -/
theorem bind (hp : Tracks setting N p a t) (hf : Tracks setting M (f · a) b u)
    (hbefore : t.Before N M u) :
    Tracks setting (fun id => N id ∨ M id) (fun limit => p limit >>= f limit) b (t.andThen u) := by
  refine ⟨hp.sound.andThen hf.sound, fun id hid => ?_, fun limit env s hs hclear => ?_⟩
  · exact (Trace.mem_nodes_andThen.mp hid).imp (hp.within id) (hf.within id)
  · simp only [Trace.mem_nodes_andThen] at hclear
    obtain ⟨hvalue, hrun⟩ := hp.run limit env s hs fun id hid hn =>
      (hclear id hid (.inl hn)).elim (fun h => h) (hbefore.left id · hn)
    have hclear' : ∀ id ∈ (p limit env s).2.used, M id → id ∈ u.nodes := fun id hid hm => by
      rw [hrun.used, mem_note] at hid
      rcases hid with hid | hid
      · exact (hclear id hid (.inr hm)).elim (hbefore.right id · hm) fun h => h
      · exact hbefore.right id (Trace.mem_nodes_of_mem_upTo hid) hm
    obtain ⟨hvalue', hrun'⟩ := hf.run limit env _ (hs.step hrun) hclear'
    rw [← hvalue] at hvalue' hrun'
    exact ⟨hvalue', hrun.andThen hrun' hbefore.late⟩

/-- An operation that only finds something comes last. -/
theorem bind_finds {problems : List Problem} (hp : Tracks setting N p a t)
    (hf : Tracks setting (fun _ => False) (f · a) b (.finds problems)) :
    Tracks setting N (fun limit => p limit >>= f limit) b
      ⟨t.found ++ problems.map surface, t.uses, t.reach⟩ := by
  have htrace : t.andThen (.finds problems) = ⟨t.found ++ problems.map surface, t.uses, t.reach⟩ := by
    simp [Trace.andThen, Trace.finds]
  rw [← htrace]
  have hapart : t.Before N (fun _ => False) (.finds problems) :=
    .of_apart hp.within (fun _ h => absurd h List.not_mem_nil) fun _ _ h => h
  refine (hp.bind hf hapart).mono ?_
  exact fun _ h => h.elim (fun h => h) False.elim

/-- A variable that came into use is taken back. -/
theorem unuse (hp : Tracks setting N p a t) (hid : N id) :
    Tracks setting N (fun limit => p limit >>= fun _ => unuse id) () (t.without id) := by
  refine ⟨hp.sound.without id, fun other ho => ?_, fun limit env s hs hclear => ⟨rfl, ?_⟩⟩
  · rw [Trace.nodes_without] at ho
    exact hp.within other (List.mem_filter.mp ho).1
  · rw [Trace.nodes_without] at hclear
    have hnew : id ∉ s.used := fun hmem => by
      simpa using (List.mem_filter.mp (hclear id hmem hid)).2
    obtain ⟨-, hrun⟩ := hp.run limit env s hs fun other ho hn =>
      (List.mem_filter.mp (hclear other ho hn)).1
    refine ⟨⟨hrun.found, hrun.exceeded, hrun.marks⟩, hrun.context, hrun.registers, ?_⟩
    show (p limit env s).2.used.filter (· != id) =
      note s.used (upTo (Limit.levels limit) (t.without id).uses)
    rw [hrun.used, filter_note, Trace.without, upTo_filter (fun other => other != id)]
    congr 1
    exact List.filter_eq_self.mpr fun other ho => by
      rw [bne_iff_ne]
      rintro rfl
      exact hnew ho

/-- A variable that came into use is taken back, and then something is found. -/
theorem bind_unuse {g : ι → Checker β} {problems : List Problem} (hp : Tracks setting N p a t)
    (hid : N id)
    (hf : ∀ limit env s, setting.Starts env s →
      f limit a env s = (Check.unuse id >>= fun _ => g limit) env s)
    (hg : Tracks setting (fun _ => False) g b (.finds problems)) :
    Tracks setting N (fun limit => p limit >>= f limit) b
      ⟨t.found ++ problems.map surface, (t.without id).uses, t.reach⟩ := by
  have h := (hp.unuse hid).bind_finds (f := fun limit _ => g limit) hg
  refine ⟨h.sound, h.within, fun limit env s hs hclear => ?_⟩
  have hstart : ∀ other ∈ s.used, N other → other ∈ t.nodes := fun other ho hn => by
    have hmem : other ∈ (t.without id).nodes := hclear other ho hn
    rw [Trace.nodes_without] at hmem
    exact (List.mem_filter.mp hmem).1
  obtain ⟨hvalue, hrun⟩ := hp.run limit env s hs hstart
  have hstep : (p limit >>= f limit) env s =
      ((p limit >>= fun _ => Check.unuse id) >>= fun _ => g limit) env s := by
    show f limit (p limit env s).1 env (p limit env s).2 = _
    rw [hvalue, hf limit env _ (hs.step hrun)]
    rfl
  rw [hstep]
  exact h.run limit env s hs hclear

/-- An operation is followed by an answer. -/
theorem answer (h : Tracks setting N p a t) (b : β) :
    Tracks setting N (fun limit => p limit >>= fun _ => Pure.pure b) b t :=
  ⟨h.sound, h.within, fun limit env s hs hclear => ⟨rfl, (h.run limit env s hs hclear).2⟩⟩

protected theorem discard (h : Tracks setting N p a t) :
    Tracks setting N (fun limit => discard (p limit)) () t := h.answer PUnit.unit

/-! ### Questions -/

theorem ask_bind {γ : Type} {g : QueryContext → γ} {f : ι → γ → Checker β}
    (h : Tracks setting N (f · (g setting.context)) b t) :
    Tracks setting N (fun limit => ask g >>= f limit) b t :=
  h.congr fun limit env s hs => by rw [← hs.context]; rfl

theorem inTree_bind {γ : Type} {g : Tree → γ} {f : ι → γ → Checker β}
    (h : Tracks setting N (f · (g tree)) b t) :
    Tracks setting N (fun limit => inTree g >>= f limit) b t :=
  ask_bind (by rwa [setting.context_tree])

theorem kindOf_bind {f : ι → NodeKind → Checker β} (h : Tracks setting N (f · (tree.kind id)) b t) :
    Tracks setting N (fun limit => kindOf id >>= f limit) b t :=
  inTree_bind h

/-- A finding at a node. -/
theorem recordAt {key : ProblemKey} (h : key ≠ .traversalTooDeep) :
    Tracks setting N (fun _ : ι => recordAt key id) ()
      (.finds [⟨key, [tree.parsedText id], tree.span id, some id⟩]) :=
  inTree_bind (recordAll (by simpa using h))

/-! ### Visits -/

/-- **A visit follows the trace one level further down.** -/
theorem visit (h : Tracks setting N (fun levels => visitKind (visitTo levels) id) () t) :
    Tracks setting N (fun levels => visitTo levels id) () t.deeper := by
  refine ⟨h.sound.deeper, by simpa using h.within, fun levels env s hs hclear => ⟨rfl, ?_⟩⟩
  rw [Trace.nodes_deeper] at hclear
  have hrun := fun levels => (h.run levels env s hs hclear).2
  have hfinds := finds_visit (fun levels => (hrun levels).toFinds) levels
  cases levels with
  | succ levels =>
    refine ⟨hfinds, (hrun levels).context, (hrun levels).registers, ?_⟩
    show (visitKind (visitTo levels) id env s).2.used = note s.used (upTo (levels + 1) (t.uses.map sink))
    rw [upTo_succ_sink]
    exact (hrun levels).used
  | zero =>
    have hnone : upTo 0 t.deeper.uses = [] := upTo_zero_sink
    obtain ⟨hcontext, hregisters, hused⟩ : (leaveOut id env s).2.context = s.context ∧
        (leaveOut id env s).2.registers = s.registers ∧ (leaveOut id env s).2.used = s.used := by
      rw [leaveOut_run]
      split <;> exact ⟨rfl, rfl, rfl⟩
    refine ⟨hfinds, hcontext, hregisters, ?_⟩
    show (leaveOut id env s).2.used = note s.used (upTo 0 t.deeper.uses)
    rw [hnone]
    exact hused

end Tracks

/-! ### Some trace -/

namespace Traced

theorem congr (h : Traced setting N q a)
    (heq : ∀ limit env s, setting.Starts env s → p limit env s = q limit env s) :
    Traced setting N p a :=
  h.imp fun _ h => h.congr heq

theorem mono (h : Traced setting N p a) (hle : ∀ id, N id → M id) : Traced setting M p a :=
  h.imp fun _ h => h.mono hle

protected theorem pure (a : α) : Traced setting N (fun _ : ι => Pure.pure a) a := ⟨_, .pure a⟩

theorem recordAll {problems : List Problem}
    (h : ∀ problem ∈ problems, problem.key ≠ .traversalTooDeep) :
    Traced setting N (fun _ : ι => recordAll problems) () :=
  ⟨_, .recordAll h⟩

theorem use (hid : N id) : Traced setting N (fun _ : ι => Check.use id) () := ⟨_, .use hid⟩

/-- **One operation after the other**, on nodes that lie apart. -/
theorem bind (hp : Traced setting N p a) (hf : Traced setting M (f · a) b)
    (hapart : ∀ id, N id → ¬M id) :
    Traced setting (fun id => N id ∨ M id) (fun limit => p limit >>= f limit) b := by
  obtain ⟨t, ht⟩ := hp
  obtain ⟨u, hu⟩ := hf
  exact ⟨_, ht.bind hu (.of_apart ht.within hu.within hapart)⟩

/-- An operation that uses nothing comes first. -/
theorem bind_left (hp : Traced setting (fun _ => False) p a) (hf : Traced setting N (f · a) b) :
    Traced setting N (fun limit => p limit >>= f limit) b :=
  (hp.bind hf fun _ h => h.elim).mono fun _ h => h.elim False.elim fun h => h

/-- An operation that uses nothing comes last. -/
theorem bind_right (hp : Traced setting N p a) (hf : Traced setting (fun _ => False) (f · a) b) :
    Traced setting N (fun limit => p limit >>= f limit) b :=
  (hp.bind hf fun _ _ h => h).mono fun _ h => h.elim (fun h => h) False.elim

/-! ### Questions -/

theorem ask_bind {γ : Type} {g : QueryContext → γ} {f : ι → γ → Checker β}
    (h : Traced setting N (f · (g setting.context)) b) :
    Traced setting N (fun limit => ask g >>= f limit) b :=
  h.imp fun _ h => h.ask_bind

theorem inTree_bind {γ : Type} {g : Tree → γ} {f : ι → γ → Checker β}
    (h : Traced setting N (f · (g tree)) b) :
    Traced setting N (fun limit => inTree g >>= f limit) b :=
  h.imp fun _ h => h.inTree_bind

theorem kindOf_bind {f : ι → NodeKind → Checker β} (h : Traced setting N (f · (tree.kind id)) b) :
    Traced setting N (fun limit => kindOf id >>= f limit) b :=
  inTree_bind h

/-- A finding at a node. -/
theorem recordAt {key : ProblemKey} (h : key ≠ .traversalTooDeep) :
    Traced setting N (fun _ : ι => Check.recordAt key id) () := ⟨_, .recordAt h⟩

end Traced

/-! ### Nodes that lie apart -/

namespace Sweeps

variable {ids others : List NodeId} {p r : ι → Checker Unit}

theorem nil : Sweeps setting [] (fun _ : ι => Pure.pure ()) := fun _ => .pure ()

theorem single (h : Traced setting (tree.Holds id) p ()) : Sweeps setting [id] p :=
  fun _ => h.mono fun _ hn => by simpa using hn

theorem append (hp : Sweeps setting ids p) (hr : Sweeps setting others r) :
    Sweeps setting (ids ++ others) (fun limit => p limit >>= fun _ => r limit) := by
  intro hpairwise
  obtain ⟨hids, hothers, hapart⟩ := List.pairwise_append.mp hpairwise
  refine ((hp hids).bind (hr hothers) ?_).mono fun id h => Tree.below_append.mpr h
  rintro inner ⟨a, ha, hha⟩ ⟨b, hb, hhb⟩
  exact hapart a ha b hb inner hha hhb

theorem cons (hp : Traced setting (tree.Holds id) p ()) (hr : Sweeps setting others r) :
    Sweeps setting (id :: others) (fun limit => p limit >>= fun _ => r limit) :=
  append (single hp) hr

/-- The same operation at each of some nodes. -/
theorem forM {γ : Type} {node : γ → NodeId} {items : List γ} {op : ι → γ → Checker Unit}
    (h : ∀ item ∈ items, Traced setting (tree.Holds (node item)) (op · item) ()) :
    Sweeps setting (items.map node) (fun limit => items.forM (op limit)) := by
  induction items with
  | nil => exact nil
  | cons item items ih =>
    exact cons (h item List.mem_cons_self) (ih fun other ho => h other (List.mem_cons_of_mem _ ho))

/-- **What sweeps the children of a node follows a trace at the node.** -/
theorem traced (hwf : tree.WellFormed) (h : Sweeps setting (tree.children id) p) :
    Traced setting (tree.Holds id) p () :=
  (h (Tree.apart_children hwf id)).mono fun _ hn => (Tree.holds_iff hwf).mpr (.inr hn)

end Sweeps

end Jpql.Check
