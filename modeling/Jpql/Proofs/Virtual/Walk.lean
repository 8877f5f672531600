import Jpql.Proofs.Reader.Nested
import Jpql.Proofs.Virtual.Mark

/-! # Reading with an owner and without

While a statement with an owner is read, only names can become virtual (`Walk.pathOrVariable`). A subquery
is read without an owner, and the owner is there again behind it (`Walk.simpleSelect`); so virtual
variables stand where they belong at every level (`level_reads`). -/

namespace Jpql

theorem NodeKind.plain_of_isContextFree {kind : NodeKind} (h : kind.isContextFree = true) :
    kind.isVirtual = false ∧ kind.isSubquery = false := by
  cases kind with
  | identifier name isVirtual path =>
    cases isVirtual with
    | true => cases h
    | false => exact ⟨rfl, rfl⟩
  | simpleSelectStatement => cases h
  | _ => exact ⟨rfl, rfl⟩

namespace Parse

variable {α β : Type} {env : Env} {owner : Option String} {low : Nat} {base : Draft} {s t : State}

/-- The nodes of an earlier draft are kept, and virtual variables stand where they belong. -/
structure Marks (source : String) (owner : Option String) (low : Nat) (base : Draft) (s : State) :
    Prop where
  stays : base.Stays s.draft
  marked : Draft.Marked source owner low s.draft

/-- **A statement or subquery with an owner is being read.** -/
def Walk (env : Env) (owner : Option String) (low : Nat) (base : Draft) (s : State) : Prop :=
  s.virtualVariable = owner ∧ Marks env.source owner low base s

theorem Marks.push (h : Marks env.source owner low base s) {kind : NodeKind} {span : Span}
    (hmarked : Draft.Marked env.source owner low (s.draft.push kind span)) :
    Marks env.source owner low base (s.write (s.draft.push kind span)) :=
  ⟨h.stays.trans (.push _ _ _), hmarked⟩

/-- Basic steps keep the marks. -/
theorem Marks.conserved : Conserved env (Marks env.source owner low base) (low ≤ ·) where
  fresh h := h.marked.low_le
  moved h _ := ⟨h.stays, h.marked⟩
  pushed h _ span hkind :=
    have hplain := NodeKind.plain_of_isContextFree hkind.1
    h.push (h.marked.push_plain span hkind.2 hplain.1 hplain.2)
  recorded h problem :=
    ⟨h.stays.trans (.record _ problem), h.marked.stays (.record _ problem) rfl⟩
  reread h id := ⟨h.stays.trans (.asCollection _ id),
    h.marked.stays (.asCollection _ id) (Draft.size_asCollection _ id)⟩

/-- **Basic steps keep the owner, too.** -/
theorem Walk.conserved : Conserved env (Walk env owner low base) (low ≤ ·) where
  fresh h := Marks.conserved.fresh h.2
  moved h n := ⟨h.1, Marks.conserved.moved h.2 n⟩
  pushed h _ span hkind := ⟨h.1, Marks.conserved.pushed h.2 span hkind⟩
  recorded h problem := ⟨h.1, Marks.conserved.recorded h.2 problem⟩
  reread h id := ⟨h.1, Marks.conserved.reread h.2 id⟩

/-- Nodes that are there now are kept from now on. -/
theorem Walk.rebase (h : Walk env owner low base s) : Walk env owner low s.draft s :=
  ⟨h.1, .refl _, h.2.marked⟩

/-! ## Names -/

/-- The owner is asked for: it is there unless it has the name itself. -/
theorem After.virtualFor?_filter {name : String} {g : Option String → Parser β}
    {post : β → State → Prop}
    (h : After env (g (s.virtualVariable.filter fun owner => !Text.sameWord name owner)) s post) :
    After env (virtualFor? name >>= g) s post := h

/-- A path below the owner. -/
theorem Walk.pushVirtualPath {name : String} (h : Walk env (some name) low base s)
    (field : Located String) (segments : List (Located String)) (dot : Bool) :
    After env (pushVirtualPath name field segments dot) s fun path t =>
      Walk env (some name) low base t ∧ low ≤ path ∧ ∃ root,
        t.draft.kind path = .path .stateField root (field :: segments) dot ∧
        t.draft.kind root = .identifier name true none ∧
        (t.draft.span root).start = (t.draft.span root).stop := by
  refine (After.push _ _).bind fun root t hroot => ?_
  obtain ⟨rfl, rfl⟩ := hroot
  have hkind := s.draft.kind_push (.identifier name true none) (.point field.span.start)
  have hspan := s.draft.span_push (.identifier name true none) (.point field.span.start)
  have hmarked := h.2.marked.push (.point field.span.start) (fun _ hc => absurd hc List.not_mem_nil)
    (fun _ => ⟨name, rfl, .owner hkind (by rw [hspan]; rfl)⟩) fun hk => absurd hk Bool.false_ne_true
  have hroot : Walk env (some name) low base (s.write _) := ⟨h.1, h.2.push hmarked⟩
  intro path t hrun
  obtain ⟨ht, hpath⟩ := Walk.conserved.pushPath .stateField h.2.marked.low_le (field :: segments) dot
    field.span.start _ hroot path t hrun
  obtain ⟨rfl, rfl⟩ := After.pushFrom _ _ path t hrun
  have hstays := Draft.Stays.push (s.draft.push (.identifier name true none) (.point field.span.start))
    (.path .stateField s.draft.size (field :: segments) dot)
    ⟨field.span.start, max (env.endBefore s.position) field.span.start⟩
  have hlt : s.draft.size < (s.draft.push (.identifier name true none)
      (.point field.span.start)).size := by rw [Draft.size_push]; exact Nat.lt_succ_self _
  refine ⟨ht, hpath, s.draft.size, Draft.kind_push _ _ _, hstays.kind_eq_of hlt hkind rfl, ?_⟩
  have hkept := hstays.span_eq _ hlt
  rw [hspan] at hkept
  exact (congrArg Span.start hkept).trans (congrArg Span.stop hkept).symm

/-- What is read after a name keeps to the owner if both ways to go on do. -/
theorem Walk.afterName {name : String} {place : Span}
    {below : List (Located String) → Bool → String → Parser NodeId}
    {atRoot : List (Located String) → Bool → NodeId → Parser NodeId}
    (hbelow : ∀ segments dot, ∀ owns ∈ owner, Text.sameWord name owns = false →
      Keeps env (Walk env owner low base) (below segments dot owns) (low ≤ ·))
    (hroot : ∀ segments dot root, low ≤ root →
      Keeps env (Walk env owner low base) (atRoot segments dot root) (low ≤ ·)) :
    Keeps env (Walk env owner low base) (Parse.afterName name place below atRoot) (low ≤ ·) := by
  have C : Conserved env (Walk env owner low base) (low ≤ ·) := Walk.conserved
  refine C.advance.bind fun _ _ => C.segments.bind fun found _ => fun s hs => ?_
  refine .virtualFor?_filter ?_
  rw [hs.1]
  cases howns : owner.filter fun owner => !Text.sameWord name owner with
  | none => exact (C.pushVariable name place).bind (hroot _ _) s hs
  | some owns =>
    obtain ⟨hmem, hother⟩ := Option.filter_eq_some_iff.mp howns
    exact hbelow _ _ owns hmem (by simpa using hother) s hs

/-- A bare name that stands for a field of the owner. -/
theorem Walk.pushField {name owns : String} {place : Span} {path root : NodeId}
    (h : Walk env (some owns) low base s) (hlow : low ≤ path)
    (hname : name = Text.slice env.source place) (hother : Text.sameWord name owns = false)
    (hpath : s.draft.kind path = .path .stateField root [⟨name, place⟩] false)
    (hroot : s.draft.kind root = .identifier owns true none)
    (hempty : (s.draft.span root).start = (s.draft.span root).stop) :
    Walk env (some owns) low base
      (s.write (s.draft.push (.identifier name true (some path)) place)) := by
  have hstays := Draft.Stays.push s.draft (.identifier name true (some path)) place
  have hkind := s.draft.kind_push (.identifier name true (some path)) place
  have hspan := s.draft.span_push (.identifier name true (some path)) place
  have hpathLt : path < s.draft.size := Draft.lt_size_of_kind (hpath ▸ NodeKind.noConfusion)
  have hrootLt : root < s.draft.size := Draft.lt_size_of_kind (hroot ▸ NodeKind.noConfusion)
  have hpathKept : (s.draft.push (.identifier name true (some path)) place).kind path =
      .path .stateField root [⟨name, (s.draft.push (.identifier name true (some path)) place).span
        s.draft.size⟩] false := by
    rw [hspan, (s.draft.grows_push _ _).kind_eq path hpathLt, hpath]
  have hat : VirtualAt env.source (s.draft.push (.identifier name true (some path)) place).kind
      (s.draft.push (.identifier name true (some path)) place).span owns s.draft.size :=
    .field hkind (hspan.symm ▸ hname) hother hpathKept (hstays.kind_eq_of hrootLt hroot rfl)
      (by rw [hstays.span_eq root hrootLt, hempty])
  refine ⟨h.1, h.2.push (h.2.marked.push place (fun child hc => ?_) (fun _ => ⟨owns, rfl, hat⟩)
    fun hk => absurd hk Bool.false_ne_true)⟩
  obtain rfl : child = path := by simpa [NodeKind.children] using hc
  exact hlow

/-- **A name is a variable, or a path, or a field of the owner.** -/
theorem Walk.pathOrVariable : Keeps env (Walk env owner low base) pathOrVariable (low ≤ ·) := by
  have C : Conserved env (Walk env owner low base) (low ≤ ·) := Walk.conserved
  rw [pathOrVariable_eq]
  refine fun first hfirst => .look_bind (.look_bind (Walk.afterName
    (fun segments dot owns howns hother => ?_) (fun segments dot root hroot => ?_) first hfirst))
  · obtain rfl := Option.mem_def.mp howns
    refine fun s hs => (hs.pushVirtualPath _ segments dot).bind fun path t ht => ?_
    obtain ⟨ht, hlow, root, hpath, hroot, hempty⟩ := ht
    split
    · next hbare =>
      obtain ⟨rfl, rfl⟩ : segments = [] ∧ dot = false := by simpa using hbare
      refine (After.push _ _).mono fun id u hu => ?_
      obtain ⟨rfl, rfl⟩ := hu
      exact ⟨ht.pushField hlow rfl hother hpath hroot hempty, ht.2.marked.low_le⟩
    · exact .pure ⟨ht, hlow⟩
  · split
    · exact .pure hroot
    · exact C.pushPath _ hroot _ _ _

/-- **The target of an item of `SET` is a path**, below the owner or at a variable. -/
theorem Walk.updateTarget : Keeps env (Walk env owner low base) updateTarget (low ≤ ·) := by
  have C : Conserved env (Walk env owner low base) (low ≤ ·) := Walk.conserved
  rw [updateTarget_eq]
  refine .look fun name? => ?_
  cases name? with
  | none => exact C.missing _
  | some name =>
    refine .look fun place => Walk.afterName (fun segments dot owns howns hother => ?_)
      fun segments dot root hroot => C.pushPath _ hroot _ _ _
    obtain rfl := Option.mem_def.mp howns
    exact fun s hs => (hs.pushVirtualPath _ segments dot).mono fun path t ht => ⟨ht.1, ht.2.1⟩

/-! ## Levels -/

/-- **A subquery is read without an owner**, and the owner is there again behind it. -/
theorem Walk.simpleSelect {deeper : Deeper}
    (hd : ∀ low base, Conserved.Reads env (Walk env none low base) (low ≤ ·) deeper) :
    Keeps env (Walk env owner low base) (simpleSelect deeper) (low ≤ ·) := by
  intro s hs
  have C : Conserved env (Walk env none s.draft.size s.draft) (s.draft.size ≤ ·) := Walk.conserved
  have hinner : Walk env none s.draft.size s.draft { s with virtualVariable := none } :=
    ⟨rfl, .refl _, .start _ _ _⟩
  have hsubquery : Keeps env (Walk env none s.draft.size s.draft) (do
      let start ← Parse.look (·.currentStart)
      let select ← Parse.selectClause deeper true
      let source ← Parse.fromClause? deeper true
      let condition ← Parse.whereClause? deeper
      let groups ← Parse.groupByClause? deeper
      let having ← Parse.havingClause? deeper
      Parse.pushFrom (.simpleSelectStatement select source condition groups having) start)
      (s.draft.size ≤ ·) := by
    refine .look fun start => C.subqueryClauses (hd _ _) fun _ _ _ _ _ hchildren => ?_
    refine fun t ht => (After.pushFrom _ _).mono fun id u hu => ?_
    obtain ⟨rfl, rfl⟩ := hu
    exact ⟨⟨ht.1, ht.2.push (ht.2.marked.push_subquery _ hchildren rfl)⟩, ht.2.marked.low_le⟩
  refine .get_bind (.modify_bind ((hsubquery _ hinner).bind fun id t ht => .modify_bind (.pure ?_)))
  exact ⟨⟨hs.1, hs.2.stays.trans ht.1.2.stays, hs.2.marked.join ht.1.2.stays ht.1.2.marked⟩,
    Nat.le_trans hs.2.marked.low_le ht.2⟩

/-- **At every level virtual variables stand where they belong.** -/
theorem level_reads (env : Env) (levels : Nat) (owner : Option String) (low : Nat) (base : Draft) :
    Conserved.Reads env (Walk env owner low base) (low ≤ ·) (level levels) := by
  refine ⟨Walk.pathOrVariable, Walk.updateTarget, ?_⟩
  induction levels generalizing owner low base with
  | zero => exact fun _ => Walk.conserved.skipTooDeep
  | succ levels ih =>
    have hd : ∀ owner low base,
        Conserved.Reads env (Walk env owner low base) (low ≤ ·) (level levels) :=
      fun owner low base => ⟨Walk.pathOrVariable, Walk.updateTarget, ih owner low base⟩
    exact Walk.conserved.nested (hd owner low base) (Walk.simpleSelect (hd none))

end Parse

end Jpql
