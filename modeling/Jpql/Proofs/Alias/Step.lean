import Jpql.Proofs.Alias.Mirror
import Jpql.Proofs.Place.Draft

/-! # Steps of a run and of its mirror

Each basic step is followed: a move over a token, a node that is added, a path that is read as
collection-valued; and with the steps of a repetition the whole of it. A problem that is recorded, and
a node that cannot be in a statement without alias, do not lead to the finished tree. -/

namespace Jpql

theorem Tree.Matches.asCollection {tree : Tree} {v : String} {kind other : NodeKind} {id : Nat}
    (h : tree.Matches v kind other id) :
    (kind.asCollection.renamed v tree.image).Alike other.asCollection := by
  rcases h with h | ⟨h, -⟩
  · rw [← NodeKind.asCollection_renamed]
    exact h.asCollection
  · rw [← NodeKind.asCollection_asCollection, ← NodeKind.asCollection_renamed]
    exact h.asCollection

end Jpql

namespace Jpql.Mirror

open Parse

variable {M : Mirror} {s s' t : State}

/-! ## Moves -/

theorem Leads.back (hs' : M.Leads s') (hdraft : s'.draft = s.draft)
    (hle : s.position ≤ s'.position) : M.Leads s where
  inside := Nat.lt_of_le_of_lt hle hs'.inside
  problems := (congrArg Draft.problems hdraft).symm.trans hs'.problems
  size_le := hdraft ▸ hs'.size_le
  span_eq := hdraft ▸ hs'.span_eq
  kind_eq := hdraft ▸ hs'.kind_eq
  ahead id hid hlt haliased := by
    obtain ⟨i, hi, hmore⟩ := hs'.ahead id (hdraft ▸ hid) hlt haliased
    exact ⟨i, Nat.le_trans hle hi, hmore⟩

theorem Rel.move (h : M.Rel s t) {n m : Nat} (hle : s.position ≤ n) (hm : m = M.place n) :
    M.Rel { s with position := n } { t with position := m } :=
  { h with
    position := hm
    behind := fun id hid haliased => by
      obtain ⟨i, hi, hspan⟩ := h.behind id hid haliased
      exact ⟨i, Nat.lt_of_lt_of_le hi hle, hspan⟩ }

/-- **Behind a token that was only moved over** the other run is at the same place. -/
theorem Rel.advance (h : M.Rel s t)
    (hs' : M.Leads { s with position := (s.stream M.left).advance.position }) :
    M.Rel { s with position := (s.stream M.left).advance.position }
      { t with position := (t.stream M.right).advance.position } ∧
    (t.stream M.right).kind = (s.stream M.left).kind ∧
    (t.stream M.right).currentText = (s.stream M.left).currentText := by
  have hle := le_advance (s.stream M.left)
  have hs : M.Leads s := hs'.back rfl hle
  have hlt := hs.inside
  have hkeeps : M.tree.Keeps M.left.tokens[s.position] := by
    refine h.keeps hs hs' (Nat.le_refl _) hlt ?_ fun id hge hread => ?_
    · by_cases hnames : M.left.Names s.position
      · refine .inl ?_
        have hmore := Env.Names.succ_lt M.aliased.inOrder hlt hnames
        have hposition := TokenStream.position_advance (s.stream M.left)
          (show s.position ≤ M.left.tokens.size - 1 by omega)
        show s.position < (s.stream M.left).advance.position
        rw [hposition]
        show s.position < min (s.position + 1) (M.left.tokens.size - 1)
        omega
      · exact .inr hnames
    · exact absurd hread (Nat.not_lt.mpr hge)
  obtain ⟨hat, -⟩ := M.aliased.of_keeps hlt hkeeps
  have hcurrent : (s.stream M.left).current = M.left.tokens[s.position] :=
    Env.InOrder.current_eq hlt
  refine ⟨h.move hle ?_, ?_, ?_⟩
  · rw [h.stream]
    exact M.aliased.advance_place hlt hkeeps
  · rw [h.stream, TokenStream.kind, TokenStream.kind, hcurrent]
    exact hat.kind_eq
  · rw [h.stream, TokenStream.currentText, TokenStream.currentText, hcurrent]
    exact hat.currentText_eq

/-- The current token is only moved over. -/
def Passed (M : Mirror) (s : State) : Prop :=
  M.Leads { s with position := (s.stream M.left).advance.position }

/-! ## Nodes -/

theorem Adds.omits {kind : NodeKind} (hadds : M.Adds kind s) :
    kind.omitsAlias M.tree.kind = true := by
  have homits := M.omits _ hadds.1
  rcases hadds.2 with hk | hk
  · exact hk ▸ homits
  · rw [hk, NodeKind.omitsAlias_asCollection] at homits
    exact homits

theorem Adds.isField {kind : NodeKind} (hadds : M.Adds kind s) :
    (M.tree.kind s.draft.size).isField = kind.isField := by
  rcases hadds.2 with hk | hk <;> rw [hk]
  exact NodeKind.isField_asCollection _

theorem Leads.isField (hs : M.Leads s) {id : Nat} (hid : id < s.draft.size) :
    (M.tree.kind id).isField = (s.draft.kind id).isField := by
  rcases hs.kind_eq id hid with hk | hk <;> rw [hk]
  exact NodeKind.isField_asCollection _

theorem Leads.isVariable (hs : M.Leads s) {id : Nat} (hid : id < s.draft.size) :
    (M.tree.kind id).isVariable = (s.draft.kind id).isVariable := by
  rcases hs.kind_eq id hid with hk | hk <;> rw [hk]
  exact NodeKind.isVariable_asCollection _

section Push

variable {kind other : NodeKind} {span place : Span}

theorem Leads.adds (hs' : M.Leads (s.write (s.draft.push kind span))) : M.Adds kind s := by
  have hlt : s.draft.size < (s.draft.push kind span).size := by
    rw [Draft.size_push]
    exact Nat.lt_succ_self _
  refine ⟨Nat.lt_of_lt_of_le hlt hs'.size_le, ?_⟩
  have hkind := hs'.kind_eq s.draft.size hlt
  rw [show (s.write (s.draft.push kind span)).draft.kind s.draft.size = kind from
    Draft.kind_push _ _ _] at hkind
  exact hkind

/-- A node is added. If an alias is written at it, a name stands where the run starts. -/
theorem Leads.pushBack (hs' : M.Leads s') (hdraft : s'.draft = s.draft.push kind span)
    (hle : s.position ≤ s'.position)
    (hname : kind.isAliased = true →
      M.left.Names s.position ∧ span.start = M.left.startAt s.position) : M.Leads s := by
  have hstays := Draft.Stays.push s.draft kind span
  have hsize : s'.draft.size = s.draft.size + 1 := hdraft ▸ Draft.size_push _ _ _
  have hold : ∀ id < s.draft.size, id < s'.draft.size := fun id hid => by omega
  refine ⟨Nat.lt_of_le_of_lt hle hs'.inside, ?_, by have := hs'.size_le; omega, fun id hid => ?_,
    fun id hid => ?_, fun id hid hlt haliased => ?_⟩
  · exact (congrArg Draft.problems hdraft).symm.trans hs'.problems
  · rw [hs'.span_eq id (hold id hid), hdraft]
    exact hstays.span_eq id hid
  · have hsame : s'.draft.kind id = s.draft.kind id :=
      hdraft ▸ (s.draft.grows_push kind span).kind_eq id hid
    rw [← hsame]
    exact hs'.kind_eq id (hold id hid)
  · rcases Nat.lt_or_eq_of_le hid with hnew | rfl
    · obtain ⟨i, hi, hmore⟩ := hs'.ahead id (by omega) hlt haliased
      exact ⟨i, Nat.le_trans hle hi, hmore⟩
    · have hkind : s'.draft.kind s.draft.size = kind := hdraft ▸ Draft.kind_push _ _ _
      have hspan : s'.draft.span s.draft.size = span := hdraft ▸ Draft.span_push _ _ _
      obtain ⟨hnames, hstart⟩ := hname <| by
        rcases hs'.kind_eq s.draft.size (by omega) with hk | hk <;> rw [hk, hkind] at haliased
        · exact haliased
        · exact (NodeKind.isAliased_asCollection kind).symm.trans haliased
      refine ⟨s.position, Nat.le_refl _, Nat.lt_of_le_of_lt hle hs'.inside, hnames, ?_⟩
      rw [hs'.span_eq s.draft.size (by omega), hspan, hstart]

/-- There are no types in the mirror image. -/
theorem Adds.ne_type (hadds : M.Adds kind s) (hother : (M.renamed kind).Alike other)
    (expression : NodeId) : other ≠ .type expression := by
  rintro rfl
  have hrenamed : M.renamed kind = .type expression := by
    generalize M.renamed kind = renamed at hother
    cases hother
    rfl
  have homits := hadds.omits
  cases kind with
  | type => cases homits
  | identifier name isVirtual path => cases isVirtual <;> cases path <;> cases hrenamed
  | _ => cases hrenamed

/-- **A node and its mirror image are added.** -/
theorem Rel.push (h : M.Rel s t) (other : NodeKind) (span place : Span)
    (hs : ∀ {id}, id < s.draft.size → (M.tree.kind id).isField = (s.draft.kind id).isField)
    (hadds : M.Adds kind s) (hother : (M.renamed kind).Alike other) (hfield : kind.isField = false)
    (hvirtual : ∀ name, kind = .identifier name true none → M.tree.Owns name)
    (hbehind : kind.isAliased = true → ∃ i < s.position, span.start = M.left.startAt i) :
    M.Rel (s.write (s.draft.push kind span)) (t.write (t.draft.push other place)) := by
  have hleft : (s.draft.push kind span).size = s.draft.size + 1 := Draft.size_push _ _ _
  have hright : (t.draft.push other place).size = t.draft.size + 1 := Draft.size_push _ _ _
  have hfinal : (M.tree.kind s.draft.size).isField = false := hadds.isField.trans hfield
  have himage : M.tree.image s.draft.size = t.draft.size := by
    rw [Tree.image_eq_rank hfinal, h.size]
  have hkind : ∀ id < s.draft.size, (s.draft.push kind span).kind id = s.draft.kind id :=
    (s.draft.grows_push kind span).kind_eq
  have hcases : ∀ id < (s.draft.push kind span).size, id < s.draft.size ∨ id = s.draft.size :=
    fun id hid => by omega
  refine ⟨h.position, h.owner, fun id hid name hk => ?_, h.virtualRight, h.problems, ?_,
    fun id hid hnot => ?_, fun id hid name isVirtual path hk => ?_, fun id hid haliased => ?_, fun id expression hk => ?_⟩
  · change (s.draft.push kind span).kind id = _ at hk
    rcases hcases id hid with hold | rfl
    · exact h.virtualLeft id hold name ((hkind id hold).symm.trans hk)
    · rw [Draft.kind_push] at hk
      exact hvirtual name hk
  · show (t.draft.push other place).size = M.tree.rank (s.draft.push kind span).size
    rw [hleft, hright, Tree.rank_succ hfinal, h.size]
  · show M.tree.Matches M.v ((s.draft.push kind span).kind id)
      ((t.draft.push other place).kind (M.tree.image id)) id
    change ((s.draft.push kind span).kind id).isField = false at hnot
    rcases hcases id hid with hold | rfl
    · rw [hkind id hold] at hnot ⊢
      have hlt : M.tree.image id < t.draft.size := by
        rw [h.size]
        exact Tree.image_lt_rank ((hs hold).trans hnot) hold
      rw [(t.draft.grows_push other place).kind_eq _ hlt]
      exact h.kind id hold hnot
    · rw [himage, Draft.kind_push, Draft.kind_push]
      exact .inl hother
  · change (s.draft.push kind span).kind id = _ at hk
    rcases hcases id hid with hold | rfl
    · obtain ⟨hnext, hpath⟩ := h.field id hold name isVirtual path ((hkind id hold).symm.trans hk)
      refine ⟨hnext, ?_⟩
      show ((s.draft.push kind span).kind path).isPath = true
      rw [hkind path (by omega)]
      exact hpath
    · rw [Draft.kind_push] at hk
      rw [hk] at hfield
      cases hfield
  · change ((s.draft.push kind span).kind id).isAliased = true at haliased
    show ∃ i < s.position, ((s.draft.push kind span).span id).start = M.left.startAt i
    rcases hcases id hid with hold | rfl
    · rw [hkind id hold] at haliased
      rw [Draft.span_push_of_lt _ _ _ hold]
      exact h.behind id hold haliased
    · rw [Draft.kind_push] at haliased
      rw [Draft.span_push]
      exact hbehind haliased
  · change (t.draft.push other place).kind id = _ at hk
    rcases Nat.lt_trichotomy id t.draft.size with hold | rfl | hnew
    · rw [(t.draft.grows_push other place).kind_eq _ hold] at hk
      exact h.noType id expression hk
    · rw [Draft.kind_push] at hk
      exact hadds.ne_type hother expression hk
    · rw [Draft.kind, TreeBuilder.kind_of_size_le (by
        show (t.draft.push other place).size ≤ id
        omega)] at hk
      cases hk

end Push

/-! ## Paths read as collection-valued -/

/-- The node stands where a collection is expected. -/
def Collected (M : Mirror) (id : NodeId) (s : State) : Prop :=
  M.tree.Collects id ∧ id < s.draft.size

theorem Adds.collected {kind : NodeKind} (hadds : M.Adds kind s) {id strength : Nat}
    (hslot : (id, Slot.collection strength) ∈ kind.slots) : M.Collected id s := by
  have hmem : (id, Slot.collection strength) ∈ (M.tree.kind s.draft.size).slots := by
    rcases hadds.2 with hk | hk <;> rw [hk]
    · exact hslot
    · rw [NodeKind.slots_asCollection]
      exact hslot
  exact ⟨⟨_, _, hmem⟩, M.wellFormed.child_lt (NodeKind.mem_children_of_mem_slots hmem)⟩

theorem Leads.asCollectionBack {id : Nat} (hs' : M.Leads (s.write (s.draft.asCollection id))) :
    M.Leads s := by
  have hstays := Draft.Stays.asCollection s.draft id
  have hsize : (s.draft.asCollection id).size = s.draft.size := Draft.size_asCollection _ _
  refine ⟨hs'.inside, hs'.problems, hsize ▸ hs'.size_le, fun other hother => ?_,
    fun other hother => ?_, fun other hother => hs'.ahead other (hsize ▸ hother)⟩
  · exact (hs'.span_eq other (hsize.symm ▸ hother)).trans (hstays.span_eq other hother)
  · have hnow := hs'.kind_eq other (hsize.symm ▸ hother)
    change M.tree.kind other = (s.draft.asCollection id).kind other ∨
      M.tree.kind other = ((s.draft.asCollection id).kind other).asCollection at hnow
    rcases hstays.kind_eq other hother with hk | hk <;> rw [hk] at hnow
    · exact hnow
    · rw [NodeKind.asCollection_asCollection, or_self] at hnow
      exact .inr hnow

/-- The path that is read anew in the other run: the node itself, or the path of a bare field. -/
theorem Rel.exists_target (h : M.Rel s t) (hs : M.Leads s) {id : Nat} (hid : id < s.draft.size) :
    ∃ target < s.draft.size, (M.tree.kind target).isField = false ∧
      M.tree.image id = M.tree.image target ∧
      (target = id ∨ (s.draft.kind id).isField = true ∧
        ∃ name isVirtual, M.tree.kind id = .identifier name isVirtual (some target)) := by
  rcases Bool.eq_false_or_eq_true (s.draft.kind id).isField with hfield | hfield
  swap
  · exact ⟨id, hid, (hs.isField hid).trans hfield, rfl, .inl rfl⟩
  · have hbare := hfield
    obtain ⟨name, isVirtual, path, hk⟩ : ∃ name isVirtual, ∃ path : Nat,
        s.draft.kind id = .identifier name isVirtual (some path) := by
      unfold NodeKind.isField at hfield
      split at hfield
      · next heq => exact ⟨_, _, _, heq⟩
      · cases hfield
    clear hfield
    obtain ⟨rfl, hpath⟩ := h.field id hid name isVirtual path hk
    have hlt : path < s.draft.size := Nat.lt_of_succ_lt hid
    refine ⟨path, hlt, ?_, Tree.image_succ ((hs.isField hid).trans hbare), .inr ⟨hbare, name,
      isVirtual, ?_⟩⟩
    · rw [hs.isField hlt]
      generalize s.draft.kind path = kind at hpath
      cases kind <;> first | rfl | cases hpath
    · rcases hs.kind_eq _ hid with hsame | hsame <;> rw [hsame, hk]
      rfl

/-- **A path is read as collection-valued in both runs**; of a bare field, in the other run alone. -/
theorem Rel.asCollection (h : M.Rel s t) {id : Nat} (hs : M.Leads s) (hid : M.Collected id s) :
    M.Rel (s.write (s.draft.asCollection id))
      (t.write (t.draft.asCollection (M.tree.image id))) := by
  obtain ⟨target, hlt, hnot, himage, htarget⟩ := h.exists_target hs hid.2
  have hstays := Draft.Stays.asCollection s.draft id
  have hsize : (s.draft.asCollection id).size = s.draft.size := Draft.size_asCollection _ _
  have hleft : ∀ other, (s.draft.asCollection id).kind other =
      if other = id then (s.draft.kind id).asCollection else s.draft.kind other :=
    Draft.kind_asCollection _ hid.2
  have hright : ∀ other, (t.draft.asCollection (M.tree.image id)).kind other =
      if other = M.tree.image id then (t.draft.kind (M.tree.image id)).asCollection
      else t.draft.kind other := by
    refine Draft.kind_asCollection _ ?_
    rw [h.size, himage]
    exact Tree.image_lt_rank hnot hlt
  have hsame : ∀ p : NodeKind → Bool, (∀ kind : NodeKind, p kind.asCollection = p kind) →
      ∀ other < s.draft.size, p ((s.draft.asCollection id).kind other) =
        p (s.draft.kind other) := fun p hp other hother => by
    rcases hstays.kind_eq other hother with hk | hk <;> rw [hk]
    exact hp _
  refine ⟨h.position, h.owner, fun other hother name hk => ?_, h.virtualRight, h.problems, ?_,
    fun other hother hfield => ?_, fun other hother name isVirtual path hk => ?_, fun other hother haliased => ?_,
    fun other expression hk => ?_⟩
  · replace hother : other < s.draft.size := hsize ▸ hother
    change (s.draft.asCollection id).kind other = _ at hk
    refine h.virtualLeft other hother name ?_
    rcases hstays.kind_eq other hother with he | he <;> rw [he] at hk
    · exact hk
    · exact NodeKind.eq_of_asCollection hk rfl
  · show (t.draft.asCollection _).size = M.tree.rank (s.draft.asCollection id).size
    rw [hsize, Draft.size_asCollection, h.size]
  · replace hother : other < s.draft.size := hsize ▸ hother
    show M.tree.Matches M.v ((s.draft.asCollection id).kind other)
      ((t.draft.asCollection _).kind (M.tree.image other)) other
    change ((s.draft.asCollection id).kind other).isField = false at hfield
    rw [hsame _ NodeKind.isField_asCollection other hother] at hfield
    have hmatches := h.kind other hother hfield
    rw [hright]
    split
    · next heq =>
      obtain rfl : other = target :=
        Tree.image_inj ((hs.isField hother).trans hfield) hnot (heq.trans himage)
      rw [← heq]
      rcases htarget with rfl | ⟨hbare, name, isVirtual, hk⟩
      · rw [hleft, if_pos rfl]
        exact .inl hmatches.asCollection
      · rw [hleft, if_neg fun he => by rw [he, hbare] at hfield; cases hfield]
        exact .inr ⟨hmatches.asCollection, id, name, isVirtual, hk, hid.1⟩
    · next hne =>
      have hother : other ≠ id := by
        rintro rfl
        exact hne rfl
      rw [hleft, if_neg hother]
      exact hmatches
  · replace hother : other < s.draft.size := hsize ▸ hother
    have hold : s.draft.kind other = .identifier name isVirtual (some path) := by
      change (s.draft.asCollection id).kind other = _ at hk
      rcases hstays.kind_eq other hother with he | he <;> rw [he] at hk
      · exact hk
      · exact NodeKind.eq_of_asCollection hk rfl
    obtain ⟨rfl, hpath⟩ := h.field other hother name isVirtual path hold
    refine ⟨rfl, ?_⟩
    show ((s.draft.asCollection id).kind path).isPath = true
    rw [hsame _ NodeKind.isPath_asCollection path (Nat.lt_of_succ_lt hother)]
    exact hpath
  · replace hother : other < s.draft.size := hsize ▸ hother
    change ((s.draft.asCollection id).kind other).isAliased = true at haliased
    rw [hsame _ NodeKind.isAliased_asCollection other hother] at haliased
    show ∃ i < s.position, ((s.draft.asCollection id).span other).start = _
    rw [Draft.span_asCollection]
    exact h.behind other hother haliased
  · change (t.draft.asCollection _).kind other = _ at hk
    rw [hright] at hk
    split at hk
    · exact h.noType _ expression (NodeKind.eq_of_asCollection hk rfl)
    · exact h.noType other expression hk

/-! ## Runs that cannot lead to the finished tree -/

/-- **No run of the reader leads to the finished tree.** -/
def Never {α : Type} (M : Mirror) (p : Parser α) : Prop :=
  ∀ s y s', p M.left s = .ok (y, s') → ¬M.Leads s'

theorem not_leads_record (problem : Problem) : ¬M.Leads (s.write (s.draft.record problem)) :=
  fun hs => by
    have hnone : s.problems ++ [problem] = [] := hs.problems
    simp at hnone

section

variable {α β γ δ : Type} {before : State → Prop} {after : α → State → Prop} {p : Parser α}
  {q : Parser β} {φ : α → β}

namespace Never

theorem bind_right {f : α → Parser γ} (hf : ∀ y, M.Never (f y)) : M.Never (p >>= f) := by
  intro s z s₂ hrun hs₂
  obtain ⟨y, s₁, -, hrest⟩ := bind_eq_ok hrun
  exact hf _ _ _ _ hrest hs₂

/-- Nor does what comes of the result. -/
theorem gives (h : M.Never p) (f : α → γ) : M.Never (do return f (← p)) := by
  intro s y s' hrun
  obtain ⟨z, s₁, hp, hrest⟩ := bind_eq_ok hrun
  obtain ⟨-, rfl⟩ := Prod.mk.inj (Except.ok.inj hrest)
  exact h s z _ hp

/-- A problem stays, whatever is looked at afterwards. -/
theorem record (problem : Problem) (y : α) : M.Never (Parse.record problem *> pure y) := by
  rintro s _ _ ⟨⟩
  exact not_leads_record problem

theorem recordHere (key : ProblemKey) (arguments : List String) (y : α) :
    M.Never (Parse.recordHere key arguments *> pure y) := by
  rintro s _ _ ⟨⟩
  exact not_leads_record _

theorem missingClause (clause : String) (y : α) :
    M.Never (do
      Parse.missingClause clause
      return y) := by
  rintro s _ _ ⟨⟩
  exact not_leads_record _

theorem missing (what : String) : M.Never (Parse.missing what) := by
  intro s y s' hrun hs'
  obtain ⟨-, rfl⟩ := After.missing what y s' hrun
  exact not_leads_record (s := s.write (s.draft.push .bad _)) _ hs'

theorem pushUnknown (span : Span) (text : String) (key : ProblemKey) (argument : String) :
    M.Never (Parse.pushUnknown span text key argument) := by
  intro s y s' hrun hs'
  obtain ⟨-, rfl⟩ := After.pushUnknown span text key argument y s' hrun
  exact not_leads_record (s := s.write (s.draft.push (.unknown text) span)) _ hs'

theorem unknownToken : M.Never Parse.unknownToken :=
  bind_right fun _ => bind_right fun _ => bind_right fun _ => pushUnknown _ _ _ _

theorem skipTooDeep : M.Never Parse.skipTooDeep :=
  bind_right fun _ => bind_right fun _ => bind_right fun _ => bind_right fun _ =>
    pushUnknown _ _ _ _

/-- **A node that cannot be in a statement without alias** is not added. -/
theorem push {kind : NodeKind} (hkind : kind.omitsAlias M.tree.kind = false) (span : Span) :
    M.Never (Parse.push kind span) := by
  intro s y s' hrun hs'
  obtain ⟨-, rfl⟩ := After.push kind span y s' hrun
  rw [hs'.adds.omits] at hkind
  cases hkind

theorem pushFrom {kind : NodeKind} (hkind : kind.omitsAlias M.tree.kind = false) (start : Nat) :
    M.Never (Parse.pushFrom kind start) := bind_right fun _ => push hkind _

theorem withoutVirtual (h : M.Never p) : M.Never (Parse.withoutVirtual p) := by
  intro s y s' hrun hs'
  change (p >>= fun y => modify _ *> Pure.pure y) M.left { s with virtualVariable := none } = _ at hrun
  obtain ⟨y, s₁, hp, hrest⟩ := bind_eq_ok hrun
  obtain ⟨rfl, rfl⟩ := Prod.mk.inj (Except.ok.inj hrest)
  exact h _ _ _ hp { hs' with }

theorem followsAt (h : M.Never p) : M.FollowsAt s t before p q after φ :=
  .of_never fun y s' hrun hs' => absurd hs' (h s y s' hrun)

end Never

/-! ## Rules for the basic steps -/

/-- What happens at a token that is no name happens in both runs, as far as kinds go. -/
theorem Rel.isKind (h : M.Rel s t) (hs : M.Leads s) {f : TokenKind → α}
    (hf : ∀ kind : TokenKind, kind.isNaming = true → f kind = f (.identifier M.v)) :
    f (t.stream M.right).kind = f (s.stream M.left).kind := by
  rcases h.kind_stream hs with hkind | ⟨hnames, hkind⟩
  · rw [hkind]
  · rw [hkind]
    exact (hf _ hnames.isNaming).symm

theorem Rel.checkKeyword (h : M.Rel s t) (hs : M.Leads s) {word : Keyword}
    (hword : word.isReserved = true) :
    (t.stream M.right).checkKeyword word = (s.stream M.left).checkKeyword word := by
  refine h.isKind hs (f := fun kind => kind.isKeyword word) fun kind hkind => ?_
  cases kind with
  | keyword other =>
    have hne : other ≠ word := by
      rintro rfl
      rw [TokenKind.isNaming, hword] at hkind
      cases hkind
    simp [TokenKind.isKeyword, TokenKind.keyword?, hne]
  | identifier => rfl
  | _ => cases hkind

namespace FollowsAt

theorem advance : M.FollowsAt s t M.Passed Parse.advance Parse.advance (fun _ _ => True) id := by
  rintro _ s' ⟨⟩ hs' -
  have hle := le_advance (s.stream M.left)
  exact ⟨hs'.back rfl hle, hs', hle, fun hrel => ⟨_, rfl, (hrel.advance hs').1⟩⟩

/-- A token that is no name is moved over in both runs, or in neither. -/
theorem consume {kind : TokenKind} (hkind : kind ≠ .identifier M.v) :
    M.FollowsAt s t (fun _ => True) (Parse.consume kind) (Parse.consume kind) (fun _ _ => True)
      id := by
  intro found s' hrun hs' _
  cases hcheck : (s.stream M.left).check kind with
  | true =>
    rw [consume_of_check hcheck] at hrun
    obtain ⟨rfl, rfl⟩ := Prod.mk.inj (Except.ok.inj hrun)
    have hle := le_advance (s.stream M.left)
    refine ⟨hs'.back rfl hle, trivial, hle, fun hrel => ?_⟩
    obtain ⟨hnext, hsame, -⟩ := hrel.advance hs'
    refine ⟨_, consume_of_check ?_, hnext⟩
    rw [TokenStream.check, hsame]
    exact hcheck
  | false =>
    rw [consume_of_not_check hcheck] at hrun
    obtain ⟨rfl, rfl⟩ := Prod.mk.inj (Except.ok.inj hrun)
    refine ⟨hs', trivial, Nat.le_refl _, fun hrel => ⟨t, consume_of_not_check ?_, hrel⟩⟩
    rcases hrel.kind_stream hs' with hsame | ⟨-, hsame⟩
    · rw [TokenStream.check, hsame]
      exact hcheck
    · rw [TokenStream.check, hsame]
      simpa using hkind.symm

theorem consumeKeyword (word : Keyword) :
    M.FollowsAt s t (fun _ => True) (Parse.consumeKeyword word) (Parse.consumeKeyword word)
      (fun _ _ => True) id :=
  consume (by simp)

/-- A token that is expected is there, or the run is of no interest. What depends on the nodes alone is
the same before and after. -/
theorem expect_keeps (kind : TokenKind) {P : State → Prop}
    (hP : ∀ s s' : State, s'.draft = s.draft → P s' → P s) :
    M.FollowsAt s t P (Parse.expect kind) (Parse.expect kind) (fun _ => P) id := by
  intro found s' hrun hs' hafter
  cases hcheck : (s.stream M.left).check kind with
  | true =>
    rw [expect_of_check hcheck] at hrun
    obtain ⟨rfl, rfl⟩ := Prod.mk.inj (Except.ok.inj hrun)
    have hle := le_advance (s.stream M.left)
    have hbefore := hP s { s with position := (s.stream M.left).advance.position } rfl hafter
    refine ⟨hs'.back rfl hle, hbefore, hle, fun hrel => ?_⟩
    obtain ⟨hnext, hsame, -⟩ := hrel.advance hs'
    refine ⟨_, expect_of_check ?_, hnext⟩
    rw [TokenStream.check, hsame]
    exact hcheck
  | false =>
    obtain ⟨problem, heq⟩ := expect_of_not_check hcheck
    rw [heq] at hrun
    obtain ⟨rfl, rfl⟩ := Prod.mk.inj (Except.ok.inj hrun)
    exact absurd hs' (not_leads_record problem)

theorem expect (kind : TokenKind) :
    M.FollowsAt s t (fun _ => True) (Parse.expect kind) (Parse.expect kind) (fun _ _ => True) id :=
  expect_keeps kind fun _ _ _ h => h

/-- **A node is added**, and its mirror image. -/
theorem push {kind other : NodeKind} (span place : Span) (hother : M.renamed kind = other)
    (haliased : kind.isAliased = false) (hvariable : kind.isVariable = false) :
    M.FollowsAt s t (M.Adds kind) (Parse.push kind span) (Parse.push other place)
      (fun _ _ => True) M.tree.image := by
  have hfield : kind.isField = false := by
    cases kind <;> first | rfl | cases hvariable
  intro y s' hrun hs' _
  obtain ⟨rfl, rfl⟩ := After.push kind span y s' hrun
  have hs : M.Leads s := hs'.pushBack rfl (Nat.le_refl _) fun h => by
    rw [haliased] at h
    cases h
  have hadds := hs'.adds
  refine ⟨hs, hadds, Nat.le_refl _, fun hrel => ⟨t.write (t.draft.push other place), ?_,
    hrel.push other span place hs.isField hadds (hother ▸ .refl _) hfield (fun _ h => by rw [h] at hvariable; cases hvariable)
      fun h => by rw [haliased] at h; cases h⟩⟩
  have himage : M.tree.image s.draft.size = t.draft.size := by
    rw [Tree.image_eq_rank (hadds.isField.trans hfield), hrel.size]
  rw [himage]
  rfl

theorem pushFrom {kind other : NodeKind} (m n : Nat) (hother : M.renamed kind = other)
    (haliased : kind.isAliased = false) (hvariable : kind.isVariable = false) :
    M.FollowsAt s t (M.Adds kind) (Parse.pushFrom kind m) (Parse.pushFrom other n)
      (fun _ _ => True) M.tree.image :=
  .place fun _ _ => .push _ _ hother haliased hvariable

/-- **A path is read as collection-valued** where a collection is expected. -/
theorem asCollection (id : NodeId) :
    M.FollowsAt s t (fun _ => True) (Parse.asCollection id)
      (Parse.asCollection (M.tree.image id)) (fun _ => M.Collected id) fun _ => () := by
  rintro _ _ ⟨⟩ hs' ⟨hcollects, hlt⟩
  have hs : M.Leads s := Leads.asCollectionBack hs'
  refine ⟨hs, trivial, Nat.le_refl _, fun hrel => ⟨_, rfl, hrel.asCollection hs ⟨hcollects, ?_⟩⟩⟩
  exact (Draft.size_asCollection _ _) ▸ hlt

end FollowsAt

/-! ## Repetition -/

section Loop

variable {next : α → Parser (Option α)} {next' : β → Parser (Option β)}

/-- Each repetition is followed. -/
def Repeats (M : Mirror) (next : α → Parser (Option α))
    (next' : β → Parser (Option β)) (φ : α → β) : Prop :=
  ∀ y s t, M.FollowsAt s t (fun _ => True) (next y) (next' (φ y)) (fun _ _ => True) (Option.map φ)

/-- A step that goes on moves over a token. -/
def Moves (M : Mirror) (next : α → Parser (Option α)) : Prop :=
  ∀ y z s s', next y M.left s = .ok (some z, s') → M.Leads s' → s.position < s'.position

theorem Repeats.back (h : M.Repeats next next' φ) {n : Nat} {y z : α}
    (hrun : Parse.loopTo next n y M.left s = .ok (z, s')) (hs' : M.Leads s') :
    M.Leads s ∧ s.position ≤ s'.position := by
  induction n generalizing y s with
  | zero =>
    obtain ⟨rfl, rfl⟩ := Prod.mk.inj (Except.ok.inj hrun)
    exact ⟨hs', Nat.le_refl _⟩
  | succ n ih =>
    obtain ⟨found, s₁, hnext, ⟨rfl, rfl, rfl⟩ | ⟨w, rfl, hrest⟩⟩ := loopTo_succ hrun
    · obtain ⟨hs, -, hle, -⟩ := h _ s s _ _ hnext hs' trivial
      exact ⟨hs, hle⟩
    · obtain ⟨hs₁, hle₁⟩ := ih hrest
      obtain ⟨hs, -, hle, -⟩ := h _ s s _ _ hnext hs₁ trivial
      exact ⟨hs, Nat.le_trans hle hle₁⟩

/-- **Enough repetitions are followed by as many.** Each moves over a token, so the loop of the first
run ends before the number of tokens is used up. -/
theorem Repeats.loopTo (h : M.Repeats next next' φ) (hmoves : M.Moves next) {n m : Nat}
    (hle : n ≤ m) {y z : α} (henough : M.left.tokens.size ≤ s.position + n)
    (hrun : Parse.loopTo next n y M.left s = .ok (z, s')) (hs' : M.Leads s')
    (hrel : M.Rel s t) :
    ∃ t', Parse.loopTo next' m (φ y) M.right t = .ok (φ z, t') ∧ M.Rel s' t' := by
  induction n generalizing y s t m with
  | zero =>
    have hinside := (h.back hrun hs').1.inside
    omega
  | succ n ih =>
    obtain ⟨m, rfl⟩ : ∃ k, m = k + 1 := ⟨m - 1, by omega⟩
    obtain ⟨found, s₁, hnext, ⟨rfl, rfl, rfl⟩ | ⟨w, rfl, hrest⟩⟩ := loopTo_succ hrun
    · obtain ⟨-, -, -, hmirror⟩ := h _ s t _ _ hnext hs' trivial
      obtain ⟨t', hother, hrel'⟩ := hmirror hrel
      exact ⟨t', (bind_of_eq_ok hother).trans rfl, hrel'⟩
    · have hs₁ := (h.back hrest hs').1
      obtain ⟨-, -, -, hmirror⟩ := h _ s t _ _ hnext hs₁ trivial
      obtain ⟨t₁, hother, hrel₁⟩ := hmirror hrel
      have hmoved := hmoves _ _ _ _ hnext hs₁
      obtain ⟨t', hloop, hrel'⟩ := ih (m := m) (by omega) (by omega) hrest hrel₁
      exact ⟨t', (bind_of_eq_ok hother).trans hloop, hrel'⟩

/-- **What is repeated in the one run is repeated in the other.** -/
theorem FollowsAt.loop (h : M.Repeats next next' φ) (hmoves : M.Moves next) (y : α) :
    M.FollowsAt s t (fun _ => True) (Parse.loop next y) (Parse.loop next' (φ y))
      (fun _ _ => True) φ := by
  intro z s' hrun hs' _
  change Parse.loopTo next M.left.tokens.size y M.left s = _ at hrun
  obtain ⟨hs, hle⟩ := h.back hrun hs'
  have hsize : M.left.tokens.size ≤ M.right.tokens.size := by
    rw [M.aliased.size_eq]
    exact Env.Aliased.le_place (Nat.le_refl _)
  exact ⟨hs, trivial, hle, fun hrel =>
    h.loopTo hmoves hsize (Nat.le_add_left _ _) hrun hs' hrel⟩

end Loop

end

end Jpql.Mirror
