import Jpql.Check.NameRule
import Jpql.Proofs.Reader.Written
import Jpql.Proofs.Scope.Names
import Jpql.Proofs.Tree.Clean
import Mathlib.Data.List.Nodup
import Mathlib.Data.List.TakeWhile

/-! # Uses to the left of a declaration

A `FROM` clause declares its variables from left to right. A path in it that starts at a variable is
looked up if it is joined to an entity, or if a derived or collection declaration is over it; its
variable stands to the left of a declaration if a join or an entry to the right of the path declares
it. Whether the variable is declared to the left as well is not asked, and what is joined to a derived
declaration is not looked up.

* `Tree.LooksUp`: the paths that are looked up, with the joins and entries to the right of each.
* `Tree.IsClean.mem_misplaced`: the variables that are found to the left of a declaration.
* `Tree.IsClean.nodup_misplaced`: none of them is found twice. -/

namespace Jpql

namespace Tree

variable {tree : Tree}

/-- **A path in an entry is looked up**; the joins are those of the entry to the right of it. -/
inductive LooksUpIn (tree : Tree) (entry : Nat) : (path : Nat) → (joins : List Nat) → Prop
  | joined {range root join path : Nat} {joins after : List Nat} {entity : String}
      {hasAs fetch joinAs : Bool} {declared bound on : Option Nat} {type : JoinType}
      (hentry : tree.kind entry = .variableDeclaration range joins)
      (hrange : tree.kind range = .rangeDeclaration root hasAs declared)
      (hroot : tree.kind root = .schemaName entity) (hright : join :: after <:+ joins)
      (hjoin : tree.kind join = .join type fetch path joinAs bound on) : LooksUpIn tree entry path after
  | derived {range path root : Nat} {joins : List Nat} {hasAs dot : Bool} {declared : Option Nat}
      {kind : PathKind} {segments : List (Located String)}
      (hentry : tree.kind entry = .variableDeclaration range joins)
      (hrange : tree.kind range = .rangeDeclaration path hasAs declared)
      (hpath : tree.kind path = .path kind root segments dot) : LooksUpIn tree entry path joins
  | collection {path : Nat} {hasAs : Bool} {declared : Option Nat}
      (hentry : tree.kind entry = .collectionDeclaration path hasAs declared) :
      LooksUpIn tree entry path []

/-- **A path in a clause is looked up**; the joins and entries are those to the right of it. -/
def LooksUp (tree : Tree) (entries : List Nat) (path : Nat) (right : List Nat) : Prop :=
  ∃ entry after joins, entry :: after <:+ entries ∧ tree.LooksUpIn entry path joins ∧
    right = joins ++ after

/-- An entry or a join declares a variable. -/
def declares (tree : Tree) (node : Nat) (name : String) : Bool :=
  match tree.joinDeclaration? node with
  | some join => join.declares name
  | none => (tree.declaration node).declares name

/-! ## Where a path starts -/

/-- A path starts at a variable that is written in it. -/
theorem exists_of_rootVariable? (hwf : tree.WellFormed) {id : Nat} {root : Located String}
    (h : tree.rootVariable? id = some root) : ∃ node behind, tree.Holds id node ∧
      tree.kind node = .identifier root.value false behind ∧ tree.span node = root.span := by
  have hdown : ∀ depth id, tree.rootVariableTo? depth id = some root →
      ∃ node behind, tree.Holds id node ∧
        tree.kind node = .identifier root.value false behind ∧
        tree.span node = root.span := by
    intro depth
    induction depth with
    | zero => exact fun id h => nomatch h
    | succ depth ih =>
      intro id h
      have hchild : ∀ child, child ∈ tree.children id →
          tree.rootVariableTo? depth child = some root → ∃ node behind, tree.Holds id node ∧
            tree.kind node = .identifier root.value false behind ∧
            tree.span node = root.span := by
        intro child hc hstart
        obtain ⟨node, behind, hheld, hrest⟩ := ih child hstart
        exact ⟨node, behind, hheld.of_child hwf hc, hrest⟩
      unfold rootVariableTo? at h
      split at h
      · next hk =>
        obtain rfl := Option.some.inj h
        exact ⟨id, _, .refl, hk, rfl⟩
      all_goals first
        | cases h
        | next hk => exact hchild _ (by rw [children, hk]; exact List.mem_cons_self) h
  exact hdown _ _ h

/-! ## What is declared to the right -/

theorem declares_of_join {node : Nat} {join : JoinDeclaration}
    (h : tree.joinDeclaration? node = some join)
    (name : String) : tree.declares node name = join.declares name := by
  rw [declares, h]

theorem any_joins {joins : List Nat} (h : ∀ join ∈ joins, (tree.joinDeclaration? join).isSome = true)
    (name : String) : (joins.filterMap tree.joinDeclaration?).any (·.declares name) =
      joins.any (tree.declares · name) := by
  induction joins with
  | nil => rfl
  | cons join joins ih =>
    obtain ⟨declaration, hd⟩ := Option.isSome_iff_exists.mp (h join List.mem_cons_self)
    rw [List.filterMap_cons_some hd, List.any_cons, List.any_cons, declares_of_join hd,
      ih fun other ho => h other (List.mem_cons_of_mem _ ho)]

/-- All entries are looked through if they could be read. -/
theorem isDeclaredIn_eq {entries : List Nat} (h : ∀ entry ∈ entries,
    (tree.declaration entry).isKnown = true ∧ tree.joinDeclaration? entry = none) (name : String) :
    Declaration.isDeclaredIn name (entries.map tree.declaration) =
      entries.any (tree.declares · name) := by
  have hall : (entries.map tree.declaration).takeWhile Declaration.isKnown =
      entries.map tree.declaration := by
    rw [List.takeWhile_eq_self_iff]
    intro declaration hmem
    obtain ⟨entry, hentry, rfl⟩ := List.mem_map.mp hmem
    exact (h entry hentry).1
  rw [Declaration.isDeclaredIn, hall, List.any_map]
  rw [Bool.eq_iff_iff, List.any_eq_true, List.any_eq_true]
  refine exists_congr fun entry => and_congr_right fun hentry => ?_
  rw [Function.comp_apply, declares, (h entry hentry).2]

/-! ## Variables to the left of a declaration -/

/-- The variables of joins that are found, in an entry with others behind it. -/
theorem mem_misplacedJoins {joins : List Nat} {later : List Declaration} {root : Located String}
    (h : ∀ join ∈ joins, (tree.joinDeclaration? join).isSome = true) :
    root ∈ Declaration.misplacedJoins tree later (joins.filterMap tree.joinDeclaration?) ↔
      ∃ join after declaration, join :: after <:+ joins ∧
        tree.joinDeclaration? join = some declaration ∧
        tree.rootVariable? declaration.path = some root ∧
        (after.any (tree.declares · root.value) || Declaration.isDeclaredIn root.value later) = true := by
  induction joins with
  | nil => simp [Declaration.misplacedJoins]
  | cons join joins ih =>
    obtain ⟨declaration, hd⟩ := Option.isSome_iff_exists.mp (h join List.mem_cons_self)
    have hrest : ∀ join ∈ joins, (tree.joinDeclaration? join).isSome = true := fun other ho =>
      h other (List.mem_cons_of_mem _ ho)
    rw [List.filterMap_cons_some hd, Declaration.misplacedJoins, List.mem_append, ih hrest,
      Option.mem_toList, Option.filter_eq_some_iff, any_joins hrest]
    constructor
    · rintro (⟨hroot, hright⟩ | ⟨other, after, found, hsuffix, hrest⟩)
      · exact ⟨join, joins, declaration, List.suffix_rfl, hd, hroot, hright⟩
      · exact ⟨other, after, found, hsuffix.trans (List.suffix_cons _ _), hrest⟩
    · rintro ⟨other, after, found, hsuffix, hfound, hroot, hright⟩
      rcases List.suffix_cons_iff.mp hsuffix with heq | hsuffix
      · obtain ⟨rfl, rfl⟩ := List.cons.inj heq
        obtain rfl := Option.some.inj (hd.symm.trans hfound)
        exact .inl ⟨hroot, hright⟩
      · exact .inr ⟨other, after, found, hsuffix, hfound, hroot, hright⟩

end Tree

namespace Declaration

/-- The variables that a declaration uses to the left of their declaration. -/
def misplacedAt (tree : Tree) (later : List Declaration) (declaration : Declaration) :
    List (Located String) :=
  if declaration.isRange then misplacedJoins tree later declaration.joins
  else
    ((tree.rootVariable? declaration.base).filter fun root =>
      declaration.joins.any (·.declares root.value) || isDeclaredIn root.value later).toList

theorem misplaced_cons (tree : Tree) (declaration : Declaration) (later : List Declaration) :
    misplaced tree (declaration :: later) =
      misplacedAt tree later declaration ++ misplaced tree later := rfl

end Declaration

namespace Tree.IsClean

variable {tree : Tree} {statement : Nat} (h : tree.IsClean statement)

include h

/-! ## Entries -/

/-- **What an entry is**: a range with joins, over an entity or a path, or a collection. -/
theorem entry_cases {entry : Nat} (hentry : Slot.entry.admits (tree.kind entry) = true) :
    (∃ range joins root hasAs declared, tree.kind entry = .variableDeclaration range joins ∧
      tree.kind range = .rangeDeclaration root hasAs declared ∧
      ((∃ entity, tree.kind root = .schemaName entity) ∨
        ∃ kind start segments dot, tree.kind root = .path kind start segments dot) ∧
      ∀ join ∈ joins, (tree.joinDeclaration? join).isSome = true) ∨
    ∃ path hasAs declared, tree.kind entry = .collectionDeclaration path hasAs declared := by
  cases hk : tree.kind entry <;> rw [hk] at hentry <;> first
    | exact absurd hentry Bool.false_ne_true
    | skip
  case collectionDeclaration path hasAs declared => exact .inr ⟨path, hasAs, declared, rfl⟩
  case variableDeclaration range joins =>
    have hslots : ∀ child slot, (child, slot) ∈ (tree.kind entry).slots →
        slot.admits (tree.kind child) = true := fun _ _ => h.admits
    rw [hk] at hslots
    have hrange := hslots range .range List.mem_cons_self
    cases hkr : tree.kind range <;> rw [hkr] at hrange <;> first
      | exact absurd hrange Bool.false_ne_true
      | skip
    case rangeDeclaration root hasAs declared =>
      have hc : root ∈ tree.children range := by
        rw [children, hkr]
        exact List.mem_cons_self
      have hslot : (root, Slot.rangeRoot) ∈ (tree.kind range).slots := by
        rw [hkr]
        exact List.mem_cons_self
      have hroot := h.admits hslot
      have hbad := h.ne_bad (h.lt_of_child hc)
      refine .inl ⟨range, joins, root, hasAs, declared, rfl, hkr, ?_, fun join hj => ?_⟩
      · cases hko : tree.kind root <;> rw [hko] at hroot hbad <;> first
          | exact absurd hroot Bool.false_ne_true
          | exact absurd rfl hbad
          | exact .inl ⟨_, rfl⟩
          | exact .inr ⟨_, _, _, _, rfl⟩
      · have hjoin := hslots join .join (List.mem_cons_of_mem _ (List.mem_map_of_mem hj))
        rw [joinDeclaration?]
        cases hkj : tree.kind join <;> rw [hkj] at hjoin <;> first
          | exact absurd hjoin Bool.false_ne_true
          | rfl

/-- Every entry is read as a declaration, and is no join. -/
theorem isKnown_entry {entry : Nat} (hentry : Slot.entry.admits (tree.kind entry) = true) :
    (tree.declaration entry).isKnown = true ∧ tree.joinDeclaration? entry = none := by
  rcases h.entry_cases hentry with ⟨range, joins, root, hasAs, declared, hk, hrange, hroot, -⟩ |
    ⟨path, hasAs, declared, hk⟩
  · refine ⟨?_, by rw [joinDeclaration?, hk]⟩
    simp only [declaration, hk, rangeDeclaration, hrange]
    rcases hroot with ⟨entity, hroot⟩ | ⟨kind, start, segments, dot, hroot⟩ <;> rw [hroot] <;> rfl
  · refine ⟨?_, by rw [joinDeclaration?, hk]⟩
    rw [declaration, hk]
    rfl

/-- **What an entry uses to the left of a declaration.** -/
theorem mem_misplacedAt {entry : Nat} {later : List Nat} {root : Located String}
    (hentry : Slot.entry.admits (tree.kind entry) = true)
    (hlater : ∀ other ∈ later, Slot.entry.admits (tree.kind other) = true) :
    root ∈ Declaration.misplacedAt tree (later.map tree.declaration) (tree.declaration entry) ↔
      ∃ path joins, tree.LooksUpIn entry path joins ∧ tree.rootVariable? path = some root ∧
        (joins ++ later).any (tree.declares · root.value) = true := by
  have hdeclared : ∀ name, Declaration.isDeclaredIn name (later.map tree.declaration) =
      later.any (tree.declares · name) :=
    isDeclaredIn_eq fun other ho => h.isKnown_entry (hlater other ho)
  rcases h.entry_cases hentry with ⟨range, joins, start, hasAs, declared, hk, hrange, hroot, hjoins⟩ |
    ⟨path, hasAs, declared, hk⟩
  · rcases hroot with ⟨entity, hroot⟩ | ⟨kind, first, segments, dot, hroot⟩
    · have hdeclaration : tree.declaration entry = ⟨.range, entry, start, some entity,
          tree.variableName? declared, declared, joins.filterMap tree.joinDeclaration?⟩ := by
        simp only [declaration, hk, rangeDeclaration, hrange, hroot]
      rw [hdeclaration]
      show root ∈ Declaration.misplacedJoins tree _ (joins.filterMap tree.joinDeclaration?) ↔ _
      rw [mem_misplacedJoins hjoins]
      constructor
      · rintro ⟨join, after, found, hsuffix, hfound, hvariable, hright⟩
        rw [hdeclared, ← List.any_append] at hright
        unfold joinDeclaration? at hfound
        split at hfound
        · next hkj =>
          obtain rfl := Option.some.inj hfound
          exact ⟨_, after, .joined hk hrange hroot hsuffix hkj, hvariable, hright⟩
        · cases hfound
      · rintro ⟨path, after, hlooks, hvariable, hright⟩
        cases hlooks with
        | joined hentry' _ _ hsuffix hjoin =>
          obtain ⟨-, rfl⟩ := NodeKind.variableDeclaration.inj (hk.symm.trans hentry')
          refine ⟨_, after, _, hsuffix, by rw [joinDeclaration?, hjoin], hvariable, ?_⟩
          rw [hdeclared, ← List.any_append]
          exact hright
        | derived hentry' hrange' hpath =>
          obtain ⟨rfl, -⟩ := NodeKind.variableDeclaration.inj (hk.symm.trans hentry')
          obtain ⟨rfl, -⟩ := NodeKind.rangeDeclaration.inj (hrange.symm.trans hrange')
          rw [hroot] at hpath
          cases hpath
        | collection hentry' =>
          rw [hk] at hentry'
          cases hentry'
    · have hdeclaration : tree.declaration entry = ⟨.derived, entry, start, none,
          tree.variableName? declared, declared, joins.filterMap tree.joinDeclaration?⟩ := by
        simp only [declaration, hk, rangeDeclaration, hrange, hroot]
      rw [hdeclaration]
      show root ∈ ((tree.rootVariable? start).filter _).toList ↔ _
      rw [Option.mem_toList, Option.filter_eq_some_iff, hdeclared, any_joins hjoins,
        ← List.any_append]
      constructor
      · exact fun ⟨hvariable, hright⟩ => ⟨start, joins, .derived hk hrange hroot, hvariable, hright⟩
      · rintro ⟨path, after, hlooks, hvariable, hright⟩
        cases hlooks with
        | joined hentry' hrange' hroot' _ _ =>
          obtain ⟨rfl, -⟩ := NodeKind.variableDeclaration.inj (hk.symm.trans hentry')
          obtain ⟨rfl, -⟩ := NodeKind.rangeDeclaration.inj (hrange.symm.trans hrange')
          rw [hroot] at hroot'
          cases hroot'
        | derived hentry' hrange' _ =>
          obtain ⟨rfl, rfl⟩ := NodeKind.variableDeclaration.inj (hk.symm.trans hentry')
          obtain ⟨rfl, -⟩ := NodeKind.rangeDeclaration.inj (hrange.symm.trans hrange')
          exact ⟨hvariable, hright⟩
        | collection hentry' =>
          rw [hk] at hentry'
          cases hentry'
  · have hdeclaration : tree.declaration entry =
        ⟨.collection, entry, path, none, tree.variableName? declared, declared, []⟩ := by
      rw [declaration, hk]
    rw [hdeclaration]
    show root ∈ ((tree.rootVariable? path).filter _).toList ↔ _
    rw [Option.mem_toList, Option.filter_eq_some_iff, hdeclared]
    constructor
    · exact fun ⟨hvariable, hright⟩ => ⟨path, [], .collection hk, hvariable, hright⟩
    · rintro ⟨other, after, hlooks, hvariable, hright⟩
      cases hlooks with
      | joined hentry' | derived hentry' =>
        rw [hk] at hentry'
        cases hentry'
      | collection hentry' =>
        obtain ⟨rfl, -⟩ := NodeKind.collectionDeclaration.inj (hk.symm.trans hentry')
        exact ⟨hvariable, hright⟩

/-- **The variables that are found**: those of paths that are looked up, declared to the right. -/
theorem mem_misplaced {entries : List Nat} {root : Located String}
    (hentries : ∀ entry ∈ entries, Slot.entry.admits (tree.kind entry) = true) :
    root ∈ Declaration.misplaced tree (entries.map tree.declaration) ↔
      ∃ path right, tree.LooksUp entries path right ∧ tree.rootVariable? path = some root ∧
        right.any (tree.declares · root.value) = true := by
  induction entries with
  | nil => simp [Declaration.misplaced, LooksUp]
  | cons entry entries ih =>
    have hlater : ∀ other ∈ entries, Slot.entry.admits (tree.kind other) = true := fun other ho =>
      hentries other (List.mem_cons_of_mem _ ho)
    rw [List.map_cons, Declaration.misplaced_cons, List.mem_append, ih hlater,
      h.mem_misplacedAt (hentries entry List.mem_cons_self) hlater]
    constructor
    · rintro (⟨path, joins, hlooks, hrest⟩ | ⟨path, right, ⟨other, after, joins, hsuffix, hlooks⟩, hrest⟩)
      · exact ⟨path, _, ⟨entry, entries, joins, List.suffix_rfl, hlooks, rfl⟩, hrest⟩
      · exact ⟨path, right, ⟨other, after, joins, hsuffix.trans (List.suffix_cons _ _), hlooks⟩, hrest⟩
    · rintro ⟨path, right, ⟨other, after, joins, hsuffix, hlooks, rfl⟩, hrest⟩
      rcases List.suffix_cons_iff.mp hsuffix with heq | hsuffix
      · obtain ⟨rfl, rfl⟩ := List.cons.inj heq
        exact .inl ⟨path, joins, hlooks, hrest⟩
      · exact .inr ⟨path, _, ⟨other, after, joins, hsuffix, hlooks, rfl⟩, hrest⟩

end Tree.IsClean

/-! ## No path twice -/

/-- What is to the right of an item of a list without repetitions. -/
theorem eq_of_suffix {items after other : List Nat} {item : Nat} (hnodup : items.Nodup)
    (hafter : item :: after <:+ items) (hother : item :: other <:+ items) : after = other := by
  have hproper : ∀ shorter longer : List Nat, item :: longer <:+ items →
      item :: shorter <:+ item :: longer → shorter = longer := by
    intro shorter longer hlonger hsuffix
    rcases List.suffix_cons_iff.mp hsuffix with heq | hsuffix
    · exact (List.cons.inj heq).2
    · have hmem : item ∈ longer := hsuffix.subset List.mem_cons_self
      exact absurd hmem (List.nodup_cons.mp (hlonger.sublist.nodup hnodup)).1
  rcases List.suffix_or_suffix_of_suffix hafter hother with hsuffix | hsuffix
  · exact hproper after other hother hsuffix
  · exact (hproper other after hafter hsuffix).symm

namespace Tree

variable {tree : Tree} {entry path other node : Nat} {joins after right left : List Nat}

/-- An entry holds the paths in it. -/
theorem LooksUpIn.holds (hwf : tree.WellFormed) (h : tree.LooksUpIn entry path joins) :
    tree.Holds entry path := by
  have hchild : ∀ {id child : Nat} {kind : NodeKind}, tree.kind id = kind → child ∈ kind.children →
      tree.Holds id child := fun hk hc => Holds.refl.of_child hwf (by rw [children, hk]; exact hc)
  cases h with
  | joined hentry _ _ hright hjoin =>
    exact (hchild hentry (List.mem_cons_of_mem _ (hright.subset List.mem_cons_self))).trans
      (hchild hjoin List.mem_cons_self)
  | derived hentry hrange =>
    exact (hchild hentry List.mem_cons_self).trans (hchild hrange List.mem_cons_self)
  | collection hentry => exact hchild hentry List.mem_cons_self

/-- **No part of an entry belongs to two paths that are looked up.** -/
theorem LooksUpIn.unique (hwf : tree.WellFormed) (h : tree.LooksUpIn entry path joins)
    (k : tree.LooksUpIn entry other after) (hpath : tree.Holds path node)
    (hother : tree.Holds other node) : path = other ∧ joins = after := by
  cases h with
  | joined hentry hrange hroot hright hjoin =>
    cases k with
    | joined hentry' _ _ hright' hjoin' =>
      obtain ⟨-, rfl⟩ := NodeKind.variableDeclaration.inj (hentry.symm.trans hentry')
      have hchildren := hwf.children_nodup entry
      rw [children, hentry] at hchildren
      have hmem : ∀ {join rest}, join :: rest <:+ _ → join ∈ tree.children entry :=
        fun hsuffix => by
          rw [children, hentry]
          exact List.mem_cons_of_mem _ (hsuffix.subset List.mem_cons_self)
      have hheld : ∀ {join path type fetch joinAs bound on},
          tree.kind join = .join type fetch path joinAs bound on → tree.Holds path node →
          tree.Holds join node := fun hjoin hnode => hnode.of_child hwf (by
        rw [children, hjoin]
        exact List.mem_cons_self)
      obtain rfl := Holds.unique hwf (hmem hright) (hmem hright') (hheld hjoin hpath)
        (hheld hjoin' hother)
      obtain ⟨-, -, rfl, -⟩ := NodeKind.join.inj (hjoin.symm.trans hjoin')
      exact ⟨rfl, eq_of_suffix (List.nodup_cons.mp hchildren).2 hright hright'⟩
    | derived hentry' hrange' hpath' =>
      obtain ⟨rfl, -⟩ := NodeKind.variableDeclaration.inj (hentry.symm.trans hentry')
      obtain ⟨rfl, -⟩ := NodeKind.rangeDeclaration.inj (hrange.symm.trans hrange')
      rw [hroot] at hpath'
      cases hpath'
    | collection hentry' =>
      rw [hentry] at hentry'
      cases hentry'
  | derived hentry hrange hpath =>
    cases k with
    | joined hentry' hrange' hroot' =>
      obtain ⟨rfl, -⟩ := NodeKind.variableDeclaration.inj (hentry.symm.trans hentry')
      obtain ⟨rfl, -⟩ := NodeKind.rangeDeclaration.inj (hrange.symm.trans hrange')
      rw [hpath] at hroot'
      cases hroot'
    | derived hentry' hrange' =>
      obtain ⟨rfl, rfl⟩ := NodeKind.variableDeclaration.inj (hentry.symm.trans hentry')
      obtain ⟨rfl, -⟩ := NodeKind.rangeDeclaration.inj (hrange.symm.trans hrange')
      exact ⟨rfl, rfl⟩
    | collection hentry' =>
      rw [hentry] at hentry'
      cases hentry'
  | collection hentry =>
    cases k with
    | joined hentry' | derived hentry' =>
      rw [hentry] at hentry'
      cases hentry'
    | collection hentry' =>
      obtain ⟨rfl, -⟩ := NodeKind.collectionDeclaration.inj (hentry.symm.trans hentry')
      exact ⟨rfl, rfl⟩

/-- **No part of a clause belongs to two paths that are looked up.** -/
theorem LooksUp.unique (hwf : tree.WellFormed) {clause : Nat}
    (h : tree.LooksUp (tree.children clause) path right)
    (k : tree.LooksUp (tree.children clause) other left) (hpath : tree.Holds path node)
    (hother : tree.Holds other node) : path = other ∧ right = left := by
  obtain ⟨entry, after, joins, hsuffix, hlooks, rfl⟩ := h
  obtain ⟨entry', after', joins', hsuffix', hlooks', rfl⟩ := k
  obtain rfl := Holds.unique hwf (hsuffix.subset List.mem_cons_self)
    (hsuffix'.subset List.mem_cons_self) ((hlooks.holds hwf).trans hpath)
    ((hlooks'.holds hwf).trans hother)
  obtain ⟨rfl, rfl⟩ := hlooks.unique hwf hlooks' hpath hother
  rw [eq_of_suffix (hwf.children_nodup clause) hsuffix hsuffix']
  exact ⟨rfl, rfl⟩

/-- The places of variables that are written tell them apart. -/
def WrittenApart (tree : Tree) : Prop := ∀ id other, (tree.kind id).isWritten = true →
  (tree.kind other).isWritten = true → tree.span id = tree.span other → id = other

/-- Paths that start at one variable have it in common. -/
theorem WrittenApart.exists_common (h : tree.WrittenApart) (hwf : tree.WellFormed)
    {root : Located String} (hpath : tree.rootVariable? path = some root)
    (hother : tree.rootVariable? other = some root) :
    ∃ node, tree.Holds path node ∧ tree.Holds other node := by
  obtain ⟨node, behind, hheld, hk, hspan⟩ := exists_of_rootVariable? hwf hpath
  obtain ⟨node', behind', hheld', hk', hspan'⟩ := exists_of_rootVariable? hwf hother
  obtain rfl := h node node' (by rw [hk]; rfl) (by rw [hk']; rfl) (hspan.trans hspan'.symm)
  exact ⟨node, hheld, hheld'⟩

/-- No variable is found twice in the joins of an entry. -/
theorem nodup_misplacedJoins (hwf : tree.WellFormed) (hwritten : tree.WrittenApart)
    (hjoins : ∀ join ∈ joins, (tree.joinDeclaration? join).isSome = true)
    (hapart : joins.Pairwise tree.Apart) (later : List Declaration) :
    (Declaration.misplacedJoins tree later (joins.filterMap tree.joinDeclaration?)).Nodup := by
  induction joins with
  | nil => exact List.nodup_nil
  | cons join joins ih =>
    obtain ⟨declaration, hd⟩ := Option.isSome_iff_exists.mp (hjoins join List.mem_cons_self)
    have hrest : ∀ join ∈ joins, (tree.joinDeclaration? join).isSome = true := fun other ho =>
      hjoins other (List.mem_cons_of_mem _ ho)
    have hheld : ∀ {join declaration}, tree.joinDeclaration? join = some declaration →
        tree.Holds join declaration.path := by
      intro join declaration hd
      unfold joinDeclaration? at hd
      split at hd
      · next hk =>
        obtain rfl := Option.some.inj hd
        exact Holds.refl.of_child hwf (by rw [children, hk]; exact List.mem_cons_self)
      · cases hd
    rw [List.pairwise_cons] at hapart
    rw [List.filterMap_cons_some hd, Declaration.misplacedJoins]
    refine List.nodup_append.mpr ⟨Option.toList_nodup _, ih hrest hapart.2, ?_⟩
    rintro root hroot _ hfound rfl
    obtain ⟨hstart, -⟩ := Option.filter_eq_some_iff.mp (Option.mem_toList.mp hroot)
    obtain ⟨other, after, found, hsuffix, hd', hstart', -⟩ := (mem_misplacedJoins hrest).mp hfound
    obtain ⟨node, hnode, hnode'⟩ := hwritten.exists_common hwf hstart hstart'
    exact hapart.1 other (hsuffix.subset List.mem_cons_self) node ((hheld hd).trans hnode)
      ((hheld hd').trans hnode')

/-- **No variable is found twice.** -/
theorem IsClean.nodup_misplaced {statement : Nat} (h : tree.IsClean statement)
    (hwritten : tree.WrittenApart) {entries : List Nat}
    (hentries : ∀ entry ∈ entries, Slot.entry.admits (tree.kind entry) = true)
    (hapart : entries.Pairwise tree.Apart) :
    (Declaration.misplaced tree (entries.map tree.declaration)).Nodup := by
  have hwf := h.wellFormed
  induction entries with
  | nil => exact List.nodup_nil
  | cons entry entries ih =>
    have hlater : ∀ other ∈ entries, Slot.entry.admits (tree.kind other) = true := fun other ho =>
      hentries other (List.mem_cons_of_mem _ ho)
    have hentry := hentries entry List.mem_cons_self
    rw [List.pairwise_cons] at hapart
    rw [List.map_cons, Declaration.misplaced_cons]
    refine List.nodup_append.mpr ⟨?_, ih hlater hapart.2, ?_⟩
    · unfold Declaration.misplacedAt
      split
      · rcases h.entry_cases hentry with ⟨range, joins, root, hasAs, declared, hk, -, -, hjoins⟩ |
          ⟨path, hasAs, declared, hk⟩
        · have happart := apart_children hwf entry
          rw [children, hk] at happart
          have hdeclared : (tree.declaration entry).joins = joins.filterMap tree.joinDeclaration? := by
            rw [declaration, hk]
          rw [hdeclared]
          exact nodup_misplacedJoins hwf hwritten hjoins (List.pairwise_cons.mp happart).2 _
        · rw [declaration, hk]
          exact List.nodup_nil
      · exact Option.toList_nodup _
    · rintro root hroot _ hfound rfl
      obtain ⟨path, joins, hlooks, hstart, -⟩ := (h.mem_misplacedAt hentry hlater).mp hroot
      obtain ⟨path', right, ⟨other, after, joins', hsuffix, hlooks', -⟩, hstart', -⟩ :=
        (h.mem_misplaced hlater).mp hfound
      obtain ⟨node, hnode, hnode'⟩ := hwritten.exists_common hwf hstart hstart'
      exact hapart.1 other (hsuffix.subset List.mem_cons_self) node ((hlooks.holds hwf).trans hnode)
        ((hlooks'.holds hwf).trans hnode')

end Tree

end Jpql
