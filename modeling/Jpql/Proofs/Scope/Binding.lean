import Jpql.Check.PathRule
import Jpql.Proofs.Scope.Visible

/-! # Names that are bound to nothing

A name that no statement around a node declares is bound to nothing there
(`QueryContext.binding?_eq_none`), and what a name leads to in some steps it leads to in more
(`QueryContext.leadsTo_succ`). The words of a path may then only spell out a type:

* `QueryContext.statePath_of_constant`: a path that starts at such a name and spells out a constant of an
  enum comes to that constant.
* `QueryContext.statePath_of_no_field`: a path below the virtual variable comes to nothing if the type of
  that variable has no field of the first name. -/

namespace Jpql

namespace Text

/-- The upper case of a character does not depend on its case, if it is an ASCII letter. -/
theorem upperChar_toLower (c : Char) : upperChar c.toLower = upperChar c := by
  have hascii : ∀ n < 128, upperChar (Char.ofNat n).toLower = upperChar (Char.ofNat n) := by decide
  by_cases hc : c.toNat < 128
  · have hsame := hascii c.toNat hc
    rwa [Char.ofNat_toNat] at hsame
  · have hno : ¬(c.val ≥ 'A'.val ∧ c.val ≤ 'Z'.val) := fun h =>
      hc (Nat.lt_of_le_of_lt (UInt32.le_iff_toNat_le.mp h.2) (by decide))
    have hsame : c.toLower = c := dif_neg hno
    rw [hsame]

/-- **Words that are the same up to the case of ASCII letters have one upper case.** -/
theorem upperCase_eq_of_sameWord {a b : String} (h : sameWord a b = true) :
    upperCase a = upperCase b := by
  have hlower : ∀ text : String, text.toList.flatMap upperChar =
      (text.toList.map Char.toLower).flatMap upperChar := fun text => by
    rw [List.flatMap_map]
    exact congrArg (text.toList.flatMap ·) (funext fun c => (upperChar_toLower c).symm)
  rw [upperCase, upperCase, hlower a, hlower b, sameWord_iff.mp h]

end Text

/-! ## Declarations -/

theorem isNamed_iff {bound? : Option String} {name : String} :
    isNamed bound? name = true ↔ ∃ bound, bound? = some bound ∧ Text.sameWord bound name = true := by
  cases bound? <;> simp [isNamed]

namespace Tree

variable {tree : Tree} {declaration : Declaration}

/-- The names of a declaration are those of the nodes it introduces. -/
structure Names (tree : Tree) (declaration : Declaration) : Prop where
  own : declaration.name = tree.variableName? declaration.nameNode
  joins : ∀ join ∈ declaration.joins, join.name = tree.variableName? join.nameNode

theorem names_unknown (node : NodeId) : tree.Names (.unknownAt node) := ⟨rfl, by simp [Declaration.unknownAt]⟩

theorem names_range (range node : NodeId) : tree.Names (tree.rangeDeclaration range node) := by
  unfold rangeDeclaration
  split
  · exact ⟨rfl, by simp⟩
  · exact names_unknown node

theorem names_declaration (node : NodeId) : tree.Names (tree.declaration node) := by
  unfold declaration
  split
  · refine ⟨(names_range _ _).own, fun join hjoin => ?_⟩
    obtain ⟨id, -, hid⟩ := List.mem_filterMap.mp hjoin
    unfold joinDeclaration? at hid
    split at hid
    · cases hid
      rfl
    · cases hid
  · exact ⟨rfl, by simp⟩
  · exact names_unknown node

/-- **A declaration that declares a name introduces a node of that name.** -/
theorem Names.exists_name (h : tree.Names declaration) {name : String}
    (hd : declaration.declares name = true) :
    ∃ other node, (other, node) ∈ Scope.declarationNames declaration ∧
      Text.sameWord other name = true := by
  have hnode : ∀ {other : String} {node? : Option NodeId}, tree.variableName? node? = some other →
      ∃ node, node? = some node := by
    intro other node? hname
    cases node? with
    | none => cases hname
    | some node => exact ⟨node, rfl⟩
  rw [Declaration.declares, Bool.or_eq_true, List.any_eq_true] at hd
  rcases hd with hown | ⟨join, hjoin, hd⟩
  · obtain ⟨other, hname, hsame⟩ := isNamed_iff.mp hown
    obtain ⟨node, hid⟩ := hnode (h.own ▸ hname)
    exact ⟨other, node, Scope.mem_declarationNames.mpr (.inl ⟨hname, hid⟩), hsame⟩
  · obtain ⟨other, hname, hsame⟩ := isNamed_iff.mp hd
    obtain ⟨node, hid⟩ := hnode (h.joins join hjoin ▸ hname)
    exact ⟨other, node, Scope.mem_declarationNames.mpr (.inr ⟨join, hjoin, hname, hid⟩), hsame⟩

end Tree

theorem Scope.names_of_mem {tree : Tree} {statement : NodeId} {declaration : Declaration}
    (h : declaration ∈ (Scope.ofStatement tree statement).declarations) : tree.Names declaration := by
  have hfrom : ∀ fromClause, declaration ∈ tree.fromDeclarations fromClause → tree.Names declaration := by
    intro fromClause hmem
    unfold Tree.fromDeclarations at hmem
    split at hmem
    · obtain ⟨node, -, rfl⟩ := List.mem_map.mp hmem
      exact Tree.names_declaration node
    · obtain ⟨node, -, rfl⟩ := List.mem_map.mp hmem
      exact Tree.names_declaration node
    · cases hmem
  have hclause : ∀ clause, declaration ∈ tree.clauseDeclarations clause → tree.Names declaration := by
    intro clause hmem
    unfold Tree.clauseDeclarations at hmem
    split at hmem
    · rw [List.mem_singleton.mp hmem]
      exact Tree.names_range _ _
    · rw [List.mem_singleton.mp hmem]
      exact Tree.names_range _ _
    · cases hmem
  unfold Scope.ofStatement at h
  split at h
  · exact hfrom _ h
  · exact hfrom _ h
  · exact hclause _ h
  · exact hclause _ h
  · cases h

namespace QueryContext

variable {tree : Tree} {metamodel : Metamodel} {context : QueryContext} {id statement : NodeId}
  {name : String}

/-- **A name that no statement around a node declares is bound to nothing.** -/
theorem binding?_eq_none (h : tree.IsQuery statement) (hholds : tree.Holds statement id)
    (hne : id ≠ statement) (hhidden : ¬tree.IsVisible id name) :
    (around tree metamodel id).binding? name = none := by
  have hnone : ((around tree metamodel id).scopes.flatMap (·.declarations)).find?
      (·.declares name) = none := by
    refine List.find?_eq_none.mpr fun declaration hmem hdeclares => hhidden ?_
    obtain ⟨scope, hscope, hmem⟩ := List.mem_flatMap.mp hmem
    rw [scopes_around h hholds hne] at hscope
    obtain ⟨outer, houter, rfl⟩ := List.mem_map.mp hscope
    obtain ⟨other, node, hname, hsame⟩ := (Scope.names_of_mem hmem).exists_name hdeclares
    have hstatement := Tree.statement_of_mem_scopes houter
    have hentry : (other, node) ∈ (Scope.ofStatement tree outer).names :=
      List.mem_append_left _ (List.mem_flatMap.mpr ⟨declaration, hmem, hname⟩)
    obtain ⟨hintro, hscope, hnamed⟩ := (Scope.mem_names_ofStatement h.wellFormed h.schematic
      hstatement.1 hstatement.2).mp hentry
    exact ⟨outer, houter, node, other, hintro, hscope, hnamed, Text.upperCase_eq_of_sameWord hsame⟩
  rw [binding?, hnone]
  rfl

/-- **A variable that is bound to an entity ranges over it.** -/
theorem variableType?_of_entity {entity : String} {type : ManagedType}
    (hbinding : context.binding? name = some (.entity entity))
    (hentity : context.metamodel.entity? entity = some type) : context.variableType? name = some type := by
  rw [variableType?, resolutionLimit, variableTypeIn?, hbinding]
  dsimp only
  rw [hentity]

/-! ## Steps -/

/-- Types of roots found by two ways, where the second finds what the first does. -/
theorem pathMapping?_mono {first second : NodeId → Option ManagedType} {root : NodeId}
    {segments : List (Located String)} {mapping : Mapping}
    (h : ∀ type, first root = some type → second root = some type)
    (hmapping : context.pathMapping? first root segments = some mapping) :
    context.pathMapping? second root segments = some mapping := by
  unfold pathMapping? at hmapping ⊢
  simp only [Option.bind_eq_bind, Option.bind_eq_some_iff] at hmapping ⊢
  obtain ⟨last, hlast, type, htype, owner, howner, hfield⟩ := hmapping
  exact ⟨last, hlast, type, h type htype, owner, howner, hfield⟩

/-- **What a name or an expression leads to in some steps it leads to in one more.** -/
theorem leadsTo_succ (steps : Nat) :
    (∀ name type, context.variableTypeIn? steps name = some type →
        context.variableTypeIn? (steps + 1) name = some type) ∧
      ∀ id type, context.expressionTypeIn? steps id = some type →
        context.expressionTypeIn? (steps + 1) id = some type := by
  induction steps using Nat.strongRecOn with
  | _ steps ih =>
    cases steps with
    | zero => exact ⟨fun _ _ h => (nomatch h), fun _ _ h => (nomatch h)⟩
    | succ steps =>
      obtain ⟨hvariable, hexpression⟩ := ih steps (Nat.lt_succ_self steps)
      constructor
      · intro name type h
        rw [variableTypeIn?] at h ⊢
        split at h
        · cases h
        · split at h
          · exact h
          · simp only [Option.bind_eq_bind, Option.bind_eq_some_iff] at h ⊢
            obtain ⟨virtual, hvirtual, owner, howner, hfield⟩ := h
            exact ⟨virtual, hvirtual, owner, hvariable virtual owner howner, hfield⟩
        · exact hexpression _ _ h
      · intro id type h
        rw [expressionTypeIn?] at h ⊢
        split at h
        · exact hexpression _ _ h
        · exact hvariable _ _ h
        · cases steps with
          | zero => cases h
          | succ steps =>
            simp only [Option.bind_eq_bind, Option.bind_eq_some_iff] at h ⊢
            obtain ⟨mapping, hmapping, hmanaged⟩ := h
            refine ⟨mapping, pathMapping?_mono (fun owner => ?_) hmapping, hmanaged⟩
            exact (ih steps (by omega)).2 _ owner
        · exact h
        · exact hexpression _ _ h
        · cases h

theorem leadsTo_mono {steps more : Nat} (hle : steps ≤ more) :
    (∀ name type, context.variableTypeIn? steps name = some type →
        context.variableTypeIn? more name = some type) ∧
      ∀ id type, context.expressionTypeIn? steps id = some type →
        context.expressionTypeIn? more id = some type := by
  induction hle with
  | refl => exact ⟨fun _ _ => id, fun _ _ => id⟩
  | step _ ih =>
    have hsucc := context.leadsTo_succ
    exact ⟨fun name type h => (hsucc _).1 name type (ih.1 name type h),
      fun id type h => (hsucc _).2 id type (ih.2 id type h)⟩

/-! ## What the words of a path spell out -/

variable {root : NodeId} {segments : List (Located String)}

/-- A variable that is bound to nothing has no type. -/
theorem expressionTypeIn?_unbound (hroot : context.tree.kind root = .identifier name false none)
    (hunbound : context.binding? name = none) (steps : Nat) :
    context.expressionTypeIn? steps root = none := by
  cases steps with
  | zero => rfl
  | succ steps =>
    rw [expressionTypeIn?, hroot]
    cases steps with
    | zero => rfl
    | succ steps =>
      show context.variableTypeIn? (steps + 1) name = none
      rw [variableTypeIn?, hunbound]

/-- A path leads to no field if its words before the last lead to no type. -/
theorem pathMapping?_eq_none {rootType? : NodeId → Option ManagedType}
    (h : ∀ type, rootType? root = some type → context.ownerOf? type segments.dropLast = none) :
    context.pathMapping? rootType? root segments = none := by
  rw [pathMapping?]
  cases segments.getLast? with
  | none => rfl
  | some last =>
    cases htype : rootType? root with
    | none => rfl
    | some type =>
      show (context.ownerOf? type segments.dropLast).bind _ = none
      rw [h type htype]
      rfl

/-- **A path from a name that is bound to nothing denotes the type that its words spell out**, and leads
to no field. -/
theorem qualified_of_unbound {path : NodeId} {last : Located String} {dot : Bool} {type : TypeInfo}
    (hpath : context.tree.kind path = .path .stateField root (segments ++ [last]) dot)
    (hroot : context.tree.kind root = .identifier name false none)
    (hunbound : context.binding? name = none)
    (htype : context.metamodel.type? (".".intercalate (name :: segments.map (·.value))) = some type) :
    context.mapping? path = none ∧ context.pathType? path = some type := by
  have hmapping : context.mapping? path = none := by
    rw [mapping?, resolutionLimit, mappingIn?, hpath]
    refine pathMapping?_eq_none fun type htype => ?_
    rw [expressionTypeIn?_unbound hroot hunbound] at htype
    cases htype
  refine ⟨hmapping, ?_⟩
  have hqualified : context.qualifiedType? root (segments ++ [last]) = some type := by
    rw [qualifiedType?, hroot, List.dropLast_concat]
    exact htype
  rw [pathType?, hmapping, hpath]
  simp [hqualified]

/-- Only an enum has constants. -/
theorem isEnum_of_constant {type : TypeInfo} {constant : String} (h : constant ∈ type.constants) :
    type.isEnum = true := by
  unfold TypeInfo.constants at h
  unfold TypeInfo.isEnum
  split at h
  · rfl
  · cases h

/-- **A path from a name that is bound to nothing comes to the constant that it spells out.** -/
theorem statePath_of_constant {path : NodeId} {last : Located String} {dot : Bool} {type : TypeInfo}
    (hpath : context.tree.kind path = .path .stateField root (segments ++ [last]) dot)
    (hroot : context.tree.kind root = .identifier name false none)
    (hunbound : context.binding? name = none)
    (htype : context.metamodel.type? (".".intercalate (name :: segments.map (·.value))) = some type)
    (hconstant : last.value ∈ type.constants) (associationAllowed : Bool) :
    context.statePath path (segments ++ [last]) associationAllowed = .constant true type.name := by
  obtain ⟨hmapping, hdenotes⟩ := qualified_of_unbound hpath hroot hunbound htype
  simp [statePath, unmappedVerdict, hmapping, hdenotes, isEnum_of_constant hconstant, hconstant]

/-- **A path below the virtual variable comes to nothing** if the type of that variable has no field of
the first name, whatever its words spell out. -/
theorem statePath_of_no_field {path : NodeId} {first : Located String} {dot : Bool}
    (hpath : context.tree.kind path = .path .stateField root (first :: segments) dot)
    (hroot : context.tree.kind root = .identifier name true none) (hsegments : segments ≠ [])
    (hfield : context.fieldOf? name first.value = none) (associationAllowed : Bool) :
    context.statePath path (first :: segments) associationAllowed = .invalid .statePathNotResolvable := by
  have howner : ∀ steps ≤ resolutionLimit, ∀ type,
      context.expressionTypeIn? (steps + 1) root = some type →
        context.ownerOf? type (first :: segments).dropLast = none := by
    intro steps hsteps type htype
    rw [expressionTypeIn?, hroot] at htype
    rw [fieldOf?, variableType?, (leadsTo_mono hsteps).1 name type htype] at hfield
    have hmapping : type.mapping? first.value = none := hfield
    rw [List.dropLast_cons_of_ne_nil hsegments, ownerOf?, List.foldlM_cons, fieldType?, hmapping]
    rfl
  have hmapping : context.mapping? path = none := by
    rw [mapping?, resolutionLimit, mappingIn?, hpath]
    exact pathMapping?_eq_none (howner 30 (by decide))
  have hnothing : context.pathType? path = none := by
    have hqualified : context.qualifiedType? root (first :: segments) = none := by
      rw [qualifiedType?, hroot]
    have htype := howner 32 (by decide)
    rw [pathType?, hmapping, hpath]
    simp only [List.isEmpty_cons, hqualified, Option.none_or, expressionType?, resolutionLimit]
    cases hroot? : context.expressionTypeIn? 33 root with
    | none => rfl
    | some type =>
      show ((context.ownerOf? type (first :: segments).dropLast).bind _) = none
      rw [htype type hroot?]
      rfl
  simp [statePath, unmappedVerdict, hmapping, hnothing]

end QueryContext

end Jpql
