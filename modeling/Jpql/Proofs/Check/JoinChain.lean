import Jpql.Proofs.Check.Exact
import Jpql.Proofs.Reader.Join
import Jpql.Proofs.Scope.Lookup
import Jpql.Proofs.Scope.Table
import Jpql.Validate
import Mathlib.Logic.Basic

/-! # Validation of chains of joins

In `FROM E a JOIN a.b c JOIN c.d f` every variable is joined along a field of the one before it. What a
variable ranges over is found by following the chain back to the entity, at four steps a join, and the
steps are limited. The limit is there for declarations that refer to each other in a circle; it also cuts
chains, which never do: the first eight joins of a chain are resolved, and no other.

So a query `SELECT a FROM E a JOIN a.f b JOIN b.g c ...` is read without a problem however long it is, and of
each join behind the eighth it is reported that its path cannot be resolved.

* `QueryContext.JoinChain`: a chain of joins at a place of a query.
* `JoinChain.found`: in how many steps the type of a variable is found.
* `JoinChain.resolution`: which variables have a type, and which paths are accepted.
* `Metamodel.IsBuilt`, `Metamodel.Leads`: the metamodels that are built up by registrations, and the
  relationships in them that a chain goes along.
* `Parse.SelectsChain.scope`, `Parse.SelectsChain.joinChain`: what the variables of a chain are bound to.
* `validate_joinChain`: what a validation of a chain reports, and which variables have a type. -/

namespace Jpql

/-! ## Resolution -/

namespace QueryContext

/-- **A chain of joins.** The first variable ranges over an entity; each further one is joined along a
relationship of the type of the one before it. -/
structure JoinChain (context : QueryContext) (length : Nat) where
  name : Nat → String
  type : Nat → ManagedType
  /-- The path of the join behind a variable. -/
  path : Nat → NodeId
  /-- The field at the end of that path. -/
  field : Nat → Mapping
  starts : ∃ entity, context.binding? (name 0) = some (.entity entity) ∧
    context.metamodel.entity? entity = some (type 0)
  joins : ∀ i < length, context.binding? (name (i + 1)) = some (.path (path i) false)
  isPath : ∀ i < length, ∃ kind root span,
    context.tree.kind (path i) = .path kind root [⟨(field i).name, span⟩] false ∧
      context.tree.kind root = .identifier (name i) false none
  isField : ∀ i < length, (type i).mapping? (field i).name = some (field i)
  isRelationship : ∀ i < length, (field i).kind.isRelationship = true
  isManaged : ∀ i < length, context.metamodel.managed? (field i).typeName = some (type (i + 1))
  isType : ∀ i < length, (context.metamodel.type? (field i).typeName).isSome = true

namespace JoinChain

variable {context : QueryContext} {length : Nat} (chain : context.JoinChain length)

/-- The variable is found in any number of steps that is large enough. -/
def Found (i : Nat) : Prop := ∀ steps, context.variableTypeIn? steps (chain.name i) =
  if 4 * i < steps then some (chain.type i) else none

variable {chain} {i : Nat} {root : NodeId}

/-- In front of a field the variable takes one step more. -/
theorem Found.atRoot (h : chain.Found i) (hroot : context.tree.kind root = .identifier (chain.name i) false none)
    (steps : Nat) : context.expressionTypeIn? steps root =
      if 4 * i + 1 < steps then some (chain.type i) else none := by
  cases steps with
  | zero => rfl
  | succ steps =>
    rw [expressionTypeIn?, hroot]
    dsimp only
    rw [h steps]
    exact if_congr (by omega) rfl rfl

/-- The field is found with the variable in front of it. -/
theorem Found.atField (h : chain.Found i) (hi : i < length)
    (hroot : context.tree.kind root = .identifier (chain.name i) false none) (span : Span) (steps : Nat) :
    context.pathMapping? (context.expressionTypeIn? steps) root [⟨(chain.field i).name, span⟩] =
      if 4 * i + 1 < steps then some (chain.field i) else none := by
  show (context.expressionTypeIn? steps root >>= fun type => (context.ownerOf? type []) >>= fun owner =>
    owner.mapping? (chain.field i).name) = _
  rw [h.atRoot hroot]
  split
  · exact chain.isField i hi
  · rfl

/-- A path takes two steps. -/
theorem Found.atPath (h : chain.Found i) (hi : i < length) (steps : Nat) :
    context.expressionTypeIn? steps (chain.path i) =
      if 4 * i + 3 < steps then some (chain.type (i + 1)) else none := by
  obtain ⟨kind, root, span, hpath, hroot⟩ := chain.isPath i hi
  match steps with
  | 0 => rfl
  | 1 =>
    rw [expressionTypeIn?, hpath]
    exact (if_neg (by omega)).symm
  | steps + 2 =>
    rw [expressionTypeIn?, hpath]
    dsimp only
    rw [h.atField hi hroot]
    by_cases hsteps : 4 * i + 1 < steps
    · rw [if_pos hsteps, if_pos (by omega)]
      exact chain.isManaged i hi
    · rw [if_neg hsteps, if_neg (by omega)]
      rfl

variable (chain)

/-- **Each join takes four steps**: one for the binding of its variable, two for its path, and one for
the variable in front of it. -/
theorem found (hi : i ≤ length) : chain.Found i := by
  induction i with
  | zero =>
    obtain ⟨entity, hbinding, hentity⟩ := chain.starts
    intro steps
    cases steps with
    | zero => rfl
    | succ steps =>
      rw [variableTypeIn?, hbinding, if_pos (by omega)]
      dsimp only
      rw [hentity]
  | succ i ih =>
    intro steps
    cases steps with
    | zero => rfl
    | succ steps =>
      rw [variableTypeIn?, chain.joins i hi]
      dsimp only
      rw [(ih (Nat.le_of_lt hi)).atPath hi]
      exact if_congr (by omega) rfl rfl

/-- **The first eight joins of a chain are resolved, and no other.** Up to the eighth, the variables have
the types that their fields lead to and the paths are accepted; the ninth path is reported, and so are
all behind it. -/
theorem resolution : (∀ i ≤ length, context.variableType? (chain.name i) =
      if i ≤ 8 then some (chain.type i) else none) ∧
    ∀ i < length, context.collectionPath? (chain.path i) false =
      if i < 8 then none else some .collectionPathNotResolvable := by
  refine ⟨fun i hi => ?_, fun i hi => ?_⟩
  · rw [variableType?, resolutionLimit, chain.found hi]
    exact if_congr (by omega) rfl rfl
  · obtain ⟨kind, root, span, hpath, hroot⟩ := chain.isPath i hi
    have hmapping : context.mapping? (chain.path i) =
        if 4 * i + 1 < 31 then some (chain.field i) else none := by
      rw [mapping?, resolutionLimit, mappingIn?, hpath]
      exact (chain.found (Nat.le_of_lt hi)).atField hi hroot span _
    rw [QueryContext.collectionPath?, hmapping]
    by_cases hsteps : i < 8
    · rw [if_pos (by omega), if_pos hsteps]
      simp [mappingType?, Option.isNone_iff_eq_none, Option.ne_none_iff_isSome.2 (chain.isType i hi),
        chain.isRelationship i hi]
    · rw [if_neg (by omega), if_neg hsteps]

end JoinChain

end QueryContext

/-! ## Metamodels -/

/-- **A metamodel that is built up by registrations.** -/
inductive Metamodel.IsBuilt : Metamodel → Prop
  | initial : IsBuilt .initial
  | withManaged {model : Metamodel} (h : IsBuilt model) (managed : ManagedType) :
      IsBuilt (model.withManaged managed)
  | withEnum {model : Metamodel} (h : IsBuilt model) (name : String) (constants : List String) :
      IsBuilt (model.withEnum name constants)
  | withBasic {model : Metamodel} (h : IsBuilt model) (name : String) : IsBuilt (model.withBasic name)

/-- The class of an entity or embeddable is a type. -/
theorem Metamodel.IsBuilt.isSome_type? {model : Metamodel} (h : model.IsBuilt) {name : String}
    {managed : ManagedType} (hmanaged : model.managed? name = some managed) :
    (model.type? name).isSome = true := by
  have hname : managed.typeName = name := by simpa using List.find?_some hmanaged
  have htype : ∃ type ∈ model.types, type.name = managed.typeName := by
    have hmem : managed ∈ model.managedTypes := List.mem_of_find?_eq_some hmanaged
    clear hmanaged
    induction h with
    | initial => cases hmem
    | withManaged _ other ih =>
      rcases List.mem_append.mp hmem with hmem | hmem
      · obtain ⟨type, htype, heq⟩ := ih hmem
        exact ⟨type, List.mem_append_left _ htype, heq⟩
      · obtain rfl := List.mem_singleton.mp hmem
        exact ⟨_, List.mem_append_right _ List.mem_cons_self, rfl⟩
    | withEnum _ _ _ ih | withBasic _ _ ih =>
      obtain ⟨type, htype, heq⟩ := ih hmem
      exact ⟨type, List.mem_append_left _ htype, heq⟩
  obtain ⟨type, hmem, heq⟩ := htype
  exact List.find?_isSome.mpr ⟨type, hmem, by simp [heq, hname]⟩

/-- **Relationships lead from an entity on**, each to the type at which the next one starts. -/
structure Metamodel.Leads (model : Metamodel) (entity : String) (field : Nat → String)
    (type : Nat → ManagedType) (length : Nat) : Prop where
  starts : model.entity? entity = some (type 0)
  follows : ∀ i < length, ∃ mapping, (type i).mapping? (field i) = some mapping ∧
    mapping.kind.isRelationship = true ∧ model.managed? mapping.typeName = some (type (i + 1))

open Parse (IsVariable HasPath SelectsChain JoinsAlong JoinNodes)

/-! ## Names -/

/-- Words are ASCII. -/
theorem Word.isAscii (word : Word) : Text.IsAscii word.text := by
  obtain ⟨first, tail, htext, hstart, hparts⟩ := word.isWord.exists_cons
  intro c hc
  refine Scan.toNat_lt_of_isWordPart ?_
  rw [htext] at hc
  rcases List.mem_cons.mp hc with rfl | hc
  · simp [Scan.isWordPart, hstart]
  · exact hparts c hc

/-- Different names are introduced at one node each. -/
theorem Scope.length_nodesNamed_le {scope : Scope}
    (h : (scope.names.map fun name => Text.upperCase name.1).Nodup) (key : String) :
    (scope.nodesNamed key).length ≤ 1 := by
  have hcount := List.nodup_iff_count_le_one.mp h key
  rw [List.count, List.countP_map, List.countP_eq_length_filter] at hcount
  rw [nodesNamed, List.length_map]
  exact hcount

/-- The variable that a path starts from. -/
theorem Parse.HasPath.rootVariable? {tree : Tree} {kind : PathKind} {id : Nat} {name : String}
    {words : List Word} (h : HasPath tree.kind kind id name words) {root : Located String}
    (hroot : root ∈ tree.rootVariable? id) : root.value = name := by
  obtain ⟨first, segments, hid, hfirst, -⟩ := h
  have hnext : tree.rootVariable? id = tree.rootVariableTo? id first := by
    rw [Tree.rootVariable?, Tree.rootVariableTo?, hid]
  rw [hnext] at hroot
  cases id with
  | zero => cases hroot
  | succ id =>
    rw [Tree.rootVariableTo?, hfirst] at hroot
    obtain rfl := Option.some.inj hroot
    rfl

/-- Joins are in order if no later one declares the variable from which the path of a join starts. -/
theorem Declaration.misplacedJoins_eq_nil {tree : Tree} {joins : List JoinDeclaration}
    (h : joins.Pairwise fun join later => ∀ root ∈ tree.rootVariable? join.path,
      later.declares root.value = false) : misplacedJoins tree [] joins = [] := by
  induction joins with
  | nil => rfl
  | cons join joins ih =>
    obtain ⟨hjoin, hjoins⟩ := List.pairwise_cons.mp h
    rw [misplacedJoins, ih hjoins, List.append_nil, Option.toList_eq_nil_iff, Option.filter_eq_none_iff]
    intro root hroot hused
    rw [Bool.or_eq_true, List.any_eq_true] at hused
    rcases hused with ⟨later, hlater, hdeclares⟩ | hdeclared
    · rw [hjoin later hlater root hroot] at hdeclares
      cases hdeclares
    · cases hdeclared

/-! ## The scope of a chain -/

section

variable {tree : Tree} {metamodel : Metamodel} {id length : Nat} {entity : Name} {var : Nat → Name}
  {field : Nat → Word} {join : Nat → JoinNodes}

/-- What a chain declares. -/
def chainDeclaration (entity : Name) (var : Nat → Name) (join : Nat → JoinNodes) (length : Nat)
    (entry schema declared : NodeId) : Declaration :=
  ⟨.range, entry, schema, some entity.text, some (var 0).text, some declared,
    (List.range length).map fun i =>
      ⟨(join i).node, (join i).path, some (var (i + 1)).text, some (join i).declared⟩⟩

/-- **A chain is one declaration**, with all its joins. -/
theorem Parse.SelectsChain.scope (h : SelectsChain tree.kind entity var field length id join) :
    ∃ entry schema declared, Scope.ofStatement tree id =
      ⟨[chainDeclaration entity var join length entry schema declared], []⟩ := by
  obtain ⟨select, fromClause, entry, range, hid, hselect, hclause, hentry, hrange, hjoins⟩ := h
  obtain ⟨schema, declared, hrange⟩ := hrange.declaration entry
  have hdeclared : ((List.range length).map fun i => (join i).node).filterMap tree.joinDeclaration? =
      (List.range length).map fun i =>
        ⟨(join i).node, (join i).path, some (var (i + 1)).text, some (join i).declared⟩ := by
    rw [List.filterMap_map, ← List.filterMap_eq_map]
    refine List.filterMap_congr fun i hi => ?_
    have hjoin := hjoins i (List.mem_range.mp hi)
    have hname : tree.variableName? (some (join i).declared) = some (var (i + 1)).text :=
      Tree.variableName?_eq_some.mpr ⟨_, _, hjoin.declared⟩
    rw [Function.comp_apply, Function.comp_apply, Tree.joinDeclaration?, hjoin.node]
    simp only [hname]
  refine ⟨entry, schema, declared, ?_⟩
  simp only [Scope.ofStatement, hid, hselect.resultNames, Tree.fromDeclarations, Option.map_some, hclause,
    List.map_cons, List.map_nil, Tree.declaration, hentry, hrange, hdeclared, chainDeclaration]

end

/-! ## The variables of a chain -/

/-- **A place in a query of which a chain is the only declaration**, with different variables. -/
structure QueryContext.SeesChain (context : QueryContext) (entity : Name) (var : Nat → Name)
    (field : Nat → Word) (join : Nat → JoinNodes) (length : Nat) : Prop where
  subqueries : context.subqueries = []
  outermost : ∃ entry schema declared,
    context.outermost = ⟨[chainDeclaration entity var join length entry schema declared], []⟩
  isPath : ∀ i < length,
    HasPath context.tree.kind .collectionValued (join i).path (var i).text [field i]
  distinct : ∀ i ≤ length, ∀ j ≤ length, Text.sameWord (var i).text (var j).text = true → i = j

/-- A query with a chain as its statement sees that chain. -/
theorem Parse.SelectsChain.seesChain {tree : Tree} {id length : Nat} {entity : Name} {var : Nat → Name}
    {field : Nat → Word} {join : Nat → JoinNodes} (metamodel : Metamodel)
    (hroot : tree.kind tree.root = .query (some id) none)
    (hdistinct : ∀ i ≤ length, ∀ j ≤ length, Text.sameWord (var i).text (var j).text = true → i = j)
    (h : SelectsChain tree.kind entity var field length id join) :
    (QueryContext.ofTree tree metamodel).SeesChain entity var field join length := by
  have hstatement : QueryContext.statementOf tree = id := by rw [QueryContext.statementOf, hroot]
  refine ⟨rfl, ?_, fun i hi => ?_, hdistinct⟩
  · obtain ⟨entry, schema, declared, hscope⟩ := h.scope
    refine ⟨entry, schema, declared, ?_⟩
    rw [← hscope, ← hstatement]
    rfl
  · obtain ⟨_, _, _, _, -, -, -, -, -, hjoins⟩ := h
    exact (hjoins i hi).path

namespace QueryContext.SeesChain

variable {context : QueryContext} {entity : Name} {var : Nat → Name} {field : Nat → Word}
  {join : Nat → JoinNodes} {length i : Nat} (h : context.SeesChain entity var field join length)

include h

theorem isNamed_iff {j : Nat} (hi : i ≤ length) (hj : j ≤ length) :
    isNamed (some (var i).text) (var j).text = decide (i = j) := by
  rw [Bool.eq_iff_iff, decide_eq_true_iff]
  exact ⟨h.distinct i hi j hj, fun heq => heq ▸ Text.sameWord_refl _⟩

theorem binding?_zero : context.binding? (var 0).text = some (.entity entity.text) := by
  obtain ⟨entry, schema, declared, hscope⟩ := h.outermost
  have hname : (chainDeclaration entity var join length entry schema declared).declaresVariable
      (var 0).text = true := Text.sameWord_refl _
  simp [QueryContext.binding?, scopes, h.subqueries, hscope, Declaration.declares, Declaration.binding?, hname]
  rfl

theorem binding?_succ (hi : i < length) :
    context.binding? (var (i + 1)).text = some (.path (join i).path false) := by
  obtain ⟨entry, schema, declared, hscope⟩ := h.outermost
  have hrange : (List.range length).find? (fun j => isNamed (some (var (j + 1)).text) (var (i + 1)).text) =
      some i := by
    rw [List.find?_range_eq_some]
    refine ⟨(h.isNamed_iff hi hi).trans (by simp), List.mem_range.mpr hi, fun j hj => ?_⟩
    rw [h.isNamed_iff (by omega) hi]
    simp
    omega
  have hfirst : (chainDeclaration entity var join length entry schema declared).declaresVariable
      (var (i + 1)).text = false := (h.isNamed_iff (Nat.zero_le _) hi).trans (by simp)
  have hfind : (chainDeclaration entity var join length entry schema declared).joins.find?
      (·.declares (var (i + 1)).text) =
        some ⟨(join i).node, (join i).path, some (var (i + 1)).text, some (join i).declared⟩ := by
    rw [chainDeclaration, List.find?_map]
    exact congrArg (Option.map _) hrange
  have hany : (chainDeclaration entity var join length entry schema declared).declares
      (var (i + 1)).text = true := by
    rw [Declaration.declares, hfirst, Bool.false_or]
    exact List.any_eq_true.mpr ⟨_, List.mem_of_find?_eq_some hfind, Text.sameWord_refl _⟩
  simp [QueryContext.binding?, scopes, h.subqueries, hscope, hany, Declaration.binding?, hfirst, hfind]

/-- All variables of the chain are declared. -/
theorem contains (hreads : context.Reads) (hi : i ≤ length) :
    context.allVariables.contains (var i).text = true := by
  refine contains_of_declares hreads ?_
  cases i with
  | zero => exact declares_of_binding? h.binding?_zero
  | succ i => exact declares_of_binding? (h.binding?_succ hi)

/-- No variable of the chain is declared twice. -/
theorem duplicates : context.duplicates = [] := by
  obtain ⟨entry, schema, declared, hscope⟩ := h.outermost
  have hnames : (context.outermost.names.map fun name => Text.upperCase name.1) =
      (List.range (length + 1)).map fun i => Text.upperCase (var i).text := by
    rw [hscope, List.range_succ_eq_map]
    simp [Scope.names, Scope.declarationNames, chainDeclaration, Scope.namedNode?]
  have hnodup : (context.outermost.names.map fun name => Text.upperCase name.1).Nodup := by
    rw [hnames]
    refine List.nodup_range.map_on fun i hi j hj heq => ?_
    refine h.distinct i (Nat.le_of_lt_succ (List.mem_range.mp hi)) j
      (Nat.le_of_lt_succ (List.mem_range.mp hj)) ?_
    exact (Text.sameWord_iff_upperCase (var i).isAscii (var j).isAscii).mpr heq
  have hinnermost : context.innermost = context.outermost := by
    rw [innermost, h.subqueries, List.headD_nil]
  rw [QueryContext.duplicates, List.map_eq_nil_iff, List.eq_nil_iff_forall_not_mem, localVariables,
    hinnermost]
  intro node hmem
  obtain ⟨key, -, hlength⟩ := Scope.mem_duplicates.mp hmem
  exact absurd (Scope.length_nodesNamed_le hnodup key) (Nat.not_le.mpr hlength)

/-- No variable of the chain is used in front of its declaration. -/
theorem misplaced : Declaration.misplaced context.tree context.declarations = [] := by
  obtain ⟨entry, schema, declared, hscope⟩ := h.outermost
  have hdeclarations : context.declarations =
      [chainDeclaration entity var join length entry schema declared] := by
    rw [declarations, innermost, h.subqueries, List.headD_nil, hscope]
  have hrange : (chainDeclaration entity var join length entry schema declared).isRange = true := rfl
  rw [hdeclarations, Declaration.misplaced, if_pos hrange, Declaration.misplaced, List.append_nil]
  refine Declaration.misplacedJoins_eq_nil (List.pairwise_map.mpr (List.pairwise_lt_range.imp_of_mem ?_))
  intro i j hi hj hlt root hroot
  rw [List.mem_range] at hi hj
  rw [(h.isPath i hi).rootVariable? hroot]
  exact (h.isNamed_iff hj (Nat.le_of_lt hi)).trans (by simp; omega)

/-- **Resolution goes along the chain**, if relationships lead along its fields. -/
theorem joinChain {type : Nat → ManagedType} (hmodel : context.metamodel.IsBuilt)
    (hleads : context.metamodel.Leads entity.text (fun i => (field i).text) type length) :
    ∃ chain : context.JoinChain length, chain.name = (fun i => (var i).text) ∧ chain.type = type ∧
      chain.path = fun i => (join i).path := by
  have hmapping : ∀ i, ∃ mapping, i < length → (type i).mapping? (field i).text = some mapping ∧
      mapping.kind.isRelationship = true ∧
      context.metamodel.managed? mapping.typeName = some (type (i + 1)) := by
    intro i
    by_cases hi : i < length
    · obtain ⟨mapping, hmapping⟩ := hleads.follows i hi
      exact ⟨mapping, fun _ => hmapping⟩
    · exact ⟨⟨"", .basic, ""⟩, fun hlt => absurd hlt hi⟩
  choose mapping hmapping using hmapping
  have hname : ∀ i < length, (mapping i).name = (field i).text := fun i hi =>
    beq_iff_eq.mp (List.find?_some (p := fun mapping : Mapping => mapping.name == (field i).text)
      (hmapping i hi).1)
  refine ⟨⟨fun i => (var i).text, type, fun i => (join i).path, mapping,
    ⟨entity.text, h.binding?_zero, hleads.starts⟩, fun i hi => h.binding?_succ hi, fun i hi => ?_,
    fun i hi => ?_, fun i hi => (hmapping i hi).2.1, fun i hi => (hmapping i hi).2.2,
    fun i hi => hmodel.isSome_type? (hmapping i hi).2.2⟩, rfl, rfl, rfl⟩
  · obtain ⟨root, segments, hid, hroot, hvalues⟩ := h.isPath i hi
    obtain ⟨segment, rfl, hsegment⟩ := List.map_eq_singleton_iff.mp hvalues
    refine ⟨.collectionValued, root, segment.span, ?_, hroot⟩
    have hvalue : segment.value = (field i).text := hsegment
    rw [hname i hi, ← hvalue]
    exact hid
  · rw [hname i hi]
    exact (hmapping i hi).1

end QueryContext.SeesChain

/-! ## The check of a chain -/

namespace Check

variable {context : QueryContext} {known : NodeId → Prop} {levels id length : Nat} {entity : Name}
  {var : Nat → Name} {field : Nat → Word}

/-- What is wrong with a path that is joined. -/
def joinProblems (context : QueryContext) (path : NodeId) : List Problem :=
  (context.collectionPath? path false).toList.map (context.tree.problemAt · path)

/-- **Of a join the path is checked**, and its variables are in order. -/
theorem records_join {first next : Name} {word : Word} {join : JoinNodes} (hknown : ∀ id,
      IsVariable context.tree.kind id first.text ∨ IsVariable context.tree.kind id next.text → known id)
    (h : JoinsAlong context.tree.kind first word next join) :
    Records context known (visitTo (levels + 2) join.node) (joinProblems context join.path) := by
  obtain ⟨root, segments, hpath, hroot, -⟩ := h.path
  have hcollection : Records context known (collectionPath (visitTo (levels + 1)) join.path false)
      (joinProblems context join.path) := by
    refine .inTree_bind ?_
    rw [Tree.pathBehind?, hpath]
    refine .kindOf_bind ?_
    rw [hpath]
    refine (records_variable (hknown root (.inl hroot)) hroot).bind_left fun _ => .inTree_bind ?_
    rw [Tree.isResolvedRoot, hroot]
    refine .ask_bind ?_
    rw [joinProblems]
    cases context.collectionPath? join.path false with
    | none => exact .pure
    | some key => exact .recordAt
  refine .kindOf_bind ?_
  rw [h.node]
  refine .kindOf_bind ?_
  rw [hpath]
  have hdeclared : Records context known (visitDeclared (visitTo (levels + 1)) (some join.declared)) [] :=
    .visitDeclared (records_variable (hknown _ (.inr h.declared)) h.declared)
  exact hcollection.bind_right fun _ => hdeclared.bind_right fun _ => .pure

/-- **The check of a chain reports of each join what is wrong with its path**, and nothing else. -/
theorem records_joinChain {join : Nat → JoinNodes}
    (hknown : ∀ i ≤ length, ∀ id, IsVariable context.tree.kind id (var i).text → known id)
    (hentity : (context.metamodel.entity? entity.text).isSome = true)
    (hsees : context.SeesChain entity var field join length)
    (h : SelectsChain context.tree.kind entity var field length id join) :
    Records context known (visitTo (levels + 5) id)
      ((List.range length).flatMap fun i => joinProblems context (join i).path) := by
  obtain ⟨select, fromClause, entry, range, hid, hselect, hclause, hentry, hrange, hjoins⟩ := h
  have hjoins' : Records context known
      (visitAll (visitTo (levels + 2)) ((List.range length).map fun i => (join i).node))
      ((List.range length).flatMap fun i => joinProblems context (join i).path) := by
    refine .visitAll_map fun i hi => ?_
    rw [List.mem_range] at hi
    refine records_join (fun id hvar => ?_) (hjoins i hi)
    exact hvar.elim (hknown i (Nat.le_of_lt hi) id) (hknown (i + 1) hi id)
  have hentry' : Records context known (visitTo (levels + 3) entry)
      ((List.range length).flatMap fun i => joinProblems context (join i).path) := by
    refine .kindOf_bind ?_
    rw [hentry]
    exact .visitChildren hentry
      (.visitAll_cons (records_range (hknown 0 (Nat.zero_le _)) hentity hrange) hjoins')
  have hclause' : Records context known (visitTo (levels + 4) fromClause)
      ((List.range length).flatMap fun i => joinProblems context (join i).path) := by
    have horder : Records context known (declarationOrder fromClause) [] := by
      refine .ask_bind ?_
      rw [hsees.misplaced]
      exact .recordAll
    refine .kindOf_bind ?_
    rw [hclause]
    refine horder.bind_left fun _ => .visitChildren hclause ?_
    exact hentry'.bind_right fun _ => .pure
  refine .kindOf_bind ?_
  rw [hid]
  refine .visitChildren hid (Records.visitAll_cons (records_select (hknown 0 (Nat.zero_le _)) hselect) ?_)
  exact hclause'.bind_right fun _ => .pure

/-- **The report of a query with a chain of joins.** Its variables are declared once each. -/
theorem checkTree_joinChain {tree : Tree} {metamodel : Metamodel} {join : Nat → JoinNodes}
    (hroot : tree.kind tree.root = .query (some id) none)
    (hentity : (metamodel.entity? entity.text).isSome = true)
    (hsees : (QueryContext.ofTree tree metamodel).SeesChain entity var field join length)
    (h : SelectsChain tree.kind entity var field length id join) :
    checkTree (.ofTree tree metamodel) ValidationOptions.standard.checkEnv =
      (List.range length).flatMap fun i => joinProblems (.ofTree tree metamodel) (join i).path := by
  have hvisit : Records (.ofTree tree metamodel) (fun id => ∃ i ≤ length, IsVariable tree.kind id (var i).text)
      (visitTo 511 id)
      ((List.range length).flatMap fun i => joinProblems (.ofTree tree metamodel) (join i).path) :=
    records_joinChain (fun i hi id hid => ⟨i, hi, hid⟩) hentity hsees h
  refine checkTree_eq hroot rfl hvisit fun _ used hused => ?_
  refine records_checkVariables hsees.duplicates fun node hnode => ?_
  obtain ⟨i, hi, hvariable⟩ := hused node hnode
  have htext : tree.variableText node = (var i).text := by rw [Tree.variableText, hvariable]
  exact htext ▸ hsees.contains (QueryContext.reads_ofTree tree metamodel) hi

end Check

/-! ## Validation -/

theorem flatMap_range_ite {α : Type} (f : Nat → α) (bound length : Nat) :
    ((List.range length).flatMap fun i => if i < bound then [] else [f i]) =
      ((List.range length).drop bound).map f := by
  induction length with
  | zero => simp
  | succ length ih =>
    rw [List.range_succ, List.flatMap_append, ih, List.drop_append, List.map_append, List.length_range]
    congr 1
    by_cases h : length < bound
    · simp [h]
      omega
    · simp [h, Nat.sub_eq_zero_of_le (Nat.le_of_not_lt h)]

variable {source : String} {spelling : Keyword → List Char} {metamodel : Metamodel} {entity : Name}
  {var : Nat → Name} {field : Nat → Word} {type : Nat → ManagedType} {length : Nat}

/-- **A chain of joins in any layout.** -/
theorem validate_chain (hlexical : (tokenize source).problems = [])
    (hsource : Text.lexemes source = Lexeme.joinChain spelling entity var field length)
    (hmodel : metamodel.IsBuilt)
    (hleads : metamodel.Leads entity.text (fun i => (field i).text) type length)
    (hdistinct : ∀ i ≤ length, ∀ j ≤ length, Text.sameWord (var i).text (var j).text = true → i = j) :
    ∃ outcome, ∃ path : Nat → NodeId, validate source RuleId.statement metamodel .standard = .ok outcome ∧
      (∀ i < length, HasPath outcome.tree.kind .collectionValued (path i) (var i).text [field i]) ∧
      outcome.problems = ((List.range length).drop 8).map
        (fun i => outcome.tree.problemAt .collectionPathNotResolvable (path i)) ∧
      ∀ i ≤ length, (QueryContext.ofTree outcome.tree metamodel).variableType? (var i).text =
        if i ≤ 8 then some (type i) else none := by
  obtain ⟨tree, id, join, hparse, hroot, hchain⟩ := parse_joinChain defaultMaxDepth hlexical hsource
  have hsees := hchain.seesChain metamodel hroot hdistinct
  obtain ⟨chain, hname, htype, hpath⟩ := hsees.joinChain hmodel hleads
  obtain ⟨htypes, hpaths⟩ := chain.resolution
  have hproblems : ∀ i ∈ List.range length, Check.joinProblems (.ofTree tree metamodel) (join i).path =
      if i < 8 then [] else [tree.problemAt .collectionPathNotResolvable (join i).path] := by
    intro i hi
    have hfound := hpaths i (List.mem_range.mp hi)
    rw [hpath] at hfound
    rw [Check.joinProblems, hfound]
    split <;> rfl
  have hcheck : checkTree (.ofTree tree metamodel) ValidationOptions.standard.checkEnv =
      ((List.range length).drop 8).map
        (fun i => tree.problemAt .collectionPathNotResolvable (join i).path) := by
    rw [Check.checkTree_joinChain hroot (Option.isSome_of_eq_some hleads.starts) hsees hchain,
      ← flatMap_range_ite]
    exact List.flatMap_congr hproblems
  refine ⟨⟨tree, checkTree (.ofTree tree metamodel) ValidationOptions.standard.checkEnv⟩,
    fun i => (join i).path, ?_, hsees.isPath, hcheck, fun i hi => ?_⟩
  · have hparse' : parse source RuleId.statement ValidationOptions.standard.maxNestingDepth =
        .ok ⟨tree, []⟩ := hparse
    rw [validate, hparse']
    rfl
  · have htype' := htypes i hi
    rwa [hname, htype] at htype'

/-- **A chain of joins is resolved as far as its eighth join.** The text of a chain of any length, along
relationships of a metamodel and with different variables, is read without a problem. The variables of the
first eight joins have the types to which the chain leads; behind them no variable has a type, and of each
join it is reported that its path cannot be resolved. Nothing else is reported. -/
theorem validate_joinChain (hmodel : metamodel.IsBuilt)
    (hleads : metamodel.Leads entity.text (fun i => (field i).text) type length)
    (hdistinct : ∀ i ≤ length, ∀ j ≤ length, Text.sameWord (var i).text (var j).text = true → i = j) :
    ∃ outcome, ∃ path : Nat → NodeId,
      validate (Text.joinChain entity var field length) RuleId.statement metamodel .standard = .ok outcome ∧
      (∀ i < length, HasPath outcome.tree.kind .collectionValued (path i) (var i).text [field i]) ∧
      outcome.problems = ((List.range length).drop 8).map
        (fun i => outcome.tree.problemAt .collectionPathNotResolvable (path i)) ∧
      ∀ i ≤ length, (QueryContext.ofTree outcome.tree metamodel).variableType? (var i).text =
        if i ≤ 8 then some (type i) else none := by
  obtain ⟨hlexical, hsource⟩ := Text.lexemes_joinChain entity var field length
  exact validate_chain hlexical hsource hmodel hleads hdistinct

/-! ## A chain with nine joins -/

/-- Employees, who report to employees. -/
def employee : ManagedType := .entity "Employee" "acme.Employee" [⟨"reports", .oneToMany, "acme.Employee"⟩]

/-- The variables of the chain. -/
def employeeVariable (i : Nat) : Name :=
  [⟨⟨"e0", by decide⟩, by decide⟩, ⟨⟨"e1", by decide⟩, by decide⟩, ⟨⟨"e2", by decide⟩, by decide⟩,
    ⟨⟨"e3", by decide⟩, by decide⟩, ⟨⟨"e4", by decide⟩, by decide⟩, ⟨⟨"e5", by decide⟩, by decide⟩,
    ⟨⟨"e6", by decide⟩, by decide⟩, ⟨⟨"e7", by decide⟩, by decide⟩, ⟨⟨"e8", by decide⟩, by decide⟩].getD
      i ⟨⟨"e9", by decide⟩, by decide⟩

theorem validate_joinChain_ninth :
    let source := "SELECT e0 FROM Employee e0 JOIN e0.reports e1 JOIN e1.reports e2 JOIN e2.reports e3 " ++
      "JOIN e3.reports e4 JOIN e4.reports e5 JOIN e5.reports e6 JOIN e6.reports e7 JOIN e7.reports e8 " ++
      "JOIN e8.reports e9"
    let entity : Name := ⟨⟨"Employee", by decide⟩, by decide⟩
    let reports : Word := ⟨"reports", by decide⟩
    let metamodel := Metamodel.initial.withManaged employee
    Text.joinChain entity employeeVariable (fun _ => reports) 9 = source ∧ metamodel.IsBuilt ∧
    metamodel.Leads entity.text (fun _ => reports.text) (fun _ => employee) 9 ∧
    (∀ i ≤ 9, ∀ j ≤ 9, Text.sameWord (employeeVariable i).text (employeeVariable j).text = true → i = j) ∧
    ∃ outcome id, validate source RuleId.statement metamodel .standard = .ok outcome ∧
      outcome.problems = [outcome.tree.problemAt .collectionPathNotResolvable id] ∧
      (QueryContext.ofTree outcome.tree metamodel).variableType? "e8" = some employee ∧
      (QueryContext.ofTree outcome.tree metamodel).variableType? "e9" = none := by
  intro source entity reports metamodel
  have hsource : Text.joinChain entity employeeVariable (fun _ => reports) 9 = source := by decide +kernel
  have hmodel : metamodel.IsBuilt := .withManaged .initial employee
  have hleads : metamodel.Leads entity.text (fun _ => reports.text) (fun _ => employee) 9 :=
    ⟨rfl, fun _ _ => ⟨⟨"reports", .oneToMany, "acme.Employee"⟩, rfl, rfl, rfl⟩⟩
  have hdistinct : ∀ i ≤ 9, ∀ j ≤ 9,
      Text.sameWord (employeeVariable i).text (employeeVariable j).text = true → i = j := by decide +kernel
  obtain ⟨outcome, path, hvalidate, -, hproblems, htypes⟩ :=
    validate_joinChain hmodel hleads hdistinct
  refine ⟨hsource, hmodel, hleads, hdistinct, outcome, path 8, hsource ▸ hvalidate, hproblems, ?_, ?_⟩
  · exact htypes 8 (by decide)
  · exact htypes 9 (by decide)

end Jpql
