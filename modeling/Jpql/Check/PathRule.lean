import Jpql.Problem.Basic
import Jpql.Scope.Context

/-! # Rules on paths

What is wrong with a path at a place of a query, as functions of the context of that place.

* `statePath`: a path that must end at a single value, and at a basic one if associations are not
  allowed. A path without a mapping may still spell out a constant of an enum.
* `collectionPath?`: a path that must end at a collection, or at least at an association.
* `updateTarget?`: the target of a `SET` item, which goes through embedded fields only. -/

namespace Jpql

namespace Tree

/-- The path at a node: the node itself, or the path that a virtual variable stands for. -/
def pathBehind? (tree : Tree) (id : NodeId) : Option NodeId :=
  match tree.kind id with
  | .path .. => some id
  | .identifier _ true (some path) => some path
  | _ => none

/-- The node is a state-field path. -/
def isStatePath (tree : Tree) (id : NodeId) : Bool :=
  match tree.kind id with
  | .path .stateField .. => true
  | _ => false

/-- The state-field path at a node. -/
def statePathBehind? (tree : Tree) (id : NodeId) : Option NodeId :=
  (tree.pathBehind? id).filter tree.isStatePath

/-- Paths from this root are resolved. Those rooted at a key or an entry of a map are not. -/
def isResolvedRoot (tree : Tree) (root : NodeId) : Bool :=
  match tree.kind root with
  | .identifier .. | .treat .. => true
  | .value expression =>
    match tree.kind expression with
    | .identifier .. => true
    | _ => false
  | _ => false

end Tree

/-- What a state-field path comes to. -/
inductive PathVerdict where
  | valid
  | invalid (key : ProblemKey)
  /-- The path spells out a constant of an enum, or would if the enum had it. -/
  | constant (known : Bool) (enum : String)
deriving DecidableEq

namespace QueryContext

variable (context : QueryContext)

/-- What a state-field path comes to that leads to a field. -/
def mappedVerdict (associationAllowed : Bool) (mapping : Mapping) : PathVerdict :=
  if mapping.kind.isCollection then .invalid .statePathCollection
  else if mapping.kind.isRelationship && !associationAllowed then .invalid .statePathAssociation
  else if mapping.kind.isTransient then .invalid .statePathNoMapping
  else .valid

/-- What a state-field path comes to that leads to no field. -/
def unmappedVerdict (type? : Option TypeInfo) (segments : List (Located String)) : PathVerdict :=
  match type? with
  | none => .invalid .statePathNotResolvable
  | some type =>
    if type.isEnum then
      .constant (segments.getLast?.any fun last => type.constants.contains last.value) type.name
    else .invalid .statePathNoMapping

/-- **What a state-field path comes to.** -/
def statePath (id : NodeId) (segments : List (Located String)) (associationAllowed : Bool) :
    PathVerdict :=
  match context.mapping? id with
  | some mapping => mappedVerdict associationAllowed mapping
  | none => unmappedVerdict (context.pathType? id) segments

/-- **What is wrong with a path that must denote a collection**, or if `collectionOnly` does not
hold, at least an association. -/
def collectionPath? (id : NodeId) (collectionOnly : Bool) : Option ProblemKey :=
  match context.mapping? id with
  | none => some .collectionPathNotResolvable
  | some mapping =>
    if (context.mappingType? mapping).isNone then some .collectionPathNotResolvable
    else if mapping.kind.isCollection || (!collectionOnly && mapping.kind.isRelationship) then none
    else some .collectionPathNotCollection

/-- What is wrong with a target below a managed type. -/
def targetBelow? : ManagedType → List (Located String) → Option ProblemKey
  | _, [] => none
  | owner, segment :: rest =>
    match owner.mapping? segment.value with
    | none => some .statePathNotResolvable
    | some mapping =>
      if mapping.kind.isCollection || (!rest.isEmpty && !mapping.kind.isEmbedded) then
        some .updateTargetRelationship
      else if rest.isEmpty then none
      else
        match context.mappingManaged? mapping with
        | none => some .statePathNotResolvable
        | some embedded => targetBelow? embedded rest

/-- **What is wrong with the target of a `SET` item** that starts at a variable. -/
def updateTarget? (name : String) (segments : List (Located String)) : Option ProblemKey :=
  match context.variableType? name with
  | none => some .statePathNotResolvable
  | some owner => context.targetBelow? owner segments

end QueryContext

end Jpql
