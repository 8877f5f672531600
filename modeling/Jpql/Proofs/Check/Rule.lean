import Jpql.Check.NameRule
import Mathlib.Tactic.Common

/-! # What the rules find

The rules on paths and names find problems of their own kind: none of them is a problem with a
variable as such, and none says that something lies too deep. -/

namespace Jpql

namespace ProblemKey

/-- Problems with a variable as such. -/
def isVariable : ProblemKey → Bool
  | .variableNotDeclared | .variableDuplicate | .indexWrongVariable => true
  | _ => false

/-- Problems with a path, with the name of an entity or a type, or with the order of declarations. -/
def isFinding (key : ProblemKey) : Bool := !key.isVariable && key != .traversalTooDeep

/-- Problems with a path, or with the name of an entity or a type. -/
def isReference (key : ProblemKey) : Bool := key.isFinding && key != .variableWrongOrder

theorem isFinding_of_isReference {key : ProblemKey} (h : key.isReference = true) :
    key.isFinding = true := (Bool.and_eq_true_iff.mp h).1

theorem ne_of_isReference {key : ProblemKey} (h : key.isReference = true) :
    key ≠ .variableNotDeclared ∧ key ≠ .variableWrongOrder := by
  constructor <;> rintro rfl <;> cases h

end ProblemKey

namespace QueryContext

variable {context : QueryContext} {id : NodeId} {key : ProblemKey} {segments : List (Located String)}

theorem statePath_isReference {associationAllowed : Bool}
    (h : context.statePath id segments associationAllowed = .invalid key) :
    key.isReference = true := by
  unfold statePath mappedVerdict unmappedVerdict at h
  split at h
  · split_ifs at h
    all_goals cases h; rfl
  · split at h
    · cases h
      rfl
    · split_ifs at h
      all_goals cases h; rfl

theorem collectionPath?_isReference {collectionOnly : Bool}
    (h : context.collectionPath? id collectionOnly = some key) : key.isReference = true := by
  unfold collectionPath? at h
  split at h
  · cases h
    rfl
  · split_ifs at h
    all_goals cases h; rfl

theorem targetBelow?_isReference {owner : ManagedType}
    (h : context.targetBelow? owner segments = some key) : key.isReference = true := by
  induction segments generalizing owner with
  | nil => cases h
  | cons segment rest ih =>
    rw [targetBelow?] at h
    split at h
    · cases h
      rfl
    · split_ifs at h
      · cases h
        rfl
      · split at h
        · cases h
          rfl
        · exact ih h

theorem updateTarget?_isReference {name : String} (h : context.updateTarget? name segments = some key) :
    key.isReference = true := by
  unfold updateTarget? at h
  split at h
  · cases h
    rfl
  · exact targetBelow?_isReference h

theorem schemaName?_isReference {name : String} (h : context.schemaName? name = some key) :
    key.isReference = true := by
  unfold schemaName? at h
  split at h
  · cases h
  · split at h
    · cases h
      rfl
    · split at h
      · cases h
        rfl
      · split_ifs at h
        cases h
        rfl

end QueryContext

end Jpql
