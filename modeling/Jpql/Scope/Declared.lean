import Jpql.Text.UpperCase
import Jpql.Tree.Kind

/-! # Declared variables

A table of identification variables, each with the nodes that declare it. Variables are the same if
their upper case is; the table is kept in the order of the upper-cased names.

* `DeclaredVariables.contains_insert`: after an insertion the table contains what it contained
  before, and the new name.
* `DeclaredVariables.duplicates`: the variables with more than one declaring node. -/

namespace Jpql

/-- Declared variables with their declaring nodes, by upper-cased name and in order. -/
structure DeclaredVariables where
  entries : List (String × List NodeId)

namespace DeclaredVariables

/-- A table without variables. -/
def empty : DeclaredVariables := ⟨[]⟩

/-- Adds a node under a key, in front of the first larger key if the key is new. -/
def insertKey (key : String) (node : NodeId) :
    List (String × List NodeId) → List (String × List NodeId)
  | [] => [(key, [node])]
  | (other, nodes) :: rest =>
    if key = other then (other, nodes ++ [node]) :: rest
    else if key < other then (key, [node]) :: (other, nodes) :: rest
    else (other, nodes) :: insertKey key node rest

/-- **Adds a declaration of a variable.** -/
def insert (table : DeclaredVariables) (name : String) (node : NodeId) : DeclaredVariables :=
  ⟨insertKey (Text.upperCase name) node table.entries⟩

/-- **A variable is declared.** -/
def contains (table : DeclaredVariables) (name : String) : Bool :=
  table.entries.any (·.1 == Text.upperCase name)

/-- How many variables are declared. -/
def size (table : DeclaredVariables) : Nat := table.entries.length

/-- **The variables declared more than once**, with the nodes that declare them. -/
def duplicates (table : DeclaredVariables) : List (String × List NodeId) :=
  table.entries.filter (1 < ·.2.length)

theorem any_insertKey (key other : String) (node : NodeId) (entries : List (String × List NodeId)) :
    (insertKey key node entries).any (·.1 == other) =
      (key == other || entries.any (·.1 == other)) := by
  induction entries with
  | nil => simp [insertKey]
  | cons entry rest ih =>
    obtain ⟨first, nodes⟩ := entry
    simp only [insertKey]
    split
    · next h => subst h; simp
    · split
      · simp
      · simp only [List.any_cons, ih]
        rw [← Bool.or_assoc, Bool.or_comm (first == other), Bool.or_assoc]

theorem contains_insert (table : DeclaredVariables) (name other : String) (node : NodeId) :
    (table.insert name node).contains other =
      (Text.upperCase name == Text.upperCase other || table.contains other) :=
  any_insertKey _ _ _ _

end DeclaredVariables

end Jpql
