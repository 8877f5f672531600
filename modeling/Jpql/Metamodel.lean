/-! # Metamodels

A metamodel says what a query can talk about: the entities and embeddables of an application with
their mapped fields, and the types by name. It is a list of registrations; every look-up finds the
first one that fits, and finds nothing if none does.

* `Metamodel.entity?` looks up an entity by the name that a `FROM` clause uses, `managed?` an entity
  or embeddable by its class name, `type?` any type by its name.
* `ManagedType.mapping?` looks up a field. -/

namespace Jpql

/-- How a field is mapped. -/
inductive MappingKind where
  | id | basic | version | embedded
  | oneToOne | manyToOne | oneToMany | manyToMany
  | elementCollection | transient
deriving DecidableEq

namespace MappingKind

/-- The value of the field is a collection. -/
def isCollection : MappingKind → Bool
  | .oneToMany | .manyToMany | .elementCollection => true
  | _ => false

/-- The field refers to another entity. -/
def isRelationship : MappingKind → Bool
  | .oneToOne | .manyToOne | .oneToMany | .manyToMany => true
  | _ => false

/-- The fields of the value belong to the owner. -/
def isEmbedded (kind : MappingKind) : Bool := kind == .embedded

/-- The field is not stored. -/
def isTransient (kind : MappingKind) : Bool := kind == .transient

end MappingKind

/-- A mapped field. -/
structure Mapping where
  /-- The name of the field in queries. -/
  name : String
  kind : MappingKind
  /-- The name of its type; of a collection, the type of the elements. -/
  typeName : String
deriving DecidableEq

/-- An entity or an embeddable. -/
structure ManagedType where
  /-- The name in `FROM` clauses. -/
  name : String
  /-- The full class name. -/
  typeName : String
  isEntity : Bool
  mappings : List Mapping
deriving DecidableEq

namespace ManagedType

/-- An entity. -/
def entity (name typeName : String) (mappings : List Mapping) : ManagedType :=
  ⟨name, typeName, true, mappings⟩

/-- An embeddable. It has no name but that of its class. -/
def embeddable (typeName : String) (mappings : List Mapping) : ManagedType :=
  ⟨typeName, typeName, false, mappings⟩

/-- The field with exactly this name. -/
def mapping? (type : ManagedType) (field : String) : Option Mapping :=
  type.mappings.find? (·.name == field)

end ManagedType

/-- What a named type is. -/
inductive TypeKind where
  | basic
  | managed
  /-- An enum, with its constants in the order of their declaration. -/
  | enumeration (constants : List String)
deriving DecidableEq

/-- A named type. -/
structure TypeInfo where
  name : String
  kind : TypeKind
deriving DecidableEq

namespace TypeInfo

/-- The type is an enum. -/
def isEnum (type : TypeInfo) : Bool :=
  match type.kind with
  | .enumeration _ => true
  | _ => false

/-- The constants of an enum; other types have none. -/
def constants (type : TypeInfo) : List String :=
  match type.kind with
  | .enumeration constants => constants
  | _ => []

end TypeInfo

/-- What queries can talk about. -/
structure Metamodel where
  managedTypes : List ManagedType
  types : List TypeInfo

namespace Metamodel

/-- The types that need no registration. -/
def basicTypes : List String := [
  "boolean", "byte", "char", "short", "int", "long", "float", "double",
  "java.lang.Boolean", "java.lang.Byte", "java.lang.Character", "java.lang.Short",
  "java.lang.Integer", "java.lang.Long", "java.lang.Float", "java.lang.Double",
  "java.lang.String", "java.math.BigDecimal", "java.math.BigInteger",
  "java.util.Date", "java.util.Calendar",
  "java.sql.Date", "java.sql.Time", "java.sql.Timestamp",
  "java.time.LocalDate", "java.time.LocalTime", "java.time.LocalDateTime",
  "java.time.OffsetDateTime"]

/-- The metamodel that knows the basic types alone. -/
def initial : Metamodel := ⟨[], basicTypes.map (⟨·, .basic⟩)⟩

/-- Registers an entity or embeddable, and its class as a type. -/
def withManaged (model : Metamodel) (managed : ManagedType) : Metamodel :=
  ⟨model.managedTypes ++ [managed], model.types ++ [⟨managed.typeName, .managed⟩]⟩

/-- Registers an enum. -/
def withEnum (model : Metamodel) (name : String) (constants : List String) : Metamodel :=
  { model with types := model.types ++ [⟨name, .enumeration constants⟩] }

/-- Registers a basic type. -/
def withBasic (model : Metamodel) (name : String) : Metamodel :=
  { model with types := model.types ++ [⟨name, .basic⟩] }

/-- The managed types that are entities. -/
def entities (model : Metamodel) : List ManagedType := model.managedTypes.filter (·.isEntity)

/-- **The entity with a name.** -/
def entity? (model : Metamodel) (name : String) : Option ManagedType :=
  model.entities.find? (·.name == name)

/-- **The entity or embeddable with a class name.** -/
def managed? (model : Metamodel) (typeName : String) : Option ManagedType :=
  model.managedTypes.find? (·.typeName == typeName)

/-- **The type with a name.** -/
def type? (model : Metamodel) (name : String) : Option TypeInfo :=
  model.types.find? (·.name == name)

end Metamodel

end Jpql
