import Jpql.Text.Span

/-! # Node kinds

A query is read into a tree whose nodes live in one array; a node refers to its children by their
position there, its *id*. The kinds form a closed type, so that every pass over a tree is a match.

* `NodeKind` lists the kinds. An optional part of a construct is an `Option`, a comma-separated list
  a `List`.
* `NodeKind.children` gives the ids a kind holds, in the order of the query text.
* `NodeKind.name` is the name of the kind in answers and messages. -/

namespace Jpql

/-- The position of a node in the array of its tree. -/
abbrev NodeId := Nat

/-- The six comparisons. -/
inductive Comparison where
  | equal | notEqual | less | lessEqual | greater | greaterEqual
deriving DecidableEq

/-- Comparisons that need ordered, hence basic, operands. -/
def Comparison.isOrdering : Comparison → Bool
  | .less | .lessEqual | .greater | .greaterEqual => true
  | .equal | .notEqual => false

/-- How a comparison is written. -/
def Comparison.symbol : Comparison → String
  | .equal => "="
  | .notEqual => "<>"
  | .less => "<"
  | .lessEqual => "<="
  | .greater => ">"
  | .greaterEqual => ">="

/-- The four arithmetic operations. -/
inductive Arithmetic where
  | add | subtract | multiply | divide
deriving DecidableEq

/-- The connectives that form flat chains. -/
inductive Connective where
  | and | or
deriving DecidableEq

/-- How a join is introduced. -/
inductive JoinType where
  | join | inner | left | leftOuter
deriving DecidableEq

/-- The direction of an `ORDER BY` item. -/
inductive SortOrder where
  | unspecified | ascending | descending
deriving DecidableEq

/-- Where an `ORDER BY` item puts nulls. -/
inductive NullsOrder where
  | unspecified | first | last
deriving DecidableEq

/-- Aggregate functions. -/
inductive AggregateFunction where
  | avg | sum | min | max | count
deriving DecidableEq

/-- Functions of one basic operand. -/
inductive BasicFunction where
  | abs | sqrt | length | lower | upper
deriving DecidableEq

/-- Which side of a string `TRIM` works on. -/
inductive TrimSide where
  | unspecified | leading | trailing | both
deriving DecidableEq

/-- The date and time words. -/
inductive Moment where
  | currentDate | currentTime | currentTimestamp
deriving DecidableEq

/-- Literals that are keywords. -/
inductive WordLiteral where
  | true | false | null
deriving DecidableEq

/-- The quantifier in front of a compared subquery. -/
inductive Quantifier where
  | all | any | some
deriving DecidableEq

/-- What the position of a path asks it to denote: a single value, or a collection. -/
inductive PathKind where
  | stateField | collectionValued
deriving DecidableEq

/-- The kind of a node, with the ids of its children. -/
inductive NodeKind where
  /-- The root of a tree; `unknown` holds the text left over after the statement. -/
  | query (statement unknown : Option NodeId)
  | selectStatement (select : NodeId)
      (fromClause whereClause groupBy having orderBy : Option NodeId)
  /-- A subquery. -/
  | simpleSelectStatement (select : NodeId) (fromClause whereClause groupBy having : Option NodeId)
  | updateStatement (update : NodeId) (whereClause : Option NodeId)
  | deleteStatement (delete : NodeId) (whereClause : Option NodeId)
  | selectClause (distinct : Bool) (items : List NodeId)
  | simpleSelectClause (distinct : Bool) (items : List NodeId)
  | fromClause (declarations : List NodeId)
  | simpleFromClause (declarations : List NodeId)
  | whereClause (condition : NodeId)
  | havingClause (condition : NodeId)
  | groupByClause (items : List NodeId)
  | orderByClause (items : List NodeId)
  | orderByItem (expression : NodeId) (order : SortOrder) (nulls : NullsOrder)
  | updateClause (range : NodeId) (items : List NodeId)
  | updateItem (path value : NodeId)
  | deleteClause (range : NodeId)
  | onClause (condition : NodeId)
  /-- An entry of a `FROM` clause: a range with its joins. -/
  | variableDeclaration (range : NodeId) (joins : List NodeId)
  /-- `Employee e`, or in a subquery the derived form `e.projects p`. -/
  | rangeDeclaration (root : NodeId) (hasAs : Bool) (declared : Option NodeId)
  /-- `IN(e.projects) p`. -/
  | collectionDeclaration (path : NodeId) (hasAs : Bool) (declared : Option NodeId)
  | join (type : JoinType) (fetch : Bool) (path : NodeId) (hasAs : Bool)
      (declared on : Option NodeId)
  /-- The name of an entity. -/
  | schemaName (name : String)
  /-- An identification variable, used or declared. A *virtual* one is not written: it stands for
  the entity of an `UPDATE` or `DELETE` without alias, or, with `path`, for a bare field of it. -/
  | identifier (name : String) (isVirtual : Bool) (path : Option NodeId)
  | resultVariable (expression : NodeId) (hasAs : Bool) (declared : NodeId)
  | entityType (name : String)
  | constructor (className : String) (arguments : List NodeId)
  | object (expression : NodeId)
  /-- A parenthesised expression. -/
  | group (expression : NodeId)
  | logical (connective : Connective) (left right : NodeId)
  | not (expression : NodeId)
  | comparison (left : NodeId) (operator : Comparison) (right : NodeId)
  | between (expression : NodeId) (negated : Bool) (lower upper : NodeId)
  | like (expression : NodeId) (negated : Bool) (pattern : NodeId) (escape : Option NodeId)
  | inList (expression : NodeId) (negated : Bool) (items : List NodeId)
  | nullCheck (expression : NodeId) (negated : Bool)
  | emptyCheck (expression : NodeId) (negated : Bool)
  | member (entity : NodeId) (negated hasOf : Bool) (collection : NodeId)
  | existence (negated : Bool) (subquery : NodeId)
  | quantified (quantifier : Quantifier) (subquery : NodeId)
  | arithmetic (operation : Arithmetic) (left right : NodeId)
  /-- A sign in front of an operand. -/
  | sign (negative : Bool) (expression : NodeId)
  | basicFunction (function : BasicFunction) (expression : NodeId)
  | size (expression : NodeId)
  | index (expression : NodeId)
  | key (expression : NodeId)
  | value (expression : NodeId)
  | entry (expression : NodeId)
  | type (expression : NodeId)
  | mod (first second : NodeId)
  | locate (first second : NodeId) (third : Option NodeId)
  | substring (first second : NodeId) (third : Option NodeId)
  | concat (arguments : List NodeId)
  | trim (side : TrimSide) (character : Option NodeId) (hasFrom : Bool) (string : NodeId)
  | aggregate (function : AggregateFunction) (distinct : Bool) (expression : NodeId)
  | coalesce (arguments : List NodeId)
  | nullif (first second : NodeId)
  | caseOf (operand : Option NodeId) (whens : List NodeId) (otherwise : NodeId)
  | when (condition result : NodeId)
  | treat (path : NodeId) (hasAs : Bool) (entityType : NodeId)
  | call (name : String) (arguments : List NodeId)
  /-- `root.segment.segment`. -/
  | path (kind : PathKind) (root : NodeId) (segments : List (Located String)) (endsWithDot : Bool)
  | number (text : String)
  | string (value : String)
  | wordLiteral (literal : WordLiteral)
  | moment (moment : Moment)
  | parameter (name : String) (positional : Bool)
  /-- Text that has no place in the grammar. -/
  | unknown (text : String)
  /-- A required expression that is missing. -/
  | bad

namespace NodeKind

/-- **The children of a node**, in the order of the query text. -/
def children : NodeKind → List NodeId
  | .query a b => a.toList ++ b.toList
  | .selectStatement a b c d e f =>
    a :: (b.toList ++ c.toList ++ d.toList ++ e.toList ++ f.toList)
  | .simpleSelectStatement a b c d e => a :: (b.toList ++ c.toList ++ d.toList ++ e.toList)
  | .updateStatement a b | .deleteStatement a b => a :: b.toList
  | .selectClause _ as | .simpleSelectClause _ as | .groupByClause as | .orderByClause as
  | .fromClause as | .simpleFromClause as => as
  | .whereClause a | .havingClause a | .onClause a | .orderByItem a _ _ | .deleteClause a => [a]
  | .updateClause a bs | .variableDeclaration a bs => a :: bs
  | .updateItem a b | .resultVariable a _ b => [a, b]
  | .rangeDeclaration a _ b | .collectionDeclaration a _ b => a :: b.toList
  | .join _ _ a _ b c => a :: (b.toList ++ c.toList)
  | .identifier _ _ a => a.toList
  | .constructor _ as | .concat as | .coalesce as | .call _ as => as
  | .object a | .group a | .not a | .nullCheck a _ | .emptyCheck a _ | .sign _ a
  | .basicFunction _ a | .size a | .index a | .key a | .value a | .entry a | .type a
  | .aggregate _ _ a | .existence _ a | .quantified _ a | .path _ a _ _ => [a]
  | .logical _ a b | .comparison a _ b | .arithmetic _ a b | .mod a b | .nullif a b | .when a b
  | .member a _ _ b | .treat a _ b => [a, b]
  | .between a _ b c => [a, b, c]
  | .like a _ b c => a :: b :: c.toList
  | .inList a _ bs => a :: bs
  | .locate a b c | .substring a b c => a :: b :: c.toList
  | .trim _ a _ b => a.toList ++ [b]
  | .caseOf a bs c => a.toList ++ bs ++ [c]
  | .schemaName _ | .entityType _ | .number _ | .string _ | .wordLiteral _ | .moment _
  | .parameter _ _ | .unknown _ | .bad => []

/-- **The name of a kind** in answers and messages. -/
def name : NodeKind → String
  | .query .. => "jpql_expression"
  | .selectStatement .. => "select_statement"
  | .simpleSelectStatement .. => "simple_select_statement"
  | .updateStatement .. => "update_statement"
  | .deleteStatement .. => "delete_statement"
  | .selectClause .. => "select_clause"
  | .simpleSelectClause .. => "simple_select_clause"
  | .fromClause _ => "from_clause"
  | .simpleFromClause _ => "simple_from_clause"
  | .whereClause _ => "where_clause"
  | .havingClause _ => "having_clause"
  | .groupByClause _ => "group_by_clause"
  | .orderByClause _ => "order_by_clause"
  | .orderByItem .. => "order_by_item"
  | .updateClause .. => "update_clause"
  | .updateItem .. => "update_item"
  | .deleteClause _ => "delete_clause"
  | .onClause _ => "on_clause"
  | .variableDeclaration .. => "identification_variable_declaration"
  | .rangeDeclaration .. => "range_variable_declaration"
  | .collectionDeclaration .. => "collection_member_declaration"
  | .join .. => "join"
  | .schemaName _ => "abstract_schema_name"
  | .identifier .. => "identification_variable"
  | .resultVariable .. => "result_variable"
  | .entityType _ => "entity_type_literal"
  | .constructor .. => "constructor_expression"
  | .object _ => "object_expression"
  | .group _ => "sub_expression"
  | .logical .and _ _ => "and"
  | .logical .or _ _ => "or"
  | .not _ => "not"
  | .comparison .. => "comparison"
  | .between .. => "between"
  | .like .. => "like"
  | .inList .. => "in"
  | .nullCheck .. => "null_comparison"
  | .emptyCheck .. => "empty_collection_comparison"
  | .member .. => "collection_member"
  | .existence .. => "exists"
  | .quantified .. => "all_or_any"
  | .arithmetic .add _ _ => "addition"
  | .arithmetic .subtract _ _ => "subtraction"
  | .arithmetic .multiply _ _ => "multiplication"
  | .arithmetic .divide _ _ => "division"
  | .sign .. => "arithmetic_factor"
  | .basicFunction .abs _ => "abs"
  | .basicFunction .sqrt _ => "sqrt"
  | .basicFunction .length _ => "length"
  | .basicFunction .lower _ => "lower"
  | .basicFunction .upper _ => "upper"
  | .size _ => "size"
  | .index _ => "index"
  | .key _ => "key"
  | .value _ => "value"
  | .entry _ => "entry"
  | .type _ => "type"
  | .mod .. => "mod"
  | .locate .. => "locate"
  | .substring .. => "substring"
  | .concat _ => "concat"
  | .trim .. => "trim"
  | .aggregate .. => "aggregate"
  | .coalesce _ => "coalesce"
  | .nullif .. => "nullif"
  | .caseOf .. => "case"
  | .when .. => "when"
  | .treat .. => "treat"
  | .call .. => "function"
  | .path .stateField .. => "state_field_path"
  | .path .collectionValued .. => "collection_valued_path"
  | .number _ => "numeric_literal"
  | .string _ => "string_literal"
  | .wordLiteral _ => "keyword_literal"
  | .moment _ => "date_time"
  | .parameter .. => "input_parameter"
  | .unknown _ => "unknown"
  | .bad => "bad"

/-- The node is a path. -/
def isPath : NodeKind → Bool
  | .path .. => true
  | _ => false

/-- The node is a statement or a subquery. -/
def isStatement : NodeKind → Bool
  | .selectStatement .. | .simpleSelectStatement .. | .updateStatement .. | .deleteStatement .. =>
    true
  | _ => false

/-- A path read as collection-valued; other kinds are kept. Only the position of a path tells the
two readings apart. -/
def asCollection : NodeKind → NodeKind
  | .path _ root segments dot => .path .collectionValued root segments dot
  | kind => kind

@[simp] theorem children_asCollection (kind : NodeKind) :
    kind.asCollection.children = kind.children := by
  cases kind <;> rfl

end NodeKind

end Jpql
