/-! # Problem keys

What can be wrong with a query, one constructor for each cause. `ProblemKey.messageKey` is the
stable dotted name of a cause, `ProblemKey.template` its wording, with numbered places for the
arguments of a problem, and `ProblemKey.category` the phase that reports it. -/

namespace Jpql

/-- Whether a problem lies in the text of a query or in its meaning. -/
inductive ProblemCategory where
  /-- The text cannot be read. -/
  | grammatical
  /-- The text can be read, but breaks a rule of scoping or typing. -/
  | semantic
deriving DecidableEq

/-- The name of a category in answers. -/
def ProblemCategory.name : ProblemCategory → String
  | .grammatical => "syntax"
  | .semantic => "semantic"

/-- A cause of problems. In order: of the scanner, of the grammar, of scoping, of path typing, of
names, of update targets, and of the depth limit of validation. -/
inductive ProblemKey where
  | invalidCharacter | unterminatedString
  | unknownExpression | missingExpression | missingClause | expectedToken | expressionNotAllowed
  | missingVariable | invalidStatement | nestingTooDeep
  | variableNotDeclared | variableDuplicate | variableWrongOrder
  | statePathAssociation | statePathCollection | statePathNoMapping | statePathNotResolvable
  | statePathInvalidConstant | collectionPathNotResolvable | collectionPathNotCollection
  | schemaNameInvalid | notRelationship | entityTypeNotResolvable | indexWrongVariable
  | updateTargetRelationship
  | traversalTooDeep
deriving DecidableEq

namespace ProblemKey

/-- The stable dotted name of a cause. -/
def messageKey : ProblemKey → String
  | .invalidCharacter => "syntax.invalid_character"
  | .unterminatedString => "syntax.unterminated_string"
  | .unknownExpression => "syntax.unknown_expression"
  | .missingExpression => "syntax.missing_expression"
  | .missingClause => "syntax.missing_clause"
  | .expectedToken => "syntax.expected_token"
  | .expressionNotAllowed => "syntax.expression_not_allowed"
  | .missingVariable => "syntax.missing_identification_variable"
  | .invalidStatement => "syntax.invalid_statement"
  | .nestingTooDeep => "syntax.nesting_too_deep"
  | .variableNotDeclared => "identification_variable.not_declared"
  | .variableDuplicate => "identification_variable.duplicate"
  | .variableWrongOrder => "identification_variable.wrong_declaration_order"
  | .statePathAssociation => "state_field_path.association_field"
  | .statePathCollection => "state_field_path.collection_type"
  | .statePathNoMapping => "state_field_path.no_mapping"
  | .statePathNotResolvable => "state_field_path.not_resolvable"
  | .statePathInvalidConstant => "state_field_path.invalid_enum_constant"
  | .collectionPathNotResolvable => "collection_valued_path.not_resolvable"
  | .collectionPathNotCollection => "collection_valued_path.not_collection_type"
  | .schemaNameInvalid => "abstract_schema_name.invalid"
  | .notRelationship => "path.not_relationship_mapping"
  | .entityTypeNotResolvable => "entity_type_literal.not_resolvable"
  | .indexWrongVariable => "index.wrong_variable"
  | .updateTargetRelationship => "update_item.relationship_path_expression"
  | .traversalTooDeep => "semantic.traversal_too_deep"

/-- The phase that reports a cause. -/
def category : ProblemKey → ProblemCategory
  | .invalidCharacter | .unterminatedString | .unknownExpression | .missingExpression
  | .missingClause | .expectedToken | .expressionNotAllowed | .missingVariable | .invalidStatement
  | .nestingTooDeep => .grammatical
  | _ => .semantic

/-- The wording of a cause. A number in curly brackets is the place of an argument. -/
def template : ProblemKey → String
  | .invalidCharacter => "invalid character '\x7b0\x7d'"
  | .unterminatedString => "string literal is not terminated"
  | .unknownExpression => "'\x7b0\x7d' is not a valid expression"
  | .missingExpression => "missing \x7b0\x7d"
  | .missingClause => "the \x7b0\x7d clause is missing"
  | .expectedToken => "expected \x7b0\x7d"
  | .expressionNotAllowed => "'\x7b0\x7d' is not allowed in \x7b1\x7d"
  | .missingVariable => "an identification variable is missing"
  | .invalidStatement => "a query must start with SELECT, UPDATE or DELETE"
  | .nestingTooDeep => "the query is nested more than \x7b0\x7d levels deep"
  | .variableNotDeclared =>
    "the identification variable '\x7b0\x7d' is not declared in the FROM clause"
  | .variableDuplicate => "the identification variable '\x7b0\x7d' is declared more than once"
  | .variableWrongOrder =>
    "the identification variable '\x7b0\x7d' is used before it is declared"
  | .statePathAssociation =>
    "'\x7b0\x7d' navigates to an association, which is not allowed here"
  | .statePathCollection =>
    "'\x7b0\x7d' resolves to a collection, which is not allowed here"
  | .statePathNoMapping => "'\x7b0\x7d' does not resolve to a mapped field"
  | .statePathNotResolvable => "'\x7b0\x7d' cannot be resolved"
  | .statePathInvalidConstant => "'\x7b0\x7d' is not a constant of the enum \x7b1\x7d"
  | .collectionPathNotResolvable => "'\x7b0\x7d' cannot be resolved"
  | .collectionPathNotCollection =>
    "'\x7b0\x7d' does not resolve to a collection-valued field"
  | .schemaNameInvalid => "'\x7b0\x7d' is not a known entity"
  | .notRelationship => "'\x7b0\x7d' is not a relationship"
  | .entityTypeNotResolvable => "'\x7b0\x7d' is not a known entity type"
  | .indexWrongVariable =>
    "INDEX requires a collection identification variable, found '\x7b0\x7d'"
  | .updateTargetRelationship =>
    "'\x7b0\x7d' is not an updatable path; only embedded fields may be traversed"
  | .traversalTooDeep =>
    "the expression is nested more than \x7b0\x7d levels deep and was not validated"

end ProblemKey

end Jpql
