import Jpql.Grammar.Basic

/-! # The standard grammar

The rules of the query language, version 2.1. Any of them can be the start of a text, so that
fragments can be read on their own. `Grammar.standard_verified` says that the table passes the
verification of `GrammarBuilder`, `Grammar.standard_registers` that the readers find their rules in
it. -/

namespace Jpql

namespace RuleId

/-- A whole statement. -/
def statement := "ql_statement"
/-- A subquery. -/
def subquery := "subquery"
/-- A condition. -/
def conditional := "conditional_expression"
/-- An expression with a single value. -/
def scalar := "scalar_expression"
/-- An item of a `SELECT` clause. -/
def select := "select_expression"
/-- An item of the `SELECT` clause of a subquery. -/
def simpleSelect := "simple_select_expression"
/-- The right side of a comparison. -/
def comparisonRight := "comparison_expression_right"
/-- A literal. -/
def literal := "literal"
/-- An input parameter. -/
def parameter := "input_parameter"
/-- A variable or a path. -/
def path := "path_expression"
/-- Functions with a numeric value. -/
def numericFunction := "functions_returning_numerics"
/-- Functions with a string value. -/
def stringFunction := "functions_returning_strings"
/-- The date and time words. -/
def moment := "functions_returning_datetime"
/-- Aggregate functions. -/
def aggregate := "aggregate_expression"
/-- `CASE`, `COALESCE` and `NULLIF`. -/
def caseOf := "case_expression"
/-- `TYPE`. -/
def type := "type_expression"
/-- `KEY` and `VALUE`. -/
def qualifiedVariable := "qualified_identification_variable"
/-- `TREAT`. -/
def treat := "treat_expression"
/-- Calls of functions by name. -/
def call := "function_expression"
/-- Parenthesised expressions. -/
def group := "sub_expression"
/-- An item of `GROUP BY`. -/
def groupByItem := "group_by_item"
/-- An item of `ORDER BY`. -/
def orderByItem := "order_by_item"
/-- An item of `IN`. -/
def inItem := "in_item"
/-- The new value of a `SET` item. -/
def newValue := "new_value"
/-- An argument of a constructor. -/
def constructorItem := "constructor_item"
/-- What a join goes to. -/
def joinPath := "join_association_path"

end RuleId

namespace Grammar

/-- The factories of the standard grammar. -/
def standardFactories : List Factory := [
  .ofKeywords "select_statement" .selectStatement [.select],
  .ofKeywords "update_statement" .updateStatement [.update],
  .ofKeywords "delete_statement" .deleteStatement [.delete],
  .ofKeywords "simple_select_statement" .simpleSelectStatement [.select],
  ⟨"sub_expression_factory", .group, [.openParen]⟩,
  ⟨"path_or_variable", .path, [.identifier]⟩,
  ⟨"numeric_literal", .number, [.number]⟩,
  ⟨"string_literal", .string, [.string]⟩,
  .ofKeywords "keyword_literal" .wordLiteral [.true, .false, .null],
  ⟨"input_parameter_factory", .parameter, [.parameter]⟩,
  .ofKeywords "date_time" .moment [.currentDate, .currentTime, .currentTimestamp],
  .ofKeywords "abs" .abs [.abs],
  .ofKeywords "sqrt" .sqrt [.sqrt],
  .ofKeywords "mod" .mod [.mod],
  .ofKeywords "length" .length [.length],
  .ofKeywords "locate" .locate [.locate],
  .ofKeywords "size" .size [.size],
  .ofKeywords "index" .index [.index],
  .ofKeywords "concat" .concat [.concat],
  .ofKeywords "substring" .substring [.substring],
  .ofKeywords "trim" .trim [.trim],
  .ofKeywords "lower" .lower [.lower],
  .ofKeywords "upper" .upper [.upper],
  .ofKeywords "aggregate" .aggregate [.avg, .sum, .min, .max, .count],
  .ofKeywords "case" .caseOf [.case],
  .ofKeywords "coalesce" .coalesce [.coalesce],
  .ofKeywords "nullif" .nullif [.nullif],
  .ofKeywords "type" .type [.type],
  .ofKeywords "treat" .treat [.treat],
  .ofKeywords "key" .key [.key],
  .ofKeywords "value" .value [.value],
  .ofKeywords "entry" .entry [.entry],
  .ofKeywords "function" .call [.function],
  .ofKeywords "exists" .existence [.exists],
  .ofKeywords "all_or_any" .quantified [.all, .any, .some],
  .ofKeywords "object" .object [.object],
  .ofKeywords "constructor" .constructor [.new]]

/-- The rules of the standard grammar: first those that own factories only, then those that combine
others, then the statements. -/
def standardRules : List Rule := [
  ⟨RuleId.literal, [], ["numeric_literal", "string_literal", "keyword_literal"]⟩,
  ⟨RuleId.parameter, [], ["input_parameter_factory"]⟩,
  ⟨RuleId.path, [], ["path_or_variable"]⟩,
  ⟨RuleId.numericFunction, [], ["abs", "sqrt", "mod", "length", "locate", "size", "index"]⟩,
  ⟨RuleId.stringFunction, [], ["concat", "substring", "trim", "lower", "upper"]⟩,
  ⟨RuleId.moment, [], ["date_time"]⟩,
  ⟨RuleId.aggregate, [], ["aggregate"]⟩,
  ⟨RuleId.caseOf, [], ["case", "coalesce", "nullif"]⟩,
  ⟨RuleId.type, [], ["type"]⟩,
  ⟨RuleId.qualifiedVariable, [], ["key", "value"]⟩,
  ⟨RuleId.treat, [], ["treat"]⟩,
  ⟨RuleId.call, [], ["function"]⟩,
  ⟨RuleId.group, [], ["sub_expression_factory"]⟩,
  ⟨RuleId.scalar,
    [RuleId.literal, RuleId.parameter, RuleId.path, RuleId.numericFunction, RuleId.stringFunction,
      RuleId.moment, RuleId.aggregate, RuleId.caseOf, RuleId.type, RuleId.qualifiedVariable,
      RuleId.call, RuleId.group], []⟩,
  ⟨RuleId.conditional, [RuleId.scalar], ["exists"]⟩,
  ⟨RuleId.select, [RuleId.scalar], ["object", "constructor", "entry"]⟩,
  ⟨RuleId.simpleSelect, [RuleId.scalar], []⟩,
  ⟨RuleId.constructorItem, [RuleId.scalar], []⟩,
  ⟨RuleId.comparisonRight, [RuleId.scalar], ["all_or_any"]⟩,
  ⟨RuleId.groupByItem, [RuleId.path, RuleId.qualifiedVariable], []⟩,
  ⟨RuleId.orderByItem, [RuleId.scalar], []⟩,
  ⟨RuleId.inItem, [RuleId.literal, RuleId.parameter, RuleId.path, RuleId.group], []⟩,
  ⟨RuleId.newValue, [RuleId.scalar], []⟩,
  ⟨RuleId.joinPath, [RuleId.path, RuleId.treat], []⟩,
  ⟨RuleId.subquery, [], ["simple_select_statement"]⟩,
  ⟨RuleId.statement, [], ["select_statement", "update_statement", "delete_statement"]⟩]

/-- **The standard grammar.** -/
def standard : Grammar := ⟨standardRules, standardFactories⟩

/-- Every id that the standard grammar mentions is registered. -/
theorem standard_verified :
    GrammarBuilder.build ⟨standardRules, standardFactories⟩ = .ok standard := by
  have h : standardRules.findSome?
      (GrammarBuilder.dangling? ⟨standardRules, standardFactories⟩) = none := by decide +kernel
  simp [GrammarBuilder.build, h, standard]

/-- Every rule that a reader starts from or passes on is registered. -/
theorem standard_registers {rule : String} (h : rule ∈ [RuleId.statement, RuleId.subquery,
      RuleId.conditional, RuleId.scalar, RuleId.select, RuleId.simpleSelect, RuleId.comparisonRight,
      RuleId.path, RuleId.group, RuleId.groupByItem, RuleId.orderByItem, RuleId.inItem,
      RuleId.newValue, RuleId.constructorItem, RuleId.joinPath]) :
    (standard.rule? rule).isSome = true := by
  revert rule
  decide +kernel

end Grammar

end Jpql
