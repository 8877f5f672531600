import Jpql.Text.Fold

/-! # Keywords

The words of the query language that are not names. A word is recognised as a keyword whatever the
case of its letters.

* `Keyword.ofWord?` is the recognition, `Keyword.spelling` the canonical form in upper case;
  `ofWord?_spelling` says that the two agree.
* Some keywords are also names: those that act as keywords only in front of a parenthesis
  (`isFunctionName`), and a few that only matter inside one clause. The others are *reserved*. -/

namespace Jpql

/-- A keyword. In order: the words of statements and clauses, of conditions, of select expressions,
and of functions. -/
inductive Keyword where
  | select | from | where | group | by | having | order | asc | desc | nulls | first | last
  | update | set | delete | distinct | as | join | left | outer | inner | fetch | on | in
  | and | or | not | between | like | escape | is | null | empty | member | of | exists | all
  | any | some | true | false
  | object | new | case | when | then | else | end | coalesce | nullif
  | type | treat | key | value | entry | index | size | abs | sqrt | mod | length | locate
  | concat | substring | trim | leading | trailing | both | lower | upper | avg | sum | min | max
  | count | currentDate | currentTime | currentTimestamp | function
deriving DecidableEq

namespace Keyword

/-- The canonical spelling, in upper case. -/
def spelling : Keyword → String
  | .select => "SELECT"
  | .from => "FROM"
  | .where => "WHERE"
  | .group => "GROUP"
  | .by => "BY"
  | .having => "HAVING"
  | .order => "ORDER"
  | .asc => "ASC"
  | .desc => "DESC"
  | .nulls => "NULLS"
  | .first => "FIRST"
  | .last => "LAST"
  | .update => "UPDATE"
  | .set => "SET"
  | .delete => "DELETE"
  | .distinct => "DISTINCT"
  | .as => "AS"
  | .join => "JOIN"
  | .left => "LEFT"
  | .outer => "OUTER"
  | .inner => "INNER"
  | .fetch => "FETCH"
  | .on => "ON"
  | .in => "IN"
  | .and => "AND"
  | .or => "OR"
  | .not => "NOT"
  | .between => "BETWEEN"
  | .like => "LIKE"
  | .escape => "ESCAPE"
  | .is => "IS"
  | .null => "NULL"
  | .empty => "EMPTY"
  | .member => "MEMBER"
  | .of => "OF"
  | .exists => "EXISTS"
  | .all => "ALL"
  | .any => "ANY"
  | .some => "SOME"
  | .true => "TRUE"
  | .false => "FALSE"
  | .object => "OBJECT"
  | .new => "NEW"
  | .case => "CASE"
  | .when => "WHEN"
  | .then => "THEN"
  | .else => "ELSE"
  | .end => "END"
  | .coalesce => "COALESCE"
  | .nullif => "NULLIF"
  | .type => "TYPE"
  | .treat => "TREAT"
  | .key => "KEY"
  | .value => "VALUE"
  | .entry => "ENTRY"
  | .index => "INDEX"
  | .size => "SIZE"
  | .abs => "ABS"
  | .sqrt => "SQRT"
  | .mod => "MOD"
  | .length => "LENGTH"
  | .locate => "LOCATE"
  | .concat => "CONCAT"
  | .substring => "SUBSTRING"
  | .trim => "TRIM"
  | .leading => "LEADING"
  | .trailing => "TRAILING"
  | .both => "BOTH"
  | .lower => "LOWER"
  | .upper => "UPPER"
  | .avg => "AVG"
  | .sum => "SUM"
  | .min => "MIN"
  | .max => "MAX"
  | .count => "COUNT"
  | .currentDate => "CURRENT_DATE"
  | .currentTime => "CURRENT_TIME"
  | .currentTimestamp => "CURRENT_TIMESTAMP"
  | .function => "FUNCTION"

/-- Every keyword. -/
def list : List Keyword := [
  .select, .from, .where, .group, .by, .having, .order, .asc, .desc, .nulls, .first, .last,
  .update, .set, .delete, .distinct, .as, .join, .left, .outer, .inner, .fetch, .on, .in, .and,
  .or, .not, .between, .like, .escape, .is, .null, .empty, .member, .of, .exists, .all, .any,
  .some, .true, .false, .object, .new, .case, .when, .then, .else, .end, .coalesce, .nullif,
  .type, .treat, .key, .value, .entry, .index, .size, .abs, .sqrt, .mod, .length, .locate,
  .concat, .substring, .trim, .leading, .trailing, .both, .lower, .upper, .avg, .sum, .min, .max,
  .count, .currentDate, .currentTime, .currentTimestamp, .function]

/-- **The keyword a word stands for**, the case of ASCII letters aside. -/
def ofWord? (word : String) : Option Keyword :=
  let upper := Text.asciiUpper word
  list.find? (·.spelling == upper)

/-- Keywords that act as such only when a parenthesis follows. Elsewhere they are names, so that an
entity may have a field `size` or `type`. -/
def isFunctionName : Keyword → Bool
  | .type | .treat | .key | .value | .entry | .index | .size | .abs | .sqrt | .mod | .length
  | .locate | .concat | .substring | .trim | .lower | .upper | .avg | .sum | .min | .max | .count
  | .coalesce | .nullif | .function | .object => Bool.true
  | _ => Bool.false

/-- Keywords that can never name anything. -/
def isReserved (keyword : Keyword) : Bool :=
  match keyword with
  | .first | .last | .nulls | .leading | .trailing | .both => Bool.false
  | _ => !keyword.isFunctionName

theorem ofWord?_spelling (keyword : Keyword) : ofWord? keyword.spelling = Option.some keyword := by
  cases keyword <;> decide +kernel

theorem spelling_of_ofWord? {word : String} {keyword : Keyword}
    (h : ofWord? word = Option.some keyword) : keyword.spelling = Text.asciiUpper word := by
  simpa using List.find?_some h

end Keyword

end Jpql
