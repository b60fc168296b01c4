/-!
The rules of the grammar: the kinds of inner node of a syntax tree, also used to name the places
at which a suggestion can be made.
-/
namespace SoqlAssist

inductive Rule where
  /-- A whole document: a query and the end of the text. -/
  | query
  /-- A unit `SELECT … FROM …`, at the top or in a select list. -/
  | innerQuery
  /-- A query of one column as the operand of `IN`. -/
  | semiJoin
  | selectExprs
  /-- An entry of a select list: a column, a call or a query in parentheses. -/
  | selectExpr
  | fromClause | fromExprs | fromExpr
  | usingScope
  | whereClause
  /-- Conditions joined by `AND` and `OR`. -/
  | whereExprs
  /-- One condition: a field, an operator and a value. -/
  | whereExpr
  | comparisonOperator
  /-- The values or the query in parentheses after `IN`, `INCLUDES` or `EXCLUDES`. -/
  | inList
  | distanceExpr | functionCall | literalValue | likeLiteral
  | withClause
  | groupByClause | groupByExprs
  | havingClause
  | orderByClause | orderByExpr | orderByField
  | limitClause | offsetClause
  | forClause
  | updateStatsClause
  /-- A path of identifiers with dots between. -/
  | field
  | identifier
  deriving DecidableEq, Repr

namespace Rule

def all : List Rule :=
  [.query, .innerQuery, .semiJoin, .selectExprs, .selectExpr, .fromClause, .fromExprs, .fromExpr,
    .usingScope, .whereClause, .whereExprs, .whereExpr, .comparisonOperator, .inList,
    .distanceExpr, .functionCall, .literalValue, .likeLiteral, .withClause, .groupByClause,
    .groupByExprs, .havingClause, .orderByClause, .orderByExpr, .orderByField, .limitClause,
    .offsetClause, .forClause, .updateStatsClause, .field, .identifier]

/-- The title of a rule: its words run together, each with a capital. -/
def title : Rule → String
  | .query => "Query"
  | .innerQuery => "InnerQuery"
  | .semiJoin => "SemiJoin"
  | .selectExprs => "SelectExprs"
  | .selectExpr => "SelectExpr"
  | .fromClause => "FromClause"
  | .fromExprs => "FromExprs"
  | .fromExpr => "FromExpr"
  | .usingScope => "UsingScope"
  | .whereClause => "WhereClause"
  | .whereExprs => "WhereExprs"
  | .whereExpr => "WhereExpr"
  | .comparisonOperator => "ComparisonOperator"
  | .inList => "InList"
  | .distanceExpr => "DistanceExpr"
  | .functionCall => "FunctionCall"
  | .literalValue => "LiteralValue"
  | .likeLiteral => "LikeLiteral"
  | .withClause => "WithClause"
  | .groupByClause => "GroupByClause"
  | .groupByExprs => "GroupByExprs"
  | .havingClause => "HavingClause"
  | .orderByClause => "OrderByClause"
  | .orderByExpr => "OrderByExpr"
  | .orderByField => "OrderByField"
  | .limitClause => "LimitClause"
  | .offsetClause => "OffsetClause"
  | .forClause => "ForClause"
  | .updateStatsClause => "UpdateStatsClause"
  | .field => "Field"
  | .identifier => "Identifier"

/-- The name of a rule in settings and answers: its words in small letters, joined by `_`. -/
def name : Rule → String
  | .query => "query"
  | .innerQuery => "inner_query"
  | .semiJoin => "semi_join"
  | .selectExprs => "select_exprs"
  | .selectExpr => "select_expr"
  | .fromClause => "from_clause"
  | .fromExprs => "from_exprs"
  | .fromExpr => "from_expr"
  | .usingScope => "using_scope"
  | .whereClause => "where_clause"
  | .whereExprs => "where_exprs"
  | .whereExpr => "where_expr"
  | .comparisonOperator => "comparison_operator"
  | .inList => "in_list"
  | .distanceExpr => "distance_expr"
  | .functionCall => "function_call"
  | .literalValue => "literal_value"
  | .likeLiteral => "like_literal"
  | .withClause => "with_clause"
  | .groupByClause => "group_by_clause"
  | .groupByExprs => "group_by_exprs"
  | .havingClause => "having_clause"
  | .orderByClause => "order_by_clause"
  | .orderByExpr => "order_by_expr"
  | .orderByField => "order_by_field"
  | .limitClause => "limit_clause"
  | .offsetClause => "offset_clause"
  | .forClause => "for_clause"
  | .updateStatsClause => "update_stats_clause"
  | .field => "field"
  | .identifier => "identifier"

def ofName? (s : String) : Option Rule :=
  all.find? (·.name == s)

/-- The rules that are a query of their own. -/
def isQueryScope : Rule → Bool
  | .innerQuery | .semiJoin => true
  | _ => false

end Rule

end SoqlAssist
