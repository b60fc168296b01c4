import SoqlAssist.Grammar.Problem
import SoqlAssist.Grammar.Rule

/-!
The grammar as a table. A goal is a part of a query that is still to be read; `plan` says, from the
kinds of the next two visible tokens, what a goal becomes: either other goals, before any token is
taken, or the goals that remain once the next token is taken. A goal whose token is missing reports
the problem and ends, so that reading goes on with the goals behind it.
-/
namespace SoqlAssist.Grammar

/-- A part of a query still to be read. -/
inductive Goal where
  | query
  /-- Whatever stands between a query and the end of the text. -/
  | trailing
  | skipRest
  | innerQuery
  | selectExprs | moreColumns | selectExpr
  /-- The query in parentheses in a select list. -/
  | subquery
  | functionCall
  /-- The argument of a call, if there is one. -/
  | argument
  | alias
  | field
  /-- The further names of a path. -/
  | dotted
  | afterDot
  | identifier
  | fromPart | fromExprs | moreObjects | fromExpr
  | clauses
  | whereExprs | moreConditions | condition | whereExpr
  /-- The operator and the value of a condition. -/
  | comparison
  | literalValue
  /-- The count of a date range such as `LAST_N_DAYS:30`. -/
  | rangeCount
  | number
  | signedNumber
  | likeLiteral
  | inList | inBody | moreValues
  | semiField | semiWhere
  | geolocation
  /-- The filter after `WITH`, with this many parentheses open. -/
  | withBody (depth : Nat)
  | grouping | groupByExprs | moreGroups | groupItem
  | orderByExpr | moreOrders | nulls | nullsOrder
  | rowCount
  | purposes | morePurposes
  | moreStats
  /-- One token of a kind. -/
  | one (k : TokenKind) (otherwise : Problem)
  /-- One token of any of these kinds, if it is there. -/
  | maybe (ks : List TokenKind)
  deriving DecidableEq, Repr

inductive Item where
  | enter (rule : Rule)
  | leave
  | report (problem : Problem)
  /-- Takes the mark at the end of the text. -/
  | endMark
  | goal (g : Goal)
  deriving DecidableEq, Repr

instance : Coe Goal Item := ⟨.goal⟩

/-- What a goal becomes. -/
inductive Plan where
  /-- Takes no token. -/
  | expand (items : List Item)
  /-- Enters rules, takes the next token, and goes on. -/
  | shift (entered : List Rule) (items : List Item)
  deriving DecidableEq, Repr

/-- Reserved words that are names unless `BY` follows. -/
def softKeywords : List TokenKind :=
  [.GROUP, .ORDER, .SCOPE, .VIEW, .REFERENCE]

def atName (k₁ k₂ : TokenKind) : Bool :=
  k₁ == .identifier || (softKeywords.contains k₁ && k₂ != .BY)

/-- The next tokens are a name or `COUNT` and an opening parenthesis. -/
def atCall (k₁ k₂ : TokenKind) : Bool :=
  (atName k₁ k₂ || k₁ == .COUNT) && k₂ == .lParen

/-- One token of a kind that has a spelling. -/
def token (k : TokenKind) : Item :=
  .goal (.one k (.missing k))

/-- The rest of a call, from its opening parenthesis on, and what follows it. -/
def callTail (items : List Item) : List Item :=
  token .lParen :: Goal.argument :: token .rParen :: items

/-- A rule that consists of a problem. -/
def failed (rule : Rule) (problem : Problem) : Plan :=
  .expand [.enter rule, .report problem, .leave]

/-- The clause that the next token opens, behind which further clauses may follow. -/
def clausePlan (k : TokenKind) : Plan :=
  match k with
  | .USING =>
    .shift [.usingScope] [token .SCOPE, Goal.identifier, .leave, Goal.clauses]
  | .WHERE => .shift [.whereClause] [Goal.whereExprs, .leave, Goal.clauses]
  | .HAVING => .shift [.havingClause] [Goal.whereExprs, .leave, Goal.clauses]
  | .WITH => .shift [.withClause] [Goal.withBody 0, .leave, Goal.clauses]
  | .GROUP => .shift [.groupByClause] [token .BY, Goal.grouping, .leave, Goal.clauses]
  | .ORDER =>
    .shift [.orderByClause]
      [token .BY, Goal.orderByExpr, Goal.moreOrders, .leave, Goal.clauses]
  | .LIMIT => .shift [.limitClause] [Goal.rowCount, .leave, Goal.clauses]
  | .OFFSET => .shift [.offsetClause] [Goal.rowCount, .leave, Goal.clauses]
  | .FOR => .shift [.forClause] [Goal.purposes, .leave, Goal.clauses]
  | .UPDATE =>
    .shift [.updateStatsClause] [Goal.identifier, Goal.moreStats, .leave, Goal.clauses]
  | _ => .expand []

def comparisonPlan (k₁ k₂ : TokenKind) : Plan :=
  match k₁ with
  | .eq | .notEq => .shift [.comparisonOperator] [.leave, Goal.literalValue]
  | .lt => .shift [.comparisonOperator] [Goal.maybe [.eq, .gt], .leave, Goal.literalValue]
  | .gt => .shift [.comparisonOperator] [Goal.maybe [.eq], .leave, Goal.literalValue]
  | .LIKE => .shift [.comparisonOperator] [.leave, Goal.likeLiteral]
  | .IN | .INCLUDES | .EXCLUDES => .shift [.comparisonOperator] [.leave, Goal.inList]
  | .NOT =>
    if k₂ == .IN then .shift [.comparisonOperator] [token .IN, .leave, Goal.inList]
    else .expand [.report .operator]
  | _ => .expand [.report .operator]

def valuePlan (k : TokenKind) : Plan :=
  match k with
  | .string | .integer | .decimal | .date | .dateTime | .TRUE | .FALSE | .NULL | .bind =>
    .shift [.literalValue] [.leave]
  | .plus | .minus => .shift [.literalValue] [Goal.number, .leave]
  | .identifier => .shift [.literalValue] [Goal.rangeCount, .leave]
  | _ => failed .literalValue .value

/-- The filter after `WITH` as far as the next token. A closing parenthesis belongs to it only if
it closes one of its own. -/
def withPlan (depth : Nat) (k : TokenKind) : Plan :=
  match k with
  | .identifier | .comma | .eq | .string => .shift [] [Goal.withBody depth]
  | .lParen => .shift [] [Goal.withBody (depth + 1)]
  | .rParen => if depth = 0 then .expand [] else .shift [] [Goal.withBody (depth - 1)]
  | _ => .expand []

/-- The grammar: what a goal becomes when the next two visible tokens are of these kinds. -/
def plan (g : Goal) (k₁ k₂ : TokenKind) : Plan :=
  match g with
  | .query =>
    .expand [.enter .query, Goal.innerQuery, Goal.trailing, .endMark, .leave]
  | .trailing => if k₁ == .eof then .expand [] else .expand [.report .trailing, Goal.skipRest]
  | .skipRest => if k₁ == .eof then .expand [] else .shift [] [Goal.skipRest]
  | .innerQuery =>
    .expand [.enter .innerQuery, token .SELECT, Goal.selectExprs, Goal.fromPart, Goal.clauses,
      .leave]
  | .selectExprs =>
    if atName k₁ k₂ || k₁ == .COUNT || k₁ == .lParen then
      .expand [.enter .selectExprs, Goal.selectExpr, Goal.moreColumns, .leave]
    else failed .selectExprs .field
  | .moreColumns =>
    if k₁ == .comma then .shift [] [Goal.selectExpr, Goal.moreColumns] else .expand []
  | .selectExpr =>
    if k₁ == .lParen then .shift [.selectExpr] [Goal.subquery, token .rParen, .leave]
    else if atCall k₁ k₂ then .shift [.selectExpr] (callTail [Goal.alias, .leave])
    else if atName k₁ k₂ then .expand [.enter .selectExpr, Goal.field, Goal.alias, .leave]
    else failed .selectExpr .field
  | .subquery =>
    if k₁ == .SELECT then .expand [Goal.innerQuery] else .expand [.report (.missing .SELECT)]
  | .functionCall =>
    if atCall k₁ k₂ then .shift [.functionCall] (callTail [.leave]) else .expand []
  | .argument =>
    if atCall k₁ k₂ then .expand [Goal.functionCall]
    else if atName k₁ k₂ then .expand [Goal.field]
    else .expand []
  | .alias => if k₁ == .identifier then .expand [Goal.identifier] else .expand []
  | .field => .expand [.enter .field, Goal.identifier, Goal.dotted, .leave]
  | .dotted => if k₁ == .dot then .shift [] [Goal.afterDot] else .expand []
  | .afterDot =>
    if atName k₁ k₂ then .expand [Goal.identifier, Goal.dotted]
    else .expand [.report .fieldName]
  | .identifier =>
    if atName k₁ k₂ then .shift [.identifier] [.leave] else failed .identifier .identifier
  | .fromPart =>
    if k₁ == .FROM then .shift [.fromClause] [Goal.fromExprs, .leave]
    else .expand [.report (.missing .FROM)]
  | .fromExprs =>
    if atName k₁ k₂ then
      .expand [.enter .fromExprs, Goal.fromExpr, Goal.moreObjects, .leave]
    else failed .fromExprs .objectName
  | .moreObjects =>
    if k₁ == .comma then .shift [] [Goal.fromExpr, Goal.moreObjects] else .expand []
  | .fromExpr => .expand [.enter .fromExpr, Goal.field, Goal.alias, .leave]
  | .clauses => clausePlan k₁
  | .whereExprs =>
    .expand [.enter .whereExprs, Goal.condition, Goal.moreConditions, .leave]
  | .moreConditions =>
    if k₁ == .AND || k₁ == .OR then .shift [] [Goal.condition, Goal.moreConditions]
    else .expand []
  | .condition =>
    if k₁ == .NOT then .shift [] [Goal.condition]
    else if k₁ == .lParen then .shift [] [Goal.whereExprs, token .rParen]
    else .expand [Goal.whereExpr]
  | .whereExpr =>
    if k₁ == .DISTANCE then
      .shift [.whereExpr, .distanceExpr]
        [token .lParen, Goal.field, token .comma, Goal.geolocation, token .comma,
          Goal.one .string .distanceUnit, token .rParen, .leave, Goal.comparison, .leave]
    else if atCall k₁ k₂ then
      .expand [.enter .whereExpr, Goal.functionCall, Goal.comparison, .leave]
    else if atName k₁ k₂ then
      .expand [.enter .whereExpr, Goal.field, Goal.comparison, .leave]
    else failed .whereExpr .field
  | .comparison => comparisonPlan k₁ k₂
  | .literalValue => valuePlan k₁
  | .rangeCount =>
    if k₁ == .colon then .shift [] [Goal.one .integer .number] else .expand []
  | .number =>
    if k₁ == .integer || k₁ == .decimal then .shift [] [] else .expand [.report .number]
  | .signedNumber => .expand [Goal.maybe [.minus], Goal.number]
  | .likeLiteral =>
    if k₁ == .string || k₁ == .bind then .shift [.likeLiteral] [.leave]
    else failed .likeLiteral .pattern
  | .inList =>
    if k₁ == .lParen then .shift [.inList] [Goal.inBody, token .rParen, .leave]
    else failed .inList (.missing .lParen)
  | .inBody =>
    if k₁ == .SELECT then
      .shift [.semiJoin] [Goal.semiField, Goal.fromPart, Goal.semiWhere, .leave]
    else .expand [Goal.literalValue, Goal.moreValues]
  | .moreValues =>
    if k₁ == .comma then .shift [] [Goal.literalValue, Goal.moreValues] else .expand []
  | .semiField => if atName k₁ k₂ then .expand [Goal.field] else .expand [.report .field]
  | .semiWhere =>
    if k₁ == .WHERE then .shift [.whereClause] [Goal.whereExprs, .leave] else .expand []
  | .geolocation =>
    if k₁ == .GEOLOCATION then
      .shift [] [token .lParen, Goal.signedNumber, token .comma, Goal.signedNumber, token .rParen]
    else .expand [.report (.missing .GEOLOCATION)]
  | .withBody depth => withPlan depth k₁
  | .grouping =>
    if k₁ == .ROLLUP || k₁ == .CUBE then
      .shift [] [token .lParen, Goal.groupByExprs, token .rParen]
    else .expand [Goal.groupByExprs]
  | .groupByExprs =>
    .expand [.enter .groupByExprs, Goal.groupItem, Goal.moreGroups, .leave]
  | .moreGroups =>
    if k₁ == .comma then .shift [] [Goal.groupItem, Goal.moreGroups] else .expand []
  | .groupItem =>
    if atCall k₁ k₂ then .expand [Goal.functionCall]
    else if atName k₁ k₂ then .expand [Goal.field]
    else .expand [.report .field]
  | .orderByExpr =>
    .expand [.enter .orderByExpr, .enter .orderByField, Goal.groupItem, .leave,
      Goal.maybe [.ASC, .DESC], Goal.nulls, .leave]
  | .moreOrders =>
    if k₁ == .comma then .shift [] [Goal.orderByExpr, Goal.moreOrders] else .expand []
  | .nulls => if k₁ == .NULLS then .shift [] [Goal.nullsOrder] else .expand []
  | .nullsOrder =>
    if k₁ == .FIRST || k₁ == .LAST then .shift [] [] else .expand [.report .nullsOrder]
  | .rowCount =>
    if k₁ == .integer || k₁ == .bind then .shift [] [] else .expand [.report .rowCount]
  | .purposes =>
    if k₁ == .VIEW || k₁ == .REFERENCE || k₁ == .UPDATE then .shift [] [Goal.morePurposes]
    else .expand [.report .purpose]
  | .morePurposes => if k₁ == .comma then .shift [] [Goal.purposes] else .expand []
  | .moreStats =>
    if k₁ == .comma then .shift [] [Goal.identifier, Goal.moreStats] else .expand []
  | .one k otherwise => if k₁ == k then .shift [] [] else .expand [.report otherwise]
  | .maybe ks => if ks.contains k₁ then .shift [] [] else .expand []

end SoqlAssist.Grammar
