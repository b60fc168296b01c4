import SoqlAssist.Catalog.Function
import SoqlAssist.Completion.Candidate
import SoqlAssist.Completion.Context
import SoqlAssist.Completion.Literal
import SoqlAssist.Query.Lookaround

/-!
Suggestions for open places. A candidate rule stands for a place that the grammar cannot list: a
field, an object, a value. It is first assigned to a site, by its rule, the rule around it and the
cursor; each site then has its own suggestions.
-/
namespace SoqlAssist.Completion

/-- A place for which suggestions are made. -/
inductive Site where
  /-- After `UPDATE` at the end of a query. -/
  | updateStats
  /-- After `FROM`. -/
  | fromExprs
  /-- The column of a query after `IN`. -/
  | semiJoinField
  /-- The start of a column. -/
  | selectColumnStart
  /-- The argument of a function in a select list. -/
  | selectFunctionArgument
  | groupByField
  | orderByField
  /-- The left side of a condition. -/
  | filterIdentifier
  /-- The right side of a condition. -/
  | literal
  deriving DecidableEq, Repr

namespace Site

def title : Site → String
  | .updateStats => "UpdateStats"
  | .fromExprs => "FromExprs"
  | .semiJoinField => "SemiJoinField"
  | .selectColumnStart => "SelectColumnStart"
  | .selectFunctionArgument => "SelectFunctionArgument"
  | .groupByField => "GroupByField"
  | .orderByField => "OrderByField"
  | .filterIdentifier => "FilterIdentifier"
  | .literal => "Literal"

def functionNames : List TokenKind := [.identifier, .COUNT]

def ofField? (ctx : CompletionContext) (starts : Bool) : Rule → Option Site
  | .semiJoin => some .semiJoinField
  | .selectExpr =>
    if starts then some .selectColumnStart
    else if Lookaround.isAfter ctx.tokens ctx.cursor [functionNames, [.lParen]] then
      some .selectFunctionArgument
    else none
  | .groupByExprs => if starts then some .groupByField else none
  | .orderByField => some .orderByField
  | _ => none

/-- The site of a candidate, if there is something to suggest. Nothing is suggested for the
conditions of `HAVING`. -/
def ofCandidate? (ctx : CompletionContext) (c : RuleCandidate) : Option Site :=
  let starts := c.start == ctx.cursor
  let inHaving := c.path.contains .havingClause
  match c.rule with
  | .updateStatsClause => if starts then some .updateStats else none
  | .fromExprs => if starts then some .fromExprs else none
  | .field => c.parent?.bind (ofField? ctx starts)
  | .identifier =>
    if starts && (c.parent? == some .whereExpr || c.parent? == some .distanceExpr) && !inHaving then
      some .filterIdentifier
    else none
  | .literalValue | .likeLiteral => if inHaving then none else some .literal
  | _ => none

end Site

/-- The suggestions after `FROM`: any object, or in a select list a relationship of the object of
the query around. -/
def fromItems (ctx : CompletionContext) : List CompletionItem :=
  if ctx.scopes.length = 1 || (ctx.isNested && ctx.innermost?.any (·.isSemiJoin)) then
    [.object Placeholder.objects]
  else
    match ctx.parentObject? with
    | some parent =>
      [(CompletionItem.object Placeholder.relationships).withHint (.forObject parent)]
    | none => []

def fieldsWith (hint : Hint) : CompletionItem :=
  (CompletionItem.field Placeholder.objectFields).withHint hint

/-- The hint at the fields that a nested query can select: those at the other end of the
relationship that it reads from. -/
def relationshipHint (ctx : CompletionContext) : Hint :=
  { Hint.forObject (ctx.parentObject?.getD "") with relationshipName := ctx.relationshipName? }

def relationshipFieldsWith (hint : Hint) : CompletionItem :=
  (CompletionItem.field Placeholder.relationshipFields).withHint hint

/-- The hint at an argument of the function that was named last. -/
def argumentHint (ctx : CompletionContext) : Hint :=
  let hint := Hint.forObject ctx.objectName
  let function? :=
    (Lookaround.lastBefore? ctx.tokens ctx.cursor Site.functionNames).bind fun t =>
      QueryFunction.ofName? t.text
  match function? with
  | some f => { hint with onlyAggregatable := some f.isAggregate, onlyTypes := f.types }
  | none => hint

def missingGroups (ctx : CompletionContext) : List String :=
  match ctx.innermost? with
  | some scope =>
    scope.selectedFields.filter fun f => !scope.groupByFields.any fun g => Text.sameFold g f
  | none => []

def groupHint (ctx : CompletionContext) : Hint :=
  let missing := missingGroups ctx
  { Hint.forObject ctx.objectName with
    onlyGroupable := some true
    mostLikely := if missing.isEmpty then none else some missing }

def Site.items (ctx : CompletionContext) : Site → List CompletionItem
  | .updateStats => [.keyword "UPDATE TRACKING", .keyword "UPDATE VIEWSTAT"]
  | .fromExprs => fromItems ctx
  | .semiJoinField =>
    [fieldsWith { Hint.forObject ctx.objectName with
      onlyTypes := some FieldType.references
      hideRelationships := some true }]
  | .selectColumnStart =>
    if ctx.isNested then [relationshipFieldsWith (relationshipHint ctx)]
    else
      fieldsWith (.forObject ctx.objectName) ::
        QueryFunction.all.map (fun f => .function f.name) ++
        [.snippet "(SELECT ... FROM ...)" "(SELECT $2 FROM $1)"]
  | .selectFunctionArgument => [fieldsWith (argumentHint ctx)]
  | .groupByField => [fieldsWith (groupHint ctx)]
  | .orderByField =>
    if ctx.isNested then
      [relationshipFieldsWith { relationshipHint ctx with onlySortable := some true }]
    else [fieldsWith { Hint.forObject ctx.objectName with onlySortable := some true }]
  | .filterIdentifier => [fieldsWith (.forObject ctx.objectName)]
  | .literal =>
    match ctx.whereField? with
    | some field => literalItems field
    | none => []

def ruleItems (ctx : CompletionContext) (candidates : List RuleCandidate) : List CompletionItem :=
  (candidates.filterMap (Site.ofCandidate? ctx)).flatMap (Site.items ctx)

end SoqlAssist.Completion
