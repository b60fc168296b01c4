import SoqlAssist.Text.Fold

/-!
The kinds of token of a query. Reserved words are written in capitals, after their usual spelling
in a query; the order of declaration is the order in which sets of kinds are listed.
-/
namespace SoqlAssist

inductive TokenKind where
  | SELECT | FROM | WHERE | AND | OR | NOT | IN | INCLUDES | EXCLUDES | LIKE | GROUP | BY | ORDER
  | ASC | DESC | NULLS | FIRST | LAST | LIMIT | OFFSET | HAVING | COUNT | USING | SCOPE | WITH
  | FOR | VIEW | REFERENCE | UPDATE | TYPEOF | WHEN | THEN | ELSE | END | ROLLUP | CUBE | TRUE
  | FALSE | NULL | DISTANCE | GEOLOCATION
  | eq | notEq | lt | gt | lParen | rParen | comma | dot | colon | plus | minus
  /-- A variable of the host program: a colon and a name. -/
  | bind
  | identifier | integer | decimal | string | date | dateTime
  | whitespace | comment
  /-- A character that starts no token. -/
  | unknown
  /-- The end of the text. -/
  | eof
  deriving DecidableEq, Repr, Inhabited

namespace TokenKind

def keywords : List TokenKind :=
  [.SELECT, .FROM, .WHERE, .AND, .OR, .NOT, .IN, .INCLUDES, .EXCLUDES, .LIKE, .GROUP, .BY, .ORDER,
    .ASC, .DESC, .NULLS, .FIRST, .LAST, .LIMIT, .OFFSET, .HAVING, .COUNT, .USING, .SCOPE, .WITH,
    .FOR, .VIEW, .REFERENCE, .UPDATE, .TYPEOF, .WHEN, .THEN, .ELSE, .END, .ROLLUP, .CUBE, .TRUE,
    .FALSE, .NULL, .DISTANCE, .GEOLOCATION]

def all : List TokenKind :=
  keywords ++ [.eq, .notEq, .lt, .gt, .lParen, .rParen, .comma, .dot, .colon, .plus, .minus, .bind,
    .identifier, .integer, .decimal, .string, .date, .dateTime, .whitespace, .comment, .unknown,
    .eof]

def name : TokenKind → String
  | .SELECT => "select"
  | .FROM => "from"
  | .WHERE => "where"
  | .AND => "and"
  | .OR => "or"
  | .NOT => "not"
  | .IN => "in"
  | .INCLUDES => "includes"
  | .EXCLUDES => "excludes"
  | .LIKE => "like"
  | .GROUP => "group"
  | .BY => "by"
  | .ORDER => "order"
  | .ASC => "asc"
  | .DESC => "desc"
  | .NULLS => "nulls"
  | .FIRST => "first"
  | .LAST => "last"
  | .LIMIT => "limit"
  | .OFFSET => "offset"
  | .HAVING => "having"
  | .COUNT => "count"
  | .USING => "using"
  | .SCOPE => "scope"
  | .WITH => "with"
  | .FOR => "for"
  | .VIEW => "view"
  | .REFERENCE => "reference"
  | .UPDATE => "update"
  | .TYPEOF => "typeof"
  | .WHEN => "when"
  | .THEN => "then"
  | .ELSE => "else"
  | .END => "end"
  | .ROLLUP => "rollup"
  | .CUBE => "cube"
  | .TRUE => "true"
  | .FALSE => "false"
  | .NULL => "null"
  | .DISTANCE => "distance"
  | .GEOLOCATION => "geolocation"
  | .eq => "eq"
  | .notEq => "not_eq"
  | .lt => "lt"
  | .gt => "gt"
  | .lParen => "l_paren"
  | .rParen => "r_paren"
  | .comma => "comma"
  | .dot => "dot"
  | .colon => "colon"
  | .plus => "plus"
  | .minus => "minus"
  | .bind => "bind"
  | .identifier => "identifier"
  | .integer => "integer_literal"
  | .decimal => "decimal_literal"
  | .string => "string_literal"
  | .date => "date_literal"
  | .dateTime => "date_time_literal"
  | .whitespace => "whitespace"
  | .comment => "comment"
  | .unknown => "unknown"
  | .eof => "eof"

def ofName? (s : String) : Option TokenKind :=
  all.find? (·.name == s)

/-- The reserved word that a word spells, in any case. -/
def ofWord? (word : String) : Option TokenKind :=
  keywords.find? (Text.sameFold ·.name word)

/-- The one way to write a token of this kind, if there is one: a reserved word in small letters
or an operator's sign. -/
def spelling? (k : TokenKind) : Option String :=
  if k ∈ keywords then some k.name
  else match k with
    | .eq => some "="
    | .notEq => some "!="
    | .lt => some "<"
    | .gt => some ">"
    | .lParen => some "("
    | .rParen => some ")"
    | .comma => some ","
    | .dot => some "."
    | .colon => some ":"
    | .plus => some "+"
    | .minus => some "-"
    | _ => none

/-- Blanks and comments, which the grammar does not see. -/
def isHidden : TokenKind → Bool
  | .whitespace | .comment => true
  | _ => false

end TokenKind

end SoqlAssist
