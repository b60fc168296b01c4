import SoqlAssist.Tree.Walk

/-!
Query scopes. A document holds a query, queries in select lists and queries as operands of `IN`;
each is a scope with an object of its own. The scopes are collected in one walk over the tree and
kept in the order of their first tokens. A scope covers the tokens of the node around its query, the
first of them excepted: for a query in parentheses the opening parenthesis still belongs outside and
the closing one inside.
-/
namespace SoqlAssist

/-- A unit `SELECT … FROM …`. -/
structure QueryScope where
  /-- The position of the query's first token, normally `SELECT`. -/
  selectToken : Nat
  /-- The position of `FROM`, once an object stands after it. -/
  fromToken : Option Nat
  /-- The first name of the first object after `FROM`. -/
  objectName : Option String
  /-- The columns that are a single name. -/
  selectedFields : List String
  /-- The group-by entries that are a single name. -/
  groupByFields : List String
  isSemiJoin : Bool
  spanStart : Nat
  spanStop : Option Nat
  deriving DecidableEq, Repr

def QueryScope.contains (s : QueryScope) (i : Nat) : Bool :=
  s.spanStart < i && s.spanStop.any (i ≤ ·)

/-- The scopes of a document, in the order of their first tokens. -/
structure QueryScopes where
  toList : List QueryScope
  deriving DecidableEq, Repr

namespace QueryScopes

def empty : QueryScopes := ⟨[]⟩

/-- Puts a scope in its place, where it replaces one with the same first token. -/
def insertSorted (s : QueryScope) : List QueryScope → List QueryScope
  | [] => [s]
  | x :: xs =>
    if s.selectToken < x.selectToken then s :: x :: xs
    else if s.selectToken = x.selectToken then s :: xs
    else x :: insertSorted s xs

def insert (scopes : QueryScopes) (s : QueryScope) : QueryScopes :=
  ⟨insertSorted s scopes.toList⟩

def modify (scopes : QueryScopes) (selectToken : Nat) (f : QueryScope → QueryScope) :
    QueryScopes :=
  ⟨scopes.toList.map fun s => if s.selectToken = selectToken then f s else s⟩

def get? (scopes : QueryScopes) (selectToken : Nat) : Option QueryScope :=
  scopes.toList.find? (·.selectToken == selectToken)

/-- The scopes that cover a position, innermost first: of nested queries the inner one starts
later. -/
def scopesAt (scopes : QueryScopes) (i : Nat) : List QueryScope :=
  (scopes.toList.filter (·.contains i)).reverse

def innermostAt? (scopes : QueryScopes) (i : Nat) : Option QueryScope :=
  (scopes.scopesAt i).head?

section Collect

variable (t : Tree) (tokens : TokenStream)

/-- The text below a node, unless it is empty. -/
def nameAt? (id : Nat) : Option String :=
  let name := t.text id tokens
  if name.isEmpty then none else some name

/-- The name of a field that is one identifier. -/
def singleName? (field : Nat) : Option String :=
  match t.rule? field, t.children field with
  | some .field, [ident] =>
    if t.rule? ident = some .identifier then nameAt? t tokens ident else none
  | _, _ => none

/-- Changes the scope of the nearest query around a node. -/
def modifyOwner (scopes : QueryScopes) (id : Nat) (f : QueryScope → QueryScope) : QueryScopes :=
  match (t.enclosing? id Rule.isQueryScope).bind t.start? with
  | some start => scopes.modify start f
  | none => scopes

/-- Adds the scope of a query node, which spans what its parent spans. -/
def register (scopes : QueryScopes) (id : Nat) (isSemiJoin : Bool) : QueryScopes :=
  let around := (t.parent? id).getD id
  match t.start? id, t.start? around with
  | some start, some spanStart =>
    scopes.insert ⟨start, none, none, [], [], isSemiJoin, spanStart, t.stop? around⟩
  | _, _ => scopes

def recordFrom (scopes : QueryScopes) (id : Nat) : QueryScopes :=
  match t.child? id 0 with
  | none => scopes
  | some object =>
    let fromToken := (t.parent? id).bind t.start?
    let name := ((t.child? object 0).bind (t.child? · 0)).bind (nameAt? t tokens)
    modifyOwner t scopes id fun s => { s with fromToken := fromToken, objectName := name }

/-- Records a column that is a single name. -/
def recordColumn (scopes : QueryScopes) (id : Nat) : QueryScopes :=
  match (t.child? id 0).bind (singleName? t tokens) with
  | none => scopes
  | some name =>
    modifyOwner t scopes id fun s => { s with selectedFields := s.selectedFields ++ [name] }

/-- Records the group-by entries that are single names; a list without any changes nothing. -/
def recordGroups (scopes : QueryScopes) (id : Nat) : QueryScopes :=
  match (t.childrenFor id .field).filterMap (singleName? t tokens) with
  | [] => scopes
  | names => modifyOwner t scopes id fun s => { s with groupByFields := names }

def observe (scopes : QueryScopes) : Visit → QueryScopes
  | .enter id .innerQuery => register t scopes id false
  | .enter id .semiJoin => register t scopes id true
  | .enter id .selectExpr => recordColumn t tokens scopes id
  | .enter id .groupByExprs => recordGroups t tokens scopes id
  | .leave id .fromExprs => recordFrom t tokens scopes id
  | _ => scopes

def ofTree : QueryScopes :=
  t.walk.foldl (observe t tokens) empty

end Collect

end QueryScopes

end SoqlAssist
