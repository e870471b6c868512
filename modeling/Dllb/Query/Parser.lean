import Mathlib
import Dllb.Lib.Parser
import Dllb.Query.Ast
import Dllb.Query.Tokenizer

/-! # The parser

A recursive-descent parser over the tokens. How a string and a float are shown
in debug form belongs to the standard library, and is a parameter.
-/

namespace Dllb

set_option autoImplicit false

class Debug where
  string : String → String
  float : F64 → String

/-! ## Texts in debug form -/

section

variable [Debug]

def debugList (items : List String) : String := "[" ++ String.intercalate ", " items ++ "]"

def Token.debug : Token → String
  | .create => "Create"
  | .select => "Select"
  | .delete => "Delete"
  | .relate => "Relate"
  | .from' => "From"
  | .where' => "Where"
  | .set => "Set"
  | .and => "And"
  | .on => "On"
  | .conflict => "Conflict"
  | .update => "Update"
  | .limit => "Limit"
  | .outcome => "Outcome"
  | .graph => "Graph"
  | .communities => "Communities"
  | .components => "Components"
  | .count => "Count"
  | .is => "Is"
  | .not => "Not"
  | .ident s => "Ident(" ++ Debug.string s ++ ")"
  | .stringLit s => "StringLit(" ++ Debug.string s ++ ")"
  | .intLit n => "IntLit(" ++ toString n ++ ")"
  | .floatLit f => "FloatLit(" ++ Debug.float f ++ ")"
  | .true => "True"
  | .false => "False"
  | .none => "None"
  | .star => "Star"
  | .comma => "Comma"
  | .semicolon => "Semicolon"
  | .colon => "Colon"
  | .eq => "Eq"
  | .ne => "Ne"
  | .gt => "Gt"
  | .lt => "Lt"
  | .gte => "Gte"
  | .lte => "Lte"
  | .arrow => "Arrow"
  | .backArrow => "BackArrow"
  | .dot => "Dot"
  | .lBracket => "LBracket"
  | .rBracket => "RBracket"
  | .lParen => "LParen"
  | .rParen => "RParen"

mutual

def Literal.debug : Literal → String
  | .string s => "String(" ++ Debug.string s ++ ")"
  | .int n => "Int(" ++ toString n ++ ")"
  | .float f => "Float(" ++ Debug.float f ++ ")"
  | .bool b => "Bool(" ++ toString b ++ ")"
  | .none => "None"
  | .array items => "Array(" ++ debugList (Literal.debugAll items) ++ ")"

def Literal.debugAll : List Literal → List String
  | [] => []
  | item :: items => item.debug :: Literal.debugAll items

end

mutual

def SelectItem.debug : SelectItem → String
  | .field name => "Field(" ++ Debug.string name ++ ")"
  | .literal lit => "Literal(" ++ lit.debug ++ ")"
  | .functionCall name args =>
    "FunctionCall \x7b name: " ++ Debug.string name ++ ", args: " ++ debugList (SelectItem.debugAll args) ++ " \x7d"

def SelectItem.debugAll : List SelectItem → List String
  | [] => []
  | item :: items => item.debug :: SelectItem.debugAll items

end

end

abbrev TokenParser := Parser Token Error

open Dllb.Parser

/-! ## Helpers -/

def failQuery {α : Type} (text : String) : TokenParser α := fail (queryError text)

/-- Every level of a recursion takes a token, so that this is never reported. -/
def tooDeep : Error := queryError "recursion limit"

def eqIgnoreAsciiCase (s t : String) : Bool := s.toList.map Char.toLower = t.toList.map Char.toLower

/-- `to_uppercase` of a word, which is made of ASCII characters. -/
def toUppercase (s : String) : String := String.ofList (s.toList.map Char.toUpper)

section

variable [Debug]

/-- The tokens expected carry no value, so that the same kind of token is the same token. -/
def expect (expected : Token) : TokenParser Unit := do
  match ← peek with
  | some t => if t = expected then skip else failQuery ("expected " ++ expected.debug ++ ", got " ++ t.debug)
  | none => failQuery ("unexpected end of input, expected " ++ expected.debug)

def expectIdent : TokenParser String := do
  match ← peek with
  | some (.ident s) => do
    skip
    return s
  | some t => failQuery ("expected identifier, got " ++ t.debug)
  | none => failQuery "unexpected end of input, expected identifier"

def expectKeyword (kw : String) : TokenParser Unit := do
  match ← peek with
  | some (.ident s) =>
    if eqIgnoreAsciiCase s kw then skip
    else failQuery ("expected keyword " ++ kw ++ ", got " ++ (Token.ident s).debug)
  | some t => failQuery ("expected keyword " ++ kw ++ ", got " ++ t.debug)
  | none => failQuery ("unexpected end of input, expected keyword " ++ kw)

omit [Debug] in
def consumeKeyword (kw : String) : TokenParser Bool := do
  match ← peek with
  | some (.ident s) =>
    if eqIgnoreAsciiCase s kw then do
      skip
      return true
    else return false
  | _ => return false

def expectString : TokenParser String := do
  match ← peek with
  | some (.stringLit s) => do
    skip
    return s
  | some t => failQuery ("expected string literal, got " ++ t.debug)
  | none => failQuery "unexpected end of input, expected string literal"

def expectPositiveInt (what : String) : TokenParser Nat := do
  match ← peek with
  | some (.intLit n) =>
    if 0 < n.toInt then do
      skip
      return n.toInt.toNat
    else failQuery (what ++ " must be a positive integer, got " ++ toString n)
  | some t => failQuery ("expected positive integer for " ++ what ++ ", got " ++ t.debug)
  | none => failQuery ("unexpected end of input, expected integer for " ++ what)

def expectNumber (what : String) : TokenParser F64 := do
  match ← peek with
  | some (.floatLit f) => do
    skip
    return f
  | some (.intLit n) => do
    skip
    return F64.ofInt64 n
  | some t => failQuery (what ++ " requires a numeric value, got " ++ t.debug)
  | none => failQuery ("unexpected end of input, expected number for " ++ what)

omit [Debug] in
def nextIs (t : Token) : TokenParser Bool := do
  let next ← peek
  return next = some t

def isComma (t : Token) : Bool := t = .comma

/-- Items with a comma between any two of them. -/
def commaList {α : Type} (p : TokenParser α) : TokenParser (List α) := separated isComma p

/-! ## Literals -/

/-- What follows an item of an array: another one after a comma, or the end. -/
def nextArrayItem (parseLiteral : TokenParser Literal) (items : List Literal) :
    TokenParser (Option (List Literal)) := do
  match ← peek with
  | some .comma => do
    skip
    let item ← parseLiteral
    return some (items ++ [item])
  | some .rBracket => do
    skip
    return none
  | some t => failQuery ("expected ',' or ']' in array literal, got " ++ t.debug)
  | none => failQuery "unterminated array literal"

def parseArrayLiteral (parseLiteral : TokenParser Literal) : TokenParser Literal := do
  expect .lBracket
  if ← nextIs .rBracket then do
    skip
    return .array []
  else do
    let item ← parseLiteral
    let items ← iterate (nextArrayItem parseLiteral) [item]
    return .array items

def literalBody (parseLiteral : TokenParser Literal) : TokenParser Literal := do
  match ← peek with
  | some (.stringLit s) => do
    skip
    return .string s
  | some (.intLit n) => do
    skip
    return .int n
  | some (.floatLit f) => do
    skip
    return .float f
  | some .true => do
    skip
    return .bool true
  | some .false => do
    skip
    return .bool false
  | some .none => do
    skip
    return .none
  | some .lBracket => parseArrayLiteral parseLiteral
  | some t => failQuery ("expected literal, got " ++ t.debug)
  | none => failQuery "unexpected end of input, expected literal"

def parseLiteral : TokenParser Literal := fix tooDeep literalBody

def vectorElements : List Literal → Result (List F64)
  | [] => .ok []
  | .float f :: items => do return f :: (← vectorElements items)
  | .int n :: items => do return F64.ofInt64 n :: (← vectorElements items)
  | other :: _ => .error (queryError ("vector elements must be numbers, got " ++ other.debug))

def parseVectorLiteral : TokenParser (List F64) := do
  match ← parseLiteral with
  | .array items =>
    match vectorElements items with
    | .ok vector => return vector
    | .error e => fail e
  | other => failQuery ("expected a vector literal [..], got " ++ other.debug)

/-! ## Select items and conditions -/

/-- Names of functions have parts with `::` between them. -/
def nextPart (name : String) : TokenParser (Option String) := do
  if ← nextIs .colon then do
    skip
    expect .colon
    let part ← expectIdent
    return some (name ++ "::" ++ part)
  else return none

def parseName : TokenParser String := do
  let name ← expectIdent
  iterate nextPart name

/-- The arguments of a call behind the opening parenthesis. -/
def parseArgs (parseSelectItem : TokenParser SelectItem) : TokenParser (List SelectItem) := do
  if ← nextIs .rParen then return []
  else commaList parseSelectItem

def Token.startsLiteral : Token → Bool
  | .stringLit _ | .intLit _ | .floatLit _ | .true | .false | .none | .lBracket => Bool.true
  | _ => Bool.false

def selectItemBody (parseSelectItem : TokenParser SelectItem) : TokenParser SelectItem := do
  let next ← peek
  if next.any Token.startsLiteral then do
    let lit ← parseLiteral
    return .literal lit
  else do
    let name ← parseName
    if ← nextIs .lParen then do
      skip
      let args ← parseArgs parseSelectItem
      expect .rParen
      return .functionCall name args
    else return .field name

def parseSelectItem : TokenParser SelectItem := fix tooDeep selectItemBody

def parseCmpOp : TokenParser CmpOp := do
  match ← peek with
  | some .eq => do
    skip
    return .eq
  | some .ne => do
    skip
    return .ne
  | some .gt => do
    skip
    return .gt
  | some .lt => do
    skip
    return .lt
  | some .gte => do
    skip
    return .gte
  | some .lte => do
    skip
    return .lte
  | some t => failQuery ("expected comparison operator (=, !=, >, <, >=, <=), got " ++ t.debug)
  | none => failQuery "unexpected end of input, expected comparison operator"

omit [Debug] in
/-- A `NOT` behind `IS`. -/
def consumeNot : TokenParser Bool := do
  if ← nextIs .not then do
    skip
    return true
  else return false

/-- `field op literal`, or `field IS [NOT] NONE`. -/
def parseComparison : TokenParser WhereClause := do
  let item ← parseSelectItem
  if ← nextIs .is then do
    skip
    let negated ← consumeNot
    expect .none
    match item with
    | .field f => return .isNull f negated
    | other => failQuery ("expected field name before IS NONE, got " ++ other.debug)
  else do
    let op ← parseCmpOp
    let value ← parseLiteral
    return .cmp item op value

def whereExprBody (parseWhereExpr : TokenParser WhereClause) : TokenParser WhereClause := do
  let left ← parseComparison
  if ← nextIs .and then do
    skip
    let right ← parseWhereExpr
    return .and left right
  else return left

def parseWhereExpr : TokenParser WhereClause := fix tooDeep whereExprBody

/-! ## Clauses -/

def parseWhereClause : TokenParser (Option WhereClause) := do
  if ← nextIs .where' then do
    skip
    let filter ← parseWhereExpr
    return some filter
  else return none

def parseLimit : TokenParser (Option Nat) := do
  if ← nextIs .limit then do
    skip
    match ← peek with
    | some (.intLit n) =>
      if 0 < n.toInt then do
        skip
        return some n.toInt.toNat
      else failQuery ("LIMIT must be a positive integer, got " ++ toString n)
    | some t => failQuery ("expected positive integer after LIMIT, got " ++ t.debug)
    | none => failQuery "unexpected end of input after LIMIT"
  else return none

def parseOrderKey : TokenParser OrderKey := do
  let field ← expectIdent
  if ← consumeKeyword "DESC" then return ⟨field, true⟩
  else do
    let _ ← consumeKeyword "ASC"
    return ⟨field, false⟩

def parseOrderBy : TokenParser (List OrderKey) := do
  if ← consumeKeyword "ORDER" then do
    expectKeyword "BY"
    commaList parseOrderKey
  else return []

def parseGroupBy : TokenParser (Option String) := do
  if ← consumeKeyword "GROUP" then do
    expectKeyword "BY"
    let field ← expectIdent
    return some field
  else return none

def parseFieldAssignment : TokenParser (String × Literal) := do
  let name ← expectIdent
  expect .eq
  let value ← parseLiteral
  return (name, value)

def parseSetClause : TokenParser Assignments := commaList parseFieldAssignment

def parseOnConflict : TokenParser (Option OnConflict) := do
  if ← nextIs .on then do
    skip
    expect .conflict
    expect .update
    if ← nextIs .set then do
      skip
      let fields ← parseSetClause
      return some (.updateSet fields)
    else return some .update
  else return none

/-- `ON [TABLE] table`. -/
def parseOnTable : TokenParser String := do
  expect .on
  let _ ← consumeKeyword "TABLE"
  expectIdent

def parseRecordRef : TokenParser RecordRef := do
  let table ← expectIdent
  expect .colon
  let id ← expectIdent
  return ⟨table, id⟩

/-- A value behind a keyword, if the keyword is next. -/
def optional {α : Type} (kw : String) (p : TokenParser α) : TokenParser (Option α) := do
  if ← consumeKeyword kw then do
    let a ← p
    return some a
  else return none

/-- `table` or `table:id`. -/
def parseFromTarget : TokenParser FromTarget := do
  let table ← expectIdent
  if ← nextIs .colon then do
    skip
    let id ← expectIdent
    return .record ⟨table, id⟩
  else return .table table

/-! ## Traversal chains -/

omit [Debug] in
/-- The arrow a hop begins with. -/
def parseDirection : TokenParser (Option TraversalDirection) := do
  match ← peek with
  | some .arrow => do
    skip
    return some .out
  | some .backArrow => do
    skip
    return some .in'
  | _ => return none

def expectMatchingArrow (direction : TraversalDirection) : TokenParser Unit := do
  let next ← peek
  match direction, next with
  | .out, some .arrow => skip
  | .in', some .backArrow => skip
  | _, some t => failQuery ("traversal: expected matching arrow after edge type, got " ++ t.debug)
  | _, none => failQuery "traversal: unexpected end after edge type"

def nextHop (hops : List TraversalHop) : TokenParser (Option (List TraversalHop)) := do
  match ← parseDirection with
  | none => return none
  | some direction => do
    let edgeType ← expectIdent
    expectMatchingArrow direction
    let destTable ← expectIdent
    return some (hops ++ [⟨direction, edgeType, destTable⟩])

def parseTraversalChain : TokenParser TraversalChain := do
  let hops ← iterate nextHop []
  if hops.isEmpty then failQuery "empty traversal chain"
  else
    if ← nextIs .dot then do
      skip
      let projection ← expectIdent
      return ⟨hops, some projection⟩
    else return ⟨hops, none⟩

/-! ## Statements -/

def parseCompact : TokenParser Statement := do
  expectKeyword "COMPACT"
  return .compact

def parseDefineBtree : TokenParser Statement := do
  let name ← expectIdent
  let table ← parseOnTable
  expectKeyword "FIELDS"
  let fields ← commaList expectIdent
  let unique ← consumeKeyword "UNIQUE"
  return .defineIndex name table fields unique

def parseDefineFulltext : TokenParser Statement := do
  let name ← expectIdent
  let table ← parseOnTable
  expectKeyword "FIELDS"
  let field ← expectIdent
  let analyzer ← optional "ANALYZER" expectIdent
  return .defineFulltextIndex name table field analyzer

def parseDefineVector : TokenParser Statement := do
  let name ← expectIdent
  let table ← parseOnTable
  expectKeyword "FIELDS"
  let field ← expectIdent
  expectKeyword "DIMENSION"
  let dim ← expectPositiveInt "DIMENSION"
  let metric ← optional "METRIC" expectIdent
  return .defineVectorIndex name table field dim metric

def parseDefine : TokenParser Statement := do
  expectKeyword "DEFINE"
  if ← consumeKeyword "FULLTEXT" then do
    expectKeyword "INDEX"
    parseDefineFulltext
  else if ← consumeKeyword "VECTOR" then do
    expectKeyword "INDEX"
    parseDefineVector
  else do
    expectKeyword "INDEX"
    parseDefineBtree

def parseRemoveIndex : TokenParser Statement := do
  expectKeyword "REMOVE"
  expectKeyword "INDEX"
  let name ← expectIdent
  expect .on
  let _ ← consumeKeyword "TABLE"
  let table ← expectIdent
  return .removeIndex name table

def parseSearch : TokenParser Statement := do
  expectKeyword "SEARCH"
  let table ← expectIdent
  let field ← expectIdent
  let query ← expectString
  let filter ← parseWhereClause
  let limit ← parseLimit
  return .search table field query filter limit

def parseVectorSearch : TokenParser Statement := do
  expectKeyword "VECTOR"
  expectKeyword "SEARCH"
  let table ← expectIdent
  let field ← expectIdent
  let vector ← parseVectorLiteral
  let filter ← parseWhereClause
  let k ← optional "K" (expectPositiveInt "K")
  return .vectorSearch table field vector filter k

def parseHybrid : TokenParser Statement := do
  expectKeyword "HYBRID"
  expectKeyword "SEARCH"
  let table ← expectIdent
  expectKeyword "TEXT"
  let textField ← expectIdent
  let query ← expectString
  expectKeyword "VECTOR"
  let vectorField ← expectIdent
  let vector ← parseVectorLiteral
  let alpha ← optional "ALPHA" (expectNumber "ALPHA")
  let filter ← parseWhereClause
  let limit ← parseLimit
  return .hybridSearch table textField query vectorField vector alpha filter limit

/-- `:id`, if a colon is next. -/
def parseId : TokenParser (Option String) := do
  if ← nextIs .colon then do
    skip
    let id ← expectIdent
    return some id
  else return none

def parseCreate : TokenParser Statement := do
  expect .create
  let table ← expectIdent
  let id ← parseId
  expect .set
  let fields ← parseSetClause
  let onConflict ← parseOnConflict
  return .create table id fields onConflict

def parseSelectFields : TokenParser SelectFields := do
  let next ← peek
  if next = some .star then do
    skip
    return .all
  else if next = some .arrow ∨ next = some .backArrow then do
    let chain ← parseTraversalChain
    return .traversal chain
  else do
    let items ← commaList parseSelectItem
    return .named items

def parseSelect : TokenParser Statement := do
  expect .select
  let fields ← parseSelectFields
  expect .from'
  let source ← parseFromTarget
  let filter ← parseWhereClause
  let orderBy ← parseOrderBy
  let limit ← parseLimit
  return .select fields source filter orderBy limit

/-- `DELETE table:id` deletes a point, `DELETE table [WHERE ..]` every row that matches. -/
def parseDelete : TokenParser Statement := do
  expect .delete
  let table ← expectIdent
  if ← nextIs .colon then do
    skip
    let id ← expectIdent
    return .delete table id
  else do
    let filter ← parseWhereClause
    return .deleteWhere table filter

def parseUpdate : TokenParser Statement := do
  expect .update
  let target ← parseFromTarget
  expect .set
  let fields ← parseSetClause
  let filter ← parseWhereClause
  return .update target fields filter

def parseCount : TokenParser Statement := do
  expect .count
  let table ← expectIdent
  let filter ← parseWhereClause
  let groupBy ← parseGroupBy
  return .count table filter groupBy

def parseRelate : TokenParser Statement := do
  expect .relate
  let src ← parseRecordRef
  expect .arrow
  let edgeType ← expectIdent
  expect .arrow
  let dst ← parseRecordRef
  if ← nextIs .set then do
    skip
    let fields ← parseSetClause
    return .relate src edgeType dst fields
  else return .relate src edgeType dst []

/-! ## Graph statements -/

structure PagerankOptions where
  damping : F64
  maxIterations : Nat

def nextPagerankOption (o : PagerankOptions) : TokenParser (Option PagerankOptions) := do
  if ← consumeKeyword "DAMPING" then do
    let damping ← expectNumber "DAMPING"
    return some { o with damping }
  else if ← consumeKeyword "MAX_ITER" then do
    let maxIterations ← expectPositiveInt "MAX_ITER"
    return some { o with maxIterations }
  else return none

def parseGraphPagerank : TokenParser Statement := do
  expectKeyword "PAGERANK"
  let table ← expectIdent
  let o ← iterate nextPagerankOption ⟨F64.ofDecimal false 85 (-2), 100⟩
  let limit ← parseLimit
  return .graphPagerank table o.damping o.maxIterations limit

omit [Debug] in
def parseCentralityMode : TokenParser CentralityMode := do
  if ← consumeKeyword "INDEGREE" then return .inDegree
  else if ← consumeKeyword "OUTDEGREE" then return .outDegree
  else do
    let _ ← consumeKeyword "DEGREE"
    return .degree

def parseGraphCentrality : TokenParser Statement := do
  expectKeyword "CENTRALITY"
  let table ← expectIdent
  let mode ← parseCentralityMode
  let limit ← parseLimit
  return .graphCentrality table mode limit

def parseGraphPath : TokenParser Statement := do
  expectKeyword "PATH"
  let src ← expectIdent
  expect .arrow
  let dst ← expectIdent
  expect .on
  let table ← expectIdent
  let maxDepth ← optional "MAX_DEPTH" (expectPositiveInt "MAX_DEPTH")
  return .graphPath src dst table maxDepth

def parseGraphEdges : TokenParser Statement := do
  expectKeyword "EDGES"
  let table ← expectIdent
  let filter ← parseWhereClause
  return .graphEdges table filter

def parseGraphComponents : TokenParser Statement := do
  expect .components
  let table ← expectIdent
  return .graphComponents table

structure CommunityOptions where
  algorithm : CommunityAlgorithm
  maxIterations : Nat
  resolution : F64

def parseAlgorithm : TokenParser CommunityAlgorithm := do
  let name ← expectIdent
  match toUppercase name with
  | "LOUVAIN" => return .louvain
  | "LP" | "LABELPROPAGATION" | "LABEL_PROPAGATION" => return .labelPropagation
  | other => failQuery ("unknown community algorithm '" ++ other ++ "'; expected louvain or lp")

def parseMaxIter : TokenParser Nat := do
  match ← peek with
  | some (.intLit n) =>
    if 0 < n.toInt then do
      skip
      return n.toInt.toNat
    else failQuery ("MAX_ITER requires a positive integer, got " ++ (Token.intLit n).debug)
  | some t => failQuery ("MAX_ITER requires a positive integer, got " ++ t.debug)
  | none => failQuery "unexpected end of input after MAX_ITER"

def parseResolution : TokenParser F64 := do
  match ← peek with
  | some (.floatLit f) => do
    skip
    return f
  | some (.intLit n) => do
    skip
    return F64.ofInt64 n
  | some t => failQuery ("RESOLUTION requires a numeric value, got " ++ t.debug)
  | none => failQuery "unexpected end of input after RESOLUTION"

def nextCommunityOption (o : CommunityOptions) : TokenParser (Option CommunityOptions) := do
  match ← peek with
  | some (.ident kw) =>
    if toUppercase kw = "ALGORITHM" then do
      skip
      let algorithm ← parseAlgorithm
      return some { o with algorithm }
    else if toUppercase kw = "MAX_ITER" then do
      skip
      let maxIterations ← parseMaxIter
      return some { o with maxIterations }
    else if toUppercase kw = "RESOLUTION" then do
      skip
      let resolution ← parseResolution
      return some { o with resolution }
    else return none
  | _ => return none

def parseGraphCommunities : TokenParser Statement := do
  expect .communities
  let table ← expectIdent
  let o ← iterate nextCommunityOption ⟨.louvain, 10, F64.ofDecimal false 1 0⟩
  return .graphCommunities table o.algorithm o.maxIterations o.resolution

def parseGraph : TokenParser Statement := do
  expect .graph
  match ← peek with
  | some .communities => parseGraphCommunities
  | some .components => parseGraphComponents
  | some t =>
    match t with
    | .ident kw =>
      if eqIgnoreAsciiCase kw "PAGERANK" then parseGraphPagerank
      else if eqIgnoreAsciiCase kw "CENTRALITY" then parseGraphCentrality
      else if eqIgnoreAsciiCase kw "PATH" then parseGraphPath
      else if eqIgnoreAsciiCase kw "EDGES" then parseGraphEdges
      else failQuery (unexpectedAfterGraph t)
    | _ => failQuery (unexpectedAfterGraph t)
  | none => failQuery "unexpected end of input after GRAPH"
where
  unexpectedAfterGraph (t : Token) : String :=
    "expected COMMUNITIES, COMPONENTS, PAGERANK, CENTRALITY, PATH, or EDGES after GRAPH, got " ++ t.debug

/-! ## Queries -/

/-- The keywords of index and search statements are identifiers elsewhere. -/
def parseStatement : TokenParser Statement := do
  match ← peek with
  | some .create => parseCreate
  | some .select => parseSelect
  | some .delete => parseDelete
  | some .relate => parseRelate
  | some .update => parseUpdate
  | some .count => parseCount
  | some .graph => parseGraph
  | some (.ident kw) =>
    if eqIgnoreAsciiCase kw "DEFINE" then parseDefine
    else if eqIgnoreAsciiCase kw "REMOVE" then parseRemoveIndex
    else if eqIgnoreAsciiCase kw "SEARCH" then parseSearch
    else if eqIgnoreAsciiCase kw "VECTOR" then parseVectorSearch
    else if eqIgnoreAsciiCase kw "HYBRID" then parseHybrid
    else if eqIgnoreAsciiCase kw "COMPACT" then parseCompact
    else failQuery ("expected statement, got " ++ (Token.ident kw).debug)
  | some t => failQuery ("expected statement, got " ++ t.debug)
  | none => failQuery "empty input"

def parseOutcome : TokenParser OutcomeFormat := do
  if ← nextIs .outcome then do
    skip
    match ← peek with
    | some (.ident s) =>
      match toUppercase s with
      | "JSON" => do
        skip
        return .json
      | "TOON" => do
        skip
        return .toon
      | "CSV" => do
        skip
        return .csv
      | other => failQuery ("unknown outcome format '" ++ other ++ "', expected JSON, TOON, or CSV")
    | some t => failQuery ("expected outcome format (JSON, TOON, CSV), got " ++ t.debug)
    | none => failQuery "unexpected end of input after OUTCOME, expected JSON, TOON, or CSV"
  else return .json

def parseQuery : TokenParser Query := do
  let statement ← parseStatement
  let outcome ← parseOutcome
  return ⟨statement, outcome⟩

/-- A semicolon may follow the query, and nothing else. -/
def parseTokens (tokens : List Token) : Result Query := do
  let (query, rest) ← parseQuery tokens
  let rest :=
    match rest with
    | .semicolon :: rest => rest
    | rest => rest
  match rest with
  | t :: _ => .error (queryError ("unexpected token after statement: " ++ t.debug))
  | [] => return query

def parse (input : String) : Result Query := do
  let tokens ← tokenize input
  parseTokens tokens

end

end Dllb
