import Mathlib
import Dllb.Core.Value

/-! # Abstract syntax of the query language -/

namespace Dllb

set_option autoImplicit false

inductive OutcomeFormat where
  | json | toon | csv
  deriving DecidableEq

inductive Literal where
  | string (s : String)
  | int (n : Int64)
  | float (f : F64)
  | bool (b : Bool)
  | none
  | array (items : List Literal)

namespace Literal

mutual

def toValue : Literal → Value
  | string s => .string s
  | int n => .int n
  | float f => .float f
  | bool b => .bool b
  | none => .none
  | array items => .array (toValues items)

def toValues : List Literal → List Value
  | [] => []
  | item :: items => toValue item :: toValues items

end

end Literal

/-- The assignments of a `SET` clause. -/
abbrev Assignments := List (String × Literal)

inductive OnConflict where
  | update
  | updateSet (fields : Assignments)

inductive CommunityAlgorithm where
  | louvain | labelPropagation
  deriving DecidableEq

structure OrderKey where
  field : String
  descending : Bool

inductive CentralityMode where
  | degree | inDegree | outDegree
  deriving DecidableEq

inductive SelectItem where
  | field (name : String)
  | literal (lit : Literal)
  | functionCall (name : String) (args : List SelectItem)

inductive TraversalDirection where
  | out | in'
  deriving DecidableEq

structure TraversalHop where
  direction : TraversalDirection
  edgeType : String
  destTable : String

structure TraversalChain where
  hops : List TraversalHop
  projection : Option String

inductive SelectFields where
  | all
  | named (items : List SelectItem)
  | traversal (chain : TraversalChain)

structure RecordRef where
  table : String
  id : String
  deriving DecidableEq

inductive FromTarget where
  | table (table : String)
  | record (r : RecordRef)

inductive CmpOp where
  | eq | ne | gt | lt | gte | lte
  deriving DecidableEq

inductive WhereClause where
  | cmp (field : SelectItem) (op : CmpOp) (value : Literal)
  | and (left right : WhereClause)
  | isNull (field : String) (negated : Bool)

inductive Statement where
  | create (table : String) (id : Option String) (fields : Assignments) (onConflict : Option OnConflict)
  | select (fields : SelectFields) (source : FromTarget) (filter : Option WhereClause)
      (orderBy : List OrderKey) (limit : Option Nat)
  | delete (table id : String)
  | deleteWhere (table : String) (filter : Option WhereClause)
  | relate (src : RecordRef) (edgeType : String) (dst : RecordRef) (fields : Assignments)
  | graphCommunities (table : String) (algorithm : CommunityAlgorithm) (maxIterations : Nat)
      (resolution : F64)
  | update (target : FromTarget) (fields : Assignments) (filter : Option WhereClause)
  | count (table : String) (filter : Option WhereClause) (groupBy : Option String)
  | graphComponents (table : String)
  | defineIndex (name table : String) (fields : List String) (unique : Bool)
  | removeIndex (name table : String)
  | compact
  | defineFulltextIndex (name table field : String) (analyzer : Option String)
  | defineVectorIndex (name table field : String) (dim : Nat) (metric : Option String)
  | search (table field query : String) (filter : Option WhereClause) (limit : Option Nat)
  | vectorSearch (table field : String) (vector : List F64) (filter : Option WhereClause)
      (k : Option Nat)
  | hybridSearch (table textField query vectorField : String) (vector : List F64) (alpha : Option F64)
      (filter : Option WhereClause) (limit : Option Nat)
  | graphPagerank (table : String) (damping : F64) (maxIterations : Nat) (limit : Option Nat)
  | graphCentrality (table : String) (mode : CentralityMode) (limit : Option Nat)
  | graphPath (src dst table : String) (maxDepth : Option Nat)
  | graphEdges (table : String) (filter : Option WhereClause)

structure Query where
  statement : Statement
  outcome : OutcomeFormat

end Dllb
