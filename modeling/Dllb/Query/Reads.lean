import Mathlib
import Dllb.Graph.Traverse
import Dllb.Query.Format
import Dllb.Query.Reachable

/-! # The executor: the statements that read

With the handlers of these statements `execute` is total. The graph algorithms
are functions of the scanned edges and are a parameter; the statements of the
search services fail, since the services are disabled.
-/

namespace Dllb

set_option autoImplicit false

class GraphAlgorithms where
  detectCommunitiesWeighted :
    List (String × String × F64) → CommunityAlgorithm → Nat → F64 → List (String × List String)
  connectedComponents : List (String × String) → List (String × List String)
  pagerank : List (String × String × F64) → F64 → Nat → List (String × F64)
  degreeCentrality : List (String × String) → CentralityMode → List (String × F64)
  shortestPath : List (String × String) → String → String → Option Nat → Option (List String)

/-- `sort_by`, which is stable. -/
def sortBy {α : Type} (cmp : α → α → Ordering) (l : List α) : List α :=
  l.insertionSort fun a b => (cmp a b != .gt) = true

def limited {α : Type} (l : List α) : Option Nat → List α
  | some n => l.take n
  | none => l

/-! ## Ordering and grouping -/

/-- Missing and `None` values come after all others; incomparable values are equal. -/
def orderCmp (a b : Option Value) : Ordering :=
  match a.filter (!·.isNone), b.filter (!·.isNone) with
  | none, none => .eq
  | none, some _ => .gt
  | some _, none => .lt
  | some a, some b => (cmpValues a b).getD .eq

def compareBy (a b : Document) : List OrderKey → Ordering
  | [] => .eq
  | key :: keys =>
    let ord := orderCmp a.fields[key.field]? b.fields[key.field]?
    let ord := if key.descending then ord.swap else ord
    if ord = .eq then compareBy a b keys else ord

def sortDocuments (docs : List Document) (keys : List OrderKey) : List Document :=
  sortBy (fun a b => compareBy a b keys) docs

/-- The count of a row, by which groups are sorted. -/
def countOf (field : String) (row : Fields) : Int :=
  match row[field]? with
  | some (.int n) => n.toInt
  | _ => 0

section Texts

variable [Texts]

def groupKey : Value → String
  | .none => "\x00none"
  | .bool b => "b:" ++ toString b
  | .int n => "i:" ++ toString n.toInt
  | .float f => "f:" ++ toString f.bits.toNat
  | .string s => "s:" ++ s
  | other => "o:" ++ Texts.debug other

mutual

def columnName : SelectItem → String
  | .field name => name
  | .literal lit =>
    match lit with
    | .string s => "'" ++ s ++ "'"
    | .int n => toString n.toInt
    | .float f => Texts.float f
    | .bool b => toString b
    | .none => "NONE"
    | .array items => Texts.debugLiterals items
  | .functionCall name args => name ++ "(" ++ String.intercalate ", " (columnNames args) ++ ")"

def columnNames : List SelectItem → List String
  | [] => []
  | arg :: args => columnName arg :: columnNames args

end

/-- The buckets in the order of their first document: key, value and number of documents. -/
def bucketAdd (v : Value) : List (String × Value × Nat) → List (String × Value × Nat)
  | [] => [(groupKey v, v, 1)]
  | b :: buckets =>
    if b.1 = groupKey v then (b.1, b.2.1, b.2.2 + 1) :: buckets else b :: bucketAdd v buckets

end Texts

namespace QueryExecutor

variable [Rmp] [CodeIntel] [Texts]

/-! ## Documents -/

def rowId (table : String) (doc : Document) : Value := .string (table ++ ":" ++ doc.id.id)

def projectRow (table : String) (items : Option (List SelectItem)) (doc : Document) : Fields :=
  let row : Fields :=
    match items with
    | none => doc.fields
    | some items =>
      items.foldl (fun m item =>
        match evalSelectItem doc item with
        | some v => m.insert (columnName item) v
        | none => m) ∅
  row.insert "id" (rowId table doc)

/-- The documents of `FROM`, and the table they are in. -/
def selectDocs (ex : QueryExecutor) (source : FromTarget) (filter : Option WhereClause) :
    Db (String × List Document) :=
  match source with
  | .table table => do
    let coll ← Collection.load ex.ns ex.db table
    let docs ← candidates coll filter
    return (table, docs)
  | .record r => do
    let found ← (Collection.new ex.ns ex.db r.table).get r.id
    return (r.table, found.toList)

def execDocumentSelect (ex : QueryExecutor) (items : Option (List SelectItem)) (source : FromTarget)
    (filter : Option WhereClause) (orderBy : List OrderKey) (limit : Option Nat) : Db QueryResult := do
  let found ← ex.selectDocs source filter
  let filtered := found.2.filter fun doc => filter.all (matchesWhere doc)
  let sorted := if orderBy.isEmpty then filtered else sortDocuments filtered orderBy
  return .rows ((limited sorted limit).map (projectRow found.1 items))

/-! ## Traversal -/

def hopNeighbors (ex : QueryExecutor) (hop : TraversalHop) (id : String) : Db (List String) :=
  match hop.direction with
  | .out => Traversal.outgoingNeighborsTyped ⟨ex.ns, ex.db, hop.edgeType⟩ id hop.edgeType
  | .in' => Traversal.incomingNeighborsTyped ⟨ex.ns, ex.db, hop.edgeType⟩ id hop.edgeType

/-- Append those of the destinations that are not there yet. -/
def pushNew (next : List String) : List String → List String
  | [] => next
  | dest :: dests => pushNew (if dest ∈ next then next else next ++ [dest]) dests

def followHop (ex : QueryExecutor) (hop : TraversalHop) : List String → List String → Db (List String)
  | [], next => return next
  | id :: ids, next => do
    let neighbors ← ex.hopNeighbors hop id
    ex.followHop hop ids (pushNew next neighbors)

def followHops (ex : QueryExecutor) : List TraversalHop → List String → Db (List String)
  | [], ids => return ids
  | hop :: hops, ids => do
    let next ← ex.followHop hop ids []
    ex.followHops hops next

def startIds (ex : QueryExecutor) : FromTarget → Db (List String)
  | .record r => return [r.id]
  | .table t => (Collection.new ex.ns ex.db t).scanIds

def traversalRow (table : String) (projection : Option String) (doc : Document) : Fields :=
  let row : Fields :=
    match projection with
    | none => doc.fields
    | some field =>
      match doc.fields[field]? with
      | some v => (∅ : Fields).insert field v
      | none => ∅
  row.insert "id" (rowId table doc)

def execTraversalSelect (ex : QueryExecutor) (chain : TraversalChain) (source : FromTarget)
    (filter : Option WhereClause) (limit : Option Nat) : Db QueryResult := do
  let start ← ex.startIds source
  let ids ← ex.followHops chain.hops start
  match chain.hops.getLast? with
  | none => return .rows []
  | some hop =>
    let docs ← (Collection.new ex.ns ex.db hop.destTable).getMany ids
    let found := docs.filter fun doc => filter.all (matchesWhere doc)
    return .rows (limited (found.map (traversalRow hop.destTable chain.projection)) limit)

def execSelect (ex : QueryExecutor) (fields : SelectFields) (source : FromTarget)
    (filter : Option WhereClause) (orderBy : List OrderKey) (limit : Option Nat) : Db QueryResult :=
  match fields with
  | .traversal chain => ex.execTraversalSelect chain source filter limit
  | .all => ex.execDocumentSelect none source filter orderBy limit
  | .named items => ex.execDocumentSelect (some items) source filter orderBy limit

/-! ## Counting -/

def groupRows (field : String) (docs : List Document) : List Fields :=
  let buckets := docs.foldl (fun buckets doc =>
    bucketAdd ((doc.fields[field]?.filter (!·.isNone)).getD .none) buckets) []
  let rows := buckets.map fun b =>
    ((∅ : Fields).insert field b.2.1).insert "count" (.int (Int64.ofNat b.2.2))
  sortBy (fun a b =>
    (compare (countOf "count" b) (countOf "count" a)).then (orderCmp a[field]? b[field]?)) rows

def execCountGrouped (coll : Collection) (filter : Option WhereClause) (field : String) :
    Db QueryResult := do
  let docs ← candidates coll filter
  return .rows (groupRows field (docs.filter fun doc => filter.all (matchesWhere doc)))

def countMatches (coll : Collection) (clause : WhereClause) : Db Nat :=
  match planIndexLookup coll.indexes clause with
  | some plan => do
    let ids ← runIndexPlan coll plan
    if plan.covers then return ids.length
    else
      let docs ← coll.getMany ids
      return (docs.filter fun doc => matchesWhere doc clause).length
  | none => do
    let docs ← coll.scanAll
    return (docs.filter fun doc => matchesWhere doc clause).length

def execCount (ex : QueryExecutor) (table : String) (filter : Option WhereClause)
    (groupBy : Option String) : Db QueryResult := do
  let coll ← Collection.load ex.ns ex.db table
  match groupBy with
  | some field => execCountGrouped coll filter field
  | none =>
    let count ← match filter with
      | none => coll.count
      | some clause => countMatches coll clause
    return .count count

/-! ## Graph statements -/

section Graph

variable [GraphAlgorithms]

def algoStr : CommunityAlgorithm → String
  | .louvain => "louvain"
  | .labelPropagation => "lp"

def communityRow (group : String × List String) : Fields :=
  (((∅ : Fields).insert "id" (.string group.1)).insert "size" (.int (Int64.ofNat group.2.length))).insert
    "members" (.array (group.2.map .string))

def execGraphCommunities (ex : QueryExecutor) (table : String) (algorithm : CommunityAlgorithm)
    (maxIterations : Nat) (resolution : F64) : Db QueryResult := do
  let edges ← EdgeStore.scanAllOutgoing ⟨ex.ns, ex.db, table⟩
  let groups := (GraphAlgorithms.detectCommunitiesWeighted edges algorithm maxIterations resolution).map
    communityRow
  return .communities (algoStr algorithm)
    (sortBy (fun a b => compare (countOf "size" b) (countOf "size" a)) groups)

def execGraphComponents (ex : QueryExecutor) (table : String) : Db QueryResult := do
  let edges ← EdgeStore.scanAllEdges ⟨ex.ns, ex.db, table⟩
  let sizes := (GraphAlgorithms.connectedComponents edges).map fun group => (group.2.length : Int)
  return .components sizes.length (sizes.foldl max 0) sizes.sum

def rankRows (ranked : List (String × F64)) (limit : Option Nat) : List Fields :=
  (limited ranked limit).map fun r => ((∅ : Fields).insert "id" (.string r.1)).insert "score" (.float r.2)

def execGraphPagerank (ex : QueryExecutor) (table : String) (damping : F64) (maxIterations : Nat)
    (limit : Option Nat) : Db QueryResult := do
  let edges ← EdgeStore.scanAllOutgoing ⟨ex.ns, ex.db, table⟩
  return .rows (rankRows (GraphAlgorithms.pagerank edges damping maxIterations) limit)

def execGraphCentrality (ex : QueryExecutor) (table : String) (mode : CentralityMode)
    (limit : Option Nat) : Db QueryResult := do
  let edges ← EdgeStore.scanAllEdges ⟨ex.ns, ex.db, table⟩
  return .rows (rankRows (GraphAlgorithms.degreeCentrality edges mode) limit)

def pathRow : Option (List String) → Fields
  | some nodes =>
    (((∅ : Fields).insert "found" (.bool true)).insert "length" (.int (Int64.ofNat (nodes.length - 1)))).insert
      "path" (.array (nodes.map .string))
  | none =>
    (((∅ : Fields).insert "found" (.bool false)).insert "length" (.int (-1))).insert "path" (.array [])

def execGraphPath (ex : QueryExecutor) (src dst table : String) (maxDepth : Option Nat) :
    Db QueryResult := do
  let edges ← EdgeStore.scanAllEdges ⟨ex.ns, ex.db, table⟩
  return .rows [pathRow (GraphAlgorithms.shortestPath edges src dst maxDepth)]

def edgeRow (edge : Edge) : Fields :=
  (((edge.properties.insert "src" (.string edge.src)).insert "dst" (.string edge.dst)).insert
    "edge_type" (.string edge.edgeType)).insert "weight" (.float (EdgeStore.weightOf edge.properties))

def execGraphEdges (ex : QueryExecutor) (uuid table : String) (filter : Option WhereClause) :
    Db QueryResult := do
  let edges ← EdgeStore.scanAllOutgoingEdges ⟨ex.ns, ex.db, table⟩
  let rows := (edges.map edgeRow).filter fun row => filter.all (matchesWhere ⟨⟨table, uuid⟩, row⟩)
  return .rows rows

end Graph

/-! ## All statements -/

def servicesDisabled : Error :=
  .query [.text "full-text and vector index features are not enabled on this server"]

variable [GraphAlgorithms]

/-- The statements that do not write, the write statements never coming here. Compaction changes no
entry. -/
def executeRead (ex : QueryExecutor) (i : Issued) : Db QueryResult :=
  match i.stmt with
  | .select fields source filter orderBy limit => ex.execSelect fields source filter orderBy limit
  | .count table filter groupBy => ex.execCount table filter groupBy
  | .graphCommunities table algorithm maxIterations resolution =>
    ex.execGraphCommunities table algorithm maxIterations resolution
  | .graphComponents table => ex.execGraphComponents table
  | .graphPagerank table damping maxIterations limit => ex.execGraphPagerank table damping maxIterations limit
  | .graphCentrality table mode limit => ex.execGraphCentrality table mode limit
  | .graphPath src dst table maxDepth => ex.execGraphPath src dst table maxDepth
  | .graphEdges table filter => ex.execGraphEdges i.uuid table filter
  | .compact => return .ok
  | _ => .fail servicesDisabled

def executeAny (ex : QueryExecutor) (i : Issued) : Db QueryResult := (ex.execute i).getD (ex.executeRead i)

end QueryExecutor

/-! ## Reading leaves the store as it is -/

namespace QueryExecutor

theorem readOnly_scanNeighbors (p : Bytes) : Prog.ReadOnly (Traversal.scanNeighbors p) :=
  (Prog.readOnly_query _).bind fun _ => Prog.readOnly_lift _

theorem readOnly_hopNeighbors (ex : QueryExecutor) (hop : TraversalHop) (id : String) :
    Prog.ReadOnly (ex.hopNeighbors hop id) := by
  unfold hopNeighbors
  split <;> exact readOnly_scanNeighbors _

theorem readOnly_followHop (ex : QueryExecutor) (hop : TraversalHop) (ids next : List String) :
    Prog.ReadOnly (ex.followHop hop ids next) := by
  induction ids generalizing next with
  | nil => trivial
  | cons id ids ih => exact (ex.readOnly_hopNeighbors hop id).bind fun _ => ih _

theorem readOnly_followHops (ex : QueryExecutor) (hops : List TraversalHop) (ids : List String) :
    Prog.ReadOnly (ex.followHops hops ids) := by
  induction hops generalizing ids with
  | nil => trivial
  | cons hop hops ih => exact (ex.readOnly_followHop hop ids []).bind fun _ => ih _

theorem readOnly_startIds (ex : QueryExecutor) (source : FromTarget) : Prog.ReadOnly (ex.startIds source) := by
  cases source with
  | record r => trivial
  | table t => exact (Prog.readOnly_query _).bind fun _ => Prog.readOnly_lift _

theorem readOnly_scanAllEdges (es : EdgeStore) : Prog.ReadOnly es.scanAllEdges :=
  (Prog.readOnly_query _).bind fun _ => Prog.readOnly_lift _

variable [Rmp]

theorem readOnly_scanAllOutgoing (es : EdgeStore) : Prog.ReadOnly es.scanAllOutgoing :=
  (Prog.readOnly_query _).bind fun _ => Prog.readOnly_lift _

variable [CodeIntel]

theorem readOnly_execTraversalSelect (ex : QueryExecutor) (chain : TraversalChain) (source : FromTarget)
    (filter : Option WhereClause) (limit : Option Nat) :
    Prog.ReadOnly (ex.execTraversalSelect chain source filter limit) := by
  refine (ex.readOnly_startIds source).bind fun start => (ex.readOnly_followHops _ start).bind fun ids => ?_
  split
  · trivial
  · exact (Collection.readOnly_getMany _ _).bind fun _ => trivial

theorem readOnly_countMatches (coll : Collection) (clause : WhereClause) :
    Prog.ReadOnly (countMatches coll clause) := by
  unfold countMatches
  split
  · refine (Collection.readOnly_findIds _ _ _ _ _ _ _ _).bind fun ids => ?_
    split
    · trivial
    · exact (coll.readOnly_getMany _).bind fun _ => trivial
  · exact coll.readOnly_scanAll.bind fun _ => trivial

variable [Texts]

theorem readOnly_execDocumentSelect (ex : QueryExecutor) (items : Option (List SelectItem))
    (source : FromTarget) (filter : Option WhereClause) (orderBy : List OrderKey) (limit : Option Nat) :
    Prog.ReadOnly (ex.execDocumentSelect items source filter orderBy limit) := by
  have hdocs : Prog.ReadOnly (ex.selectDocs source filter) := by
    cases source with
    | table table =>
      exact (Collection.readOnly_load _ _ _).bind fun c => (readOnly_candidates c filter).bind fun _ => trivial
    | record r => exact (Collection.readOnly_get _ _).bind fun _ => trivial
  exact hdocs.bind fun _ => trivial

theorem readOnly_execCount (ex : QueryExecutor) (table : String) (filter : Option WhereClause)
    (groupBy : Option String) : Prog.ReadOnly (ex.execCount table filter groupBy) := by
  refine (Collection.readOnly_load _ _ _).bind fun c => ?_
  cases groupBy with
  | some field => exact (readOnly_candidates c filter).bind fun _ => trivial
  | none =>
    cases filter with
    | none => exact (Prog.readOnly_query _).bind fun _ => trivial
    | some clause => exact (readOnly_countMatches c clause).bind fun _ => trivial

variable [GraphAlgorithms]

theorem readOnly_executeRead (ex : QueryExecutor) (i : Issued) : Prog.ReadOnly (ex.executeRead i) := by
  obtain ⟨uuid, stmt⟩ := i
  cases stmt with
  | select fields source filter orderBy limit =>
    cases fields with
    | traversal chain => exact ex.readOnly_execTraversalSelect chain source filter limit
    | all => exact ex.readOnly_execDocumentSelect none source filter orderBy limit
    | named items => exact ex.readOnly_execDocumentSelect (some items) source filter orderBy limit
  | count table filter groupBy => exact ex.readOnly_execCount table filter groupBy
  | graphCommunities table algorithm maxIterations resolution =>
    exact (readOnly_scanAllOutgoing _).bind fun _ => trivial
  | graphComponents table => exact (readOnly_scanAllEdges _).bind fun _ => trivial
  | graphPagerank table damping maxIterations limit =>
    exact (readOnly_scanAllOutgoing _).bind fun _ => trivial
  | graphCentrality table mode limit => exact (readOnly_scanAllEdges _).bind fun _ => trivial
  | graphPath src dst table maxDepth => exact (readOnly_scanAllEdges _).bind fun _ => trivial
  | graphEdges table filter =>
    exact ((Prog.readOnly_query _).bind fun _ => Prog.readOnly_lift _).bind fun _ => trivial
  | _ => trivial

end QueryExecutor

/-! ## Texts and algorithms to run the model with -/

/-- The groups with those that share a vertex of the edge merged. -/
def mergeGroups (groups : List (List String)) (edge : String × String) : List (List String) :=
  let touched := groups.filter fun group => edge.1 ∈ group ∨ edge.2 ∈ group
  (touched.flatten ++ [edge.1, edge.2]).dedup :: groups.filter fun group => edge.1 ∉ group ∧ edge.2 ∉ group

namespace Concrete

/-- No text of these is part of a response about components. -/
scoped instance noTexts : Texts := ⟨fun _ => "", fun _ => "", fun _ => "", fun _ => "", fun _ => none⟩

/-- Components as the source computes them; the other algorithms are not run below. -/
scoped instance components : GraphAlgorithms where
  detectCommunitiesWeighted _ _ _ _ := []
  connectedComponents edges := (edges.foldl mergeGroups []).map fun group => (group.headD "", group)
  pagerank _ _ _ := []
  degreeCentrality _ _ := []
  shortestPath _ _ _ _ := none

end Concrete

end Dllb
