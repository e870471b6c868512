import Mathlib
import Dllb.Graph.Store
import Dllb.Query.Plan

/-! # The executor: the statements that write

The handlers of the write statements and of a batch, with the search services
disabled. What `RecordId::generate` draws is an argument of the statements
that may need it.
-/

namespace Dllb

set_option autoImplicit false

inductive QueryResult where
  | ok
  | created (id : RecordId)
  | updated (id : RecordId)
  | deleted (existed : Bool)
  | deletedMany (count : Nat)
  | rows (rows : List Fields)
  | communities (algorithm : String) (groups : List Fields)
  | cachedResponse (payload : String)
  | batch (count created updated : Nat)
  | update (matched : Nat)
  | count (count : Nat)
  | components (count largest nodes : Int)

/-- The map of the assignments: a later one replaces an earlier one of the same field. -/
def assigned (fields : Assignments) : Fields :=
  fields.foldl (fun fs kv => fs.insert kv.1 kv.2.toValue) ∅

def setAll (doc : Document) (fields : Assignments) : Document :=
  fields.foldl (fun doc kv => doc.set kv.1 kv.2.toValue) doc

/-- What `ON CONFLICT` merges into an existing record. -/
def conflictFields (fields : Assignments) : OnConflict → Fields
  | .update => assigned fields
  | .updateSet updateSet => assigned updateSet

/-- A statement with the UUID that is drawn for it if it asks for one. -/
structure Issued where
  uuid : String
  stmt : Statement

structure QueryExecutor where
  ns : String
  db : String

namespace QueryExecutor

variable [Rmp] [CodeIntel]

def requiresId : Error := .query [.text "ON CONFLICT UPDATE requires an explicit record ID"]

def execCreate (ex : QueryExecutor) (uuid table : String) (id : Option String) (fields : Assignments)
    (onConflict : Option OnConflict) : Db QueryResult := do
  let coll ← Collection.load ex.ns ex.db table
  let doc := setAll (Document.new ⟨table, id.getD uuid⟩) fields
  match onConflict with
  | some conflict =>
    match id with
    | none => .fail requiresId
    | some idStr =>
      let r ← coll.upsert idStr doc (conflictFields fields conflict)
      return if r.2 then .created r.1 else .updated r.1
  | none =>
    let createdId ← match id with
      | some id => coll.createWithId id doc
      | none => coll.create doc
    return .created createdId

/-- Merge the fields into every row that passes the filter, counting the rows. -/
def updateRows (coll : Collection) (fields : Fields) (filter : Option WhereClause) :
    List Document → Nat → Db Nat
  | [], matched => return matched
  | doc :: docs, matched =>
    if filter.all (matchesWhere doc) then do
      coll.merge doc.id.id fields
      updateRows coll fields filter docs (matched + 1)
    else updateRows coll fields filter docs matched

def execUpdate (ex : QueryExecutor) (target : FromTarget) (fields : Assignments)
    (filter : Option WhereClause) : Db QueryResult :=
  match target with
  | .record r => do
    let coll ← Collection.load ex.ns ex.db r.table
    match ← coll.get r.id with
    | some _ =>
      coll.merge r.id (assigned fields)
      return .update 1
    | none => return .update 0
  | .table table => do
    let coll ← Collection.load ex.ns ex.db table
    let docs ← coll.scanAll
    let matched ← updateRows coll (assigned fields) filter docs 0
    return .update matched

def execDelete (ex : QueryExecutor) (table id : String) : Db QueryResult := do
  let coll ← Collection.load ex.ns ex.db table
  let existed ← coll.delete id
  return .deleted existed

def deleteRows (coll : Collection) (filter : Option WhereClause) : List Document → Nat → Db Nat
  | [], count => return count
  | doc :: docs, count =>
    if filter.all (matchesWhere doc) then do
      let existed ← coll.delete doc.id.id
      deleteRows coll filter docs (if existed then count + 1 else count)
    else deleteRows coll filter docs count

def execDeleteWhere (ex : QueryExecutor) (table : String) (filter : Option WhereClause) :
    Db QueryResult := do
  let coll ← Collection.load ex.ns ex.db table
  let docs ← candidates coll filter
  let count ← deleteRows coll filter docs 0
  return .deletedMany count

def edgeOf (src : RecordRef) (edgeType : String) (dst : RecordRef) (fields : Assignments) : Edge :=
  fields.foldl (fun edge kv => edge.withProperty kv.1 kv.2.toValue) (Edge.new src.id edgeType dst.id)

def execRelate (ex : QueryExecutor) (src : RecordRef) (edgeType : String) (dst : RecordRef)
    (fields : Assignments) : Db QueryResult := do
  EdgeStore.relate ⟨ex.ns, ex.db, edgeType⟩ (edgeOf src edgeType dst fields)
  return .ok

/-! ## Index DDL -/

/-- The backfill: entries of the existing documents, and the tuples seen so far when they have to
be unique. -/
def backfill (ns db table : String) (idx : IndexDefinition) :
    List Document → List Bytes → Result (List PutOp)
  | [], _ => .ok []
  | doc :: docs, seen => do
    let seen ← match idx.unique, Index.collectIndexValues doc idx with
      | true, some values => do
        let keyPart ← Index.encodeCompositeKeyPart values
        if keyPart ∈ seen then
          .error (.schema [.text ("cannot create unique index '" ++ idx.name ++
            "': duplicate values for the indexed fields")])
        else .ok (keyPart :: seen)
      | _, _ => .ok seen
    let entries ← Index.buildIndexEntries doc ns db table [idx]
    let rest ← backfill ns db table idx docs seen
    return entries ++ rest

def execDefineIndex (ex : QueryExecutor) (name table : String) (fields : List String) (unique : Bool) :
    Db QueryResult :=
  if fields.isEmpty then
    .fail (.query [.text "DEFINE INDEX requires at least one field"])
  else do
    let idx := IndexDefinition.btree name fields unique
    let docs ← (Collection.new ex.ns ex.db table).scanAll
    let entryPuts ← .lift (backfill ex.ns ex.db table idx docs [])
    let kv ← .lift (Index.indexDefinitionKv ex.ns ex.db table idx)
    Db.writeBatch (kv :: entryPuts) []
    return .ok

def execRemoveIndex (ex : QueryExecutor) (name table : String) : Db QueryResult := do
  -- The definition is looked up for its external structures only; a broken catalog still fails here.
  let _existing ← Index.loadIndexDefinitions ex.ns ex.db table
  let deletes ← Db.scanPrefixKeys (Key.indexPrefix ex.ns ex.db table name)
  Db.writeBatch [] (deletes ++ [Key.indexCatalogKey ex.ns ex.db table name])
  return .ok

/-! ## Batches -/

structure BatchState where
  puts : List PutOp
  deletes : List Bytes
  created : Nat
  updated : Nat
  idxCache : List (String × List IndexDefinition)

def BatchState.empty : BatchState :=
  { puts := [], deletes := [], created := 0, updated := 0, idxCache := [] }

def BatchState.record (st : BatchState) (wasCreated : Bool) (puts : List PutOp) (deletes : List Bytes) :
    BatchState :=
  { st with
    puts := st.puts ++ puts
    deletes := st.deletes ++ deletes
    created := if wasCreated then st.created + 1 else st.created
    updated := if wasCreated then st.updated else st.updated + 1 }

/-- The table's definitions, from the cache of the batch or from the catalog. -/
def cachedIndexes (ex : QueryExecutor) (table : String) (st : BatchState) :
    Db (List IndexDefinition × BatchState) :=
  match st.idxCache.lookup table with
  | some defs => return (defs, st)
  | none => do
    let defs ← Index.loadIndexDefinitions ex.ns ex.db table
    return (defs, { st with idxCache := (table, defs) :: st.idxCache })

def unsupportedInBatch : Error :=
  .query [.text "only CREATE and RELATE statements are supported inside BEGIN BATCH"]

/-- The operations of one `CREATE` of a batch, and whether it counts as created. -/
def createOps (coll : Collection) (uuid : String) (id : Option String) (fields : Assignments)
    (onConflict : Option OnConflict) : Db (Bool × List PutOp × List Bytes) :=
  let doc := setAll (Document.new ⟨coll.table, uuid⟩) fields
  match onConflict with
  | some conflict =>
    match id with
    | none => .fail requiresId
    | some idStr => do
      let r ← coll.upsertToOps idStr doc (conflictFields fields conflict)
      return r.2
  | none => do
    let r ← .lift (coll.createToOps (id.getD uuid) doc)
    return (true, r.2, [])

def batchStep (ex : QueryExecutor) (st : BatchState) (i : Issued) : Db BatchState :=
  match i.stmt with
  | .create table id fields onConflict => do
    let cached ← ex.cachedIndexes table st
    let coll := (Collection.new ex.ns ex.db table).withIndexes cached.1
    let ops ← createOps coll i.uuid id fields onConflict
    return cached.2.record ops.1 ops.2.1 ops.2.2
  | .relate src edgeType dst fields => do
    let puts ← .lift (EdgeStore.relateToOps ⟨ex.ns, ex.db, edgeType⟩ (edgeOf src edgeType dst fields))
    return { st with puts := st.puts ++ puts }
  | _ => .fail unsupportedInBatch

def batchSteps (ex : QueryExecutor) : List Issued → BatchState → Db BatchState
  | [], st => return st
  | i :: stmts, st => do
    let st ← ex.batchStep st i
    ex.batchSteps stmts st

def executeBatch (ex : QueryExecutor) (stmts : List Issued) : Db QueryResult := do
  let st ← ex.batchSteps stmts .empty
  Db.writeBatch st.puts st.deletes
  return .batch stmts.length st.created st.updated

/-! ## Requests -/

/-- The statements that write, as they are dispatched. The others only read the store or belong to
the search services. -/
def execute (ex : QueryExecutor) (i : Issued) : Option (Db QueryResult) :=
  match i.stmt with
  | .create table id fields onConflict => some (ex.execCreate i.uuid table id fields onConflict)
  | .update target fields filter => some (ex.execUpdate target fields filter)
  | .delete table id => some (ex.execDelete table id)
  | .deleteWhere table filter => some (ex.execDeleteWhere table filter)
  | .relate src edgeType dst fields => some (ex.execRelate src edgeType dst fields)
  | .defineIndex name table fields unique => some (ex.execDefineIndex name table fields unique)
  | .removeIndex name table => some (ex.execRemoveIndex name table)
  | _ => none

end QueryExecutor

end Dllb
