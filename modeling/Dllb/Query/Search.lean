import Mathlib
import Dllb.Lib.Proc
import Dllb.Query.Services

/-! # The executor with the search services

The handlers are programs over the store and the services. What the full-text
services hold is left out: they keep to themselves, here they do not fail, and
what they find is given in advance.
-/

namespace Dllb

set_option autoImplicit false

/-! ## Instructions -/

/-- The store, the services, the levels that insertions will draw, and what the text searches will
find. -/
structure World where
  store : Store
  services : SearchServices
  draws : Nat → Nat
  texts : Nat → List (String × F32)

/-- The atomic steps of a handler. -/
inductive Instr where
  | snapshot
  | commit (f : Store → Store)
  | defineVector (name : String) (dim : Nat) (metric : DistanceMetric)
  | getOrCreateVector (name : String) (dim : Nat) (metric : DistanceMetric)
  | vectorExists (name : String)
  | isLoaded (entry : EntryRef)
  | setLoaded (entry : EntryRef)
  | setVectorLoaded (name : String) (loaded : Bool)
  | lock (entry : EntryRef)
  | unlock (entry : EntryRef)
  | vectorInsert (name id : String) (vector : List F32)
  | vectorRemove (name id : String)
  | vectorSearch (name : String) (query : List F32) (k : Nat)
  | dropVector (name : String)
  | ftsSearch (table field query : String) (limit : Nat)

def Instr.Ans (D : Type) : Instr → Type
  | .snapshot => Store
  | .getOrCreateVector _ _ _ => EntryRef
  | .vectorExists _ => Bool
  | .isLoaded _ => Bool
  | .vectorSearch _ _ _ => Result (List (VectorHit D))
  | .ftsSearch _ _ _ _ => List (String × F32)
  | _ => Unit

namespace World

def withServices (w : World) (services : SearchServices) : World := { w with services }

def withStore (w : World) (store : Store) : World := { w with store }

variable (D : Type) [LinearOrder D] [Distance F32 D] [BeamHeaps D]

def vectorInsert (w : World) (name id : String) (vector : List F32) : World :=
  { w with
    services := w.services.vectorInsert D name id vector (w.draws 0)
    draws := fun n => w.draws (n + 1) }

def machine : Proc.Machine (Instr.Ans D) World
  | .snapshot, w => some (w.store, w)
  | .commit f, w => some ((), w.withStore (f w.store))
  | .defineVector name dim metric, w => some ((), w.withServices (w.services.defineVector name dim metric))
  | .getOrCreateVector name dim metric, w =>
    some ((w.services.getOrCreateVector name dim metric).1,
      w.withServices (w.services.getOrCreateVector name dim metric).2)
  | .vectorExists name, w => some (w.services.vectorExists name, w)
  | .isLoaded r, w => some (w.services.isLoaded r, w)
  | .setLoaded r, w => some ((), w.withServices (w.services.modify r fun e => { e with loaded := true }))
  | .setVectorLoaded name loaded, w => some ((), w.withServices (w.services.setVectorLoaded name loaded))
  | .lock r, w =>
    if w.services.isLocked r then none
    else some ((), w.withServices (w.services.modify r fun e => { e with locked := true }))
  | .unlock r, w => some ((), w.withServices (w.services.modify r fun e => { e with locked := false }))
  | .vectorInsert name id vector, w => some ((), w.vectorInsert D name id vector)
  | .vectorRemove name id, w => some ((), w.withServices (w.services.vectorRemove name id))
  | .vectorSearch name query k, w => some (w.services.vectorSearch D name query k, w)
  | .dropVector name, w => some ((), w.withServices (w.services.dropVector name))
  | .ftsSearch _ _ _ _, w => some (w.texts 0, { w with texts := fun n => w.texts (n + 1) })

/-- The process starts anew: what was in memory is gone. -/
def restart (w : World) : World := w.withServices .new

end World

/-- Programs over the store and the services that may fail. -/
abbrev SearchDb (D α : Type) := Proc (Instr.Ans D) Error α

namespace SearchDb

variable {D : Type}

/-- The transactions of a program over the store alone. -/
def onStore {α : Type} : Db α → SearchDb D α
  | .ret a => .ret a
  | .fail e => .fail e
  | .read k => .act .snapshot fun s => onStore (k s)
  | .write f k => .act (.commit f) fun _ => onStore k

def defineVector (name : String) (dim : Nat) (metric : DistanceMetric) : SearchDb D Unit :=
  .perform (Instr.defineVector name dim metric)

def getOrCreateVector (name : String) (dim : Nat) (metric : DistanceMetric) : SearchDb D EntryRef :=
  .perform (Instr.getOrCreateVector name dim metric)

def vectorExists (name : String) : SearchDb D Bool := .perform (Instr.vectorExists name)

def isLoaded (entry : EntryRef) : SearchDb D Bool := .perform (Instr.isLoaded entry)

def setLoaded (entry : EntryRef) : SearchDb D Unit := .perform (Instr.setLoaded entry)

def setVectorLoaded (name : String) (loaded : Bool) : SearchDb D Unit :=
  .perform (Instr.setVectorLoaded name loaded)

def lock (entry : EntryRef) : SearchDb D Unit := .perform (Instr.lock entry)

def unlock (entry : EntryRef) : SearchDb D Unit := .perform (Instr.unlock entry)

def vectorInsert (name id : String) (vector : List F32) : SearchDb D Unit :=
  .perform (Instr.vectorInsert name id vector)

def vectorRemove (name id : String) : SearchDb D Unit := .perform (Instr.vectorRemove name id)

def vectorSearch (name : String) (query : List F32) (k : Nat) :
    SearchDb D (Result (List (VectorHit D))) := .perform (Instr.vectorSearch name query k)

def dropVector (name : String) : SearchDb D Unit := .perform (Instr.dropVector name)

def ftsSearch (table field query : String) (limit : Nat) : SearchDb D (List (String × F32)) :=
  .perform (Instr.ftsSearch table field query limit)

end SearchDb

/-! ## Handlers -/

/-- A distance as it is put into a row. -/
class Score (D : Type) where
  toF64 : D → F64

inductive SearchKind where
  | fullText
  | vector

def SearchKind.label : SearchKind → String
  | fullText => "full-text"
  | vector => "vector"

def SearchKind.wants : SearchKind → IndexKind → Bool
  | fullText, .fullText _ => true
  | vector, .vector _ _ => true
  | _, _ => false

namespace Searching

open SearchDb

variable {D : Type} [Rmp] [CodeIntel] [Score D]

def fieldVector (field : String) (doc : Document) : Option (List F32) :=
  doc.fields[field]?.bind valueToVector

def insertVector (name field : String) (doc : Document) : SearchDb D Unit :=
  match fieldVector field doc with
  | some v => vectorInsert name doc.id.id v
  | none => return ()

/-- Insert the vectors of the documents. -/
def insertVectors (name field : String) : List Document → SearchDb D Unit
  | [] => return ()
  | doc :: docs => do
    insertVector name field doc
    insertVectors name field docs

/-- What `ensureVectorLoaded` does while it holds the lock. -/
def rebuild (ex : QueryExecutor) (table : String) (idx : IndexDefinition) (entry : EntryRef) :
    SearchDb D Unit := do
  if ← isLoaded entry then return ()
  else
    match idx.fields.head? with
    | none => setLoaded entry
    | some field =>
      let docs ← onStore (Collection.new ex.ns ex.db table).scanAll
      insertVectors idx.name field docs
      setLoaded entry

def ensureVectorLoaded (ex : QueryExecutor) (table : String) (idx : IndexDefinition) (dim : Nat)
    (metric : String) : SearchDb D Unit := do
  let parsed ← .lift (parseMetric metric)
  let entry ← getOrCreateVector idx.name dim parsed
  if ← isLoaded entry then return ()
  else
    lock entry
    (rebuild ex table idx entry).ensuring (unlock entry)

/-- What a mutation of a document comes to in one index; `doc` is what was written, or nothing after
a delete. -/
def maintainIndex (ex : QueryExecutor) (table id : String) (doc : Option Document)
    (idx : IndexDefinition) : SearchDb D Unit :=
  match idx.fields.head?, idx.kind with
  | some field, .vector dim metric =>
    match doc.bind (fieldVector field) with
    | some v => do
      ensureVectorLoaded ex table idx dim metric
      vectorInsert idx.name id v
    | none => do
      if ← vectorExists idx.name then vectorRemove idx.name id
      else return ()
  | _, _ => return ()

def maintainSearchIndexes (ex : QueryExecutor) (table id : String) (doc : Option Document) :
    List IndexDefinition → SearchDb D Unit
  | [] => return ()
  | idx :: defs => do
    maintainIndex ex table id doc idx
    maintainSearchIndexes ex table id doc defs

/-- Maintain the indexes from the document that is stored now, if there is one. -/
def maintainStored (ex : QueryExecutor) (coll : Collection) (id : String) : SearchDb D Unit := do
  match ← onStore (coll.get id) with
  | some stored => maintainSearchIndexes ex coll.table id (some stored) coll.indexes
  | none => return ()

/-- The write of a `CREATE`: its result, and the id of the record. -/
def createRecord (coll : Collection) (uuid : String) (id : Option String) (fields : Assignments)
    (onConflict : Option OnConflict) : Db (QueryResult × String) :=
  let doc := setAll (Document.new ⟨coll.table, id.getD uuid⟩) fields
  match onConflict with
  | some conflict =>
    match id with
    | none => .fail QueryExecutor.requiresId
    | some idStr => do
      let r ← coll.upsert idStr doc (conflictFields fields conflict)
      return (if r.2 then .created r.1 else .updated r.1, r.1.id)
  | none => do
    let createdId ← match id with
      | some id => coll.createWithId id doc
      | none => coll.create doc
    return (.created createdId, createdId.id)

def execCreate (ex : QueryExecutor) (uuid table : String) (id : Option String) (fields : Assignments)
    (onConflict : Option OnConflict) : SearchDb D QueryResult := do
  let coll ← onStore (Collection.load ex.ns ex.db table)
  let r ← onStore (createRecord coll uuid id fields onConflict)
  maintainStored ex coll r.2
  return r.1

def updateRows (ex : QueryExecutor) (coll : Collection) (fields : Fields) (filter : Option WhereClause) :
    List Document → Nat → SearchDb D Nat
  | [], matched => return matched
  | doc :: docs, matched =>
    if filter.all (matchesWhere doc) then do
      onStore (coll.merge doc.id.id fields)
      maintainStored ex coll doc.id.id
      updateRows ex coll fields filter docs (matched + 1)
    else updateRows ex coll fields filter docs matched

def execUpdate (ex : QueryExecutor) (target : FromTarget) (fields : Assignments)
    (filter : Option WhereClause) : SearchDb D QueryResult :=
  match target with
  | .record r => do
    let coll ← onStore (Collection.load ex.ns ex.db r.table)
    match ← onStore (coll.get r.id) with
    | some _ =>
      onStore (coll.merge r.id (assigned fields))
      maintainStored ex coll r.id
      return .update 1
    | none => return .update 0
  | .table table => do
    let coll ← onStore (Collection.load ex.ns ex.db table)
    let docs ← onStore coll.scanAll
    let matched ← updateRows ex coll (assigned fields) filter docs 0
    return .update matched

/-- Delete a record and take it out of the indexes. -/
def deleteRecord (ex : QueryExecutor) (coll : Collection) (id : String) : SearchDb D Bool := do
  let existed ← onStore (coll.delete id)
  if existed then
    maintainSearchIndexes ex coll.table id none coll.indexes
    return true
  else return false

def execDelete (ex : QueryExecutor) (table id : String) : SearchDb D QueryResult := do
  let coll ← onStore (Collection.load ex.ns ex.db table)
  let existed ← deleteRecord ex coll id
  return .deleted existed

def deleteRows (ex : QueryExecutor) (coll : Collection) (filter : Option WhereClause) :
    List Document → Nat → SearchDb D Nat
  | [], count => return count
  | doc :: docs, count =>
    if filter.all (matchesWhere doc) then do
      let existed ← deleteRecord ex coll doc.id.id
      deleteRows ex coll filter docs (if existed then count + 1 else count)
    else deleteRows ex coll filter docs count

def execDeleteWhere (ex : QueryExecutor) (table : String) (filter : Option WhereClause) :
    SearchDb D QueryResult := do
  let coll ← onStore (Collection.load ex.ns ex.db table)
  let docs ← onStore (candidates coll filter)
  let count ← deleteRows ex coll filter docs 0
  return .deletedMany count

/-- The records a batch has written into tables that have more than B-tree indexes. -/
def searchCreates (cache : List (String × List IndexDefinition)) (stmts : List Issued) :
    List (String × String) :=
  stmts.filterMap fun i =>
    match i.stmt with
    | .create table id _ _ =>
      if ((cache.lookup table).getD []).any (!·.isBtree) then some (table, id.getD i.uuid) else none
    | _ => none

def maintainCreates (ex : QueryExecutor) (cache : List (String × List IndexDefinition)) :
    List (String × String) → SearchDb D Unit
  | [] => return ()
  | (table, id) :: creates => do
    maintainStored ex ((Collection.new ex.ns ex.db table).withIndexes ((cache.lookup table).getD [])) id
    maintainCreates ex cache creates

def executeBatch (ex : QueryExecutor) (stmts : List Issued) : SearchDb D QueryResult := do
  let st ← onStore (ex.batchSteps stmts .empty)
  onStore (Db.writeBatch st.puts st.deletes)
  maintainCreates ex st.idxCache (searchCreates st.idxCache stmts)
  return .batch stmts.length st.created st.updated

def execRemoveIndex (ex : QueryExecutor) (name table : String) : SearchDb D QueryResult := do
  let defs ← onStore (Index.loadIndexDefinitions ex.ns ex.db table)
  let deletes ← onStore (Db.scanPrefixKeys (Key.indexPrefix ex.ns ex.db table name))
  onStore (Db.writeBatch [] (deletes ++ [Key.indexCatalogKey ex.ns ex.db table name]))
  if (defs.find? (·.name = name)).any (·.kind.isVector) then
    dropVector name
    return .ok
  else return .ok

/-- Register a fresh index and fill it with the vectors of the stored documents. -/
def backfillVector (ex : QueryExecutor) (name table field : String) (dim : Nat) (metric : DistanceMetric) :
    SearchDb D Unit := do
  defineVector name dim metric
  let docs ← onStore (Collection.new ex.ns ex.db table).scanAll
  insertVectors name field docs
  setVectorLoaded name true

def execDefineVector (ex : QueryExecutor) (name table field : String) (dim : Nat) (metric : Option String) :
    SearchDb D QueryResult :=
  if dim = 0 then
    .fail (.query [.text "DEFINE VECTOR INDEX requires a positive DIMENSION"])
  else do
    let metric := metric.getD "cosine"
    let parsed ← .lift (parseMetric metric)
    let idx : IndexDefinition := { name, fields := [field], unique := false, kind := .vector dim metric }
    let kv ← .lift (Index.indexDefinitionKv ex.ns ex.db table idx)
    onStore (Db.writeBatch [kv] [])
    backfillVector ex name table field dim parsed
    return .ok

/-- Only the definition is written; the text goes to the full-text services. -/
def execDefineFulltext (ex : QueryExecutor) (name table field : String) (analyzer : Option String) :
    SearchDb D QueryResult := do
  let analyzer := analyzer.getD "default"
  let _config ← .lift (parseAnalyzer analyzer)
  let idx : IndexDefinition := { name, fields := [field], unique := false, kind := .fullText analyzer }
  let kv ← .lift (Index.indexDefinitionKv ex.ns ex.db table idx)
  onStore (Db.writeBatch [kv] [])
  let _docs ← onStore (Collection.new ex.ns ex.db table).scanAll
  return .ok

/-! ## Searches -/

/-- The first index of the kind on the field is the one that is searched. -/
def findSearchIndex (ex : QueryExecutor) (table field : String) (want : SearchKind) :
    SearchDb D IndexDefinition := do
  let defs ← onStore (Index.loadIndexDefinitions ex.ns ex.db table)
  match defs.find? fun d => d.fields.head? == some field && want.wants d.kind with
  | some idx => return idx
  | none => .fail (.query [.text ("no " ++ want.label ++ " index defined on " ++ table ++ "." ++ field)])

def defaultSearchLimit : Nat := 10

/-- Number of ranked candidates to fetch: more of them when a filter will prune the hits. -/
def candidatePool (limit : Nat) (filtered : Bool) : Nat :=
  if filtered then max (min (limit * 10) (2 ^ 64 - 1)) limit else limit

/-- The row of a hit, if its document is there and passes the filter. -/
def hitRow (table : String) (docs : List Document) (filter : Option WhereClause)
    (hit : String × List (String × F64)) : Option Fields := do
  let doc ← docs.reverse.find? (·.id.id = hit.1)
  if filter.all (matchesWhere doc) then
    return hit.2.foldl (fun row score => row.insert score.1 (.float score.2))
      (doc.fields.insert "id" (.string (table ++ ":" ++ hit.1)))
  else none

/-- The rows of the hits in their order, until there are enough of them. -/
def resolveHits (table : String) (docs : List Document) (filter : Option WhereClause) (limit : Nat) :
    List (String × List (String × F64)) → Nat → List Fields
  | [], _ => []
  | hit :: hits, found =>
    match hitRow table docs filter hit with
    | none => resolveHits table docs filter limit hits found
    | some row => row :: if limit ≤ found + 1 then [] else resolveHits table docs filter limit hits (found + 1)

def rowsFromHits (ex : QueryExecutor) (table : String) (hits : List (String × F64))
    (filter : Option WhereClause) (limit : Nat) (scoreField : String) : SearchDb D QueryResult := do
  let docs ← onStore ((Collection.new ex.ns ex.db table).getMany (hits.map Prod.fst))
  return .rows (resolveHits table docs filter limit (hits.map fun hit => (hit.1, [(scoreField, hit.2)])) 0)

def execSearch (ex : QueryExecutor) (table field query : String) (filter : Option WhereClause)
    (limit : Option Nat) : SearchDb D QueryResult := do
  let _idx ← findSearchIndex ex table field .fullText
  let limit := limit.getD defaultSearchLimit
  let hits ← ftsSearch table field query (candidatePool limit filter.isSome)
  rowsFromHits ex table (hits.map fun hit => (hit.1, hit.2.toF64)) filter limit "score"

def ensureLoaded (ex : QueryExecutor) (table : String) (idx : IndexDefinition) : SearchDb D Unit :=
  match idx.kind with
  | .vector dim metric => ensureVectorLoaded ex table idx dim metric
  | _ => return ()

/-- The ids and distances that the vector index finds. -/
def vectorHits (name : String) (vector : List F64) (k : Nat) : SearchDb D (List (String × F64)) := do
  let found ← vectorSearch name (vector.map F32.ofF64) k
  let hits ← .lift found
  return hits.map fun hit => (hit.id, Score.toF64 hit.distance)

def execVectorSearch (ex : QueryExecutor) (table field : String) (vector : List F64)
    (filter : Option WhereClause) (k : Option Nat) : SearchDb D QueryResult := do
  let idx ← findSearchIndex ex table field .vector
  ensureLoaded ex table idx
  let k := k.getD defaultSearchLimit
  let hits ← vectorHits idx.name vector (candidatePool k filter.isSome)
  rowsFromHits ex table hits filter k "distance"

/-! ## Hybrid search -/

/-- A NaN is passed over. -/
def minNumber (a b : F64) : F64 := if a.isNan then b else if b.partialCmp a = some .lt then b else a

def maxNumber (a b : F64) : F64 := if a.isNan then b else if b.partialCmp a = some .gt then b else a

/-- Scores between zero and one, one for the best. -/
def normalizeScores (hits : List (String × F64)) (lowerIsBetter : Bool) : List (String × F64) :=
  let goodness := hits.map fun hit => if lowerIsBetter then hit.2.neg else hit.2
  let lowest := goodness.foldl minNumber (.ofMagnitude false F64.infinity)
  let highest := goodness.foldl maxNumber (.ofMagnitude true F64.infinity)
  let range := highest.sub lowest
  (hits.zip goodness).map fun x =>
    (x.1.1, if range.partialCmp 0 = some .gt then (x.2.sub lowest).div range else 1)

/-- `clamp(0.0, 1.0)` -/
def clampUnit (f : F64) : F64 :=
  if f.partialCmp 0 = some .lt then 0 else if f.partialCmp 1 = some .gt then 1 else f

structure Blended where
  id : String
  score : F64
  textScore : F64
  vectorScore : F64

/-- The union of the candidates; a score that is missing is zero. -/
def blend (alpha : F64) (texts vectors : List (String × F64)) : List Blended :=
  let scores : Std.ExtTreeMap String (F64 × F64) cmpString := texts.foldl
    (fun m hit => m.insert hit.1 (hit.2, (m[hit.1]?.getD (0, 0)).2)) ∅
  let scores := vectors.foldl (fun m hit => m.insert hit.1 ((m[hit.1]?.getD (0, 0)).1, hit.2)) scores
  scores.toList.map fun x =>
    ⟨x.1, (alpha.mul x.2.1).add (((1 : F64).sub alpha).mul x.2.2), x.2.1, x.2.2⟩

/-- The highest score first, equal ones by id. -/
def compareBlended (a b : Blended) : Ordering :=
  ((b.score.partialCmp a.score).getD .eq).then (cmpString a.id b.id)

def Blended.hit (b : Blended) : String × List (String × F64) :=
  (b.id, [("score", b.score), ("text_score", b.textScore), ("vector_score", b.vectorScore)])

def execHybridSearch (ex : QueryExecutor) (table textField query vectorField : String) (vector : List F64)
    (alpha : Option F64) (filter : Option WhereClause) (limit : Option Nat) : SearchDb D QueryResult := do
  let _textIdx ← findSearchIndex ex table textField .fullText
  let vectorIdx ← findSearchIndex ex table vectorField .vector
  ensureLoaded ex table vectorIdx
  -- 0.5
  let alpha := clampUnit (alpha.getD ⟨0x3FE0000000000000⟩)
  let limit := limit.getD defaultSearchLimit
  let pool := candidatePool limit true
  let texts ← ftsSearch table textField query pool
  let vectors ← vectorHits vectorIdx.name vector pool
  let scored := sortBy compareBlended (blend alpha
    (normalizeScores (texts.map fun hit => (hit.1, hit.2.toF64)) false) (normalizeScores vectors true))
  let docs ← onStore ((Collection.new ex.ns ex.db table).getMany (scored.map Blended.id))
  return .rows (resolveHits table docs filter limit (scored.map Blended.hit) 0)

/-- The statements that write documents or come to the services. -/
def execute (ex : QueryExecutor) (i : Issued) : Option (SearchDb D QueryResult) :=
  match i.stmt with
  | .create table id fields onConflict => some (execCreate ex i.uuid table id fields onConflict)
  | .update target fields filter => some (execUpdate ex target fields filter)
  | .delete table id => some (execDelete ex table id)
  | .deleteWhere table filter => some (execDeleteWhere ex table filter)
  | .relate src edgeType dst fields => some (onStore (ex.execRelate src edgeType dst fields))
  | .defineIndex name table fields unique => some (onStore (ex.execDefineIndex name table fields unique))
  | .removeIndex name table => some (execRemoveIndex ex name table)
  | .defineFulltextIndex name table field analyzer => some (execDefineFulltext ex name table field analyzer)
  | .defineVectorIndex name table field dim metric => some (execDefineVector ex name table field dim metric)
  | .search table field query filter limit => some (execSearch ex table field query filter limit)
  | .vectorSearch table field vector filter k => some (execVectorSearch ex table field vector filter k)
  | .hybridSearch table textField query vectorField vector alpha filter limit =>
    some (execHybridSearch ex table textField query vectorField vector alpha filter limit)
  | _ => none

def prog (ex : QueryExecutor) : Request → Option (SearchDb D QueryResult)
  | .statement i => execute ex i
  | .batch stmts => some (executeBatch ex stmts)

end Searching

end Dllb
