import Mathlib
import Dllb.Document.KeySpace
import Dllb.Document.IndexScan

/-! # Collections

The create, read, update and delete operations of a table, each a program of
storage transactions in the order the code issues them.
-/

namespace Dllb

set_option autoImplicit false

structure Collection where
  ns : String
  db : String
  table : String
  schema : Option TableDefinition
  indexes : List IndexDefinition

namespace Collection

variable [Rmp]

def new (ns db table : String) : Collection := { ns, db, table, schema := none, indexes := [] }

def load (ns db table : String) : Db Collection := do
  let indexes ← Index.loadIndexDefinitions ns db table
  return { ns, db, table, schema := none, indexes }

def withIndexes (c : Collection) (indexes : List IndexDefinition) : Collection := { c with indexes }

def docKey (c : Collection) (id : String) : Bytes := Key.documentKey c.ns c.db c.table id

def recordId (c : Collection) (id : String) : RecordId := ⟨c.table, id⟩

def validate (c : Collection) (doc : Document) : Result Unit :=
  match c.schema with
  | some schema => validateDocument doc schema
  | none => .ok ()

def entries (c : Collection) (doc : Document) : Result (List PutOp) :=
  Index.buildIndexEntries doc c.ns c.db c.table c.indexes

/-! ## Create -/

/-- A document without the complete tuple is not checked. -/
def checkUniqueIndex (c : Collection) (doc : Document) (id : String) (idx : IndexDefinition) : Db Unit :=
  if idx.unique then
    match Index.collectIndexValues doc idx with
    | some values => Index.checkUniqueConstraint c.ns c.db c.table idx values id
    | none => return ()
  else return ()

def checkUnique (c : Collection) (doc : Document) (id : String) : List IndexDefinition → Db Unit
  | [] => return ()
  | idx :: indexes => do
    c.checkUniqueIndex doc id idx
    c.checkUnique doc id indexes

def createInner (c : Collection) (id : String) (doc : Document) : Db RecordId := do
  .lift (c.validate doc)
  if ← Db.contains (c.docKey id) then
    .fail (.other [.text ("record already exists: " ++ id)])
  else
    c.checkUnique doc id c.indexes
    let docBytes ← .lift (serialize doc)
    let idxEntries ← .lift (c.entries doc)
    Db.putBatch ((c.docKey id, docBytes) :: idxEntries)
    return doc.id

def create (c : Collection) (doc : Document) : Db RecordId := c.createInner doc.id.id doc

def createWithId (c : Collection) (id : String) (doc : Document) : Db RecordId :=
  c.createInner id { doc with id := c.recordId id }

def createToOps (c : Collection) (id : String) (doc : Document) : Result (RecordId × List PutOp) := do
  let doc : Document := { doc with id := c.recordId id }
  c.validate doc
  let docBytes ← serialize doc
  let idxEntries ← c.entries doc
  return (doc.id, (c.docKey id, docBytes) :: idxEntries)

/-! ## Read -/

def get (c : Collection) (id : String) : Db (Option Document) := do
  match ← Db.get (c.docKey id) with
  | some bytes =>
    let doc ← .lift (deserialize (c.recordId id) bytes)
    return some doc
  | none => return none

def getOrNotFound (c : Collection) (id : String) : Db Document := do
  match ← c.get id with
  | some doc => return doc
  | none => .fail (.notFound [.text ("record not found: " ++ id)])

/-- The record id of a document key. -/
def idOfKey (k : Bytes) : Result String := do
  let parts ← Key.parseKey k
  match fromUtf8 parts.remainder with
  | some id => return id
  | none => .error (.storage [.text "invalid utf-8"])

def decodeAll (c : Collection) : List PutOp → Result (List Document)
  | [] => .ok []
  | (k, v) :: entries => do
    let id ← idOfKey k
    let doc ← deserialize (c.recordId id) v
    let docs ← c.decodeAll entries
    return doc :: docs

def scanAll (c : Collection) : Db (List Document) := do
  let entries ← Db.prefixScan (Key.tablePrefix c.ns c.db c.table Key.Tag.document)
  .lift (c.decodeAll entries)

def decodeIds : List Bytes → Result (List String)
  | [] => .ok []
  | k :: keys => do
    let id ← idOfKey k
    let ids ← decodeIds keys
    return id :: ids

def scanIds (c : Collection) : Db (List String) := do
  let keys ← Db.scanPrefixKeys (Key.tablePrefix c.ns c.db c.table Key.Tag.document)
  .lift (decodeIds keys)

def count (c : Collection) : Db Nat := Db.countPrefix (Key.tablePrefix c.ns c.db c.table Key.Tag.document)

def decodeFound (c : Collection) : List (String × Option Bytes) → Result (List Document)
  | [] => .ok []
  | (id, some bytes) :: found => do
    let doc ← deserialize (c.recordId id) bytes
    let docs ← c.decodeFound found
    return doc :: docs
  | (_, none) :: found => c.decodeFound found

def getMany (c : Collection) (ids : List String) : Db (List Document) := do
  if ids.isEmpty then return []
  else
    let values ← Db.multiGet (ids.map c.docKey)
    .lift (c.decodeFound (ids.zip values))

/-! ## Update -/

/-- The fields of `update` over those of `old`. -/
def mergeFields (old update : Fields) : Fields := update.toList.foldl (fun fs kv => fs.insert kv.1 kv.2) old

/-- The batch that puts `new` in the place of `old`: deletes first, then puts. -/
def replaceOps (c : Collection) (id : String) (old new : Document) : Result (List PutOp × List Bytes) := do
  let docBytes ← serialize new
  let oldIdx ← c.entries old
  let newIdx ← c.entries new
  return ((c.docKey id, docBytes) :: newIdx, oldIdx.map Prod.fst)

def replaceWithIndexes (c : Collection) (id : String) (old new : Document) : Db Unit := do
  let ops ← .lift (c.replaceOps id old new)
  Db.writeBatch ops.1 ops.2

def update (c : Collection) (id : String) (fields : Fields) : Db Unit := do
  let old ← c.getOrNotFound id
  let newDoc : Document := { id := old.id, fields }
  .lift (c.validate newDoc)
  c.replaceWithIndexes id old newDoc

def merge (c : Collection) (id : String) (fields : Fields) : Db Unit := do
  let old ← c.getOrNotFound id
  let newDoc : Document := { id := old.id, fields := mergeFields old.fields fields }
  .lift (c.validate newDoc)
  c.replaceWithIndexes id old newDoc

/-- The record id and whether the record was created. -/
def upsert (c : Collection) (id : String) (doc : Document) (updateFields : Fields) :
    Db (RecordId × Bool) := do
  if ← Db.contains (c.docKey id) then
    c.merge id updateFields
    return (c.recordId id, false)
  else
    let createdId ← c.createInner id doc
    return (createdId, true)

def upsertToOps (c : Collection) (id : String) (doc : Document) (updateFields : Fields) :
    Db (RecordId × Bool × List PutOp × List Bytes) := do
  if ← Db.contains (c.docKey id) then
    let old ← c.getOrNotFound id
    let newDoc : Document := { id := old.id, fields := mergeFields old.fields updateFields }
    .lift (c.validate newDoc)
    let ops ← .lift (c.replaceOps id old newDoc)
    return (c.recordId id, false, ops.1, ops.2)
  else
    let created ← .lift (c.createToOps id doc)
    return (created.1, true, created.2, [])

/-! ## Delete -/

def delete (c : Collection) (id : String) : Db Bool := do
  match ← c.get id with
  | none => return false
  | some doc =>
    let idxEntries ← .lift (c.entries doc)
    Db.deleteBatch (c.docKey id :: idxEntries.map Prod.fst)
    return true

/-! ## Index queries -/

def findIdsForScan (c : Collection) (indexName : String) (eq : List Value)
    (lower upper : Option Index.RangeBound) (fieldCount : Nat) : Db (List String) :=
  Index.findIds c.ns c.db c.table indexName eq lower upper fieldCount

/-! ## What only reads -/

omit [Rmp] in
theorem readOnly_findIds (ns db table indexName : String) (eq : List Value)
    (lower upper : Option Index.RangeBound) (fieldCount : Nat) :
    Prog.ReadOnly (Index.findIds ns db table indexName eq lower upper fieldCount) := by
  refine (Prog.readOnly_lift _).bind fun _ => (Prog.readOnly_lift _).bind fun _ =>
    (Prog.readOnly_lift _).bind fun _ => ?_
  split
  · trivial
  · exact (Prog.readOnly_query _).bind fun _ => trivial

omit [Rmp] in
theorem readOnly_checkUniqueIndex (c : Collection) (doc : Document) (id : String) (idx : IndexDefinition) :
    Prog.ReadOnly (c.checkUniqueIndex doc id idx) := by
  unfold checkUniqueIndex
  split
  · split
    · unfold Index.checkUniqueConstraint
      split
      · trivial
      · refine (readOnly_findIds _ _ _ _ _ _ _ _).bind fun ids => ?_
        split <;> trivial
    · trivial
  · trivial

omit [Rmp] in
theorem readOnly_checkUnique (c : Collection) (doc : Document) (id : String) (indexes : List IndexDefinition) :
    Prog.ReadOnly (c.checkUnique doc id indexes) := by
  induction indexes with
  | nil => trivial
  | cons idx indexes ih => exact (c.readOnly_checkUniqueIndex doc id idx).bind fun _ => ih

theorem readOnly_get (c : Collection) (id : String) : Prog.ReadOnly (c.get id) := by
  refine (Prog.readOnly_query _).bind fun value => ?_
  split
  · exact (Prog.readOnly_lift _).bind fun _ => trivial
  · trivial

theorem readOnly_getOrNotFound (c : Collection) (id : String) : Prog.ReadOnly (c.getOrNotFound id) := by
  refine (c.readOnly_get id).bind fun doc => ?_
  split <;> trivial

/-! ## Outcomes

What each write operation can do, guards included: either it leaves the store
as it was, or it commits one batch.
-/

/-- The stored fields of a record. -/
def Stored (c : Collection) (s : Store) (id : String) (fields : Fields) : Prop :=
  ∃ b, s[c.docKey id]? = some b ∧ Rmp.fromSlice b = .ok fields

theorem run_get_cases {c : Collection} {id : String} {s s' : Store} {r : Result (Option Document)}
    (h : (c.get id).run s = (r, s')) :
    s' = s ∧ ((s[c.docKey id]? = none ∧ r = .ok none) ∨
      (∃ fields, c.Stored s id fields ∧ r = .ok (some ⟨c.recordId id, fields⟩)) ∨
      (∃ b e, s[c.docKey id]? = some b ∧ Rmp.fromSlice b = .error e ∧
        r = .error (.serialization [.text e]))) := by
  have hs : s' = s := by
    rw [← (c.readOnly_get id).run_snd s, h]
  refine ⟨hs, ?_⟩
  unfold get Db.get at h
  rw [Prog.run_query_bind] at h
  cases hb : s[c.docKey id]? with
  | none =>
    rw [hb] at h
    cases h
    exact .inl ⟨rfl, rfl⟩
  | some b =>
    rw [hb] at h
    cases hf : Rmp.fromSlice b with
    | ok fields =>
      simp only [deserialize, hf] at h
      cases h
      exact .inr (.inl ⟨fields, ⟨b, hb, hf⟩, rfl⟩)
    | error e =>
      simp only [deserialize, hf] at h
      cases h
      exact .inr (.inr ⟨b, e, rfl, hf, rfl⟩)

theorem run_createInner_cases {c : Collection} {id : String} {doc : Document} {s s' : Store}
    {r : Result RecordId} (h : (c.createInner id doc).run s = (r, s')) :
    ((∃ e, r = .error e) ∧ s' = s) ∨
      (r = .ok doc.id ∧ c.validate doc = .ok () ∧ s[c.docKey id]? = none ∧
        (c.checkUnique doc id c.indexes).run s = (.ok (), s) ∧
        ∃ b es, serialize doc = .ok b ∧ c.entries doc = .ok es ∧
          s' = s.putBatch ((c.docKey id, b) :: es)) := by
  unfold createInner at h
  cases hvalid : c.validate doc with
  | error e =>
    rw [hvalid] at h
    cases h
    exact .inl ⟨⟨e, rfl⟩, rfl⟩
  | ok u =>
    rw [hvalid, Prog.run_lift_ok_bind, Db.contains, Prog.run_query_bind] at h
    cases hfresh : s[c.docKey id]? with
    | some b =>
      simp only [hfresh, Option.isSome_some, ↓reduceIte] at h
      cases h
      exact .inl ⟨⟨_, rfl⟩, rfl⟩
    | none =>
      simp only [hfresh, Option.isSome_none, Bool.false_eq_true, ↓reduceIte] at h
      rcases (c.readOnly_checkUnique doc id c.indexes).run_bind_cases h with
        ⟨e, _, rfl, rfl⟩ | ⟨_, hok, h⟩
      · exact .inl ⟨⟨e, rfl⟩, rfl⟩
      · cases hser : serialize doc with
        | error e =>
          rw [hser] at h
          cases h
          exact .inl ⟨⟨e, rfl⟩, rfl⟩
        | ok b =>
          cases hes : c.entries doc with
          | error e =>
            rw [hser, hes] at h
            cases h
            exact .inl ⟨⟨e, rfl⟩, rfl⟩
          | ok es =>
            rw [hser, hes] at h
            cases h
            exact .inr ⟨rfl, rfl, rfl, hok, b, es, rfl, rfl, rfl⟩

/-- `update` and `merge`: read the record, then put the changed fields in its place. -/
def modify (c : Collection) (id : String) (change : Fields → Fields) : Db Unit := do
  let old ← c.getOrNotFound id
  let newDoc : Document := { id := old.id, fields := change old.fields }
  .lift (c.validate newDoc)
  c.replaceWithIndexes id old newDoc

theorem update_eq_modify (c : Collection) (id : String) (fields : Fields) :
    c.update id fields = c.modify id fun _ => fields := rfl

theorem merge_eq_modify (c : Collection) (id : String) (fields : Fields) :
    c.merge id fields = c.modify id fun old => mergeFields old fields := rfl

theorem replaceOps_eq_ok {c : Collection} {id : String} {old new : Document}
    {ops : List PutOp × List Bytes} (h : c.replaceOps id old new = .ok ops) :
    ∃ b oldEs newEs, serialize new = .ok b ∧ c.entries old = .ok oldEs ∧ c.entries new = .ok newEs ∧
      ops = ((c.docKey id, b) :: newEs, oldEs.map Prod.fst) := by
  unfold replaceOps at h
  cases hser : serialize new with
  | error e => rw [hser] at h; cases h
  | ok b =>
    cases hold : c.entries old with
    | error e => rw [hser, hold] at h; cases h
    | ok oldEs =>
      cases hnew : c.entries new with
      | error e => rw [hser, hold, hnew] at h; cases h
      | ok newEs =>
        rw [hser, hold, hnew] at h
        cases h
        exact ⟨b, oldEs, newEs, rfl, rfl, rfl, rfl⟩

theorem run_getOrNotFound_cases {c : Collection} {id : String} {s s' : Store} {r : Result Document}
    (h : (c.getOrNotFound id).run s = (r, s')) :
    s' = s ∧ ((∃ e, r = .error e) ∨
      ∃ fields, c.Stored s id fields ∧ r = .ok ⟨c.recordId id, fields⟩) := by
  rcases Prog.run_bind_cases h with ⟨e, he, rfl⟩ | ⟨doc, s₁, hdoc, h⟩
  · exact ⟨(run_get_cases he).1, .inl ⟨e, rfl⟩⟩
  · obtain ⟨rfl, hget⟩ := run_get_cases hdoc
    cases doc with
    | none =>
      cases h
      exact ⟨rfl, .inl ⟨_, rfl⟩⟩
    | some doc =>
      cases h
      rcases hget with ⟨_, hr⟩ | ⟨fields, hstored, hr⟩ | ⟨_, _, _, _, hr⟩
      · cases hr
      · cases hr
        exact ⟨rfl, .inr ⟨fields, hstored, rfl⟩⟩
      · cases hr

theorem run_modify_cases {c : Collection} {id : String} {change : Fields → Fields} {s s' : Store}
    {r : Result Unit} (h : (c.modify id change).run s = (r, s')) :
    ((∃ e, r = .error e) ∧ s' = s) ∨
      (r = .ok () ∧ ∃ fields, c.Stored s id fields ∧
        c.validate ⟨c.recordId id, change fields⟩ = .ok () ∧
        ∃ b oldEs newEs, serialize ⟨c.recordId id, change fields⟩ = .ok b ∧
          c.entries ⟨c.recordId id, fields⟩ = .ok oldEs ∧
          c.entries ⟨c.recordId id, change fields⟩ = .ok newEs ∧
          s' = s.writeBatch ((c.docKey id, b) :: newEs) (oldEs.map Prod.fst)) := by
  rcases Prog.run_bind_cases h with ⟨e, he, rfl⟩ | ⟨old, s₁, hold, h⟩
  · exact .inl ⟨⟨e, rfl⟩, (run_getOrNotFound_cases he).1⟩
  · obtain ⟨rfl, ⟨_, hr⟩ | ⟨fields, hstored, hr⟩⟩ := run_getOrNotFound_cases hold
    · cases hr
    · cases hr
      dsimp only at h
      cases hvalid : c.validate ⟨c.recordId id, change fields⟩ with
      | error e =>
        rw [hvalid] at h
        cases h
        exact .inl ⟨⟨e, rfl⟩, rfl⟩
      | ok u =>
        rw [hvalid, Prog.run_lift_ok_bind, replaceWithIndexes] at h
        cases hops : c.replaceOps id ⟨c.recordId id, fields⟩ ⟨c.recordId id, change fields⟩ with
        | error e =>
          rw [hops] at h
          cases h
          exact .inl ⟨⟨e, rfl⟩, rfl⟩
        | ok ops =>
          rw [hops] at h
          cases h
          obtain ⟨b, oldEs, newEs, hb, holdEs, hnewEs, rfl⟩ := replaceOps_eq_ok hops
          exact .inr ⟨rfl, fields, hstored, hvalid, b, oldEs, newEs, hb, holdEs, hnewEs, rfl⟩

theorem run_delete_cases {c : Collection} {id : String} {s s' : Store} {r : Result Bool}
    (h : (c.delete id).run s = (r, s')) :
    (((∃ e, r = .error e) ∨ r = .ok false ∧ s[c.docKey id]? = none) ∧ s' = s) ∨
      (r = .ok true ∧ ∃ fields, c.Stored s id fields ∧
        ∃ es, c.entries ⟨c.recordId id, fields⟩ = .ok es ∧
          s' = s.deleteBatch (c.docKey id :: es.map Prod.fst)) := by
  rcases Prog.run_bind_cases h with ⟨e, he, rfl⟩ | ⟨doc, s₁, hdoc, h⟩
  · exact .inl ⟨.inl ⟨e, rfl⟩, (run_get_cases he).1⟩
  · obtain ⟨rfl, hget⟩ := run_get_cases hdoc
    rcases hget with ⟨hnone, hr⟩ | ⟨fields, hstored, hr⟩ | ⟨_, _, _, _, hr⟩
    · cases hr
      cases h
      exact .inl ⟨.inr ⟨rfl, hnone⟩, rfl⟩
    · cases hr
      cases hes : c.entries ⟨c.recordId id, fields⟩ with
      | error e =>
        simp only [hes] at h
        cases h
        exact .inl ⟨.inl ⟨e, rfl⟩, rfl⟩
      | ok es =>
        simp only [hes] at h
        cases h
        exact .inr ⟨rfl, fields, hstored, es, hes, rfl⟩
    · cases hr

end Collection

end Dllb
