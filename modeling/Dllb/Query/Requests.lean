import Mathlib
import Dllb.Document.Catalog
import Dllb.Query.Executor

/-! # What the write statements do to the store

A statement of a batch is described by the operations it adds on its own. A
`CREATE` issued alone applies the same operations, behind the checks for an
existing record and for the unique indexes.
-/

namespace Dllb

set_option autoImplicit false

theorem setAll_id (doc : Document) (fields : Assignments) : (setAll doc fields).id = doc.id := by
  induction fields generalizing doc with
  | nil => rfl
  | cons kv fields ih => exact ih _

theorem setAll_fields (doc : Document) (fields : Assignments) :
    (setAll doc fields).fields = fields.foldl (fun fs kv => fs.insert kv.1 kv.2.toValue) doc.fields := by
  induction fields generalizing doc with
  | nil => rfl
  | cons kv fields ih => exact ih _

theorem setAll_new (id : RecordId) (fields : Assignments) :
    setAll (Document.new id) fields = ⟨id, assigned fields⟩ := by
  have hid := setAll_id (Document.new id) fields
  have hfields := setAll_fields (Document.new id) fields
  generalize setAll (Document.new id) fields = doc at hid hfields
  obtain ⟨i, f⟩ := doc
  dsimp only at hid hfields
  rw [hid, hfields]
  rfl

/-! ## The operations a collection computes and the writes it makes -/

namespace Collection

variable [Rmp]

theorem createToOps_congr {c : Collection} {id : String} {doc doc' : Document}
    (h : doc.fields = doc'.fields) : c.createToOps id doc = c.createToOps id doc' := by
  obtain ⟨i, f⟩ := doc
  obtain ⟨i', f'⟩ := doc'
  cases h
  rfl

theorem createToOps_eq_ok_iff {c : Collection} {id : String} {fields : Fields} {puts : List PutOp} :
    c.createToOps id ⟨c.recordId id, fields⟩ = .ok (c.recordId id, puts) ↔
      c.validate ⟨c.recordId id, fields⟩ = .ok () ∧
        ∃ b es, serialize ⟨c.recordId id, fields⟩ = .ok b ∧ c.entries ⟨c.recordId id, fields⟩ = .ok es ∧
          puts = (c.docKey id, b) :: es := by
  unfold createToOps
  dsimp only
  cases c.validate ⟨c.recordId id, fields⟩ with
  | error e => exact iff_of_false (fun h => by cases h) (fun h => by cases h.1)
  | ok u =>
    cases serialize ⟨c.recordId id, fields⟩ with
    | error e => exact iff_of_false (fun h => by cases h) (fun ⟨_, _, _, h, _⟩ => by cases h)
    | ok b =>
      cases c.entries ⟨c.recordId id, fields⟩ with
      | error e => exact iff_of_false (fun h => by cases h) (fun ⟨_, _, _, _, h, _⟩ => by cases h)
      | ok es =>
        constructor
        · intro h
          cases h
          exact ⟨rfl, b, es, rfl, rfl, rfl⟩
        · rintro ⟨_, _, _, hb, hes, rfl⟩
          cases hb
          cases hes
          rfl

theorem getOrNotFound_of_stored {c : Collection} {id : String} {s : Store} {fields : Fields}
    (h : c.Stored s id fields) : (c.getOrNotFound id).run s = (.ok ⟨c.recordId id, fields⟩, s) := by
  obtain ⟨b, hb, hf⟩ := h
  rw [getOrNotFound, get, Db.get, Prog.run_bind, Prog.run_query_bind, hb]
  simp [deserialize, hf]

theorem contains_of_stored {c : Collection} {id : String} {s : Store} {fields : Fields}
    (h : c.Stored s id fields) : s[c.docKey id]?.isSome = true := by
  obtain ⟨b, hb, _⟩ := h
  rw [hb]
  rfl

/-- Creating a record applies the operations of the batch, behind the two checks. -/
theorem createInner_eq_ok_iff {c : Collection} {id : String} {fields : Fields} {s s' : Store}
    {r : RecordId} :
    (c.createInner id ⟨c.recordId id, fields⟩).run s = (.ok r, s') ↔
      r = c.recordId id ∧ s[c.docKey id]? = none ∧
        (c.checkUnique ⟨c.recordId id, fields⟩ id c.indexes).run s = (.ok (), s) ∧
        ∃ puts, c.createToOps id ⟨c.recordId id, fields⟩ = .ok (c.recordId id, puts) ∧
          s' = s.writeBatch puts [] := by
  constructor
  · intro h
    rcases run_createInner_cases h with ⟨⟨e, he⟩, _⟩ | ⟨hr, hvalid, habsent, hcheck, b, es, hb, hes, rfl⟩
    · cases he
    · cases hr
      exact ⟨rfl, habsent, hcheck, _, createToOps_eq_ok_iff.mpr ⟨hvalid, b, es, hb, hes, rfl⟩, rfl⟩
  · rintro ⟨rfl, habsent, hcheck, puts, hputs, rfl⟩
    obtain ⟨hvalid, b, es, hb, hes, rfl⟩ := createToOps_eq_ok_iff.mp hputs
    rw [createInner, hvalid, Prog.run_lift_ok_bind, Db.contains, Prog.run_query_bind, habsent]
    simp only [Option.isSome_none, Bool.false_eq_true, ↓reduceIte]
    rw [Prog.run_bind_ok hcheck, hb, hes]
    rfl

/-- Merging into a record applies the operations that replace it. -/
theorem merge_eq_ok_iff {c : Collection} {id : String} {fields : Fields} {s s' : Store} :
    (c.merge id fields).run s = (.ok (), s') ↔
      ∃ old, c.Stored s id old ∧ c.validate ⟨c.recordId id, mergeFields old fields⟩ = .ok () ∧
        ∃ ops, c.replaceOps id ⟨c.recordId id, old⟩ ⟨c.recordId id, mergeFields old fields⟩ = .ok ops ∧
          s' = s.writeBatch ops.1 ops.2 := by
  constructor
  · intro h
    rw [merge_eq_modify] at h
    rcases run_modify_cases h with ⟨⟨e, he⟩, _⟩ | ⟨_, old, hold, hvalid, b, oldEs, newEs, hb, hes, hes', rfl⟩
    · cases he
    · refine ⟨old, hold, hvalid, ((c.docKey id, b) :: newEs, oldEs.map Prod.fst), ?_, rfl⟩
      rw [replaceOps, hb, hes, hes']
      rfl
  · rintro ⟨old, hold, hvalid, ops, hops, rfl⟩
    rw [merge, Prog.run_bind_ok (getOrNotFound_of_stored hold)]
    dsimp only
    rw [hvalid, Prog.run_lift_ok_bind, replaceWithIndexes, hops]
    rfl

/-- The two ways an upsert can go: the record is absent, or what it holds is merged into. -/
theorem upsert_eq_ok_iff {c : Collection} {id : String} {fields updateFields : Fields} {s s' : Store}
    {r : RecordId × Bool} :
    (c.upsert id ⟨c.recordId id, fields⟩ updateFields).run s = (.ok r, s') ↔
      (s[c.docKey id]? = none ∧
        (c.checkUnique ⟨c.recordId id, fields⟩ id c.indexes).run s = (.ok (), s) ∧
        ∃ puts, c.createToOps id ⟨c.recordId id, fields⟩ = .ok (c.recordId id, puts) ∧
          s' = s.writeBatch puts [] ∧ r = (c.recordId id, true)) ∨
      ∃ old, c.Stored s id old ∧ c.validate ⟨c.recordId id, mergeFields old updateFields⟩ = .ok () ∧
        ∃ ops, c.replaceOps id ⟨c.recordId id, old⟩ ⟨c.recordId id, mergeFields old updateFields⟩ =
          .ok ops ∧ s' = s.writeBatch ops.1 ops.2 ∧ r = (c.recordId id, false) := by
  rw [upsert, Db.contains, Prog.run_query_bind]
  constructor
  · intro h
    split at h
    · rcases Prog.run_bind_cases h with ⟨_, _, he⟩ | ⟨_, s₁, hmerge, hret⟩
      · cases he
      · cases hret
        obtain ⟨old, hold, hvalid, ops, hops, rfl⟩ := merge_eq_ok_iff.mp hmerge
        exact .inr ⟨old, hold, hvalid, ops, hops, rfl, rfl⟩
    · rcases Prog.run_bind_cases h with ⟨_, _, he⟩ | ⟨_, s₁, hcreate, hret⟩
      · cases he
      · cases hret
        obtain ⟨rfl, habsent, hcheck, puts, hputs, rfl⟩ := createInner_eq_ok_iff.mp hcreate
        exact .inl ⟨habsent, hcheck, puts, hputs, rfl, rfl⟩
  · rintro (⟨habsent, hcheck, puts, hputs, rfl, rfl⟩ | ⟨old, hold, hvalid, ops, hops, rfl, rfl⟩)
    · have hcreate := createInner_eq_ok_iff.mpr ⟨rfl, habsent, hcheck, puts, hputs, rfl⟩
      rw [habsent]
      exact Prog.run_bind_ok hcreate
    · have hmerge := merge_eq_ok_iff.mpr ⟨old, hold, hvalid, ops, hops, rfl⟩
      rw [contains_of_stored hold]
      exact Prog.run_bind_ok hmerge

theorem createToOps_fst {c : Collection} {id : String} {doc : Document} {r : RecordId × List PutOp}
    (h : c.createToOps id doc = .ok r) : r.1 = c.recordId id := by
  unfold createToOps at h
  dsimp only at h
  cases hvalid : c.validate { doc with id := c.recordId id } with
  | error e => rw [hvalid] at h; cases h
  | ok u =>
    cases hser : serialize { doc with id := c.recordId id } with
    | error e => rw [hvalid, hser] at h; cases h
    | ok b =>
      cases hes : c.entries { doc with id := c.recordId id } with
      | error e => rw [hvalid, hser, hes] at h; cases h
      | ok es =>
        rw [hvalid, hser, hes] at h
        cases h
        rfl

theorem upsertToOps_eq_ok_iff {c : Collection} {id : String} {doc : Document} {updateFields : Fields}
    {s s' : Store} {ops : RecordId × Bool × List PutOp × List Bytes} :
    (c.upsertToOps id doc updateFields).run s = (.ok ops, s') ↔ s' = s ∧
      ((s[c.docKey id]? = none ∧ ∃ puts, c.createToOps id doc = .ok (c.recordId id, puts) ∧
          ops = (c.recordId id, true, puts, [])) ∨
        ∃ old, c.Stored s id old ∧ c.validate ⟨c.recordId id, mergeFields old updateFields⟩ = .ok () ∧
          ∃ rops, c.replaceOps id ⟨c.recordId id, old⟩ ⟨c.recordId id, mergeFields old updateFields⟩ =
            .ok rops ∧ ops = (c.recordId id, false, rops.1, rops.2)) := by
  rw [upsertToOps, Db.contains, Prog.run_query_bind]
  constructor
  · intro h
    cases hb : s[c.docKey id]? with
    | none =>
      simp only [hb, Option.isSome_none, Bool.false_eq_true, ↓reduceIte] at h
      cases hops : c.createToOps id doc with
      | error e =>
        rw [hops] at h
        cases h
      | ok created =>
        rw [hops] at h
        cases h
        have hfst := createToOps_fst hops
        exact ⟨rfl, .inl ⟨rfl, created.2, by rw [← hfst], by rw [← hfst]⟩⟩
    | some b =>
      simp only [hb, Option.isSome_some, ↓reduceIte] at h
      rcases Prog.run_bind_cases h with ⟨e, _, he⟩ | ⟨doc', s₁, hdoc, h⟩
      · cases he
      · obtain ⟨rfl, ⟨_, hr⟩ | ⟨old, hstored, hr⟩⟩ := run_getOrNotFound_cases hdoc
        · cases hr
        · cases hr
          dsimp only at h
          cases hvalid : c.validate ⟨c.recordId id, mergeFields old updateFields⟩ with
          | error e =>
            rw [hvalid] at h
            cases h
          | ok u =>
            rw [hvalid, Prog.run_lift_ok_bind] at h
            cases hops : c.replaceOps id ⟨c.recordId id, old⟩
                ⟨c.recordId id, mergeFields old updateFields⟩ with
            | error e =>
              rw [hops] at h
              cases h
            | ok rops =>
              rw [hops] at h
              cases h
              exact ⟨rfl, .inr ⟨old, hstored, hvalid, rops, hops, rfl⟩⟩
  · rintro ⟨rfl, ⟨habsent, puts, hputs, rfl⟩ | ⟨old, hold, hvalid, rops, hrops, rfl⟩⟩
    · rw [habsent]
      simp only [Option.isSome_none, Bool.false_eq_true, ↓reduceIte]
      rw [hputs]
      rfl
    · rw [contains_of_stored hold]
      simp only [↓reduceIte]
      rw [Prog.run_bind_ok (getOrNotFound_of_stored hold)]
      dsimp only
      rw [hvalid, Prog.run_lift_ok_bind, hrops]
      rfl

end Collection

def QueryResult.createdCount : QueryResult → Nat
  | .created _ => 1
  | _ => 0

def QueryResult.updatedCount : QueryResult → Nat
  | .updated _ => 1
  | _ => 0

namespace QueryExecutor

variable [Rmp]

/-- The table with the given definitions. -/
def collection (ex : QueryExecutor) (table : String) (defs : List IndexDefinition) : Collection :=
  { ns := ex.ns, db := ex.db, table, schema := none, indexes := defs }

/-! ## One statement of a batch on its own -/

def alone (ex : QueryExecutor) (s : Store) (i : Issued) : Result BatchState :=
  ((ex.batchStep .empty i).run s).1

/-- The record a `CREATE` names. -/
def recordOf (i : Issued) : Option RecordRef :=
  match i.stmt with
  | .create table id _ _ => some ⟨table, id.getD i.uuid⟩
  | _ => none

def upserts (i : Issued) : Bool :=
  match i.stmt with
  | .create _ _ _ (some _) => true
  | _ => false

/-- The fields a record holds. -/
def stored (ex : QueryExecutor) (s : Store) (r : RecordRef) : Option Fields :=
  s[Key.documentKey ex.ns ex.db r.table r.id]?.bind fun b => (Rmp.fromSlice b).toOption

/-- What a `CREATE` takes its record to hold: without `ON CONFLICT` the batch does not look. -/
def taken (ex : QueryExecutor) (s : Store) (i : Issued) : Option Fields :=
  if upserts i then (recordOf i).bind (ex.stored s) else none

/-- What a `CREATE` gives its record. -/
def given (ex : QueryExecutor) (s : Store) (i : Issued) : Fields :=
  match i.stmt with
  | .create _ _ fields onConflict =>
    match ex.taken s i, onConflict with
    | some old, some conflict => Collection.mergeFields old (conflictFields fields conflict)
    | _, _ => assigned fields
  | _ => ∅

/-- The operations put `new` in the place of `old` in one record. -/
structure Writes (c : Collection) (id : String) (old : Option Fields) (new : Fields)
    (puts : List PutOp) (deletes : List Bytes) : Prop where
  canIndex : Index.CanIndex ⟨c.recordId id, new⟩ c.indexes
  puts : ∃ b, Rmp.toVec new = .ok b ∧
    puts = (c.docKey id, b) :: Index.entriesOf c.ns c.db c.table ⟨c.recordId id, new⟩ c.indexes
  deletes : deletes = c.entryKeys id old

theorem writes_of_createToOps {c : Collection} {id : String} {doc : Document}
    {r : RecordId × List PutOp} (h : c.createToOps id doc = .ok r) :
    Writes c id none doc.fields r.2 [] := by
  unfold Collection.createToOps at h
  dsimp only at h
  cases hvalid : c.validate { doc with id := c.recordId id } with
  | error e => rw [hvalid] at h; cases h
  | ok u =>
    cases hser : serialize { doc with id := c.recordId id } with
    | error e => rw [hvalid, hser] at h; cases h
    | ok b =>
      cases hes : c.entries { doc with id := c.recordId id } with
      | error e => rw [hvalid, hser, hes] at h; cases h
      | ok es =>
        rw [hvalid, hser, hes] at h
        cases h
        obtain ⟨hcan, rfl⟩ := Collection.entries_eq_ok (show _ = id from rfl) hes
        exact ⟨hcan, ⟨b, serialize_eq_ok hser, rfl⟩, rfl⟩

theorem writes_of_replaceOps {c : Collection} {id : String} {old new : Fields}
    {ops : List PutOp × List Bytes}
    (h : c.replaceOps id ⟨c.recordId id, old⟩ ⟨c.recordId id, new⟩ = .ok ops) :
    Writes c id (some old) new ops.1 ops.2 := by
  obtain ⟨b, oldEs, newEs, hb, hold, hnew, rfl⟩ := Collection.replaceOps_eq_ok h
  obtain ⟨_, rfl⟩ := Collection.entries_eq_ok (show _ = id from rfl) hold
  obtain ⟨hcan, rfl⟩ := Collection.entries_eq_ok (show _ = id from rfl) hnew
  exact ⟨hcan, ⟨b, serialize_eq_ok hb, rfl⟩, rfl⟩

/-- What one statement adds to a batch. -/
inductive Adds (ex : QueryExecutor) (s : Store) (i : Issued) (st : BatchState) : Prop
  | record {r : RecordRef} {defs : List IndexDefinition} (names : recordOf i = some r)
      (load : (Index.loadIndexDefinitions ex.ns ex.db r.table).run s = (.ok defs, s))
      (held : upserts i = true → (ex.collection r.table defs).HoldsAt s r.id (ex.taken s i))
      (writes : Writes (ex.collection r.table defs) r.id (ex.taken s i) (ex.given s i)
        st.puts st.deletes)
      (created : st.created = if (ex.taken s i).isSome then 0 else 1)
      (updated : st.updated = if (ex.taken s i).isSome then 1 else 0)
  | relate {src dst : RecordRef} {edgeType : String} {fields : Assignments}
      (stmt : i.stmt = .relate src edgeType dst fields)
      (puts : EdgeStore.relateToOps ⟨ex.ns, ex.db, edgeType⟩ (edgeOf src edgeType dst fields) =
        .ok st.puts)
      (deletes : st.deletes = []) (created : st.created = 0) (updated : st.updated = 0)

theorem stored_eq_some_iff {ex : QueryExecutor} {s : Store} {table id : String} {fields : Fields}
    (defs : List IndexDefinition) :
    ex.stored s ⟨table, id⟩ = some fields ↔ (ex.collection table defs).Stored s id fields := by
  rw [stored, Option.bind_eq_some_iff]
  refine exists_congr fun b => and_congr_right fun _ => ?_
  cases Rmp.fromSlice b <;> simp [Except.toOption]

theorem stored_eq_none_of_absent {ex : QueryExecutor} {s : Store} {r : RecordRef}
    (h : s[Key.documentKey ex.ns ex.db r.table r.id]? = none) : ex.stored s r = none := by
  rw [stored, h]
  rfl

theorem readOnly_loadIndexDefinitions (ns db table : String) :
    Prog.ReadOnly (Index.loadIndexDefinitions ns db table) :=
  (Prog.readOnly_query _).bind fun _ => Prog.readOnly_lift _

theorem readOnly_cachedIndexes (ex : QueryExecutor) (table : String) (st : BatchState) :
    Prog.ReadOnly (ex.cachedIndexes table st) := by
  unfold cachedIndexes
  split
  · trivial
  · exact (readOnly_loadIndexDefinitions _ _ _).bind fun _ => trivial

theorem readOnly_upsertToOps (c : Collection) (id : String) (doc : Document) (updateFields : Fields) :
    Prog.ReadOnly (c.upsertToOps id doc updateFields) := by
  refine (Prog.readOnly_query _).bind fun found => ?_
  split
  · exact (c.readOnly_getOrNotFound id).bind fun _ => (Prog.readOnly_lift _).bind fun _ =>
      (Prog.readOnly_lift _).bind fun _ => trivial
  · exact (Prog.readOnly_lift _).bind fun _ => trivial

theorem readOnly_createOps (c : Collection) (uuid : String) (id : Option String) (fields : Assignments)
    (onConflict : Option OnConflict) : Prog.ReadOnly (createOps c uuid id fields onConflict) := by
  unfold createOps
  split
  · split
    · trivial
    · exact (readOnly_upsertToOps _ _ _ _).bind fun _ => trivial
  · exact (Prog.readOnly_lift _).bind fun _ => trivial

theorem readOnly_batchStep (ex : QueryExecutor) (st : BatchState) (i : Issued) :
    Prog.ReadOnly (ex.batchStep st i) := by
  unfold batchStep
  split
  · exact (ex.readOnly_cachedIndexes _ st).bind fun _ => (readOnly_createOps _ _ _ _ _).bind fun _ => trivial
  · exact (Prog.readOnly_lift _).bind fun _ => trivial
  · trivial

theorem readOnly_batchSteps (ex : QueryExecutor) (stmts : List Issued) (st : BatchState) :
    Prog.ReadOnly (ex.batchSteps stmts st) := by
  induction stmts generalizing st with
  | nil => trivial
  | cons i stmts ih => exact (ex.readOnly_batchStep st i).bind fun st => ih st

theorem createOps_plain_iff {c : Collection} {uuid : String} {id : Option String} {fields : Assignments}
    {s s' : Store} {ops : Bool × List PutOp × List Bytes} :
    (createOps c uuid id fields none).run s = (.ok ops, s') ↔ s' = s ∧ ∃ puts,
      c.createToOps (id.getD uuid) ⟨c.recordId (id.getD uuid), assigned fields⟩ =
        .ok (c.recordId (id.getD uuid), puts) ∧ ops = (true, puts, []) := by
  have hcongr : c.createToOps (id.getD uuid) ⟨⟨c.table, uuid⟩, assigned fields⟩ =
      c.createToOps (id.getD uuid) ⟨c.recordId (id.getD uuid), assigned fields⟩ :=
    Collection.createToOps_congr rfl
  rw [createOps, setAll_new, hcongr]
  constructor
  · intro h
    rcases hops : c.createToOps (id.getD uuid) ⟨c.recordId (id.getD uuid), assigned fields⟩ with _ | created
    · rw [hops] at h
      cases h
    · rw [hops] at h
      cases h
      exact ⟨rfl, created.2, by rw [← Collection.createToOps_fst hops], rfl⟩
  · rintro ⟨rfl, puts, hputs, rfl⟩
    rw [hputs]
    rfl

theorem createOps_upsert_iff {c : Collection} {uuid id : String} {fields : Assignments}
    {conflict : OnConflict} {s s' : Store} {ops : Bool × List PutOp × List Bytes} :
    (createOps c uuid (some id) fields (some conflict)).run s = (.ok ops, s') ↔ s' = s ∧
      ((s[c.docKey id]? = none ∧ ∃ puts,
          c.createToOps id ⟨c.recordId id, assigned fields⟩ = .ok (c.recordId id, puts) ∧
            ops = (true, puts, [])) ∨
        ∃ old, c.Stored s id old ∧ ∃ rops,
          c.validate ⟨c.recordId id, Collection.mergeFields old (conflictFields fields conflict)⟩ = .ok () ∧
          c.replaceOps id ⟨c.recordId id, old⟩
            ⟨c.recordId id, Collection.mergeFields old (conflictFields fields conflict)⟩ = .ok rops ∧
          ops = (false, rops.1, rops.2)) := by
  have hcongr : c.createToOps id ⟨⟨c.table, uuid⟩, assigned fields⟩ =
      c.createToOps id ⟨c.recordId id, assigned fields⟩ :=
    Collection.createToOps_congr rfl
  rw [createOps, setAll_new]
  constructor
  · intro h
    rcases Prog.run_bind_cases h with ⟨_, _, he⟩ | ⟨r, s₁, hrun, hret⟩
    · cases he
    · cases hret
      obtain ⟨rfl, hcases⟩ := Collection.upsertToOps_eq_ok_iff.mp hrun
      refine ⟨rfl, ?_⟩
      rcases hcases with ⟨habsent, puts, hputs, rfl⟩ | ⟨old, hold, hvalid, rops, hrops, rfl⟩
      · rw [hcongr] at hputs
        exact .inl ⟨habsent, puts, hputs, rfl⟩
      · exact .inr ⟨old, hold, rops, hvalid, hrops, rfl⟩
  · rintro ⟨rfl, ⟨habsent, puts, hputs, rfl⟩ | ⟨old, hold, rops, hvalid, hrops, rfl⟩⟩
    · rw [← hcongr] at hputs
      exact Prog.run_bind_ok (Collection.upsertToOps_eq_ok_iff.mpr ⟨rfl, .inl ⟨habsent, puts, hputs, rfl⟩⟩)
    · exact Prog.run_bind_ok
        (Collection.upsertToOps_eq_ok_iff.mpr ⟨rfl, .inr ⟨old, hold, hvalid, rops, hrops, rfl⟩⟩)

/-- What the operations of a `CREATE` are, and when it counts as created. -/
theorem run_createOps {ex : QueryExecutor} {s s' : Store} {i : Issued} {table : String}
    {id : Option String} {fields : Assignments} {onConflict : Option OnConflict}
    (hstmt : i.stmt = .create table id fields onConflict) (defs : List IndexDefinition)
    {ops : Bool × List PutOp × List Bytes}
    (h : (createOps (ex.collection table defs) i.uuid id fields onConflict).run s = (.ok ops, s')) :
    (upserts i = true → (ex.collection table defs).HoldsAt s (id.getD i.uuid) (ex.taken s i)) ∧
      Writes (ex.collection table defs) (id.getD i.uuid) (ex.taken s i) (ex.given s i) ops.2.1 ops.2.2 ∧
      ops.1 = (ex.taken s i).isNone := by
  have hrecord : recordOf i = some ⟨table, id.getD i.uuid⟩ := by simp [recordOf, hstmt]
  cases onConflict with
  | none =>
    have htaken : ex.taken s i = none := by simp [taken, upserts, hstmt]
    have hgiven : ex.given s i = assigned fields := by simp [given, hstmt]
    obtain ⟨_, puts, hputs, rfl⟩ := createOps_plain_iff.mp h
    rw [htaken, hgiven]
    exact ⟨by simp [upserts, hstmt], writes_of_createToOps hputs, rfl⟩
  | some conflict =>
    have hupserts : upserts i = true := by simp [upserts, hstmt]
    cases id with
    | none => cases h
    | some id =>
      dsimp only [Option.getD_some] at hrecord ⊢
      have htaken : ex.taken s i = ex.stored s ⟨table, id⟩ := by simp [taken, hupserts, hrecord]
      obtain ⟨_, ⟨habsent, puts, hputs, rfl⟩ | ⟨old, hold, rops, _, hrops, rfl⟩⟩ :=
        createOps_upsert_iff.mp h
      · have hnone : ex.taken s i = none := htaken.trans (stored_eq_none_of_absent habsent)
        have hgiven : ex.given s i = assigned fields := by simp [given, hstmt, hnone]
        rw [hnone, hgiven]
        exact ⟨fun _ => habsent, writes_of_createToOps hputs, rfl⟩
      · have hsome : ex.taken s i = some old := htaken.trans ((stored_eq_some_iff defs).mpr hold)
        have hgiven : ex.given s i =
            Collection.mergeFields old (conflictFields fields conflict) := by
          simp [given, hstmt, hsome]
        rw [hsome, hgiven]
        exact ⟨fun _ => hold, writes_of_replaceOps hrops, rfl⟩

theorem alone_create_iff {ex : QueryExecutor} {s : Store} {i : Issued} {table : String}
    {id : Option String} {fields : Assignments} {onConflict : Option OnConflict}
    (hstmt : i.stmt = .create table id fields onConflict) {a : BatchState} :
    ex.alone s i = .ok a ↔ ∃ defs ops,
      (Index.loadIndexDefinitions ex.ns ex.db table).run s = (.ok defs, s) ∧
      (createOps (ex.collection table defs) i.uuid id fields onConflict).run s = (.ok ops, s) ∧
      a = BatchState.record { BatchState.empty with idxCache := [(table, defs)] } ops.1 ops.2.1 ops.2.2 := by
  have hempty : ex.cachedIndexes table .empty = (do
      let defs ← Index.loadIndexDefinitions ex.ns ex.db table
      return (defs, { BatchState.empty with idxCache := [(table, defs)] })) := rfl
  unfold alone batchStep
  rw [hstmt]
  dsimp only
  rw [hempty]
  constructor
  · intro h
    obtain ⟨s', hrun⟩ : ∃ s', Prog.run _ s = (.ok a, s') := ⟨_, Prod.ext h rfl⟩
    rcases Prog.run_bind_cases hrun with ⟨_, _, he⟩ | ⟨cached, s₁, hc, hrun⟩
    · cases he
    · rcases (readOnly_loadIndexDefinitions ex.ns ex.db table).run_bind_cases hc with
        ⟨_, _, he, _⟩ | ⟨defs, hdefs, hret⟩
      · cases he
      · cases hret
        rcases (readOnly_createOps _ _ _ _ _).run_bind_cases hrun with ⟨_, _, he, _⟩ | ⟨ops, hops, hret⟩
        · cases he
        · cases hret
          exact ⟨defs, ops, hdefs, hops, rfl⟩
  · rintro ⟨defs, ops, hdefs, hops, rfl⟩
    have hcached : ((do
        let defs ← Index.loadIndexDefinitions ex.ns ex.db table
        return (defs, { BatchState.empty with idxCache := [(table, defs)] }) :
          Db (List IndexDefinition × BatchState))).run s =
        (.ok (defs, { BatchState.empty with idxCache := [(table, defs)] }), s) :=
      Prog.run_bind_ok hdefs
    rw [Prog.run_bind_ok hcached]
    exact congrArg Prod.fst (Prog.run_bind_ok hops)

theorem alone_relate_iff {ex : QueryExecutor} {s : Store} {i : Issued} {src dst : RecordRef}
    {edgeType : String} {fields : Assignments} (hstmt : i.stmt = .relate src edgeType dst fields)
    {a : BatchState} :
    ex.alone s i = .ok a ↔ ∃ puts,
      EdgeStore.relateToOps ⟨ex.ns, ex.db, edgeType⟩ (edgeOf src edgeType dst fields) = .ok puts ∧
        a = { BatchState.empty with puts } := by
  unfold alone batchStep
  rw [hstmt]
  dsimp only
  rcases EdgeStore.relateToOps ⟨ex.ns, ex.db, edgeType⟩ (edgeOf src edgeType dst fields) with _ | puts
  · refine iff_of_false (fun h => by cases h) ?_
    rintro ⟨_, h, _⟩
    cases h
  · constructor
    · intro h
      cases h
      exact ⟨puts, rfl, rfl⟩
    · rintro ⟨_, h, rfl⟩
      cases h
      rfl

/-- A batch takes `CREATE` and `RELATE` only. -/
theorem stmt_of_alone {ex : QueryExecutor} {s : Store} {i : Issued} {a : BatchState}
    (h : ex.alone s i = .ok a) :
    (∃ table id fields onConflict, i.stmt = .create table id fields onConflict) ∨
      ∃ src edgeType dst fields, i.stmt = .relate src edgeType dst fields := by
  unfold alone batchStep at h
  split at h
  · exact .inl ⟨_, _, _, _, by assumption⟩
  · exact .inr ⟨_, _, _, _, by assumption⟩
  · cases h

theorem adds_of_alone {ex : QueryExecutor} {s : Store} {i : Issued} {a : BatchState}
    (h : ex.alone s i = .ok a) : Adds ex s i a := by
  rcases stmt_of_alone h with ⟨table, id, fields, onConflict, hstmt⟩ | ⟨src, edgeType, dst, fields, hstmt⟩
  · obtain ⟨defs, ops, hload, hops, rfl⟩ := (alone_create_iff hstmt).mp h
    obtain ⟨hheld, hwrites, hcreated⟩ := run_createOps hstmt defs hops
    have hrecord : recordOf i = some ⟨table, id.getD i.uuid⟩ := by simp [recordOf, hstmt]
    refine .record hrecord hload hheld ?_ ?_ ?_
    · simpa [BatchState.record, BatchState.empty] using hwrites
    · rw [BatchState.record, hcreated]
      cases ex.taken s i <;> rfl
    · rw [BatchState.record, hcreated]
      cases ex.taken s i <;> rfl
  · obtain ⟨puts, hputs, rfl⟩ := (alone_relate_iff hstmt).mp h
    exact .relate hstmt hputs rfl rfl rfl

/-! ## A batch adds up what its statements add alone -/

/-- The cached definitions are those of the catalog. -/
def CacheOk (ex : QueryExecutor) (s : Store) (st : BatchState) : Prop :=
  ∀ table defs, st.idxCache.lookup table = some defs →
    (Index.loadIndexDefinitions ex.ns ex.db table).run s = (.ok defs, s)

theorem cacheOk_empty (ex : QueryExecutor) (s : Store) : CacheOk ex s .empty := by
  intro table defs h
  cases h

theorem run_cachedIndexes {ex : QueryExecutor} {s : Store} {st : BatchState} (hst : CacheOk ex s st)
    (table : String) :
    (∃ e, (Index.loadIndexDefinitions ex.ns ex.db table).run s = (.error e, s) ∧
        (ex.cachedIndexes table st).run s = (.error e, s)) ∨
      ∃ defs cache, (Index.loadIndexDefinitions ex.ns ex.db table).run s = (.ok defs, s) ∧
        (ex.cachedIndexes table st).run s = (.ok (defs, { st with idxCache := cache }), s) ∧
        CacheOk ex s { st with idxCache := cache } := by
  unfold cachedIndexes
  split
  · rename_i defs hdefs
    exact .inr ⟨defs, st.idxCache, hst table defs hdefs, rfl, hst⟩
  · have hsnd := (readOnly_loadIndexDefinitions ex.ns ex.db table).run_snd s
    rcases hload : (Index.loadIndexDefinitions ex.ns ex.db table).run s with ⟨e | defs, s₁⟩
    · rw [hload] at hsnd
      subst hsnd
      exact .inl ⟨e, rfl, Prog.run_bind_error hload⟩
    · rw [hload] at hsnd
      subst hsnd
      refine .inr ⟨defs, (table, defs) :: st.idxCache, rfl, Prog.run_bind_ok hload, ?_⟩
      intro table' defs' hlookup
      rw [List.lookup_cons] at hlookup
      split at hlookup
      · rename_i heq
        cases hlookup
        rwa [eq_of_beq heq]
      · exact hst table' defs' hlookup

/-- `st'` continues `st` with the operations and the counts of `a`. -/
structure Follows (st a st' : BatchState) : Prop where
  puts : st'.puts = st.puts ++ a.puts
  deletes : st'.deletes = st.deletes ++ a.deletes
  created : st'.created = st.created + a.created
  updated : st'.updated = st.updated + a.updated

omit [Rmp] in
theorem follows_record (st : BatchState) (cache cache' : List (String × List IndexDefinition))
    (wasCreated : Bool) (puts : List PutOp) (deletes : List Bytes) :
    Follows st (BatchState.record { BatchState.empty with idxCache := cache' } wasCreated puts deletes)
      (BatchState.record { st with idxCache := cache } wasCreated puts deletes) := by
  cases wasCreated <;> exact ⟨rfl, rfl, rfl, rfl⟩

theorem run_batchStep {ex : QueryExecutor} {s : Store} {st : BatchState} (hst : CacheOk ex s st)
    (i : Issued) :
    (∃ e, ex.alone s i = .error e ∧ (ex.batchStep st i).run s = (.error e, s)) ∨
      ∃ a st', ex.alone s i = .ok a ∧ (ex.batchStep st i).run s = (.ok st', s) ∧
        CacheOk ex s st' ∧ Follows st a st' := by
  unfold alone batchStep
  split
  · rename_i table id fields onConflict hstmt
    rcases run_cachedIndexes hst table with ⟨e, hload, hc⟩ | ⟨defs, cache, hload, hc, hok⟩
    · rcases run_cachedIndexes (ex.cacheOk_empty s) table with ⟨e', hload', hc'⟩ | ⟨_, _, hload', _⟩
      · rw [hload] at hload'
        cases hload'
        exact .inl ⟨e, congrArg Prod.fst (Prog.run_bind_error hc'), Prog.run_bind_error hc⟩
      · rw [hload] at hload'
        cases hload'
    · rcases run_cachedIndexes (ex.cacheOk_empty s) table with ⟨_, hload', _⟩ | ⟨_, cache', hload', hc', _⟩
      · rw [hload] at hload'
        cases hload'
      · rw [hload] at hload'
        cases hload'
        rw [Prog.run_bind_ok hc, Prog.run_bind_ok hc']
        have hsnd := (readOnly_createOps (ex.collection table defs) i.uuid id fields onConflict).run_snd s
        rcases hops : (createOps (ex.collection table defs) i.uuid id fields onConflict).run s with
          ⟨e | ops, s₁⟩
        · rw [hops] at hsnd
          subst hsnd
          exact .inl ⟨e, congrArg Prod.fst (Prog.run_bind_error hops), Prog.run_bind_error hops⟩
        · rw [hops] at hsnd
          subst hsnd
          exact .inr ⟨_, _, congrArg Prod.fst (Prog.run_bind_ok hops), Prog.run_bind_ok hops, hok,
            follows_record st cache cache' ops.1 ops.2.1 ops.2.2⟩
  · rename_i src edgeType dst fields hstmt
    rcases hops : EdgeStore.relateToOps ⟨ex.ns, ex.db, edgeType⟩ (edgeOf src edgeType dst fields) with e | puts
    · exact .inl ⟨e, rfl, rfl⟩
    · exact .inr ⟨_, _, rfl, rfl, hst, rfl, (List.append_nil _).symm, rfl, rfl⟩
  · exact .inl ⟨_, rfl, rfl⟩

/-- The operations of the statements, each computed on the same store. -/
inductive Collects (ex : QueryExecutor) (s : Store) : List Issued → BatchState → Prop
  | nil : Collects ex s [] .empty
  | cons {i : Issued} {stmts : List Issued} {a rest st : BatchState} (head : ex.alone s i = .ok a)
      (tail : Collects ex s stmts rest) (follows : Follows a rest st) : Collects ex s (i :: stmts) st

omit [Rmp] in
theorem Follows.assoc {st a st' rest st'' total : BatchState} (h : Follows st a st')
    (h' : Follows st' rest st'') (htotal : Follows a rest total) : Follows st total st'' where
  puts := by rw [h'.puts, h.puts, htotal.puts, List.append_assoc]
  deletes := by rw [h'.deletes, h.deletes, htotal.deletes, List.append_assoc]
  created := by rw [h'.created, h.created, htotal.created, Nat.add_assoc]
  updated := by rw [h'.updated, h.updated, htotal.updated, Nat.add_assoc]

theorem collects_of_batchSteps {ex : QueryExecutor} {s s' : Store} {stmts : List Issued}
    {st st' : BatchState} (hst : CacheOk ex s st)
    (h : (ex.batchSteps stmts st).run s = (.ok st', s')) :
    ∃ total, Collects ex s stmts total ∧ Follows st total st' := by
  induction stmts generalizing st with
  | nil =>
    cases h
    exact ⟨.empty, .nil, (List.append_nil _).symm, (List.append_nil _).symm, rfl, rfl⟩
  | cons i stmts ih =>
    rw [batchSteps] at h
    rcases run_batchStep hst i with ⟨e, _, hrun⟩ | ⟨a, st₁, ha, hrun, hcache, hfollows⟩
    · rw [Prog.run_bind_error hrun] at h
      cases h
    · rw [Prog.run_bind_ok hrun] at h
      obtain ⟨rest, hrest, hfollows'⟩ := ih hcache h
      have htotal : Follows a rest ⟨a.puts ++ rest.puts, a.deletes ++ rest.deletes,
        a.created + rest.created, a.updated + rest.updated, []⟩ := ⟨rfl, rfl, rfl, rfl⟩
      exact ⟨_, .cons ha hrest htotal, hfollows.assoc hfollows' htotal⟩

/-- A batch that succeeds writes what its statements add on the store before it. -/
theorem run_executeBatch {ex : QueryExecutor} {s s' : Store} {stmts : List Issued} {q : QueryResult}
    (h : (ex.executeBatch stmts).run s = (.ok q, s')) :
    ∃ st, Collects ex s stmts st ∧ s' = s.writeBatch st.puts st.deletes ∧
      q = .batch stmts.length st.created st.updated := by
  rcases (ex.readOnly_batchSteps stmts .empty).run_bind_cases h with ⟨_, _, he, _⟩ | ⟨st, hst, h⟩
  · cases he
  · cases h
    obtain ⟨total, htotal, hfollows⟩ := collects_of_batchSteps (ex.cacheOk_empty s) hst
    refine ⟨total, htotal, ?_, ?_⟩
    · rw [hfollows.puts, hfollows.deletes]
      rfl
    · rw [hfollows.created, hfollows.updated]
      simp [BatchState.empty]

theorem run_executeBatch_error {ex : QueryExecutor} {s s' : Store} {stmts : List Issued} {e : Error}
    (h : (ex.executeBatch stmts).run s = (.error e, s')) : s' = s := by
  rcases (ex.readOnly_batchSteps stmts .empty).run_bind_cases h with ⟨_, _, _, hs⟩ | ⟨st, _, h⟩
  · exact hs
  · cases h

/-! ## A statement issued alone -/

/-- The checks a `CREATE` issued alone passes before it creates its record. -/
def Admitted (ex : QueryExecutor) (s : Store) (i : Issued) : Prop :=
  ∀ r, recordOf i = some r → ex.taken s i = none →
    s[Key.documentKey ex.ns ex.db r.table r.id]? = none ∧
      ∀ defs, (Index.loadIndexDefinitions ex.ns ex.db r.table).run s = (.ok defs, s) →
        ((ex.collection r.table defs).checkUnique ⟨⟨r.table, r.id⟩, ex.given s i⟩ r.id defs).run s =
          (.ok (), s)

/-- The answer of a `CREATE` or a `RELATE` that succeeds. -/
def answer (ex : QueryExecutor) (s : Store) (i : Issued) : QueryResult :=
  match recordOf i with
  | some r => if (ex.taken s i).isSome then .updated ⟨r.table, r.id⟩ else .created ⟨r.table, r.id⟩
  | none => .ok

theorem load_collection {ex : QueryExecutor} {s : Store} {table : String} {defs : List IndexDefinition}
    (h : (Index.loadIndexDefinitions ex.ns ex.db table).run s = (.ok defs, s)) :
    (Collection.load ex.ns ex.db table).run s = (.ok (ex.collection table defs), s) :=
  Prog.run_bind_ok h

theorem load_eq_ok_iff {ex : QueryExecutor} {s s' : Store} {table : String} {c : Collection} :
    (Collection.load ex.ns ex.db table).run s = (.ok c, s') ↔ s' = s ∧ ∃ defs,
      (Index.loadIndexDefinitions ex.ns ex.db table).run s = (.ok defs, s) ∧
        c = ex.collection table defs := by
  constructor
  · intro h
    rcases (readOnly_loadIndexDefinitions _ _ _).run_bind_cases h with ⟨_, _, he, _⟩ | ⟨defs, hdefs, hret⟩
    · cases he
    · cases hret
      exact ⟨rfl, defs, hdefs, rfl⟩
  · rintro ⟨rfl, defs, hdefs, rfl⟩
    exact Prog.run_bind_ok hdefs

theorem admitted_iff {ex : QueryExecutor} {s : Store} {i : Issued} {r : RecordRef}
    {defs : List IndexDefinition} (hrecord : recordOf i = some r)
    (hload : (Index.loadIndexDefinitions ex.ns ex.db r.table).run s = (.ok defs, s)) :
    ex.Admitted s i ↔ (ex.taken s i = none →
      s[Key.documentKey ex.ns ex.db r.table r.id]? = none ∧
        ((ex.collection r.table defs).checkUnique ⟨⟨r.table, r.id⟩, ex.given s i⟩ r.id defs).run s =
          (.ok (), s)) := by
  constructor
  · intro h htaken
    obtain ⟨habsent, hcheck⟩ := h r hrecord htaken
    exact ⟨habsent, hcheck defs hload⟩
  · intro h r' hr' htaken
    obtain rfl : r' = r := Option.some.inj (hr'.symm.trans hrecord)
    obtain ⟨habsent, hcheck⟩ := h htaken
    refine ⟨habsent, fun defs' hload' => ?_⟩
    rw [hload] at hload'
    cases hload'
    exact hcheck

/-- A `CREATE` without `ON CONFLICT`, on a table whose definitions are known. -/
theorem execCreate_plain_iff {ex : QueryExecutor} {s s' : Store} {i : Issued} {table : String}
    {id : Option String} {fields : Assignments} (hstmt : i.stmt = .create table id fields none)
    {defs : List IndexDefinition}
    (hload : (Index.loadIndexDefinitions ex.ns ex.db table).run s = (.ok defs, s)) {q : QueryResult} :
    (ex.execCreate i.uuid table id fields none).run s = (.ok q, s') ↔
      ∃ ops, (createOps (ex.collection table defs) i.uuid id fields none).run s = (.ok ops, s) ∧
        ex.Admitted s i ∧ s' = s.writeBatch ops.2.1 ops.2.2 ∧ q = ex.answer s i := by
  have hrecord : recordOf i = some ⟨table, id.getD i.uuid⟩ := by simp [recordOf, hstmt]
  have htaken : ex.taken s i = none := by simp [taken, upserts, hstmt]
  have hgiven : ex.given s i = assigned fields := by simp [given, hstmt]
  have hanswer : ex.answer s i = .created ⟨table, id.getD i.uuid⟩ := by simp [answer, hrecord, htaken]
  have hbody : (ex.execCreate i.uuid table id fields none).run s =
      ((ex.collection table defs).createInner (id.getD i.uuid)
        ⟨(ex.collection table defs).recordId (id.getD i.uuid), assigned fields⟩ >>=
          fun r => pure (.created r) : Db QueryResult).run s := by
    rw [execCreate, Prog.run_bind_ok (load_collection hload)]
    dsimp only
    rw [setAll_new]
    cases id <;> rfl
  rw [admitted_iff hrecord hload, htaken, hgiven, hanswer, hbody]
  constructor
  · intro h
    rcases Prog.run_bind_cases h with ⟨_, _, he⟩ | ⟨r, s₁, hcreate, hret⟩
    · cases he
    · cases hret
      obtain ⟨rfl, habsent, hcheck, puts, hputs, rfl⟩ := Collection.createInner_eq_ok_iff.mp hcreate
      exact ⟨_, createOps_plain_iff.mpr ⟨rfl, puts, hputs, rfl⟩, fun _ => ⟨habsent, hcheck⟩, rfl, rfl⟩
  · rintro ⟨ops, hops, hadmitted, rfl, rfl⟩
    obtain ⟨habsent, hcheck⟩ := hadmitted rfl
    obtain ⟨_, puts, hputs, rfl⟩ := createOps_plain_iff.mp hops
    exact Prog.run_bind_ok
      (Collection.createInner_eq_ok_iff.mpr ⟨rfl, habsent, hcheck, puts, hputs, rfl⟩)

/-- A `CREATE` with `ON CONFLICT`, on a table whose definitions are known. -/
theorem execCreate_upsert_iff {ex : QueryExecutor} {s s' : Store} {i : Issued} {table : String}
    {id : Option String} {fields : Assignments} {conflict : OnConflict}
    (hstmt : i.stmt = .create table id fields (some conflict)) {defs : List IndexDefinition}
    (hload : (Index.loadIndexDefinitions ex.ns ex.db table).run s = (.ok defs, s)) {q : QueryResult} :
    (ex.execCreate i.uuid table id fields (some conflict)).run s = (.ok q, s') ↔
      ∃ ops, (createOps (ex.collection table defs) i.uuid id fields (some conflict)).run s = (.ok ops, s) ∧
        ex.Admitted s i ∧ s' = s.writeBatch ops.2.1 ops.2.2 ∧ q = ex.answer s i := by
  cases id with
  | none =>
    refine iff_of_false ?_ ?_
    · intro h
      rw [execCreate, Prog.run_bind_ok (load_collection hload)] at h
      cases h
    · rintro ⟨ops, h, _⟩
      cases h
  | some id =>
    have hrecord : recordOf i = some ⟨table, id⟩ := by simp [recordOf, hstmt]
    have htaken : ex.taken s i = ex.stored s ⟨table, id⟩ := by simp [taken, upserts, hstmt, recordOf]
    have hbody : (ex.execCreate i.uuid table (some id) fields (some conflict)).run s =
        ((ex.collection table defs).upsert id ⟨(ex.collection table defs).recordId id, assigned fields⟩
          (conflictFields fields conflict) >>=
            fun r => pure (if r.2 then .created r.1 else .updated r.1) : Db QueryResult).run s := by
      rw [execCreate, Prog.run_bind_ok (load_collection hload)]
      dsimp only
      rw [setAll_new]
      rfl
    rw [admitted_iff hrecord hload, hbody]
    constructor
    · intro h
      rcases Prog.run_bind_cases h with ⟨_, _, he⟩ | ⟨r, s₁, hupsert, hret⟩
      · cases he
      · cases hret
        rcases Collection.upsert_eq_ok_iff.mp hupsert with
          ⟨habsent, hcheck, puts, hputs, rfl, rfl⟩ | ⟨old, hold, hvalid, rops, hrops, rfl, rfl⟩
        · have hnone : ex.taken s i = none := htaken.trans (stored_eq_none_of_absent habsent)
          have hgiven : ex.given s i = assigned fields := by simp [given, hstmt, hnone]
          refine ⟨_, createOps_upsert_iff.mpr ⟨rfl, .inl ⟨habsent, puts, hputs, rfl⟩⟩, ?_, rfl, ?_⟩
          · rw [hgiven]
            exact fun _ => ⟨habsent, hcheck⟩
          · simp [answer, hrecord, hnone, Collection.recordId, collection]
        · have hsome : ex.taken s i = some old := htaken.trans ((stored_eq_some_iff defs).mpr hold)
          refine ⟨_, createOps_upsert_iff.mpr ⟨rfl, .inr ⟨old, hold, rops, hvalid, hrops, rfl⟩⟩, ?_, rfl, ?_⟩
          · simp [hsome]
          · simp [answer, hrecord, hsome, Collection.recordId, collection]
    · rintro ⟨ops, hops, hadmitted, rfl, rfl⟩
      obtain ⟨_, ⟨habsent, puts, hputs, rfl⟩ | ⟨old, hold, rops, hvalid, hrops, rfl⟩⟩ :=
        createOps_upsert_iff.mp hops
      · have hnone : ex.taken s i = none := htaken.trans (stored_eq_none_of_absent habsent)
        have hgiven : ex.given s i = assigned fields := by simp [given, hstmt, hnone]
        obtain ⟨_, hcheck⟩ := hadmitted hnone
        rw [hgiven] at hcheck
        rw [Prog.run_bind_ok (Collection.upsert_eq_ok_iff.mpr
          (.inl ⟨habsent, hcheck, puts, hputs, rfl, rfl⟩))]
        simp [answer, hrecord, hnone, Collection.recordId, collection]
      · have hsome : ex.taken s i = some old := htaken.trans ((stored_eq_some_iff defs).mpr hold)
        rw [Prog.run_bind_ok (Collection.upsert_eq_ok_iff.mpr
          (.inr ⟨old, hold, hvalid, rops, hrops, rfl, rfl⟩))]
        simp [answer, hrecord, hsome, Collection.recordId, collection]

/-- A `CREATE` issued alone succeeds exactly when a batch would take it and the checks let it pass;
it then applies the operations it would add to a batch. -/
theorem execCreate_eq_ok_iff {ex : QueryExecutor} {s s' : Store} {i : Issued} {table : String}
    {id : Option String} {fields : Assignments} {onConflict : Option OnConflict}
    (hstmt : i.stmt = .create table id fields onConflict) {q : QueryResult} :
    (ex.execCreate i.uuid table id fields onConflict).run s = (.ok q, s') ↔
      ∃ a, ex.alone s i = .ok a ∧ ex.Admitted s i ∧ s' = s.writeBatch a.puts a.deletes ∧
        q = ex.answer s i := by
  have hcore : ∀ {defs}, (Index.loadIndexDefinitions ex.ns ex.db table).run s = (.ok defs, s) →
      ((ex.execCreate i.uuid table id fields onConflict).run s = (.ok q, s') ↔
        ∃ ops, (createOps (ex.collection table defs) i.uuid id fields onConflict).run s = (.ok ops, s) ∧
          ex.Admitted s i ∧ s' = s.writeBatch ops.2.1 ops.2.2 ∧ q = ex.answer s i) := by
    intro defs hload
    cases onConflict with
    | none => exact execCreate_plain_iff hstmt hload
    | some conflict => exact execCreate_upsert_iff hstmt hload
  constructor
  · intro h
    rcases Prog.run_bind_cases h with ⟨_, _, he⟩ | ⟨c, s₁, hc, _⟩
    · cases he
    · obtain ⟨rfl, defs, hload, rfl⟩ := load_eq_ok_iff.mp hc
      obtain ⟨ops, hops, hadmitted, hs, hq⟩ := (hcore hload).mp h
      exact ⟨_, (alone_create_iff hstmt).mpr ⟨defs, ops, hload, hops, rfl⟩, hadmitted, hs, hq⟩
  · rintro ⟨a, ha, hadmitted, hs, hq⟩
    obtain ⟨defs, ops, hload, hops, rfl⟩ := (alone_create_iff hstmt).mp ha
    exact (hcore hload).mpr ⟨ops, hops, hadmitted, hs, hq⟩

theorem execRelate_eq_ok_iff {ex : QueryExecutor} {s s' : Store} {i : Issued} {src dst : RecordRef}
    {edgeType : String} {fields : Assignments} (hstmt : i.stmt = .relate src edgeType dst fields)
    {q : QueryResult} :
    (ex.execRelate src edgeType dst fields).run s = (.ok q, s') ↔
      ∃ a, ex.alone s i = .ok a ∧ ex.Admitted s i ∧ s' = s.writeBatch a.puts a.deletes ∧
        q = ex.answer s i := by
  have hrecord : recordOf i = none := by simp [recordOf, hstmt]
  have hadmitted : ex.Admitted s i := by
    intro r hr
    rw [hrecord] at hr
    cases hr
  have hanswer : ex.answer s i = .ok := by simp [answer, hrecord]
  simp only [alone_relate_iff hstmt, hadmitted, hanswer, true_and]
  unfold execRelate EdgeStore.relate EdgeStore.relateToOps
  rcases EdgeStore.serializeProps (edgeOf src edgeType dst fields).properties with _ | props
  · refine iff_of_false (fun h => by cases h) ?_
    rintro ⟨_, ⟨_, h, _⟩, _⟩
    cases h
  · constructor
    · intro h
      cases h
      exact ⟨_, ⟨_, rfl, rfl⟩, rfl, rfl⟩
    · rintro ⟨_, ⟨_, h, rfl⟩, rfl, rfl⟩
      cases h
      rfl

end QueryExecutor

end Dllb
