import Mathlib
import Dllb.Document.IndexConsistency
import Dllb.Graph.KeyScans

/-! # The read paths of a collection

A scan of the documents, a scan of their ids, the count and the lookups delimit
the same records, whatever collections and edge stores have written beside them:
the entries among the documents of a table are records that can be read.
-/

namespace Dllb

set_option autoImplicit false

open Key

/-- A collection of the table, with any schema and any indexes. -/
def Key.Place.collection (p : Place) (schema : Option TableDefinition) (indexes : List IndexDefinition) :
    Collection :=
  { ns := p.ns, db := p.db, table := p.table, schema, indexes }

section ReadPaths

variable [Rmp]

/-! ## What the calls of a collection add -/

namespace Collection

/-- The entries a call of a collection may write. -/
inductive Adds (c : Collection) : Bytes → Bytes → Prop where
  | document {doc : Document} {b : Bytes} (id : String) (h : serialize doc = .ok b) : Adds c (c.docKey id) b
  | entry (r : Bytes) : Adds c (tablePrefix c.ns c.db c.table Tag.index ++ r) []

/-- They are index entries and documents that the schema of the collection admits. -/
inductive Writes (c : Collection) : Bytes → Bytes → Prop where
  | document {doc : Document} {b : Bytes} (id : String) (hvalid : c.validate doc = .ok ()) (h : serialize doc = .ok b) :
      Writes c (c.docKey id) b
  | entry (r : Bytes) : Writes c (tablePrefix c.ns c.db c.table Tag.index ++ r) []

theorem Writes.adds {c : Collection} {k v : Bytes} (h : c.Writes k v) : c.Adds k v := by
  cases h with
  | document id _ hb => exact .document id hb
  | entry r => exact .entry r

theorem writes_entries {c : Collection} {doc : Document} {es : List PutOp} (h : c.entries doc = .ok es) :
    ∀ op ∈ es, c.Writes op.1 op.2 := by
  obtain ⟨-, rfl⟩ := Index.canIndex_of_buildIndexEntries h
  intro op hop
  obtain ⟨idx, -, -, values, -, rfl⟩ := Index.mem_entriesOf_iff.mp hop
  dsimp only
  rw [Index.entryKey_eq]
  exact .entry _

theorem writes_put {c : Collection} {doc doc' : Document} {b : Bytes} {es : List PutOp} (id : String)
    (hvalid : c.validate doc = .ok ()) (hb : serialize doc = .ok b) (hes : c.entries doc' = .ok es) :
    ∀ op ∈ (c.docKey id, b) :: es, c.Writes op.1 op.2 :=
  List.forall_mem_cons.mpr ⟨.document id hvalid hb, writes_entries hes⟩

theorem keeps_createInner (c : Collection) (id : String) (doc : Document) :
    (c.createInner id doc).Keeps (Store.Grows c.Writes) := by
  refine ((Prog.readOnly_lift _).keeps _).bind_returns (Prog.returns_lift fun _ hvalid => hvalid) fun _ hvalid =>
    ((Prog.readOnly_query _).keeps _).bind fun found => ?_
  cases found with
  | true => trivial
  | false =>
    refine ((c.readOnly_checkUnique doc id _).keeps _).bind fun _ =>
      ((Prog.readOnly_lift _).keeps _).bind_returns (Prog.returns_lift fun b hb => hb) fun b hb => ?_
    refine ((Prog.readOnly_lift _).keeps _).bind_returns (Prog.returns_lift fun es hes => hes) fun es hes => ?_
    exact (Prog.keeps_commit (Store.grows_putBatch (writes_put id hvalid hb hes))).bind fun _ => trivial

theorem writes_createToOps {c : Collection} {id : String} {doc : Document} {created : RecordId × List PutOp}
    (h : c.createToOps id doc = .ok created) : ∀ op ∈ created.2, c.Writes op.1 op.2 := by
  unfold createToOps at h
  dsimp only at h
  cases hvalid : c.validate { doc with id := c.recordId id } with
  | error e => rw [hvalid] at h; cases h
  | ok u =>
    cases hb : serialize { doc with id := c.recordId id } with
    | error e => rw [hvalid, hb] at h; cases h
    | ok b =>
      cases hes : c.entries { doc with id := c.recordId id } with
      | error e => rw [hvalid, hb, hes] at h; cases h
      | ok es =>
        rw [hvalid, hb, hes] at h
        cases h
        exact writes_put id hvalid hb hes

theorem writes_replaceOps {c : Collection} {id : String} {old new : Document} {ops : List PutOp × List Bytes}
    (hvalid : c.validate new = .ok ()) (h : c.replaceOps id old new = .ok ops) :
    ∀ op ∈ ops.1, c.Writes op.1 op.2 := by
  obtain ⟨b, oldEs, newEs, hb, -, hnew, rfl⟩ := replaceOps_eq_ok h
  exact writes_put id hvalid hb hnew

theorem keeps_modify (c : Collection) (id : String) (change : Fields → Fields) :
    (c.modify id change).Keeps (Store.Grows c.Writes) := by
  refine ((c.readOnly_getOrNotFound id).keeps _).bind fun old => ?_
  refine ((Prog.readOnly_lift _).keeps _).bind_returns (Prog.returns_lift fun _ hvalid => hvalid) fun _ hvalid => ?_
  refine ((Prog.readOnly_lift _).keeps _).bind_returns (Prog.returns_lift fun ops hops => hops) fun ops hops => ?_
  exact Prog.keeps_commit (Store.grows_writeBatch (writes_replaceOps hvalid hops) ops.2)

theorem keeps_upsert (c : Collection) (id : String) (doc : Document) (updateFields : Fields) :
    (c.upsert id doc updateFields).Keeps (Store.Grows c.Writes) := by
  refine ((Prog.readOnly_query _).keeps _).bind fun found => ?_
  cases found with
  | true =>
    have hmerge : (c.merge id updateFields).Keeps (Store.Grows c.Writes) :=
      c.keeps_modify id fun old => mergeFields old updateFields
    exact hmerge.bind fun _ => trivial
  | false => exact (c.keeps_createInner id doc).bind fun _ => trivial

theorem returns_upsertToOps (c : Collection) (id : String) (doc : Document) (updateFields : Fields) :
    (c.upsertToOps id doc updateFields).Returns fun r => ∀ op ∈ r.2.2.1, c.Writes op.1 op.2 := by
  refine Prog.returns_bind _ fun found => ?_
  cases found with
  | true =>
    refine Prog.returns_bind _ fun old => ?_
    refine (Prog.returns_lift fun _ hvalid => hvalid).bind fun _ hvalid => ?_
    exact (Prog.returns_lift fun ops hops => hops).bind fun ops hops => writes_replaceOps hvalid hops
  | false => exact (Prog.returns_lift fun created h => h).bind fun created h => writes_createToOps h

theorem readOnly_upsertToOps (c : Collection) (id : String) (doc : Document) (updateFields : Fields) :
    Prog.ReadOnly (c.upsertToOps id doc updateFields) := by
  refine (Prog.readOnly_query _).bind fun found => ?_
  cases found with
  | true =>
    exact (c.readOnly_getOrNotFound id).bind fun _ => (Prog.readOnly_lift _).bind fun _ =>
      (Prog.readOnly_lift _).bind fun _ => trivial
  | false => exact (Prog.readOnly_lift _).bind fun _ => trivial

theorem keeps_delete (c : Collection) (id : String) : (c.delete id).Keeps (Store.Grows c.Writes) := by
  refine ((c.readOnly_get id).keeps _).bind fun found => ?_
  cases found with
  | none => trivial
  | some doc =>
    refine ((Prog.readOnly_lift _).keeps _).bind fun es => ?_
    exact (Prog.keeps_commit (Store.grows_deleteBatch _ _)).bind fun _ => trivial

/-! ## Calls -/

/-- A call that writes; the operations of the last two are written in one batch. -/
inductive Call where
  | create (doc : Document)
  | createWithId (id : String) (doc : Document)
  | update (id : String) (fields : Fields)
  | merge (id : String) (fields : Fields)
  | upsert (id : String) (doc : Document) (updateFields : Fields)
  | delete (id : String)
  | createToOps (id : String) (doc : Document)
  | upsertToOps (id : String) (doc : Document) (updateFields : Fields)

/-- The store after a call, whether it succeeded or failed. -/
def Call.exec (c : Collection) (s : Store) : Call → Store
  | create doc => ((c.create doc).run s).2
  | createWithId id doc => ((c.createWithId id doc).run s).2
  | update id fields => ((c.update id fields).run s).2
  | merge id fields => ((c.merge id fields).run s).2
  | upsert id doc updateFields => ((c.upsert id doc updateFields).run s).2
  | delete id => ((c.delete id).run s).2
  | createToOps id doc =>
    match c.createToOps id doc with
    | .ok (_, puts) => s.writeBatch puts []
    | .error _ => s
  | upsertToOps id doc updateFields =>
    match (c.upsertToOps id doc updateFields).run s with
    | (.ok (_, _, puts, deletes), s') => s'.writeBatch puts deletes
    | (.error _, s') => s'

theorem Call.grows_writes (c : Collection) (s : Store) (call : Call) : Store.Grows c.Writes s (call.exec c s) := by
  have hrun : ∀ {α : Type} {p : Db α}, p.Keeps (Store.Grows c.Writes) → Store.Grows c.Writes s (p.run s).2 :=
    fun hp => hp.run (Store.Grows.refl _) Store.Grows.trans s
  cases call with
  | create doc => exact hrun (c.keeps_createInner doc.id.id doc)
  | createWithId id doc => exact hrun (c.keeps_createInner id _)
  | update id fields => exact hrun (c.keeps_modify id fun _ => fields)
  | merge id fields => exact hrun (c.keeps_modify id fun old => mergeFields old fields)
  | upsert id doc updateFields => exact hrun (c.keeps_upsert id doc updateFields)
  | delete id => exact hrun (c.keeps_delete id)
  | createToOps id doc =>
    rw [exec]
    split
    · rename_i rid puts hputs
      exact Store.grows_writeBatch (writes_createToOps hputs) [] s
    · exact Store.Grows.refl _ s
  | upsertToOps id doc updateFields =>
    have hsame := (c.readOnly_upsertToOps id doc updateFields).run_snd s
    rw [exec]
    split
    · rename_i rid created puts deletes s' h
      rw [h] at hsame
      obtain rfl := hsame
      exact Store.grows_writeBatch ((c.returns_upsertToOps id doc updateFields).run h) deletes s'
    · rename_i e s' h
      rw [h] at hsame
      obtain rfl := hsame
      exact Store.Grows.refl _ s'

theorem Call.grows (c : Collection) (s : Store) (call : Call) : Store.Grows c.Adds s (call.exec c s) :=
  (call.grows_writes c s).mono fun _ _ => Writes.adds

/-! ## Calls on all tables -/

/-- The entries among the documents of a place are records that can be read. -/
def Readable (p : Place) (k v : Bytes) : Prop :=
  p.start Tag.document <+: k →
    ∃ id fields, k = (Content.document id).key p ∧ Rmp.fromSlice v = .ok fields

omit [Rmp] in
theorem not_documents_start {p q : Place} {t : UInt8} (ht : t ≠ Tag.document) (r : Bytes) :
    ¬ p.start Tag.document <+: q.start t ++ r := by
  intro hpre
  rw [← List.append_nil (p.start _)] at hpre
  exact ht ((start_append_prefix_iff ..).mp hpre).2.1.symm

theorem readable_of_adds {p q : Place} {schema : Option TableDefinition} {indexes : List IndexDefinition}
    {k v : Bytes} (h : (q.collection schema indexes).Adds k v) : Readable p k v := by
  intro hpre
  cases h with
  | document id hb =>
    have hkey : (q.collection schema indexes).docKey id = (Content.document id).key q := rfl
    rw [hkey, Content.key_eq, ← List.append_nil (p.start _)] at hpre
    obtain ⟨rfl, -, -⟩ := (start_append_prefix_iff ..).mp hpre
    exact ⟨id, _, rfl, Rmp.fromSlice_toVec (serialize_eq_ok hb)⟩
  | entry r => exact absurd hpre (not_documents_start (by decide) r)

theorem readable_of_edgeAdds {p q : Place} {src edgeType dst : String} {k v : Bytes}
    (h : q.edges.Adds src edgeType dst k v) : Readable p k v := by
  intro hpre
  cases h with
  | outgoing hb =>
    rw [graphOutgoingKey_eq] at hpre
    exact absurd hpre (not_documents_start (by decide) _)
  | incoming =>
    rw [graphIncomingKey_eq] at hpre
    exact absurd hpre (not_documents_start (by decide) _)

end Collection

/-- A call on an edge store, the vertices and the edge type any strings. -/
inductive EdgeStore.Call where
  | relate (edge : Edge)
  | relateToOps (edge : Edge)
  | delete (src edgeType dst : String)
  | updateProperties (src edgeType dst : String) (properties : Fields)

def EdgeStore.Call.exec (es : EdgeStore) (s : Store) : EdgeStore.Call → Store
  | relate edge => ((es.relate edge).run s).2
  | relateToOps edge =>
    match es.relateToOps edge with
    | .ok puts => s.writeBatch puts []
    | .error _ => s
  | delete src edgeType dst => ((es.delete src edgeType dst).run s).2
  | updateProperties src edgeType dst properties => ((es.updateProperties src edgeType dst properties).run s).2

theorem EdgeStore.Call.grows (es : EdgeStore) (s : Store) (call : EdgeStore.Call) :
    ∃ src edgeType dst, Store.Grows (es.Adds src edgeType dst) s (call.exec es s) := by
  cases call with
  | relate edge => exact ⟨_, _, _, (es.keeps_relate edge).run (Store.Grows.refl _) Store.Grows.trans s⟩
  | relateToOps edge =>
    refine ⟨edge.src, edge.edgeType, edge.dst, ?_⟩
    rw [exec]
    split
    · rename_i puts hputs
      exact Store.grows_writeBatch (EdgeStore.adds_relateToOps hputs) [] s
    · exact Store.Grows.refl _ s
  | delete src edgeType dst =>
    exact ⟨src, edgeType, dst, (es.keeps_delete src edgeType dst _).run (Store.Grows.refl _)
      Store.Grows.trans s⟩
  | updateProperties src edgeType dst properties =>
    exact ⟨_, _, _, (es.keeps_updateProperties src edgeType dst properties).run (Store.Grows.refl _)
      Store.Grows.trans s⟩

/-- A call on one of the tables: of a collection, with any schema and any indexes, or of an edge
store. -/
inductive TableCall where
  | collection (p : Place) (schema : Option TableDefinition) (indexes : List IndexDefinition)
    (call : Collection.Call)
  | edges (p : Place) (call : EdgeStore.Call)

def TableCall.exec (s : Store) : TableCall → Store
  | collection p schema indexes call => call.exec (p.collection schema indexes) s
  | edges p call => call.exec p.edges s

def TableCall.execAll (calls : List TableCall) : Store := calls.foldl TableCall.exec ∅

theorem TableCall.readable_exec {p : Place} {s : Store}
    (hs : ∀ k v, s[k]? = some v → Collection.Readable p k v) (call : TableCall) :
    ∀ k v, (call.exec s)[k]? = some v → Collection.Readable p k v := by
  intro k v hv
  cases call with
  | collection q schema indexes call =>
    exact ((call.grows _ s).mono fun _ _ => Collection.readable_of_adds).all hs hv
  | edges q call =>
    obtain ⟨src, edgeType, dst, hgrows⟩ := call.grows q.edges s
    exact (hgrows.mono fun _ _ => Collection.readable_of_edgeAdds).all hs hv

theorem TableCall.readable_execAll (p : Place) (calls : List TableCall) :
    ∀ k v, (execAll calls)[k]? = some v → Collection.Readable p k v := by
  have hrun : ∀ (s : Store), (∀ k v, s[k]? = some v → Collection.Readable p k v) →
      ∀ k v, (calls.foldl exec s)[k]? = some v → Collection.Readable p k v := by
    induction calls with
    | nil => exact fun s hs => hs
    | cons call calls ih => exact fun s hs => ih _ (readable_exec hs call)
  refine hrun ∅ fun k v hv => ?_
  simp at hv

namespace Collection

/-! ## The read paths -/

omit [Rmp] in
theorem idOfKey_key (p : Place) (id : String) : idOfKey ((Content.document id).key p) = .ok id := by
  rw [idOfKey, parseKey_key]
  simp only [bind, Except.bind, Content.remainder, fromUtf8_asBytes]
  rfl

/-- The scans decode the entries of records one by one. -/
theorem decode_entries {p : Place} (schema : Option TableDefinition) (indexes : List IndexDefinition)
    {kvs : List PutOp} (h : ∀ kv ∈ kvs, ∃ id fields, kv.1 = (Content.document id).key p ∧
      Rmp.fromSlice kv.2 = .ok fields) :
    ∃ docs, (p.collection schema indexes).decodeAll kvs = .ok docs ∧
      decodeIds (kvs.map Prod.fst) = .ok (docs.map fun doc => doc.id.id) ∧
      kvs.map Prod.fst = (docs.map fun doc => doc.id.id).map (fun id => (Content.document id).key p) ∧
      ∀ doc, doc ∈ docs ↔ ∃ kv ∈ kvs, (p.collection schema indexes).Decodes kv doc := by
  induction kvs with
  | nil => exact ⟨[], rfl, rfl, rfl, by simp⟩
  | cons kv kvs ih =>
    obtain ⟨⟨id, fields, hk, hf⟩, hrest⟩ := List.forall_mem_cons.mp h
    obtain ⟨docs, hdocs, hids, hkeys, hmem⟩ := ih hrest
    have hkv : (p.collection schema indexes).Decodes kv ⟨⟨p.table, id⟩, fields⟩ := ⟨rfl, hk, hf⟩
    refine ⟨⟨⟨p.table, id⟩, fields⟩ :: docs, ?_, ?_, ?_, fun doc => ?_⟩
    · obtain ⟨k, v⟩ := kv
      dsimp only at hk hf
      rw [decodeAll, hk, idOfKey_key, hdocs]
      simp only [bind, Except.bind, deserialize, hf]
      rfl
    · rw [List.map_cons, decodeIds, hk, idOfKey_key, hids]
      rfl
    · rw [List.map_cons, hk, hkeys]
      rfl
    · rw [List.mem_cons, hmem, List.exists_mem_cons_iff]
      refine or_congr_left ⟨?_, fun hdoc => hdoc.unique hkv⟩
      rintro rfl
      exact hkv

theorem run_get_eq {p : Place} (schema : Option TableDefinition) (indexes : List IndexDefinition) {s : Store}
    (hs : ∀ k v, s[k]? = some v → Readable p k v) (id : String) :
    ∃ found, ((p.collection schema indexes).get id).run s = (.ok found, s) ∧
      ∀ doc, found = some doc ↔ (∃ kv ∈ s.prefixScan (p.start Tag.document),
        (p.collection schema indexes).Decodes kv doc) ∧ doc.id.id = id := by
  have hend := prefixEnd_tablePrefix_append_ne_nil p.ns p.db p.table Tag.document []
  rw [List.append_nil] at hend
  cases hget : s[(p.collection schema indexes).docKey id]? with
  | none =>
    refine ⟨none, ?_, fun doc => iff_of_false nofun ?_⟩
    · rw [get, Db.get, Prog.run_query_bind, hget]
      rfl
    · rintro ⟨⟨⟨k, v⟩, hmem, -, hk, -⟩, rfl⟩
      have hv := ((Store.mem_prefixScan_iff hend).mp hmem).1
      rw [show k = _ from hk, hget] at hv
      cases hv
  | some v =>
    have hpre : p.start Tag.document <+: (p.collection schema indexes).docKey id := by
      rw [docKey, documentKey_eq]
      exact List.prefix_append ..
    obtain ⟨id', fields, -, hf⟩ := hs _ v hget hpre
    have hdecodes : (p.collection schema indexes).Decodes ((p.collection schema indexes).docKey id, v)
        ⟨⟨p.table, id⟩, fields⟩ := ⟨rfl, rfl, hf⟩
    refine ⟨some ⟨⟨p.table, id⟩, fields⟩, ?_, fun doc => ?_⟩
    · rw [get, Db.get, Prog.run_query_bind, hget]
      dsimp only
      rw [deserialize, hf]
      rfl
    · rw [Option.some_inj]
      constructor
      · rintro rfl
        exact ⟨⟨_, (Store.mem_prefixScan_iff hend).mpr ⟨hget, hpre⟩, hdecodes⟩, rfl⟩
      · rintro ⟨⟨⟨k, v'⟩, hmem, hdecodes'⟩, rfl⟩
        obtain rfl : k = (p.collection schema indexes).docKey doc.id.id := hdecodes'.2.1
        obtain rfl : v = v' := Option.some.inj (hget.symm.trans ((Store.mem_prefixScan_iff hend).mp hmem).1)
        exact hdecodes.unique hdecodes'

/-- One batch of lookups finds what single lookups find, one after the other. -/
theorem run_getMany_eq {c : Collection} {s : Store} (h : ∀ id, ∃ found, (c.get id).run s = (.ok found, s))
    (ids : List String) :
    ∃ found, List.Forall₂ (fun id r => (c.get id).run s = (.ok r, s)) ids found ∧
      (c.getMany ids).run s = (.ok (found.flatMap Option.toList), s) := by
  have hdecode : ∃ found, List.Forall₂ (fun id r => (c.get id).run s = (.ok r, s)) ids found ∧
      c.decodeFound (ids.zip (s.multiGet (ids.map c.docKey))) = .ok (found.flatMap Option.toList) := by
    induction ids with
    | nil => exact ⟨[], .nil, rfl⟩
    | cons id ids ih =>
      obtain ⟨found, hfound, hrest⟩ := ih
      obtain ⟨r, hr⟩ := h id
      refine ⟨r :: found, .cons hr hfound, ?_⟩
      rw [get, Db.get, Prog.run_query_bind] at hr
      rw [List.map_cons, Store.multiGet, List.map_cons, List.zip_cons_cons]
      rw [Store.multiGet] at hrest
      cases hv : s[c.docKey id]? with
      | none =>
        rw [hv] at hr
        obtain rfl := Except.ok.inj (congrArg Prod.fst hr)
        exact hrest
      | some v =>
        rw [hv] at hr
        dsimp only at hr
        rw [decodeFound, hrest]
        cases hdoc : deserialize (c.recordId id) v with
        | error e =>
          rw [hdoc] at hr
          cases congrArg Prod.fst hr
        | ok doc =>
          rw [hdoc] at hr
          obtain rfl := Except.ok.inj (congrArg Prod.fst hr)
          rfl
  obtain ⟨found, hfound, hdecode⟩ := hdecode
  refine ⟨found, hfound, ?_⟩
  unfold getMany
  split
  · rename_i hempty
    obtain rfl := List.isEmpty_iff.mp hempty
    cases hfound
    rfl
  · rw [Db.multiGet, Prog.run_query_bind, hdecode]
    rfl

/-- The scan of the documents, the count, the scan of the ids, the lookups and the batches of lookups
see the same records. -/
def ReadsAgree (c : Collection) (s : Store) : Prop :=
  ∃ docs, c.scanAll.run s = (.ok docs, s) ∧
    c.count.run s = (.ok docs.length, s) ∧
    c.scanIds.run s = (.ok (docs.map fun doc => doc.id.id), s) ∧
    (docs.map fun doc => doc.id.id).Nodup ∧
    (∀ id doc, (c.get id).run s = (.ok (some doc), s) ↔ doc ∈ docs ∧ doc.id.id = id) ∧
    ∀ ids, ∃ found, List.Forall₂ (fun id r => (c.get id).run s = (.ok r, s)) ids found ∧
      (c.getMany ids).run s = (.ok (found.flatMap Option.toList), s)

theorem readsAgree_of_readable {p : Place} (schema : Option TableDefinition) (indexes : List IndexDefinition)
    {s : Store} (hreadable : ∀ k v, s[k]? = some v → Readable p k v) :
    (p.collection schema indexes).ReadsAgree s := by
  have hend := prefixEnd_tablePrefix_append_ne_nil p.ns p.db p.table Tag.document []
  rw [List.append_nil] at hend
  have hentries : ∀ kv ∈ s.prefixScan (p.start Tag.document), ∃ id fields,
      kv.1 = (Content.document id).key p ∧ Rmp.fromSlice kv.2 = .ok fields := by
    rintro ⟨k, v⟩ hmem
    obtain ⟨hv, hpre⟩ := (Store.mem_prefixScan_iff hend).mp hmem
    exact hreadable k v hv hpre
  obtain ⟨docs, hdocs, hids, hkeys, hmem⟩ := decode_entries schema indexes hentries
  refine ⟨docs, ?_, ?_, ?_, ?_, fun id doc => ?_, ?_⟩
  · rw [scanAll, Db.prefixScan, Prog.run_query_bind, Prog.run_lift]
    exact congrArg (fun r => (r, s)) hdocs
  · rw [count, Db.countPrefix, Prog.run_query]
    have hlength := congrArg List.length hkeys
    rw [List.length_map, List.length_map, List.length_map] at hlength
    rw [← hlength]
    rfl
  · rw [scanIds, Db.scanPrefixKeys, Prog.run_query_bind, Prog.run_lift]
    exact congrArg (fun r => (r, s)) hids
  · have hdistinct : ((s.prefixScan (p.start Tag.document)).map Prod.fst).Nodup :=
      List.pairwise_map.mpr (pairwise_prefixScan_ne s _)
    rw [hkeys] at hdistinct
    exact hdistinct.of_map
  · obtain ⟨found, hfound, hiff⟩ := run_get_eq schema indexes hreadable id
    rw [hfound, hmem, ← hiff, Prod.mk.injEq, Except.ok.injEq]
    exact and_iff_left rfl
  · exact run_getMany_eq fun id => (run_get_eq schema indexes hreadable id).imp fun _ h => h.1

/-- After any calls the read paths of every collection agree. -/
theorem read_paths_agree (p : Place) (schema : Option TableDefinition) (indexes : List IndexDefinition)
    (calls : List TableCall) : (p.collection schema indexes).ReadsAgree (TableCall.execAll calls) :=
  readsAgree_of_readable schema indexes (TableCall.readable_execAll p calls)

end Collection

end ReadPaths

end Dllb
