import Mathlib
import Dllb.Document.Collection
import Dllb.Document.MsgPack

/-! # Secondary indexes stay consistent with the documents

Every write of a collection replaces what one record holds, documents and
entries together. The regions of the indexes therefore hold exactly the
entries of the stored documents, after any sequence of operations.
-/

namespace Dllb

set_option autoImplicit false

/-! ## Keys of one table -/

namespace Key

theorem tablePrefix_append_prefix_iff (ns db table : String) (t u : UInt8) (r s : Bytes) :
    tablePrefix ns db table t ++ r <+: tablePrefix ns db table u ++ s ↔ t = u ∧ r <+: s := by
  simp only [tablePrefix_eq, List.append_assoc, List.cons_append, List.nil_append,
    List.prefix_append_right_inj, List.cons_prefix_cons, true_and]

theorem tablePrefix_append_inj (ns db table : String) (t u : UInt8) (r s : Bytes) :
    tablePrefix ns db table t ++ r = tablePrefix ns db table u ++ s ↔ t = u ∧ r = s := by
  simp [tablePrefix_eq]

theorem documentKey_inj {ns db table id id' : String} :
    documentKey ns db table id = documentKey ns db table id' ↔ id = id' := by
  simp [documentKey_eq]

end Key

namespace Index

theorem collectValues_congr {doc doc' : Document} (h : doc.fields = doc'.fields) (fields : List String) :
    collectValues doc fields = collectValues doc' fields := by
  induction fields with
  | nil => rfl
  | cons field fields ih => rw [collectValues, collectValues, h, ih]

theorem collectIndexValues_congr {doc doc' : Document} (h : doc.fields = doc'.fields) :
    collectIndexValues doc = collectIndexValues doc' := by
  funext idx
  rw [collectIndexValues, collectIndexValues, collectValues_congr h]

theorem entryKey_eq (ns db table indexName : String) (values : List Value) (id : String) :
    entryKey ns db table indexName values id =
      Key.tablePrefix ns db table Key.Tag.index ++
        (asBytes indexName ++ Key.separator :: (tupleCode values ++ asBytes id)) := by
  simp [entryKey, Key.indexPrefix_eq]

theorem documentKey_ne_of_indexPrefix {ns db table indexName : String} {k : Bytes}
    (h : Key.indexPrefix ns db table indexName <+: k) (id : String) :
    Key.documentKey ns db table id ≠ k := by
  rintro rfl
  rw [Key.indexPrefix_eq, Key.documentKey_eq, Key.tablePrefix_append_prefix_iff] at h
  exact absurd h.1 (by decide)

theorem entryKey_ne_documentKey (ns db table indexName : String) (values : List Value) (id id' : String) :
    entryKey ns db table indexName values id ≠ Key.documentKey ns db table id' := by
  rw [entryKey_eq, Key.documentKey_eq]
  intro h
  exact absurd ((Key.tablePrefix_append_inj ..).mp h).1 (by decide)

theorem indexPrefix_prefix_entryKey_iff {ns db table n m : String} (hn : Key.NulFree n)
    (hm : Key.NulFree m) (values : List Value) (id : String) :
    Key.indexPrefix ns db table n <+: entryKey ns db table m values id ↔ n = m := by
  rw [Key.indexPrefix_eq, entryKey_eq, Key.tablePrefix_append_prefix_iff,
    Key.segment_append_prefix_iff hn hm, asBytes_inj]
  simp

/-- Entries of one index agree on the record and on the raw encodings of the tuple. -/
theorem entryKey_inj {ns db table n : String} {us vs : List Value} {id id' : String}
    (hlen : us.length = vs.length) :
    entryKey ns db table n us id = entryKey ns db table n vs id' ↔
      us.map rawOf = vs.map rawOf ∧ id = id' := by
  simp only [entryKey, List.append_assoc, List.append_cancel_left_eq]
  rw [tupleCode_append_eq_iff hlen, asBytes_inj]

end Index

namespace Collection

/-- The names the code assumes of a collection: segments without the separator, and B-tree
indexes told apart by their names. -/
structure Regular (c : Collection) : Prop where
  ns : Key.NulFree c.ns
  db : Key.NulFree c.db
  table : Key.NulFree c.table
  btree : ∀ idx ∈ c.indexes, idx.isBtree = true
  names : ∀ idx ∈ c.indexes, Key.NulFree idx.name
  distinct : c.indexes.Pairwise fun idx idx' => idx.name ≠ idx'.name

def region (c : Collection) (idx : IndexDefinition) : Bytes := Key.indexPrefix c.ns c.db c.table idx.name

def documents (c : Collection) : Bytes := Key.tablePrefix c.ns c.db c.table Key.Tag.document

theorem prefixEnd_documents_ne_nil (c : Collection) : Key.prefixEnd c.documents ≠ [] := by
  have h := Key.prefixEnd_tablePrefix_append_ne_nil c.ns c.db c.table Key.Tag.document []
  rwa [List.append_nil] at h

theorem prefixEnd_region_append_ne_nil (c : Collection) (idx : IndexDefinition) (r : Bytes) :
    Key.prefixEnd (c.region idx ++ r) ≠ [] :=
  Index.prefixEnd_indexPrefix_append_ne_nil c.ns c.db c.table idx.name r

theorem prefixEnd_region_ne_nil (c : Collection) (idx : IndexDefinition) :
    Key.prefixEnd (c.region idx) ≠ [] := by
  have h := c.prefixEnd_region_append_ne_nil idx []
  rwa [List.append_nil] at h

theorem Regular.eq_of_name_eq {c : Collection} (hc : c.Regular) {idx idx' : IndexDefinition}
    (h : idx ∈ c.indexes) (h' : idx' ∈ c.indexes) (hname : idx.name = idx'.name) : idx = idx' := by
  by_contra hne
  have hsymm : Std.Symm fun a b : IndexDefinition => a.name ≠ b.name := ⟨fun _ _ h => h.symm⟩
  exact hc.distinct.forall h h' hne hname

variable [Rmp]

/-! ## Scanning the documents -/

/-- Keys among the documents are those of records, and what they hold can be read back. -/
def DocumentsReadable (c : Collection) (s : Store) : Prop :=
  ∀ k b, s[k]? = some b → c.documents <+: k →
    ∃ id fields, k = c.docKey id ∧ Rmp.fromSlice b = .ok fields

omit [Rmp] in
theorem Regular.idOfKey_docKey {c : Collection} (hc : c.Regular) (id : String) :
    idOfKey (c.docKey id) = .ok id := by
  rw [idOfKey, docKey, Key.documentKey_eq, Key.parseKey_tablePrefix_append hc.ns hc.db hc.table]
  simp [bind, Except.bind]
  rfl

/-- The document an entry of the scan stands for. -/
def Decodes (c : Collection) (kv : PutOp) (doc : Document) : Prop :=
  doc.id = c.recordId doc.id.id ∧ kv.1 = c.docKey doc.id.id ∧ Rmp.fromSlice kv.2 = .ok doc.fields

theorem Decodes.unique {c : Collection} {kv : PutOp} {doc doc' : Document} (h : c.Decodes kv doc)
    (h' : c.Decodes kv doc') : doc = doc' := by
  obtain ⟨i, f⟩ := doc
  obtain ⟨i', f'⟩ := doc'
  obtain ⟨hid, hk, hf⟩ := h
  obtain ⟨hid', hk', hf'⟩ := h'
  dsimp only at hid hid' hk hk' hf hf'
  have hsame : i.id = i'.id := Key.documentKey_inj.mp (hk.symm.trans hk')
  rw [hid, hid', hsame, Except.ok.inj (hf.symm.trans hf')]

theorem Regular.decodeAll_eq_ok {c : Collection} (hc : c.Regular) {kvs : List PutOp}
    (h : ∀ kv ∈ kvs, ∃ id fields, kv.1 = c.docKey id ∧ Rmp.fromSlice kv.2 = .ok fields) :
    ∃ docs, c.decodeAll kvs = .ok docs ∧ ∀ doc, doc ∈ docs ↔ ∃ kv ∈ kvs, c.Decodes kv doc := by
  induction kvs with
  | nil => exact ⟨[], rfl, by simp⟩
  | cons kv kvs ih =>
    obtain ⟨⟨id, fields, hk, hf⟩, hrest⟩ := List.forall_mem_cons.mp h
    obtain ⟨docs, hdocs, hmem⟩ := ih hrest
    have hkv : c.Decodes kv ⟨c.recordId id, fields⟩ := ⟨rfl, hk, hf⟩
    refine ⟨⟨c.recordId id, fields⟩ :: docs, ?_, ?_⟩
    · obtain ⟨k, b⟩ := kv
      dsimp only at hk hf
      rw [decodeAll, hk, hc.idOfKey_docKey, hdocs]
      simp [deserialize, hf, bind, Except.bind, pure, Except.pure]
    · intro doc
      rw [List.mem_cons, hmem, List.exists_mem_cons_iff]
      refine or_congr_left ⟨?_, fun hdoc => hdoc.unique hkv⟩
      rintro rfl
      exact hkv

theorem Regular.scanAll_eq_ok {c : Collection} (hc : c.Regular) {s : Store} (h : c.DocumentsReadable s) :
    ∃ docs, c.scanAll.run s = (.ok docs, s) ∧
      ∀ doc, doc ∈ docs ↔ doc.id = c.recordId doc.id.id ∧ c.Stored s doc.id.id doc.fields := by
  have hend := c.prefixEnd_documents_ne_nil
  obtain ⟨docs, hdocs, hmem⟩ := hc.decodeAll_eq_ok (show ∀ kv ∈ s.prefixScan c.documents, _ by
    rintro ⟨k, b⟩ hkb
    obtain ⟨hk, hp⟩ := (Store.mem_prefixScan_iff hend).mp hkb
    exact h k b hk hp)
  refine ⟨docs, ?_, ?_⟩
  · rw [scanAll, Db.prefixScan, Prog.run_query_bind, ← documents, hdocs]
    rfl
  · intro doc
    rw [hmem]
    constructor
    · rintro ⟨⟨k, b⟩, hkb, hid, hk, hf⟩
      exact ⟨hid, b, hk ▸ ((Store.mem_prefixScan_iff hend).mp hkb).1, hf⟩
    · rintro ⟨hid, b, hb, hf⟩
      exact ⟨(c.docKey doc.id.id, b), (Store.mem_prefixScan_iff hend).mpr ⟨hb, List.prefix_append ..⟩,
        hid, rfl, hf⟩

/-! ## The invariant -/

/-- `k` is the key of the entry that fields stored under `id` have in the index. -/
def IsEntry (c : Collection) (idx : IndexDefinition) (id : String) (fields : Fields) (k : Bytes) : Prop :=
  ∃ values, Index.collectIndexValues ⟨c.recordId id, fields⟩ idx = some values ∧
    k = Index.entryKey c.ns c.db c.table idx.name values id

/-- Every stored document can be read and indexed, and the region of every index holds exactly the
entries of the stored documents. -/
structure Inv (c : Collection) (s : Store) : Prop where
  documents : ∀ k b, s[k]? = some b → c.documents <+: k →
    ∃ id fields, k = c.docKey id ∧ Rmp.fromSlice b = .ok fields ∧
      Index.CanIndex ⟨c.recordId id, fields⟩ c.indexes
  entries : ∀ idx ∈ c.indexes, ∀ k, c.region idx <+: k →
    (k ∈ s ↔ ∃ id fields, c.Stored s id fields ∧ c.IsEntry idx id fields k)

theorem Inv.readable {c : Collection} {s : Store} (h : c.Inv s) : c.DocumentsReadable s := by
  intro k b hk hp
  obtain ⟨id, fields, hid, hf, _⟩ := h.documents k b hk hp
  exact ⟨id, fields, hid, hf⟩

theorem Stored.unique {c : Collection} {s : Store} {id : String} {f g : Fields}
    (hf : c.Stored s id f) (hg : c.Stored s id g) : f = g := by
  obtain ⟨b, hb, hf⟩ := hf
  obtain ⟨b', hb', hg⟩ := hg
  obtain rfl : b = b' := Option.some.inj (hb.symm.trans hb')
  exact Except.ok.inj (hf.symm.trans hg)

theorem Inv.canIndex {c : Collection} {s : Store} (h : c.Inv s) {id : String} {fields : Fields}
    (hstored : c.Stored s id fields) : Index.CanIndex ⟨c.recordId id, fields⟩ c.indexes := by
  obtain ⟨b, hb, hf⟩ := hstored
  obtain ⟨id', fields', hid, hf', hcan⟩ := h.documents _ b hb (List.prefix_append ..)
  obtain rfl : id = id' := Key.documentKey_inj.mp hid
  obtain rfl : fields = fields' := Except.ok.inj (hf.symm.trans hf')
  exact hcan

/-- Nothing of the table is stored yet. -/
def Empty (c : Collection) (s : Store) : Prop :=
  ∀ k ∈ s, ¬ c.documents <+: k ∧ ∀ idx ∈ c.indexes, ¬ c.region idx <+: k

theorem Empty.inv {c : Collection} {s : Store} (h : c.Empty s) : c.Inv s where
  documents := by
    intro k b hk hp
    have hmem : k ∈ s := Std.ExtTreeMap.isSome_getElem?_iff_mem.mp (by simp [hk])
    exact absurd hp (h k hmem).1
  entries := by
    intro idx hidx k hp
    refine iff_of_false (fun hmem => (h k hmem).2 idx hidx hp) ?_
    rintro ⟨id, fields, ⟨b, hb, _⟩, _⟩
    have hmem : c.docKey id ∈ s := Std.ExtTreeMap.isSome_getElem?_iff_mem.mp (by simp [hb])
    exact (h _ hmem).1 (List.prefix_append ..)

/-! ## Replacing what one record holds -/

/-- The entry keys of the fields a record holds, if any. -/
def entryKeys (c : Collection) (id : String) : Option Fields → List Bytes
  | none => []
  | some fields =>
    (Index.entriesOf c.ns c.db c.table ⟨c.recordId id, fields⟩ c.indexes).map Prod.fst

def HoldsAt (c : Collection) (s : Store) (id : String) : Option Fields → Prop
  | none => s[c.docKey id]? = none
  | some fields => c.Stored s id fields

/-- From `s` to `s'` the record passes from holding `old` to holding `new`, with its entries, and
nothing else changes. -/
structure Replaced (c : Collection) (id : String) (old new : Option Fields) (s s' : Store) : Prop where
  before : c.HoldsAt s id old
  after : c.HoldsAt s' id new
  canIndex : ∀ fields ∈ new, Index.CanIndex ⟨c.recordId id, fields⟩ c.indexes
  other : ∀ k, k ≠ c.docKey id → s'[k]? =
    if k ∈ c.entryKeys id new then some [] else if k ∈ c.entryKeys id old then none else s[k]?

theorem HoldsAt.stored_iff {c : Collection} {s : Store} {id : String} {held : Option Fields}
    (h : c.HoldsAt s id held) (fields : Fields) : c.Stored s id fields ↔ held = some fields := by
  cases held with
  | none =>
    refine iff_of_false ?_ (by simp)
    rintro ⟨b, hb, _⟩
    rw [h] at hb
    cases hb
  | some f =>
    constructor
    · intro hstored
      rw [Stored.unique h hstored]
    · rintro ⟨⟩
      exact h

omit [Rmp] in
theorem Regular.mem_entryKeys_iff {c : Collection} (hc : c.Regular) {idx : IndexDefinition}
    (hidx : idx ∈ c.indexes) {k : Bytes} (hk : c.region idx <+: k) (id : String) (held : Option Fields) :
    k ∈ c.entryKeys id held ↔ ∃ fields, held = some fields ∧ c.IsEntry idx id fields k := by
  cases held with
  | none => simp [entryKeys]
  | some fields =>
    simp only [entryKeys, List.mem_map, Index.mem_entriesOf_iff, Option.some.injEq, exists_eq_left']
    constructor
    · rintro ⟨_, ⟨idx', hidx', _, values, hvalues, rfl⟩, rfl⟩
      obtain rfl : idx = idx' := hc.eq_of_name_eq hidx hidx'
        ((Index.indexPrefix_prefix_entryKey_iff (hc.names idx hidx) (hc.names idx' hidx') ..).mp hk)
      exact ⟨values, hvalues, rfl⟩
    · rintro ⟨values, hvalues, rfl⟩
      exact ⟨_, ⟨idx, hidx, hc.btree idx hidx, values, hvalues, rfl⟩, rfl⟩

omit [Rmp] in
theorem docKey_notMem_entryKeys (c : Collection) (id id' : String) (held : Option Fields) :
    c.docKey id' ∉ c.entryKeys id held := by
  cases held with
  | none => simp [entryKeys]
  | some fields =>
    simp only [entryKeys, List.mem_map, not_exists, not_and]
    rintro op hop hk
    obtain ⟨idx, _, _, values, _, rfl⟩ := Index.mem_entriesOf_iff.mp hop
    exact Index.entryKey_ne_documentKey _ _ _ _ _ _ _ hk

omit [Rmp] in
theorem IsEntry.id_eq {c : Collection} {idx : IndexDefinition} {id id' : String} {f g : Fields} {k : Bytes}
    (h : c.IsEntry idx id f k) (h' : c.IsEntry idx id' g k) : id = id' := by
  obtain ⟨us, hus, rfl⟩ := h
  obtain ⟨vs, hvs, heq⟩ := h'
  have hlen : us.length = vs.length :=
    (Index.collectIndexValues_length hus).1.trans (Index.collectIndexValues_length hvs).1.symm
  exact ((Index.entryKey_inj hlen).mp heq).2

theorem Replaced.stored_other {c : Collection} {id : String} {old new : Option Fields} {s s' : Store}
    (h : c.Replaced id old new s s') {id' : String} (hne : id' ≠ id) (fields : Fields) :
    c.Stored s' id' fields ↔ c.Stored s id' fields := by
  have hkey : c.docKey id' ≠ c.docKey id := fun heq => hne (Key.documentKey_inj.mp heq)
  rw [Stored, Stored, h.other _ hkey, if_neg (c.docKey_notMem_entryKeys id id' new),
    if_neg (c.docKey_notMem_entryKeys id id' old)]

/-- Replacing what one record holds keeps the invariant. -/
theorem Inv.replaced {c : Collection} (hc : c.Regular) {id : String} {old new : Option Fields}
    {s s' : Store} (hinv : c.Inv s) (h : c.Replaced id old new s s') : c.Inv s' where
  documents := by
    intro k b hk hp
    by_cases hid : k = c.docKey id
    · subst hid
      cases new with
      | none =>
        rw [h.after] at hk
        cases hk
      | some fields =>
        obtain ⟨b', hb', hf⟩ := h.after
        obtain rfl : b = b' := Option.some.inj (hk.symm.trans hb')
        exact ⟨id, fields, rfl, hf, h.canIndex fields rfl⟩
    · obtain ⟨rest, rfl⟩ := hp
      have hnotMem : ∀ held, c.documents ++ rest ∉ c.entryKeys id held := by
        intro held hmem
        cases held with
        | none => simp [entryKeys] at hmem
        | some fields =>
          obtain ⟨op, hop, hkey⟩ := List.mem_map.mp hmem
          obtain ⟨idx, _, _, values, _, rfl⟩ := Index.mem_entriesOf_iff.mp hop
          dsimp only at hkey
          rw [Index.entryKey_eq, Collection.documents] at hkey
          exact absurd ((Key.tablePrefix_append_inj ..).mp hkey).1 (by decide)
      rw [h.other _ hid, if_neg (hnotMem new), if_neg (hnotMem old)] at hk
      exact hinv.documents _ b hk (List.prefix_append ..)
  entries := by
    intro idx hidx k hp
    have hne : k ≠ c.docKey id := (Index.documentKey_ne_of_indexPrefix hp id).symm
    have hmem : k ∈ s' ↔ k ∈ c.entryKeys id new ∨ k ∉ c.entryKeys id old ∧ k ∈ s := by
      rw [← Std.ExtTreeMap.isSome_getElem?_iff_mem, ← Std.ExtTreeMap.isSome_getElem?_iff_mem,
        h.other k hne]
      split
      · simp [*]
      · split <;> simp [*]
    rw [hmem, hinv.entries idx hidx k hp, hc.mem_entryKeys_iff hidx hp, hc.mem_entryKeys_iff hidx hp]
    constructor
    · rintro (⟨fields, hnew, hentry⟩ | ⟨hnot, id', fields, hstored, hentry⟩)
      · exact ⟨id, fields, (h.after.stored_iff fields).mpr hnew, hentry⟩
      · refine ⟨id', fields, ?_, hentry⟩
        by_cases hid : id' = id
        · subst hid
          exact absurd ⟨fields, (h.before.stored_iff fields).mp hstored, hentry⟩ hnot
        · exact (h.stored_other hid fields).mpr hstored
    · rintro ⟨id', fields, hstored, hentry⟩
      by_cases hid : id' = id
      · subst hid
        exact .inl ⟨fields, (h.after.stored_iff fields).mp hstored, hentry⟩
      · refine .inr ⟨?_, id', fields, (h.stored_other hid fields).mp hstored, hentry⟩
        rintro ⟨g, _, hentry'⟩
        exact hid (hentry.id_eq hentry')

/-! ## The operations -/

omit [Rmp] in
theorem entries_eq_ok {c : Collection} {doc : Document} {es : List PutOp} {id : String}
    (hid : doc.id.id = id) (h : c.entries doc = .ok es) :
    Index.CanIndex ⟨c.recordId id, doc.fields⟩ c.indexes ∧
      es = Index.entriesOf c.ns c.db c.table ⟨c.recordId id, doc.fields⟩ c.indexes := by
  obtain ⟨hcan, hes⟩ := Index.canIndex_of_buildIndexEntries h
  subst hid
  have hcollect : Index.collectIndexValues ⟨c.recordId doc.id.id, doc.fields⟩ = Index.collectIndexValues doc :=
    Index.collectIndexValues_congr rfl
  constructor
  · intro idx hidx hbtree
    rw [hcollect]
    exact hcan idx hidx hbtree
  · rw [hes, Index.entriesOf, Index.entriesOf, hcollect]
    rfl

omit [Rmp] in
theorem lastPut_entriesOf (c : Collection) (id : String) (fields : Fields) (k : Bytes) :
    Store.lastPut (Index.entriesOf c.ns c.db c.table ⟨c.recordId id, fields⟩ c.indexes) k =
      if k ∈ c.entryKeys id (some fields) then some [] else none := by
  split
  · rename_i hk
    rcases hlast : Store.lastPut (Index.entriesOf c.ns c.db c.table ⟨c.recordId id, fields⟩ c.indexes) k
      with _ | v
    · exact absurd hk (Store.lastPut_eq_none_iff.mp hlast)
    · obtain ⟨_, _, _, _, _, hop⟩ := Index.mem_entriesOf_iff.mp (Store.mem_of_lastPut_eq_some hlast)
      rw [(Prod.mk.inj hop).2]
  · rename_i hk
    exact Store.lastPut_eq_none_iff.mpr hk

/-- A batch that deletes the old entries and puts the new document with its entries. -/
theorem replaced_writeBatch {c : Collection} {id : String} {old : Option Fields} {new : Fields}
    {s : Store} {b : Bytes} (hbefore : c.HoldsAt s id old) (hb : Rmp.fromSlice b = .ok new)
    (hcan : Index.CanIndex ⟨c.recordId id, new⟩ c.indexes) :
    c.Replaced id old (some new) s (s.writeBatch
      ((c.docKey id, b) :: Index.entriesOf c.ns c.db c.table ⟨c.recordId id, new⟩ c.indexes)
      (c.entryKeys id old)) where
  before := hbefore
  after := by
    refine ⟨b, ?_, hb⟩
    rw [Store.getElem?_writeBatch, Store.lastPut, lastPut_entriesOf,
      if_neg (c.docKey_notMem_entryKeys id id (some new))]
    simp
  canIndex := by
    rintro _ ⟨⟩
    exact hcan
  other := by
    intro k hk
    rw [Store.getElem?_writeBatch, Store.lastPut, lastPut_entriesOf, if_neg (Ne.symm hk)]
    split <;> simp

theorem replaced_deleteBatch {c : Collection} {id : String} {old : Fields} {s : Store}
    (hbefore : c.Stored s id old) :
    c.Replaced id (some old) none s (s.deleteBatch (c.docKey id :: c.entryKeys id (some old))) where
  before := hbefore
  after := by simp [HoldsAt]
  canIndex := by simp
  other := by
    intro k hk
    have hnone : k ∉ c.entryKeys id none := by simp [entryKeys]
    simp only [Store.getElem?_deleteBatch, List.mem_cons, hk, false_or, if_neg hnone]

theorem createInner_step {c : Collection} {id : String} {doc : Document} (hid : doc.id.id = id)
    {s s' : Store} {r : Result RecordId} (h : (c.createInner id doc).run s = (r, s')) :
    s' = s ∨ c.Replaced id none (some doc.fields) s s' := by
  rcases run_createInner_cases h with ⟨_, hs⟩ | ⟨_, _, hfresh, _, b, es, hser, hes, rfl⟩
  · exact .inl hs
  · obtain ⟨hcan, rfl⟩ := entries_eq_ok hid hes
    exact .inr (replaced_writeBatch hfresh (Rmp.fromSlice_toVec (serialize_eq_ok hser)) hcan)

theorem modify_step {c : Collection} {id : String} {change : Fields → Fields} {s s' : Store}
    {r : Result Unit} (h : (c.modify id change).run s = (r, s')) :
    s' = s ∨ ∃ old, c.Replaced id (some old) (some (change old)) s s' := by
  rcases run_modify_cases h with ⟨_, hs⟩ | ⟨_, old, hstored, _, b, oldEs, newEs, hser, hold, hnew, rfl⟩
  · exact .inl hs
  · obtain ⟨_, rfl⟩ := entries_eq_ok (show _ = id from rfl) hold
    obtain ⟨hcan, rfl⟩ := entries_eq_ok (show _ = id from rfl) hnew
    exact .inr ⟨old, replaced_writeBatch hstored (Rmp.fromSlice_toVec (serialize_eq_ok hser)) hcan⟩

theorem delete_step {c : Collection} {id : String} {s s' : Store} {r : Result Bool}
    (h : (c.delete id).run s = (r, s')) : s' = s ∨ ∃ old, c.Replaced id (some old) none s s' := by
  rcases run_delete_cases h with ⟨_, hs⟩ | ⟨_, old, hstored, es, hes, rfl⟩
  · exact .inl hs
  · obtain ⟨_, rfl⟩ := entries_eq_ok (show _ = id from rfl) hes
    exact .inr ⟨old, replaced_deleteBatch hstored⟩

theorem upsert_step {c : Collection} {doc : Document} {updateFields : Fields} {s s' : Store}
    {r : Result (RecordId × Bool)} (h : (c.upsert doc.id.id doc updateFields).run s = (r, s')) :
    s' = s ∨ ∃ old new, c.Replaced doc.id.id old new s s' := by
  rw [upsert, Db.contains, Prog.run_query_bind] at h
  split at h
  · rcases Prog.run_bind_cases h with ⟨_, hmerge, _⟩ | ⟨_, s₁, hmerge, hret⟩
    · rw [merge_eq_modify] at hmerge
      rcases modify_step hmerge with hs | ⟨old, hrep⟩
      · exact .inl hs
      · exact .inr ⟨_, _, hrep⟩
    · cases hret
      rw [merge_eq_modify] at hmerge
      rcases modify_step hmerge with hs | ⟨old, hrep⟩
      · exact .inl hs
      · exact .inr ⟨_, _, hrep⟩
  · rcases Prog.run_bind_cases h with ⟨_, hcreate, _⟩ | ⟨_, s₁, hcreate, hret⟩
    · rcases createInner_step rfl hcreate with hs | hrep
      · exact .inl hs
      · exact .inr ⟨_, _, hrep⟩
    · cases hret
      rcases createInner_step rfl hcreate with hs | hrep
      · exact .inl hs
      · exact .inr ⟨_, _, hrep⟩

/-! ## Runs -/

/-- A call of the collection. The upsert passes the document's own id. -/
inductive Op where
  | create (doc : Document)
  | createWithId (id : String) (doc : Document)
  | upsert (doc : Document) (updateFields : Fields)
  | update (id : String) (fields : Fields)
  | merge (id : String) (fields : Fields)
  | delete (id : String)

/-- The store after a call, whether it succeeded or failed. -/
def Op.exec (c : Collection) (s : Store) : Op → Store
  | create doc => ((c.create doc).run s).2
  | createWithId id doc => ((c.createWithId id doc).run s).2
  | upsert doc updateFields => ((c.upsert doc.id.id doc updateFields).run s).2
  | update id fields => ((c.update id fields).run s).2
  | merge id fields => ((c.merge id fields).run s).2
  | delete id => ((c.delete id).run s).2

/-- Calls one after another, each on a collection with a schema of its own. -/
def execAll (c : Collection) (s : Store) (calls : List (Option TableDefinition × Op)) : Store :=
  calls.foldl (fun s call => call.2.exec { c with schema := call.1 } s) s

theorem Op.exec_step (c : Collection) (s : Store) (op : Op) :
    op.exec c s = s ∨ ∃ i old new, c.Replaced i old new s (op.exec c s) := by
  cases op with
  | create doc => exact (createInner_step rfl rfl).imp id fun h => ⟨_, _, _, h⟩
  | createWithId id' doc => exact (createInner_step rfl rfl).imp id fun h => ⟨_, _, _, h⟩
  | upsert doc updateFields => exact (upsert_step rfl).imp id fun ⟨old, new, h⟩ => ⟨_, old, new, h⟩
  | update id' fields =>
    have hrun : (c.modify id' fun _ => fields).run s = (_, exec c s (update id' fields)) := rfl
    exact (modify_step hrun).imp id fun ⟨old, h⟩ => ⟨_, _, _, h⟩
  | merge id' fields =>
    have hrun : (c.modify id' fun old => mergeFields old fields).run s =
        (_, exec c s (merge id' fields)) := rfl
    exact (modify_step hrun).imp id fun ⟨old, h⟩ => ⟨_, _, _, h⟩
  | delete id' => exact (delete_step rfl).imp id fun ⟨old, h⟩ => ⟨_, _, _, h⟩

/-- The schema of the collection plays no part in what is stored. -/
theorem Replaced.withSchema {c : Collection} {schema : Option TableDefinition} {id : String}
    {old new : Option Fields} {s s' : Store} (h : Replaced { c with schema } id old new s s') :
    c.Replaced id old new s s' := by
  refine ⟨?_, ?_, h.canIndex, ?_⟩
  · cases old <;> exact h.before
  · cases new <;> exact h.after
  · cases old <;> cases new <;> exact h.other

theorem Inv.exec {c : Collection} (hc : c.Regular) {s : Store} (hinv : c.Inv s)
    (schema : Option TableDefinition) (op : Op) : c.Inv (op.exec { c with schema } s) := by
  rcases op.exec_step { c with schema } s with hs | ⟨id, old, new, h⟩
  · rw [hs]
    exact hinv
  · exact hinv.replaced hc h.withSchema

theorem Inv.execAll {c : Collection} (hc : c.Regular) {s : Store} (hinv : c.Inv s)
    (calls : List (Option TableDefinition × Op)) : c.Inv (c.execAll s calls) := by
  induction calls generalizing s with
  | nil => exact hinv
  | cons call calls ih => exact ih (hinv.exec hc call.1 call.2)

/-! ## Consistency -/

/-- The documents can be scanned, all of them can be indexed, and the keys under the region of each
index are exactly those of `buildIndexEntries` over the scanned documents. -/
def Consistent (c : Collection) (s : Store) : Prop :=
  ∃ docs, c.scanAll.run s = (.ok docs, s) ∧
    (∀ doc ∈ docs, ∃ es, Index.buildIndexEntries doc c.ns c.db c.table c.indexes = .ok es) ∧
    ∀ idx ∈ c.indexes, ∀ k, k ∈ s.scanPrefixKeys (Key.indexPrefix c.ns c.db c.table idx.name) ↔
      ∃ doc ∈ docs, ∃ es, Index.buildIndexEntries doc c.ns c.db c.table c.indexes = .ok es ∧
        k ∈ es.map Prod.fst ∧ Key.indexPrefix c.ns c.db c.table idx.name <+: k

theorem Inv.consistent {c : Collection} (hc : c.Regular) {s : Store} (h : c.Inv s) : c.Consistent s := by
  obtain ⟨docs, hscan, hdocs⟩ := hc.scanAll_eq_ok h.readable
  have hbuild : ∀ doc ∈ docs, Index.buildIndexEntries doc c.ns c.db c.table c.indexes =
      .ok (Index.entriesOf c.ns c.db c.table doc c.indexes) := by
    intro doc hdoc
    obtain ⟨hid, hstored⟩ := (hdocs doc).mp hdoc
    apply Index.buildIndexEntries_of_canIndex
    have hcan := h.canIndex hstored
    rwa [← hid] at hcan
  refine ⟨docs, hscan, fun doc hdoc => ⟨_, hbuild doc hdoc⟩, ?_⟩
  intro idx hidx k
  change k ∈ s.scanPrefixKeys (c.region idx) ↔ _
  rw [Store.mem_scanPrefixKeys_iff (c.prefixEnd_region_ne_nil idx)]
  constructor
  · rintro ⟨hmem, hp⟩
    obtain ⟨id, fields, hstored, hentry⟩ := (h.entries idx hidx k hp).mp hmem
    have hdoc := (hdocs ⟨c.recordId id, fields⟩).mpr ⟨rfl, hstored⟩
    exact ⟨_, hdoc, _, hbuild _ hdoc,
      (hc.mem_entryKeys_iff hidx hp id (some fields)).mpr ⟨fields, rfl, hentry⟩, hp⟩
  · rintro ⟨doc, hdoc, es, hes, hk, hp⟩
    obtain ⟨hid, hstored⟩ := (hdocs doc).mp hdoc
    obtain rfl := Except.ok.inj ((hbuild doc hdoc).symm.trans hes)
    have hkey : k ∈ c.entryKeys doc.id.id (some doc.fields) := by
      rw [entryKeys, ← hid]
      exact hk
    obtain ⟨fields, hfields, hentry⟩ := (hc.mem_entryKeys_iff hidx hp doc.id.id _).mp hkey
    cases hfields
    exact ⟨(h.entries idx hidx k hp).mpr ⟨doc.id.id, doc.fields, hstored, hentry⟩, hp⟩

/-- From an empty table, after any calls, failed ones included, the indexes are consistent. -/
theorem execAll_consistent {c : Collection} (hc : c.Regular) {s : Store} (hs : c.Empty s)
    (calls : List (Option TableDefinition × Op)) : c.Consistent (c.execAll s calls) :=
  (hs.inv.execAll hc calls).consistent hc

/-- A collection with one unique index and one composite index. -/
def users : Collection :=
  { ns := "n", db := "d", table := "t", schema := none,
    indexes := [.btree "by_a" ["a"] true, .btree "by_ab" ["a", "b"] false] }

omit [Rmp] in
theorem regular_users : users.Regular where
  ns := by decide
  db := by decide
  table := by decide
  btree := by decide
  names := by decide
  distinct := by decide

omit [Rmp] in
theorem users_consistent :
    @Consistent MsgPack.codec users (@execAll MsgPack.codec users ∅
      [(none, .createWithId "x" ((Document.new ⟨"t", "x"⟩).set "a" (.int 1))),
        (none, .merge "x" ((∅ : Fields).insert "b" (.array []))), (none, .delete "x")]) :=
  @execAll_consistent MsgPack.codec users regular_users ∅ (by simp [Empty]) _

end Collection

end Dllb
