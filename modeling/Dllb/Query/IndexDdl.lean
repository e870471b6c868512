import Mathlib
import Dllb.Query.Unique

/-! # What index DDL leaves in the store

`DEFINE INDEX` puts the entries of the stored documents and the definition, and
deletes nothing: the region of the index is exact unless something was in it
before that the new definition does not give. `REMOVE INDEX` empties the region.
-/

namespace Dllb

set_option autoImplicit false

namespace Collection

variable [Rmp]

theorem decodeAll_congr {c c' : Collection} (h : c.table = c'.table) (kvs : List PutOp) :
    c.decodeAll kvs = c'.decodeAll kvs := by
  induction kvs with
  | nil => rfl
  | cons kv kvs ih =>
    have hid : c.recordId = c'.recordId := by
      funext id
      rw [recordId, recordId, h]
    rw [decodeAll, decodeAll, ih, hid]

/-- A scan of the documents depends on the keys of documents only. -/
theorem run_scanAll_congr {c : Collection} {s s' : Store}
    (h : ∀ r, s'[c.documents ++ r]? = s[c.documents ++ r]?) : (c.scanAll.run s').1 = (c.scanAll.run s).1 := by
  have hscan : s'.prefixScan c.documents = s.prefixScan c.documents := by
    refine Store.prefixScan_congr c.prefixEnd_documents_ne_nil ?_
    rintro k ⟨r, rfl⟩
    exact h r
  rw [Collection.documents] at hscan
  rw [scanAll, Db.prefixScan, Prog.run_query_bind, Prog.run_query_bind, hscan, Prog.run_lift, Prog.run_lift]

theorem Inv.steps {c : Collection} (hc : c.Regular) {s s' : Store}
    {Q : Store → String → Option Fields → Prop} (h : c.Inv s) (hsteps : c.Steps Q s s') : c.Inv s' := by
  induction hsteps with
  | refl => exact h
  | step replaced _ _ ih => exact ih (h.replaced hc replaced)

end Collection

namespace QueryExecutor

variable [Rmp]

/-- The definitions of a table play no part in reading its documents. -/
theorem scanAll_collection (ex : QueryExecutor) (table : String) (defs : List IndexDefinition) :
    (ex.collection table defs).scanAll = (Collection.new ex.ns ex.db table).scanAll := by
  unfold Collection.scanAll
  congr 1
  funext kvs
  rw [Collection.decodeAll_congr (c := ex.collection table defs) (show _ = (Collection.new ex.ns ex.db table).table from rfl)]

/-- The region of the index holds exactly the entries of the stored documents. -/
def RegionExact (ex : QueryExecutor) (table : String) (idx : IndexDefinition) (s : Store) : Prop :=
  ∃ docs, (Collection.new ex.ns ex.db table).scanAll.run s = (.ok docs, s) ∧
    ∀ kv, kv ∈ s.prefixScan (Key.indexPrefix ex.ns ex.db table idx.name) ↔
      ∃ doc ∈ docs, ∃ es, Index.buildIndexEntries doc ex.ns ex.db table [idx] = .ok es ∧ kv ∈ es

/-- What the region holds lies at the keys of such entries. -/
def RegionFits (ex : QueryExecutor) (table : String) (idx : IndexDefinition) (s : Store) : Prop :=
  ∃ docs, (Collection.new ex.ns ex.db table).scanAll.run s = (.ok docs, s) ∧
    ∀ k ∈ s.scanPrefixKeys (Key.indexPrefix ex.ns ex.db table idx.name),
      ∃ doc ∈ docs, ∃ es, Index.buildIndexEntries doc ex.ns ex.db table [idx] = .ok es ∧
        k ∈ es.map Prod.fst

omit [Rmp] in
/-- The region after a batch of entries of the index, put beside what was there. -/
theorem region_writeBatch_iff {s : Store} {p k₀ b : Bytes} {puts : List PutOp}
    (hp : Key.prefixEnd p ≠ []) (hk₀ : ¬ p <+: k₀) (hputs : ∀ kv ∈ puts, kv.2 = [] ∧ p <+: kv.1) :
    (∀ kv, kv ∈ (s.writeBatch ((k₀, b) :: puts) []).prefixScan p ↔ kv ∈ puts) ↔
      ∀ k ∈ s.scanPrefixKeys p, k ∈ puts.map Prod.fst := by
  have hget : ∀ k, p <+: k → (s.writeBatch ((k₀, b) :: puts) [])[k]? = (Store.lastPut puts k).or s[k]? := by
    intro k hk
    have hne : k₀ ≠ k := by
      rintro rfl
      exact hk₀ hk
    rw [Store.getElem?_writeBatch, Store.lastPut, if_neg hne]
    simp
  constructor
  · intro h k hk
    obtain ⟨hmem, hprefix⟩ := (Store.mem_scanPrefixKeys_iff hp).mp hk
    by_contra hnot
    obtain ⟨v, hv⟩ := Option.isSome_iff_exists.mp (Std.ExtTreeMap.isSome_getElem?_iff_mem.mpr hmem)
    have hscan : (k, v) ∈ (s.writeBatch ((k₀, b) :: puts) []).prefixScan p := by
      rw [Store.mem_prefixScan_iff hp, hget k hprefix, Store.lastPut_eq_none_iff.mpr hnot]
      exact ⟨hv, hprefix⟩
    exact hnot (List.mem_map_of_mem (f := Prod.fst) ((h (k, v)).mp hscan))
  · rintro h ⟨k, v⟩
    rw [Store.mem_prefixScan_iff hp]
    constructor
    · rintro ⟨hv, hprefix⟩
      rw [hget k hprefix] at hv
      rcases Option.or_eq_some_iff.mp hv with hput | ⟨hnone, hold⟩
      · exact Store.mem_of_lastPut_eq_some hput
      · have hmem : k ∈ s := Std.ExtTreeMap.isSome_getElem?_iff_mem.mp (by rw [hold]; rfl)
        exact absurd (h k ((Store.mem_scanPrefixKeys_iff hp).mpr ⟨hmem, hprefix⟩))
          (Store.lastPut_eq_none_iff.mp hnone)
    · intro hkv
      obtain ⟨rfl, hprefix⟩ := hputs _ hkv
      refine ⟨?_, hprefix⟩
      rw [hget k hprefix]
      cases hlast : Store.lastPut puts k with
      | none => exact absurd (List.mem_map_of_mem (f := Prod.fst) hkv) (Store.lastPut_eq_none_iff.mp hlast)
      | some w =>
        obtain ⟨rfl, _⟩ := hputs _ (Store.mem_of_lastPut_eq_some hlast)
        rfl

/-- A successful `DEFINE INDEX`: the catalog holds the definition, the documents are as before, and
the region is exact if and only if nothing else was in it. -/
theorem define_region_iff {ex : QueryExecutor} {name table : String} (hname : Key.NulFree name)
    (htable : Key.NulFree table) {fields : List String} {unique : Bool} {s : Store} {docs : List Document}
    {puts : List PutOp} {b : Bytes}
    (hdocs : (Collection.new ex.ns ex.db table).scanAll.run s = (.ok docs, s))
    (hputs : backfill ex.ns ex.db table (.btree name fields unique) docs [] = .ok puts) :
    ex.RegionExact table (.btree name fields unique)
        (s.writeBatch ((Key.indexCatalogKey ex.ns ex.db table name, b) :: puts) []) ↔
      ex.RegionFits table (.btree name fields unique) s := by
  obtain ⟨hputsEq, hcan, _⟩ := backfill_eq_ok hputs
  have hend : Key.prefixEnd (Key.indexPrefix ex.ns ex.db table name) ≠ [] :=
    (Collection.new ex.ns ex.db table).prefixEnd_region_ne_nil (.btree name fields unique)
  have hcatalog := Key.not_indexPrefix_prefix_indexCatalogKey ex.ns ex.db table name name
  have hentry : ∀ kv ∈ puts, kv.2 = [] ∧ Key.indexPrefix ex.ns ex.db table name <+: kv.1 := by
    intro kv hkv
    rw [hputsEq, List.mem_flatMap] at hkv
    obtain ⟨doc, _, hkv⟩ := hkv
    obtain ⟨idx, hidx, _, values, _, rfl⟩ := Index.mem_entriesOf_iff.mp hkv
    obtain rfl := List.mem_singleton.mp hidx
    exact ⟨rfl, (Index.indexPrefix_prefix_entryKey_iff hname hname values _).mpr rfl⟩
  have hbuild : ∀ kv, (∃ doc ∈ docs, ∃ es, Index.buildIndexEntries doc ex.ns ex.db table
      [.btree name fields unique] = .ok es ∧ kv ∈ es) ↔ kv ∈ puts := by
    intro kv
    rw [hputsEq, List.mem_flatMap]
    refine exists_congr fun doc => and_congr_right fun hdoc => ?_
    rw [Index.buildIndexEntries_of_canIndex _ _ _ (hcan doc hdoc)]
    simp
  have hframe : ∀ r, (s.writeBatch ((Key.indexCatalogKey ex.ns ex.db table name, b) :: puts) [])[
      Key.tablePrefix ex.ns ex.db table Key.Tag.document ++ r]? =
        s[Key.tablePrefix ex.ns ex.db table Key.Tag.document ++ r]? :=
    getElem?_define_apart htable hputs s b htable (.inr ⟨by decide, by decide⟩)
  have hiff := region_writeBatch_iff (s := s) (b := b) hend hcatalog hentry
  generalize s.writeBatch ((Key.indexCatalogKey ex.ns ex.db table name, b) :: puts) [] = s' at hframe hiff ⊢
  have hsame : ((Collection.new ex.ns ex.db table).scanAll.run s').1 = .ok docs := by
    rw [Collection.run_scanAll_congr (c := Collection.new ex.ns ex.db table) hframe, hdocs]
  have hdocs' : (Collection.new ex.ns ex.db table).scanAll.run s' = (.ok docs, s') :=
    Prod.ext hsame ((Collection.readOnly_scanAll _).run_snd _)
  constructor
  · rintro ⟨docs', hscan, hexact⟩
    obtain rfl : docs = docs' := Except.ok.inj (congrArg Prod.fst (hdocs'.symm.trans hscan))
    refine ⟨docs, hdocs, fun k hk => ?_⟩
    have hregion := hiff.mp fun kv => (hexact kv).trans (hbuild kv)
    obtain ⟨kv, hkv, rfl⟩ := List.mem_map.mp (hregion k hk)
    obtain ⟨doc, hdoc, es, hes, hmem⟩ := (hbuild kv).mpr hkv
    exact ⟨doc, hdoc, es, hes, List.mem_map_of_mem hmem⟩
  · rintro ⟨docs', hscan, hfits⟩
    obtain rfl : docs = docs' := Except.ok.inj (congrArg Prod.fst (hdocs.symm.trans hscan))
    refine ⟨docs, hdocs', fun kv => ?_⟩
    rw [hbuild]
    revert kv
    refine hiff.mpr fun k hk => ?_
    obtain ⟨doc, hdoc, es, hes, hmem⟩ := hfits k hk
    obtain ⟨kv, hkv, rfl⟩ := List.mem_map.mp hmem
    exact List.mem_map_of_mem ((hbuild kv).mp ⟨doc, hdoc, es, hes, hkv⟩)

omit [Rmp] in
/-- What `REMOVE INDEX` deletes. -/
theorem getElem?_remove (ex : QueryExecutor) (name table : String) (s : Store) (k : Bytes) :
    (s.writeBatch [] (s.scanPrefixKeys (Key.indexPrefix ex.ns ex.db table name) ++
        [Key.indexCatalogKey ex.ns ex.db table name]))[k]? =
      if Key.indexPrefix ex.ns ex.db table name <+: k ∨ k = Key.indexCatalogKey ex.ns ex.db table name
      then none else s[k]? := by
  have hend : Key.prefixEnd (Key.indexPrefix ex.ns ex.db table name) ≠ [] :=
    (ex.collection table []).prefixEnd_region_ne_nil (.btree name [] false)
  rw [Store.getElem?_writeBatch, Store.lastPut, Option.none_or]
  simp only [List.mem_append, List.mem_singleton, Store.mem_scanPrefixKeys_iff hend]
  by_cases hmem : k ∈ s
  · simp [hmem]
  · simp [Std.ExtTreeMap.getElem?_eq_none hmem]

/-- In a reachable store `DEFINE INDEX` fails without a trace or leaves the definition in the catalog,
and then the region is exact if and only if all it held before is given by the new definition;
`REMOVE INDEX` succeeds and clears the region and the catalog entry, and nothing else. -/
theorem index_ddl_exact_iff [CodeIntel] {ex : QueryExecutor} (hex : ex.Regular) {s : Store}
    (hs : ex.Reachable (fun _ _ => True) s) {name table : String} (hname : Key.NulFree name)
    (htable : Key.NulFree table) :
    (∀ fields unique r s', (ex.execDefineIndex name table fields unique).run s = (r, s') →
      (∀ e, r = .error e → s' = s) ∧
      (∀ q, r = .ok q → Index.InCatalog ex.ns ex.db table s' (.btree name fields unique) ∧
        (ex.RegionExact table (.btree name fields unique) s' ↔
          ex.RegionFits table (.btree name fields unique) s))) ∧
    ∀ r s', (ex.execRemoveIndex name table).run s = (r, s') →
      r = .ok .ok ∧ s'.prefixScan (Key.indexPrefix ex.ns ex.db table name) = [] ∧
      s'[Key.indexCatalogKey ex.ns ex.db table name]? = none ∧
      ∀ k, ¬ Key.indexPrefix ex.ns ex.db table name <+: k → k ≠ Key.indexCatalogKey ex.ns ex.db table name →
        s'[k]? = s[k]? := by
  constructor
  · intro fields unique r s' hrun
    rcases run_execDefineIndex hrun with ⟨_, rfl, rfl⟩ | ⟨rfl, _, docs, puts, b, hdocs, hputs, hb, rfl⟩
    · exact ⟨fun _ _ => rfl, fun q hq => by cases hq⟩
    · refine ⟨fun e he => (by cases he), fun q _ => ⟨(inCatalog_define htable hputs hb s _).mpr (.inl rfl), ?_⟩⟩
      exact define_region_iff hname htable hdocs hputs
  · intro r s' hrun
    have hend : Key.prefixEnd (Key.indexPrefix ex.ns ex.db table name) ≠ [] :=
      (ex.collection table []).prefixEnd_region_ne_nil (.btree name [] false)
    rcases run_execRemoveIndex hrun with ⟨e, _, _, he⟩ | ⟨rfl, rfl⟩
    · obtain ⟨defs, hload, _⟩ := (hs.catalogsOk hex).load hex htable
      rw [hload] at he
      cases he
    · refine ⟨rfl, List.eq_nil_iff_forall_not_mem.mpr ?_, ?_, ?_⟩
      · rintro ⟨k, v⟩ hkv
        obtain ⟨hv, hprefix⟩ := (Store.mem_prefixScan_iff hend).mp hkv
        rw [getElem?_remove, if_pos (.inl hprefix)] at hv
        cases hv
      · rw [getElem?_remove, if_pos (.inr rfl)]
      · intro k hregion hcatalog
        rw [getElem?_remove, if_neg (not_or.mpr ⟨hregion, hcatalog⟩)]

/-! ## The invariant of the table after a definition -/

/-- What an index region holds has no value. -/
def Blank (ex : QueryExecutor) (table name : String) (s : Store) : Prop :=
  ∀ k v, s[k]? = some v → Key.indexPrefix ex.ns ex.db table name <+: k → v = []

theorem RegionExact.blank {ex : QueryExecutor} {table : String} {idx : IndexDefinition} {s : Store}
    (h : ex.RegionExact table idx s) : ex.Blank table idx.name s := by
  obtain ⟨docs, _, hexact⟩ := h
  intro k v hk hp
  have hend : Key.prefixEnd (Key.indexPrefix ex.ns ex.db table idx.name) ≠ [] :=
    (ex.collection table []).prefixEnd_region_ne_nil idx
  obtain ⟨doc, _, es, hes, hmem⟩ := (hexact (k, v)).mp ((Store.mem_prefixScan_iff hend).mpr ⟨hk, hp⟩)
  obtain ⟨_, rfl⟩ := Index.canIndex_of_buildIndexEntries hes
  obtain ⟨_, _, _, _, _, heq⟩ := Index.mem_entriesOf_iff.mp hmem
  exact (Prod.mk.inj heq).2

theorem Blank.steps {ex : QueryExecutor} {table name : String} {defs : List IndexDefinition} {s s' : Store}
    {Q : Store → String → Option Fields → Prop} (h : ex.Blank table name s)
    (hsteps : (ex.collection table defs).Steps Q s s') : ex.Blank table name s' := by
  induction hsteps with
  | refl => exact h
  | @step s s₁ _ id old new replaced _ _ ih =>
    refine ih ?_
    intro k v hk hp
    rw [replaced.other k (Index.documentKey_ne_of_indexPrefix hp id).symm] at hk
    split at hk
    · exact (Option.some.inj hk).symm
    · split at hk
      · cases hk
      · exact h k v hk hp

/-- The region of an index of the catalog is exact in a table that keeps the invariant. -/
theorem regionExact_of_inv {ex : QueryExecutor} {table : String} {defs : List IndexDefinition}
    (hc : (ex.collection table defs).Regular) {s : Store} (hinv : (ex.collection table defs).Inv s)
    {idx : IndexDefinition} (hidx : idx ∈ defs) (hblank : ex.Blank table idx.name s) :
    ex.RegionExact table idx s := by
  have hend : Key.prefixEnd (Key.indexPrefix ex.ns ex.db table idx.name) ≠ [] :=
    (ex.collection table defs).prefixEnd_region_ne_nil idx
  obtain ⟨docs, hscan, hdocs⟩ := hc.scanAll_eq_ok hinv.readable
  have hcan : ∀ doc ∈ docs, Index.CanIndex doc [idx] := by
    intro doc hdoc
    obtain ⟨hid, hstored⟩ := (hdocs doc).mp hdoc
    have hall := hinv.canIndex hstored
    rw [← hid] at hall
    simpa [Index.CanIndex] using hall idx hidx
  rw [scanAll_collection] at hscan
  refine ⟨docs, hscan, ?_⟩
  rintro ⟨k, v⟩
  rw [Store.mem_prefixScan_iff hend]
  constructor
  · rintro ⟨hk, hp⟩
    obtain rfl := hblank k v hk hp
    have hmem : k ∈ s := Std.ExtTreeMap.isSome_getElem?_iff_mem.mp (by rw [hk]; rfl)
    obtain ⟨id, fields, hstored, values, hvalues, rfl⟩ := (hinv.entries idx hidx k hp).mp hmem
    have hdoc := (hdocs ⟨⟨table, id⟩, fields⟩).mpr ⟨rfl, hstored⟩
    refine ⟨_, hdoc, _, Index.buildIndexEntries_of_canIndex _ _ _ (hcan _ hdoc), ?_⟩
    exact Index.mem_entriesOf_iff.mpr ⟨idx, List.mem_singleton.mpr rfl, hc.btree idx hidx, values, hvalues, rfl⟩
  · rintro ⟨doc, hdoc, es, hes, hmem⟩
    obtain ⟨hid, hstored⟩ := (hdocs doc).mp hdoc
    obtain ⟨_, rfl⟩ := Index.canIndex_of_buildIndexEntries hes
    obtain ⟨idx', hidx', _, values, hvalues, heq⟩ := Index.mem_entriesOf_iff.mp hmem
    obtain rfl := List.mem_singleton.mp hidx'
    obtain ⟨rfl, rfl⟩ := Prod.mk.inj heq
    have hp : Key.indexPrefix ex.ns ex.db table idx'.name <+:
        Index.entryKey ex.ns ex.db table idx'.name values doc.id.id :=
      (Index.indexPrefix_prefix_entryKey_iff (hc.names idx' hidx) (hc.names idx' hidx) ..).mpr rfl
    have hmem := (hinv.entries idx' hidx _ hp).mpr ⟨doc.id.id, doc.fields, hstored, values, ?_, rfl⟩
    · obtain ⟨w, hw⟩ := Option.isSome_iff_exists.mp (Std.ExtTreeMap.isSome_getElem?_iff_mem.mpr hmem)
      obtain rfl := hblank _ w hw hp
      exact ⟨hw, hp⟩
    · rw [← hid]
      exact hvalues

omit [Rmp] in
/-- A definition leaves the regions of the other indexes alone. -/
theorem getElem?_define_other {ex : QueryExecutor} {name table m : String} (hname : Key.NulFree name)
    (hm : Key.NulFree m) (hne : m ≠ name) {fields : List String} {unique : Bool} {docs : List Document}
    {puts : List PutOp}
    (hputs : backfill ex.ns ex.db table (.btree name fields unique) docs [] = .ok puts) (s : Store)
    (b : Bytes) {k : Bytes} (hk : Key.indexPrefix ex.ns ex.db table m <+: k) :
    (s.writeBatch ((Key.indexCatalogKey ex.ns ex.db table name, b) :: puts) [])[k]? = s[k]? := by
  have hcatalogKey : Key.indexCatalogKey ex.ns ex.db table name ≠ k := by
    rintro rfl
    exact Key.not_indexPrefix_prefix_indexCatalogKey ex.ns ex.db table m name hk
  have hnotMem : k ∉ puts.map Prod.fst := by
    obtain ⟨hputsEq, _⟩ := backfill_eq_ok hputs
    rw [hputsEq, List.map_flatMap]
    intro hmem
    obtain ⟨doc, _, hmem⟩ := List.mem_flatMap.mp hmem
    obtain ⟨kv, hkv, rfl⟩ := List.mem_map.mp hmem
    obtain ⟨idx, hidx, _, values, _, rfl⟩ := Index.mem_entriesOf_iff.mp hkv
    obtain rfl := List.mem_singleton.mp hidx
    exact hne ((Index.indexPrefix_prefix_entryKey_iff hm hname values _).mp hk)
  rw [Store.getElem?_writeBatch, Store.lastPut, Store.lastPut_eq_none_iff.mpr hnotMem, if_neg hcatalogKey]
  simp

/-- In an exact region lie the keys of the entries of the stored documents. -/
theorem RegionExact.mem_iff {ex : QueryExecutor} {table : String} {idx : IndexDefinition} {s : Store}
    (h : ex.RegionExact table idx s) {defs : List IndexDefinition} (hc : (ex.collection table defs).Regular)
    (hinv : ∀ id f, (ex.collection table defs).Stored s id f → Index.CanIndex ⟨⟨table, id⟩, f⟩ [idx])
    (hbtree : idx.isBtree = true) {k : Bytes} (hp : Key.indexPrefix ex.ns ex.db table idx.name <+: k) :
    k ∈ s ↔ ∃ id f, (ex.collection table defs).Stored s id f ∧ (ex.collection table defs).IsEntry idx id f k := by
  have hend : Key.prefixEnd (Key.indexPrefix ex.ns ex.db table idx.name) ≠ [] :=
    (ex.collection table defs).prefixEnd_region_ne_nil idx
  obtain ⟨docs, hscan, hexact⟩ := h
  rw [← scanAll_collection ex table defs] at hscan
  obtain ⟨_, hdocs⟩ := hc.mem_of_scanAll hscan
  constructor
  · intro hmem
    obtain ⟨v, hv⟩ := Option.isSome_iff_exists.mp (Std.ExtTreeMap.isSome_getElem?_iff_mem.mpr hmem)
    obtain ⟨doc, hdoc, es, hes, hkv⟩ := (hexact (k, v)).mp ((Store.mem_prefixScan_iff hend).mpr ⟨hv, hp⟩)
    obtain ⟨hid, hstored⟩ := (hdocs doc).mp hdoc
    obtain ⟨_, rfl⟩ := Index.canIndex_of_buildIndexEntries hes
    obtain ⟨idx', hidx', _, values, hvalues, heq⟩ := Index.mem_entriesOf_iff.mp hkv
    obtain rfl := List.mem_singleton.mp hidx'
    refine ⟨doc.id.id, doc.fields, hstored, values, ?_, (Prod.mk.inj heq).1⟩
    rwa [← hid]
  · rintro ⟨id, f, hstored, values, hvalues, rfl⟩
    have hkv := (hexact (Index.entryKey ex.ns ex.db table idx.name values id, [])).mpr
      ⟨⟨⟨table, id⟩, f⟩, (hdocs _).mpr ⟨rfl, hstored⟩, _,
        Index.buildIndexEntries_of_canIndex _ _ _ (hinv id f hstored),
        Index.mem_entriesOf_iff.mpr ⟨idx, List.mem_singleton.mpr rfl, hbtree, values, hvalues, rfl⟩⟩
    have hget := ((Store.mem_prefixScan_iff hend).mp hkv).1
    exact Std.ExtTreeMap.isSome_getElem?_iff_mem.mp (Option.isSome_iff_exists.mpr ⟨[], hget⟩)

/-- A definition whose region is exact keeps the invariant of the table, with the new catalog. -/
theorem inv_define {ex : QueryExecutor} {name table : String} (hname : Key.NulFree name)
    (htable : Key.NulFree table) {fields : List String} {unique : Bool} {s : Store} {docs : List Document}
    {puts : List PutOp} {b : Bytes} {defs defs' : List IndexDefinition}
    (hdocs : (Collection.new ex.ns ex.db table).scanAll.run s = (.ok docs, s))
    (hputs : backfill ex.ns ex.db table (.btree name fields unique) docs [] = .ok puts)
    (hb : Rmp.definitionToVec (.btree name fields unique) = .ok b)
    (hc : (ex.collection table defs).Catalogued s) (hinv : (ex.collection table defs).Inv s)
    (hc' : (ex.collection table defs').Catalogued
      (s.writeBatch ((Key.indexCatalogKey ex.ns ex.db table name, b) :: puts) []))
    (hexact : ex.RegionExact table (.btree name fields unique)
      (s.writeBatch ((Key.indexCatalogKey ex.ns ex.db table name, b) :: puts) [])) :
    (ex.collection table defs').Inv
      (s.writeBatch ((Key.indexCatalogKey ex.ns ex.db table name, b) :: puts) []) := by
  obtain ⟨hputsEq, hcan, _⟩ := backfill_eq_ok hputs
  have hscanned : ∀ {id f}, (ex.collection table defs).Stored s id f → (⟨⟨table, id⟩, f⟩ : Document) ∈ docs := by
    intro id f hf
    rw [← scanAll_collection ex table defs] at hdocs
    exact ((hc.regular.mem_of_scanAll hdocs).2 _).mpr ⟨rfl, hf⟩
  have hframe : ∀ r, (s.writeBatch ((Key.indexCatalogKey ex.ns ex.db table name, b) :: puts) [])[
      Key.tablePrefix ex.ns ex.db table Key.Tag.document ++ r]? =
        s[Key.tablePrefix ex.ns ex.db table Key.Tag.document ++ r]? :=
    getElem?_define_apart htable hputs s b htable (.inr ⟨by decide, by decide⟩)
  have hcatalog : ∀ idx ∈ defs', idx = .btree name fields unique ∨ idx.name ≠ name ∧ idx ∈ defs := by
    intro idx hidx
    rcases (inCatalog_define htable hputs hb s idx).mp ((hc'.mem_iff idx).mp hidx) with heq | ⟨hne, hold⟩
    · exact .inl heq
    · exact .inr ⟨hne, (hc.mem_iff idx).mpr hold⟩
  have hother : ∀ idx ∈ defs, idx.name ≠ name → ∀ k, Key.indexPrefix ex.ns ex.db table idx.name <+: k →
      (s.writeBatch ((Key.indexCatalogKey ex.ns ex.db table name, b) :: puts) [])[k]? = s[k]? :=
    fun idx hidx hne k => getElem?_define_other hname (hc.regular.names idx hidx) hne hputs s b
  generalize s.writeBatch ((Key.indexCatalogKey ex.ns ex.db table name, b) :: puts) [] = s' at *
  have hstored : ∀ id f, (ex.collection table defs').Stored s' id f ↔ (ex.collection table defs).Stored s id f := by
    intro id f
    have hget : s'[(ex.collection table defs').docKey id]? = s[(ex.collection table defs).docKey id]? := by
      dsimp only [Collection.docKey, collection]
      rw [Key.documentKey_eq]
      exact hframe _
    rw [Collection.Stored, Collection.Stored, hget]
  have hnew : ∀ id f, (ex.collection table defs').Stored s' id f →
      Index.CanIndex ⟨⟨table, id⟩, f⟩ [.btree name fields unique] :=
    fun id f hf => hcan _ (hscanned ((hstored id f).mp hf))
  refine ⟨?_, ?_⟩
  · rintro k b hk ⟨r, rfl⟩
    obtain ⟨id, f, hkey, hf, hold⟩ := hinv.documents _ b ((hframe r).symm.trans hk) (List.prefix_append ..)
    refine ⟨id, f, hkey, hf, ?_⟩
    intro idx hidx
    rcases hcatalog idx hidx with rfl | ⟨_, hidx⟩
    · exact hnew id f ⟨b, hkey ▸ hk, hf⟩ _ (List.mem_singleton.mpr rfl)
    · exact hold idx hidx
  · intro idx hidx k hp
    rcases hcatalog idx hidx with rfl | ⟨hne, hold⟩
    · exact hexact.mem_iff hc'.regular hnew rfl hp
    · rw [← Std.ExtTreeMap.isSome_getElem?_iff_mem, hother idx hold hne k hp,
        Std.ExtTreeMap.isSome_getElem?_iff_mem, hinv.entries idx hold k hp]
      exact exists_congr fun id => exists_congr fun f => and_congr_left fun _ => (hstored id f).symm

end QueryExecutor

/-! ## An index defined twice -/

/-- `DEFINE INDEX i ON t FIELDS field` -/
def defineI (field : String) : Request := .statement ⟨"", .defineIndex "i" "t" [field] false⟩

section Runs

open QueryExecutor Concrete

theorem reachable_defineI :
    accounts.Reachable (fun _ _ => True) (accounts.after [defineI "a", createAt "x" 1]) :=
  Reachable.concat [defineI "a"] (Reachable.concat [] .empty ⟨by decide, by decide⟩ trivial rfl)
    (by decide : Key.NulFree "t") trivial rfl

/-- The entry of `a` stays in the region of the index that is now on `b`. -/
theorem define_keeps_leftover :
    ¬ ∀ s, accounts.Reachable (fun _ _ => True) s → ∀ name table fields unique q s',
      Key.NulFree name → Key.NulFree table →
      (accounts.execDefineIndex name table fields unique).run s = (.ok q, s') →
      accounts.RegionExact table (.btree name fields unique) s' := by
  intro h
  have hrun : (accounts.execDefineIndex "i" "t" ["b"] false).run (accounts.after [defineI "a", createAt "x" 1]) =
      (.ok .ok, accounts.after [defineI "a", createAt "x" 1, defineI "b"]) := rfl
  obtain ⟨docs, hscan, hexact⟩ := h _ reachable_defineI "i" "t" ["b"] false _ _ (by decide) (by decide) hrun
  have hdocs : (Collection.new "n" "d" "t").scanAll.run (accounts.after [defineI "a", createAt "x" 1, defineI "b"]) =
      (.ok [⟨⟨"t", "x"⟩, assigned [("a", .int 1)]⟩],
        accounts.after [defineI "a", createAt "x" 1, defineI "b"]) := rfl
  obtain rfl := Except.ok.inj (congrArg Prod.fst (hdocs.symm.trans hscan))
  have hregion : (accounts.after [defineI "a", createAt "x" 1, defineI "b"]).prefixScan
      (Key.indexPrefix "n" "d" "t" "i") = [(Index.entryKey "n" "d" "t" "i" [.int 1] "x", [])] := rfl
  have hbuild : Index.buildIndexEntries ⟨⟨"t", "x"⟩, assigned [("a", .int 1)]⟩ "n" "d" "t"
      [.btree "i" ["b"] false] = .ok [] := rfl
  obtain ⟨doc, hdoc, es, hes, hmem⟩ := (hexact (Index.entryKey "n" "d" "t" "i" [.int 1] "x", [])).mp
    (hregion ▸ List.mem_singleton.mpr rfl)
  obtain rfl := List.mem_singleton.mp hdoc
  obtain rfl := Except.ok.inj (hbuild.symm.trans hes)
  cases hmem

/-- Defined again on the same field, the index is exact. -/
theorem index_ddl_exact_iff_redefined :
    accounts.RegionExact "t" (.btree "i" ["a"] false)
      (accounts.after [defineI "a", createAt "x" 1, defineI "a"]) := by
  have hrun : (accounts.execDefineIndex "i" "t" ["a"] false).run (accounts.after [defineI "a", createAt "x" 1]) =
      (.ok .ok, accounts.after [defineI "a", createAt "x" 1, defineI "a"]) := rfl
  have hdocs : (Collection.new "n" "d" "t").scanAll.run (accounts.after [defineI "a", createAt "x" 1]) =
      (.ok [⟨⟨"t", "x"⟩, assigned [("a", .int 1)]⟩], accounts.after [defineI "a", createAt "x" 1]) := rfl
  have hregion : (accounts.after [defineI "a", createAt "x" 1]).scanPrefixKeys
      (Key.indexPrefix "n" "d" "t" "i") = [Index.entryKey "n" "d" "t" "i" [.int 1] "x"] := rfl
  have hbuild : Index.buildIndexEntries ⟨⟨"t", "x"⟩, assigned [("a", .int 1)]⟩ "n" "d" "t"
      [.btree "i" ["a"] false] = .ok [(Index.entryKey "n" "d" "t" "i" [.int 1] "x", [])] := rfl
  obtain ⟨hdefine, _⟩ := index_ddl_exact_iff regular_accounts reachable_defineI
    (by decide : Key.NulFree "i") (by decide : Key.NulFree "t")
  refine ((hdefine ["a"] false _ _ hrun).2 _ rfl).2.mpr ⟨_, hdocs, ?_⟩
  intro k hk
  rw [← List.mem_singleton.mp (hregion ▸ hk : k ∈ [Index.entryKey "n" "d" "t" "i" [.int 1] "x"])] at hbuild
  exact ⟨_, List.mem_singleton.mpr rfl, _, hbuild, List.mem_singleton.mpr rfl⟩

end Runs

end Dllb
