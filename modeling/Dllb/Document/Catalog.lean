import Mathlib
import Dllb.Document.IndexConsistency

/-! # The index catalog of a table

The definitions of a table's indexes are stored beside its documents. As long
as every entry of the catalog is the definition of a B-tree index under its
own name, loading them gives a regular collection.
-/

namespace Dllb

set_option autoImplicit false

namespace Key

/-- Keys of one database agree on the table, on the tag and on what follows. -/
theorem tablePrefix_append_inj_table {ns db table table' : String} (h : NulFree table)
    (h' : NulFree table') (t u : UInt8) (r r' : Bytes) :
    tablePrefix ns db table t ++ r = tablePrefix ns db table' u ++ r' ↔
      table = table' ∧ t = u ∧ r = r' := by
  have hsplit := segment_append_inj (s := t :: r) (t := u :: r') h h'
  simp only [tablePrefix_eq, List.append_assoc, List.cons_append, List.nil_append,
    List.append_cancel_left_eq, List.cons.injEq, true_and, hsplit, asBytes_inj]

theorem indexCatalogKey_inj {ns db table n m : String} :
    indexCatalogKey ns db table n = indexCatalogKey ns db table m ↔ n = m := by
  simp [indexCatalogKey_eq]

theorem prefixEnd_indexCatalogPrefix_ne_nil (ns db table : String) :
    prefixEnd (indexCatalogPrefix ns db table) ≠ [] := by
  rw [indexCatalogPrefix_eq]
  exact prefixEnd_tablePrefix_append_ne_nil ns db table Tag.metadata _

theorem not_indexPrefix_prefix_indexCatalogKey (ns db table n m : String) :
    ¬ indexPrefix ns db table n <+: indexCatalogKey ns db table m := by
  rw [indexPrefix_eq, indexCatalogKey_eq, indexCatalogPrefix_eq, List.append_assoc,
    tablePrefix_append_prefix_iff]
  exact fun h => absurd h.1 (by decide)

end Key

/-! ## Loading the definitions -/

namespace Index

variable [Rmp]

/-- The catalog holds the definition under its name. -/
def InCatalog (ns db table : String) (s : Store) (d : IndexDefinition) : Prop :=
  ∃ b, s[Key.indexCatalogKey ns db table d.name]? = some b ∧ Rmp.definitionFromSlice b = .ok d

/-- Every entry of the catalog is the definition of a B-tree index, under its own name. -/
def CatalogOk (ns db table : String) (s : Store) : Prop :=
  ∀ k b, s[k]? = some b → Key.indexCatalogPrefix ns db table <+: k →
    ∃ d, Rmp.definitionFromSlice b = .ok d ∧ k = Key.indexCatalogKey ns db table d.name ∧
      Key.NulFree d.name ∧ d.fields ≠ [] ∧ d.isBtree = true

/-- Every entry of the catalog is a definition, under its own name. -/
def CatalogReadable (ns db table : String) (s : Store) : Prop :=
  ∀ k b, s[k]? = some b → Key.indexCatalogPrefix ns db table <+: k →
    ∃ d, Rmp.definitionFromSlice b = .ok d ∧ k = Key.indexCatalogKey ns db table d.name

theorem CatalogOk.readable {ns db table : String} {s : Store} (h : CatalogOk ns db table s) :
    CatalogReadable ns db table s := by
  intro k b hk hp
  obtain ⟨d, hd, hkey, _⟩ := h k b hk hp
  exact ⟨d, hd, hkey⟩

theorem InCatalog.eq_of_name {ns db table : String} {s : Store} {d d' : IndexDefinition}
    (h : InCatalog ns db table s d) (h' : InCatalog ns db table s d') (hname : d.name = d'.name) :
    d = d' := by
  obtain ⟨b, hb, hd⟩ := h
  obtain ⟨b', hb', hd'⟩ := h'
  rw [hname] at hb
  obtain rfl : b = b' := Option.some.inj (hb.symm.trans hb')
  exact Except.ok.inj (hd.symm.trans hd')

theorem CatalogOk.of_inCatalog {ns db table : String} {s : Store} (h : CatalogOk ns db table s)
    {d : IndexDefinition} (hd : InCatalog ns db table s d) :
    Key.NulFree d.name ∧ d.fields ≠ [] ∧ d.isBtree = true := by
  obtain ⟨b, hb, hslice⟩ := hd
  obtain ⟨d', hslice', _, hrest⟩ := h _ b hb (List.prefix_append ..)
  obtain rfl : d = d' := Except.ok.inj (hslice.symm.trans hslice')
  exact hrest

theorem decodeDefinitions_eq_ok {ns db table : String} {kvs : List PutOp}
    (h : ∀ kv ∈ kvs, ∃ d, Rmp.definitionFromSlice kv.2 = .ok d ∧
      kv.1 = Key.indexCatalogKey ns db table d.name)
    (hkeys : kvs.Pairwise fun a b => a.1 ≠ b.1) :
    ∃ defs, decodeDefinitions kvs = .ok defs ∧
      (∀ d, d ∈ defs ↔ ∃ kv ∈ kvs, Rmp.definitionFromSlice kv.2 = .ok d) ∧
      defs.Pairwise fun d d' => d.name ≠ d'.name := by
  induction kvs with
  | nil => exact ⟨[], rfl, by simp, .nil⟩
  | cons kv kvs ih =>
    obtain ⟨⟨d, hd, hkey⟩, hrest⟩ := List.forall_mem_cons.mp h
    obtain ⟨hfresh, hkeys⟩ := List.pairwise_cons.mp hkeys
    obtain ⟨defs, hdefs, hmem, hnames⟩ := ih hrest hkeys
    refine ⟨d :: defs, ?_, ?_, List.pairwise_cons.mpr ⟨?_, hnames⟩⟩
    · obtain ⟨k, v⟩ := kv
      dsimp only at hd
      rw [decodeDefinitions, hd, hdefs]
      rfl
    · intro d'
      rw [List.mem_cons, hmem, List.exists_mem_cons_iff, hd, Except.ok.injEq, eq_comm]
    · intro d' hd' hname
      obtain ⟨kv', hkv', hslice⟩ := (hmem d').mp hd'
      obtain ⟨d'', hslice', hkey'⟩ := hrest kv' hkv'
      obtain rfl : d' = d'' := Except.ok.inj (hslice.symm.trans hslice')
      exact hfresh kv' hkv' (by rw [hkey, hkey', hname])

theorem CatalogReadable.loadIndexDefinitions_eq_ok {ns db table : String} {s : Store}
    (h : CatalogReadable ns db table s) :
    ∃ defs, (loadIndexDefinitions ns db table).run s = (.ok defs, s) ∧
      (∀ d, d ∈ defs ↔ InCatalog ns db table s d) ∧ defs.Pairwise fun d d' => d.name ≠ d'.name := by
  have hend := Key.prefixEnd_indexCatalogPrefix_ne_nil ns db table
  have hentry : ∀ kv ∈ s.prefixScan (Key.indexCatalogPrefix ns db table),
      ∃ d, Rmp.definitionFromSlice kv.2 = .ok d ∧ kv.1 = Key.indexCatalogKey ns db table d.name := by
    rintro ⟨k, b⟩ hkb
    obtain ⟨hk, hp⟩ := (Store.mem_prefixScan_iff hend).mp hkb
    exact h k b hk hp
  have hkeys : (s.prefixScan (Key.indexCatalogPrefix ns db table)).Pairwise fun a b => a.1 ≠ b.1 :=
    (s.pairwise_scan _ _).imp fun hlt => ne_of_lt hlt
  obtain ⟨defs, hdefs, hmem, hnames⟩ := decodeDefinitions_eq_ok hentry hkeys
  refine ⟨defs, ?_, ?_, hnames⟩
  · rw [loadIndexDefinitions, Db.prefixScan, Prog.run_query_bind, hdefs]
    rfl
  · intro d
    rw [hmem]
    constructor
    · rintro ⟨⟨k, b⟩, hkb, hd⟩
      obtain ⟨d', hd', hkey⟩ := hentry _ hkb
      obtain rfl : d = d' := Except.ok.inj (hd.symm.trans hd')
      dsimp only at hkey
      exact ⟨b, hkey ▸ ((Store.mem_prefixScan_iff hend).mp hkb).1, hd⟩
    · rintro ⟨b, hb, hd⟩
      exact ⟨(_, b), (Store.mem_prefixScan_iff hend).mpr ⟨hb, List.prefix_append ..⟩, hd⟩

end Index

namespace Collection

variable [Rmp]

/-- The collection with the definitions the catalog holds. -/
def Loaded (c : Collection) (s : Store) : Prop := (load c.ns c.db c.table).run s = (.ok c, s)

theorem readOnly_load (ns db table : String) : Prog.ReadOnly (load ns db table) :=
  ((Prog.readOnly_query _).bind fun _ => Prog.readOnly_lift _).bind fun _ => trivial

/-- What loading a table comes to when its catalog is in order. -/
structure Catalogued (c : Collection) (s : Store) : Prop where
  regular : c.Regular
  schema : c.schema = none
  mem_iff : ∀ idx, idx ∈ c.indexes ↔ Index.InCatalog c.ns c.db c.table s idx

theorem load_eq_ok {ns db table : String} (hns : Key.NulFree ns) (hdb : Key.NulFree db)
    (htable : Key.NulFree table) {s : Store} (h : Index.CatalogOk ns db table s) :
    ∃ defs, (Index.loadIndexDefinitions ns db table).run s = (.ok defs, s) ∧
      (load ns db table).run s = (.ok ⟨ns, db, table, none, defs⟩, s) ∧
      Catalogued ⟨ns, db, table, none, defs⟩ s := by
  obtain ⟨defs, hdefs, hmem, hnames⟩ := h.readable.loadIndexDefinitions_eq_ok
  refine ⟨defs, hdefs, ?_, ⟨hns, hdb, htable, ?_, ?_, hnames⟩, rfl, hmem⟩
  · rw [load, Prog.run_bind_ok hdefs]
    rfl
  · exact fun idx hidx => (h.of_inCatalog ((hmem idx).mp hidx)).2.2
  · exact fun idx hidx => (h.of_inCatalog ((hmem idx).mp hidx)).1

/-! ## What a write of a record leaves alone -/

omit [Rmp] in
theorem docKey_eq (c : Collection) (id : String) : c.docKey id = c.documents ++ asBytes id := rfl

omit [Rmp] in
theorem mem_entryKeys {c : Collection} {id : String} {held : Option Fields} {k : Bytes}
    (h : k ∈ c.entryKeys id held) :
    ∃ fields, held = some fields ∧ ∃ idx ∈ c.indexes, c.IsEntry idx id fields k := by
  cases held with
  | none => simp [entryKeys] at h
  | some fields =>
    obtain ⟨op, hop, rfl⟩ := List.mem_map.mp h
    obtain ⟨idx, hidx, _, values, hvalues, rfl⟩ := Index.mem_entriesOf_iff.mp hop
    exact ⟨fields, rfl, idx, hidx, values, hvalues, rfl⟩

omit [Rmp] in
theorem IsEntry.eq_append {c : Collection} {idx : IndexDefinition} {id : String} {fields : Fields}
    {k : Bytes} (h : c.IsEntry idx id fields k) :
    ∃ r, k = Key.tablePrefix c.ns c.db c.table Key.Tag.index ++ r := by
  obtain ⟨values, _, rfl⟩ := h
  exact ⟨_, Index.entryKey_eq ..⟩

/-- Other tables, and what is neither a document nor an index entry, keep what they hold. -/
theorem Replaced.frame {c : Collection} (hc : Key.NulFree c.table) {id : String}
    {old new : Option Fields} {s s' : Store} (h : c.Replaced id old new s s') {table : String}
    (htable : Key.NulFree table) {t : UInt8}
    (hapart : table ≠ c.table ∨ t ≠ Key.Tag.document ∧ t ≠ Key.Tag.index) (r : Bytes) :
    s'[Key.tablePrefix c.ns c.db table t ++ r]? = s[Key.tablePrefix c.ns c.db table t ++ r]? := by
  have hne : ∀ u r', (u = Key.Tag.document ∨ u = Key.Tag.index) →
      Key.tablePrefix c.ns c.db table t ++ r ≠ Key.tablePrefix c.ns c.db c.table u ++ r' := by
    intro u r' hu heq
    obtain ⟨rfl, rfl, _⟩ := (Key.tablePrefix_append_inj_table htable hc ..).mp heq
    rcases hapart with hapart | ⟨hd, hi⟩
    · exact hapart rfl
    · rcases hu with hu | hu
      · exact hd hu
      · exact hi hu
  have hnotMem : ∀ held, Key.tablePrefix c.ns c.db table t ++ r ∉ c.entryKeys id held := by
    intro held hmem
    obtain ⟨_, _, _, _, hentry⟩ := mem_entryKeys hmem
    obtain ⟨r', heq⟩ := hentry.eq_append
    exact hne _ r' (.inr rfl) heq
  rw [h.other _ (hne _ _ (.inl rfl)), if_neg (hnotMem new), if_neg (hnotMem old)]

end Collection

/-! ## Stores that agree on the catalog -/

namespace Index

variable [Rmp]

/-- The metadata of the table is the same in both stores. -/
def SameMetadata (ns db table : String) (s s' : Store) : Prop :=
  ∀ r, s'[Key.tablePrefix ns db table Key.Tag.metadata ++ r]? =
    s[Key.tablePrefix ns db table Key.Tag.metadata ++ r]?

omit [Rmp] in
theorem SameMetadata.getElem?_catalogKey {ns db table : String} {s s' : Store}
    (h : SameMetadata ns db table s s') (name : String) :
    s'[Key.indexCatalogKey ns db table name]? = s[Key.indexCatalogKey ns db table name]? := by
  rw [Key.indexCatalogKey_eq, Key.indexCatalogPrefix_eq, List.append_assoc]
  exact h _

theorem SameMetadata.inCatalog_iff {ns db table : String} {s s' : Store}
    (h : SameMetadata ns db table s s') (d : IndexDefinition) :
    InCatalog ns db table s' d ↔ InCatalog ns db table s d := by
  rw [InCatalog, InCatalog, h.getElem?_catalogKey]

theorem SameMetadata.catalogOk {ns db table : String} {s s' : Store}
    (h : SameMetadata ns db table s s') (hs : CatalogOk ns db table s) : CatalogOk ns db table s' := by
  intro k b hk hp
  refine hs k b ?_ hp
  obtain ⟨r, rfl⟩ := hp
  rw [Key.indexCatalogPrefix_eq, List.append_assoc] at hk ⊢
  rwa [h] at hk

end Index

namespace Collection

variable [Rmp]

theorem Replaced.sameMetadata {c : Collection} (hc : Key.NulFree c.table) {id : String}
    {old new : Option Fields} {s s' : Store} (h : c.Replaced id old new s s') {table : String}
    (htable : Key.NulFree table) : Index.SameMetadata c.ns c.db table s s' :=
  h.frame hc htable (.inr ⟨by decide, by decide⟩)

theorem Catalogued.congr {c : Collection} {s s' : Store} (h : c.Catalogued s)
    (hsame : Index.SameMetadata c.ns c.db c.table s s') : c.Catalogued s' where
  regular := h.regular
  schema := h.schema
  mem_iff := by
    intro idx
    rw [h.mem_iff, hsame.inCatalog_iff]

end Collection

end Dllb
