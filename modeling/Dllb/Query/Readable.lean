import Mathlib
import Dllb.Query.IndexDdl
import Dllb.Query.Legible

/-! # Stores whose documents and catalogs can be read

What the statements do to documents and catalogs, whatever kinds of index the
catalogs hold: they change the records that they name, and no catalog but through
index DDL. What they write can be read back.
-/

namespace Dllb

set_option autoImplicit false

variable [Rmp]

theorem Collection.DocumentsReadable.replaced {c : Collection} {id : String} {old new : Option Fields}
    {s s' : Store} (h : c.DocumentsReadable s) (hrep : c.Replaced id old new s s') :
    c.DocumentsReadable s' := by
  intro k b hk hp
  by_cases hkey : k = c.docKey id
  · have hafter := hrep.after
    rw [hkey] at hk
    cases new with
    | none =>
      rw [HoldsAt, hk] at hafter
      cases hafter
    | some fields =>
      obtain ⟨b', hb', hfields⟩ := hafter
      obtain rfl : b = b' := Option.some.inj (hk.symm.trans hb')
      exact ⟨id, fields, hkey, hfields⟩
  · have hnot : ∀ held, k ∉ c.entryKeys id held := by
      intro held hmem
      obtain ⟨_, _, _, _, hentry⟩ := mem_entryKeys hmem
      obtain ⟨rest, heq⟩ := hentry.eq_append
      obtain ⟨r, rfl⟩ := hp
      exact absurd ((Key.tablePrefix_append_inj ..).mp heq).1 (by decide)
    rw [hrep.other _ hkey, if_neg (hnot new), if_neg (hnot old)] at hk
    exact h k b hk hp

namespace QueryExecutor

/-- Every table has a catalog and documents that can be read. -/
structure Readable (ex : QueryExecutor) (s : Store) : Prop where
  catalog : ∀ table, Key.NulFree table → Index.CatalogReadable ex.ns ex.db table s
  documents : ∀ table, Key.NulFree table → (ex.collection table []).DocumentsReadable s

/-- The definitions that the catalog of a table holds. -/
structure Catalog (ex : QueryExecutor) (table : String) (s : Store) (defs : List IndexDefinition) : Prop where
  mem_iff : ∀ d, d ∈ defs ↔ Index.InCatalog ex.ns ex.db table s d
  distinct : defs.Pairwise fun d d' => d.name ≠ d'.name

theorem Readable.load {ex : QueryExecutor} {s : Store} (h : ex.Readable s) {table : String}
    (htable : Key.NulFree table) :
    ∃ defs, (Index.loadIndexDefinitions ex.ns ex.db table).run s = (.ok defs, s) ∧
      (Collection.load ex.ns ex.db table).run s = (.ok (ex.collection table defs), s) ∧
      ex.Catalog table s defs := by
  obtain ⟨defs, hdefs, hmem, hnames⟩ := (h.catalog table htable).loadIndexDefinitions_eq_ok
  refine ⟨defs, hdefs, ?_, hmem, hnames⟩
  rw [Collection.load, Prog.run_bind_ok hdefs]
  rfl

theorem Readable.get {ex : QueryExecutor} {s : Store} (h : ex.Readable s) {table : String}
    (htable : Key.NulFree table) (defs : List IndexDefinition) (id : String) :
    ((ex.collection table defs).get id).run s =
      (.ok ((ex.stored s ⟨table, id⟩).map fun fields => ⟨⟨table, id⟩, fields⟩), s) := by
  have hdocKey : (ex.collection table defs).docKey id = (ex.collection table []).docKey id := rfl
  rcases hrun : ((ex.collection table defs).get id).run s with ⟨r, s'⟩
  obtain ⟨rfl, ⟨hnone, rfl⟩ | ⟨fields, hstored, rfl⟩ | ⟨b, e, hb, hslice, rfl⟩⟩ :=
    Collection.run_get_cases hrun
  · have hstored : ex.stored s' ⟨table, id⟩ = none := stored_eq_none_of_absent hnone
    simp only [hstored, Option.map_none]
  · simp only [(stored_eq_some_iff defs).mpr hstored, Option.map_some]
    rfl
  · rw [hdocKey] at hb
    obtain ⟨id', fields, _, hfields⟩ := h.documents table htable _ b hb ⟨_, (Key.documentKey_eq ..).symm⟩
    rw [hslice] at hfields
    cases hfields

theorem Readable.scanAll {ex : QueryExecutor} (hex : ex.Regular) {s : Store} (h : ex.Readable s)
    {table : String} (htable : Key.NulFree table) :
    ∃ docs, (Collection.new ex.ns ex.db table).scanAll.run s = (.ok docs, s) ∧
      ∀ doc, doc ∈ docs ↔ doc.id.table = table ∧ ex.stored s ⟨table, doc.id.id⟩ = some doc.fields := by
  have hregular : (Collection.new ex.ns ex.db table).Regular :=
    ⟨hex.ns, hex.db, htable, by simp [Collection.new], by simp [Collection.new], .nil⟩
  obtain ⟨docs, hdocs, hmem⟩ := hregular.scanAll_eq_ok (h.documents table htable)
  refine ⟨docs, hdocs, fun doc => ?_⟩
  rw [hmem, stored_eq_some_iff []]
  refine and_congr_left fun _ => ?_
  obtain ⟨⟨table', id⟩, fields⟩ := doc
  simp [Collection.recordId, Collection.new]

/-- From `s` to `s'` no documents change but those of the records in `X`, and no catalog changes. -/
structure WritesIn (ex : QueryExecutor) (X : RecordRef → Prop) (s s' : Store) : Prop where
  metadata : ∀ table, Key.NulFree table → Index.SameMetadata ex.ns ex.db table s s'
  stored : ∀ r : RecordRef, Key.NulFree r.table → ¬ X r → ex.stored s' r = ex.stored s r
  readable : ex.Readable s → ex.Readable s'

theorem WritesIn.refl (ex : QueryExecutor) (X : RecordRef → Prop) (s : Store) : ex.WritesIn X s s :=
  ⟨fun _ _ _ => rfl, fun _ _ _ => rfl, fun h => h⟩

theorem WritesIn.mono {ex : QueryExecutor} {X Y : RecordRef → Prop} {s s' : Store} (h : ex.WritesIn X s s')
    (hXY : ∀ r, X r → Y r) : ex.WritesIn Y s s' :=
  ⟨h.metadata, fun r hr hY => h.stored r hr fun hX => hY (hXY r hX), h.readable⟩

theorem Catalog.congr {ex : QueryExecutor} {table : String} {s s' : Store} {defs : List IndexDefinition}
    (h : ex.Catalog table s defs) (hsame : Index.SameMetadata ex.ns ex.db table s s') :
    ex.Catalog table s' defs where
  mem_iff d := (h.mem_iff d).trans (hsame.inCatalog_iff d).symm
  distinct := h.distinct

end QueryExecutor

end Dllb
