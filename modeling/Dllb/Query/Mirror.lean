import Mathlib
import Dllb.Query.Readable
import Dllb.Query.Search

/-! # A vector index mirrors its table

A loaded index holds, for each document that has a vector of its dimension, that
vector and nothing else. A write breaks this for one record, and what the handler
does next for every index of the table mends it.
-/

namespace Dllb

set_option autoImplicit false

/-- The vector of the index's dimension that a document has in a field. -/
def vectorOf (field : String) (dim : Nat) (fields : Fields) : Option (List F32) :=
  (fields[field]?.bind valueToVector).filter fun v => v.length = dim

section Steps

variable {D : Type} [LinearOrder D] [Distance F32 D] [BeamHeaps D] {α β : Type}
  {P : Instr → World → Prop} {Q : Except Error α → World → Prop} {w : World}

/-- The vector that an instruction inserts, with its index and its id. -/
def Instr.inserted : Instr → Option (String × String × List F32)
  | vectorInsert name id vector => some (name, id, vector)
  | _ => none

/-- No vector is put in the place of one of another length. -/
def World.Fits (i : Instr) (w : World) : Prop :=
  ∀ x ∈ i.inserted, ∀ e ∈ w.services.entryUnder x.1, x.2.2.length = e.dim ∨ e.index.find x.2.1 = none

instance (i : Instr) (w : World) : Decidable (World.Fits i w) :=
  inferInstanceAs (Decidable (∀ x ∈ i.inserted, ∀ e ∈ w.services.entryUnder x.1, _ ∨ _))

/-- Run alone, the program ends with `Q` if `P` holds of its instructions when it comes to them. -/
abbrev Ends (P : Instr → World → Prop) (Q : Except Error α → World → Prop) (p : SearchDb D α) (w : World) :
    Prop := Proc.Safe (.alone (World.machine D) P) Q p w

end Steps

/-! ## The invariant -/

variable [Rmp]

namespace QueryExecutor

def vectorsIn (ex : QueryExecutor) (s : Store) (table field : String) (dim : Nat) : Contents F32 :=
  fun id => (ex.stored s ⟨table, id⟩).bind (vectorOf field dim)

/-- A vector index in the catalog of a table. -/
structure VectorIndex (ex : QueryExecutor) (s : Store) (table : String) (d : IndexDefinition)
    (field : String) (dim : Nat) (metric : DistanceMetric) : Prop where
  nulFree : Key.NulFree table
  catalog : Index.InCatalog ex.ns ex.db table s d
  field : d.fields.head? = some field
  kind : ∃ name, d.kind = .vector dim name ∧ parseMetric name = .ok metric

/-- The vector indexes in the catalogs are well defined, and a name is used in one table only. -/
def VectorCatalogs (ex : QueryExecutor) (owner : String → String) (s : Store) : Prop :=
  ∀ table d dim name, Key.NulFree table → Index.InCatalog ex.ns ex.db table s d →
    d.kind = .vector dim name → owner d.name = table ∧
      ∃ field metric, d.fields.head? = some field ∧ parseMetric name = .ok metric

end QueryExecutor

/-- The entry is ready for searches, and it holds `contents` but for the ids in `X`. -/
structure VectorEntry.Mirrors (e : VectorEntry) (contents : Contents F32) (dim : Nat)
    (metric : DistanceMetric) (X : String → Prop) : Prop where
  dim : e.dim = dim
  metric : e.index.index.metric = metric
  find : ∀ id, ¬ X id → e.index.find id = contents id

def VectorEntry.Ready (e : VectorEntry) : Prop := e.loaded = true ∧ e.locked = false

/-- The vector indexes mirror their tables, but for the records that are exempt in an index. -/
structure World.MirrorsBut (ex : QueryExecutor) (owner : String → String) (X : String → RecordRef → Prop)
    (w : World) : Prop where
  readable : ex.Readable w.store
  catalogs : ex.VectorCatalogs owner w.store
  ready : ∀ name e, w.services.entryUnder name = some e → e.Ready
  mirrors : ∀ {table d field dim metric}, ex.VectorIndex w.store table d field dim metric →
    ∀ e, w.services.entryUnder d.name = some e →
      e.Mirrors (ex.vectorsIn w.store table field dim) dim metric fun id => X d.name ⟨table, id⟩

namespace QueryExecutor

theorem VectorIndex.congr {ex : QueryExecutor} {s s' : Store} {table field : String} {d : IndexDefinition}
    {dim : Nat} {metric : DistanceMetric} (h : ex.VectorIndex s table d field dim metric)
    (hcatalog : Index.InCatalog ex.ns ex.db table s' d) : ex.VectorIndex s' table d field dim metric :=
  ⟨h.nulFree, hcatalog, h.field, h.kind⟩

/-- Under one name there is one vector index. -/
theorem VectorCatalogs.unique {ex : QueryExecutor} {owner : String → String} {s : Store}
    (h : ex.VectorCatalogs owner s) {table table' : String} {d d' : IndexDefinition} {field field' : String}
    {dim dim' : Nat} {metric metric' : DistanceMetric} (hd : ex.VectorIndex s table d field dim metric)
    (hd' : ex.VectorIndex s table' d' field' dim' metric') (hname : d.name = d'.name) :
    table = table' ∧ d = d' ∧ field = field' ∧ dim = dim' ∧ metric = metric' := by
  obtain ⟨name, hkind, hmetric⟩ := hd.kind
  obtain ⟨name', hkind', hmetric'⟩ := hd'.kind
  obtain rfl : table = table' := by
    have howner := (h table d dim name hd.nulFree hd.catalog hkind).1
    have howner' := (h table' d' dim' name' hd'.nulFree hd'.catalog hkind').1
    rw [← howner, ← howner', hname]
  obtain rfl := hd.catalog.eq_of_name hd'.catalog hname
  obtain ⟨rfl, rfl⟩ := IndexKind.vector.inj (hkind.symm.trans hkind')
  exact ⟨rfl, rfl, Option.some.inj (hd.field.symm.trans hd'.field), rfl,
    Except.ok.inj (hmetric.symm.trans hmetric')⟩

end QueryExecutor

namespace World

variable {ex : QueryExecutor} {owner : String → String} {X Y : String → RecordRef → Prop} {w w' : World}

theorem MirrorsBut.mono (h : w.MirrorsBut ex owner X)
    (hXY : ∀ table d field dim metric id, ex.VectorIndex w.store table d field dim metric →
      X d.name ⟨table, id⟩ → Y d.name ⟨table, id⟩) : w.MirrorsBut ex owner Y where
  readable := h.readable
  catalogs := h.catalogs
  ready := h.ready
  mirrors hd e he :=
    have hmirrors := h.mirrors hd e he
    ⟨hmirrors.dim, hmirrors.metric, fun id hid => hmirrors.find id fun hX => hid (hXY _ _ _ _ _ id hd hX)⟩

/-- Only the entry of one name differs. -/
structure OnlyEntry (name : String) (w w' : World) : Prop where
  store : w'.store = w.store
  entries : ∀ name', name' ≠ name → w'.services.entryUnder name' = w.services.entryUnder name'

omit [Rmp] in
theorem OnlyEntry.refl (name : String) (w : World) : OnlyEntry name w w := ⟨rfl, fun _ _ => rfl⟩

omit [Rmp] in
theorem OnlyEntry.trans {name : String} {a b c : World} (hab : OnlyEntry name a b) (hbc : OnlyEntry name b c) :
    OnlyEntry name a c :=
  ⟨hbc.store.trans hab.store, fun name' hne => (hbc.entries name' hne).trans (hab.entries name' hne)⟩

end World

/-! ## Filling an index -/

namespace VectorEntry

variable {D : Type} [LinearOrder D] [Distance F32 D] [BeamHeaps D]

/-- The entry has come closer to the contents: what it held rightly it still holds, and it holds
nothing else. -/
structure Fills (contents : Contents F32) (e e' : VectorEntry) : Prop where
  dim : e'.dim = e.dim
  loaded : e'.loaded = e.loaded
  locked : e'.locked = e.locked
  metric : e'.index.index.metric = e.index.index.metric
  kept : ∀ id, e.index.find id = contents id → e'.index.find id = contents id
  part : ∀ id, e'.index.find id = none ∨ e'.index.find id = contents id

omit [Rmp] in
theorem Fills.trans {contents : Contents F32} {a b c : VectorEntry} (hab : Fills contents a b)
    (hbc : Fills contents b c) : Fills contents a c :=
  ⟨hbc.dim.trans hab.dim, hbc.loaded.trans hab.loaded, hbc.locked.trans hab.locked,
    hbc.metric.trans hab.metric, fun id h => hbc.kept id (hab.kept id h), hbc.part⟩

omit [Rmp] in
theorem insert_spec (e : VectorEntry) (id : String) (vector : List F32) (draw : Nat) :
    (e.insert D id vector draw).dim = e.dim ∧ (e.insert D id vector draw).loaded = e.loaded ∧
      (e.insert D id vector draw).locked = e.locked ∧
      (e.insert D id vector draw).index.index.metric = e.index.index.metric ∧
      (e.insert D id vector draw).index.find =
        if vector.length = e.dim then Function.update e.index.find id (some vector) else e.index.find := by
  unfold insert
  split
  · obtain ⟨hfind, hmetric⟩ := e.index.replace_spec (D := D) id vector draw
    exact ⟨rfl, rfl, rfl, hmetric, hfind⟩
  · exact ⟨rfl, rfl, rfl, rfl, rfl⟩

end VectorEntry

namespace Searching

variable {D : Type} [LinearOrder D] [Distance F32 D] [BeamHeaps D] {ex : QueryExecutor}
  {P : Instr → World → Prop} {w : World}

variable {owner : String → String} {X : String → RecordRef → Prop}

/-- The vector that the store has for a record. -/
theorem vectorsIn_eq {s : Store} {table id field : String} {dim : Nat} {doc : Option Document}
    (hdoc : doc.map Document.fields = ex.stored s ⟨table, id⟩) :
    ex.vectorsIn s table field dim id = (doc.bind (fieldVector field)).filter fun v => v.length = dim := by
  rw [QueryExecutor.vectorsIn, ← hdoc]
  cases doc <;> rfl

end Searching

end Dllb
