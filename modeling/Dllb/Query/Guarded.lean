import Mathlib
import Dllb.Document.Uniqueness
import Dllb.Query.Reachable

/-! # What a table keeps of its unique indexes

Of every table: no entry of a stored document is missing, and no two records
share a tuple of a unique index. Writes of single records and whole batches
keep this when no record they write clashes with another.
-/

namespace Dllb

set_option autoImplicit false

/-! ## The invariant of a table -/

namespace QueryExecutor

variable [Rmp]

/-- No entry of a stored document is missing, and no two records share a tuple of a unique index.
Entries that belong to no document may be left over. -/
structure Guarded (ex : QueryExecutor) (table : String) (s : Store) : Prop where
  covered : ∀ idx, Index.InCatalog ex.ns ex.db table s idx → ∀ id fields values,
    ex.stored s ⟨table, id⟩ = some fields →
      Index.collectIndexValues ⟨⟨table, id⟩, fields⟩ idx = some values →
        Index.entryKey ex.ns ex.db table idx.name values id ∈ s
  unique : ∀ idx, Index.InCatalog ex.ns ex.db table s idx → idx.unique = true →
    ∀ id id' fields fields', id ≠ id' → ex.stored s ⟨table, id⟩ = some fields →
      ex.stored s ⟨table, id'⟩ = some fields' →
        ¬ Index.SameTuple idx ⟨⟨table, id⟩, fields⟩ ⟨⟨table, id'⟩, fields'⟩

/-- What is kept of a table by a write that gives some of its records new fields: the catalog, the
other records, and the entries of these. `P id fields` says that the record is given the fields. -/
structure Gives (ex : QueryExecutor) (table : String) (P : String → Fields → Prop) (s s' : Store) :
    Prop where
  metadata : Index.SameMetadata ex.ns ex.db table s s'
  stored : ∀ id fields, ex.stored s' ⟨table, id⟩ = some fields →
    P id fields ∨ ex.stored s ⟨table, id⟩ = some fields ∧
      ∀ idx, Index.InCatalog ex.ns ex.db table s idx → ∀ values,
        Index.collectIndexValues ⟨⟨table, id⟩, fields⟩ idx = some values →
        Index.entryKey ex.ns ex.db table idx.name values id ∈ s →
          Index.entryKey ex.ns ex.db table idx.name values id ∈ s'
  entries : ∀ id fields, P id fields → ∀ idx, Index.InCatalog ex.ns ex.db table s idx → ∀ values,
    Index.collectIndexValues ⟨⟨table, id⟩, fields⟩ idx = some values →
      Index.entryKey ex.ns ex.db table idx.name values id ∈ s'

/-- Such a write keeps the invariant when no record it writes then shares a tuple with another. -/
theorem Guarded.gives {ex : QueryExecutor} {table : String} {P : String → Fields → Prop} {s s' : Store}
    (h : ex.Guarded table s) (hgives : ex.Gives table P s s')
    (hclear : ∀ idx, Index.InCatalog ex.ns ex.db table s idx → idx.unique = true →
      ∀ id fields, P id fields → ∀ id' fields', id ≠ id' → ex.stored s' ⟨table, id'⟩ = some fields' →
        ¬ Index.SameTuple idx ⟨⟨table, id⟩, fields⟩ ⟨⟨table, id'⟩, fields'⟩) :
    ex.Guarded table s' where
  covered := by
    intro idx hidx id fields values hstored hvalues
    have hidx := (hgives.metadata.inCatalog_iff idx).mp hidx
    rcases hgives.stored id fields hstored with hP | ⟨hold, hkeep⟩
    · exact hgives.entries id fields hP idx hidx values hvalues
    · exact hkeep idx hidx values hvalues (h.covered idx hidx id fields values hold hvalues)
  unique := by
    intro idx hidx hunique id id' fields fields' hne hstored hstored'
    have hidx := (hgives.metadata.inCatalog_iff idx).mp hidx
    rcases hgives.stored id fields hstored with hP | ⟨hold, _⟩
    · exact hclear idx hidx hunique id fields hP id' fields' hne hstored'
    · rcases hgives.stored id' fields' hstored' with hP' | ⟨hold', _⟩
      · exact fun hsame => hclear idx hidx hunique id' fields' hP' id fields hne.symm hstored hsame.symm
      · exact h.unique idx hidx hunique id id' fields fields' hne hold hold'

theorem stored_congr {ex : QueryExecutor} {table : String} {s s' : Store}
    (h : ∀ r, s'[Key.tablePrefix ex.ns ex.db table Key.Tag.document ++ r]? =
      s[Key.tablePrefix ex.ns ex.db table Key.Tag.document ++ r]?) (id : String) :
    ex.stored s' ⟨table, id⟩ = ex.stored s ⟨table, id⟩ := by
  rw [stored, stored, Key.documentKey_eq]
  dsimp only
  rw [h]

omit [Rmp] in
theorem mem_congr {s s' : Store} {k : Bytes} (h : s'[k]? = s[k]?) : k ∈ s' ↔ k ∈ s := by
  rw [← Std.ExtTreeMap.isSome_getElem?_iff_mem, ← Std.ExtTreeMap.isSome_getElem?_iff_mem, h]

/-- Writes elsewhere keep the invariant. -/
theorem Guarded.frame {ex : QueryExecutor} {table : String} {s s' : Store} (h : ex.Guarded table s)
    (hsame : ∀ t, t ≠ Key.Tag.graphEdge → ∀ r, s'[Key.tablePrefix ex.ns ex.db table t ++ r]? =
      s[Key.tablePrefix ex.ns ex.db table t ++ r]?) : ex.Guarded table s' := by
  have hgives : ex.Gives table (fun _ _ => False) s s' := by
    refine ⟨hsame _ (by decide), fun id fields hstored => .inr ⟨?_, ?_⟩, fun _ _ hP => hP.elim⟩
    · rwa [stored_congr (hsame _ (by decide))] at hstored
    · intro idx _ values _ hmem
      rw [Index.entryKey_eq] at hmem ⊢
      exact (mem_congr (hsame _ (by decide) _)).mpr hmem
  exact h.gives hgives fun _ _ _ _ _ hP => hP.elim

/-- The fields share no tuple of a unique index with another record of the table. -/
def NoClash (ex : QueryExecutor) (table : String) (s : Store) (id : String) (fields : Fields) : Prop :=
  ∀ idx, Index.InCatalog ex.ns ex.db table s idx → idx.unique = true →
    ∀ id' fields', id ≠ id' → ex.stored s ⟨table, id'⟩ = some fields' →
      ¬ Index.SameTuple idx ⟨⟨table, id⟩, fields⟩ ⟨⟨table, id'⟩, fields'⟩

omit [Rmp] in
/-- An entry of one record is not among those of another. -/
theorem entryKey_notMem_entryKeys {c : Collection} (hc : c.Regular) {idx : IndexDefinition}
    (hidx : idx ∈ c.indexes) {id id' : String} (hne : id' ≠ id) {fields : Fields} {values : List Value}
    (hvalues : Index.collectIndexValues ⟨c.recordId id', fields⟩ idx = some values)
    (held : Option Fields) :
    Index.entryKey c.ns c.db c.table idx.name values id' ∉ c.entryKeys id held := by
  intro hmem
  have hregion : c.region idx <+: Index.entryKey c.ns c.db c.table idx.name values id' := by
    rw [Index.entryKey, List.append_assoc]
    exact List.prefix_append ..
  obtain ⟨held', _, hentry⟩ := (hc.mem_entryKeys_iff hidx hregion id held).mp hmem
  exact hne (Collection.IsEntry.id_eq ⟨values, hvalues, rfl⟩ hentry)

theorem gives_of_replaced {ex : QueryExecutor} {table : String} {defs : List IndexDefinition}
    {id : String} {old new : Option Fields} {s s' : Store}
    (hc : (ex.collection table defs).Catalogued s)
    (h : (ex.collection table defs).Replaced id old new s s') :
    ex.Gives table (fun id' fields => id' = id ∧ new = some fields) s s' where
  metadata := h.sameMetadata hc.regular.table hc.regular.table
  stored := by
    intro id' fields hstored
    have hstored := (stored_eq_some_iff defs).mp hstored
    by_cases hid : id' = id
    · subst hid
      exact .inl ⟨rfl, (h.after.stored_iff fields).mp hstored⟩
    · refine .inr ⟨(stored_eq_some_iff defs).mpr ((h.stored_other hid fields).mp hstored), ?_⟩
      intro idx hidx values hvalues hmem
      have hidx := (hc.mem_iff idx).mpr hidx
      have hnotMem : Index.entryKey ex.ns ex.db table idx.name values id' ∉
          (ex.collection table defs).entryKeys id old :=
        entryKey_notMem_entryKeys hc.regular hidx hid hvalues old
      rw [← Std.ExtTreeMap.isSome_getElem?_iff_mem] at hmem ⊢
      have hkey := Index.entryKey_ne_documentKey ex.ns ex.db table idx.name values id' id
      rw [h.other _ hkey, if_neg hnotMem]
      split
      · rfl
      · exact hmem
  entries := by
    rintro id' fields ⟨rfl, rfl⟩ idx hidx values hvalues
    have hidx := (hc.mem_iff idx).mpr hidx
    have hmem : Index.entryKey ex.ns ex.db table idx.name values id' ∈
        (ex.collection table defs).entryKeys id' (some fields) :=
      List.mem_map.mpr ⟨_, Index.mem_entriesOf_iff.mpr
        ⟨idx, hidx, hc.regular.btree idx hidx, values, hvalues, rfl⟩, rfl⟩
    have hkey := Index.entryKey_ne_documentKey ex.ns ex.db table idx.name values id' id'
    rw [← Std.ExtTreeMap.isSome_getElem?_iff_mem, h.other _ hkey, if_pos hmem]
    rfl

theorem Guarded.replaced {ex : QueryExecutor} {table : String} {defs : List IndexDefinition}
    {id : String} {old new : Option Fields} {s s' : Store} (h : ex.Guarded table s)
    (hc : (ex.collection table defs).Catalogued s)
    (hrep : (ex.collection table defs).Replaced id old new s s')
    (hclear : ∀ fields, new = some fields → ex.NoClash table s id fields) : ex.Guarded table s' := by
  refine h.gives (gives_of_replaced hc hrep) ?_
  rintro idx hidx hunique id' fields ⟨rfl, hnew⟩ id'' fields'' hne hstored
  have hstored := (hrep.stored_other hne.symm fields'').mp ((stored_eq_some_iff defs).mp hstored)
  exact hclear fields hnew idx hidx hunique id'' fields'' hne ((stored_eq_some_iff defs).mpr hstored)

/-! ## Batches -/

/-- What the statements of a batch leave in a record: the last of those that name it decides. -/
def lastGiven (ex : QueryExecutor) (s : Store) : List Issued → RecordRef → Option Fields
  | [], _ => none
  | i :: stmts, r =>
    (ex.lastGiven s stmts r).or (if recordOf i = some r then some (ex.given s i) else none)

theorem lastGiven_eq_none_iff {ex : QueryExecutor} {s : Store} {stmts : List Issued} {r : RecordRef} :
    ex.lastGiven s stmts r = none ↔ ∀ i ∈ stmts, recordOf i ≠ some r := by
  induction stmts with
  | nil => simp [lastGiven]
  | cons i stmts ih =>
    rw [lastGiven, Option.or_eq_none_iff, ih, List.forall_mem_cons, and_comm]
    simp

/-- The definitions every statement of the batch works with are those of the catalog. -/
theorem catalogued_of_load {ex : QueryExecutor} (hex : ex.Regular) {s : Store} (hs : ex.CatalogsOk s)
    {table : String} (htable : Key.NulFree table) {defs : List IndexDefinition}
    (hload : (Index.loadIndexDefinitions ex.ns ex.db table).run s = (.ok defs, s)) :
    (ex.collection table defs).Catalogued s := by
  obtain ⟨defs', hload', _, hc⟩ := hs.load hex htable
  rw [hload] at hload'
  cases hload'
  exact hc

/-- Only the statement that names a record puts its document. -/
theorem Adds.document_notMem {ex : QueryExecutor} {s : Store} {i : Issued} {a : BatchState}
    (h : Adds ex s i a) (hnamed : i.stmt.Named) {r : RecordRef} (hr : Key.NulFree r.table)
    (hne : recordOf i ≠ some r) :
    Key.documentKey ex.ns ex.db r.table r.id ∉ a.puts.map Prod.fst := by
  intro hmem
  cases h with
  | @record ref defs names load held writes created updated =>
    have href := nulFree_of_recordOf hnamed names
    have hentry : ∀ fields, Key.documentKey ex.ns ex.db r.table r.id ∉
        (ex.collection ref.table defs).entryKeys ref.id fields := by
      intro fields hmem
      obtain ⟨_, _, _, _, hisEntry⟩ := Collection.mem_entryKeys hmem
      obtain ⟨rest, heq⟩ := hisEntry.eq_append
      rw [Key.documentKey_eq] at heq
      exact absurd ((Key.tablePrefix_append_inj_table hr href ..).mp heq).2.1 (by decide)
    rcases writes.mem_keys (.inl hmem) with heq | hmem | hmem
    · have heq : Key.documentKey ex.ns ex.db r.table r.id =
          Key.documentKey ex.ns ex.db ref.table ref.id := heq
      rw [Key.documentKey_eq, Key.documentKey_eq, Key.tablePrefix_append_inj_table hr href, asBytes_inj] at heq
      obtain ⟨htable, _, hid⟩ := heq
      refine hne (names.trans ?_)
      obtain ⟨rt, ri⟩ := r
      obtain ⟨ft, fi⟩ := ref
      dsimp only at htable hid
      rw [htable, hid]
    · exact hentry _ hmem
    · exact hentry _ hmem
  | relate stmt puts deletes created updated =>
    obtain ⟨table, t, rest, htable, heq, howns⟩ :=
      (Adds.relate stmt puts deletes created updated : Adds ex s i a).owns hnamed (.inl hmem)
    rw [Key.documentKey_eq] at heq
    obtain ⟨_, rfl, _⟩ := (Key.tablePrefix_append_inj_table hr htable ..).mp heq
    rcases howns with ⟨id, hrecord, _⟩ | htag
    · simp [recordOf, stmt] at hrecord
    · exact absurd htag (by decide)

theorem Adds.lastPut_document {ex : QueryExecutor} {s : Store} {i : Issued} {a : BatchState}
    (h : Adds ex s i a) {r : RecordRef} (hrecord : recordOf i = some r) :
    ∃ b, Rmp.toVec (ex.given s i) = .ok b ∧
      Store.lastPut a.puts (Key.documentKey ex.ns ex.db r.table r.id) = some b := by
  cases h with
  | @record ref defs names load held writes created updated =>
    obtain rfl : r = ref := Option.some.inj (hrecord.symm.trans names)
    obtain ⟨b, hb, hputs⟩ := writes.puts
    refine ⟨b, hb, ?_⟩
    generalize hc : ex.collection r.table defs = c at hputs
    have hkey : Key.documentKey ex.ns ex.db r.table r.id = c.docKey r.id := by
      rw [← hc]
      rfl
    rw [hputs, hkey, Store.lastPut, Collection.lastPut_entriesOf,
      if_neg (c.docKey_notMem_entryKeys r.id r.id _), if_pos rfl]
    rfl
  | relate stmt puts deletes created updated => simp [recordOf, stmt] at hrecord

theorem Collects.lastPut_document {ex : QueryExecutor} {s : Store} {stmts : List Issued} {st : BatchState}
    (h : Collects ex s stmts st) (hnamed : ∀ i ∈ stmts, i.stmt.Named) {r : RecordRef}
    (hr : Key.NulFree r.table) :
    (ex.lastGiven s stmts r = none ∧
        Store.lastPut st.puts (Key.documentKey ex.ns ex.db r.table r.id) = none) ∨
      ∃ fields b, ex.lastGiven s stmts r = some fields ∧ Rmp.toVec fields = .ok b ∧
        Store.lastPut st.puts (Key.documentKey ex.ns ex.db r.table r.id) = some b := by
  induction h with
  | nil => exact .inl ⟨rfl, rfl⟩
  | @cons i stmts a rest st head tail follows ih =>
    obtain ⟨hi, hrest⟩ := List.forall_mem_cons.mp hnamed
    rw [follows.puts, Store.lastPut_append, lastGiven]
    rcases ih hrest with ⟨hnone, hput⟩ | ⟨fields, b, hsome, hb, hput⟩
    · rw [hnone, hput]
      by_cases hrecord : recordOf i = some r
      · obtain ⟨b, hb, hput⟩ := (adds_of_alone head).lastPut_document hrecord
        rw [if_pos hrecord, hput]
        exact .inr ⟨_, b, rfl, hb, rfl⟩
      · rw [if_neg hrecord, Store.lastPut_eq_none_iff.mpr
          ((adds_of_alone head).document_notMem hi hr hrecord)]
        exact .inl ⟨rfl, rfl⟩
    · rw [hsome, hput]
      exact .inr ⟨fields, b, rfl, hb, rfl⟩

/-- What a batch deletes are entries of records it names. -/
theorem Collects.mem_deletes {ex : QueryExecutor} {s : Store} {stmts : List Issued} {st : BatchState}
    (h : Collects ex s stmts st) {k : Bytes} (hk : k ∈ st.deletes) :
    ∃ i ∈ stmts, ∃ r defs, recordOf i = some r ∧
      (Index.loadIndexDefinitions ex.ns ex.db r.table).run s = (.ok defs, s) ∧
      k ∈ (ex.collection r.table defs).entryKeys r.id (ex.taken s i) := by
  induction h with
  | nil => cases hk
  | @cons i stmts a rest st head tail follows ih =>
    rw [follows.deletes, List.mem_append] at hk
    rcases hk with hk | hk
    · cases adds_of_alone head with
      | @record ref defs names load held writes created updated =>
        rw [writes.deletes] at hk
        exact ⟨i, List.mem_cons_self, ref, defs, names, load, hk⟩
      | relate stmt puts deletes created updated =>
        rw [deletes] at hk
        cases hk
    · obtain ⟨j, hj, hrest⟩ := ih hk
      exact ⟨j, List.mem_cons_of_mem _ hj, hrest⟩

/-- The entries of what a record is given last are among the puts. -/
theorem Collects.entries {ex : QueryExecutor} (hex : ex.Regular) {s : Store} (hs : ex.CatalogsOk s)
    {stmts : List Issued} {st : BatchState} (h : Collects ex s stmts st)
    (hnamed : ∀ i ∈ stmts, i.stmt.Named) {r : RecordRef} {fields : Fields}
    (hlast : ex.lastGiven s stmts r = some fields) {idx : IndexDefinition}
    (hidx : Index.InCatalog ex.ns ex.db r.table s idx) {values : List Value}
    (hvalues : Index.collectIndexValues ⟨⟨r.table, r.id⟩, fields⟩ idx = some values) :
    Index.entryKey ex.ns ex.db r.table idx.name values r.id ∈ st.puts.map Prod.fst := by
  induction h with
  | nil => cases hlast
  | @cons i stmts a rest st head tail follows ih =>
    obtain ⟨hi, hrest⟩ := List.forall_mem_cons.mp hnamed
    rw [follows.puts, List.map_append, List.mem_append]
    rw [lastGiven] at hlast
    rcases Option.or_eq_some_iff.mp hlast with hlast | ⟨_, hlast⟩
    · exact .inr (ih hrest hlast)
    · split at hlast
      · rename_i hrecord
        cases hlast
        left
        cases adds_of_alone head with
        | @record ref defs names load held writes created updated =>
          obtain rfl : r = ref := Option.some.inj (hrecord.symm.trans names)
          have hc := catalogued_of_load hex hs (nulFree_of_recordOf hi names) load
          obtain ⟨b, _, hputs⟩ := writes.puts
          have hidx := (hc.mem_iff idx).mpr hidx
          rw [hputs]
          exact List.mem_cons_of_mem _ (List.mem_map.mpr ⟨_, Index.mem_entriesOf_iff.mpr
            ⟨idx, hidx, hc.regular.btree idx hidx, values, hvalues, rfl⟩, rfl⟩)
        | relate stmt puts deletes created updated => simp [recordOf, stmt] at hrecord
      · cases hlast

theorem Collects.document_notMem_deletes {ex : QueryExecutor} {s : Store} {stmts : List Issued}
    {st : BatchState} (h : Collects ex s stmts st) (hnamed : ∀ i ∈ stmts, i.stmt.Named) {r : RecordRef}
    (hr : Key.NulFree r.table) : Key.documentKey ex.ns ex.db r.table r.id ∉ st.deletes := by
  intro hmem
  obtain ⟨i, hi, ref, defs, hrecord, _, hentry⟩ := h.mem_deletes hmem
  obtain ⟨_, _, _, _, hisEntry⟩ := Collection.mem_entryKeys hentry
  obtain ⟨rest, heq⟩ := hisEntry.eq_append
  rw [Key.documentKey_eq] at heq
  have href := nulFree_of_recordOf (hnamed i hi) hrecord
  exact absurd ((Key.tablePrefix_append_inj_table hr href ..).mp heq).2.1 (by decide)

theorem Collects.stored {ex : QueryExecutor} {s : Store} {stmts : List Issued} {st : BatchState}
    (h : Collects ex s stmts st) (hnamed : ∀ i ∈ stmts, i.stmt.Named) {r : RecordRef}
    (hr : Key.NulFree r.table) :
    ex.stored (s.writeBatch st.puts st.deletes) r = (ex.lastGiven s stmts r).or (ex.stored s r) := by
  have hnotMem := h.document_notMem_deletes hnamed hr
  rw [QueryExecutor.stored, QueryExecutor.stored, Store.getElem?_writeBatch, if_neg hnotMem]
  rcases h.lastPut_document hnamed hr with ⟨hnone, hput⟩ | ⟨fields, b, hsome, hb, hput⟩
  · rw [hnone, hput]
    rfl
  · rw [hsome, hput]
    simp [Rmp.fromSlice_toVec hb, Except.toOption]

theorem Collects.gives {ex : QueryExecutor} (hex : ex.Regular) {s : Store} (hs : ex.CatalogsOk s)
    {stmts : List Issued} {st : BatchState} (h : Collects ex s stmts st)
    (hnamed : ∀ i ∈ stmts, i.stmt.Named) {table : String} (htable : Key.NulFree table) :
    ex.Gives table (fun id fields => ex.lastGiven s stmts ⟨table, id⟩ = some fields) s
      (s.writeBatch st.puts st.deletes) where
  metadata := h.sameMetadata hnamed htable s
  stored := by
    intro id fields hstored
    rw [h.stored hnamed htable] at hstored
    rcases Option.or_eq_some_iff.mp hstored with hlast | ⟨hnone, hold⟩
    · exact .inl hlast
    · refine .inr ⟨hold, fun idx hidx values hvalues hmem => ?_⟩
      rw [Store.mem_writeBatch_iff]
      refine .inr ⟨fun hdel => ?_, hmem⟩
      obtain ⟨i, hi, ref, defs, hrecord, hload, hentry⟩ := h.mem_deletes hdel
      have href := nulFree_of_recordOf (hnamed i hi) hrecord
      obtain ⟨_, _, _, _, hisEntry⟩ := Collection.mem_entryKeys hentry
      obtain ⟨rest, heq⟩ := hisEntry.eq_append
      rw [Index.entryKey_eq] at heq
      obtain ⟨rfl, _⟩ := (Key.tablePrefix_append_inj_table htable href ..).mp heq
      have hc := catalogued_of_load hex hs href hload
      have hid : id ≠ ref.id := by
        rintro rfl
        exact lastGiven_eq_none_iff.mp hnone i hi hrecord
      exact entryKey_notMem_entryKeys hc.regular ((hc.mem_iff idx).mpr hidx) hid hvalues _ hentry
  entries := by
    intro id fields hlast idx hidx values hvalues
    rw [Store.mem_writeBatch_iff]
    exact .inl (h.entries hex hs hnamed hlast hidx hvalues)

end QueryExecutor

end Dllb
