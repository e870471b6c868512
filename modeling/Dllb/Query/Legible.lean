import Mathlib
import Dllb.Query.IndexDdl
import Dllb.Query.Unique

/-! # Stored documents can be read and indexed

What a request can do to the store is said once. In every store that requests
leave, the documents of a table can be read back, and every index of the table
can hold their tuples.
-/

namespace Dllb

set_option autoImplicit false

namespace QueryExecutor

variable [Rmp]

/-! ## What a request does to the store -/

/-- The ways in which a request changes a store. -/
inductive Effect (ex : QueryExecutor) (s : Store) : Store → Prop
  | unchanged : Effect ex s s
  | operations {stmts : List Issued} {st : BatchState} (named : ∀ i ∈ stmts, i.stmt.Named)
      (collects : Collects ex s stmts st) : Effect ex s (s.writeBatch st.puts st.deletes)
  | records {table : String} {defs : List IndexDefinition} {s' : Store}
      (catalogued : (ex.collection table defs).Catalogued s)
      (steps : (ex.collection table defs).Steps (fun _ _ _ => True) s s') : Effect ex s s'
  | define {name table : String} {fields : List String} {unique : Bool} {docs : List Document}
      {puts : List PutOp} {b : Bytes} (hname : Key.NulFree name) (htable : Key.NulFree table)
      (hfields : fields ≠ [])
      (hdocs : (Collection.new ex.ns ex.db table).scanAll.run s = (.ok docs, s))
      (hputs : backfill ex.ns ex.db table (.btree name fields unique) docs [] = .ok puts)
      (hb : Rmp.definitionToVec (.btree name fields unique) = .ok b) :
      Effect ex s (s.writeBatch ((Key.indexCatalogKey ex.ns ex.db table name, b) :: puts) [])
  | remove {name table : String} (hname : Key.NulFree name) (htable : Key.NulFree table) :
      Effect ex s (s.writeBatch [] (s.scanPrefixKeys (Key.indexPrefix ex.ns ex.db table name) ++
        [Key.indexCatalogKey ex.ns ex.db table name]))

section

variable [CodeIntel]

theorem effect_statement {ex : QueryExecutor} (hex : ex.Regular) {s : Store} (hs : ex.CatalogsOk s)
    {i : Issued} (hnamed : i.stmt.Named) {p : Db QueryResult} (hp : ex.execute i = some p) :
    ex.Effect s (p.run s).2 := by
  have hops : ∀ {q s'}, (∃ a, ex.alone s i = .ok a ∧ ex.Admitted s i ∧
      s' = s.writeBatch a.puts a.deletes ∧ q = ex.answer s i) → ex.Effect s s' := by
    rintro q s' ⟨a, ha, _, rfl, _⟩
    exact .operations (List.forall_mem_singleton.mpr hnamed) (collects_singleton ha)
  obtain ⟨uuid, stmt⟩ := i
  rcases hrun : p.run s with ⟨r, s'⟩
  cases stmt with
  | create table id fields onConflict =>
    cases hp
    cases r with
    | error e =>
      rw [(ex.writesLast_execCreate uuid table id fields onConflict).run_error hrun]
      exact .unchanged
    | ok q => exact hops ((execCreate_eq_ok_iff rfl).mp hrun)
  | relate src edgeType dst fields =>
    cases hp
    cases r with
    | error e =>
      rw [(ex.writesLast_execRelate src edgeType dst fields).run_error hrun]
      exact .unchanged
    | ok q => exact hops ((execRelate_eq_ok_iff rfl).mp hrun)
  | update target fields filter =>
    cases hp
    have htable : Key.NulFree (targetTable target) := by cases target <;> exact hnamed
    obtain ⟨defs, _, hload, hc⟩ := hs.load hex htable
    exact .records hc ((execUpdate_steps hload hrun).mono fun _ _ _ _ => trivial)
  | delete table id =>
    cases hp
    obtain ⟨defs, _, hload, hc⟩ := hs.load hex hnamed
    exact .records hc ((execDelete_steps hload hrun).mono fun _ _ _ _ => trivial)
  | deleteWhere table filter =>
    cases hp
    obtain ⟨defs, _, hload, hc⟩ := hs.load hex hnamed
    exact .records hc ((execDeleteWhere_steps hload hrun).mono fun _ _ _ _ => trivial)
  | defineIndex name table fields unique =>
    cases hp
    rcases run_execDefineIndex hrun with ⟨_, _, rfl⟩ | ⟨_, hne, docs, puts, b, hdocs, hputs, hb, rfl⟩
    · exact .unchanged
    · exact .define hnamed.1 hnamed.2 hne hdocs hputs hb
  | removeIndex name table =>
    cases hp
    rcases run_execRemoveIndex hrun with ⟨_, _, rfl, _⟩ | ⟨_, rfl⟩
    · exact .unchanged
    · exact .remove hnamed.1 hnamed.2
  | _ => cases hp

theorem effect_request {ex : QueryExecutor} (hex : ex.Regular) {s : Store} (hs : ex.CatalogsOk s)
    {r : Request} (hnamed : r.Named) {p : Db QueryResult} (hp : ex.prog r = some p) :
    ex.Effect s (p.run s).2 := by
  cases r with
  | statement i => exact effect_statement hex hs hnamed hp
  | batch stmts =>
    cases hp
    rcases hrun : (ex.executeBatch stmts).run s with ⟨_ | q, s'⟩
    · rw [run_executeBatch_error hrun]
      exact .unchanged
    · obtain ⟨st, hst, rfl, _⟩ := run_executeBatch hrun
      exact .operations hnamed hst

end

/-! ## The invariant -/

/-- The document keys of the table are those of records, whose fields can be read, and every index
of the catalog can hold their tuples. -/
structure Legible (ex : QueryExecutor) (table : String) (s : Store) : Prop where
  readable : ∀ r b, s[Key.tablePrefix ex.ns ex.db table Key.Tag.document ++ r]? = some b →
    ∃ id fields, r = asBytes id ∧ Rmp.fromSlice b = .ok fields
  indexable : ∀ idx, Index.InCatalog ex.ns ex.db table s idx → ∀ id fields,
    ex.stored s ⟨table, id⟩ = some fields → Index.CanIndex ⟨⟨table, id⟩, fields⟩ [idx]

theorem Legible.frame {ex : QueryExecutor} {table : String} {s s' : Store} (h : ex.Legible table s)
    (hdocuments : ∀ r, s'[Key.tablePrefix ex.ns ex.db table Key.Tag.document ++ r]? =
      s[Key.tablePrefix ex.ns ex.db table Key.Tag.document ++ r]?)
    (hcatalog : ∀ idx, Index.InCatalog ex.ns ex.db table s' idx → Index.InCatalog ex.ns ex.db table s idx) :
    ex.Legible table s' where
  readable r b hb := h.readable r b (hdocuments r ▸ hb)
  indexable idx hidx id fields hstored :=
    h.indexable idx (hcatalog idx hidx) id fields (stored_congr hdocuments id ▸ hstored)

omit [Rmp] in
theorem canIndex_singleton {doc : Document} {defs : List IndexDefinition} (h : Index.CanIndex doc defs)
    {idx : IndexDefinition} (hidx : idx ∈ defs) : Index.CanIndex doc [idx] :=
  List.forall_mem_singleton.mpr (h idx hidx)

theorem Legible.replaced {ex : QueryExecutor} {table : String} {defs : List IndexDefinition} {id : String}
    {old new : Option Fields} {s s' : Store} (h : ex.Legible table s)
    (hc : (ex.collection table defs).Catalogued s)
    (hrep : (ex.collection table defs).Replaced id old new s s') : ex.Legible table s' where
  readable := by
    intro r b hb
    by_cases hkey : Key.tablePrefix ex.ns ex.db table Key.Tag.document ++ r = (ex.collection table defs).docKey id
    · have hr : r = asBytes id := List.append_cancel_left hkey
      have hafter := hrep.after
      rw [hkey] at hb
      cases new with
      | none =>
        rw [Collection.HoldsAt, hb] at hafter
        cases hafter
      | some fields =>
        obtain ⟨b', hb', hfields⟩ := hafter
        obtain rfl : b = b' := Option.some.inj (hb.symm.trans hb')
        exact ⟨id, fields, hr, hfields⟩
    · have hnot : ∀ held, Key.tablePrefix ex.ns ex.db table Key.Tag.document ++ r ∉
          (ex.collection table defs).entryKeys id held := by
        intro held hmem
        obtain ⟨_, _, _, _, hentry⟩ := Collection.mem_entryKeys hmem
        obtain ⟨rest, heq⟩ := hentry.eq_append
        exact absurd ((Key.tablePrefix_append_inj ..).mp heq).1 (by decide)
      rw [hrep.other _ hkey, if_neg (hnot new), if_neg (hnot old)] at hb
      exact h.readable r b hb
  indexable := by
    intro idx hidx id' fields hstored
    have hgives := gives_of_replaced hc hrep
    have hidx := (hgives.metadata.inCatalog_iff idx).mp hidx
    rcases hgives.stored id' fields hstored with ⟨rfl, hnew⟩ | ⟨hold, _⟩
    · exact canIndex_singleton (hrep.canIndex fields hnew) ((hc.mem_iff idx).mpr hidx)
    · exact h.indexable idx hidx id' fields hold

/-- Every table of the database is legible. -/
def AllLegible (ex : QueryExecutor) (s : Store) : Prop := ∀ table, Key.NulFree table → ex.Legible table s

theorem AllLegible.steps {ex : QueryExecutor} {s s' : Store} (h : ex.AllLegible s) {table : String}
    {defs : List IndexDefinition} (hc : (ex.collection table defs).Catalogued s)
    {Q : Store → String → Option Fields → Prop} (hsteps : (ex.collection table defs).Steps Q s s') :
    ex.AllLegible s' := by
  induction hsteps with
  | refl s => exact h
  | @step s s₁ s₂ id old new hrep meets _ ih =>
    have htable := hc.regular.table
    refine ih ?_ (hc.congr (hrep.sameMetadata htable htable))
    intro table' htable'
    by_cases heq : table' = table
    · subst heq
      exact (h table' htable').replaced hc hrep
    · refine (h table' htable').frame (fun r => hrep.frame htable htable' (.inl heq) r) fun idx hidx => ?_
      exact ((hrep.sameMetadata htable htable').inCatalog_iff idx).mp hidx

/-- What a batch gives a record can be indexed. -/
theorem Collects.canIndex {ex : QueryExecutor} (hex : ex.Regular) {s : Store} (hs : ex.CatalogsOk s)
    {stmts : List Issued} {st : BatchState} (h : Collects ex s stmts st)
    (hnamed : ∀ i ∈ stmts, i.stmt.Named) {r : RecordRef} {fields : Fields}
    (hlast : ex.lastGiven s stmts r = some fields) {idx : IndexDefinition}
    (hidx : Index.InCatalog ex.ns ex.db r.table s idx) : Index.CanIndex ⟨⟨r.table, r.id⟩, fields⟩ [idx] := by
  induction h with
  | nil => cases hlast
  | @cons i stmts a rest st head tail follows ih =>
    obtain ⟨hi, hrest⟩ := List.forall_mem_cons.mp hnamed
    rw [lastGiven] at hlast
    rcases Option.or_eq_some_iff.mp hlast with hlast | ⟨_, hlast⟩
    · exact ih hrest hlast
    · obtain ⟨hrecord, hgiven⟩ := Option.ite_none_right_eq_some.mp hlast
      cases hgiven
      cases adds_of_alone head with
      | @record ref defs names load held writes created updated =>
        obtain rfl : r = ref := Option.some.inj (hrecord.symm.trans names)
        have hc := catalogued_of_load hex hs (nulFree_of_recordOf hi names) load
        exact canIndex_singleton writes.canIndex ((hc.mem_iff idx).mpr hidx)
      | relate stmt puts deletes created updated => simp [recordOf, stmt] at hrecord

/-- The document keys a batch puts are those of records. -/
theorem Collects.document_of_mem {ex : QueryExecutor} {s : Store} {stmts : List Issued} {st : BatchState}
    (h : Collects ex s stmts st) (hnamed : ∀ i ∈ stmts, i.stmt.Named) {table : String}
    (htable : Key.NulFree table) {r : Bytes}
    (hr : Key.tablePrefix ex.ns ex.db table Key.Tag.document ++ r ∈ st.puts.map Prod.fst) :
    ∃ id, r = asBytes id := by
  induction h with
  | nil => cases hr
  | @cons i stmts a rest st head tail follows ih =>
    obtain ⟨hi, hrest⟩ := List.forall_mem_cons.mp hnamed
    rw [follows.puts, List.map_append, List.mem_append] at hr
    rcases hr with hr | hr
    · cases adds_of_alone head with
      | @record ref defs names load held writes created updated =>
        have href := nulFree_of_recordOf hi names
        have hnot : ∀ held, Key.tablePrefix ex.ns ex.db table Key.Tag.document ++ r ∉
            (ex.collection ref.table defs).entryKeys ref.id held := by
          intro held hmem
          obtain ⟨_, _, _, _, hentry⟩ := Collection.mem_entryKeys hmem
          obtain ⟨rest, heq⟩ := hentry.eq_append
          exact absurd ((Key.tablePrefix_append_inj_table htable href ..).mp heq).2.1 (by decide)
        rcases writes.mem_keys (.inl hr) with heq | hmem | hmem
        · have heq : Key.tablePrefix ex.ns ex.db table Key.Tag.document ++ r =
              Key.tablePrefix ex.ns ex.db ref.table Key.Tag.document ++ asBytes ref.id := heq
          exact ⟨ref.id, ((Key.tablePrefix_append_inj_table htable href ..).mp heq).2.2⟩
        · exact absurd hmem (hnot _)
        · exact absurd hmem (hnot _)
      | @relate src dst edgeType fields stmt puts deletes created updated =>
        obtain ⟨table', t, r', htable', heq, howns⟩ :=
          (Adds.relate stmt puts deletes created updated : Adds ex s i a).owns hi (.inl hr)
        obtain ⟨_, rfl, _⟩ := (Key.tablePrefix_append_inj_table htable htable' ..).mp heq
        rcases howns with ⟨id, hrecord, _⟩ | htag
        · simp [recordOf, stmt] at hrecord
        · exact absurd htag (by decide)
    · exact ih hrest hr

theorem AllLegible.operations {ex : QueryExecutor} (hex : ex.Regular) {s : Store} (hs : ex.CatalogsOk s)
    (h : ex.AllLegible s) {stmts : List Issued} {st : BatchState} (hst : Collects ex s stmts st)
    (hnamed : ∀ i ∈ stmts, i.stmt.Named) : ex.AllLegible (s.writeBatch st.puts st.deletes) := by
  intro table htable
  refine ⟨?_, ?_⟩
  · intro r b hb
    rw [Store.getElem?_writeBatch] at hb
    rcases Option.or_eq_some_iff.mp hb with hput | ⟨_, hold⟩
    · have hmem := List.mem_map_of_mem (f := Prod.fst) (Store.mem_of_lastPut_eq_some hput)
      obtain ⟨id, rfl⟩ := hst.document_of_mem hnamed htable hmem
      rcases hst.lastPut_document hnamed (r := ⟨table, id⟩) htable with ⟨_, hnone⟩ | ⟨fields, b', _, hb', hsome⟩
      · rw [Key.documentKey_eq] at hnone
        rw [hnone] at hput
        cases hput
      · rw [Key.documentKey_eq] at hsome
        obtain rfl : b = b' := Option.some.inj (hput.symm.trans hsome)
        exact ⟨id, fields, rfl, Rmp.fromSlice_toVec hb'⟩
    · exact (h table htable).readable r b (Option.ite_none_left_eq_some.mp hold).2
  · intro idx hidx id fields hstored
    have hidx := ((hst.sameMetadata hnamed htable s).inCatalog_iff idx).mp hidx
    rw [hst.stored hnamed htable] at hstored
    rcases Option.or_eq_some_iff.mp hstored with hlast | ⟨_, hold⟩
    · exact hst.canIndex hex hs hnamed hlast hidx
    · exact (h table htable).indexable idx hidx id fields hold

theorem AllLegible.define {ex : QueryExecutor} (hex : ex.Regular) {s : Store} (h : ex.AllLegible s)
    {name table : String} (htable : Key.NulFree table) {fields : List String} {unique : Bool}
    {docs : List Document} {puts : List PutOp} {b : Bytes}
    (hdocs : (Collection.new ex.ns ex.db table).scanAll.run s = (.ok docs, s))
    (hputs : backfill ex.ns ex.db table (.btree name fields unique) docs [] = .ok puts)
    (hb : Rmp.definitionToVec (.btree name fields unique) = .ok b) :
    ex.AllLegible (s.writeBatch ((Key.indexCatalogKey ex.ns ex.db table name, b) :: puts) []) := by
  intro table' htable'
  have happart : ∀ t, table' ≠ table ∨ t ≠ Key.Tag.index ∧ t ≠ Key.Tag.metadata → ∀ r,
      (s.writeBatch ((Key.indexCatalogKey ex.ns ex.db table name, b) :: puts) [])[
        Key.tablePrefix ex.ns ex.db table' t ++ r]? = s[Key.tablePrefix ex.ns ex.db table' t ++ r]? :=
    fun t hapart r => getElem?_define_apart htable hputs s b htable' hapart r
  by_cases heq : table' = table
  · subst heq
    have hdocuments := happart Key.Tag.document (.inr ⟨by decide, by decide⟩)
    refine ⟨fun r v hv => (h table' htable).readable r v (hdocuments r ▸ hv), ?_⟩
    intro idx hidx id f hstored
    rw [stored_congr hdocuments] at hstored
    rcases (inCatalog_define htable hputs hb s idx).mp hidx with rfl | ⟨_, hold⟩
    · have hregular : (Collection.new ex.ns ex.db table').Regular :=
        ⟨hex.ns, hex.db, htable, by simp [Collection.new], by simp [Collection.new], .nil⟩
      obtain ⟨_, hmem⟩ := hregular.mem_of_scanAll hdocs
      have hscanned : (⟨⟨table', id⟩, f⟩ : Document) ∈ docs :=
        (hmem _).mpr ⟨rfl, (stored_eq_some_iff []).mp hstored⟩
      exact (backfill_eq_ok hputs).2.1 _ hscanned
    · exact (h table' htable).indexable idx hold id f hstored
  · refine (h table' htable').frame (happart _ (.inl heq)) fun idx hidx => ?_
    exact (Index.SameMetadata.inCatalog_iff (happart Key.Tag.metadata (.inl heq)) idx).mp hidx

/-- Taking keys away does no harm. -/
theorem AllLegible.deleteBatch {ex : QueryExecutor} {s : Store} (h : ex.AllLegible s) (keys : List Bytes) :
    ex.AllLegible (s.writeBatch [] keys) := by
  have hsub : ∀ (k b : Bytes), (s.writeBatch [] keys)[k]? = some b → s[k]? = some b := by
    intro k b hb
    rw [Store.getElem?_writeBatch] at hb
    exact (Option.ite_none_left_eq_some.mp hb).2
  intro table htable
  refine ⟨fun r b hb => (h table htable).readable r b (hsub _ b hb), ?_⟩
  rintro idx ⟨b, hb, hidx⟩ id fields hstored
  refine (h table htable).indexable idx ⟨b, hsub _ b hb, hidx⟩ id fields ?_
  obtain ⟨v, hv, hfields⟩ := Option.bind_eq_some_iff.mp hstored
  exact Option.bind_eq_some_iff.mpr ⟨v, hsub _ v hv, hfields⟩

theorem AllLegible.effect {ex : QueryExecutor} (hex : ex.Regular) {s s' : Store} (hs : ex.CatalogsOk s)
    (h : ex.AllLegible s) (heffect : ex.Effect s s') : ex.AllLegible s' := by
  cases heffect with
  | unchanged => exact h
  | operations named collects => exact h.operations hex hs collects named
  | records catalogued steps => exact h.steps catalogued steps
  | define hname htable hfields hdocs hputs hb => exact h.define hex htable hdocs hputs hb
  | remove hname htable => exact h.deleteBatch _

theorem Reachable.allLegible [CodeIntel] {ex : QueryExecutor} (hex : ex.Regular)
    {Q : Store → Request → Prop} {s : Store} (h : ex.Reachable Q s) : ex.AllLegible s := by
  induction h with
  | empty =>
    intro table _
    refine ⟨fun _ _ hb => ?_, ?_⟩
    · cases hb
    · rintro idx ⟨b, hb, _⟩
      cases hb
  | request before named meets prog ih =>
    have hs := before.catalogsOk hex
    exact ih.effect hex hs (effect_request hex hs named prog)

/-! ## Reading -/

theorem Legible.documentsReadable {ex : QueryExecutor} {table : String} {s : Store} (h : ex.Legible table s)
    (defs : List IndexDefinition) : (ex.collection table defs).DocumentsReadable s := by
  rintro k b hk ⟨r, rfl⟩
  obtain ⟨id, fields, rfl, hfields⟩ := h.readable r b hk
  exact ⟨id, fields, rfl, hfields⟩

theorem Legible.canIndex {ex : QueryExecutor} {table : String} {s : Store} (h : ex.Legible table s)
    {defs : List IndexDefinition} (hc : (ex.collection table defs).Catalogued s) {id : String}
    {fields : Fields} (hstored : (ex.collection table defs).Stored s id fields) :
    Index.CanIndex ⟨⟨table, id⟩, fields⟩ defs := by
  intro idx hidx
  have hone := h.indexable idx ((hc.mem_iff idx).mp hidx) id fields ((stored_eq_some_iff defs).mpr hstored)
  exact List.forall_mem_singleton.mp hone

end QueryExecutor

end Dllb
