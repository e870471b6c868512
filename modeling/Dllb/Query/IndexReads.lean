import Mathlib
import Dllb.Query.PlanSound
import Dllb.Query.Encoded
import Dllb.Document.IndexConsistency

/-! # Reading through an index

The ids of an index scan are those of the documents whose complete tuple is
selected by raw bytes. Against `matchesWhere` this loses a document, or answers
one too many, exactly where the byte order and the typed comparison part.
-/

namespace Dllb

set_option autoImplicit false

/-! ## Reading documents -/

namespace Collection

variable [Rmp]

omit [Rmp] in
theorem Regular.docKey_of_idOfKey {c : Collection} (hc : c.Regular) {k : Bytes} (hk : c.documents <+: k)
    {id : String} (h : idOfKey k = .ok id) : k = c.docKey id := by
  obtain ⟨r, rfl⟩ := hk
  rw [idOfKey, documents, Key.parseKey_tablePrefix_append hc.ns hc.db hc.table] at h
  cases hr : fromUtf8 r with
  | none =>
    simp only [bind, Except.bind, hr] at h
    cases h
  | some id' =>
    simp only [bind, Except.bind, hr] at h
    cases h
    rw [docKey, Key.documentKey_eq, asBytes_of_fromUtf8 hr, documents]

theorem decodeAll_mem {c : Collection} {kvs : List PutOp} {docs : List Document}
    (h : c.decodeAll kvs = .ok docs) :
    ∀ kv ∈ kvs, ∃ id fields, idOfKey kv.1 = .ok id ∧ Rmp.fromSlice kv.2 = .ok fields := by
  induction kvs generalizing docs with
  | nil => simp
  | cons kv kvs ih =>
    obtain ⟨k, b⟩ := kv
    rw [decodeAll] at h
    cases hid : idOfKey k with
    | error e => rw [hid] at h; cases h
    | ok id =>
      cases hf : Rmp.fromSlice b with
      | error e => simp [hid, deserialize, hf, bind, Except.bind] at h
      | ok fields =>
        cases hrest : c.decodeAll kvs with
        | error e => simp [hid, deserialize, hf, hrest, bind, Except.bind] at h
        | ok rest => exact List.forall_mem_cons.mpr ⟨⟨id, fields, hid, hf⟩, ih hrest⟩

/-- What a successful scan of the table has read. -/
theorem Regular.mem_of_scanAll {c : Collection} (hc : c.Regular) {s : Store} {docs : List Document}
    (h : c.scanAll.run s = (.ok docs, s)) :
    c.DocumentsReadable s ∧
      ∀ doc, doc ∈ docs ↔ doc.id = c.recordId doc.id.id ∧ c.Stored s doc.id.id doc.fields := by
  have hend := c.prefixEnd_documents_ne_nil
  have hdecode : c.decodeAll (s.prefixScan c.documents) = .ok docs := by
    rw [scanAll, Db.prefixScan, Prog.run_query_bind, Prog.run_lift] at h
    exact congrArg Prod.fst h
  have hreadable : c.DocumentsReadable s := by
    intro k b hk hp
    obtain ⟨id, fields, hid, hf⟩ :=
      decodeAll_mem hdecode (k, b) ((Store.mem_prefixScan_iff hend).mpr ⟨hk, hp⟩)
    exact ⟨id, fields, hc.docKey_of_idOfKey hp hid, hf⟩
  obtain ⟨docs', hscan, hmem⟩ := hc.scanAll_eq_ok hreadable
  obtain rfl : docs = docs' := Except.ok.inj (congrArg Prod.fst (h.symm.trans hscan))
  exact ⟨hreadable, hmem⟩

/-- A scan reads each record once. -/
theorem Regular.eq_of_mem_scan {c : Collection} (hc : c.Regular) {s : Store} {docs : List Document}
    (h : c.scanAll.run s = (.ok docs, s)) {doc doc' : Document} (hdoc : doc ∈ docs) (hdoc' : doc' ∈ docs)
    (hid : doc.id.id = doc'.id.id) : doc = doc' := by
  obtain ⟨_, hdocs⟩ := hc.mem_of_scanAll h
  obtain ⟨hi, hstored⟩ := (hdocs doc).mp hdoc
  obtain ⟨hi', hstored'⟩ := (hdocs doc').mp hdoc'
  rw [← hid] at hi' hstored'
  obtain ⟨i, f⟩ := doc
  obtain ⟨i', f'⟩ := doc'
  dsimp only at hi hi' hstored hstored'
  rw [hi, hi', Stored.unique hstored hstored']

/-- Consistency, said of the stored fields. -/
theorem Consistent.inv {c : Collection} (hc : c.Regular) {s : Store} (h : c.Consistent s) : c.Inv s := by
  obtain ⟨docs, hscan, hbuild, hentries⟩ := h
  obtain ⟨hreadable, hdocs⟩ := hc.mem_of_scanAll hscan
  refine ⟨?_, ?_⟩
  · intro k b hk hp
    obtain ⟨id, fields, rfl, hf⟩ := hreadable k b hk hp
    obtain ⟨es, hes⟩ := hbuild ⟨c.recordId id, fields⟩ ((hdocs _).mpr ⟨rfl, b, hk, hf⟩)
    exact ⟨id, fields, rfl, hf, (Index.canIndex_of_buildIndexEntries hes).1⟩
  · intro idx hidx k hp
    have hkey := (Store.mem_scanPrefixKeys_iff (s := s) (k := k) (c.prefixEnd_region_ne_nil idx)).symm.trans
      (hentries idx hidx k)
    rw [and_iff_left hp] at hkey
    rw [hkey]
    constructor
    · rintro ⟨doc, hdoc, es, hes, hk, _⟩
      obtain ⟨hid, hstored⟩ := (hdocs doc).mp hdoc
      obtain ⟨_, rfl⟩ := Index.canIndex_of_buildIndexEntries hes
      have hmem : k ∈ c.entryKeys doc.id.id (some doc.fields) := by
        rw [entryKeys, ← hid]
        exact hk
      obtain ⟨_, ⟨⟩, hentry⟩ := (hc.mem_entryKeys_iff hidx hp _ _).mp hmem
      exact ⟨_, _, hstored, hentry⟩
    · rintro ⟨id, fields, hstored, hentry⟩
      have hdoc := (hdocs ⟨c.recordId id, fields⟩).mpr ⟨rfl, hstored⟩
      obtain ⟨es, hes⟩ := hbuild _ hdoc
      obtain ⟨_, rfl⟩ := Index.canIndex_of_buildIndexEntries hes
      exact ⟨_, hdoc, _, hes, (hc.mem_entryKeys_iff hidx hp id (some fields)).mpr ⟨fields, rfl, hentry⟩, hp⟩

theorem Consistent.indexable {c : Collection} {s : Store} (hs : c.Consistent s) {docs : List Document}
    (h : c.scanAll.run s = (.ok docs, s)) {doc : Document} (hdoc : doc ∈ docs) {idx : IndexDefinition}
    (hidx : idx ∈ c.indexes) (hbtree : idx.isBtree = true) {values : List Value}
    (hvalues : Index.collectIndexValues doc idx = some values) : ∀ v ∈ values, Index.Indexable v := by
  obtain ⟨docs', hscan, hbuild, _⟩ := hs
  obtain rfl : docs = docs' := Except.ok.inj (congrArg Prod.fst (h.symm.trans hscan))
  obtain ⟨es, hes⟩ := hbuild doc hdoc
  exact ((Index.canIndex_of_buildIndexEntries hes).1 idx hidx hbtree).2 values hvalues

theorem DocumentsReadable.decodeFound_eq_ok {c : Collection} {s : Store} (h : c.DocumentsReadable s)
    (ids : List String) :
    ∃ found, c.decodeFound (ids.zip (s.multiGet (ids.map c.docKey))) = .ok found ∧
      ∀ doc, doc ∈ found ↔
        doc.id.id ∈ ids ∧ doc.id = c.recordId doc.id.id ∧ c.Stored s doc.id.id doc.fields := by
  induction ids with
  | nil => exact ⟨[], rfl, by simp⟩
  | cons id ids ih =>
    obtain ⟨found, hfound, hmem⟩ := ih
    simp only [Store.multiGet, List.map_map, List.map_cons, List.zip_cons_cons] at hfound ⊢
    have hother : ∀ doc, doc.id.id ∈ id :: ids ∧ doc.id = c.recordId doc.id.id ∧
        c.Stored s doc.id.id doc.fields ↔
        (doc.id = c.recordId id ∧ c.Stored s id doc.fields) ∨ doc ∈ found := by
      intro doc
      rw [hmem, List.mem_cons]
      constructor
      · rintro ⟨rfl | hid, hdoc⟩
        · exact .inl hdoc
        · exact .inr ⟨hid, hdoc⟩
      · rintro (⟨hid, hstored⟩ | ⟨hid, hdoc⟩)
        · have hsame : doc.id.id = id := by rw [hid]; rfl
          exact ⟨.inl hsame, by rw [hsame]; exact ⟨hid, hstored⟩⟩
        · exact ⟨.inr hid, hdoc⟩
    cases hb : s[c.docKey id]? with
    | none =>
      refine ⟨found, by simpa only [Function.comp_apply, hb, decodeFound] using hfound, ?_⟩
      intro doc
      rw [hother]
      refine ⟨.inr, fun h => h.resolve_left ?_⟩
      rintro ⟨_, b, hb', _⟩
      rw [hb] at hb'
      cases hb'
    | some b =>
      obtain ⟨id', fields, hk, hf⟩ := h _ b hb (List.prefix_append ..)
      refine ⟨⟨c.recordId id, fields⟩ :: found, ?_, ?_⟩
      · simp only [decodeFound, deserialize, hf]
        simp only [Function.comp_def] at hfound
        simp only [bind, Except.bind, Function.comp_def, hfound]
        rfl
      · intro doc
        rw [hother, List.mem_cons]
        refine or_congr_left ⟨?_, ?_⟩
        · rintro rfl
          exact ⟨rfl, b, hb, hf⟩
        · rintro ⟨hid, hstored⟩
          obtain ⟨i, g⟩ := doc
          dsimp only at hid hstored
          rw [hid, Stored.unique hstored ⟨b, hb, hf⟩]

/-- Resolving ids gives the stored documents among them. -/
theorem DocumentsReadable.getMany_eq_ok {c : Collection} {s : Store} (h : c.DocumentsReadable s)
    (ids : List String) :
    ∃ found, (c.getMany ids).run s = (.ok found, s) ∧
      ∀ doc, doc ∈ found ↔
        doc.id.id ∈ ids ∧ doc.id = c.recordId doc.id.id ∧ c.Stored s doc.id.id doc.fields := by
  rw [getMany]
  split
  · rename_i hempty
    obtain rfl : ids = [] := by simpa using hempty
    exact ⟨[], rfl, by simp⟩
  · obtain ⟨found, hfound, hmem⟩ := h.decodeFound_eq_ok ids
    refine ⟨found, ?_, hmem⟩
    rw [Db.multiGet, Prog.run_query_bind, hfound]
    rfl

end Collection

/-! ## The ids of an index scan -/

namespace Index

theorem collectValues_iff {doc : Document} {fields : List String} {values : List Value} :
    collectValues doc fields = some values ↔
      List.Forall₂ (fun field v => doc.fields[field]? = some v ∧ v.isNone = false) fields values := by
  induction fields generalizing values with
  | nil =>
    rw [collectValues, List.forall₂_nil_left_iff, Option.some.injEq, eq_comm]
  | cons field fields ih =>
    rw [collectValues, List.forall₂_cons_left_iff]
    constructor
    · intro h
      split at h
      · rename_i v hv
        split at h
        · cases h
        · rename_i hnone
          obtain ⟨rest, hrest, rfl⟩ := Option.map_eq_some_iff.mp h
          exact ⟨v, rest, ⟨hv, by simpa using hnone⟩, ih.mp hrest, rfl⟩
      · cases h
    · rintro ⟨v, rest, ⟨hv, hnone⟩, hrest, rfl⟩
      simp only [hv, hnone, Bool.false_eq_true, ↓reduceIte, ih.mpr hrest, Option.map_some]

theorem collectIndexValues_iff {doc : Document} {idx : IndexDefinition} (hne : idx.fields ≠ [])
    {values : List Value} :
    collectIndexValues doc idx = some values ↔
      List.Forall₂ (fun field v => doc.fields[field]? = some v ∧ v.isNone = false) idx.fields values := by
  rw [collectIndexValues, if_neg (by simpa using hne), collectValues_iff]

/-- A selection looks at raw encodings only. -/
theorem selects_congr {eq us vs : List Value} {lower upper : Option RangeBound}
    (h : us.map rawOf = vs.map rawOf) : Selects eq lower upper us ↔ Selects eq lower upper vs := by
  have htake : (us.take eq.length).map rawOf = (vs.take eq.length).map rawOf := by
    rw [List.map_take, List.map_take, h]
  have hnext : us[eq.length]?.map rawOf = vs[eq.length]?.map rawOf := by
    rw [← List.getElem?_map, ← List.getElem?_map, h]
  rw [Selects, Selects, htake]
  refine and_congr_right fun _ => ?_
  cases hu : us[eq.length]? <;> cases hv : vs[eq.length]? <;> simp_all

theorem exists_map_eq_of_forall_mem {α β : Type} {f : β → α} {P : β → Prop} {l : List α}
    (h : ∀ a ∈ l, ∃ b, f b = a ∧ P b) : ∃ bs : List β, l = bs.map f ∧ ∀ b ∈ bs, P b := by
  induction l with
  | nil => exact ⟨[], rfl, by simp⟩
  | cons a l ih =>
    obtain ⟨⟨b, hb, hP⟩, hl⟩ := List.forall_mem_cons.mp h
    obtain ⟨bs, rfl, hbs⟩ := ih hl
    exact ⟨b :: bs, by simp [hb], List.forall_mem_cons.mpr ⟨hP, hbs⟩⟩

end Index

namespace Collection

variable [Rmp]

/-- The document has a complete tuple for the index and the lookup selects it. -/
def Selected (idx : IndexDefinition) (plan : IndexPlan) (doc : Document) : Prop :=
  ∃ values, Index.collectIndexValues doc idx = some values ∧
    Index.Selects plan.eq plan.lower plan.upper values

/-- On a consistent table the scan of a plan answers, once each, the ids of the selected documents. -/
theorem Regular.run_runIndexPlan {c : Collection} (hc : c.Regular) {s : Store} {docs : List Document}
    (hscan : c.scanAll.run s = (.ok docs, s)) (hs : c.Consistent s) {idx : IndexDefinition}
    (hidx : idx ∈ c.indexes) {plan : IndexPlan} (hfits : PlanFits idx plan) :
    ∃ ids, (runIndexPlan c plan).run s = (.ok ids, s) ∧ ids.Nodup ∧
      ∀ id, id ∈ ids ↔ ∃ doc ∈ docs, doc.id.id = id ∧ Selected idx plan doc := by
  obtain ⟨docs', hscan', hbuild, hregion⟩ := hs
  obtain rfl : docs = docs' := Except.ok.inj (congrArg Prod.fst (hscan.symm.trans hscan'))
  have hpos : 0 < idx.fields.length := List.length_pos_of_ne_nil hfits.fields
  -- Every key of the region is an entry of a document for this index.
  have hkeys : ∀ k ∈ s.scanPrefixKeys (c.region idx), ∃ e : Index.Entry idx.fields.length,
      e.key (c.region idx) = k ∧
        ∃ doc ∈ docs, doc.id.id = e.id ∧ Index.collectIndexValues doc idx = some e.values := by
    intro k hk
    obtain ⟨doc, hdoc, es, hes, hkes, hp⟩ := (hregion idx hidx k).mp hk
    obtain ⟨hcan, rfl⟩ := Index.canIndex_of_buildIndexEntries hes
    obtain ⟨op, hop, rfl⟩ := List.mem_map.mp hkes
    obtain ⟨idx', hidx', hbtree, values, hvalues, rfl⟩ := Index.mem_entriesOf_iff.mp hop
    obtain rfl : idx = idx' := hc.eq_of_name_eq hidx hidx'
      ((Index.indexPrefix_prefix_entryKey_iff (hc.names idx hidx) (hc.names idx' hidx') ..).mp hp)
    exact ⟨⟨values, doc.id.id, Index.tupleCode values, (Index.collectIndexValues_length hvalues).1,
      Index.encodeCompositeKeyPart_of_indexable ((hcan idx hidx hbtree).2 values hvalues)⟩, rfl,
      doc, hdoc, rfl, hvalues⟩
  obtain ⟨es, hes, hentries⟩ := Index.exists_map_eq_of_forall_mem hkeys
  refine ⟨(es.filter fun e => decide (Index.Selects plan.eq plan.lower plan.upper e.values)).map
    Index.Entry.id, ?_, ?_, ?_⟩
  · rw [runIndexPlan, findIdsForScan, hfits.name, hfits.fieldCount, Index.run_findIds c.ns c.db c.table idx.name
      hfits.eq_indexable hfits.lower_indexable hfits.upper_indexable, ← region, hes,
      Index.filterMap_idFromEntry_inScan hpos (c.prefixEnd_region_append_ne_nil idx) es hfits.eq_length
        hfits.full]
  · -- Two entries with one id belong to one document, so their keys are the same.
    have hnodup : (es.map (Index.Entry.key (c.region idx))).Nodup := by
      rw [← hes, Store.scanPrefixKeys]
      exact (List.pairwise_map.mpr ((Store.pairwise_scan s _ _).imp fun h => h.ne))
    rw [List.Nodup, List.pairwise_map]
    refine ((List.pairwise_map.mp hnodup).imp_of_mem ?_).filter _
    intro e e' he he' hne hid
    obtain ⟨doc, hdoc, hdid, hvalues⟩ := hentries e he
    obtain ⟨doc', hdoc', hdid', hvalues'⟩ := hentries e' he'
    obtain rfl := hc.eq_of_mem_scan hscan hdoc hdoc' (hdid.trans (hid.trans hdid'.symm))
    rw [hvalues] at hvalues'
    have hvals : e.values = e'.values := Option.some.inj hvalues'
    exact hne (by rw [Index.Entry.key, Index.Entry.key, e.part_eq, e'.part_eq, hvals, hid])
  · intro id
    simp only [List.mem_map, List.mem_filter, decide_eq_true_eq]
    constructor
    · rintro ⟨e, ⟨he, hsel⟩, rfl⟩
      obtain ⟨doc, hdoc, hid, hvalues⟩ := hentries e he
      exact ⟨doc, hdoc, hid, e.values, hvalues, hsel⟩
    · rintro ⟨doc, hdoc, rfl, values, hvalues, hsel⟩
      obtain ⟨des, hdes⟩ := hbuild doc hdoc
      have hkey : Index.entryKey c.ns c.db c.table idx.name values doc.id.id ∈
          s.scanPrefixKeys (c.region idx) := by
        refine (hregion idx hidx _).mpr ⟨doc, hdoc, des, hdes, ?_, ?_⟩
        · obtain ⟨_, rfl⟩ := Index.canIndex_of_buildIndexEntries hdes
          exact List.mem_map.mpr ⟨_, Index.mem_entriesOf_iff.mpr
            ⟨idx, hidx, hc.btree idx hidx, values, hvalues, rfl⟩, rfl⟩
        · exact (Index.indexPrefix_prefix_entryKey_iff (hc.names idx hidx) (hc.names idx hidx) ..).mpr rfl
      rw [hes] at hkey
      obtain ⟨e, he, hek⟩ := List.mem_map.mp hkey
      have hlen : e.values.length = values.length :=
        e.length_values.trans (Index.collectIndexValues_length hvalues).1.symm
      rw [Index.Entry.key, e.part_eq] at hek
      obtain ⟨hraw, hid⟩ := (Index.entryKey_inj hlen).mp hek
      exact ⟨e, ⟨he, (Index.selects_congr hraw).mpr hsel⟩, hid⟩

end Collection

/-! ## Documents against a plan -/

theorem forall₂_getElem? {α β : Type} {R : α → β → Prop} {as : List α} {bs : List β}
    (h : List.Forall₂ R as bs) (i : Nat) :
    (as[i]? = none ∧ bs[i]? = none) ∨ ∃ a b, as[i]? = some a ∧ bs[i]? = some b ∧ R a b := by
  induction h generalizing i with
  | nil => simp
  | cons hab _ ih =>
    cases i with
    | zero => exact .inr ⟨_, _, rfl, rfl, hab⟩
    | succ i => exact ih i

/-- The document has every field of the index, and each field the plan constrains agrees with its
literal. -/
structure IndexAgrees (idx : IndexDefinition) (plan : IndexPlan) (doc : Document) : Prop where
  complete : ∀ field ∈ idx.fields, ∃ x ∈ doc.fields[field]?, x.isNone = false
  eq : List.Forall₂ (fun field v => ∀ x ∈ doc.fields[field]?, EqAgrees x v)
    (idx.fields.take plan.eq.length) plan.eq
  range : ∀ field ∈ idx.fields[plan.eq.length]?, ∀ x ∈ doc.fields[field]?,
    (∀ b ∈ plan.lower, LowerAgrees b.2 x b.1) ∧ ∀ b ∈ plan.upper, UpperAgrees b.2 x b.1

/-- Each field the plan constrains has a value of a type the literal compares with. -/
structure IndexSound (idx : IndexDefinition) (plan : IndexPlan) (doc : Document) : Prop where
  eq : List.Forall₂ (fun field v => ∀ x ∈ doc.fields[field]?, EqSound x v)
    (idx.fields.take plan.eq.length) plan.eq
  range : ∀ field ∈ idx.fields[plan.eq.length]?, ∀ x ∈ doc.fields[field]?,
    (∀ b ∈ plan.lower, LowerSound b.2 x b.1) ∧ ∀ b ∈ plan.upper, UpperSound b.2 x b.1

/-- The tuple of a document, field by field. -/
abbrev Tuple (doc : Document) (fields : List String) (values : List Value) : Prop :=
  List.Forall₂ (fun field v => doc.fields[field]? = some v ∧ v.isNone = false) fields values

theorem map_rawOf_eq_iff_agrees {doc : Document} {fields : List String} {values eq : List Value}
    (htuple : Tuple doc fields values)
    (hholds : List.Forall₂ (fun field v => AtomHolds doc field (.eq v)) fields eq)
    (heq : ∀ v ∈ eq, Index.Indexable v) :
    values.map Index.rawOf = eq.map Index.rawOf ↔
      List.Forall₂ (fun field v => ∀ x ∈ doc.fields[field]?, EqAgrees x v) fields eq := by
  induction htuple generalizing eq with
  | nil =>
    obtain rfl : eq = [] := List.forall₂_nil_left_iff.mp hholds
    simp
  | @cons field x fields values hx _ ih =>
    obtain ⟨v, eq, ⟨y, hy, hcmp⟩, hrest, rfl⟩ := List.forall₂_cons_left_iff.mp hholds
    obtain ⟨hv, heq⟩ := List.forall_mem_cons.mp heq
    obtain rfl : x = y := Option.some.inj (hx.1.symm.trans hy)
    rw [List.map_cons, List.map_cons, List.cons.injEq, ih hrest heq, rawOf_eq_iff_eqAgrees hcmp hv,
      List.forall₂_cons]
    simp [hx.1]

theorem forall₂_atomHolds_iff_sound {doc : Document} {fields : List String} {values eq : List Value}
    (htuple : Tuple doc fields values) (hvalues : ∀ x ∈ values, Index.Indexable x)
    (heq : ∀ v ∈ eq, Index.Indexable v) (hraw : values.map Index.rawOf = eq.map Index.rawOf) :
    List.Forall₂ (fun field v => AtomHolds doc field (.eq v)) fields eq ↔
      List.Forall₂ (fun field v => ∀ x ∈ doc.fields[field]?, EqSound x v) fields eq := by
  induction htuple generalizing eq with
  | nil =>
    obtain rfl : eq = [] := by simpa using hraw.symm
    simp
  | @cons field x fields values hx _ ih =>
    cases eq with
    | nil => simp at hraw
    | cons v eq =>
      obtain ⟨hv, heq⟩ := List.forall_mem_cons.mp heq
      obtain ⟨hxi, hvalues⟩ := List.forall_mem_cons.mp hvalues
      rw [List.map_cons, List.map_cons, List.cons.injEq] at hraw
      rw [List.forall₂_cons, List.forall₂_cons, ih hvalues heq hraw.2]
      simp [AtomHolds, hx.1, cmpHolds_eq_iff_eqSound hxi hv hraw.1]

theorem RangeHolds.lower_iff {doc : Document} {field : String} {x : Value}
    (hx : doc.fields[field]? = some x) (bound : Option Index.RangeBound) :
    (∀ b ∈ bound, AtomHolds doc field (.lower b.1 b.2)) ↔
      ∀ b ∈ bound, cmpHolds (lowerOp b.2) x b.1 = true := by
  simp [AtomHolds, hx, lowerOp]

theorem RangeHolds.upper_iff {doc : Document} {field : String} {x : Value}
    (hx : doc.fields[field]? = some x) (bound : Option Index.RangeBound) :
    (∀ b ∈ bound, AtomHolds doc field (.upper b.1 b.2)) ↔
      ∀ b ∈ bound, cmpHolds (upperOp b.2) x b.1 = true := by
  simp [AtomHolds, hx, upperOp]

theorem aboveLower_option_iff (raw : Bytes) (bound : Option Index.RangeBound) :
    Index.AboveLower raw bound ↔ ∀ b ∈ bound, Index.AboveLower raw (some b) := by
  cases bound <;> simp [Index.AboveLower]

theorem belowUpper_option_iff (raw : Bytes) (bound : Option Index.RangeBound) :
    Index.BelowUpper raw bound ↔ ∀ b ∈ bound, Index.BelowUpper raw (some b) := by
  cases bound <;> simp [Index.BelowUpper]

theorem exists_tuple {doc : Document} {fields : List String}
    (h : ∀ field ∈ fields, ∃ x ∈ doc.fields[field]?, x.isNone = false) : ∃ values, Tuple doc fields values := by
  induction fields with
  | nil => exact ⟨[], .nil⟩
  | cons field fields ih =>
    obtain ⟨⟨x, hx, hnone⟩, hrest⟩ := List.forall_mem_cons.mp h
    obtain ⟨values, hvalues⟩ := ih hrest
    exact ⟨x :: values, .cons ⟨hx, hnone⟩ hvalues⟩

theorem Tuple.complete {doc : Document} {fields : List String} {values : List Value}
    (h : Tuple doc fields values) : ∀ field ∈ fields, ∃ x ∈ doc.fields[field]?, x.isNone = false := by
  induction h with
  | nil => simp
  | cons hx _ ih => exact List.forall_mem_cons.mpr ⟨⟨_, hx.1, hx.2⟩, ih⟩

theorem Tuple.selects_iff_agrees {doc : Document} {idx : IndexDefinition} {plan : IndexPlan}
    {values : List Value} (htuple : Tuple doc idx.fields values) (hfits : PlanFits idx plan)
    (hholds : PlanHolds doc idx.fields plan.eq plan.lower plan.upper) :
    Index.Selects plan.eq plan.lower plan.upper values ↔ IndexAgrees idx plan doc := by
  have heq := map_rawOf_eq_iff_agrees (List.forall₂_take plan.eq.length htuple) hholds.1 hfits.eq_indexable
  have hrange : (∀ next ∈ values[plan.eq.length]?, Index.AboveLower (Index.rawOf next) plan.lower ∧
      Index.BelowUpper (Index.rawOf next) plan.upper) ↔
      ∀ field ∈ idx.fields[plan.eq.length]?, ∀ x ∈ doc.fields[field]?,
        (∀ b ∈ plan.lower, LowerAgrees b.2 x b.1) ∧ ∀ b ∈ plan.upper, UpperAgrees b.2 x b.1 := by
    rcases forall₂_getElem? htuple plan.eq.length with ⟨hf, hv⟩ | ⟨field, x, hf, hv, hx, _⟩
    · simp [hf, hv]
    · obtain ⟨hlow, hup⟩ := hholds.2 field hf
      rw [RangeHolds.lower_iff hx] at hlow
      rw [RangeHolds.upper_iff hx] at hup
      simp only [hf, hv, hx, Option.mem_def, Option.some.injEq, forall_eq']
      rw [aboveLower_option_iff, belowUpper_option_iff]
      refine and_congr ?_ ?_
      · exact forall_congr' fun b => imp_congr_right fun hb => aboveLower_iff_lowerAgrees (hlow b hb)
      · exact forall_congr' fun b => imp_congr_right fun hb => belowUpper_iff_upperAgrees (hup b hb)
  rw [Index.Selects, heq, hrange]
  exact ⟨fun h => ⟨htuple.complete, h.1, h.2⟩, fun h => ⟨h.eq, h.range⟩⟩

/-- Of the documents that match the plan, the index answers those that agree with it. -/
theorem selected_iff_agrees {doc : Document} {idx : IndexDefinition} {plan : IndexPlan}
    (hfits : PlanFits idx plan) (hholds : PlanHolds doc idx.fields plan.eq plan.lower plan.upper) :
    Collection.Selected idx plan doc ↔ IndexAgrees idx plan doc := by
  constructor
  · rintro ⟨values, hvalues, hsel⟩
    have htuple : Tuple doc idx.fields values := (Index.collectIndexValues_iff hfits.fields).mp hvalues
    exact (Tuple.selects_iff_agrees htuple hfits hholds).mp hsel
  · intro h
    obtain ⟨values, htuple⟩ := exists_tuple h.complete
    exact ⟨values, (Index.collectIndexValues_iff hfits.fields).mpr htuple,
      (Tuple.selects_iff_agrees htuple hfits hholds).mpr h⟩

/-- Of the documents the index answers, those match the plan whose values are sound for it. -/
theorem Tuple.planHolds_iff_sound {doc : Document} {idx : IndexDefinition} {plan : IndexPlan}
    {values : List Value} (htuple : Tuple doc idx.fields values)
    (hvalues : ∀ x ∈ values, Index.Indexable x) (hfits : PlanFits idx plan)
    (hsel : Index.Selects plan.eq plan.lower plan.upper values) :
    PlanHolds doc idx.fields plan.eq plan.lower plan.upper ↔ IndexSound idx plan doc := by
  have heq := forall₂_atomHolds_iff_sound (List.forall₂_take plan.eq.length htuple)
    (fun x hx => hvalues x (List.mem_of_mem_take hx)) hfits.eq_indexable hsel.1
  have hrange : (∀ field ∈ idx.fields[plan.eq.length]?, RangeHolds doc field plan.lower plan.upper) ↔
      ∀ field ∈ idx.fields[plan.eq.length]?, ∀ x ∈ doc.fields[field]?,
        (∀ b ∈ plan.lower, LowerSound b.2 x b.1) ∧ ∀ b ∈ plan.upper, UpperSound b.2 x b.1 := by
    rcases forall₂_getElem? htuple plan.eq.length with ⟨hf, hv⟩ | ⟨field, x, hf, hv, hx, _⟩
    · simp [hf]
    · obtain ⟨hlow, hup⟩ := hsel.2 x hv
      rw [aboveLower_option_iff] at hlow
      rw [belowUpper_option_iff] at hup
      have hxi := hvalues x (List.mem_of_getElem? hv)
      simp only [hf, hx, Option.mem_def, Option.some.injEq, forall_eq', RangeHolds]
      rw [← Option.mem_def] at hx
      have hlower := RangeHolds.lower_iff hx plan.lower
      have hupper := RangeHolds.upper_iff hx plan.upper
      simp only [Option.mem_def] at hlower hupper hlow hup
      rw [hlower, hupper]
      refine and_congr ?_ ?_
      · exact forall_congr' fun b => imp_congr_right fun hb =>
          cmpHolds_lower_iff_lowerSound hxi (hfits.lower_indexable b hb) (hlow b hb)
      · exact forall_congr' fun b => imp_congr_right fun hb =>
          cmpHolds_upper_iff_upperSound hxi (hfits.upper_indexable b hb) (hup b hb)
  rw [PlanHolds, heq, hrange]
  exact ⟨fun h => ⟨h.1, h.2⟩, fun h => ⟨h.eq, h.range⟩⟩

/-! ## A table with one index, for the examples of the theorems -/

/-- None of the clauses below calls an `ast::` function. -/
@[reducible] def noCodeIntel : CodeIntel := ⟨fun _ _ => none⟩

def ages : Collection :=
  { ns := "n", db := "d", table := "t", schema := none, indexes := [.btree "by_a" ["a"] false] }

theorem regular_ages : ages.Regular where
  ns := by decide
  db := by decide
  table := by decide
  btree := by decide
  names := by decide
  distinct := by decide

def aged (v : Value) : Document := (Document.new ⟨"t", "r"⟩).set "a" v

/-- The store after the record is created. -/
def agesStore (v : Value) : Store := @Collection.execAll MsgPack.codec ages ∅ [(none, .create (aged v))]

theorem consistent_agesStore (v : Value) : @Collection.Consistent MsgPack.codec ages (agesStore v) := by
  let _ := MsgPack.codec
  have hempty : ages.Empty (∅ : Store) := by simp [Collection.Empty]
  exact (hempty.inv.execAll regular_ages _).consistent regular_ages

/-- `a >= 29.5` -/
def atLeast : WhereClause := .cmp (.field "a") .gte (.float ⟨0x403D800000000000⟩)

def atLeastPlan : IndexPlan :=
  { indexName := "by_a", eq := [], lower := some (.float ⟨0x403D800000000000⟩, true), upper := none,
    fieldCount := 1, covers := true }

/-- `a > false` -/
def aboveFalse : WhereClause := .cmp (.field "a") .gt (.bool false)

def aboveFalsePlan : IndexPlan :=
  { indexName := "by_a", eq := [], lower := some (.bool false, false), upper := none,
    fieldCount := 1, covers := true }

/-! ## Index reads against full scans -/

section Reads

variable [Rmp] [CodeIntel]

omit [Rmp] in
/-- The index the plan was made for, known by its name. -/
theorem planFits_of_name {c : Collection} (hc : c.Regular) {clause : WhereClause} {plan : IndexPlan}
    (hplan : planIndexLookup c.indexes clause = some plan) {idx : IndexDefinition}
    (hidx : idx ∈ c.indexes) (hname : idx.name = plan.indexName) :
    PlanFits idx plan ∧
      (∀ doc, matchesWhere doc clause = true →
        PlanHolds doc idx.fields plan.eq plan.lower plan.upper) ∧
      (plan.covers = true → ∀ doc, PlanHolds doc idx.fields plan.eq plan.lower plan.upper →
        matchesWhere doc clause = true) := by
  obtain ⟨idx', hidx', _, hfits, _, hsound, hcovers⟩ := planIndexLookup_spec hplan
  obtain rfl : idx = idx' := hc.eq_of_name_eq hidx hidx' (hname.trans hfits.name)
  exact ⟨hfits, hsound, hcovers⟩

/-- Reading through the index finds every matching document, and with the full clause applied to
what was read gives the matches of a full scan, exactly if the matching documents agree with the
chosen index. -/
theorem index_read_loses_nothing_iff {c : Collection} (hc : c.Regular) {s : Store} {docs : List Document}
    (hscan : c.scanAll.run s = (.ok docs, s)) (hs : c.Consistent s) {clause : WhereClause}
    {plan : IndexPlan} (hplan : planIndexLookup c.indexes clause = some plan) {idx : IndexDefinition}
    (hidx : idx ∈ c.indexes) (hname : idx.name = plan.indexName) :
    ∃ ids found, (runIndexPlan c plan).run s = (.ok ids, s) ∧
      (candidates c (some clause)).run s = (.ok found, s) ∧
      (((∀ doc ∈ docs, matchesWhere doc clause = true → doc.id.id ∈ ids) ∧
        ∀ doc, doc ∈ found ∧ matchesWhere doc clause = true ↔
          doc ∈ docs ∧ matchesWhere doc clause = true) ↔
        ∀ doc ∈ docs, matchesWhere doc clause = true → IndexAgrees idx plan doc) := by
  obtain ⟨hfits, hsound, _⟩ := planFits_of_name hc hplan hidx hname
  obtain ⟨hreadable, hdocs⟩ := hc.mem_of_scanAll hscan
  obtain ⟨ids, hids, _, hmem⟩ := hc.run_runIndexPlan hscan hs hidx hfits
  obtain ⟨found, hfound, hfoundMem⟩ := hreadable.getMany_eq_ok ids
  have hcandidates : (candidates c (some clause)).run s = (.ok found, s) := by
    simp only [candidates, Option.bind_some, hplan]
    rw [Prog.run_bind_ok hids, hfound]
  -- A document is found by its own tuple: ids are those of single documents.
  have hself : ∀ doc ∈ docs, doc.id.id ∈ ids ↔ Collection.Selected idx plan doc := by
    intro doc hdoc
    rw [hmem]
    constructor
    · rintro ⟨doc', hdoc', hid, hsel⟩
      rwa [← hc.eq_of_mem_scan hscan hdoc' hdoc hid]
    · exact fun hsel => ⟨doc, hdoc, rfl, hsel⟩
  have hfoundIff : ∀ doc, doc ∈ found ↔ doc ∈ docs ∧ doc.id.id ∈ ids := by
    intro doc
    rw [hfoundMem, hdocs]
    tauto
  refine ⟨ids, found, hids, hcandidates, ?_⟩
  constructor
  · rintro ⟨hall, _⟩ doc hdoc hmatch
    exact (selected_iff_agrees hfits (hsound doc hmatch)).mp ((hself doc hdoc).mp (hall doc hdoc hmatch))
  · intro hagrees
    have hall : ∀ doc ∈ docs, matchesWhere doc clause = true → doc.id.id ∈ ids := by
      intro doc hdoc hmatch
      exact (hself doc hdoc).mpr
        ((selected_iff_agrees hfits (hsound doc hmatch)).mpr (hagrees doc hdoc hmatch))
    refine ⟨hall, fun doc => ?_⟩
    rw [hfoundIff]
    constructor
    · rintro ⟨⟨hdoc, _⟩, hmatch⟩
      exact ⟨hdoc, hmatch⟩
    · rintro ⟨hdoc, hmatch⟩
      exact ⟨⟨hdoc, hall doc hdoc hmatch⟩, hmatch⟩

omit [Rmp] [CodeIntel] in
theorem index_read_loses_nothing_iff_ages :
    ∃ ids found, (runIndexPlan ages atLeastPlan).run (agesStore (.float ⟨0x403E000000000000⟩)) =
        (.ok ids, agesStore (.float ⟨0x403E000000000000⟩)) ∧
      (@candidates MsgPack.codec ages (some atLeast)).run (agesStore (.float ⟨0x403E000000000000⟩)) =
        (.ok found, agesStore (.float ⟨0x403E000000000000⟩)) ∧
      (((∀ doc ∈ [aged (.float ⟨0x403E000000000000⟩)], @matchesWhere noCodeIntel doc atLeast = true →
          doc.id.id ∈ ids) ∧
        ∀ doc, doc ∈ found ∧ @matchesWhere noCodeIntel doc atLeast = true ↔
          doc ∈ [aged (.float ⟨0x403E000000000000⟩)] ∧ @matchesWhere noCodeIntel doc atLeast = true) ↔
        ∀ doc ∈ [aged (.float ⟨0x403E000000000000⟩)], @matchesWhere noCodeIntel doc atLeast = true →
          IndexAgrees (.btree "by_a" ["a"] false) atLeastPlan doc) :=
  @index_read_loses_nothing_iff MsgPack.codec noCodeIntel ages regular_ages
    (agesStore (.float ⟨0x403E000000000000⟩)) [aged (.float ⟨0x403E000000000000⟩)] rfl
    (consistent_agesStore _) atLeast atLeastPlan rfl _ List.mem_cons_self rfl

omit [Rmp] [CodeIntel] in
/-- An integer above the float of the clause is encoded below it and is not found. -/
theorem index_read_misses_int_above_float :
    ages.Regular ∧ @Collection.Consistent MsgPack.codec ages (agesStore (.int 30)) ∧
      planIndexLookup ages.indexes atLeast = some atLeastPlan ∧
      (@Collection.scanAll MsgPack.codec ages).run (agesStore (.int 30)) =
        (.ok [aged (.int 30)], agesStore (.int 30)) ∧
      @matchesWhere noCodeIntel (aged (.int 30)) atLeast = true ∧
      (runIndexPlan ages atLeastPlan).run (agesStore (.int 30)) = (.ok [], agesStore (.int 30)) :=
  ⟨regular_ages, consistent_agesStore _, rfl, rfl, rfl, rfl⟩

/-- The ids of a covering plan are distinct ids of matching documents, so that their number is at
most the count of a full scan, exactly if the documents it selects are sound for it. -/
theorem covered_count_exact_iff {c : Collection} (hc : c.Regular) {s : Store} {docs : List Document}
    (hscan : c.scanAll.run s = (.ok docs, s)) (hs : c.Consistent s) {clause : WhereClause}
    {plan : IndexPlan} (hplan : planIndexLookup c.indexes clause = some plan)
    (hcovers : plan.covers = true) {idx : IndexDefinition}
    (hidx : idx ∈ c.indexes) (hname : idx.name = plan.indexName) :
    ∃ ids, (runIndexPlan c plan).run s = (.ok ids, s) ∧
      ((ids.Nodup ∧
        (∀ id ∈ ids, ∃ doc ∈ docs, doc.id.id = id ∧ matchesWhere doc clause = true) ∧
        ids.length ≤ (docs.filter fun doc => matchesWhere doc clause).length) ↔
        ∀ doc ∈ docs, Collection.Selected idx plan doc → IndexSound idx plan doc) := by
  obtain ⟨hfits, hsound, hcover⟩ := planFits_of_name hc hplan hidx hname
  obtain ⟨ids, hids, hnodup, hmem⟩ := hc.run_runIndexPlan hscan hs hidx hfits
  have hmatch : ∀ doc ∈ docs, Collection.Selected idx plan doc →
      (matchesWhere doc clause = true ↔ IndexSound idx plan doc) := by
    rintro doc hdoc ⟨values, hvalues, hsel⟩
    have htuple := (Index.collectIndexValues_iff hfits.fields).mp hvalues
    have hindexable := hs.indexable hscan hdoc hidx (hc.btree idx hidx) hvalues
    rw [← Tuple.planHolds_iff_sound htuple hindexable hfits hsel]
    exact ⟨hsound doc, hcover hcovers doc⟩
  refine ⟨ids, hids, ?_⟩
  constructor
  · rintro ⟨_, hall, _⟩ doc hdoc hsel
    obtain ⟨doc', hdoc', hid, hm⟩ := hall doc.id.id ((hmem _).mpr ⟨doc, hdoc, rfl, hsel⟩)
    rw [hc.eq_of_mem_scan hscan hdoc' hdoc hid] at hm
    exact (hmatch doc hdoc hsel).mp hm
  · intro hall
    have hexists : ∀ id ∈ ids, ∃ doc ∈ docs, doc.id.id = id ∧ matchesWhere doc clause = true := by
      intro id hid
      obtain ⟨doc, hdoc, hdid, hsel⟩ := (hmem id).mp hid
      exact ⟨doc, hdoc, hdid, (hmatch doc hdoc hsel).mpr (hall doc hdoc hsel)⟩
    refine ⟨hnodup, hexists, ?_⟩
    have hsubset : ids ⊆ (docs.filter fun doc => matchesWhere doc clause).map fun doc => doc.id.id := by
      intro id hid
      obtain ⟨doc, hdoc, hdid, hm⟩ := hexists id hid
      exact List.mem_map.mpr ⟨doc, List.mem_filter.mpr ⟨hdoc, hm⟩, hdid⟩
    simpa using (List.subperm_of_subset hnodup hsubset).length_le

omit [Rmp] [CodeIntel] in
theorem covered_count_exact_iff_ages :
    ∃ ids, (runIndexPlan ages atLeastPlan).run (agesStore (.float ⟨0x403E000000000000⟩)) =
        (.ok ids, agesStore (.float ⟨0x403E000000000000⟩)) ∧
      ((ids.Nodup ∧
        (∀ id ∈ ids, ∃ doc ∈ [aged (.float ⟨0x403E000000000000⟩)], doc.id.id = id ∧
          @matchesWhere noCodeIntel doc atLeast = true) ∧
        ids.length ≤ ([aged (.float ⟨0x403E000000000000⟩)].filter fun doc =>
          @matchesWhere noCodeIntel doc atLeast).length) ↔
        ∀ doc ∈ [aged (.float ⟨0x403E000000000000⟩)],
          Collection.Selected (.btree "by_a" ["a"] false) atLeastPlan doc →
          IndexSound (.btree "by_a" ["a"] false) atLeastPlan doc) :=
  @covered_count_exact_iff MsgPack.codec noCodeIntel ages regular_ages
    (agesStore (.float ⟨0x403E000000000000⟩)) [aged (.float ⟨0x403E000000000000⟩)] rfl
    (consistent_agesStore _) atLeast atLeastPlan rfl rfl _ List.mem_cons_self rfl

omit [Rmp] [CodeIntel] in
/-- Booleans have an order in the index but none in the clause. -/
theorem covered_count_answers_bool_range :
    ages.Regular ∧ @Collection.Consistent MsgPack.codec ages (agesStore (.bool true)) ∧
      planIndexLookup ages.indexes aboveFalse = some aboveFalsePlan ∧ aboveFalsePlan.covers = true ∧
      (@Collection.scanAll MsgPack.codec ages).run (agesStore (.bool true)) =
        (.ok [aged (.bool true)], agesStore (.bool true)) ∧
      (runIndexPlan ages aboveFalsePlan).run (agesStore (.bool true)) =
        (.ok ["r"], agesStore (.bool true)) ∧
      @matchesWhere noCodeIntel (aged (.bool true)) aboveFalse = false :=
  ⟨regular_ages, consistent_agesStore _, rfl, rfl, rfl, rfl, rfl⟩

end Reads

end Dllb
