import Mathlib
import Dllb.Document.IndexConsistency

/-! # Tuples of a unique index

When two documents share the tuple of an index, what a merge does to that, and
what the check of `CREATE` finds out.
-/

namespace Dllb

set_option autoImplicit false

/-! ## Tuples shared by two documents -/

namespace Index

/-- Both documents have the complete tuple of the index, and the tuples are encoded alike. -/
def SameTuple (idx : IndexDefinition) (doc doc' : Document) : Prop :=
  ∃ us vs part, collectIndexValues doc idx = some us ∧ collectIndexValues doc' idx = some vs ∧
    encodeCompositeKeyPart us = .ok part ∧ encodeCompositeKeyPart vs = .ok part

theorem SameTuple.symm {idx : IndexDefinition} {doc doc' : Document} (h : SameTuple idx doc doc') :
    SameTuple idx doc' doc := by
  obtain ⟨us, vs, part, hus, hvs, hpart, hpart'⟩ := h
  exact ⟨vs, us, part, hvs, hus, hpart', hpart⟩

theorem collectValues_cons_eq_some_iff {doc : Document} {field : String} {fields : List String}
    {values : List Value} :
    collectValues doc (field :: fields) = some values ↔ ∃ v rest, doc.fields[field]? = some v ∧
      v.isNone = false ∧ collectValues doc fields = some rest ∧ values = v :: rest := by
  rw [collectValues]
  constructor
  · intro h
    split at h
    · rename_i v hv
      split at h
      · cases h
      · rename_i hnone
        obtain ⟨rest, hrest, rfl⟩ := Option.map_eq_some_iff.mp h
        exact ⟨v, rest, hv, by simpa using hnone, hrest, rfl⟩
    · cases h
  · rintro ⟨v, rest, hv, hnone, hrest, rfl⟩
    simp [hv, hnone, hrest]

theorem Indexable.isNone {v : Value} (h : Indexable v) : v.isNone = false := by
  cases v <;> first | rfl | exact absurd h (by decide)

/-- The two lists of values can be indexed and have the same raw encodings. -/
def SameRaw (us vs : List Value) : Prop :=
  (∀ v ∈ us, Indexable v) ∧ (∀ v ∈ vs, Indexable v) ∧ us.map rawOf = vs.map rawOf

theorem sameRaw_iff {us vs : List Value} (hlen : us.length = vs.length) :
    (∃ part, encodeCompositeKeyPart us = .ok part ∧ encodeCompositeKeyPart vs = .ok part) ↔
      SameRaw us vs := by
  constructor
  · rintro ⟨part, hus, hvs⟩
    obtain ⟨hall, rfl⟩ := indexable_of_encodeCompositeKeyPart hus
    obtain ⟨hall', heq⟩ := indexable_of_encodeCompositeKeyPart hvs
    have happend := (tupleCode_append_eq_iff hlen [] []).mp (by rw [heq])
    exact ⟨hall, hall', happend.1⟩
  · rintro ⟨hus, hvs, hraw⟩
    refine ⟨tupleCode us, encodeCompositeKeyPart_of_indexable hus, ?_⟩
    rw [encodeCompositeKeyPart_of_indexable hvs, tupleCode, tupleCode, hraw]

theorem sameRaw_cons_iff {u v : Value} {us vs : List Value} :
    SameRaw (u :: us) (v :: vs) ↔ (Indexable u ∧ Indexable v ∧ rawOf u = rawOf v) ∧ SameRaw us vs := by
  simp only [SameRaw, List.forall_mem_cons, List.map_cons, List.cons.injEq]
  tauto

theorem exists_collectValues_sameRaw_iff {doc doc' : Document} {fields : List String} :
    (∃ us vs, collectValues doc fields = some us ∧ collectValues doc' fields = some vs ∧ SameRaw us vs) ↔
      ∀ field ∈ fields, ∃ u v, doc.fields[field]? = some u ∧ doc'.fields[field]? = some v ∧
        Indexable u ∧ Indexable v ∧ rawOf u = rawOf v := by
  induction fields with
  | nil => exact iff_of_true ⟨[], [], rfl, rfl, by simp [SameRaw]⟩ (by simp)
  | cons field fields ih =>
    rw [List.forall_mem_cons, ← ih]
    constructor
    · rintro ⟨us, vs, hus, hvs, hraw⟩
      obtain ⟨u, us', hu, _, hus', rfl⟩ := collectValues_cons_eq_some_iff.mp hus
      obtain ⟨v, vs', hv, _, hvs', rfl⟩ := collectValues_cons_eq_some_iff.mp hvs
      obtain ⟨hhead, htail⟩ := sameRaw_cons_iff.mp hraw
      exact ⟨⟨u, v, hu, hv, hhead⟩, us', vs', hus', hvs', htail⟩
    · rintro ⟨⟨u, v, hu, hv, hiu, hiv, huv⟩, us, vs, hus, hvs, hraw⟩
      exact ⟨u :: us, v :: vs, collectValues_cons_eq_some_iff.mpr ⟨u, us, hu, hiu.isNone, hus, rfl⟩,
        collectValues_cons_eq_some_iff.mpr ⟨v, vs, hv, hiv.isNone, hvs, rfl⟩,
        sameRaw_cons_iff.mpr ⟨⟨hiu, hiv, huv⟩, hraw⟩⟩

/-- Field by field: both documents hold an indexable value, and the raw encodings agree. -/
theorem sameTuple_iff {idx : IndexDefinition} {doc doc' : Document} :
    SameTuple idx doc doc' ↔ idx.fields ≠ [] ∧ ∀ field ∈ idx.fields, ∃ u v,
      doc.fields[field]? = some u ∧ doc'.fields[field]? = some v ∧ Indexable u ∧ Indexable v ∧
        rawOf u = rawOf v := by
  rw [← exists_collectValues_sameRaw_iff]
  constructor
  · rintro ⟨us, vs, part, hus, hvs, hpart, hpart'⟩
    obtain ⟨hlen, hpos⟩ := collectIndexValues_length hus
    have hne : idx.fields ≠ [] := List.ne_nil_of_length_pos hpos
    have hlen' : us.length = vs.length := hlen.trans (collectIndexValues_length hvs).1.symm
    rw [collectIndexValues, if_neg (by simpa using hne)] at hus hvs
    exact ⟨hne, us, vs, hus, hvs, (sameRaw_iff hlen').mp ⟨part, hpart, hpart'⟩⟩
  · rintro ⟨hne, us, vs, hus, hvs, hraw⟩
    have hlen : us.length = vs.length := (collectValues_length hus).trans (collectValues_length hvs).symm
    obtain ⟨part, hpart, hpart'⟩ := (sameRaw_iff hlen).mpr hraw
    refine ⟨us, vs, part, ?_, ?_, hpart, hpart'⟩
    · rwa [collectIndexValues, if_neg (by simpa using hne)]
    · rwa [collectIndexValues, if_neg (by simpa using hne)]

end Index

theorem Fields.getElem?_foldl_insert_of_notMem {l : List (String × Value)} {field : String}
    (h : field ∉ l.map Prod.fst) (old : Fields) :
    (l.foldl (fun fs kv => fs.insert kv.1 kv.2) old)[field]? = old[field]? := by
  induction l generalizing old with
  | nil => rfl
  | cons kv l ih =>
    simp only [List.map_cons, List.mem_cons, not_or] at h
    rw [List.foldl_cons, ih h.2, getElem?_insert_string, if_neg (Ne.symm h.1)]

theorem Fields.getElem?_foldl_insert_of_mem {l : List (String × Value)}
    (hkeys : l.Pairwise fun a b => a.1 ≠ b.1) {field : String} {v : Value} (h : (field, v) ∈ l)
    (old : Fields) : (l.foldl (fun fs kv => fs.insert kv.1 kv.2) old)[field]? = some v := by
  induction l generalizing old with
  | nil => cases h
  | cons kv l ih =>
    obtain ⟨hfresh, hkeys⟩ := List.pairwise_cons.mp hkeys
    rw [List.foldl_cons]
    rcases List.mem_cons.mp h with rfl | h
    · have hnotMem : field ∉ l.map Prod.fst := by
        intro hmem
        obtain ⟨kv, hkv, heq⟩ := List.mem_map.mp hmem
        exact hfresh kv hkv heq.symm
      rw [Fields.getElem?_foldl_insert_of_notMem hnotMem, getElem?_insert_string, if_pos rfl]
    · exact ih hkeys h _

theorem Collection.getElem?_mergeFields (old update : Fields) (field : String) :
    (Collection.mergeFields old update)[field]? = update[field]?.or old[field]? := by
  have hkeys : update.toList.Pairwise fun a b => a.1 ≠ b.1 := by
    refine (Std.ExtTreeMap.distinct_keys_toList (t := update)).imp fun {a b} h heq => h ?_
    rw [heq]
    exact Std.ReflCmp.compare_self
  cases h : update[field]? with
  | some v =>
    exact Fields.getElem?_foldl_insert_of_mem hkeys
      (Std.ExtTreeMap.mem_toList_iff_getElem?_eq_some.mpr h) old
  | none =>
    refine Fields.getElem?_foldl_insert_of_notMem ?_ old
    intro hmem
    obtain ⟨⟨k, v⟩, hkv, rfl⟩ := List.mem_map.mp hmem
    rw [Std.ExtTreeMap.mem_toList_iff_getElem?_eq_some.mp hkv] at h
    cases h

/-- What an update gives one document and another already has, the update gives both. -/
theorem Index.SameTuple.merge {idx : IndexDefinition} {r r' : RecordId} {old old' update : Fields}
    (h : SameTuple idx ⟨r, Collection.mergeFields old update⟩ ⟨r', old'⟩) :
    SameTuple idx ⟨r, Collection.mergeFields old update⟩ ⟨r', Collection.mergeFields old' update⟩ := by
  obtain ⟨hne, h⟩ := sameTuple_iff.mp h
  refine sameTuple_iff.mpr ⟨hne, fun field hfield => ?_⟩
  obtain ⟨u, v, hu, hv, hiu, hiv, huv⟩ := h field hfield
  dsimp only at hu hv ⊢
  rw [Collection.getElem?_mergeFields] at hu ⊢
  rw [Collection.getElem?_mergeFields, hv]
  cases hup : update[field]? with
  | none =>
    rw [hup] at hu
    exact ⟨u, v, hu, rfl, hiu, hiv, huv⟩
  | some w =>
    rw [hup] at hu
    cases hu
    exact ⟨u, u, rfl, rfl, hiu, hiu, rfl⟩

/-! ## The unique check -/

namespace Collection

theorem checkUnique_eq_ok {c : Collection} {doc : Document} {id : String} {indexes : List IndexDefinition}
    {s : Store} (h : (c.checkUnique doc id indexes).run s = (.ok (), s)) :
    ∀ idx ∈ indexes, (c.checkUniqueIndex doc id idx).run s = (.ok (), s) := by
  induction indexes with
  | nil => simp
  | cons idx indexes ih =>
    rw [checkUnique] at h
    rcases (c.readOnly_checkUniqueIndex doc id idx).run_bind_cases h with ⟨_, _, he, _⟩ | ⟨_, hidx, h⟩
    · cases he
    · exact List.forall_mem_cons.mpr ⟨hidx, ih h⟩

/-- A check that passes has met no entry with the tuple of the document, other than its own. -/
theorem not_sameTuple_of_checkUniqueIndex {c : Collection} {doc doc' : Document} {id : String}
    {idx : IndexDefinition} (hunique : idx.unique = true) {s : Store}
    (h : (c.checkUniqueIndex doc id idx).run s = (.ok (), s)) (hne : doc'.id.id ≠ id)
    (hentry : ∀ values, Index.collectIndexValues doc' idx = some values →
      Index.entryKey c.ns c.db c.table idx.name values doc'.id.id ∈ s) :
    ¬ Index.SameTuple idx doc doc' := by
  rintro ⟨us, vs, part, hus, hvs, hpart, hpart'⟩
  obtain ⟨hlen, hpos⟩ := Index.collectIndexValues_length hus
  have hlen' := (Index.collectIndexValues_length hvs).1
  obtain ⟨hius, hcode⟩ := Index.indexable_of_encodeCompositeKeyPart hpart
  let e : Index.Entry idx.fields.length := ⟨vs, doc'.id.id, part, hlen', hpart'⟩
  have hkey : e.key (c.region idx) = Index.entryKey c.ns c.db c.table idx.name vs doc'.id.id := by
    rw [Index.Entry.key, e.part_eq]
    rfl
  have hscan : Index.InScan (c.region idx ++ Index.tupleCode us) none none (e.key (c.region idx)) := by
    refine (Index.inScan_key_iff (c.prefixEnd_region_append_ne_nil idx) hlen.le (fun _ => ⟨rfl, rfl⟩) e).mpr
      ⟨?_, fun _ _ => ⟨trivial, trivial⟩⟩
    have htake : e.values.take us.length = vs := List.take_of_length_le (hlen'.trans hlen.symm).le
    rw [htake]
    exact ((Index.sameRaw_iff (hlen'.trans hlen.symm)).mp ⟨part, hpart', hpart⟩).2.2
  have hmem : e.key (c.region idx) ∈ s.scanPrefixKeys (c.region idx) := by
    refine (Store.mem_scanPrefixKeys_iff (c.prefixEnd_region_ne_nil idx)).mpr ⟨?_, ?_⟩
    · rw [hkey]
      exact hentry vs hvs
    · rw [Index.Entry.key, List.append_assoc]
      exact List.prefix_append ..
  rw [checkUniqueIndex, if_pos hunique, hus] at h
  dsimp only at h
  rw [Index.checkUniqueConstraint, if_neg (by simp [hunique]),
    Prog.run_bind_ok (Index.run_findIds c.ns c.db c.table idx.name hius (show Index.BoundIndexable none by
      rintro _ ⟨⟩) (show Index.BoundIndexable none by rintro _ ⟨⟩) idx.fields.length s)] at h
  have hid : doc'.id.id ∈ ((s.scanPrefixKeys (c.region idx)).filter fun k =>
      decide (Index.InScan (c.region idx ++ Index.tupleCode us) none none k)).filterMap
        fun k => Index.idFromEntry k (c.region idx).length idx.fields.length :=
    List.mem_filterMap.mpr ⟨_, List.mem_filter.mpr ⟨hmem, by simpa using hscan⟩,
      e.idFromEntry_key hpos (c.region idx)⟩
  split at h
  · cases h
  · rename_i hfind
    exact absurd (List.find?_eq_none.mp hfind _ hid) (by simpa using hne)

end Collection

end Dllb
