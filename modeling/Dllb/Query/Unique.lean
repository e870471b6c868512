import Mathlib
import Dllb.Query.IndexReads
import Dllb.Query.Guarded

/-! # Unique indexes

`CREATE` and `DEFINE INDEX` check what a unique index promises; merges and
batches do not. In a run in which no merge and no batch gives a record the
tuple of another one, every unique index of the catalog is unique.
-/

namespace Dllb

set_option autoImplicit false

/-! ## Updates of a table -/

namespace Collection

variable [Rmp]

theorem Regular.pairwise_decodeAll {c : Collection} (hc : c.Regular) {kvs : List PutOp}
    {docs : List Document} (h : c.decodeAll kvs = .ok docs) (hkvs : ∀ kv ∈ kvs, c.documents <+: kv.1)
    (hkeys : kvs.Pairwise fun a b => a.1 ≠ b.1) :
    docs.Pairwise (fun doc doc' => doc.id.id ≠ doc'.id.id) ∧
      ∀ doc ∈ docs, ∃ kv ∈ kvs, kv.1 = c.docKey doc.id.id := by
  induction kvs generalizing docs with
  | nil =>
    cases h
    exact ⟨.nil, by simp⟩
  | cons kv kvs ih =>
    obtain ⟨k, b⟩ := kv
    obtain ⟨hdocument, hkvs⟩ := List.forall_mem_cons.mp hkvs
    obtain ⟨hfresh, hkeys⟩ := List.pairwise_cons.mp hkeys
    rw [decodeAll] at h
    cases hid : idOfKey k with
    | error e => rw [hid] at h; cases h
    | ok id =>
      cases hf : Rmp.fromSlice b with
      | error e => simp [hid, deserialize, hf, bind, Except.bind] at h
      | ok fields =>
        cases hrest : c.decodeAll kvs with
        | error e => simp [hid, deserialize, hf, hrest, bind, Except.bind] at h
        | ok rest =>
          simp only [hid, deserialize, hf, hrest, bind, Except.bind] at h
          cases h
          obtain ⟨hpairs, hmem⟩ := ih hrest hkvs hkeys
          have hk := hc.docKey_of_idOfKey hdocument hid
          refine ⟨List.pairwise_cons.mpr ⟨?_, hpairs⟩, List.forall_mem_cons.mpr ⟨?_, ?_⟩⟩
          · intro doc hdoc heq
            obtain ⟨kv, hkv, hkey⟩ := hmem doc hdoc
            refine hfresh kv hkv (hk.trans ?_)
            rw [hkey]
            exact congrArg c.docKey heq
          · exact ⟨(k, b), List.mem_cons_self, hk⟩
          · intro doc hdoc
            obtain ⟨kv, hkv, hkey⟩ := hmem doc hdoc
            exact ⟨kv, List.mem_cons_of_mem _ hkv, hkey⟩

/-- A scan reads no record twice. -/
theorem Regular.pairwise_scanAll {c : Collection} (hc : c.Regular) {s : Store} {docs : List Document}
    (h : c.scanAll.run s = (.ok docs, s)) : docs.Pairwise fun doc doc' => doc.id.id ≠ doc'.id.id := by
  have hdecode : c.decodeAll (s.prefixScan c.documents) = .ok docs := by
    rw [scanAll, Db.prefixScan, Prog.run_query_bind, Prog.run_lift] at h
    exact congrArg Prod.fst h
  refine (hc.pairwise_decodeAll hdecode ?_ ((s.pairwise_scan _ _).imp fun hlt => ne_of_lt hlt)).1
  rintro ⟨k, b⟩ hkb
  exact ((Store.mem_prefixScan_iff c.prefixEnd_documents_ne_nil).mp hkb).2

end Collection

namespace QueryExecutor

variable [Rmp] [CodeIntel]

/-! ## Requests that give no record the tuple of another -/

/-- The fields a request gives a record without looking at the unique indexes: those of a merge, and
those of any statement of a batch. -/
def Intends (ex : QueryExecutor) (s : Store) : Request → RecordRef → Fields → Prop
  | .statement i, r, fields =>
    match i.stmt with
    | .update (.record r') assignments _ =>
      r = r' ∧ ∃ old, ex.stored s r = some old ∧ fields = Collection.mergeFields old (assigned assignments)
    | .update (.table table) assignments filter =>
      r.table = table ∧ ∃ old, ex.stored s r = some old ∧
        filter.all (matchesWhere ⟨⟨r.table, r.id⟩, old⟩) = true ∧
        fields = Collection.mergeFields old (assigned assignments)
    | .create _ _ _ _ =>
      recordOf i = some r ∧ (ex.taken s i).isSome = true ∧ fields = ex.given s i
    | _ => False
  | .batch stmts, r, fields => ex.lastGiven s stmts r = some fields

/-- What a record holds once the request has given its fields. -/
def Ends (ex : QueryExecutor) (s : Store) (req : Request) (r : RecordRef) (fields : Fields) : Prop :=
  ex.Intends s req r fields ∨ (∀ given, ¬ ex.Intends s req r given) ∧ ex.stored s r = some fields

/-- No record comes to share a tuple of a unique index through fields it is given unchecked. -/
def Clear (ex : QueryExecutor) (s : Store) (req : Request) : Prop :=
  ∀ table idx, Index.InCatalog ex.ns ex.db table s idx → idx.unique = true →
    ∀ id id' fields fields', id ≠ id' → ex.Intends s req ⟨table, id⟩ fields →
      ex.Ends s req ⟨table, id'⟩ fields' →
        ¬ Index.SameTuple idx ⟨⟨table, id⟩, fields⟩ ⟨⟨table, id'⟩, fields'⟩

theorem Guarded.updateRows {ex : QueryExecutor} {table : String} {defs : List IndexDefinition}
    {update : Fields} {filter : Option WhereClause} {req : Request} {s₀ : Store}
    (hclear : ex.Clear s₀ req)
    (hintends : ∀ id fields, ex.Intends s₀ req ⟨table, id⟩ fields →
      ∃ old, ex.stored s₀ ⟨table, id⟩ = some old ∧ fields = Collection.mergeFields old update)
    {docs : List Document} {matched : Nat} {s s' : Store} {r : Result Nat}
    (hrun : (updateRows (ex.collection table defs) update filter docs matched).run s = (r, s'))
    (hmeta : Index.SameMetadata ex.ns ex.db table s₀ s) (hc : (ex.collection table defs).Catalogued s)
    (h : ex.Guarded table s)
    (hcur : ∀ id fields, ex.stored s ⟨table, id⟩ = some fields →
      ex.Intends s₀ req ⟨table, id⟩ fields ∨ ex.stored s₀ ⟨table, id⟩ = some fields)
    (hdocs : ∀ doc ∈ docs, ex.stored s ⟨table, doc.id.id⟩ = some doc.fields ∧
      (filter.all (matchesWhere doc) = true →
        ex.Intends s₀ req ⟨table, doc.id.id⟩ (Collection.mergeFields doc.fields update)))
    (hpairs : docs.Pairwise fun doc doc' => doc.id.id ≠ doc'.id.id) : ex.Guarded table s' := by
  induction docs generalizing matched s with
  | nil =>
    cases hrun
    exact h
  | cons doc docs ih =>
    obtain ⟨⟨hstored, hgive⟩, hdocs⟩ := List.forall_mem_cons.mp hdocs
    obtain ⟨hfresh, hpairs⟩ := List.pairwise_cons.mp hpairs
    rw [QueryExecutor.updateRows] at hrun
    split at hrun
    · rename_i hmatch
      have hgive := hgive hmatch
      -- What the row is given clashes with no record as it is now: those met before hold what they
      -- were given, and the others would be given the same tuple later on.
      have hno : ex.NoClash table s doc.id.id (Collection.mergeFields doc.fields update) := by
        intro idx hidx hunique id' fields' hne hstored' hsame
        have hidx := (hmeta.inCatalog_iff idx).mp hidx
        rcases hcur id' fields' hstored' with hnew | hold
        · exact hclear table idx hidx hunique _ _ _ _ hne hgive (.inl hnew) hsame
        · by_cases hany : ∃ given, ex.Intends s₀ req ⟨table, id'⟩ given
          · obtain ⟨given, hgiven⟩ := hany
            obtain ⟨old, hold', rfl⟩ := hintends id' given hgiven
            obtain rfl : fields' = old := Option.some.inj (hold.symm.trans hold')
            exact hclear table idx hidx hunique _ _ _ _ hne hgive (.inl hgiven) hsame.merge
          · exact hclear table idx hidx hunique _ _ _ _ hne hgive
              (.inr ⟨fun given hgiven => hany ⟨given, hgiven⟩, hold⟩) hsame
      have hafter : ∀ {s₁ : Store} {x : Result Unit},
          ((ex.collection table defs).merge doc.id.id update).run s = (x, s₁) →
          s₁ = s ∨ (ex.collection table defs).Replaced doc.id.id (some doc.fields)
            (some (Collection.mergeFields doc.fields update)) s s₁ := by
        intro s₁ x hmerge
        rw [Collection.merge_eq_modify] at hmerge
        rcases Collection.modify_step hmerge with hs | ⟨old, hrep⟩
        · exact .inl hs
        · obtain rfl : old = doc.fields :=
            Collection.Stored.unique hrep.before ((stored_eq_some_iff defs).mp hstored)
          exact .inr hrep
      rcases Prog.run_bind_cases hrun with ⟨_, hmerge, _⟩ | ⟨_, s₁, hmerge, hrest⟩
      · rcases hafter hmerge with rfl | hrep
        · exact h
        · exact h.replaced hc hrep fun fields hf => by
            cases hf
            exact hno
      · rcases hafter hmerge with rfl | hrep
        · exact ih hrest hmeta hc h hcur hdocs hpairs
        · have hsame := hrep.sameMetadata hc.regular.table hc.regular.table
          refine ih hrest (fun r => (hsame r).trans (hmeta r)) (hc.congr hsame) ?_ ?_ ?_ hpairs
          · exact h.replaced hc hrep fun fields hf => by
              cases hf
              exact hno
          · intro id fields hfields
            have hfields := (stored_eq_some_iff defs).mp hfields
            by_cases hid : id = doc.id.id
            · subst hid
              cases (hrep.after.stored_iff fields).mp hfields
              exact .inl hgive
            · exact hcur id fields ((stored_eq_some_iff defs).mpr ((hrep.stored_other hid fields).mp hfields))
          · intro doc' hdoc'
            obtain ⟨hstored', hgive'⟩ := hdocs doc' hdoc'
            refine ⟨?_, hgive'⟩
            have hother := hrep.stored_other (hfresh doc' hdoc').symm doc'.fields
            exact (stored_eq_some_iff defs).mpr (hother.mpr ((stored_eq_some_iff defs).mp hstored'))
    · exact ih hrun hmeta hc h hcur hdocs hpairs

/-! ## Every request keeps the invariant -/

/-- The invariant of every table. -/
def AllGuarded (ex : QueryExecutor) (s : Store) : Prop := ∀ table, Key.NulFree table → ex.Guarded table s

omit [CodeIntel] in
theorem AllGuarded.steps {ex : QueryExecutor} {s s' : Store} (h : ex.AllGuarded s) {table : String}
    {defs : List IndexDefinition} (hc : (ex.collection table defs).Catalogued s)
    {Q : Store → String → Option Fields → Prop}
    (hQ : ∀ s id fields, Q s id (some fields) → ex.NoClash table s id fields)
    (hsteps : (ex.collection table defs).Steps Q s s') : ex.AllGuarded s' := by
  induction hsteps with
  | refl s => exact h
  | @step s s₁ s₂ id old new hrep meets _ ih =>
    have htable := hc.regular.table
    refine ih ?_ (hc.congr (hrep.sameMetadata htable htable))
    intro table' htable'
    by_cases heq : table' = table
    · subst heq
      exact (h table' htable').replaced hc hrep fun fields hf => hQ s id fields (hf ▸ meets)
    · exact (h table' htable').frame fun t _ r => hrep.frame htable htable' (.inl heq) r

omit [CodeIntel] in
theorem AllGuarded.collects {ex : QueryExecutor} (hex : ex.Regular) {s : Store} (hs : ex.CatalogsOk s)
    (h : ex.AllGuarded s) {stmts : List Issued} {st : BatchState} (hst : Collects ex s stmts st)
    (hnamed : ∀ i ∈ stmts, i.stmt.Named)
    (hclear : ∀ table idx, Index.InCatalog ex.ns ex.db table s idx → idx.unique = true →
      ∀ id id' fields fields', id ≠ id' → ex.lastGiven s stmts ⟨table, id⟩ = some fields →
        (ex.lastGiven s stmts ⟨table, id'⟩).or (ex.stored s ⟨table, id'⟩) = some fields' →
          ¬ Index.SameTuple idx ⟨⟨table, id⟩, fields⟩ ⟨⟨table, id'⟩, fields'⟩) :
    ex.AllGuarded (s.writeBatch st.puts st.deletes) := by
  intro table htable
  refine (h table htable).gives (hst.gives hex hs hnamed htable) ?_
  intro idx hidx hunique id fields hlast id' fields' hne hstored
  rw [hst.stored hnamed htable] at hstored
  exact hclear table idx hidx hunique id id' fields fields' hne hlast hstored

omit [CodeIntel] in
/-- A created record passes the check of the code. -/
theorem Guarded.noClash_of_checkUnique {ex : QueryExecutor} {s : Store} {table : String}
    (h : ex.Guarded table s) {defs : List IndexDefinition}
    (hc : (ex.collection table defs).Catalogued s) {id : String} {fields : Fields}
    (hcheck : ((ex.collection table defs).checkUnique ⟨⟨table, id⟩, fields⟩ id defs).run s = (.ok (), s)) :
    ex.NoClash table s id fields := by
  intro idx hidx hunique id' fields' hne hstored
  have hmem : idx ∈ defs := (hc.mem_iff idx).mpr hidx
  exact Collection.not_sameTuple_of_checkUniqueIndex hunique
    (Collection.checkUnique_eq_ok hcheck idx hmem) (Ne.symm hne)
    (fun values hvalues => h.covered idx hidx id' fields' values hstored hvalues)

theorem AllGuarded.create {ex : QueryExecutor} (hex : ex.Regular) {s : Store} (hs : ex.CatalogsOk s)
    (h : ex.AllGuarded s) {i : Issued} (hnamed : i.stmt.Named) (hclear : ex.Clear s (.statement i))
    {a : BatchState} (ha : ex.alone s i = .ok a) (hadmitted : ex.Admitted s i) :
    ex.AllGuarded (s.writeBatch a.puts a.deletes) := by
  refine h.collects hex hs (collects_singleton ha) (by simpa using hnamed) ?_
  intro table idx hidx hunique id id' fields fields' hne hlast hends
  simp only [lastGiven, Option.none_or, Option.ite_none_right_eq_some, Option.some.injEq] at hlast hends
  obtain ⟨hrecord, rfl⟩ := hlast
  have hother : recordOf i ≠ some ⟨table, id'⟩ := by
    rw [hrecord]
    simpa using hne
  rw [if_neg hother, Option.none_or] at hends
  have hstmt : ∃ t explicit assignments conflict, i.stmt = .create t explicit assignments conflict := by
    unfold recordOf at hrecord
    split at hrecord
    · exact ⟨_, _, _, _, by assumption⟩
    · cases hrecord
  obtain ⟨t, explicit, assignments, conflict, hstmt⟩ := hstmt
  cases htaken : ex.taken s i with
  | none =>
    have htable : Key.NulFree table := nulFree_of_recordOf hnamed hrecord
    obtain ⟨_, hcheck⟩ := hadmitted _ hrecord htaken
    obtain ⟨defs, hload, _, hc⟩ := hs.load hex htable
    exact (h table htable).noClash_of_checkUnique hc (hcheck defs hload) idx hidx hunique id' fields' hne hends
  | some old =>
    refine hclear table idx hidx hunique id id' _ _ hne ?_ (.inr ⟨?_, hends⟩)
    · simp [Intends, hstmt, hrecord, htaken]
    · intro given hgiven
      simp only [Intends, hstmt] at hgiven
      exact hother hgiven.1

omit [CodeIntel] in
theorem AllGuarded.define {ex : QueryExecutor} (hex : ex.Regular) {s : Store} (h : ex.AllGuarded s)
    {name table : String} (htable : Key.NulFree table) {fields : List String} {unique : Bool}
    {docs : List Document} {puts : List PutOp} {b : Bytes}
    (hdocs : (Collection.new ex.ns ex.db table).scanAll.run s = (.ok docs, s))
    (hputs : backfill ex.ns ex.db table (.btree name fields unique) docs [] = .ok puts)
    (hb : Rmp.definitionToVec (.btree name fields unique) = .ok b) :
    ex.AllGuarded (s.writeBatch ((Key.indexCatalogKey ex.ns ex.db table name, b) :: puts) []) := by
  have hregular : (Collection.new ex.ns ex.db table).Regular :=
    ⟨hex.ns, hex.db, htable, by simp [Collection.new], by simp [Collection.new], .nil⟩
  obtain ⟨hputsEq, _, hpairs⟩ := backfill_eq_ok hputs
  obtain ⟨_, hmem⟩ := hregular.mem_of_scanAll hdocs
  have hkeep : ∀ k ∈ s, k ∈ s.writeBatch ((Key.indexCatalogKey ex.ns ex.db table name, b) :: puts) [] := by
    intro k hk
    exact (Store.mem_writeBatch_iff ..).mpr (.inr ⟨by simp, hk⟩)
  intro table' htable'
  by_cases heq : table' = table
  swap
  · exact (h table' htable').frame fun t _ r => getElem?_define_apart htable hputs s b htable' (.inl heq) r
  subst heq
  have hstored : ∀ id, ex.stored (s.writeBatch ((Key.indexCatalogKey ex.ns ex.db table' name, b) :: puts) [])
      ⟨table', id⟩ = ex.stored s ⟨table', id⟩ :=
    stored_congr (getElem?_define_apart htable hputs s b htable (.inr ⟨by decide, by decide⟩))
  have hscanned : ∀ {id f}, ex.stored s ⟨table', id⟩ = some f → (⟨⟨table', id⟩, f⟩ : Document) ∈ docs :=
    fun hf => (hmem _).mpr ⟨rfl, (stored_eq_some_iff []).mp hf⟩
  refine ⟨?_, ?_⟩
  · intro idx hidx id f values hf hvalues
    rw [hstored] at hf
    rcases (inCatalog_define htable hputs hb s idx).mp hidx with rfl | ⟨_, hold⟩
    · refine (Store.mem_writeBatch_iff ..).mpr (.inl (List.mem_cons_of_mem _ ?_))
      rw [hputsEq, List.map_flatMap, List.mem_flatMap]
      refine ⟨_, hscanned hf, List.mem_map.mpr ⟨(_, []), Index.mem_entriesOf_iff.mpr ?_, rfl⟩⟩
      exact ⟨_, List.mem_singleton.mpr rfl, rfl, values, hvalues, rfl⟩
    · exact hkeep _ ((h table' htable).covered idx hold id f values hf hvalues)
  · intro idx hidx hunique id id' f f' hne hf hf'
    rw [hstored] at hf hf'
    rcases (inCatalog_define htable hputs hb s idx).mp hidx with rfl | ⟨_, hold⟩
    · rintro ⟨us, vs, part, hus, hvs, hpart, hpart'⟩
      have hsymm : Std.Symm fun doc doc' : Document => ∀ us vs part,
          Index.collectIndexValues doc (.btree name fields unique) = some us →
          Index.collectIndexValues doc' (.btree name fields unique) = some vs →
          Index.encodeCompositeKeyPart us = .ok part → Index.encodeCompositeKeyPart vs ≠ .ok part :=
        ⟨fun _ _ hno us vs part hus hvs hpart hpart' => hno vs us part hvs hus hpart' hpart⟩
      have hdiff : (⟨⟨table', id⟩, f⟩ : Document) ≠ ⟨⟨table', id'⟩, f'⟩ := by
        intro heq
        exact hne (congrArg (fun doc : Document => doc.id.id) heq)
      exact (hpairs hunique).2.forall (hscanned hf) (hscanned hf') hdiff us vs part hus hvs hpart hpart'
    · exact (h table' htable).unique idx hold hunique id id' f f' hne hf hf'

omit [CodeIntel] in
theorem AllGuarded.remove {ex : QueryExecutor} {s : Store} (hs : ex.CatalogsOk s) (h : ex.AllGuarded s)
    {name table : String} (hname : Key.NulFree name) (htable : Key.NulFree table) :
    ex.AllGuarded (s.writeBatch [] (s.scanPrefixKeys (Key.indexPrefix ex.ns ex.db table name) ++
      [Key.indexCatalogKey ex.ns ex.db table name])) := by
  have hend : Key.prefixEnd (Key.indexPrefix ex.ns ex.db table name) ≠ [] :=
    (ex.collection table []).prefixEnd_region_ne_nil (.btree name [] false)
  generalize hdel : s.scanPrefixKeys (Key.indexPrefix ex.ns ex.db table name) ++
    [Key.indexCatalogKey ex.ns ex.db table name] = deletes
  have hmem : ∀ {table' : String}, Key.NulFree table' → ∀ {t r},
      Key.tablePrefix ex.ns ex.db table' t ++ r ∈ deletes → table' = table ∧
        (t = Key.Tag.index ∧ asBytes name ++ [Key.separator] <+: r ∨
          t = Key.Tag.metadata ∧ r = Key.idx ++ [Key.separator] ++ asBytes name) := by
    intro table' htable' t r hk
    rw [← hdel, List.mem_append, List.mem_singleton] at hk
    rcases hk with hk | hk
    · obtain ⟨rest, hrest⟩ := ((Store.mem_scanPrefixKeys_iff hend).mp hk).2
      rw [Key.indexPrefix_eq, List.append_assoc] at hrest
      obtain ⟨heq, ht, hr⟩ := (Key.tablePrefix_append_inj_table htable htable' ..).mp hrest
      exact ⟨heq.symm, .inl ⟨ht.symm, rest, hr⟩⟩
    · rw [Key.indexCatalogKey_eq, Key.indexCatalogPrefix_eq, List.append_assoc] at hk
      obtain ⟨heq, ht, hr⟩ := (Key.tablePrefix_append_inj_table htable' htable ..).mp hk
      exact ⟨heq, .inr ⟨ht, hr⟩⟩
  have hget : ∀ k, k ∉ deletes → (s.writeBatch [] deletes)[k]? = s[k]? := by
    intro k hk
    rw [Store.getElem?_writeBatch, if_neg hk]
    rfl
  intro table' htable'
  by_cases heq : table' = table
  swap
  · exact (h table' htable').frame fun t _ r => hget _ fun hk => heq (hmem htable' hk).1
  subst heq
  have hstored : ∀ id, ex.stored (s.writeBatch [] deletes) ⟨table', id⟩ = ex.stored s ⟨table', id⟩ := by
    refine stored_congr fun r => hget _ fun hk => ?_
    rcases (hmem htable hk).2 with ⟨ht, _⟩ | ⟨ht, _⟩ <;> exact absurd ht (by decide)
  -- What is left in the catalog was there before, under another name.
  have hcatalog : ∀ idx, Index.InCatalog ex.ns ex.db table' (s.writeBatch [] deletes) idx →
      Index.InCatalog ex.ns ex.db table' s idx ∧ idx.name ≠ name := by
    rintro idx ⟨v, hv, hidx⟩
    by_cases hk : Key.indexCatalogKey ex.ns ex.db table' idx.name ∈ deletes
    · rw [Store.getElem?_writeBatch, if_pos hk] at hv
      cases hv
    · rw [hget _ hk] at hv
      refine ⟨⟨v, hv, hidx⟩, ?_⟩
      rintro rfl
      exact hk (by simp [← hdel])
  refine ⟨?_, ?_⟩
  · intro idx hidx id f values hf hvalues
    rw [hstored] at hf
    obtain ⟨hold, hne⟩ := hcatalog idx hidx
    have hentry := (h table' htable).covered idx hold id f values hf hvalues
    refine (mem_congr (hget _ fun hk => ?_)).mpr hentry
    rw [Index.entryKey_eq] at hk
    rcases (hmem htable hk).2 with ⟨_, hext⟩ | ⟨ht, _⟩
    · rw [Key.segment_append_prefix_iff hname ((hs table' htable).of_inCatalog hold).1, asBytes_inj] at hext
      exact hne hext.1.symm
    · exact absurd ht (by decide)
  · intro idx hidx hunique id id' f f' hne hf hf'
    rw [hstored] at hf hf'
    exact (h table' htable).unique idx (hcatalog idx hidx).1 hunique id id' f f' hne hf hf'

theorem AllGuarded.updateRecord {ex : QueryExecutor} {s s' : Store} (h : ex.AllGuarded s)
    {r : RecordRef} {fields : Assignments} {filter : Option WhereClause} {uuid : String}
    {defs : List IndexDefinition} (hc : (ex.collection r.table defs).Catalogued s)
    (hload : (Collection.load ex.ns ex.db r.table).run s = (.ok (ex.collection r.table defs), s))
    (hclear : ex.Clear s (.statement ⟨uuid, .update (.record r) fields filter⟩)) {x : Result QueryResult}
    (hrun : (ex.execUpdate (.record r) fields filter).run s = (x, s')) : ex.AllGuarded s' := by
  have hmerge : ∀ {y : Result Unit} {s₁ : Store},
      ((ex.collection r.table defs).merge r.id (assigned fields)).run s = (y, s₁) → ex.AllGuarded s₁ := by
    intro y s₁ hmerge
    rw [Collection.merge_eq_modify] at hmerge
    rcases Collection.modify_step hmerge with rfl | ⟨old, hrep⟩
    · exact h
    · have hstored : ex.stored s r = some old := (stored_eq_some_iff defs).mpr hrep.before
      refine h.steps hc (Q := fun s id new => ∀ fields, new = some fields → ex.NoClash r.table s id fields)
        (fun _ _ _ hQ => hQ _ rfl) (.step hrep ?_ (.refl _))
      rintro _ ⟨⟩ idx hidx hunique id' fields' hne hstored'
      refine hclear r.table idx hidx hunique _ _ _ _ hne ⟨rfl, old, hstored, rfl⟩ (.inr ⟨?_, hstored'⟩)
      rintro given ⟨heq, _⟩
      exact hne (congrArg RecordRef.id heq).symm
  rw [execUpdate, Prog.run_bind_ok hload] at hrun
  rcases (Collection.readOnly_get _ _).run_bind_cases hrun with ⟨_, _, _, rfl⟩ | ⟨doc, _, hrun⟩
  · exact h
  · cases doc with
    | none =>
      cases hrun
      exact h
    | some doc =>
      rcases Prog.run_bind_cases hrun with ⟨_, hm, _⟩ | ⟨_, s₁, hm, hret⟩
      · exact hmerge hm
      · cases hret
        exact hmerge hm

theorem AllGuarded.updateTable {ex : QueryExecutor} {s s' : Store} (h : ex.AllGuarded s)
    {table : String} {fields : Assignments} {filter : Option WhereClause} {uuid : String}
    {defs : List IndexDefinition} (hc : (ex.collection table defs).Catalogued s)
    (hload : (Collection.load ex.ns ex.db table).run s = (.ok (ex.collection table defs), s))
    (hclear : ex.Clear s (.statement ⟨uuid, .update (.table table) fields filter⟩)) {x : Result QueryResult}
    (hrun : (ex.execUpdate (.table table) fields filter).run s = (x, s')) : ex.AllGuarded s' := by
  have htable := hc.regular.table
  rw [execUpdate, Prog.run_bind_ok hload] at hrun
  rcases (Collection.readOnly_scanAll _).run_bind_cases hrun with ⟨_, _, _, rfl⟩ | ⟨docs, hdocs, hrun⟩
  · exact h
  · obtain ⟨y, hrows⟩ : ∃ y, (updateRows (ex.collection table defs) (assigned fields) filter docs 0).run s =
        (y, s') := by
      rcases Prog.run_bind_cases hrun with ⟨_, hrows, _⟩ | ⟨_, s₁, hrows, hret⟩
      · exact ⟨_, hrows⟩
      · cases hret
        exact ⟨_, hrows⟩
    obtain ⟨_, hmem⟩ := hc.regular.mem_of_scanAll hdocs
    intro table' htable'
    by_cases heq : table' = table
    swap
    · exact (h table' htable').frame fun t _ r =>
        (updateRows_steps hrows).frame htable htable' (.inl heq) r
    subst heq
    refine (h table' htable').updateRows hclear ?_ hrows (fun _ => rfl) hc (fun _ _ => .inr) ?_
      (hc.regular.pairwise_scanAll hdocs)
    · rintro id given ⟨_, old, hold, _, hgiven⟩
      exact ⟨old, hold, hgiven⟩
    · intro doc hdoc
      obtain ⟨hid, hstored⟩ := (hmem doc).mp hdoc
      have hstored := (stored_eq_some_iff defs).mpr hstored
      refine ⟨hstored, fun hmatch => ⟨rfl, doc.fields, hstored, ?_, rfl⟩⟩
      have hdoc : (⟨⟨table', doc.id.id⟩, doc.fields⟩ : Document) = doc := by
        obtain ⟨i, f⟩ := doc
        dsimp only at hid ⊢
        rw [hid]
        rfl
      rwa [hdoc]

theorem AllGuarded.statement {ex : QueryExecutor} (hex : ex.Regular) {s : Store} (hs : ex.CatalogsOk s)
    (h : ex.AllGuarded s) {i : Issued} (hnamed : i.stmt.Named) (hclear : ex.Clear s (.statement i))
    {p : Db QueryResult} (hp : ex.execute i = some p) : ex.AllGuarded (p.run s).2 := by
  obtain ⟨uuid, stmt⟩ := i
  rcases hrun : p.run s with ⟨r, s'⟩
  cases stmt with
  | create table id fields onConflict =>
    cases hp
    cases r with
    | error e => rwa [(ex.writesLast_execCreate uuid table id fields onConflict).run_error hrun]
    | ok q =>
      obtain ⟨a, ha, hadmitted, rfl, _⟩ := (execCreate_eq_ok_iff rfl).mp hrun
      exact h.create hex hs hnamed hclear ha hadmitted
  | relate src edgeType dst fields =>
    cases hp
    cases r with
    | error e => rwa [(ex.writesLast_execRelate src edgeType dst fields).run_error hrun]
    | ok q =>
      obtain ⟨a, ha, _, rfl, _⟩ := (execRelate_eq_ok_iff (i := ⟨uuid, _⟩) rfl).mp hrun
      refine h.collects hex hs (collects_singleton ha) (by simpa using hnamed) ?_
      intro table idx _ _ id id' fields' fields'' _ hlast
      cases hlast
  | update target fields filter =>
    cases hp
    cases target with
    | record ref =>
      obtain ⟨defs, _, hload, hc⟩ := hs.load hex hnamed
      exact h.updateRecord hc hload hclear hrun
    | table table =>
      obtain ⟨defs, _, hload, hc⟩ := hs.load hex hnamed
      exact h.updateTable hc hload hclear hrun
  | delete table id =>
    cases hp
    obtain ⟨defs, _, hload, hc⟩ := hs.load hex hnamed
    exact h.steps hc (fun _ _ _ hQ => by cases hQ) (execDelete_steps hload hrun)
  | deleteWhere table filter =>
    cases hp
    obtain ⟨defs, _, hload, hc⟩ := hs.load hex hnamed
    exact h.steps hc (fun _ _ _ hQ => by cases hQ) (execDeleteWhere_steps hload hrun)
  | defineIndex name table fields unique =>
    cases hp
    rcases run_execDefineIndex hrun with ⟨_, _, rfl⟩ | ⟨_, _, docs, puts, b, hdocs, hputs, hb, rfl⟩
    · exact h
    · exact h.define hex hnamed.2 hdocs hputs hb
  | removeIndex name table =>
    cases hp
    rcases run_execRemoveIndex hrun with ⟨_, _, rfl, _⟩ | ⟨_, rfl⟩
    · exact h
    · exact h.remove hs hnamed.1 hnamed.2
  | _ => cases hp

theorem AllGuarded.request {ex : QueryExecutor} (hex : ex.Regular) {s : Store} (hs : ex.CatalogsOk s)
    (h : ex.AllGuarded s) {r : Request} (hnamed : r.Named) (hclear : ex.Clear s r) {p : Db QueryResult}
    (hp : ex.prog r = some p) : ex.AllGuarded (p.run s).2 := by
  cases r with
  | statement i => exact h.statement hex hs hnamed hclear hp
  | batch stmts =>
    cases hp
    rcases hrun : (ex.executeBatch stmts).run s with ⟨_ | q, s'⟩
    · rwa [run_executeBatch_error hrun]
    · obtain ⟨st, hst, rfl, _⟩ := run_executeBatch hrun
      refine h.collects hex hs hst hnamed ?_
      intro table idx hidx hunique id id' fields fields' hne hlast hends
      refine hclear table idx hidx hunique id id' fields fields' hne hlast ?_
      rcases Option.or_eq_some_iff.mp hends with hlast' | ⟨hnone, hstored⟩
      · exact .inl hlast'
      · refine .inr ⟨fun given hgiven => ?_, hstored⟩
        rw [Intends, hnone] at hgiven
        cases hgiven

theorem Reachable.allGuarded {ex : QueryExecutor} (hex : ex.Regular) {s : Store}
    (h : ex.Reachable ex.Clear s) : ex.AllGuarded s := by
  induction h with
  | empty =>
    intro table _
    refine ⟨?_, ?_⟩
    · rintro idx ⟨b, hb, _⟩
      cases hb
    · rintro idx ⟨b, hb, _⟩
      cases hb
  | request before named meets prog ih => exact ih.request hex (before.catalogsOk hex) named meets prog

end QueryExecutor

/-- No two records hold the same complete tuple of a unique index of the collection. -/
def Collection.Unique [Rmp] (c : Collection) (s : Store) : Prop :=
  ∀ idx ∈ c.indexes, idx.isBtree = true → idx.unique = true → ∀ id id' fields fields', id ≠ id' →
    c.Stored s id fields → c.Stored s id' fields' →
      ¬ Index.SameTuple idx ⟨c.recordId id, fields⟩ ⟨c.recordId id', fields'⟩

/-- Along a run in which no merge and no batch gives a record the tuple of another, the catalog of
every table can be loaded and its unique indexes are unique. -/
theorem Collection.unique_of_clear_run [Rmp] [CodeIntel] {ex : QueryExecutor} (hex : ex.Regular)
    {s : Store} (h : ex.Reachable ex.Clear s) {table : String} (htable : Key.NulFree table) :
    ∃ c, (Collection.load ex.ns ex.db table).run s = (.ok c, s) ∧ c.Unique s := by
  obtain ⟨defs, _, hload, hc⟩ := (h.catalogsOk hex).load hex htable
  refine ⟨_, hload, ?_⟩
  intro idx hidx _ hunique id id' fields fields' hne hstored hstored'
  have hguarded := h.allGuarded hex table htable
  exact hguarded.unique idx ((hc.mem_iff idx).mp hidx) hunique id id' fields fields' hne
    ((QueryExecutor.stored_eq_some_iff defs).mpr hstored)
    ((QueryExecutor.stored_eq_some_iff defs).mpr hstored')

/-! ## A run that breaks a unique index and one that does not -/

def accounts : QueryExecutor := ⟨"n", "d"⟩

theorem regular_accounts : accounts.Regular := ⟨by decide, by decide⟩

/-- `DEFINE INDEX by_a ON t FIELDS a UNIQUE` -/
def defineByA : Request := .statement ⟨"", .defineIndex "by_a" "t" ["a"] true⟩

/-- `CREATE t:id SET a = n` -/
def createAt (id : String) (n : Int64) : Request :=
  .statement ⟨"", .create "t" (some id) [("a", .int n)] none⟩

/-- `UPDATE t:id SET a = n` -/
def setAt (id : String) (n : Int64) : Request :=
  .statement ⟨"", .update (.record ⟨"t", id⟩) [("a", .int n)] none⟩

namespace Concrete

scoped instance : Rmp := MsgPack.codec

scoped instance : CodeIntel := noCodeIntel

end Concrete

section Runs

open QueryExecutor Concrete

/-- An update gives a record the tuple of another one. -/
theorem update_breaks_unique :
    ¬ ∀ s, accounts.Reachable (fun _ _ => True) s →
      ∀ c, (Collection.load accounts.ns accounts.db "t").run s = (.ok c, s) → c.Unique s := by
  intro h
  have hnamed : Key.NulFree "t" := by decide
  have hdefined : accounts.Reachable (fun _ _ => True) (accounts.after [defineByA]) :=
    Reachable.concat [] .empty ⟨by decide, hnamed⟩ trivial rfl
  have hcreated : accounts.Reachable (fun _ _ => True)
      (accounts.after [defineByA, createAt "x" 1, createAt "y" 2]) :=
    Reachable.concat [defineByA, createAt "x" 1]
      (Reachable.concat [defineByA] hdefined hnamed trivial rfl) hnamed trivial rfl
  have hreach : accounts.Reachable (fun _ _ => True)
      (accounts.after [defineByA, createAt "x" 1, createAt "y" 2, setAt "y" 1]) :=
    Reachable.concat [defineByA, createAt "x" 1, createAt "y" 2] hcreated hnamed trivial rfl
  have hload : (Collection.load accounts.ns accounts.db "t").run
      (accounts.after [defineByA, createAt "x" 1, createAt "y" 2, setAt "y" 1]) =
      (.ok (accounts.collection "t" [.btree "by_a" ["a"] true]),
        accounts.after [defineByA, createAt "x" 1, createAt "y" 2, setAt "y" 1]) := rfl
  have hx : accounts.stored (accounts.after [defineByA, createAt "x" 1, createAt "y" 2, setAt "y" 1]) ⟨"t", "x"⟩ =
      some (assigned [("a", .int 1)]) := rfl
  have hy : accounts.stored (accounts.after [defineByA, createAt "x" 1, createAt "y" 2, setAt "y" 1]) ⟨"t", "y"⟩ =
      some (assigned [("a", .int 1)]) := rfl
  exact h _ hreach _ hload (.btree "by_a" ["a"] true) List.mem_cons_self rfl rfl "x" "y" _ _ (by decide)
    ((stored_eq_some_iff _).mp hx) ((stored_eq_some_iff _).mp hy)
    ⟨[.int 1], [.int 1], _, rfl, rfl, rfl, rfl⟩

/-- With one record in the table an update cannot clash. -/
theorem clear_setAt : accounts.Clear (accounts.after [defineByA, createAt "x" 1]) (setAt "x" 2) := by
  intro table idx _ _ id id' fields fields' hne hintends hends
  obtain ⟨hrecord, _⟩ := hintends
  obtain ⟨rfl, rfl⟩ := RecordRef.mk.inj hrecord
  rcases hends with ⟨hrecord', _⟩ | ⟨_, hstored⟩
  · exact absurd (RecordRef.mk.inj hrecord').2.symm hne
  · obtain ⟨b, hb, _⟩ := Option.bind_eq_some_iff.mp hstored
    have hkeys : Key.documentKey "n" "d" "t" id' ∈ [Key.indexCatalogKey "n" "d" "t" "by_a",
        Key.documentKey "n" "d" "t" "x", Index.entryKey "n" "d" "t" "by_a" [.int 1] "x"] :=
      List.mem_map_of_mem (f := Prod.fst) (Std.ExtTreeMap.mem_toList_iff_getElem?_eq_some.mpr hb)
    simp only [List.mem_cons, List.not_mem_nil, or_false] at hkeys
    rcases hkeys with hkey | hkey | hkey
    · rw [Key.documentKey_eq, Key.indexCatalogKey_eq, Key.indexCatalogPrefix_eq, List.append_assoc,
        Key.tablePrefix_append_inj] at hkey
      exact absurd hkey.1 (by decide)
    · exact absurd (Key.documentKey_inj.mp hkey).symm hne
    · exact absurd hkey.symm (Index.entryKey_ne_documentKey "n" "d" "t" "by_a" [.int 1] "x" id')

theorem unique_of_clear_run_renamed :
    ∃ c, (Collection.load "n" "d" "t").run (accounts.after [defineByA, createAt "x" 1, setAt "x" 2, createAt "y" 1]) =
        (.ok c, accounts.after [defineByA, createAt "x" 1, setAt "x" 2, createAt "y" 1]) ∧
      c.Unique (accounts.after [defineByA, createAt "x" 1, setAt "x" 2, createAt "y" 1]) := by
  have hnamed : Key.NulFree "t" := by decide
  have hcreate : ∀ s id n, accounts.Clear s (createAt id n) := by
    intro s id n table idx _ _ _ _ _ _ _ hintends
    exact absurd hintends.2.1 (by simp [QueryExecutor.taken, QueryExecutor.upserts])
  have hdefined : accounts.Reachable accounts.Clear (accounts.after [defineByA]) :=
    Reachable.concat [] .empty ⟨by decide, hnamed⟩ (fun _ _ _ _ _ _ _ _ _ h => h.elim) rfl
  have hcreated : accounts.Reachable accounts.Clear (accounts.after [defineByA, createAt "x" 1]) :=
    Reachable.concat [defineByA] hdefined hnamed (hcreate _ _ _) rfl
  have hupdated : accounts.Reachable accounts.Clear (accounts.after [defineByA, createAt "x" 1, setAt "x" 2]) :=
    Reachable.concat [defineByA, createAt "x" 1] hcreated hnamed clear_setAt rfl
  exact Collection.unique_of_clear_run regular_accounts
    (Reachable.concat [defineByA, createAt "x" 1, setAt "x" 2] hupdated (r := createAt "y" 1) hnamed
      (hcreate _ _ _) rfl) hnamed

end Runs

end Dllb
