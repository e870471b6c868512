import Mathlib
import Dllb.Query.Reads

/-! # Which requests touch the edges of a table

The edges of a table are the keys under one prefix. Only a `RELATE` of that
edge type, alone or in a batch, writes there, and what a graph statement
answers depends on nothing else.
-/

namespace Dllb

set_option autoImplicit false

open Key

/-- The two stores hold the same edges of the table. -/
def SameEdges (q : Place) (s s' : Store) : Prop := ∀ k, q.start Tag.graphEdge <+: k → s'[k]? = s[k]?

theorem SameEdges.refl (q : Place) (s : Store) : SameEdges q s s := fun _ _ => rfl

theorem SameEdges.trans {q : Place} {a b c : Store} (hab : SameEdges q a b) (hbc : SameEdges q b c) :
    SameEdges q a c := fun k hk => (hbc k hk).trans (hab k hk)

/-- A key that is not one of an edge of the table. -/
def Outside (q : Place) (k : Bytes) : Prop := ¬ q.start Tag.graphEdge <+: k

theorem outside_of_tag {q p : Place} {t : UInt8} (h : t ≠ Tag.graphEdge) (r : Bytes) :
    Outside q (p.start t ++ r) := by
  intro hk
  rw [← List.append_nil (q.start _)] at hk
  exact h ((Key.start_append_prefix_iff ..).mp hk).2.1.symm

theorem outside_of_place {q p : Place} (h : p ≠ q) (t : UInt8) (r : Bytes) : Outside q (p.start t ++ r) := by
  intro hk
  rw [← List.append_nil (q.start _)] at hk
  exact h ((Key.start_append_prefix_iff ..).mp hk).1.symm

theorem sameEdges_writeBatch {q : Place} {puts : List PutOp} {deletes : List Bytes}
    (hputs : ∀ k ∈ puts.map Prod.fst, Outside q k) (hdeletes : ∀ k ∈ deletes, Outside q k) (s : Store) :
    SameEdges q s (s.writeBatch puts deletes) := by
  intro k hk
  rw [Store.getElem?_writeBatch, Store.lastPut_eq_none_iff.mpr fun hin => hputs k hin hk,
    if_neg fun hin => hdeletes k hin hk]
  rfl

theorem sameEdges_putBatch {q : Place} {puts : List PutOp} (hputs : ∀ k ∈ puts.map Prod.fst, Outside q k)
    (s : Store) : SameEdges q s (s.putBatch puts) := by
  intro k hk
  rw [Store.getElem?_putBatch, Store.lastPut_eq_none_iff.mpr fun hin => hputs k hin hk]
  rfl

theorem sameEdges_deleteBatch {q : Place} {deletes : List Bytes} (hdeletes : ∀ k ∈ deletes, Outside q k)
    (s : Store) : SameEdges q s (s.deleteBatch deletes) := by
  intro k hk
  rw [Store.getElem?_deleteBatch, if_neg fun hin => hdeletes k hin hk]

/-! ## Documents -/

/-- A collection of a table whose names have no separator in them. -/
structure Collection.At (c : Collection) (p : Place) : Prop where
  ns : c.ns = p.ns
  db : c.db = p.db
  table : c.table = p.table

namespace Collection

theorem At.outside_docKey {c : Collection} {p : Place} (h : c.At p) (q : Place) (id : String) :
    Outside q (c.docKey id) := by
  rw [docKey, h.ns, h.db, h.table, Key.documentKey_eq]
  exact outside_of_tag (by decide) _

theorem At.outside_entries {c : Collection} {p : Place} (h : c.At p) (q : Place) {doc : Document}
    {es : List PutOp} (hes : c.entries doc = .ok es) : ∀ k ∈ es.map Prod.fst, Outside q k := by
  intro k hk
  obtain ⟨hcan, rfl⟩ := Index.canIndex_of_buildIndexEntries hes
  obtain ⟨r, rfl⟩ := QueryExecutor.entriesOf_key hk
  rw [h.ns, h.db, h.table]
  exact outside_of_tag (by decide) r

variable [Rmp]

theorem At.keeps_createInner {c : Collection} {p : Place} (h : c.At p) (q : Place) (id : String)
    (doc : Document) : (c.createInner id doc).Keeps (SameEdges q) := by
  refine ((Prog.readOnly_lift _).keeps _).bind fun _ => ((Prog.readOnly_query _).keeps _).bind fun found => ?_
  split
  · trivial
  · refine ((c.readOnly_checkUnique doc id _).keeps _).bind fun _ =>
      ((Prog.readOnly_lift _).keeps _).bind fun b => ?_
    cases hes : c.entries doc with
    | error e => trivial
    | ok es =>
      refine (Prog.keeps_commit fun s => sameEdges_putBatch ?_ s).bind fun _ => trivial
      exact List.forall_mem_cons.mpr ⟨h.outside_docKey q id, h.outside_entries q hes⟩

theorem At.keeps_replace {c : Collection} {p : Place} (h : c.At p) (q : Place) (id : String)
    (old new : Document) : (c.replaceWithIndexes id old new).Keeps (SameEdges q) := by
  cases hb : serialize new with
  | error e =>
    rw [replaceWithIndexes, replaceOps, hb]
    trivial
  | ok b =>
    cases hold : c.entries old with
    | error e =>
      rw [replaceWithIndexes, replaceOps, hb, hold]
      trivial
    | ok oldEs =>
      cases hnew : c.entries new with
      | error e =>
        rw [replaceWithIndexes, replaceOps, hb, hold, hnew]
        trivial
      | ok newEs =>
        rw [replaceWithIndexes, replaceOps, hb, hold, hnew]
        refine Prog.keeps_commit fun s => sameEdges_writeBatch ?_ (h.outside_entries q hold) s
        exact List.forall_mem_cons.mpr ⟨h.outside_docKey q id, h.outside_entries q hnew⟩

theorem At.keeps_merge {c : Collection} {p : Place} (h : c.At p) (q : Place) (id : String)
    (fields : Fields) : (c.merge id fields).Keeps (SameEdges q) :=
  ((c.readOnly_getOrNotFound id).keeps _).bind fun _ =>
    ((Prog.readOnly_lift _).keeps _).bind fun _ => h.keeps_replace q id _ _

theorem At.keeps_upsert {c : Collection} {p : Place} (h : c.At p) (q : Place) (id : String) (doc : Document)
    (updateFields : Fields) : (c.upsert id doc updateFields).Keeps (SameEdges q) := by
  refine ((Prog.readOnly_query _).keeps _).bind fun found => ?_
  split
  · exact (h.keeps_merge q id updateFields).bind fun _ => trivial
  · exact (h.keeps_createInner q id doc).bind fun _ => trivial

theorem At.keeps_delete {c : Collection} {p : Place} (h : c.At p) (q : Place) (id : String) :
    (c.delete id).Keeps (SameEdges q) := by
  refine ((c.readOnly_get id).keeps _).bind fun found => ?_
  cases found with
  | none => trivial
  | some doc =>
    dsimp only
    cases hes : c.entries doc with
    | error e => trivial
    | ok es =>
      refine Prog.Keeps.bind (p := Db.deleteBatch _) (Prog.keeps_commit fun s => ?_) fun _ => trivial
      refine sameEdges_deleteBatch ?_ s
      exact List.forall_mem_cons.mpr ⟨h.outside_docKey q id, h.outside_entries q hes⟩

end Collection

/-! ## Statements -/

namespace QueryExecutor

/-- The table in the namespace and database of the executor. -/
def place (ex : QueryExecutor) (hex : ex.Regular) (table : String) (h : NulFree table) : Place :=
  ⟨⟨ex.ns, hex.ns⟩, ⟨ex.db, hex.db⟩, ⟨table, h⟩⟩

variable [Rmp]

theorem load_at {ex : QueryExecutor} (hex : ex.Regular) {table : String} (htable : NulFree table) :
    (Collection.load ex.ns ex.db table).Returns fun c => c.At (ex.place hex table htable) :=
  (Prog.returns_true _).bind fun _ _ => ⟨rfl, rfl, rfl⟩

/-- A statement that loads the collection of a table and then keeps the edges. -/
theorem keeps_load {β : Type} {ex : QueryExecutor} (hex : ex.Regular) {table : String}
    (htable : NulFree table) {q : Place} {g : Collection → Db β}
    (hg : ∀ c : Collection, c.At (ex.place hex table htable) → (g c).Keeps (SameEdges q)) :
    Prog.Keeps (SameEdges q) (Collection.load ex.ns ex.db table >>= g) :=
  ((Collection.readOnly_load _ _ _).keeps _).bind_returns (load_at hex htable) hg

theorem keeps_execCreate {ex : QueryExecutor} (hex : ex.Regular) (q : Place) (uuid : String)
    {table : String} (htable : NulFree table) (id : Option String) (fields : Assignments)
    (onConflict : Option OnConflict) :
    (ex.execCreate uuid table id fields onConflict).Keeps (SameEdges q) := by
  refine keeps_load hex htable fun c hc => ?_
  cases onConflict with
  | some conflict =>
    cases id with
    | none => trivial
    | some idStr => exact (hc.keeps_upsert q idStr _ _).bind fun _ => trivial
  | none =>
    cases id with
    | none => exact (hc.keeps_createInner q _ _).bind fun _ => trivial
    | some idStr => exact (hc.keeps_createInner q _ _).bind fun _ => trivial

variable [CodeIntel]

theorem keeps_updateRows {c : Collection} {p : Place} (hc : c.At p) (q : Place) (fields : Fields)
    (filter : Option WhereClause) (docs : List Document) (matched : Nat) :
    (updateRows c fields filter docs matched).Keeps (SameEdges q) := by
  induction docs generalizing matched with
  | nil => trivial
  | cons doc docs ih =>
    rw [updateRows]
    split
    · exact (hc.keeps_merge q _ fields).bind fun _ => ih _
    · exact ih _

theorem keeps_deleteRows {c : Collection} {p : Place} (hc : c.At p) (q : Place)
    (filter : Option WhereClause) (docs : List Document) (count : Nat) :
    (deleteRows c filter docs count).Keeps (SameEdges q) := by
  induction docs generalizing count with
  | nil => trivial
  | cons doc docs ih =>
    rw [deleteRows]
    split
    · exact (hc.keeps_delete q _).bind fun _ => ih _
    · exact ih _

theorem keeps_execUpdate {ex : QueryExecutor} (hex : ex.Regular) (q : Place) (target : FromTarget)
    (htable : NulFree (targetTable target)) (fields : Assignments) (filter : Option WhereClause) :
    (ex.execUpdate target fields filter).Keeps (SameEdges q) := by
  cases target with
  | record r =>
    refine keeps_load hex htable fun c hc => ((c.readOnly_get r.id).keeps _).bind fun found => ?_
    cases found with
    | none => trivial
    | some doc => exact (hc.keeps_merge q r.id _).bind fun _ => trivial
  | table table =>
    refine keeps_load hex htable fun c hc => (c.readOnly_scanAll.keeps _).bind fun docs => ?_
    exact (keeps_updateRows hc q _ filter docs 0).bind fun _ => trivial

omit [Rmp] [CodeIntel] in
theorem outside_catalogKey {ex : QueryExecutor} (hex : ex.Regular) {table : String} (htable : NulFree table)
    (q : Place) (name : String) : Outside q (indexCatalogKey ex.ns ex.db table name) := by
  rw [indexCatalogKey_eq, indexCatalogPrefix_eq, List.append_assoc]
  exact outside_of_tag (p := ex.place hex table htable) (by decide) _

omit [CodeIntel] in
theorem keeps_execDefineIndex {ex : QueryExecutor} (hex : ex.Regular) (q : Place) (name : String)
    {table : String} (htable : NulFree table) (fields : List String) (unique : Bool) :
    (ex.execDefineIndex name table fields unique).Keeps (SameEdges q) := by
  unfold execDefineIndex
  split
  · trivial
  · refine ((Collection.readOnly_scanAll _).keeps _).bind fun docs => ?_
    cases hputs : backfill ex.ns ex.db table (.btree name fields unique) docs [] with
    | error e => trivial
    | ok puts =>
      cases hb : Rmp.definitionToVec (.btree name fields unique) with
      | error e =>
        simp only [Index.indexDefinitionKv, hb]
        trivial
      | ok b =>
        simp only [Index.indexDefinitionKv, hb]
        refine Prog.Keeps.bind (p := Db.writeBatch _ _) (Prog.keeps_commit fun s => ?_) fun _ => trivial
        refine sameEdges_writeBatch (List.forall_mem_cons.mpr ⟨?_, fun k hk => ?_⟩)
          (fun _ hk => absurd hk List.not_mem_nil) s
        · exact outside_catalogKey hex htable q name
        · obtain ⟨r, rfl⟩ := backfill_key hputs hk
          exact outside_of_tag (p := ex.place hex table htable) (by decide) r

omit [CodeIntel] in
theorem keeps_execRemoveIndex {ex : QueryExecutor} (hex : ex.Regular) (q : Place) (name : String)
    {table : String} (htable : NulFree table) : (ex.execRemoveIndex name table).Keeps (SameEdges q) := by
  refine ((readOnly_loadIndexDefinitions _ _ _).keeps _).bind fun _ => fun s => ?_
  refine Prog.Keeps.bind (p := Db.writeBatch _ _) (Prog.keeps_commit fun s' => ?_) fun _ => trivial
  refine sameEdges_writeBatch (fun _ hk => absurd hk List.not_mem_nil) (fun k hk => ?_) s'
  rcases List.mem_append.mp hk with hk | hk
  · rw [indexPrefix_eq, Store.mem_scanPrefixKeys_iff (prefixEnd_tablePrefix_append_ne_nil _ _ _ _ _)] at hk
    obtain ⟨r, rfl⟩ := hk.2
    rw [List.append_assoc]
    exact outside_of_tag (p := ex.place hex table htable) (by decide) _
  · rw [List.mem_singleton.mp hk]
    exact outside_catalogKey hex htable q name

/-! ## Edges -/

omit [Rmp] [CodeIntel] in
theorem edgeOf_ends (src : RecordRef) (edgeType : String) (dst : RecordRef) (fields : Assignments) :
    (edgeOf src edgeType dst fields).src = src.id ∧
      (edgeOf src edgeType dst fields).edgeType = edgeType ∧
      (edgeOf src edgeType dst fields).dst = dst.id := by
  have hfold : ∀ (fields : Assignments) (e : Edge),
      (fields.foldl (fun edge kv => edge.withProperty kv.1 kv.2.toValue) e).src = e.src ∧
      (fields.foldl (fun edge kv => edge.withProperty kv.1 kv.2.toValue) e).edgeType = e.edgeType ∧
      (fields.foldl (fun edge kv => edge.withProperty kv.1 kv.2.toValue) e).dst = e.dst := by
    intro fields
    induction fields with
    | nil => exact fun _ => ⟨rfl, rfl, rfl⟩
    | cons kv fields ih => exact fun e => ih (e.withProperty kv.1 kv.2.toValue)
  exact hfold fields (Edge.new src.id edgeType dst.id)

omit [CodeIntel] in
/-- The keys of the two entries of an edge. -/
theorem relateToOps_keys {ex : QueryExecutor} (hex : ex.Regular) {edgeType : String}
    (htable : NulFree edgeType) {edge : Edge} {puts : List PutOp}
    (h : EdgeStore.relateToOps ⟨ex.ns, ex.db, edgeType⟩ edge = .ok puts) :
    ∀ k ∈ puts.map Prod.fst, ∃ r, k = (ex.place hex edgeType htable).start Tag.graphEdge ++ r := by
  unfold EdgeStore.relateToOps at h
  cases hprops : EdgeStore.serializeProps edge.properties with
  | error e =>
    rw [hprops] at h
    cases h
  | ok props =>
    rw [hprops] at h
    cases h
    simp only [List.map_cons, List.map_nil, List.forall_mem_cons, List.not_mem_nil, IsEmpty.forall_iff,
      implies_true, and_true]
    exact ⟨⟨_, graphOutgoingKey_eq ..⟩, ⟨_, graphIncomingKey_eq ..⟩⟩

/-- The statement writes an edge of the table. -/
def Relates (ex : QueryExecutor) (q : Place) : Statement → Prop
  | .relate _ edgeType _ _ => ex.ns = q.ns ∧ ex.db = q.db ∧ edgeType = q.table
  | _ => False

def Touches (ex : QueryExecutor) (q : Place) : Request → Prop
  | .statement i => ex.Relates q i.stmt
  | .batch stmts => ∃ i ∈ stmts, ex.Relates q i.stmt

/-- Operations that leave the edges of the table alone. -/
def OpsOutside (q : Place) (puts : List PutOp) (deletes : List Bytes) : Prop :=
  (∀ k ∈ puts.map Prod.fst, Outside q k) ∧ ∀ k ∈ deletes, Outside q k

omit [Rmp] [CodeIntel] in
theorem OpsOutside.append {q : Place} {puts puts' : List PutOp} {deletes deletes' : List Bytes}
    (h : OpsOutside q puts deletes) (h' : OpsOutside q puts' deletes') :
    OpsOutside q (puts ++ puts') (deletes ++ deletes') := by
  constructor
  · intro k hk
    rw [List.map_append] at hk
    exact (List.mem_append.mp hk).elim (h.1 k) (h'.1 k)
  · exact fun k hk => (List.mem_append.mp hk).elim (h.2 k) (h'.2 k)

omit [CodeIntel] in
theorem createToOps_outside {c : Collection} {p : Place} (hc : c.At p) (q : Place) {id : String}
    {doc : Document} {r : RecordId × List PutOp} (h : c.createToOps id doc = .ok r) :
    OpsOutside q r.2 [] := by
  refine ⟨?_, fun _ hk => absurd hk List.not_mem_nil⟩
  unfold Collection.createToOps at h
  dsimp only at h
  cases hv : c.validate { doc with id := c.recordId id } with
  | error e =>
    rw [hv] at h
    cases h
  | ok _ =>
    cases hb : serialize { doc with id := c.recordId id } with
    | error e =>
      rw [hv, hb] at h
      cases h
    | ok b =>
      cases hes : c.entries { doc with id := c.recordId id } with
      | error e =>
        rw [hv, hb, hes] at h
        cases h
      | ok es =>
        rw [hv, hb, hes] at h
        cases h
        exact List.forall_mem_cons.mpr ⟨hc.outside_docKey q id, hc.outside_entries q hes⟩

omit [CodeIntel] in
theorem replaceOps_outside {c : Collection} {p : Place} (hc : c.At p) (q : Place) {id : String}
    {old new : Document} {ops : List PutOp × List Bytes} (h : c.replaceOps id old new = .ok ops) :
    OpsOutside q ops.1 ops.2 := by
  unfold Collection.replaceOps at h
  cases hb : serialize new with
  | error e =>
    rw [hb] at h
    cases h
  | ok b =>
    cases hold : c.entries old with
    | error e =>
      rw [hb, hold] at h
      cases h
    | ok oldEs =>
      cases hnew : c.entries new with
      | error e =>
        rw [hb, hold, hnew] at h
        cases h
      | ok newEs =>
        rw [hb, hold, hnew] at h
        cases h
        exact ⟨List.forall_mem_cons.mpr ⟨hc.outside_docKey q id, hc.outside_entries q hnew⟩,
          hc.outside_entries q hold⟩

omit [CodeIntel] in
theorem createOps_returns {c : Collection} {p : Place} (hc : c.At p) (q : Place) (uuid : String)
    (id : Option String) (fields : Assignments) (onConflict : Option OnConflict) :
    (createOps c uuid id fields onConflict).Returns fun ops => OpsOutside q ops.2.1 ops.2.2 := by
  cases onConflict with
  | none =>
    refine (Prog.returns_lift fun r hr => createToOps_outside hc q hr).bind fun r hr => ?_
    exact hr
  | some conflict =>
    cases id with
    | none => trivial
    | some idStr =>
      refine Prog.Returns.bind
        (Q := fun r : RecordId × Bool × List PutOp × List Bytes => OpsOutside q r.2.2.1 r.2.2.2) ?_ fun r hr => hr
      refine (Prog.returns_true _).bind fun found _ => ?_
      split
      · refine (Prog.returns_true _).bind fun old _ => (Prog.returns_true _).bind fun _ _ => ?_
        exact (Prog.returns_lift fun ops hops => replaceOps_outside hc q hops).bind fun ops hops => hops
      · exact (Prog.returns_lift fun r hr => createToOps_outside hc q hr).bind fun r hr => hr

omit [CodeIntel] in
theorem cachedIndexes_returns (ex : QueryExecutor) (table : String) (st : BatchState) :
    (ex.cachedIndexes table st).Returns fun r => r.2.puts = st.puts ∧ r.2.deletes = st.deletes := by
  unfold cachedIndexes
  split
  · exact ⟨rfl, rfl⟩
  · exact (Prog.returns_true _).bind fun _ _ => ⟨rfl, rfl⟩

omit [CodeIntel] in
theorem batchStep_returns {ex : QueryExecutor} (hex : ex.Regular) {q : Place} {st : BatchState}
    (hst : OpsOutside q st.puts st.deletes) {i : Issued} (hnamed : i.stmt.Named)
    (hnot : ¬ ex.Relates q i.stmt) :
    (ex.batchStep st i).Returns fun st => OpsOutside q st.puts st.deletes := by
  obtain ⟨uuid, stmt⟩ := i
  cases stmt with
  | create table id fields onConflict =>
    refine (ex.cachedIndexes_returns table st).bind fun cached hcached => ?_
    have hc : ((Collection.new ex.ns ex.db table).withIndexes cached.1).At (ex.place hex table hnamed) :=
      ⟨rfl, rfl, rfl⟩
    refine (createOps_returns hc q uuid id fields onConflict).bind fun ops hops => ?_
    change OpsOutside q (cached.2.puts ++ ops.2.1) (cached.2.deletes ++ ops.2.2)
    rw [hcached.1, hcached.2]
    exact hst.append hops
  | relate src edgeType dst fields =>
    refine (Prog.returns_lift fun puts hputs => relateToOps_keys hex hnamed hputs).bind fun puts hputs => ?_
    have hkeys : OpsOutside q puts [] := by
      refine ⟨fun k hk => ?_, fun _ hk => absurd hk List.not_mem_nil⟩
      obtain ⟨r, rfl⟩ := hputs k hk
      refine outside_of_place ?_ _ r
      rintro rfl
      exact hnot ⟨rfl, rfl, rfl⟩
    have happend := hst.append hkeys
    rw [List.append_nil] at happend
    exact happend
  | _ => trivial

omit [CodeIntel] in
theorem batchSteps_returns {ex : QueryExecutor} (hex : ex.Regular) {q : Place} (stmts : List Issued)
    (hnamed : ∀ i ∈ stmts, i.stmt.Named) (hnot : ∀ i ∈ stmts, ¬ ex.Relates q i.stmt) (st : BatchState)
    (hst : OpsOutside q st.puts st.deletes) :
    (ex.batchSteps stmts st).Returns fun st => OpsOutside q st.puts st.deletes := by
  induction stmts generalizing st with
  | nil => exact hst
  | cons i stmts ih =>
    obtain ⟨hi, hrest⟩ := List.forall_mem_cons.mp hnamed
    obtain ⟨hni, hnrest⟩ := List.forall_mem_cons.mp hnot
    exact (batchStep_returns hex hst hi hni).bind fun st' hst' => ih hrest hnrest st' hst'

omit [CodeIntel] in
theorem keeps_executeBatch {ex : QueryExecutor} (hex : ex.Regular) {q : Place} (stmts : List Issued)
    (hnamed : ∀ i ∈ stmts, i.stmt.Named) (hnot : ∀ i ∈ stmts, ¬ ex.Relates q i.stmt) :
    (ex.executeBatch stmts).Keeps (SameEdges q) := by
  have hempty : OpsOutside q BatchState.empty.puts BatchState.empty.deletes :=
    ⟨fun _ hk => absurd hk List.not_mem_nil, fun _ hk => absurd hk List.not_mem_nil⟩
  refine ((readOnly_batchSteps ex stmts .empty).keeps _).bind_returns
    (batchSteps_returns hex stmts hnamed hnot .empty hempty) fun st hst => ?_
  exact (Prog.keeps_commit fun s => sameEdges_writeBatch hst.1 hst.2 s).bind fun _ => trivial

omit [CodeIntel] in
theorem keeps_execRelate {ex : QueryExecutor} (hex : ex.Regular) {q : Place} (src : RecordRef)
    {edgeType : String} (htable : NulFree edgeType) (dst : RecordRef) (fields : Assignments)
    (hnot : ¬ ex.Relates q (.relate src edgeType dst fields)) :
    (ex.execRelate src edgeType dst fields).Keeps (SameEdges q) := by
  have hne : ex.place hex edgeType htable ≠ q := by
    rintro rfl
    exact hnot ⟨rfl, rfl, rfl⟩
  refine Prog.Keeps.bind ?_ fun _ => trivial
  refine ((Prog.readOnly_lift _).keeps _).bind fun props => Prog.keeps_commit fun s => ?_
  refine sameEdges_putBatch (List.forall_mem_cons.mpr ⟨?_, List.forall_mem_singleton.mpr ?_⟩) s
  · rw [graphOutgoingKey_eq]
    exact outside_of_place hne _ _
  · rw [graphIncomingKey_eq]
    exact outside_of_place hne _ _

/-- A statement that is no `RELATE` of the edge type leaves the edges of the table as they are. -/
theorem keeps_execute {ex : QueryExecutor} (hex : ex.Regular) {q : Place} {i : Issued}
    (hnamed : i.stmt.Named) (hnot : ¬ ex.Relates q i.stmt) {p : Db QueryResult}
    (hp : ex.execute i = some p) : p.Keeps (SameEdges q) := by
  obtain ⟨uuid, stmt⟩ := i
  cases stmt with
  | create table id fields onConflict =>
    cases hp
    exact keeps_execCreate hex q uuid hnamed id fields onConflict
  | update target fields filter =>
    cases hp
    have htable : NulFree (targetTable target) := by cases target <;> exact hnamed
    exact keeps_execUpdate hex q target htable fields filter
  | delete table id =>
    cases hp
    exact keeps_load hex hnamed fun c hc => (hc.keeps_delete q id).bind fun _ => trivial
  | deleteWhere table filter =>
    cases hp
    refine keeps_load hex hnamed fun c hc => ((readOnly_candidates c filter).keeps _).bind fun docs => ?_
    exact (keeps_deleteRows hc q filter docs 0).bind fun _ => trivial
  | relate src edgeType dst fields =>
    cases hp
    exact keeps_execRelate hex src hnamed dst fields hnot
  | defineIndex name table fields unique =>
    cases hp
    exact keeps_execDefineIndex hex q name hnamed.2 fields unique
  | removeIndex name table =>
    cases hp
    exact keeps_execRemoveIndex hex q name hnamed.2
  | _ => cases hp

theorem sameEdges_request {ex : QueryExecutor} (hex : ex.Regular) {q : Place} {r : Request}
    (hnamed : r.Named) (hnot : ¬ ex.Touches q r) {p : Db QueryResult} (hp : ex.prog r = some p) (s : Store) :
    SameEdges q s (p.run s).2 := by
  apply Prog.Keeps.run (SameEdges.refl q) SameEdges.trans
  cases r with
  | statement i => exact keeps_execute hex hnamed hnot hp
  | batch stmts =>
    cases hp
    exact keeps_executeBatch hex stmts hnamed fun i hi hrel => hnot ⟨i, hi, hrel⟩

end QueryExecutor

end Dllb
