import Mathlib
import Dllb.Query.Requests

/-! # Reachable stores

The stores that requests leave behind, one after another from the empty store.
Whatever the requests, the catalog of every table stays in order.
-/

namespace Dllb

set_option autoImplicit false

/-! ## Requests -/

/-- Tables, indexes and edge types are named by identifiers, which have no separator in them. -/
def Statement.Named : Statement → Prop
  | .create table _ _ _ => Key.NulFree table
  | .update (.table table) _ _ => Key.NulFree table
  | .update (.record r) _ _ => Key.NulFree r.table
  | .delete table _ => Key.NulFree table
  | .deleteWhere table _ => Key.NulFree table
  | .relate _ edgeType _ _ => Key.NulFree edgeType
  | .defineIndex name table _ _ => Key.NulFree name ∧ Key.NulFree table
  | .removeIndex name table => Key.NulFree name ∧ Key.NulFree table
  | _ => True

inductive Request where
  | statement (i : Issued)
  | batch (stmts : List Issued)

def Request.Named : Request → Prop
  | statement i => i.stmt.Named
  | batch stmts => ∀ i ∈ stmts, i.stmt.Named

/-- An executor runs in a namespace and a database without separators in their names. -/
structure QueryExecutor.Regular (ex : QueryExecutor) : Prop where
  ns : Key.NulFree ex.ns
  db : Key.NulFree ex.db

/-! ## Records written one after another -/

namespace Collection

variable [Rmp]

/-- Writes of single records, each of which meets `Q` on the store it finds. -/
inductive Steps (c : Collection) (Q : Store → String → Option Fields → Prop) : Store → Store → Prop
  | refl (s : Store) : Steps c Q s s
  | step {s s₁ s₂ : Store} {id : String} {old new : Option Fields}
      (replaced : c.Replaced id old new s s₁) (meets : Q s id new) (rest : Steps c Q s₁ s₂) :
      Steps c Q s s₂

theorem Steps.frame {c : Collection} {Q : Store → String → Option Fields → Prop} {s s' : Store}
    (h : c.Steps Q s s') (hc : Key.NulFree c.table) {table : String} (htable : Key.NulFree table)
    {t : UInt8} (hapart : table ≠ c.table ∨ t ≠ Key.Tag.document ∧ t ≠ Key.Tag.index) (r : Bytes) :
    s'[Key.tablePrefix c.ns c.db table t ++ r]? = s[Key.tablePrefix c.ns c.db table t ++ r]? := by
  induction h with
  | refl s => rfl
  | step replaced _ _ ih => rw [ih, replaced.frame hc htable hapart]

theorem Steps.sameMetadata {c : Collection} {Q : Store → String → Option Fields → Prop} {s s' : Store}
    (h : c.Steps Q s s') (hc : Key.NulFree c.table) {table : String} (htable : Key.NulFree table) :
    Index.SameMetadata c.ns c.db table s s' :=
  h.frame hc htable (.inr ⟨by decide, by decide⟩)

theorem readOnly_scanAll (c : Collection) : Prog.ReadOnly c.scanAll :=
  (Prog.readOnly_query _).bind fun _ => Prog.readOnly_lift _

theorem readOnly_getMany (c : Collection) (ids : List String) : Prog.ReadOnly (c.getMany ids) := by
  unfold getMany
  split
  · trivial
  · exact (Prog.readOnly_query _).bind fun _ => Prog.readOnly_lift _

theorem writesLast_createInner (c : Collection) (id : String) (doc : Document) :
    Prog.WritesLast (c.createInner id doc) := by
  refine (Prog.readOnly_lift _).writesLast_bind fun _ => (Prog.readOnly_query _).writesLast_bind fun _ => ?_
  split
  · trivial
  · exact (c.readOnly_checkUnique doc id c.indexes).writesLast_bind fun _ =>
      (Prog.readOnly_lift _).writesLast_bind fun _ => (Prog.readOnly_lift _).writesLast_bind fun _ =>
        Prog.writesLast_bind_ret (Prog.writesLast_commit _) fun _ => doc.id

theorem writesLast_merge (c : Collection) (id : String) (fields : Fields) :
    Prog.WritesLast (c.merge id fields) :=
  (c.readOnly_getOrNotFound id).writesLast_bind fun _ => (Prog.readOnly_lift _).writesLast_bind fun _ =>
    (Prog.readOnly_lift _).writesLast_bind fun _ => Prog.writesLast_commit _

theorem writesLast_upsert (c : Collection) (id : String) (doc : Document) (updateFields : Fields) :
    Prog.WritesLast (c.upsert id doc updateFields) := by
  refine (Prog.readOnly_query _).writesLast_bind fun _ => ?_
  split
  · exact Prog.writesLast_bind_ret (c.writesLast_merge id updateFields) fun _ => (c.recordId id, false)
  · exact Prog.writesLast_bind_ret (c.writesLast_createInner id doc) fun createdId => (createdId, true)

theorem writesLast_delete (c : Collection) (id : String) : Prog.WritesLast (c.delete id) := by
  refine (c.readOnly_get id).writesLast_bind fun doc => ?_
  split
  · trivial
  · exact (Prog.readOnly_lift _).writesLast_bind fun _ =>
      Prog.writesLast_bind_ret (Prog.writesLast_commit _) fun _ => true

/-- A merge writes a record that is there. -/
theorem merge_steps {c : Collection} {id : String} {fields : Fields} {s s' : Store} {r : Result Unit}
    (h : (c.merge id fields).run s = (r, s')) : c.Steps (fun s id _ => c.docKey id ∈ s) s s' := by
  rw [merge_eq_modify] at h
  rcases modify_step h with rfl | ⟨old, hrep⟩
  · exact .refl _
  · obtain ⟨b, hb, -⟩ := hrep.before
    exact .step hrep (Std.ExtTreeMap.isSome_getElem?_iff_mem.mp (by rw [hb]; rfl)) (.refl _)

theorem delete_steps {c : Collection} {id : String} {s s' : Store} {r : Result Bool}
    (h : (c.delete id).run s = (r, s')) : c.Steps (fun _ _ new => new = none) s s' := by
  rcases delete_step h with rfl | ⟨old, hrep⟩
  · exact .refl _
  · exact .step hrep rfl (.refl _)

theorem Steps.trans {c : Collection} {Q : Store → String → Option Fields → Prop} {s s₁ s₂ : Store}
    (h : c.Steps Q s s₁) (h' : c.Steps Q s₁ s₂) : c.Steps Q s s₂ := by
  induction h with
  | refl s => exact h'
  | step replaced meets _ ih => exact .step replaced meets (ih h')

theorem Steps.mono {c : Collection} {Q P : Store → String → Option Fields → Prop} {s s' : Store}
    (h : c.Steps Q s s') (hQP : ∀ s id new, Q s id new → P s id new) : c.Steps P s s' := by
  induction h with
  | refl s => exact .refl s
  | step replaced meets _ ih => exact .step replaced (hQP _ _ _ meets) ih

end Collection

namespace QueryExecutor

variable [Rmp] [CodeIntel]

def prog (ex : QueryExecutor) : Request → Option (Db QueryResult)
  | .statement i => ex.execute i
  | .batch stmts => some (ex.executeBatch stmts)

/-- The stores left by requests that run one after another from the empty store, each of them
meeting `Q` on the store it finds. A request that fails leaves what it has written so far. -/
inductive Reachable (ex : QueryExecutor) (Q : Store → Request → Prop) : Store → Prop
  | empty : Reachable ex Q ∅
  | request {s : Store} {r : Request} {p : Db QueryResult} (before : Reachable ex Q s)
      (named : r.Named) (meets : Q s r) (prog : ex.prog r = some p) : Reachable ex Q (p.run s).2

/-- The store after the requests. -/
def after (ex : QueryExecutor) (reqs : List Request) : Store :=
  reqs.foldl (fun s r => (ex.prog r).elim s fun p => (p.run s).2) ∅

theorem Reachable.concat {ex : QueryExecutor} {Q : Store → Request → Prop} (reqs : List Request)
    (h : ex.Reachable Q (ex.after reqs)) {r : Request} (hnamed : r.Named) (hQ : Q (ex.after reqs) r)
    {p : Db QueryResult} (hp : ex.prog r = some p) : ex.Reachable Q (ex.after (reqs ++ [r])) := by
  have hafter : ex.after (reqs ++ [r]) = (p.run (ex.after reqs)).2 := by
    rw [after, List.foldl_append, ← after, List.foldl_cons, List.foldl_nil, hp]
    rfl
  rw [hafter]
  exact .request h hnamed hQ hp

/-- The catalog of every table is in order. -/
def CatalogsOk (ex : QueryExecutor) (s : Store) : Prop :=
  ∀ table, Key.NulFree table → Index.CatalogOk ex.ns ex.db table s

omit [CodeIntel] in
theorem CatalogsOk.load {ex : QueryExecutor} (hex : ex.Regular) {s : Store} (h : ex.CatalogsOk s)
    {table : String} (htable : Key.NulFree table) :
    ∃ defs, (Index.loadIndexDefinitions ex.ns ex.db table).run s = (.ok defs, s) ∧
      (Collection.load ex.ns ex.db table).run s = (.ok (ex.collection table defs), s) ∧
      (ex.collection table defs).Catalogued s :=
  Collection.load_eq_ok hex.ns hex.db htable (h table htable)

/-! ## Statements that write in one transaction -/

omit [CodeIntel] in
theorem writesLast_execCreate (ex : QueryExecutor) (uuid table : String) (id : Option String)
    (fields : Assignments) (onConflict : Option OnConflict) :
    Prog.WritesLast (ex.execCreate uuid table id fields onConflict) := by
  refine (Collection.readOnly_load _ _ _).writesLast_bind fun c => ?_
  split
  · split
    · trivial
    · exact Prog.writesLast_bind_ret (c.writesLast_upsert _ _ _)
        fun r => if r.2 then QueryResult.created r.1 else .updated r.1
  · split
    · exact Prog.writesLast_bind_ret (c.writesLast_createInner _ _) QueryResult.created
    · exact Prog.writesLast_bind_ret (c.writesLast_createInner _ _) QueryResult.created

omit [CodeIntel] in
theorem writesLast_execRelate (ex : QueryExecutor) (src : RecordRef) (edgeType : String)
    (dst : RecordRef) (fields : Assignments) :
    Prog.WritesLast (ex.execRelate src edgeType dst fields) := by
  refine Prog.writesLast_bind_ret ?_ fun _ => QueryResult.ok
  exact (Prog.readOnly_lift _).writesLast_bind fun _ => Prog.writesLast_commit _

omit [CodeIntel] in
theorem writesLast_execDelete (ex : QueryExecutor) (table id : String) :
    Prog.WritesLast (ex.execDelete table id) :=
  (Collection.readOnly_load _ _ _).writesLast_bind fun c =>
    Prog.writesLast_bind_ret (c.writesLast_delete id) QueryResult.deleted

theorem writesLast_execUpdate_record (ex : QueryExecutor) (r : RecordRef) (fields : Assignments)
    (filter : Option WhereClause) : Prog.WritesLast (ex.execUpdate (.record r) fields filter) := by
  refine (Collection.readOnly_load _ _ _).writesLast_bind fun c =>
    (c.readOnly_get r.id).writesLast_bind fun doc => ?_
  split
  · exact Prog.writesLast_bind_ret (c.writesLast_merge _ _) fun _ => QueryResult.update 1
  · trivial

/-! ## Updates and deletions write record by record -/

theorem updateRows_steps {c : Collection} {fields : Fields} {filter : Option WhereClause}
    {docs : List Document} {matched : Nat} {s s' : Store} {r : Result Nat}
    (h : (updateRows c fields filter docs matched).run s = (r, s')) :
    c.Steps (fun s id _ => c.docKey id ∈ s) s s' := by
  induction docs generalizing matched s with
  | nil =>
    cases h
    exact .refl _
  | cons doc docs ih =>
    rw [updateRows] at h
    split at h
    · rcases Prog.run_bind_cases h with ⟨_, hmerge, _⟩ | ⟨_, s₁, hmerge, h⟩
      · exact Collection.merge_steps hmerge
      · exact (Collection.merge_steps hmerge).trans (ih h)
    · exact ih h

theorem deleteRows_steps {c : Collection} {filter : Option WhereClause} {docs : List Document}
    {count : Nat} {s s' : Store} {r : Result Nat}
    (h : (deleteRows c filter docs count).run s = (r, s')) :
    c.Steps (fun _ _ new => new = none) s s' := by
  induction docs generalizing count s with
  | nil =>
    cases h
    exact .refl _
  | cons doc docs ih =>
    rw [deleteRows] at h
    split at h
    · rcases Prog.run_bind_cases h with ⟨_, hdelete, _⟩ | ⟨_, s₁, hdelete, h⟩
      · exact Collection.delete_steps hdelete
      · exact (Collection.delete_steps hdelete).trans (ih h)
    · exact ih h

omit [CodeIntel] in
theorem readOnly_candidates (c : Collection) (filter : Option WhereClause) :
    Prog.ReadOnly (candidates c filter) := by
  unfold candidates
  split
  · exact (Collection.readOnly_findIds _ _ _ _ _ _ _ _).bind fun _ => c.readOnly_getMany _
  · exact c.readOnly_scanAll

/-- The table a statement of updates or deletions is about. -/
def targetTable : FromTarget → String
  | .table table => table
  | .record r => r.table

theorem execUpdate_steps {ex : QueryExecutor} {target : FromTarget} {fields : Assignments}
    {filter : Option WhereClause} {defs : List IndexDefinition} {s s' : Store} {r : Result QueryResult}
    (hload : (Collection.load ex.ns ex.db (targetTable target)).run s =
      (.ok (ex.collection (targetTable target) defs), s))
    (h : (ex.execUpdate target fields filter).run s = (r, s')) :
    (ex.collection (targetTable target) defs).Steps
      (fun s id _ => (ex.collection (targetTable target) defs).docKey id ∈ s) s s' := by
  cases target with
  | record ref =>
    dsimp only [targetTable] at hload ⊢
    rw [execUpdate, Prog.run_bind_ok hload] at h
    rcases (Collection.readOnly_get _ _).run_bind_cases h with ⟨_, _, _, rfl⟩ | ⟨doc, _, h⟩
    · exact .refl _
    · cases doc with
      | none =>
        cases h
        exact .refl _
      | some doc =>
        rcases Prog.run_bind_cases h with ⟨_, hmerge, _⟩ | ⟨_, s₁, hmerge, h⟩
        · exact Collection.merge_steps hmerge
        · cases h
          exact Collection.merge_steps hmerge
  | table table =>
    dsimp only [targetTable] at hload ⊢
    rw [execUpdate, Prog.run_bind_ok hload] at h
    rcases (Collection.readOnly_scanAll _).run_bind_cases h with ⟨_, _, _, rfl⟩ | ⟨docs, _, h⟩
    · exact .refl _
    · rcases Prog.run_bind_cases h with ⟨_, hrows, _⟩ | ⟨_, s₁, hrows, h⟩
      · exact updateRows_steps hrows
      · cases h
        exact updateRows_steps hrows

omit [CodeIntel] in
theorem execCreate_steps {ex : QueryExecutor} {uuid table : String} {id : Option String}
    {fields : Assignments} {onConflict : Option OnConflict} {defs : List IndexDefinition} {s s' : Store}
    {r : Result QueryResult}
    (hload : (Collection.load ex.ns ex.db table).run s = (.ok (ex.collection table defs), s))
    (h : (ex.execCreate uuid table id fields onConflict).run s = (r, s')) :
    (ex.collection table defs).Steps (fun _ _ _ => True) s s' := by
  have hcreate : ∀ {id doc} {x : Result RecordId} {s₁}, doc.id.id = id →
      ((ex.collection table defs).createInner id doc).run s = (x, s₁) →
        (ex.collection table defs).Steps (fun _ _ _ => True) s s₁ := by
    intro id doc x s₁ hid hrun
    rcases Collection.createInner_step hid hrun with rfl | hrep
    · exact .refl _
    · exact .step hrep trivial (.refl _)
  rw [execCreate, Prog.run_bind_ok hload] at h
  cases onConflict with
  | none =>
    cases id with
    | none =>
      rcases Prog.run_bind_cases h with ⟨_, hrun, _⟩ | ⟨_, s₁, hrun, h⟩
      · exact hcreate rfl hrun
      · cases h
        exact hcreate rfl hrun
    | some id =>
      rcases Prog.run_bind_cases h with ⟨_, hrun, _⟩ | ⟨_, s₁, hrun, h⟩
      · exact hcreate rfl hrun
      · cases h
        exact hcreate rfl hrun
  | some conflict =>
    cases id with
    | none =>
      cases h
      exact .refl _
    | some id =>
      have hid : (setAll (Document.new ⟨table, id⟩) fields).id.id = id := by rw [setAll_id]; rfl
      have hupsert : ∀ {x s₁}, ((ex.collection table defs).upsert id (setAll (Document.new ⟨table, id⟩) fields)
          (conflictFields fields conflict)).run s = (x, s₁) →
            (ex.collection table defs).Steps (fun _ _ _ => True) s s₁ := by
        intro x s₁ hrun
        have hrun : ((ex.collection table defs).upsert (setAll (Document.new ⟨table, id⟩) fields).id.id
            (setAll (Document.new ⟨table, id⟩) fields) (conflictFields fields conflict)).run s = (x, s₁) := by
          rw [hid]
          exact hrun
        rcases Collection.upsert_step hrun with rfl | ⟨old, new, hrep⟩
        · exact .refl _
        · exact .step hrep trivial (.refl _)
      rcases Prog.run_bind_cases h with ⟨_, hrun, _⟩ | ⟨_, s₁, hrun, h⟩
      · exact hupsert hrun
      · cases h
        exact hupsert hrun

omit [CodeIntel] in
theorem execDelete_steps {ex : QueryExecutor} {table id : String} {defs : List IndexDefinition}
    {s s' : Store} {r : Result QueryResult}
    (hload : (Collection.load ex.ns ex.db table).run s = (.ok (ex.collection table defs), s))
    (h : (ex.execDelete table id).run s = (r, s')) :
    (ex.collection table defs).Steps (fun _ _ new => new = none) s s' := by
  rw [execDelete, Prog.run_bind_ok hload] at h
  rcases Prog.run_bind_cases h with ⟨_, hdelete, _⟩ | ⟨_, s₁, hdelete, h⟩
  · exact Collection.delete_steps hdelete
  · cases h
    exact Collection.delete_steps hdelete

theorem execDeleteWhere_steps {ex : QueryExecutor} {table : String} {filter : Option WhereClause}
    {defs : List IndexDefinition} {s s' : Store} {r : Result QueryResult}
    (hload : (Collection.load ex.ns ex.db table).run s = (.ok (ex.collection table defs), s))
    (h : (ex.execDeleteWhere table filter).run s = (r, s')) :
    (ex.collection table defs).Steps (fun _ _ new => new = none) s s' := by
  rw [execDeleteWhere, Prog.run_bind_ok hload] at h
  rcases (readOnly_candidates _ _).run_bind_cases h with ⟨_, _, _, rfl⟩ | ⟨docs, _, h⟩
  · exact .refl _
  · rcases Prog.run_bind_cases h with ⟨_, hrows, _⟩ | ⟨_, s₁, hrows, h⟩
    · exact deleteRows_steps hrows
    · cases h
      exact deleteRows_steps hrows

/-! ## Where the operations of a statement lie -/

omit [CodeIntel] in
theorem Writes.mem_keys {c : Collection} {id : String} {old : Option Fields} {new : Fields}
    {puts : List PutOp} {deletes : List Bytes} (h : Writes c id old new puts deletes) {k : Bytes}
    (hk : k ∈ puts.map Prod.fst ∨ k ∈ deletes) :
    k = c.docKey id ∨ k ∈ c.entryKeys id (some new) ∨ k ∈ c.entryKeys id old := by
  rcases hk with hk | hk
  · obtain ⟨b, _, hputs⟩ := h.puts
    rw [hputs, List.map_cons, List.mem_cons] at hk
    exact hk.imp_right .inl
  · rw [h.deletes] at hk
    exact .inr (.inr hk)

omit [Rmp] [CodeIntel] in
theorem nulFree_of_recordOf {i : Issued} (hnamed : i.stmt.Named) {r : RecordRef}
    (h : recordOf i = some r) : Key.NulFree r.table := by
  unfold recordOf at h
  split at h
  · rename_i hstmt
    cases h
    rwa [hstmt] at hnamed
  · cases h

/-- A statement of a batch writes documents and entries of the table it names, and edges. -/
def Owns (i : Issued) (table : String) (t : UInt8) : Prop :=
  (∃ id, recordOf i = some ⟨table, id⟩ ∧ (t = Key.Tag.document ∨ t = Key.Tag.index)) ∨
    t = Key.Tag.graphEdge

omit [CodeIntel] in
theorem Adds.owns {ex : QueryExecutor} {s : Store} {i : Issued} {a : BatchState} (h : Adds ex s i a)
    (hnamed : i.stmt.Named) {k : Bytes} (hk : k ∈ a.puts.map Prod.fst ∨ k ∈ a.deletes) :
    ∃ table t r, Key.NulFree table ∧ k = Key.tablePrefix ex.ns ex.db table t ++ r ∧ Owns i table t := by
  cases h with
  | record names load held writes created updated =>
    rename_i ref defs
    have htable := nulFree_of_recordOf hnamed names
    have hentry : ∀ fields, k ∈ (ex.collection ref.table defs).entryKeys ref.id fields →
        ∃ table t r, Key.NulFree table ∧ k = Key.tablePrefix ex.ns ex.db table t ++ r ∧
          Owns i table t := by
      intro fields hmem
      obtain ⟨_, _, _, _, hisEntry⟩ := Collection.mem_entryKeys hmem
      obtain ⟨r, rfl⟩ := hisEntry.eq_append
      exact ⟨ref.table, Key.Tag.index, r, htable, rfl, .inl ⟨ref.id, names, .inr rfl⟩⟩
    rcases writes.mem_keys hk with rfl | hmem | hmem
    · exact ⟨ref.table, Key.Tag.document, asBytes ref.id, htable, rfl, .inl ⟨ref.id, names, .inl rfl⟩⟩
    · exact hentry _ hmem
    · exact hentry _ hmem
  | relate stmt puts deletes created updated =>
    rename_i src dst edgeType fields
    have htable : Key.NulFree edgeType := by rwa [stmt] at hnamed
    rw [deletes] at hk
    unfold EdgeStore.relateToOps at puts
    rcases hprops : EdgeStore.serializeProps (edgeOf src edgeType dst fields).properties with _ | props
    · rw [hprops] at puts
      cases puts
    · rw [hprops] at puts
      replace puts := (Except.ok.inj puts).symm
      rw [puts] at hk
      simp only [List.map_cons, List.map_nil, List.mem_cons, List.not_mem_nil, or_false] at hk
      rcases hk with rfl | rfl
      · exact ⟨edgeType, Key.Tag.graphEdge, _, htable, Key.graphOutgoingKey_eq .., .inr rfl⟩
      · exact ⟨edgeType, Key.Tag.graphEdge, _, htable, Key.graphIncomingKey_eq .., .inr rfl⟩

omit [CodeIntel] in
/-- Keys no statement of the batch owns are not among its operations. -/
theorem Collects.notMem {ex : QueryExecutor} {s : Store} {stmts : List Issued} {st : BatchState}
    (h : Collects ex s stmts st) (hnamed : ∀ i ∈ stmts, i.stmt.Named) {table : String}
    (htable : Key.NulFree table) {t : UInt8} (hapart : ∀ i ∈ stmts, ¬ Owns i table t) (r : Bytes) :
    Key.tablePrefix ex.ns ex.db table t ++ r ∉ st.puts.map Prod.fst ∧
      Key.tablePrefix ex.ns ex.db table t ++ r ∉ st.deletes := by
  induction h with
  | nil => simp [BatchState.empty]
  | @cons i stmts a rest st head tail follows ih =>
    obtain ⟨hi, hrest⟩ := List.forall_mem_cons.mp hnamed
    obtain ⟨hapart, hapart'⟩ := List.forall_mem_cons.mp hapart
    have hhead : ¬ (Key.tablePrefix ex.ns ex.db table t ++ r ∈ a.puts.map Prod.fst ∨
        Key.tablePrefix ex.ns ex.db table t ++ r ∈ a.deletes) := by
      intro hk
      obtain ⟨table', t', r', htable', heq, howns⟩ := (adds_of_alone head).owns hi hk
      obtain ⟨rfl, rfl, _⟩ := (Key.tablePrefix_append_inj_table htable htable' ..).mp heq
      exact hapart howns
    obtain ⟨hputs, hdeletes⟩ := ih hrest hapart'
    rw [follows.puts, follows.deletes, List.map_append, List.mem_append, List.mem_append]
    exact ⟨fun hk => hk.elim (fun h => hhead (.inl h)) hputs,
      fun hk => hk.elim (fun h => hhead (.inr h)) hdeletes⟩

omit [CodeIntel] in
theorem Collects.frame {ex : QueryExecutor} {s : Store} {stmts : List Issued} {st : BatchState}
    (h : Collects ex s stmts st) (hnamed : ∀ i ∈ stmts, i.stmt.Named) {table : String}
    (htable : Key.NulFree table) {t : UInt8} (hapart : ∀ i ∈ stmts, ¬ Owns i table t) (s' : Store)
    (r : Bytes) :
    (s'.writeBatch st.puts st.deletes)[Key.tablePrefix ex.ns ex.db table t ++ r]? =
      s'[Key.tablePrefix ex.ns ex.db table t ++ r]? := by
  obtain ⟨hputs, hdeletes⟩ := h.notMem hnamed htable hapart r
  rw [Store.getElem?_writeBatch, Store.lastPut_eq_none_iff.mpr hputs, if_neg hdeletes]
  rfl

omit [Rmp] [CodeIntel] in
theorem not_owns_metadata (i : Issued) (table : String) : ¬ Owns i table Key.Tag.metadata := by
  rintro (⟨_, _, h | h⟩ | h) <;> exact absurd h (by decide)

omit [CodeIntel] in
theorem Collects.sameMetadata {ex : QueryExecutor} {s : Store} {stmts : List Issued} {st : BatchState}
    (h : Collects ex s stmts st) (hnamed : ∀ i ∈ stmts, i.stmt.Named) {table : String}
    (htable : Key.NulFree table) (s' : Store) :
    Index.SameMetadata ex.ns ex.db table s' (s'.writeBatch st.puts st.deletes) :=
  h.frame hnamed htable (fun i _ => not_owns_metadata i table) s'

omit [CodeIntel] in
theorem collects_singleton {ex : QueryExecutor} {s : Store} {i : Issued} {a : BatchState}
    (h : ex.alone s i = .ok a) : Collects ex s [i] a :=
  .cons h .nil ⟨(List.append_nil _).symm, (List.append_nil _).symm, rfl, rfl⟩

/-! ## Index DDL -/

omit [CodeIntel] in
theorem run_execDefineIndex {ex : QueryExecutor} {name table : String} {fields : List String}
    {unique : Bool} {s s' : Store} {r : Result QueryResult}
    (h : (ex.execDefineIndex name table fields unique).run s = (r, s')) :
    (∃ e, r = .error e ∧ s' = s) ∨ r = .ok .ok ∧ fields ≠ [] ∧ ∃ docs puts b,
      (Collection.new ex.ns ex.db table).scanAll.run s = (.ok docs, s) ∧
      backfill ex.ns ex.db table (.btree name fields unique) docs [] = .ok puts ∧
      Rmp.definitionToVec (.btree name fields unique) = .ok b ∧
      s' = s.writeBatch ((Key.indexCatalogKey ex.ns ex.db table name, b) :: puts) [] := by
  unfold execDefineIndex at h
  split at h
  · cases h
    exact .inl ⟨_, rfl, rfl⟩
  · rename_i hne
    rcases (Collection.readOnly_scanAll _).run_bind_cases h with ⟨e, _, hr, hs⟩ | ⟨docs, hdocs, h⟩
    · exact .inl ⟨e, hr, hs⟩
    · rcases hputs : backfill ex.ns ex.db table (.btree name fields unique) docs [] with _ | puts
      · rw [hputs] at h
        cases h
        exact .inl ⟨_, rfl, rfl⟩
      · rw [hputs] at h
        rcases hb : Rmp.definitionToVec (IndexDefinition.btree name fields unique) with _ | b
        · simp only [Index.indexDefinitionKv, hb] at h
          cases h
          exact .inl ⟨_, rfl, rfl⟩
        · simp only [Index.indexDefinitionKv, hb] at h
          cases h
          exact .inr ⟨rfl, by simpa using hne, docs, puts, b, hdocs, hputs, rfl, rfl⟩

omit [CodeIntel] in
theorem run_execRemoveIndex {ex : QueryExecutor} {name table : String} {s s' : Store}
    {r : Result QueryResult} (h : (ex.execRemoveIndex name table).run s = (r, s')) :
    (∃ e, r = .error e ∧ s' = s ∧ (Index.loadIndexDefinitions ex.ns ex.db table).run s = (.error e, s)) ∨
      r = .ok .ok ∧ s' = s.writeBatch [] (s.scanPrefixKeys (Key.indexPrefix ex.ns ex.db table name) ++
        [Key.indexCatalogKey ex.ns ex.db table name]) := by
  rcases (readOnly_loadIndexDefinitions _ _ _).run_bind_cases h with ⟨e, he, hr, hs⟩ | ⟨_, _, h⟩
  · exact .inl ⟨e, hr, hs, he⟩
  · cases h
    exact .inr ⟨rfl, rfl⟩

omit [Rmp] [CodeIntel] in
/-- The backfill puts the entries of all the documents, and for a unique index none of their
tuples is met twice. -/
theorem backfill_eq_ok {ns db table : String} {idx : IndexDefinition} {docs : List Document}
    {seen : List Bytes} {puts : List PutOp} (h : backfill ns db table idx docs seen = .ok puts) :
    puts = docs.flatMap (fun doc => Index.entriesOf ns db table doc [idx]) ∧
      (∀ doc ∈ docs, Index.CanIndex doc [idx]) ∧
      (idx.unique = true →
        (∀ doc ∈ docs, ∀ values part, Index.collectIndexValues doc idx = some values →
          Index.encodeCompositeKeyPart values = .ok part → part ∉ seen) ∧
        docs.Pairwise fun doc doc' => ∀ us vs part, Index.collectIndexValues doc idx = some us →
          Index.collectIndexValues doc' idx = some vs → Index.encodeCompositeKeyPart us = .ok part →
            Index.encodeCompositeKeyPart vs ≠ .ok part) := by
  induction docs generalizing seen puts with
  | nil =>
    cases h
    exact ⟨rfl, by simp, fun _ => ⟨by simp, .nil⟩⟩
  | cons doc docs ih =>
    rw [backfill] at h
    -- The first document passes the check and adds its tuple to those seen.
    obtain ⟨seen', hseen, hsub, h⟩ : ∃ seen',
        (idx.unique = true → ∀ values part, Index.collectIndexValues doc idx = some values →
          Index.encodeCompositeKeyPart values = .ok part → part ∉ seen ∧ part ∈ seen') ∧
        (∀ part ∈ seen, part ∈ seen') ∧
        (do
          let entries ← Index.buildIndexEntries doc ns db table [idx]
          let rest ← backfill ns db table idx docs seen'
          return entries ++ rest) = Except.ok puts := by
      cases hunique : idx.unique with
      | false =>
        rw [hunique] at h
        exact ⟨seen, by simp, fun _ => id, h⟩
      | true =>
        cases hvalues : Index.collectIndexValues doc idx with
        | none =>
          rw [hunique, hvalues] at h
          exact ⟨seen, by simp, fun _ => id, h⟩
        | some values =>
          rw [hunique, hvalues] at h
          dsimp only at h
          cases hpart : Index.encodeCompositeKeyPart values with
          | error e =>
            rw [hpart] at h
            cases h
          | ok part =>
            rw [hpart] at h
            by_cases hmem : part ∈ seen
            · simp only [bind, Except.bind, hmem, ↓reduceIte] at h
              cases h
            · simp only [bind, Except.bind, hmem, ↓reduceIte] at h
              refine ⟨part :: seen, ?_, fun _ => List.mem_cons_of_mem _, h⟩
              rintro _ values' part' hvalues' hpart'
              cases hvalues'
              rw [hpart] at hpart'
              cases hpart'
              exact ⟨hmem, List.mem_cons_self⟩
    cases hentries : Index.buildIndexEntries doc ns db table [idx] with
    | error e =>
      rw [hentries] at h
      cases h
    | ok entries =>
      cases hrest : backfill ns db table idx docs seen' with
      | error e =>
        rw [hentries, hrest] at h
        cases h
      | ok rest =>
        rw [hentries, hrest] at h
        cases h
        obtain ⟨hcan, rfl⟩ := Index.canIndex_of_buildIndexEntries hentries
        obtain ⟨rfl, hcans, huniques⟩ := ih hrest
        refine ⟨rfl, List.forall_mem_cons.mpr ⟨hcan, hcans⟩, fun hunique => ?_⟩
        obtain ⟨hfresh, hpairs⟩ := huniques hunique
        refine ⟨List.forall_mem_cons.mpr ⟨?_, ?_⟩, List.pairwise_cons.mpr ⟨?_, hpairs⟩⟩
        · exact fun values part hvalues hpart => (hseen hunique values part hvalues hpart).1
        · exact fun doc' hdoc' values part hvalues hpart hmem =>
            hfresh doc' hdoc' values part hvalues hpart (hsub part hmem)
        · exact fun doc' hdoc' us vs part hus hvs hpart hpart' =>
            hfresh doc' hdoc' vs part hvs hpart' (hseen hunique us part hus hpart).2

/-! ## The catalog of every table stays in order -/

omit [CodeIntel] in
theorem CatalogsOk.of_same {ex : QueryExecutor} {s s' : Store} (h : ex.CatalogsOk s)
    (hsame : ∀ table, Key.NulFree table → Index.SameMetadata ex.ns ex.db table s s') :
    ex.CatalogsOk s' :=
  fun table htable => (hsame table htable).catalogOk (h table htable)

omit [CodeIntel] in
theorem CatalogsOk.steps {ex : QueryExecutor} {s s' : Store} (h : ex.CatalogsOk s) {table : String}
    {defs : List IndexDefinition} (htable : Key.NulFree table)
    {Q : Store → String → Option Fields → Prop} (hsteps : (ex.collection table defs).Steps Q s s') :
    ex.CatalogsOk s' :=
  h.of_same fun _ htable' => hsteps.sameMetadata htable htable'

omit [Rmp] [CodeIntel] in
theorem entriesOf_key {ns db table : String} {doc : Document} {indexes : List IndexDefinition} {k : Bytes}
    (h : k ∈ (Index.entriesOf ns db table doc indexes).map Prod.fst) :
    ∃ r, k = Key.tablePrefix ns db table Key.Tag.index ++ r := by
  obtain ⟨op, hop, rfl⟩ := List.mem_map.mp h
  obtain ⟨idx, _, _, values, _, rfl⟩ := Index.mem_entriesOf_iff.mp hop
  exact ⟨_, Index.entryKey_eq ..⟩

omit [Rmp] [CodeIntel] in
theorem backfill_key {ns db table : String} {idx : IndexDefinition} {docs : List Document}
    {seen : List Bytes} {puts : List PutOp} (h : backfill ns db table idx docs seen = .ok puts)
    {k : Bytes} (hk : k ∈ puts.map Prod.fst) :
    ∃ r, k = Key.tablePrefix ns db table Key.Tag.index ++ r := by
  obtain ⟨rfl, _⟩ := backfill_eq_ok h
  rw [List.map_flatMap, List.mem_flatMap] at hk
  obtain ⟨doc, _, hmem⟩ := hk
  exact entriesOf_key hmem

omit [Rmp] [CodeIntel] in
/-- What `DEFINE INDEX` leaves outside the index entries of its table. -/
theorem getElem?_define {ex : QueryExecutor} {name table : String} {idx : IndexDefinition}
    {docs : List Document} {seen : List Bytes} {puts : List PutOp} (htable : Key.NulFree table)
    (h : backfill ex.ns ex.db table idx docs seen = .ok puts) (s : Store) (b : Bytes) {table' : String}
    (htable' : Key.NulFree table') {t : UInt8} (hapart : table' ≠ table ∨ t ≠ Key.Tag.index) (r : Bytes) :
    (s.writeBatch ((Key.indexCatalogKey ex.ns ex.db table name, b) :: puts) [])[
        Key.tablePrefix ex.ns ex.db table' t ++ r]? =
      if Key.indexCatalogKey ex.ns ex.db table name = Key.tablePrefix ex.ns ex.db table' t ++ r then some b
      else s[Key.tablePrefix ex.ns ex.db table' t ++ r]? := by
  have hnotMem : Key.tablePrefix ex.ns ex.db table' t ++ r ∉ puts.map Prod.fst := by
    intro hmem
    obtain ⟨r', heq⟩ := backfill_key h hmem
    obtain ⟨rfl, rfl, _⟩ := (Key.tablePrefix_append_inj_table htable' htable ..).mp heq
    exact hapart.elim (fun hne => hne rfl) fun hne => hne rfl
  rw [Store.getElem?_writeBatch, Store.lastPut, Store.lastPut_eq_none_iff.mpr hnotMem]
  split <;> simp

omit [Rmp] [CodeIntel] in
/-- `DEFINE INDEX` writes the metadata and the index entries of its table only. -/
theorem getElem?_define_apart {ex : QueryExecutor} {name table : String} {idx : IndexDefinition}
    {docs : List Document} {seen : List Bytes} {puts : List PutOp} (htable : Key.NulFree table)
    (h : backfill ex.ns ex.db table idx docs seen = .ok puts) (s : Store) (b : Bytes) {table' : String}
    (htable' : Key.NulFree table') {t : UInt8}
    (hapart : table' ≠ table ∨ t ≠ Key.Tag.index ∧ t ≠ Key.Tag.metadata) (r : Bytes) :
    (s.writeBatch ((Key.indexCatalogKey ex.ns ex.db table name, b) :: puts) [])[
        Key.tablePrefix ex.ns ex.db table' t ++ r]? = s[Key.tablePrefix ex.ns ex.db table' t ++ r]? := by
  rw [getElem?_define htable h s b htable' (hapart.imp_right And.left), if_neg]
  intro heq
  rw [Key.indexCatalogKey_eq, Key.indexCatalogPrefix_eq, List.append_assoc] at heq
  obtain ⟨rfl, rfl, _⟩ := (Key.tablePrefix_append_inj_table htable htable' ..).mp heq
  exact hapart.elim (fun hne => hne rfl) fun hne => hne.2 rfl

omit [CodeIntel] in
/-- After `DEFINE INDEX` the catalog holds the definition, and those of other names as before. -/
theorem inCatalog_define {ex : QueryExecutor} {name table : String} (htable : Key.NulFree table)
    {fields : List String} {unique : Bool} {docs : List Document} {puts : List PutOp} {b : Bytes}
    (hputs : backfill ex.ns ex.db table (.btree name fields unique) docs [] = .ok puts)
    (hb : Rmp.definitionToVec (.btree name fields unique) = .ok b) (s : Store) (idx : IndexDefinition) :
    Index.InCatalog ex.ns ex.db table
        (s.writeBatch ((Key.indexCatalogKey ex.ns ex.db table name, b) :: puts) []) idx ↔
      idx = .btree name fields unique ∨ idx.name ≠ name ∧ Index.InCatalog ex.ns ex.db table s idx := by
  have hget : (s.writeBatch ((Key.indexCatalogKey ex.ns ex.db table name, b) :: puts) [])[
      Key.tablePrefix ex.ns ex.db table Key.Tag.metadata ++
        (Key.idx ++ [Key.separator] ++ asBytes idx.name)]? = _ :=
    getElem?_define htable hputs s b htable (.inr (by decide)) _
  rw [← List.append_assoc, ← Key.indexCatalogPrefix_eq, ← Key.indexCatalogKey_eq] at hget
  rw [Index.InCatalog, hget]
  by_cases hname : name = idx.name
  · rw [if_pos (Key.indexCatalogKey_inj.mpr hname)]
    constructor
    · rintro ⟨_, ⟨⟩, hidx⟩
      exact .inl (Except.ok.inj (hidx.symm.trans (Rmp.definitionFromSlice_toVec hb)))
    · rintro (rfl | ⟨hne, _⟩)
      · exact ⟨b, rfl, Rmp.definitionFromSlice_toVec hb⟩
      · exact absurd hname.symm hne
  · rw [if_neg (hname ∘ Key.indexCatalogKey_inj.mp)]
    constructor
    · exact fun h => .inr ⟨Ne.symm hname, h⟩
    · rintro (rfl | ⟨_, h⟩)
      · exact absurd rfl hname
      · exact h

omit [CodeIntel] in
theorem CatalogsOk.define {ex : QueryExecutor} {s : Store} (h : ex.CatalogsOk s) {name table : String}
    (hname : Key.NulFree name) (htable : Key.NulFree table) {fields : List String} (hfields : fields ≠ [])
    {unique : Bool} {docs : List Document} {puts : List PutOp} {b : Bytes}
    (hputs : backfill ex.ns ex.db table (.btree name fields unique) docs [] = .ok puts)
    (hb : Rmp.definitionToVec (.btree name fields unique) = .ok b) :
    ex.CatalogsOk (s.writeBatch ((Key.indexCatalogKey ex.ns ex.db table name, b) :: puts) []) := by
  intro table' htable' k v hk hp
  obtain ⟨r, rfl⟩ := hp
  rw [Key.indexCatalogPrefix_eq, List.append_assoc] at hk
  rw [getElem?_define htable hputs s b htable' (.inr (by decide))] at hk
  rw [← List.append_assoc, ← Key.indexCatalogPrefix_eq] at hk
  split at hk
  · rename_i heq
    cases hk
    rw [← heq]
    have hsame : table = table' := by
      simp only [Key.indexCatalogKey_eq, Key.indexCatalogPrefix_eq, List.append_assoc] at heq
      exact ((Key.tablePrefix_append_inj_table htable htable' ..).mp heq).1
    subst hsame
    exact ⟨_, Rmp.definitionFromSlice_toVec hb, rfl, hname, hfields, rfl⟩
  · exact h table' htable' _ v hk (List.prefix_append ..)

omit [CodeIntel] in
theorem CatalogsOk.deleteBatch {ex : QueryExecutor} {s : Store} (h : ex.CatalogsOk s)
    (keys : List Bytes) : ex.CatalogsOk (s.writeBatch [] keys) := by
  intro table htable k v hk hp
  rw [Store.getElem?_writeBatch] at hk
  split at hk
  · cases hk
  · exact h table htable k v hk hp

omit [CodeIntel] in
theorem catalogsOk_empty (ex : QueryExecutor) : ex.CatalogsOk ∅ := by
  intro table _ k v hk
  cases hk

theorem CatalogsOk.statement {ex : QueryExecutor} (hex : ex.Regular) {s : Store} (h : ex.CatalogsOk s)
    {i : Issued} (hnamed : i.stmt.Named) {p : Db QueryResult} (hp : ex.execute i = some p) :
    ex.CatalogsOk (p.run s).2 := by
  have hops : ∀ {q s'}, (∃ a, ex.alone s i = .ok a ∧ ex.Admitted s i ∧
      s' = s.writeBatch a.puts a.deletes ∧ q = ex.answer s i) → ex.CatalogsOk s' := by
    rintro q s' ⟨a, ha, _, rfl, _⟩
    have hnamed' : ∀ j ∈ [i], j.stmt.Named := by simpa using hnamed
    exact h.of_same fun _ htable => (collects_singleton ha).sameMetadata hnamed' htable s
  obtain ⟨uuid, stmt⟩ := i
  rcases hrun : p.run s with ⟨r, s'⟩
  cases stmt with
  | create table id fields onConflict =>
    cases hp
    cases r with
    | error e => rwa [(ex.writesLast_execCreate uuid table id fields onConflict).run_error hrun]
    | ok q => exact hops ((execCreate_eq_ok_iff rfl).mp hrun)
  | relate src edgeType dst fields =>
    cases hp
    cases r with
    | error e => rwa [(ex.writesLast_execRelate src edgeType dst fields).run_error hrun]
    | ok q => exact hops ((execRelate_eq_ok_iff rfl).mp hrun)
  | update target fields filter =>
    cases hp
    have htable : Key.NulFree (targetTable target) := by cases target <;> exact hnamed
    obtain ⟨defs, _, hload, _⟩ := h.load hex htable
    exact h.steps htable (execUpdate_steps hload hrun)
  | delete table id =>
    cases hp
    obtain ⟨defs, _, hload, _⟩ := h.load hex hnamed
    exact h.steps hnamed (execDelete_steps hload hrun)
  | deleteWhere table filter =>
    cases hp
    obtain ⟨defs, _, hload, _⟩ := h.load hex hnamed
    exact h.steps hnamed (execDeleteWhere_steps hload hrun)
  | defineIndex name table fields unique =>
    cases hp
    rcases run_execDefineIndex hrun with ⟨_, _, rfl⟩ | ⟨_, hne, docs, puts, b, _, hputs, hb, rfl⟩
    · exact h
    · exact h.define hnamed.1 hnamed.2 hne hputs hb
  | removeIndex name table =>
    cases hp
    rcases run_execRemoveIndex hrun with ⟨_, _, rfl, _⟩ | ⟨_, rfl⟩
    · exact h
    · exact h.deleteBatch _
  | _ => cases hp

theorem CatalogsOk.request {ex : QueryExecutor} (hex : ex.Regular) {s : Store} (h : ex.CatalogsOk s)
    {r : Request} (hnamed : r.Named) {p : Db QueryResult} (hp : ex.prog r = some p) :
    ex.CatalogsOk (p.run s).2 := by
  cases r with
  | statement i => exact h.statement hex hnamed hp
  | batch stmts =>
    cases hp
    rcases hrun : (ex.executeBatch stmts).run s with ⟨_ | q, s'⟩
    · rwa [run_executeBatch_error hrun]
    · obtain ⟨st, hst, rfl, _⟩ := run_executeBatch hrun
      exact h.of_same fun _ htable => hst.sameMetadata hnamed htable s

theorem Reachable.catalogsOk {ex : QueryExecutor} (hex : ex.Regular) {Q : Store → Request → Prop}
    {s : Store} (h : ex.Reachable Q s) : ex.CatalogsOk s := by
  induction h with
  | empty => exact ex.catalogsOk_empty
  | request _ named _ prog ih => exact ih.request hex named prog

end QueryExecutor

end Dllb
