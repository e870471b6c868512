import Mathlib
import Dllb.Query.Legible
import Dllb.Query.Reads

/-! # What a request that fails leaves behind

A batch and a statement on one record write in one transaction, their last. A
deletion of many rows does not fail once it has begun, since the documents it
meets can be read and indexed. An update of a table can fail at a row, and the
rows before it stay updated.
-/

namespace Dllb

set_option autoImplicit false

namespace QueryExecutor

variable [Rmp]

/-! ## Deletions do not fail half way -/

theorem run_delete_ok {ex : QueryExecutor} {table : String} {s : Store} (h : ex.Legible table s)
    {defs : List IndexDefinition} (hc : (ex.collection table defs).Catalogued s) (id : String) :
    ∃ existed s', ((ex.collection table defs).delete id).run s = (.ok existed, s') := by
  cases hdoc : s[(ex.collection table defs).docKey id]? with
  | none =>
    refine ⟨false, s, ?_⟩
    simp [Collection.delete, Collection.get, Db.get, Prog.run_bind, hdoc]
  | some b =>
    obtain ⟨id', fields, hid, hfields⟩ := h.readable (asBytes id) b hdoc
    obtain rfl : id = id' := asBytes_inj.mp hid
    have hget : ((ex.collection table defs).get id).run s = (.ok (some ⟨⟨table, id⟩, fields⟩), s) := by
      simp [Collection.get, Db.get, Prog.run_bind, hdoc, deserialize, hfields]
      rfl
    have hes : (ex.collection table defs).entries ⟨⟨table, id⟩, fields⟩ = .ok _ :=
      Index.buildIndexEntries_of_canIndex _ _ _ (h.canIndex hc ⟨b, hdoc, hfields⟩)
    rw [Collection.delete, Prog.run_bind_ok hget]
    dsimp only
    rw [hes]
    exact ⟨true, _, rfl⟩

variable [CodeIntel]

theorem run_deleteRows_ok {ex : QueryExecutor} {table : String} {s : Store} (h : ex.AllLegible s)
    {defs : List IndexDefinition} (hc : (ex.collection table defs).Catalogued s)
    (filter : Option WhereClause) (docs : List Document) (count : Nat) :
    ∃ n s', (deleteRows (ex.collection table defs) filter docs count).run s = (.ok n, s') := by
  induction docs generalizing s count with
  | nil => exact ⟨count, s, rfl⟩
  | cons doc docs ih =>
    rw [deleteRows]
    split
    · have htable := hc.regular.table
      obtain ⟨existed, s₁, hdelete⟩ := run_delete_ok (h table htable) hc doc.id.id
      have hsteps := Collection.delete_steps hdelete
      rw [Prog.run_bind_ok hdelete]
      exact ih (h.steps hc hsteps) (hc.congr (hsteps.sameMetadata htable htable)) _
    · exact ih h hc count

/-! ## Updates fail at a row -/

/-- The update has merged the fields into the rows that pass the filter, up to one at which the
merge fails. -/
def PartlyUpdated (ex : QueryExecutor) (table : String) (fields : Fields) (filter : Option WhereClause)
    (s : Store) (e : Error) (s' : Store) : Prop :=
  ∃ c docs done doc rest, (Collection.load ex.ns ex.db table).run s = (.ok c, s) ∧
    c.scanAll.run s = (.ok docs, s) ∧
    docs.filter (fun doc => filter.all (matchesWhere doc)) = done ++ doc :: rest ∧
    (updateRows c fields none done 0).run s = (.ok done.length, s') ∧
    (c.merge doc.id.id fields).run s' = (.error e, s')

theorem updateRows_error {c : Collection} {fields : Fields} {filter : Option WhereClause}
    {docs : List Document} {matched : Nat} {s s' : Store} {e : Error}
    (h : (updateRows c fields filter docs matched).run s = (.error e, s')) (n : Nat) :
    ∃ done doc rest, docs.filter (fun doc => filter.all (matchesWhere doc)) = done ++ doc :: rest ∧
      (updateRows c fields none done n).run s = (.ok (n + done.length), s') ∧
      (c.merge doc.id.id fields).run s' = (.error e, s') := by
  induction docs generalizing matched s n with
  | nil => cases h
  | cons doc docs ih =>
    rw [updateRows] at h
    split at h
    · rename_i hmatch
      simp only [List.filter_cons, hmatch, ↓reduceIte]
      rcases Prog.run_bind_cases h with ⟨e', hmerge, he⟩ | ⟨_, s₁, hmerge, h⟩
      · cases he
        obtain rfl := (c.writesLast_merge doc.id.id fields).run_error hmerge
        exact ⟨[], doc, _, rfl, rfl, hmerge⟩
      · obtain ⟨done, failed, rest, hfilter, hdone, hfailed⟩ := ih h (n + 1)
        refine ⟨doc :: done, failed, rest, by rw [hfilter]; rfl, ?_, hfailed⟩
        have hcount : n + 1 + done.length = n + (doc :: done).length := by
          rw [List.length_cons]
          omega
        rw [updateRows, if_pos (Option.all_none), Prog.run_bind_ok hmerge, hdone, hcount]
    · rename_i hmatch
      simp only [List.filter_cons, hmatch]
      exact ih h n

theorem execUpdate_table_error {ex : QueryExecutor} {table : String} {fields : Assignments}
    {filter : Option WhereClause} {s s' : Store} {e : Error}
    (h : (ex.execUpdate (.table table) fields filter).run s = (.error e, s')) :
    s' = s ∨ ex.PartlyUpdated table (assigned fields) filter s e s' := by
  rcases (Collection.readOnly_load _ _ _).run_bind_cases h with ⟨_, _, _, hs⟩ | ⟨c, hload, h⟩
  · exact .inl hs
  rcases c.readOnly_scanAll.run_bind_cases h with ⟨_, _, _, hs⟩ | ⟨docs, hdocs, h⟩
  · exact .inl hs
  rcases Prog.run_bind_cases h with ⟨e', hrows, he⟩ | ⟨_, _, _, hret⟩
  · cases he
    obtain ⟨done, doc, rest, hfilter, hdone, hfailed⟩ := updateRows_error hrows 0
    rw [Nat.zero_add] at hdone
    exact .inr ⟨c, docs, done, doc, rest, hload, hdocs, hfilter, hdone, hfailed⟩
  · cases hret

/-! ## Statements -/

theorem execDeleteWhere_error {ex : QueryExecutor} (hex : ex.Regular) {s : Store} (hs : ex.CatalogsOk s)
    (hlegible : ex.AllLegible s) {table : String} (htable : Key.NulFree table)
    {filter : Option WhereClause} {s' : Store} {e : Error}
    (h : (ex.execDeleteWhere table filter).run s = (.error e, s')) : s' = s := by
  obtain ⟨defs, _, hload, hc⟩ := hs.load hex htable
  rw [execDeleteWhere, Prog.run_bind_ok hload] at h
  rcases (readOnly_candidates _ _).run_bind_cases h with ⟨_, _, _, hs'⟩ | ⟨docs, _, h⟩
  · exact hs'
  · obtain ⟨n, s₁, hrows⟩ := run_deleteRows_ok hlegible hc filter docs 0
    rw [Prog.run_bind_ok hrows] at h
    cases h

/-- A statement that fails leaves the store as it was, unless it is an update of a table: then the
rows before the one it fails at are updated, and nothing else is changed. -/
theorem execute_error {ex : QueryExecutor} (hex : ex.Regular) {s : Store} (hs : ex.CatalogsOk s)
    (hlegible : ex.AllLegible s) {i : Issued} (hnamed : i.stmt.Named) {p : Db QueryResult}
    (hp : ex.execute i = some p) {s' : Store} {e : Error} (h : p.run s = (.error e, s')) :
    s' = s ∨ ∃ table fields filter, i.stmt = .update (.table table) fields filter ∧
      ex.PartlyUpdated table (assigned fields) filter s e s' := by
  obtain ⟨uuid, stmt⟩ := i
  cases stmt with
  | create table id fields onConflict =>
    cases hp
    exact .inl ((ex.writesLast_execCreate uuid table id fields onConflict).run_error h)
  | update target fields filter =>
    cases hp
    cases target with
    | record ref => exact .inl ((ex.writesLast_execUpdate_record ref fields filter).run_error h)
    | table table =>
      exact (execUpdate_table_error h).imp_right fun hpartly => ⟨table, fields, filter, rfl, hpartly⟩
  | delete table id =>
    cases hp
    exact .inl ((ex.writesLast_execDelete table id).run_error h)
  | deleteWhere table filter =>
    cases hp
    exact .inl (execDeleteWhere_error hex hs hlegible hnamed h)
  | relate src edgeType dst fields =>
    cases hp
    exact .inl ((ex.writesLast_execRelate src edgeType dst fields).run_error h)
  | defineIndex name table fields unique =>
    cases hp
    rcases run_execDefineIndex h with ⟨_, _, hs'⟩ | ⟨he, _⟩
    · exact .inl hs'
    · cases he
  | removeIndex name table =>
    cases hp
    rcases run_execRemoveIndex h with ⟨_, _, hs', _⟩ | ⟨he, _⟩
    · exact .inl hs'
    · cases he
  | _ => cases hp

variable [Texts] [GraphAlgorithms]

/-- What a connection runs for a request, with the search services disabled. -/
def progAny (ex : QueryExecutor) : Request → Db QueryResult
  | .statement i => ex.executeAny i
  | .batch stmts => ex.executeBatch stmts

/-- A request that fails on a reachable store leaves it as it was, unless it is an update of a table:
then the rows before the one it fails at are updated, and nothing else is changed. -/
theorem failed_request_leaves {ex : QueryExecutor} (hex : ex.Regular) {s : Store}
    (hs : ex.Reachable (fun _ _ => True) s) {r : Request} (hnamed : r.Named) {s' : Store} {e : Error}
    (h : (ex.progAny r).run s = (.error e, s')) :
    s' = s ∨ ∃ uuid table fields filter, r = .statement ⟨uuid, .update (.table table) fields filter⟩ ∧
      ex.PartlyUpdated table (assigned fields) filter s e s' := by
  cases r with
  | batch stmts => exact .inl (run_executeBatch_error h)
  | statement i =>
    rw [progAny, executeAny] at h
    cases hp : ex.execute i with
    | none =>
      rw [hp, Option.getD_none, (readOnly_executeRead ex i).run_eq] at h
      exact .inl (congrArg Prod.snd h).symm
    | some p =>
      rw [hp, Option.getD_some] at h
      rcases execute_error hex (hs.catalogsOk hex) (hs.allLegible hex) hnamed hp h with
        hs' | ⟨table, fields, filter, hstmt, hpartly⟩
      · exact .inl hs'
      · obtain ⟨uuid, stmt⟩ := i
        dsimp only at hstmt
        rw [hstmt]
        exact .inr ⟨uuid, table, fields, filter, rfl, hpartly⟩

end QueryExecutor

section Runs

open QueryExecutor Concrete

/-- An index on two fields, a record that lacks the second, and one that has both. -/
def twoFields : List Request :=
  [.statement ⟨"", .defineIndex "by_ab" "t" ["a", "b"] false⟩,
    .statement ⟨"", .create "t" (some "x") [("a", .int 1)] none⟩,
    .statement ⟨"", .create "t" (some "y") [("a", .int 1), ("b", .int 2)] none⟩]

/-- `UPDATE t SET a = [1]`: an array cannot be indexed. -/
def setArray : Request := .statement ⟨"", .update (.table "t") [("a", .array [.int 1])] none⟩

theorem reachable_twoFields : accounts.Reachable (fun _ _ => True) (accounts.after twoFields) := by
  have hname : Key.NulFree "by_ab" := by decide
  have ht : Key.NulFree "t" := by decide
  have h₀ : accounts.Reachable (fun _ _ => True) (accounts.after []) := .empty
  have h₁ := Reachable.concat [] h₀ (r := .statement ⟨"", .defineIndex "by_ab" "t" ["a", "b"] false⟩)
    ⟨hname, ht⟩ trivial rfl
  have h₂ := Reachable.concat _ h₁ (r := .statement ⟨"", .create "t" (some "x") [("a", .int 1)] none⟩)
    ht trivial rfl
  exact Reachable.concat _ h₂ ht trivial rfl

/-- The first row is updated before the second one fails. -/
theorem update_fails_half_way :
    ¬ ∀ s, accounts.Reachable (fun _ _ => True) s → ∀ r : Request, r.Named → ∀ e s',
      (accounts.progAny r).run s = (.error e, s') → s' = s := by
  intro h
  have hrun : ∃ e s', (accounts.progAny setArray).run (accounts.after twoFields) = (.error e, s') ∧
      accounts.stored s' ⟨"t", "x"⟩ = some (assigned [("a", .array [.int 1])]) := ⟨_, _, rfl, rfl⟩
  obtain ⟨e, s', hrun, hupdated⟩ := hrun
  have ht : Key.NulFree "t" := by decide
  have hsame := h _ reachable_twoFields setArray ht e s' hrun
  have hbefore : accounts.stored (accounts.after twoFields) ⟨"t", "x"⟩ = some (assigned [("a", .int 1)]) := rfl
  rw [hsame, hbefore] at hupdated
  have hfield : some (Value.int 1) = some (.array [.int 1]) :=
    congrArg (fun fields : Option Fields => fields.bind (·["a"]?)) hupdated
  cases hfield

theorem failed_request_leaves_first_row :
    ∃ e s', (accounts.progAny setArray).run (accounts.after twoFields) = (.error e, s') ∧
      (s' = accounts.after twoFields ∨ ∃ uuid table fields filter,
        setArray = .statement ⟨uuid, .update (.table table) fields filter⟩ ∧
          accounts.PartlyUpdated table (assigned fields) filter (accounts.after twoFields) e s') := by
  have ht : Key.NulFree "t" := by decide
  have hrun : ∃ e s', (accounts.progAny setArray).run (accounts.after twoFields) = (.error e, s') := ⟨_, _, rfl⟩
  obtain ⟨e, s', hrun⟩ := hrun
  exact ⟨e, s', hrun, failed_request_leaves regular_accounts reachable_twoFields (r := setArray) ht hrun⟩

end Runs

end Dllb
