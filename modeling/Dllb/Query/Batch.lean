import Mathlib
import Dllb.Query.Unique

/-! # Batches against the same statements run one by one

A batch computes the operations of all its statements on the store before it
and applies all deletes before all puts. It comes to the same as the statements
run one by one when no two of them meet in a record and those that create pass
the checks that the batch leaves out.
-/

namespace Dllb

set_option autoImplicit false

/-! ## Batches one after the other -/

namespace Store

/-- Deletes that touch nothing the first batch puts can be moved before it. -/
theorem writeBatch_writeBatch {s : Store} {puts puts' : List PutOp} {deletes deletes' : List Bytes}
    (h : ∀ k ∈ deletes', k ∉ puts.map Prod.fst) :
    (s.writeBatch puts deletes).writeBatch puts' deletes' =
      s.writeBatch (puts ++ puts') (deletes ++ deletes') := by
  apply Std.ExtTreeMap.ext_getElem?
  intro k
  simp only [getElem?_writeBatch, lastPut_append, List.mem_append, Option.or_assoc]
  congr 1
  by_cases hk : k ∈ deletes'
  · simp [hk, lastPut_eq_none_iff.mpr (h k hk)]
  · simp [hk]

end Store

namespace Index

variable [Rmp]

theorem SameMetadata.loadIndexDefinitions {ns db table : String} {s s' : Store}
    (h : SameMetadata ns db table s s') :
    ((loadIndexDefinitions ns db table).run s').1 = ((loadIndexDefinitions ns db table).run s).1 := by
  have hscan : s'.prefixScan (Key.indexCatalogPrefix ns db table) =
      s.prefixScan (Key.indexCatalogPrefix ns db table) := by
    refine Store.prefixScan_congr (Key.prefixEnd_indexCatalogPrefix_ne_nil ns db table) ?_
    rintro k ⟨r, rfl⟩
    rw [Key.indexCatalogPrefix_eq, List.append_assoc]
    exact h _
  rw [Index.loadIndexDefinitions, Db.prefixScan, Prog.run_query_bind, Prog.run_query_bind, hscan,
    Prog.run_lift, Prog.run_lift]

end Index

namespace QueryExecutor

variable [Rmp]

/-! ## A statement reads its own record and the catalog of its table -/

/-- The two stores agree on what a statement of a batch reads. -/
def SameFor (ex : QueryExecutor) (i : Issued) (s s' : Store) : Prop :=
  ∀ r, recordOf i = some r → Index.SameMetadata ex.ns ex.db r.table s s' ∧
    s'[Key.documentKey ex.ns ex.db r.table r.id]? = s[Key.documentKey ex.ns ex.db r.table r.id]?

theorem SameFor.alone {ex : QueryExecutor} {i : Issued} {s s' : Store} (h : ex.SameFor i s s')
    {a : BatchState} (ha : ex.alone s i = .ok a) : ex.alone s' i = .ok a := by
  rcases stmt_of_alone ha with ⟨table, id, fields, onConflict, hstmt⟩ | ⟨src, edgeType, dst, fields, hstmt⟩
  · obtain ⟨hmeta, hdoc⟩ := h ⟨table, id.getD i.uuid⟩ (by simp [recordOf, hstmt])
    dsimp only at hmeta hdoc
    obtain ⟨defs, ops, hload, hops, rfl⟩ := (alone_create_iff hstmt).mp ha
    refine (alone_create_iff hstmt).mpr ⟨defs, ops, ?_, ?_, rfl⟩
    · have hfst := hmeta.loadIndexDefinitions
      rw [hload] at hfst
      exact Prod.ext hfst ((readOnly_loadIndexDefinitions ex.ns ex.db table).run_snd s')
    · cases onConflict with
      | none =>
        obtain ⟨_, hputs⟩ := createOps_plain_iff.mp hops
        exact createOps_plain_iff.mpr ⟨rfl, hputs⟩
      | some conflict =>
        cases id with
        | none => cases hops
        | some id =>
          obtain ⟨_, ⟨habsent, hputs⟩ | ⟨old, ⟨b, hb, hold⟩, hrops⟩⟩ := createOps_upsert_iff.mp hops
          · exact createOps_upsert_iff.mpr ⟨rfl, .inl ⟨hdoc.trans habsent, hputs⟩⟩
          · exact createOps_upsert_iff.mpr ⟨rfl, .inr ⟨old, ⟨b, hdoc.trans hb, hold⟩, hrops⟩⟩
  · obtain ⟨puts, hputs, rfl⟩ := (alone_relate_iff hstmt).mp ha
    exact (alone_relate_iff hstmt).mpr ⟨puts, hputs, rfl⟩

theorem Collects.congr {ex : QueryExecutor} {s s' : Store} {stmts : List Issued} {st : BatchState}
    (h : Collects ex s stmts st) (hsame : ∀ i ∈ stmts, ex.SameFor i s s') : Collects ex s' stmts st := by
  induction h with
  | nil => exact .nil
  | cons head tail follows ih =>
    obtain ⟨hhead, htail⟩ := List.forall_mem_cons.mp hsame
    exact .cons (hhead.alone head) (ih htail) follows

/-- What a statement writes is not what another one reads, unless they name the same record. -/
theorem sameFor_of_ne {ex : QueryExecutor} {s : Store} {i j : Issued} (hi : i.stmt.Named)
    (hj : j.stmt.Named) (hne : ∀ r, recordOf i = some r → recordOf j ≠ some r) {a : BatchState}
    (ha : ex.alone s i = .ok a) : ex.SameFor j s (s.writeBatch a.puts a.deletes) := by
  intro r hr
  have hnamed : ∀ i' ∈ [i], i'.stmt.Named := by simpa using hi
  have htable := nulFree_of_recordOf hj hr
  refine ⟨(collects_singleton ha).sameMetadata hnamed htable s, ?_⟩
  have hputs : Key.documentKey ex.ns ex.db r.table r.id ∉ a.puts.map Prod.fst :=
    (adds_of_alone ha).document_notMem hi htable fun hr' => hne r hr' hr
  rw [Store.getElem?_writeBatch, Store.lastPut_eq_none_iff.mpr hputs,
    if_neg ((collects_singleton ha).document_notMem_deletes hnamed htable)]
  rfl

/-- The deletes of a batch spare what a statement on another record puts. -/
theorem Collects.deletes_notMem {ex : QueryExecutor} (hex : ex.Regular) {s : Store} (hs : ex.CatalogsOk s)
    {stmts : List Issued} {rest : BatchState} (h : Collects ex s stmts rest)
    (hnamed : ∀ j ∈ stmts, j.stmt.Named) {i : Issued} (hi : i.stmt.Named)
    (hne : ∀ j ∈ stmts, ∀ r, recordOf i = some r → recordOf j ≠ some r) {a : BatchState}
    (ha : ex.alone s i = .ok a) : ∀ k ∈ rest.deletes, k ∉ a.puts.map Prod.fst := by
  intro k hk hput
  obtain ⟨j, hj, r, defs, hrecord, hload, hentry⟩ := h.mem_deletes hk
  have hr := nulFree_of_recordOf (hnamed j hj) hrecord
  have hc := catalogued_of_load hex hs hr hload
  obtain ⟨fields, _, idx, hidx, hisEntry⟩ := Collection.mem_entryKeys hentry
  obtain ⟨values, hvalues, rfl⟩ := hisEntry
  cases adds_of_alone ha with
  | @record ref defs' names load held writes created updated =>
    have href := nulFree_of_recordOf hi names
    have hmem : ∀ new, Index.entryKey ex.ns ex.db r.table idx.name values r.id ∉
        (ex.collection ref.table defs').entryKeys ref.id new := by
      intro new hmem
      obtain ⟨_, _, _, _, hisEntry⟩ := Collection.mem_entryKeys hmem
      obtain ⟨rest, heq⟩ := hisEntry.eq_append
      rw [Index.entryKey_eq] at heq
      obtain ⟨htable, _⟩ := (Key.tablePrefix_append_inj_table hr href ..).mp heq
      obtain ⟨rt, ri⟩ := r
      obtain ⟨ft, fi⟩ := ref
      dsimp only at htable
      subst htable
      rw [hload] at load
      cases load
      refine entryKey_notMem_entryKeys hc.regular hidx ?_ hvalues new hmem
      rintro rfl
      exact hne j hj _ names hrecord
    rcases writes.mem_keys (.inl hput) with hkey | hnew | hold
    · have hkey : Index.entryKey ex.ns ex.db r.table idx.name values r.id =
          Key.documentKey ex.ns ex.db ref.table ref.id := hkey
      rw [Index.entryKey_eq, Key.documentKey_eq] at hkey
      exact absurd ((Key.tablePrefix_append_inj_table hr href ..).mp hkey).2.1 (by decide)
    · exact hmem _ hnew
    · exact hmem _ hold
  | relate stmt puts deletes created updated =>
    obtain ⟨table, t, rest', htable, heq, howns⟩ :=
      (Adds.relate stmt puts deletes created updated : Adds ex s i a).owns hi (.inl hput)
    dsimp only [collection] at heq
    rw [Index.entryKey_eq] at heq
    obtain ⟨_, rfl, _⟩ := (Key.tablePrefix_append_inj_table hr htable ..).mp heq
    rcases howns with ⟨id, hrecord', _⟩ | htag
    · simp [recordOf, stmt] at hrecord'
    · exact absurd htag (by decide)

end QueryExecutor

/-! ## Running the statements one by one -/

namespace QueryExecutor

variable [Rmp] [CodeIntel]

/-- Each statement succeeds on the store the ones before it have left. -/
inductive Sequential (ex : QueryExecutor) : Store → List Issued → List QueryResult → Store → Prop
  | nil (s : Store) : Sequential ex s [] [] s
  | cons {s s₁ s' : Store} {i : Issued} {stmts : List Issued} {q : QueryResult} {qs : List QueryResult}
      {p : Db QueryResult} (prog : ex.execute i = some p) (head : p.run s = (.ok q, s₁))
      (tail : Sequential ex s₁ stmts qs s') : Sequential ex s (i :: stmts) (q :: qs) s'

/-- The statements succeed one by one with the store and the counts of the batch. -/
def Agrees (ex : QueryExecutor) (s : Store) (stmts : List Issued) (q : QueryResult) (s' : Store) : Prop :=
  ∃ qs, ex.Sequential s stmts qs s' ∧
    q = .batch stmts.length (qs.map QueryResult.createdCount).sum (qs.map QueryResult.updatedCount).sum

/-- A statement of a batch issued alone: it succeeds exactly behind the checks. -/
theorem execute_eq_ok_iff {ex : QueryExecutor} {s s' : Store} {i : Issued}
    (hstmt : (∃ table id fields onConflict, i.stmt = .create table id fields onConflict) ∨
      ∃ src edgeType dst fields, i.stmt = .relate src edgeType dst fields) {q : QueryResult} :
    (∃ p, ex.execute i = some p ∧ p.run s = (.ok q, s')) ↔
      ∃ a, ex.alone s i = .ok a ∧ ex.Admitted s i ∧ s' = s.writeBatch a.puts a.deletes ∧
        q = ex.answer s i := by
  rcases hstmt with ⟨table, id, fields, onConflict, hstmt⟩ | ⟨src, edgeType, dst, fields, hstmt⟩
  · rw [← execCreate_eq_ok_iff hstmt]
    simp [execute, hstmt]
  · rw [← execRelate_eq_ok_iff hstmt]
    simp [execute, hstmt]

omit [CodeIntel] in
theorem Adds.counts {ex : QueryExecutor} {s : Store} {i : Issued} {a : BatchState} (h : Adds ex s i a) :
    (ex.answer s i).createdCount = a.created ∧ (ex.answer s i).updatedCount = a.updated := by
  cases h with
  | record names load held writes created updated =>
    rw [answer, names, created, updated]
    cases ex.taken s i <;> exact ⟨rfl, rfl⟩
  | relate stmt puts deletes created updated =>
    rw [created, updated]
    simp [answer, recordOf, stmt, QueryResult.createdCount, QueryResult.updatedCount]

/-! ## When the two agree -/

/-- Taken one by one, each statement passes the checks, and none names a record that an earlier
one has named. -/
def Separate (ex : QueryExecutor) : Store → List Issued → Prop
  | _, [] => True
  | s, i :: stmts =>
    ex.Admitted s i ∧ (∀ j ∈ stmts, ∀ r, recordOf i = some r → recordOf j ≠ some r) ∧
      ∀ a, ex.alone s i = .ok a → ex.Separate (s.writeBatch a.puts a.deletes) stmts

theorem agrees_of_separate {ex : QueryExecutor} (hex : ex.Regular) {s : Store} (hs : ex.CatalogsOk s)
    {stmts : List Issued} (hnamed : ∀ i ∈ stmts, i.stmt.Named) {st : BatchState}
    (hst : Collects ex s stmts st) (h : ex.Separate s stmts) :
    ∃ qs, ex.Sequential s stmts qs (s.writeBatch st.puts st.deletes) ∧
      (qs.map QueryResult.createdCount).sum = st.created ∧
      (qs.map QueryResult.updatedCount).sum = st.updated := by
  induction stmts generalizing s st with
  | nil =>
    cases hst
    exact ⟨[], .nil s, rfl, rfl⟩
  | cons i stmts ih =>
    cases hst with
    | @cons _ _ a rest _ head tail follows =>
      obtain ⟨hi, hrest⟩ := List.forall_mem_cons.mp hnamed
      obtain ⟨hadmitted, hne, hseparate⟩ := h
      obtain ⟨p, hp, hrun⟩ := (execute_eq_ok_iff (stmt_of_alone head)).mpr ⟨a, head, hadmitted, rfl, rfl⟩
      have hs₁ : ex.CatalogsOk (s.writeBatch a.puts a.deletes) :=
        hs.of_same fun _ htable => (collects_singleton head).sameMetadata (by simpa using hi) htable s
      have htail := tail.congr fun j hj => sameFor_of_ne hi (hrest j hj) (hne j hj) head
      obtain ⟨qs, hseq, hcreated, hupdated⟩ := ih hs₁ hrest htail (hseparate a head)
      obtain ⟨hc, hu⟩ := (adds_of_alone head).counts
      refine ⟨ex.answer s i :: qs, ?_, ?_, ?_⟩
      · rw [follows.puts, follows.deletes,
          ← Store.writeBatch_writeBatch (tail.deletes_notMem hex hs hrest hi hne head)]
        exact .cons hp hrun hseq
      · rw [List.map_cons, List.sum_cons, hcreated, hc, follows.created]
      · rw [List.map_cons, List.sum_cons, hupdated, hu, follows.updated]

/-- No stored record is named by two statements. -/
def StoredOnce (ex : QueryExecutor) (s : Store) (stmts : List Issued) : Prop :=
  stmts.Pairwise fun i j => ∀ r, recordOf i = some r → recordOf j = some r →
    s[Key.documentKey ex.ns ex.db r.table r.id]? = none

omit [CodeIntel] in
theorem document_of_alone {ex : QueryExecutor} {s : Store} {i : Issued} {a : BatchState}
    (ha : ex.alone s i = .ok a) {r : RecordRef} (hr : recordOf i = some r) :
    (s.writeBatch a.puts a.deletes)[Key.documentKey ex.ns ex.db r.table r.id]?.isSome = true := by
  obtain ⟨b, _, hput⟩ := (adds_of_alone ha).lastPut_document hr
  rw [Store.getElem?_writeBatch, hput]
  rfl

omit [CodeIntel] in
/-- A statement of a batch removes no document. -/
theorem document_kept {ex : QueryExecutor} {s s₀ : Store} {i : Issued} (hi : i.stmt.Named) {a : BatchState}
    (ha : ex.alone s₀ i = .ok a) {r : RecordRef} (hr : Key.NulFree r.table)
    (h : s[Key.documentKey ex.ns ex.db r.table r.id]?.isSome = true) :
    (s.writeBatch a.puts a.deletes)[Key.documentKey ex.ns ex.db r.table r.id]?.isSome = true := by
  have hnotMem := (collects_singleton ha).document_notMem_deletes (by simpa using hi) hr
  rw [Store.getElem?_writeBatch, if_neg hnotMem, Option.isSome_or, h, Bool.or_true]

omit [CodeIntel] in
/-- An upsert takes a record that is there to be there. -/
theorem Adds.taken_isSome {ex : QueryExecutor} {s : Store} {i : Issued} {a : BatchState}
    (h : Adds ex s i a) (hupserts : upserts i = true) {r : RecordRef} (hr : recordOf i = some r)
    (hthere : s[Key.documentKey ex.ns ex.db r.table r.id]?.isSome = true) :
    (ex.taken s i).isSome = true := by
  cases h with
  | @record ref defs names load held writes created updated =>
    obtain rfl : r = ref := Option.some.inj (hr.symm.trans names)
    have hheld := held hupserts
    cases htaken : ex.taken s i with
    | some old => rfl
    | none =>
      rw [htaken] at hheld
      have habsent : s[Key.documentKey ex.ns ex.db r.table r.id]? = none := hheld
      rw [habsent] at hthere
      cases hthere
  | relate stmt puts deletes created updated => simp [recordOf, stmt] at hr

omit [CodeIntel] in
theorem document_of_taken {ex : QueryExecutor} {s : Store} {i : Issued} {r : RecordRef}
    (hr : recordOf i = some r) (h : (ex.taken s i).isSome = true) :
    upserts i = true ∧ s[Key.documentKey ex.ns ex.db r.table r.id]?.isSome = true := by
  rw [taken] at h
  split at h
  · rename_i hupserts
    refine ⟨hupserts, ?_⟩
    rw [hr, Option.bind_some, stored] at h
    cases hb : s[Key.documentKey ex.ns ex.db r.table r.id]? with
    | none =>
      rw [hb] at h
      cases h
    | some b => rfl
  · cases h

omit [CodeIntel] in
/-- On a store that has all the documents of `s₀`, a statement that is let pass creates a record only
if it would on `s₀`; it does not if the record has come into being since. -/
theorem created_le {ex : QueryExecutor} {s₀ s : Store} {i : Issued} {a₀ a : BatchState}
    (ha₀ : ex.alone s₀ i = .ok a₀) (ha : ex.alone s i = .ok a) (hadmitted : ex.Admitted s i)
    (hmono : ∀ r, recordOf i = some r → s₀[Key.documentKey ex.ns ex.db r.table r.id]?.isSome = true →
      s[Key.documentKey ex.ns ex.db r.table r.id]?.isSome = true) :
    a.created ≤ a₀.created ∧
      ∀ r, recordOf i = some r → s[Key.documentKey ex.ns ex.db r.table r.id]?.isSome = true →
        s₀[Key.documentKey ex.ns ex.db r.table r.id]? = none → a.created < a₀.created := by
  cases adds_of_alone ha₀ with
  | @record ref defs₀ names load₀ held₀ writes₀ created₀ updated₀ =>
    cases adds_of_alone ha with
    | relate stmt => simp [recordOf, stmt] at names
    | @record ref' defs names' load held writes created updated =>
      rw [created, created₀]
      constructor
      · by_cases htaken₀ : (ex.taken s₀ i).isSome = true
        · obtain ⟨hupserts, hthere⟩ := document_of_taken names htaken₀
          rw [if_pos htaken₀,
            if_pos ((adds_of_alone ha).taken_isSome hupserts names (hmono ref names hthere))]
        · rw [if_neg htaken₀]
          split <;> omega
      · intro r hr hthere habsent
        have htaken₀ : ¬ (ex.taken s₀ i).isSome = true := by
          intro htaken₀
          have hthere₀ := (document_of_taken hr htaken₀).2
          rw [habsent] at hthere₀
          cases hthere₀
        have htaken : (ex.taken s i).isSome = true := by
          by_contra hnot
          have hnone : ex.taken s i = none := by simpa using hnot
          have habsent' := (hadmitted r hr hnone).1
          rw [habsent'] at hthere
          cases hthere
        rw [if_pos htaken, if_neg htaken₀]
        omega
  | relate stmt puts deletes created₀ updated₀ =>
    have hrecord : recordOf i = none := by simp [recordOf, stmt]
    cases adds_of_alone ha with
    | record names => simp [hrecord] at names
    | relate stmt' puts' deletes' created updated =>
      refine ⟨by omega, fun r hr => ?_⟩
      rw [hrecord] at hr
      cases hr

/-- Along a run, and strictly so once a statement meets a record that has come into being. -/
theorem Sequential.created_le {ex : QueryExecutor} {s₀ s s' : Store} {stmts : List Issued}
    {qs : List QueryResult} {st : BatchState} (h : ex.Sequential s stmts qs s')
    (hst : Collects ex s₀ stmts st) (hnamed : ∀ i ∈ stmts, i.stmt.Named)
    (hmono : ∀ r : RecordRef, Key.NulFree r.table →
      s₀[Key.documentKey ex.ns ex.db r.table r.id]?.isSome = true →
        s[Key.documentKey ex.ns ex.db r.table r.id]?.isSome = true) :
    (qs.map QueryResult.createdCount).sum ≤ st.created ∧
      ∀ j ∈ stmts, ∀ r, recordOf j = some r →
        s[Key.documentKey ex.ns ex.db r.table r.id]?.isSome = true →
        s₀[Key.documentKey ex.ns ex.db r.table r.id]? = none →
          (qs.map QueryResult.createdCount).sum < st.created := by
  induction h generalizing st with
  | nil s =>
    cases hst
    exact ⟨le_rfl, by simp⟩
  | @cons s s₁ s' i stmts q qs p prog head tail ih =>
    cases hst with
    | @cons _ _ a₀ rest _ ha₀ hrest follows =>
      obtain ⟨hi, hnamed⟩ := List.forall_mem_cons.mp hnamed
      obtain ⟨a, ha, hadmitted, rfl, rfl⟩ := (execute_eq_ok_iff (stmt_of_alone ha₀)).mp ⟨p, prog, head⟩
      obtain ⟨hle, hlt⟩ := QueryExecutor.created_le ha₀ ha hadmitted
        fun r hr => hmono r (nulFree_of_recordOf hi hr)
      obtain ⟨hle', hlt'⟩ := ih hrest hnamed fun r hr hthere => document_kept hi ha hr (hmono r hr hthere)
      have hcount := (adds_of_alone ha).counts.1
      rw [List.map_cons, List.sum_cons, hcount, follows.created]
      refine ⟨by omega, List.forall_mem_cons.mpr ⟨?_, ?_⟩⟩
      · intro r hr hthere habsent
        have := hlt r hr hthere habsent
        omega
      · intro j hj r hr hthere habsent
        have hthere := document_kept hi ha (nulFree_of_recordOf (hnamed j hj) hr) hthere
        have := hlt' j hj r hr hthere habsent
        omega

theorem separate_of_sequential {ex : QueryExecutor} {s s' : Store} {stmts : List Issued}
    {qs : List QueryResult} {st : BatchState} (h : ex.Sequential s stmts qs s')
    (hst : Collects ex s stmts st) (hnamed : ∀ i ∈ stmts, i.stmt.Named)
    (hcount : (qs.map QueryResult.createdCount).sum = st.created) (honce : ex.StoredOnce s stmts) :
    ex.Separate s stmts := by
  induction h generalizing st with
  | nil s => trivial
  | @cons s s₁ s' i stmts q qs p prog head tail ih =>
    cases hst with
    | @cons _ _ a rest _ ha hrest follows =>
      obtain ⟨hi, hnamed⟩ := List.forall_mem_cons.mp hnamed
      obtain ⟨hfirst, honce⟩ := List.pairwise_cons.mp honce
      obtain ⟨a', ha', hadmitted, rfl, rfl⟩ := (execute_eq_ok_iff (stmt_of_alone ha)).mp ⟨p, prog, head⟩
      obtain rfl : a = a' := Except.ok.inj (ha.symm.trans ha')
      rw [List.map_cons, List.sum_cons, (adds_of_alone ha).counts.1, follows.created] at hcount
      -- A later statement on the same record would find it there, where the batch counts it as created.
      have hne : ∀ j ∈ stmts, ∀ r, recordOf i = some r → recordOf j ≠ some r := by
        intro j hj r hr hr'
        obtain ⟨_, hlt⟩ := tail.created_le hrest hnamed fun r hr hthere => document_kept hi ha hr hthere
        have := hlt j hj r hr' (document_of_alone ha hr) (hfirst j hj r hr hr')
        omega
      have hsame : ∀ j ∈ stmts, ex.SameFor j s (s.writeBatch a.puts a.deletes) :=
        fun j hj => sameFor_of_ne hi (hnamed j hj) (hne j hj) ha
      refine ⟨hadmitted, hne, ?_⟩
      intro b hb
      obtain rfl : a = b := Except.ok.inj (ha.symm.trans hb)
      refine ih (hrest.congr hsame) hnamed (by omega) ?_
      refine honce.imp_of_mem ?_
      intro j k hj hk habsent r hr hr'
      rw [(hsame j hj r hr).2]
      exact habsent r hr hr'

/-- A batch that succeeds comes to the same as its statements run one by one if none of them creates
what is there, clashes with a unique index or names a record an earlier one has named; and only if,
unless a stored record is named by two statements. -/
theorem batch_agrees_with_sequence {ex : QueryExecutor} (hex : ex.Regular) {s : Store}
    (hs : ex.Reachable (fun _ _ => True) s) {stmts : List Issued} (hnamed : ∀ i ∈ stmts, i.stmt.Named)
    {q : QueryResult} {s' : Store} (hbatch : (ex.executeBatch stmts).run s = (.ok q, s')) :
    (ex.Separate s stmts → ex.Agrees s stmts q s') ∧
      (ex.StoredOnce s stmts → ex.Agrees s stmts q s' → ex.Separate s stmts) := by
  obtain ⟨st, hst, rfl, rfl⟩ := run_executeBatch hbatch
  constructor
  · intro hseparate
    obtain ⟨qs, hseq, hcreated, hupdated⟩ :=
      agrees_of_separate hex (hs.catalogsOk hex) hnamed hst hseparate
    exact ⟨qs, hseq, by rw [hcreated, hupdated]⟩
  · rintro honce ⟨qs, hseq, hcounts⟩
    exact separate_of_sequential hseq hst hnamed (QueryResult.batch.inj hcounts).2.1.symm honce

end QueryExecutor

/-! ## A batch that differs and one that agrees -/

/-- `CREATE t:x SET a = 2` and `RELATE t:x -> e -> t:y`, as they stand in a batch. -/
def createX : Issued := ⟨"", .create "t" (some "x") [("a", .int 2)] none⟩

def relateXY : Issued := ⟨"", .relate ⟨"t", "x"⟩ "e" ⟨"t", "y"⟩ []⟩

section Runs

open QueryExecutor Concrete

theorem reachable_created : accounts.Reachable (fun _ _ => True) (accounts.after [createAt "x" 1]) :=
  Reachable.concat [] .empty (by decide : Key.NulFree "t") trivial rfl

/-- A batch writes over a record that the same `CREATE` alone refuses. -/
theorem batch_overwrites_record :
    ¬ ∀ s, accounts.Reachable (fun _ _ => True) s → ∀ stmts : List Issued, (∀ i ∈ stmts, i.stmt.Named) →
      ∀ q s', (accounts.executeBatch stmts).run s = (.ok q, s') → accounts.Agrees s stmts q s' := by
  intro h
  have hbatch : (accounts.executeBatch [createX]).run (accounts.after [createAt "x" 1]) =
      (.ok (.batch 1 1 0), ((accounts.executeBatch [createX]).run (accounts.after [createAt "x" 1])).2) := rfl
  have hnamed : ∀ i ∈ [createX], i.stmt.Named := by
    intro i hi
    rw [List.mem_singleton.mp hi]
    exact (by decide : Key.NulFree "t")
  obtain ⟨qs, hseq, _⟩ := h _ reachable_created _ hnamed _ _ hbatch
  have halone : ((accounts.execCreate "" "t" (some "x") [("a", .int 2)] none).run
      (accounts.after [createAt "x" 1])).1 =
        .error (.other [.text ("record already exists: " ++ "x")]) := rfl
  cases hseq with
  | cons prog head tail =>
    cases prog
    cases (congrArg Prod.fst head).symm.trans halone

theorem batch_agrees_with_sequence_defined :
    accounts.Agrees (accounts.after [defineByA]) [createX, relateXY] (.batch 2 1 0)
      (accounts.after [defineByA, .batch [createX, relateXY]]) := by
  have hnamed : ∀ i ∈ [createX, relateXY], i.stmt.Named := by
    intro i hi
    rcases List.mem_pair.mp hi with rfl | rfl
    · exact (by decide : Key.NulFree "t")
    · exact (by decide : Key.NulFree "e")
  have hreach : accounts.Reachable (fun _ _ => True) (accounts.after [defineByA]) :=
    Reachable.concat [] .empty ⟨by decide, by decide⟩ trivial rfl
  have hbatch : (accounts.executeBatch [createX, relateXY]).run (accounts.after [defineByA]) =
      (.ok (.batch 2 1 0), accounts.after [defineByA, .batch [createX, relateXY]]) := rfl
  refine (batch_agrees_with_sequence regular_accounts hreach hnamed hbatch).1 ⟨?_, ?_, ?_⟩
  · intro r hr _
    cases hr
    refine ⟨rfl, ?_⟩
    intro defs hdefs
    have hload : (Index.loadIndexDefinitions "n" "d" "t").run (accounts.after [defineByA]) =
        (.ok [.btree "by_a" ["a"] true], accounts.after [defineByA]) := rfl
    obtain rfl := Except.ok.inj (Prod.ext_iff.mp (hload.symm.trans hdefs)).1
    rfl
  · intro j hj r _ hr
    obtain rfl := List.mem_singleton.mp hj
    cases hr
  · intro a _
    refine ⟨?_, by simp, fun _ _ => trivial⟩
    intro r hr
    cases hr

end Runs

end Dllb
