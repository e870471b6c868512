import Mathlib
import Dllb.Query.Cache
import Dllb.Query.EdgeFrame
import Dllb.Query.Unique

/-! # The cache is invisible to calls that run one after another

An entry with the current version of its table was computed from the edges the
table holds now: whatever changes them also moves the version on.
-/

namespace Dllb

set_option autoImplicit false

open Key

/-! ## Calls, with the cache and without -/

inductive Call where
  | query (ex : QueryExecutor) (uuid : String) (parsed : Result Query)
  | batch (ex : QueryExecutor) (stmts : List Issued)

namespace Call

section

variable [Texts]

def response : Result (QueryResult × OutcomeFormat) → String
  | .ok (result, outcome) => formatResult result outcome
  | .error e => formatError e .json

variable [Rmp] [CodeIntel] [GraphAlgorithms]

def serve : Call → Shared → String × Shared
  | query ex uuid parsed, sh => ((response (ex.run uuid parsed sh).1), (ex.run uuid parsed sh).2)
  | batch ex stmts, sh => (response ((ex.runBatch stmts sh).1.map (·, .json)), (ex.runBatch stmts sh).2)

/-- The same call without a cache. -/
def serveDirect : Call → Store → String × Store
  | query ex uuid parsed, s =>
    match parsed with
    | .error e => (formatError e .json, s)
    | .ok q =>
      let r := (ex.executeAny ⟨uuid, q.statement⟩).run s
      (response (r.1.map (·, q.outcome)), r.2)
  | batch ex stmts, s =>
    let r := (ex.executeBatch stmts).run s
    (response (r.1.map (·, .json)), r.2)

def serveAll : List Call → Shared → List String
  | [], _ => []
  | call :: calls, sh => (call.serve sh).1 :: serveAll calls (call.serve sh).2

def serveAllDirect : List Call → Store → List String
  | [], _ => []
  | call :: calls, s => (call.serveDirect s).1 :: serveAllDirect calls (call.serveDirect s).2

end

/-- Namespaces, databases, tables, index names and edge types without the separator byte. -/
def Named : Call → Prop
  | query ex _ parsed => ex.Regular ∧ ∀ q, parsed = .ok q → q.statement.Named ∧
      ∀ table kind, QueryExecutor.cacheKind q.statement = some (table, kind) → NulFree table
  | batch ex stmts => ex.Regular ∧ ∀ i ∈ stmts, i.stmt.Named

end Call

/-! ## Versions -/

def Key.Place.tableKey (q : Place) : TableKey := ⟨q.ns, q.db, q.table⟩

theorem WriteVersions.le_bump (versions : WriteVersions) (key k : TableKey) :
    versions k ≤ versions.bump key k := by
  unfold bump
  by_cases h : k = key
  · rw [h, Function.update_self]
    omega
  · rw [Function.update_of_ne h]

namespace QueryExecutor

theorem relates_iff {ex : QueryExecutor} {q : Place} {src dst : RecordRef} {edgeType : String}
    {fields : Assignments} :
    ex.Relates q (.relate src edgeType dst fields) ↔ ex.tableKey edgeType = q.tableKey := by
  simp [Relates, tableKey, Key.Place.tableKey]

theorem le_bumpEdges (ex : QueryExecutor) (stmts : List Issued) (versions : WriteVersions) (k : TableKey) :
    versions k ≤ ex.bumpEdges stmts versions k := by
  induction stmts generalizing versions with
  | nil => exact le_rfl
  | cons i stmts ih =>
    refine le_trans ?_ (ih _)
    obtain ⟨uuid, stmt⟩ := i
    cases stmt with
    | relate src edgeType dst fields => exact versions.le_bump _ _
    | _ => exact le_rfl

/-- A batch that relates to a table moves its version on. -/
theorem lt_bumpEdges {ex : QueryExecutor} {stmts : List Issued} {q : Place}
    (h : ∃ i ∈ stmts, ex.Relates q i.stmt) (versions : WriteVersions) :
    versions q.tableKey < ex.bumpEdges stmts versions q.tableKey := by
  induction stmts generalizing versions with
  | nil =>
    obtain ⟨_, hi, _⟩ := h
    cases hi
  | cons i stmts ih =>
    obtain ⟨j, hj, hrel⟩ := h
    rcases List.mem_cons.mp hj with rfl | hj
    · obtain ⟨uuid, stmt⟩ := j
      cases stmt with
      | relate src edgeType dst fields =>
        refine lt_of_lt_of_le ?_ (ex.le_bumpEdges stmts _ _)
        dsimp only
        rw [relates_iff.mp hrel, WriteVersions.bump, Function.update_self]
        omega
      | _ => exact hrel.elim
    · refine lt_of_le_of_lt ?_ (ih ⟨j, hj, hrel⟩ _)
      exact le_bumpEdges ex [i] versions q.tableKey

theorem bumpEdges_of_not {ex : QueryExecutor} {stmts : List Issued} {q : Place}
    (h : ∀ i ∈ stmts, ¬ ex.Relates q i.stmt) (versions : WriteVersions) :
    ex.bumpEdges stmts versions q.tableKey = versions q.tableKey := by
  induction stmts generalizing versions with
  | nil => rfl
  | cons i stmts ih =>
    obtain ⟨hi, hrest⟩ := List.forall_mem_cons.mp h
    refine (ih hrest _).trans ?_
    obtain ⟨uuid, stmt⟩ := i
    cases stmt with
    | relate src edgeType dst fields =>
      dsimp only
      rw [WriteVersions.bump, Function.update_of_ne]
      exact fun heq => hi (relates_iff.mpr heq.symm)
    | _ => rfl

/-! ## What a cached statement computes -/

/-- The four statements whose results are cached. -/
theorem cacheKind_cases {stmt : Statement} {table : String} {kind : CacheKind}
    (h : cacheKind stmt = some (table, kind)) :
    (∃ algorithm maxIterations resolution, stmt = .graphCommunities table algorithm maxIterations resolution ∧
      kind = .communities (algoStr algorithm) maxIterations resolution.bits) ∨
    (stmt = .graphComponents table ∧ kind = .components) ∨
    (∃ damping maxIterations limit, stmt = .graphPagerank table damping maxIterations limit ∧
      kind = .pageRank damping.bits maxIterations limit) ∨
    ∃ mode limit, stmt = .graphCentrality table mode limit ∧
      kind = .centrality (centralityModeStr mode) limit := by
  cases stmt with
  | graphCommunities table algorithm maxIterations resolution =>
    cases h
    exact .inl ⟨_, _, _, rfl, rfl⟩
  | graphComponents table =>
    cases h
    exact .inr (.inl ⟨rfl, rfl⟩)
  | graphPagerank table damping maxIterations limit =>
    cases h
    exact .inr (.inr (.inl ⟨_, _, _, rfl, rfl⟩))
  | graphCentrality table mode limit =>
    cases h
    exact .inr (.inr (.inr ⟨_, _, rfl, rfl⟩))
  | _ => cases h

theorem algoStr_injective : Function.Injective algoStr := by
  intro a b h
  cases a <;> cases b <;> first | rfl | exact absurd h (by decide)

theorem centralityModeStr_injective : Function.Injective centralityModeStr := by
  intro a b h
  cases a <;> cases b <;> first | rfl | exact absurd h (by decide)

theorem bits_injective {f g : F64} (h : f.bits = g.bits) : f = g := by
  obtain ⟨_⟩ := f
  obtain ⟨_⟩ := g
  cases h
  rfl

theorem cacheKind_inj {stmt stmt' : Statement} {table : String} {kind : CacheKind}
    (h : cacheKind stmt = some (table, kind)) (h' : cacheKind stmt' = some (table, kind)) : stmt = stmt' := by
  have hform := cacheKind_cases h'
  rcases cacheKind_cases h with ⟨a, m, r, rfl, rfl⟩ | ⟨rfl, rfl⟩ | ⟨d, m, l, rfl, rfl⟩ | ⟨mode, l, rfl, rfl⟩
  · simp only [reduceCtorEq, and_false, exists_false, or_false, CacheKind.communities.injEq] at hform
    obtain ⟨a', m', r', rfl, ha, rfl, hr⟩ := hform
    rw [algoStr_injective ha, bits_injective hr]
  · simp only [reduceCtorEq, and_false, exists_false, or_false, false_or, and_true] at hform
    exact hform.symm
  · simp only [reduceCtorEq, and_false, exists_false, or_false, false_or, CacheKind.pageRank.injEq] at hform
    obtain ⟨d', m', l', rfl, hd, rfl, rfl⟩ := hform
    rw [bits_injective hd]
  · simp only [reduceCtorEq, and_false, exists_false, false_or, CacheKind.centrality.injEq] at hform
    obtain ⟨mode', l', rfl, hmode, rfl⟩ := hform
    rw [centralityModeStr_injective hmode]

/-- The key of a cached result names the executor, the statement and the format. -/
theorem cacheKey_inj {ex ex' : QueryExecutor} {stmt stmt' : Statement} {outcome outcome' : OutcomeFormat}
    {key : CacheKey} (h : ex.cacheKey stmt outcome = some key) (h' : ex'.cacheKey stmt' outcome' = some key) :
    ex = ex' ∧ stmt = stmt' ∧ outcome = outcome' := by
  obtain ⟨⟨table, kind⟩, hkind, rfl⟩ := Option.map_eq_some_iff.mp h
  obtain ⟨⟨table', kind'⟩, hkind', heq⟩ := Option.map_eq_some_iff.mp h'
  obtain ⟨ns, db⟩ := ex
  obtain ⟨ns', db'⟩ := ex'
  simp only [tableKey, CacheKey.mk.injEq, TableKey.mk.injEq] at heq
  obtain ⟨⟨rfl, rfl, rfl⟩, rfl, rfl⟩ := heq
  exact ⟨rfl, cacheKind_inj hkind hkind', rfl⟩

theorem prefixScan_edges {q : Place} {s s' : Store} (h : SameEdges q s s') :
    s'.prefixScan (tablePrefix q.ns q.db q.table Tag.graphEdge) =
      s.prefixScan (tablePrefix q.ns q.db q.table Tag.graphEdge) := by
  apply Store.prefixScan_congr _ h
  have hne := prefixEnd_tablePrefix_append_ne_nil q.ns q.db q.table Tag.graphEdge []
  rwa [List.append_nil] at hne

theorem run_scanAllEdges_congr {q : Place} {s s' : Store} (h : SameEdges q s s') :
    ((EdgeStore.scanAllEdges ⟨q.ns, q.db, q.table⟩).run s').1 =
      ((EdgeStore.scanAllEdges ⟨q.ns, q.db, q.table⟩).run s).1 := by
  simp only [EdgeStore.scanAllEdges, Db.scanPrefixKeys, Store.scanPrefixKeys, Prog.run_query_bind,
    Prog.run_lift, prefixScan_edges h]

/-- An answer made of what a program returns depends on the store through that program only. -/
theorem run_map_congr {α β : Type} {p : Db α} {s s' : Store} (h : (p.run s').1 = (p.run s).1) (g : α → β) :
    ((p >>= fun a => (pure (g a) : Db β)).run s').1 = ((p >>= fun a => (pure (g a) : Db β)).run s).1 := by
  rw [Prog.run_bind, Prog.run_bind]
  rcases hp : p.run s with ⟨r, s₁⟩
  rcases hp' : p.run s' with ⟨r', s₁'⟩
  rw [hp, hp'] at h
  cases h
  cases r with
  | ok a => rfl
  | error e => rfl

section Answers

variable [Rmp]

theorem run_scanAllOutgoing_congr {q : Place} {s s' : Store} (h : SameEdges q s s') :
    ((EdgeStore.scanAllOutgoing ⟨q.ns, q.db, q.table⟩).run s').1 =
      ((EdgeStore.scanAllOutgoing ⟨q.ns, q.db, q.table⟩).run s).1 := by
  simp only [EdgeStore.scanAllOutgoing, Db.prefixScan, Prog.run_query_bind, Prog.run_lift, prefixScan_edges h]

variable [CodeIntel] [Texts] [GraphAlgorithms]

/-- A cached statement depends on the edges of its table only. -/
theorem run_cached_congr {ex : QueryExecutor} (hex : ex.Regular) {uuid : String} {stmt : Statement}
    {table : String} {kind : CacheKind} (hkind : cacheKind stmt = some (table, kind))
    (htable : NulFree table) {s s' : Store} (h : SameEdges (ex.place hex table htable) s s') :
    ((ex.executeRead ⟨uuid, stmt⟩).run s').1 = ((ex.executeRead ⟨uuid, stmt⟩).run s).1 := by
  rcases cacheKind_cases hkind with ⟨a, m, r, rfl, -⟩ | ⟨rfl, -⟩ | ⟨d, m, l, rfl, -⟩ | ⟨mode, l, rfl, -⟩
  · exact run_map_congr (run_scanAllOutgoing_congr h) _
  · exact run_map_congr (run_scanAllEdges_congr h) _
  · exact run_map_congr (run_scanAllOutgoing_congr h) _
  · exact run_map_congr (run_scanAllEdges_congr h) _

/-! ## Valid entries -/

/-- The payload is what the statement of the key answers on the store. -/
def Answers (ex : QueryExecutor) (stmt : Statement) (outcome : OutcomeFormat) (s : Store)
    (payload : String) : Prop :=
  ∃ r, ((ex.executeRead ⟨"", stmt⟩).run s).1 = .ok r ∧ payload = formatResult r outcome

/-- An entry is not ahead of its table, and at the version of the table it is right. -/
structure ValidEntry (store : Store) (versions : WriteVersions) (key : CacheKey) (e : CacheEntry) : Prop where
  le : e.version ≤ versions key.table
  origin : ∃ (ex : QueryExecutor) (hex : ex.Regular) (stmt : Statement) (table : String)
    (htable : NulFree table) (kind : CacheKind), cacheKind stmt = some (table, kind) ∧
    key.table = (ex.place hex table htable).tableKey ∧ ex.cacheKey stmt key.outcome = some key ∧
    (e.version = versions key.table → ex.Answers stmt key.outcome store e.payload)

/-- Where the edges of a table change, its version moves on: then valid entries stay valid. -/
theorem ValidEntry.move {s s' : Store} {versions versions' : WriteVersions} {key : CacheKey} {e : CacheEntry}
    (h : ValidEntry s versions key e) (hle : ∀ k, versions k ≤ versions' k)
    (hsame : ∀ q : Place, versions' q.tableKey = versions q.tableKey → SameEdges q s s') :
    ValidEntry s' versions' key e := by
  obtain ⟨hversion, ex, hex, stmt, table, htable, kind, hkind, hplace, hkey, hright⟩ := h
  refine ⟨hversion.trans (hle _), ex, hex, stmt, table, htable, kind, hkind, hplace, hkey, fun heq => ?_⟩
  have hsteady : versions' key.table = versions key.table := le_antisymm (heq ▸ hversion) (hle _)
  rw [hplace] at hsteady
  obtain ⟨r, hr, hpayload⟩ := hright (by rw [heq, hplace, hsteady])
  exact ⟨r, (run_cached_congr hex hkind htable (hsame _ hsteady)).trans hr, hpayload⟩

end Answers

end QueryExecutor

section Transparent

variable [Rmp] [CodeIntel] [Texts] [GraphAlgorithms]

open QueryExecutor

def Shared.Valid (sh : Shared) : Prop :=
  ∀ key e, (key, e) ∈ sh.cache.lru.entries → ValidEntry sh.store sh.versions key e

theorem Shared.Valid.move {sh : Shared} (h : sh.Valid) {store : Store} {versions : WriteVersions}
    (hle : ∀ k, sh.versions k ≤ versions k)
    (hsame : ∀ q : Place, versions q.tableKey = sh.versions q.tableKey → SameEdges q sh.store store) :
    Shared.Valid { sh with store, versions } :=
  fun key e hmem => (h key e hmem).move hle hsame

namespace QueryExecutor

/-- What an execution leaves behind after the side effects that follow it. -/
def settled (ex : QueryExecutor) (stmt : Statement) (outcome : OutcomeFormat) (sh : Shared) :
    Result QueryResult × Store → Shared
  | (.ok result, store) => ex.postExecute stmt result outcome { sh with store }
  | (.error _, store) => { sh with store }

omit [Rmp] [CodeIntel] [GraphAlgorithms] in
theorem store_settled (ex : QueryExecutor) (stmt : Statement) (outcome : OutcomeFormat) (sh : Shared)
    (r : Result QueryResult × Store) : (ex.settled stmt outcome sh r).store = r.2 := by
  obtain ⟨r | r, store⟩ := r
  · rfl
  · simp only [settled, postExecute, populate]
    repeat' split
    all_goals rfl

omit [Rmp] [CodeIntel] [GraphAlgorithms] in
theorem settled_uncached {ex : QueryExecutor} {stmt : Statement} {outcome : OutcomeFormat}
    (hkey : cacheKind stmt = none) (hrelate : ∀ src edgeType dst fields, stmt ≠ .relate src edgeType dst fields)
    (sh : Shared) (r : Result QueryResult × Store) :
    ex.settled stmt outcome sh r = { sh with store := r.2 } := by
  obtain ⟨r | r, store⟩ := r
  · rfl
  · simp only [settled, postExecute, populate, cacheKey, hkey, Option.map_none]
    split
    · exact absurd rfl (hrelate _ _ _ _)
    · rfl

theorem valid_relate {ex : QueryExecutor} (hex : ex.Regular) {sh : Shared} (h : sh.Valid) (uuid : String)
    {src dst : RecordRef} {edgeType : String} (htable : NulFree edgeType) {fields : Assignments}
    (outcome : OutcomeFormat) :
    (ex.settled (.relate src edgeType dst fields) outcome sh
      ((ex.execRelate src edgeType dst fields).run sh.store)).Valid := by
  rcases hrun : (ex.execRelate src edgeType dst fields).run sh.store with ⟨e | result, store⟩
  · have hstore := (ex.writesLast_execRelate src edgeType dst fields).run_error hrun
    rw [hstore]
    exact h.move (fun _ => le_rfl) fun q _ => SameEdges.refl q _
  · obtain ⟨_, _, _, _, hq⟩ := (execRelate_eq_ok_iff (i := ⟨uuid, _⟩) rfl).mp hrun
    have hresult : result = .ok := hq
    subst hresult
    refine h.move (fun k => sh.versions.le_bump _ k) fun q hsteady => ?_
    have hnot : ¬ ex.Relates q (.relate src edgeType dst fields) := by
      intro hrel
      rw [WriteVersions.bump, relates_iff.mp hrel, Function.update_self] at hsteady
      have hself : sh.versions q.tableKey + 1 = sh.versions q.tableKey := hsteady
      omega
    have hframe := sameEdges_request hex (r := .statement ⟨uuid, .relate src edgeType dst fields⟩) htable hnot
      rfl sh.store
    rw [hrun] at hframe
    exact hframe

theorem valid_settled {ex : QueryExecutor} (hex : ex.Regular) {sh : Shared} (h : sh.Valid) {uuid : String}
    {stmt : Statement} (hnamed : stmt.Named) {p : Db QueryResult} (hp : ex.execute ⟨uuid, stmt⟩ = some p)
    (outcome : OutcomeFormat) : (ex.settled stmt outcome sh (p.run sh.store)).Valid := by
  have hother : ∀ (_ : cacheKind stmt = none) (_ : ∀ src e dst fields, stmt ≠ .relate src e dst fields),
      (ex.settled stmt outcome sh (p.run sh.store)).Valid := by
    intro hkind hrelate
    rw [settled_uncached hkind hrelate]
    refine h.move (fun _ => le_rfl) fun q _ => ?_
    refine sameEdges_request hex (r := .statement ⟨uuid, stmt⟩) hnamed ?_ hp sh.store
    intro hrel
    cases stmt with
    | relate src edgeType dst fields => exact hrelate _ _ _ _ rfl
    | _ => exact hrel
  cases stmt with
  | relate src edgeType dst fields =>
    cases hp
    exact valid_relate hex h uuid hnamed outcome
  | create table id fields onConflict => exact hother rfl nofun
  | update target fields filter => exact hother rfl nofun
  | delete table id => exact hother rfl nofun
  | deleteWhere table filter => exact hother rfl nofun
  | defineIndex name table fields unique => exact hother rfl nofun
  | removeIndex name table => exact hother rfl nofun
  | _ => cases hp

/-! ## Statements that read -/

omit [Texts] [GraphAlgorithms] in
theorem execute_of_cached {ex : QueryExecutor} {uuid : String} {stmt : Statement} {table : String}
    {kind : CacheKind} (hkind : cacheKind stmt = some (table, kind)) : ex.execute ⟨uuid, stmt⟩ = none := by
  rcases cacheKind_cases hkind with ⟨a, m, r, rfl, -⟩ | ⟨rfl, -⟩ | ⟨d, m, l, rfl, -⟩ | ⟨mode, l, rfl, -⟩ <;> rfl

/-- What is computed now is a valid entry. -/
theorem valid_populate {ex : QueryExecutor} (hex : ex.Regular) {sh : Shared} (h : sh.Valid)
    {stmt : Statement} {table : String} {kind : CacheKind} (hkind : cacheKind stmt = some (table, kind))
    (htable : NulFree table) {uuid : String} {result : QueryResult}
    (hresult : ((ex.executeRead ⟨uuid, stmt⟩).run sh.store).1 = .ok result) (outcome : OutcomeFormat) :
    (ex.populate stmt result outcome sh).Valid := by
  have hkey : ex.cacheKey stmt outcome = some ⟨ex.tableKey table, kind, outcome⟩ := by
    rw [cacheKey, hkind]
    rfl
  have huuid : ex.executeRead ⟨uuid, stmt⟩ = ex.executeRead ⟨"", stmt⟩ := by
    rcases cacheKind_cases hkind with ⟨a, m, r, rfl, -⟩ | ⟨rfl, -⟩ | ⟨d, m, l, rfl, -⟩ | ⟨mode, l, rfl, -⟩ <;> rfl
  rw [populate, hkey]
  dsimp only
  split
  · intro key e hmem
    rcases ComputeCache.mem_insert hmem with ⟨hk, hpayload, hversion⟩ | ⟨-, hold⟩
    · dsimp only at hk hpayload hversion
      subst hk
      refine ⟨hversion.le, ex, hex, stmt, table, htable, kind, hkind, rfl, hkey, fun _ => ?_⟩
      exact ⟨result, huuid ▸ hresult, hpayload⟩
    · exact h key e hold
  · exact h

end QueryExecutor

/-! ## Calls one after another -/

omit [Rmp] [CodeIntel] [Texts] [GraphAlgorithms] in
/-- A lookup leaves the store and the versions, and serves an entry of the current version. -/
theorem tryCacheHit_spec {ex : QueryExecutor} {stmt : Statement} {outcome : OutcomeFormat} {key : CacheKey}
    (hkey : ex.cacheKey stmt outcome = some key) (sh : Shared) :
    ∃ found cache, ex.tryCacheHit stmt outcome sh = (found, { sh with cache }) ∧
      (∀ x ∈ cache.lru.entries, x ∈ sh.cache.lru.entries) ∧
      ∀ payload, found = some payload → ∃ e, (key, e) ∈ sh.cache.lru.entries ∧
        e.version = sh.versions key.table ∧ e.payload = payload := by
  refine ⟨(sh.cache.get key (sh.versions key.table)).1, (sh.cache.get key (sh.versions key.table)).2, ?_,
    fun x hx => ComputeCache.mem_get hx, fun payload h => ComputeCache.mem_of_get h⟩
  rw [tryCacheHit, hkey]
  rfl

theorem run_miss {ex : QueryExecutor} (uuid : String) {q : Query} {sh sh' : Shared}
    (h : ex.tryCacheHit q.statement q.outcome sh = (none, sh')) :
    ex.run uuid (.ok q) sh =
      (((ex.executeAny ⟨uuid, q.statement⟩).run sh'.store).1.map (·, q.outcome),
        ex.settled q.statement q.outcome sh' ((ex.executeAny ⟨uuid, q.statement⟩).run sh'.store)) := by
  rw [QueryExecutor.run, h]
  dsimp only
  rcases (ex.executeAny ⟨uuid, q.statement⟩).run sh'.store with ⟨_ | _, _⟩ <;> rfl

/-- The call with the cache answers as it does without, leaves the same store and valid entries. -/
def Call.Agrees (call : Call) (sh : Shared) : Prop :=
  (call.serve sh).1 = (call.serveDirect sh.store).1 ∧
    (call.serve sh).2.store = (call.serveDirect sh.store).2 ∧ (call.serve sh).2.Valid

theorem Call.agrees_of_miss {ex : QueryExecutor} {uuid : String} {q : Query} {sh sh' : Shared}
    (hmiss : ex.tryCacheHit q.statement q.outcome sh = (none, sh')) (hstore : sh'.store = sh.store)
    (hvalid : (ex.settled q.statement q.outcome sh'
      ((ex.executeAny ⟨uuid, q.statement⟩).run sh'.store)).Valid) :
    (Call.query ex uuid (.ok q)).Agrees sh := by
  have hrun := run_miss uuid hmiss
  refine ⟨?_, ?_, ?_⟩
  · rw [serve, hrun, hstore]
    rfl
  · rw [serve, hrun, hstore]
    exact store_settled ..
  · rw [serve, hrun]
    exact hvalid

/-- A statement whose results are not cached. -/
theorem Call.agrees_uncached {ex : QueryExecutor} (hex : ex.Regular) {sh : Shared} (h : sh.Valid)
    (uuid : String) {q : Query} (hnamed : q.statement.Named) (hkind : cacheKind q.statement = none) :
    (Call.query ex uuid (.ok q)).Agrees sh := by
  have hmiss : ex.tryCacheHit q.statement q.outcome sh = (none, sh) := by
    rw [tryCacheHit, cacheKey, hkind]
    rfl
  refine agrees_of_miss hmiss rfl ?_
  cases hp : ex.execute ⟨uuid, q.statement⟩ with
  | some p =>
    rw [executeAny, hp]
    exact valid_settled hex h hnamed hp q.outcome
  | none =>
    rw [executeAny, hp, Option.getD_none, settled_uncached hkind, (readOnly_executeRead ex _).run_snd]
    · exact h
    · rintro src edgeType dst fields hstmt
      rw [hstmt] at hp
      cases hp

theorem Call.agrees_cached {ex : QueryExecutor} (hex : ex.Regular) {sh : Shared} (h : sh.Valid)
    (uuid : String) {q : Query} {table : String} {kind : CacheKind}
    (hkind : cacheKind q.statement = some (table, kind)) (htable : NulFree table) :
    (Call.query ex uuid (.ok q)).Agrees sh := by
  have hkey : ex.cacheKey q.statement q.outcome = some ⟨ex.tableKey table, kind, q.outcome⟩ := by
    rw [cacheKey, hkind]
    rfl
  have hread : ex.executeAny ⟨uuid, q.statement⟩ = ex.executeRead ⟨uuid, q.statement⟩ := by
    rw [executeAny, execute_of_cached hkind]
    rfl
  obtain ⟨found, cache, hlookup, hsub, hfound⟩ := tryCacheHit_spec hkey sh
  have hvalid : Shared.Valid { sh with cache } := fun key e hmem => h key e (hsub _ hmem)
  have hstore := (readOnly_executeRead ex ⟨uuid, q.statement⟩).run_snd sh.store
  cases found with
  | none =>
    refine agrees_of_miss hlookup rfl ?_
    rw [hread]
    rcases hrun : (ex.executeRead ⟨uuid, q.statement⟩).run sh.store with ⟨_ | result, store⟩
    · rw [hrun] at hstore
      subst hstore
      exact hvalid
    · have hresult : ((ex.executeRead ⟨uuid, q.statement⟩).run sh.store).1 = .ok result := by rw [hrun]
      rw [hrun] at hstore
      subst hstore
      have hpopulate := valid_populate hex hvalid hkind htable hresult q.outcome
      rcases cacheKind_cases hkind with ⟨a, m, r, hs, -⟩ | ⟨hs, -⟩ | ⟨d, m, l, hs, -⟩ | ⟨mode, l, hs, -⟩
      all_goals
        rw [hs] at hpopulate ⊢
        exact hpopulate
  | some payload =>
    obtain ⟨e, hmem, hversion, rfl⟩ := hfound payload rfl
    obtain ⟨-, ex', -, stmt', -, -, -, -, -, hkey', hright⟩ := h _ e hmem
    obtain ⟨rfl, rfl, -⟩ := cacheKey_inj hkey hkey'
    obtain ⟨r, hr, hpayload⟩ := hright hversion
    have huuid : ((ex.executeRead ⟨uuid, q.statement⟩).run sh.store).1 = .ok r := by
      rcases cacheKind_cases hkind with ⟨a, m, x, hs, -⟩ | ⟨hs, -⟩ | ⟨d, m, l, hs, -⟩ | ⟨mode, l, hs, -⟩
      all_goals
        rw [hs] at hr ⊢
        exact hr
    have hserve : ex.run uuid (.ok q) sh = (.ok (.cachedResponse e.payload, q.outcome), { sh with cache }) := by
      rw [QueryExecutor.run, hlookup]
    refine ⟨?_, ?_, ?_⟩
    · rw [serve, hserve, serveDirect]
      dsimp only
      rw [hread, huuid]
      exact (formatResult_cachedResponse ..).trans hpayload
    · rw [serve, hserve, serveDirect]
      dsimp only
      rw [hread, hstore]
    · rw [serve, hserve]
      exact hvalid

theorem Call.agrees_batch {ex : QueryExecutor} (hex : ex.Regular) {sh : Shared} (h : sh.Valid)
    {stmts : List Issued} (hnamed : ∀ i ∈ stmts, i.stmt.Named) : (Call.batch ex stmts).Agrees sh := by
  rcases hrun : (ex.executeBatch stmts).run sh.store with ⟨e | result, store⟩
  · have hbatch : ex.runBatch stmts sh = (.error e, { sh with store }) := by rw [runBatch, hrun]
    refine ⟨?_, ?_, ?_⟩
    · rw [serve, serveDirect, hbatch, hrun]
    · rw [serve, serveDirect, hbatch, hrun]
    · rw [serve, hbatch, run_executeBatch_error hrun]
      exact h
  · have hbatch : ex.runBatch stmts sh =
        (.ok result, { sh with store, versions := ex.bumpEdges stmts sh.versions }) := by rw [runBatch, hrun]
    refine ⟨?_, ?_, ?_⟩
    · rw [serve, serveDirect, hbatch, hrun]
    · rw [serve, serveDirect, hbatch, hrun]
    · rw [serve, hbatch]
      refine h.move (ex.le_bumpEdges stmts sh.versions) fun q hsteady => ?_
      have hnot : ¬ ex.Touches q (.batch stmts) := fun htouch => by
        have hlt := lt_bumpEdges htouch sh.versions
        omega
      have hframe := sameEdges_request hex (r := .batch stmts) hnamed hnot rfl sh.store
      rw [hrun] at hframe
      exact hframe

theorem Call.agrees {call : Call} (hnamed : call.Named) {sh : Shared} (h : sh.Valid) : call.Agrees sh := by
  cases call with
  | query ex uuid parsed =>
    obtain ⟨hex, hquery⟩ := hnamed
    cases parsed with
    | error e => exact ⟨rfl, rfl, h⟩
    | ok q =>
      obtain ⟨hstmt, htable⟩ := hquery q rfl
      cases hkind : cacheKind q.statement with
      | none => exact agrees_uncached hex h uuid hstmt hkind
      | some target => exact agrees_cached hex h uuid hkind (htable _ _ hkind)
  | batch ex stmts => exact agrees_batch hnamed.1 h hnamed.2

/-- Calls of any executors that share one cache and one set of versions are answered as they are
without a cache. -/
theorem cache_transparent (capacity maxBytes : Nat) (versions : WriteVersions) (s : Store)
    (calls : List Call) (hnamed : ∀ call ∈ calls, call.Named) :
    Call.serveAll calls ⟨s, .withBounds capacity maxBytes, versions⟩ = Call.serveAllDirect calls s := by
  have hall : ∀ (calls : List Call) (sh : Shared), (∀ call ∈ calls, call.Named) → sh.Valid →
      Call.serveAll calls sh = Call.serveAllDirect calls sh.store := by
    intro calls
    induction calls with
    | nil => exact fun _ _ _ => rfl
    | cons call calls ih =>
      intro sh hnamed hvalid
      obtain ⟨hcall, hrest⟩ := List.forall_mem_cons.mp hnamed
      obtain ⟨hresponse, hstore, hvalid'⟩ := Call.agrees hcall hvalid
      rw [Call.serveAll, Call.serveAllDirect, hresponse, ih _ hrest hvalid', hstore]
  exact hall calls ⟨s, .withBounds capacity maxBytes, versions⟩ hnamed fun _ _ hmem => by cases hmem

end Transparent

/-! ## Components counted before and after a batch -/

section Runs

open QueryExecutor Concrete

def relateIn (edgeType a b : String) : Statement := .relate ⟨"t", a⟩ edgeType ⟨"t", b⟩ []

/-- The second count is a hit; the one after the batch is not. -/
def countedTwice : List Call :=
  [.query accounts "" (.ok ⟨relateIn "e" "a" "b", .json⟩),
    .query accounts "" (.ok ⟨.graphComponents "e", .json⟩),
    .query accounts "" (.ok ⟨.graphComponents "e", .json⟩),
    .batch accounts [⟨"", relateIn "e" "c" "d"⟩, ⟨"", relateIn "f" "a" "b"⟩],
    .query accounts "" (.ok ⟨.graphComponents "e", .json⟩)]

theorem cache_transparent_counted :
    Call.serveAll countedTwice ⟨∅, .withBounds 2 1000, fun _ => 0⟩ = Call.serveAllDirect countedTwice ∅ := by
  have haccounts : accounts.Regular := ⟨by decide, by decide⟩
  have he : NulFree "e" := by decide
  have hf : NulFree "f" := by decide
  have hrelate : Call.Named (.query accounts "" (.ok ⟨relateIn "e" "a" "b", .json⟩)) := by
    refine ⟨haccounts, fun q hq => ?_⟩
    cases hq
    exact ⟨he, nofun⟩
  have hcount : Call.Named (.query accounts "" (.ok ⟨.graphComponents "e", .json⟩)) := by
    refine ⟨haccounts, fun q hq => ?_⟩
    cases hq
    refine ⟨trivial, fun table kind hkind => ?_⟩
    cases hkind
    exact he
  have hbatch : Call.Named (.batch accounts [⟨"", relateIn "e" "c" "d"⟩, ⟨"", relateIn "f" "a" "b"⟩]) := by
    refine ⟨haccounts, ?_⟩
    simp only [List.forall_mem_cons, List.not_mem_nil, IsEmpty.forall_iff, implies_true, and_true]
    exact ⟨he, hf⟩
  refine cache_transparent 2 1000 (fun _ => 0) ∅ countedTwice ?_
  simp only [countedTwice, List.forall_mem_cons, List.not_mem_nil, IsEmpty.forall_iff, implies_true, and_true]
  exact ⟨hrelate, hcount, hcount, hbatch, hcount⟩

end Runs

end Dllb
