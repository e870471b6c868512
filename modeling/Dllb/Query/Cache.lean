import Mathlib
import Dllb.Lib.Lru
import Dllb.Query.Reads

/-! # The compute cache

Results of graph statements are kept with the write version of their edge table
and are served as long as that version is the current one. The counters are
unbounded here.
-/

namespace Dllb

set_option autoImplicit false

structure TableKey where
  ns : String
  db : String
  table : String
  deriving DecidableEq

/-- The write counters; a table never written to counts 0. -/
abbrev WriteVersions := TableKey → Nat

namespace WriteVersions

def current (versions : WriteVersions) (key : TableKey) : Nat := versions key

def bump (versions : WriteVersions) (key : TableKey) : WriteVersions :=
  Function.update versions key (versions key + 1)

end WriteVersions

inductive CacheKind where
  | communities (algorithm : String) (maxIterations : Nat) (resolutionBits : UInt64)
  | components
  | pageRank (dampingBits : UInt64) (maxIterations : Nat) (limit : Option Nat)
  | centrality (mode : String) (limit : Option Nat)
  deriving DecidableEq

structure CacheKey where
  table : TableKey
  kind : CacheKind
  outcome : OutcomeFormat
  deriving DecidableEq

structure CacheEntry where
  payload : String
  version : Nat
  bytes : Nat

structure ComputeCache where
  lru : LruCache CacheKey CacheEntry
  currentBytes : Nat
  maxBytes : Nat

namespace ComputeCache

def withBounds (capacity maxBytes : Nat) : ComputeCache :=
  { lru := { entries := [], cap := max capacity 1 }, currentBytes := 0, maxBytes }

/-- The payload if it was computed at the current version. A stale entry stays, as the latest one. -/
def get (c : ComputeCache) (key : CacheKey) (currentVersion : Nat) : Option String × ComputeCache :=
  let found := c.lru.get key
  ((found.1.filter fun e => e.version = currentVersion).map CacheEntry.payload, { c with lru := found.2 })

/-- The entry of the key itself is removed before others are evicted. -/
def popKey (c : ComputeCache) (key : CacheKey) : ComputeCache :=
  let popped := c.lru.pop key
  { c with lru := popped.2, currentBytes := c.currentBytes - (popped.1.map CacheEntry.bytes).getD 0 }

def popOldest (c : ComputeCache) : ComputeCache :=
  let popped := c.lru.popLru
  { c with lru := popped.2, currentBytes := c.currentBytes - (popped.1.map fun e => e.2.bytes).getD 0 }

/-- Evict the oldest entries until there is room; `n` entries are there at the start. -/
def evict (entryBytes : Nat) : Nat → ComputeCache → ComputeCache
  | 0, c => c
  | n + 1, c =>
    if c.lru.len ≠ 0 ∧ (c.lru.cap ≤ c.lru.len ∨ c.maxBytes < c.currentBytes + entryBytes) then
      evict entryBytes n c.popOldest
    else c

def insert (c : ComputeCache) (key : CacheKey) (payload : String) (version : Nat) : ComputeCache :=
  let entryBytes := payload.utf8ByteSize + 128
  let c := c.popKey key
  let c := evict entryBytes c.lru.len c
  { c with
    lru := c.lru.put key { payload, version, bytes := entryBytes }
    currentBytes := c.currentBytes + entryBytes }

theorem mem_of_get {c : ComputeCache} {key : CacheKey} {version : Nat} {payload : String}
    (h : (c.get key version).1 = some payload) :
    ∃ e, (key, e) ∈ c.lru.entries ∧ e.version = version ∧ e.payload = payload := by
  obtain ⟨e, he, hpayload⟩ := Option.map_eq_some_iff.mp h
  obtain ⟨hfound, hversion⟩ := Option.filter_eq_some_iff.mp he
  exact ⟨e, LruCache.mem_of_get hfound, by simpa using hversion, hpayload⟩

theorem mem_get {c : ComputeCache} {key : CacheKey} {version : Nat} {e : CacheKey × CacheEntry}
    (h : e ∈ (c.get key version).2.lru.entries) : e ∈ c.lru.entries :=
  LruCache.mem_get h

theorem mem_evict {entryBytes n : Nat} {c : ComputeCache} {e : CacheKey × CacheEntry}
    (h : e ∈ (evict entryBytes n c).lru.entries) : e ∈ c.lru.entries := by
  induction n generalizing c with
  | zero => exact h
  | succ n ih =>
    rw [evict] at h
    split at h
    · exact LruCache.mem_popLru (ih h)
    · exact h

/-- After an insertion there is nothing but the new entry and older entries of other keys. -/
theorem mem_insert {c : ComputeCache} {key : CacheKey} {payload : String} {version : Nat}
    {e : CacheKey × CacheEntry} (h : e ∈ (c.insert key payload version).lru.entries) :
    (e.1 = key ∧ e.2.payload = payload ∧ e.2.version = version) ∨ e.1 ≠ key ∧ e ∈ c.lru.entries := by
  rcases LruCache.mem_put h with rfl | ⟨h, _⟩
  · exact .inl ⟨rfl, rfl, rfl⟩
  · obtain ⟨hmem, hne⟩ := LruCache.mem_pop.mp (mem_evict h)
    exact .inr ⟨hne, hmem⟩

end ComputeCache

/-! ## Running a query -/

/-- What all connections share. -/
structure Shared where
  store : Store
  cache : ComputeCache
  versions : WriteVersions

namespace QueryExecutor

def tableKey (ex : QueryExecutor) (table : String) : TableKey := ⟨ex.ns, ex.db, table⟩

def centralityModeStr : CentralityMode → String
  | .degree => "degree"
  | .inDegree => "indegree"
  | .outDegree => "outdegree"

/-- The edge table and the computation of a statement whose result is cached. -/
def cacheKind : Statement → Option (String × CacheKind)
  | .graphCommunities table algorithm maxIterations resolution =>
    some (table, .communities (algoStr algorithm) maxIterations resolution.bits)
  | .graphComponents table => some (table, .components)
  | .graphPagerank table damping maxIterations limit =>
    some (table, .pageRank damping.bits maxIterations limit)
  | .graphCentrality table mode limit => some (table, .centrality (centralityModeStr mode) limit)
  | _ => none

def cacheKey (ex : QueryExecutor) (stmt : Statement) (outcome : OutcomeFormat) : Option CacheKey :=
  (cacheKind stmt).map fun (table, kind) => ⟨ex.tableKey table, kind, outcome⟩

def tryCacheHit (ex : QueryExecutor) (stmt : Statement) (outcome : OutcomeFormat) (sh : Shared) :
    Option String × Shared :=
  match ex.cacheKey stmt outcome with
  | some key =>
    let found := sh.cache.get key (sh.versions.current key.table)
    (found.1, { sh with cache := found.2 })
  | none => (none, sh)

/-- The results that are stored, by the statement. -/
def isCached : Statement → QueryResult → Bool
  | .graphCommunities .., .communities .. => true
  | .graphComponents .., .components .. => true
  | .graphPagerank .., .rows _ => true
  | .graphCentrality .., .rows _ => true
  | _, _ => false

section

variable [Texts]

/-- The version is read here, after the computation. -/
def populate (ex : QueryExecutor) (stmt : Statement) (result : QueryResult) (outcome : OutcomeFormat)
    (sh : Shared) : Shared :=
  match ex.cacheKey stmt outcome with
  | some key =>
    if isCached stmt result then
      { sh with cache := sh.cache.insert key (formatResult result outcome) (sh.versions.current key.table) }
    else sh
  | none => sh

def postExecute (ex : QueryExecutor) (stmt : Statement) (result : QueryResult) (outcome : OutcomeFormat)
    (sh : Shared) : Shared :=
  match stmt, result with
  | .relate _ edgeType _ _, .ok => { sh with versions := sh.versions.bump (ex.tableKey edgeType) }
  | _, _ => ex.populate stmt result outcome sh

variable [Rmp] [CodeIntel] [GraphAlgorithms]

/-- `run` on what the parser makes of the text. -/
def run (ex : QueryExecutor) (uuid : String) (parsed : Result Query) (sh : Shared) :
    Result (QueryResult × OutcomeFormat) × Shared :=
  match parsed with
  | .error e => (.error e, sh)
  | .ok q =>
    match ex.tryCacheHit q.statement q.outcome sh with
    | (some payload, sh) => (.ok (.cachedResponse payload, q.outcome), sh)
    | (none, sh) =>
      match (ex.executeAny ⟨uuid, q.statement⟩).run sh.store with
      | (.error e, store) => (.error e, { sh with store })
      | (.ok result, store) =>
        (.ok (result, q.outcome), ex.postExecute q.statement result q.outcome { sh with store })

end

/-- One bump for every edge of a batch. -/
def bumpEdges (ex : QueryExecutor) (stmts : List Issued) (versions : WriteVersions) : WriteVersions :=
  stmts.foldl (fun versions i =>
    match i.stmt with
    | .relate _ edgeType _ _ => versions.bump (ex.tableKey edgeType)
    | _ => versions) versions

def runBatch [Rmp] (ex : QueryExecutor) (stmts : List Issued) (sh : Shared) : Result QueryResult × Shared :=
  match (ex.executeBatch stmts).run sh.store with
  | (.error e, store) => (.error e, { sh with store })
  | (.ok result, store) => (.ok result, { sh with store, versions := ex.bumpEdges stmts sh.versions })

end QueryExecutor

end Dllb
