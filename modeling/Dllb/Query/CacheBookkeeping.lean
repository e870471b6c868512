import Mathlib
import Dllb.Query.Cache

/-! # The bookkeeping of the compute cache

After any calls the tracked bytes are those of the entries, the bounds hold, and
an entry is that of the latest insertion for its key. An insertion keeps as many
of the entries used last as there is room for.
-/

namespace Dllb.ComputeCache

set_option autoImplicit false

inductive Op where
  | get (key : CacheKey) (version : Nat)
  | insert (key : CacheKey) (payload : String) (version : Nat)

def Op.key : Op → CacheKey
  | get key _ => key
  | insert key _ _ => key

def exec (c : ComputeCache) : Op → ComputeCache
  | .get key version => (c.get key version).2
  | .insert key payload version => c.insert key payload version

def execAll (c : ComputeCache) (ops : List Op) : ComputeCache := ops.foldl exec c

/-! ## What the calls so far say -/

def Op.record (latest : CacheKey → Option (String × Nat)) : Op → CacheKey → Option (String × Nat)
  | get _ _ => latest
  | insert key payload version => Function.update latest key (some (payload, version))

/-- Payload and version of the latest insertion for each key. -/
def latest (ops : List Op) : CacheKey → Option (String × Nat) := ops.foldl Op.record fun _ => none

/-- The keys called for, the latest first. -/
def recency (ops : List Op) : List CacheKey :=
  ops.foldl (fun keys op => op.key :: keys.filter (· ≠ op.key)) []

def entryBytes (payload : String) : Nat := payload.utf8ByteSize + 128

def bytesOf (entries : List (CacheKey × CacheEntry)) : Nat := (entries.map fun e => entryBytes e.2.payload).sum

/-- There is room for these entries and a new one. -/
def Affordable (c : ComputeCache) (kept : List (CacheKey × CacheEntry)) (newBytes : Nat) : Prop :=
  kept.length + 1 ≤ c.lru.cap ∧ bytesOf kept + newBytes ≤ c.maxBytes

/-- Of the entries of other keys those used least recently are gone, and no more than the bounds
ask for. -/
def EvictsLeast (c c' : ComputeCache) (key : CacheKey) (entry : CacheEntry) : Prop :=
  ∃ kept gone, c.lru.without key = kept ++ gone ∧ c'.lru.entries = (key, entry) :: kept ∧
    ∀ more, more ≠ [] → more <+: gone → ¬ c.Affordable (kept ++ more) entry.bytes

structure Bookkeeping (capacity maxBytes : Nat) (ops : List Op) (c : ComputeCache) : Prop where
  current : c.currentBytes = bytesOf c.lru.entries
  count : c.lru.len ≤ max capacity 1
  within : c.lru.len ≠ 1 → c.currentBytes ≤ maxBytes
  served : ∀ key version payload, (c.get key version).1 = some payload →
    latest ops key = some (payload, version)
  recent : (c.lru.entries.map Prod.fst).Sublist (recency ops)
  evicts : ∀ key payload version,
    c.EvictsLeast (c.insert key payload version) key ⟨payload, version, entryBytes payload⟩
  present : ∀ key payload version, ((c.insert key payload version).get key version).1 = some payload

/-! ## The invariant -/

structure Inv (capacity maxBytes : Nat) (ops : List Op) (c : ComputeCache) : Prop where
  cap : c.lru.cap = max capacity 1
  max : c.maxBytes = maxBytes
  distinct : (c.lru.entries.map Prod.fst).Nodup
  bytes : ∀ e ∈ c.lru.entries, e.2.bytes = entryBytes e.2.payload
  current : c.currentBytes = bytesOf c.lru.entries
  count : c.lru.entries.length ≤ c.lru.cap
  within : c.lru.entries.length ≠ 1 → c.currentBytes ≤ c.maxBytes
  latest : ∀ e ∈ c.lru.entries, ComputeCache.latest ops e.1 = some (e.2.payload, e.2.version)
  recent : (c.lru.entries.map Prod.fst).Sublist (recency ops)

theorem bytesOf_append (a b : List (CacheKey × CacheEntry)) : bytesOf (a ++ b) = bytesOf a + bytesOf b := by
  rw [bytesOf, List.map_append, List.sum_append]
  rfl

theorem bytesOf_singleton (e : CacheKey × CacheEntry) : bytesOf [e] = entryBytes e.2.payload :=
  Nat.add_zero _

theorem latest_append (ops : List Op) (op : Op) : latest (ops ++ [op]) = op.record (latest ops) := by
  rw [latest, List.foldl_append]
  rfl

theorem recency_append (ops : List Op) (op : Op) :
    recency (ops ++ [op]) = op.key :: (recency ops).filter (· ≠ op.key) := by
  rw [recency, List.foldl_append]
  rfl

theorem inv_withBounds (capacity maxBytes : Nat) : Inv capacity maxBytes [] (withBounds capacity maxBytes) where
  cap := rfl
  max := rfl
  distinct := List.nodup_nil
  bytes _ h := absurd h List.not_mem_nil
  current := rfl
  count := Nat.zero_le _
  within _ := Nat.zero_le _
  latest _ h := absurd h List.not_mem_nil
  recent := List.Sublist.refl _

/-! ## Lookups -/

theorem map_fst_without (c : LruCache CacheKey CacheEntry) (key : CacheKey) :
    (c.without key).map Prod.fst = (c.entries.map Prod.fst).filter (· ≠ key) := by
  rw [LruCache.without, List.filter_map]
  rfl

theorem without_of_find_none {c : LruCache CacheKey CacheEntry} {key : CacheKey} (h : c.find key = none) :
    c.without key = c.entries := by
  refine List.filter_eq_self.mpr fun e he => ?_
  have hnot := List.find?_eq_none.mp h e he
  simpa using hnot

/-- The entry that is found and the others are the entries. -/
theorem perm_of_find {c : LruCache CacheKey CacheEntry} (h : (c.entries.map Prod.fst).Nodup) {key : CacheKey}
    {e : CacheKey × CacheEntry} (hfind : c.find key = some e) :
    e.1 = key ∧ (e :: c.without key).Perm c.entries := by
  have hkey : e.1 = key := by simpa using List.find?_some hfind
  refine ⟨hkey, ?_⟩
  have hnodup : c.entries.Nodup := h.of_map
  have hfresh : e ∉ c.without key := fun hmem => (LruCache.mem_without.mp hmem).2 hkey
  refine (List.perm_ext_iff_of_nodup (List.nodup_cons.mpr ⟨hfresh, hnodup.filter _⟩) hnodup).mpr fun x => ?_
  rw [List.mem_cons, LruCache.mem_without]
  constructor
  · rintro (rfl | ⟨hmem, -⟩)
    · exact List.mem_of_find?_eq_some hfind
    · exact hmem
  · intro hmem
    by_cases hx : x.1 = key
    · left
      exact List.inj_on_of_nodup_map h hmem (List.mem_of_find?_eq_some hfind) (hx.trans hkey.symm)
    · exact .inr ⟨hmem, hx⟩

theorem Inv.get {capacity maxBytes : Nat} {ops : List Op} {c : ComputeCache} (h : Inv capacity maxBytes ops c)
    (key : CacheKey) (version : Nat) :
    Inv capacity maxBytes (ops ++ [.get key version]) (c.get key version).2 := by
  have hlatest : ComputeCache.latest (ops ++ [.get key version]) = ComputeCache.latest ops :=
    latest_append ops _
  have hrest : ((c.lru.without key).map Prod.fst).Sublist ((recency ops).filter (· ≠ key)) := by
    rw [map_fst_without]
    exact h.recent.filter _
  unfold ComputeCache.get LruCache.get
  cases hfind : c.lru.find key with
  | none =>
    rw [without_of_find_none hfind] at hrest
    refine ⟨h.cap, h.max, h.distinct, h.bytes, h.current, h.count, h.within, hlatest ▸ h.latest, ?_⟩
    rw [recency_append]
    exact hrest.cons _
  | some e =>
    obtain ⟨hkey, hperm⟩ := perm_of_find h.distinct hfind
    have hbytes : bytesOf (e :: c.lru.without key) = bytesOf c.lru.entries := (hperm.map _).sum_eq
    refine ⟨h.cap, h.max, (hperm.map _).nodup_iff.mpr h.distinct, fun x hx => h.bytes x (hperm.mem_iff.mp hx),
      h.current.trans hbytes.symm, hperm.length_eq.le.trans h.count, fun hlen => ?_, fun x hx => ?_, ?_⟩
    · exact h.within fun heq => hlen (hperm.length_eq.trans heq)
    · rw [hlatest]
      exact h.latest x (hperm.mem_iff.mp hx)
    · rw [recency_append, List.map_cons, hkey]
      exact hrest.cons_cons key

/-! ## Evictions -/

/-- The loop stops when there is room or nothing is left, and not before. -/
theorem evict_spec {newBytes n : Nat} {c : ComputeCache} (hn : c.lru.entries.length = n)
    (hbytes : ∀ e ∈ c.lru.entries, e.2.bytes = entryBytes e.2.payload)
    (hcurrent : c.currentBytes = bytesOf c.lru.entries) :
    ∃ kept gone, c.lru.entries = kept ++ gone ∧
      evict newBytes n c = { c with lru := { c.lru with entries := kept }, currentBytes := bytesOf kept } ∧
      (kept ≠ [] → c.Affordable kept newBytes) ∧
      ∀ more, more ≠ [] → more <+: gone → ¬ c.Affordable (kept ++ more) newBytes := by
  induction n generalizing c with
  | zero =>
    have hnil := List.length_eq_zero_iff.mp hn
    refine ⟨[], [], hnil, ?_, fun h => absurd rfl h, fun more hne hpre => ?_⟩
    · rw [evict, ← hnil, ← hcurrent]
    · exact absurd (List.prefix_nil.mp hpre) hne
  | succ n ih =>
    rw [evict]
    split
    · rename_i hfull
      obtain ⟨front, last, hsplit⟩ :=
        (List.eq_nil_or_concat' c.lru.entries).resolve_left (List.ne_nil_of_length_eq_add_one hn)
      have hpop : c.popOldest.lru.entries = front := by
        change c.lru.entries.dropLast = front
        rw [hsplit, List.dropLast_concat]
      have hlast : c.popOldest.currentBytes = c.currentBytes - last.2.bytes := by
        change c.currentBytes - (c.lru.entries.getLast?.map fun e => e.2.bytes).getD 0 = _
        rw [hsplit, List.getLast?_concat]
        rfl
      have hmem : last ∈ c.lru.entries := by simp [hsplit]
      have hcurrent' : c.popOldest.currentBytes = bytesOf front := by
        rw [hlast, hcurrent, hbytes last hmem, hsplit, bytesOf_append, bytesOf_singleton]
        omega
      have hfront : front.length = n := by
        rw [hsplit, List.length_append, List.length_singleton] at hn
        omega
      obtain ⟨kept, gone, hkept, hrun, hroom, hleast⟩ := ih (c := c.popOldest) (hpop ▸ hfront)
        (fun e he => hbytes e (hsplit ▸ List.mem_append_left _ (hpop ▸ he))) (hpop ▸ hcurrent')
      refine ⟨kept, gone ++ [last], ?_, hrun, hroom, fun more hne hpre => ?_⟩
      · rw [hsplit, ← hpop, hkept, List.append_assoc]
      · rcases List.prefix_concat_iff.mp hpre with rfl | hpre
        · -- All entries together are what the loop found to be too much.
          have hall : kept ++ (gone ++ [last]) = c.lru.entries := by
            rw [hsplit, ← hpop, hkept, List.append_assoc]
          rw [hall]
          rintro ⟨hcount, hmax⟩
          have hlen : c.lru.len = c.lru.entries.length := rfl
          omega
        · exact hleast more hne hpre
    · rename_i hroom
      refine ⟨c.lru.entries, [], (List.append_nil _).symm, ?_, fun _ => ?_, fun more hne hpre => ?_⟩
      · rw [← hcurrent]
      · have hlen : c.lru.len = n + 1 := hn
        have hbounds : ¬ (c.lru.cap ≤ c.lru.len ∨ c.maxBytes < c.currentBytes + newBytes) :=
          fun h => hroom ⟨by omega, h⟩
        rw [hcurrent] at hbounds
        constructor <;> omega
      · exact absurd (List.prefix_nil.mp hpre) hne

/-! ## Insertions -/

theorem Inv.popKey_currentBytes {capacity maxBytes : Nat} {ops : List Op} {c : ComputeCache}
    (h : Inv capacity maxBytes ops c) (key : CacheKey) :
    (c.popKey key).currentBytes = bytesOf (c.lru.without key) := by
  change c.currentBytes - (((c.lru.find key).map Prod.snd).map CacheEntry.bytes).getD 0 = _
  cases hfind : c.lru.find key with
  | none =>
    rw [without_of_find_none hfind, ← h.current]
    rfl
  | some e =>
    obtain ⟨-, hperm⟩ := perm_of_find h.distinct hfind
    have hbytes : bytesOf ([e] ++ c.lru.without key) = bytesOf c.lru.entries := (hperm.map _).sum_eq
    rw [bytesOf_append, bytesOf_singleton] at hbytes
    have hentry : e.2.bytes = entryBytes e.2.payload := h.bytes e (List.mem_of_find?_eq_some hfind)
    rw [h.current, ← hbytes]
    change entryBytes e.2.payload + bytesOf (c.lru.without key) - e.2.bytes = _
    omega

theorem Inv.insert_eq {capacity maxBytes : Nat} {ops : List Op} {c : ComputeCache}
    (h : Inv capacity maxBytes ops c) (key : CacheKey) (payload : String) (version : Nat) :
    ∃ kept gone, c.lru.without key = kept ++ gone ∧
      c.insert key payload version = { c with
        lru := { c.lru with entries := (key, ⟨payload, version, entryBytes payload⟩) :: kept }
        currentBytes := bytesOf kept + entryBytes payload } ∧
      (kept ≠ [] → c.Affordable kept (entryBytes payload)) ∧
      ∀ more, more ≠ [] → more <+: gone → ¬ c.Affordable (kept ++ more) (entryBytes payload) := by
  have hbytes : ∀ e ∈ c.lru.without key, e.2.bytes = entryBytes e.2.payload :=
    fun e he => h.bytes e (LruCache.mem_without.mp he).1
  obtain ⟨kept, gone, hkept, hrun, hroom, hleast⟩ := evict_spec (c := c.popKey key) rfl hbytes
    (h.popKey_currentBytes key)
  have hkept : c.lru.without key = kept ++ gone := hkept
  refine ⟨kept, gone, hkept, ?_, hroom, hleast⟩
  have hother : ∀ e ∈ kept, e.1 ≠ key := by
    intro e he
    have hmem : e ∈ c.lru.without key := hkept ▸ List.mem_append_left gone he
    exact (LruCache.mem_without.mp hmem).2
  have hwithout : ({ c.lru with entries := kept } : LruCache CacheKey CacheEntry).without key = kept := by
    refine List.filter_eq_self.mpr fun e he => ?_
    simpa using hother e he
  have hlen : kept.length < c.lru.cap := by
    by_cases hnil : kept = []
    · rw [hnil, h.cap]
      exact Nat.lt_of_lt_of_le Nat.zero_lt_one (le_max_right _ _)
    · exact (hroom hnil).1
  have hput : ({ c.lru with entries := kept } : LruCache CacheKey CacheEntry).put key
      ⟨payload, version, entryBytes payload⟩ =
        { c.lru with entries := (key, ⟨payload, version, entryBytes payload⟩) :: kept } := by
    rw [LruCache.put, hwithout, if_pos hlen]
  change { evict (entryBytes payload) (c.popKey key).lru.len (c.popKey key) with
    lru := (evict (entryBytes payload) (c.popKey key).lru.len (c.popKey key)).lru.put key
      ⟨payload, version, entryBytes payload⟩
    currentBytes := (evict (entryBytes payload) (c.popKey key).lru.len (c.popKey key)).currentBytes +
      entryBytes payload } = _
  rw [LruCache.len, hrun]
  exact congrArg (fun lru => { c with lru, currentBytes := bytesOf kept + entryBytes payload }) hput

theorem Inv.insert {capacity maxBytes : Nat} {ops : List Op} {c : ComputeCache}
    (h : Inv capacity maxBytes ops c) (key : CacheKey) (payload : String) (version : Nat) :
    Inv capacity maxBytes (ops ++ [.insert key payload version]) (c.insert key payload version) := by
  obtain ⟨kept, gone, hkept, hrun, hroom, -⟩ := h.insert_eq key payload version
  have hold : ∀ e ∈ kept, e ∈ c.lru.entries ∧ e.1 ≠ key := by
    intro e he
    have hmem : e ∈ c.lru.without key := hkept ▸ List.mem_append_left gone he
    exact LruCache.mem_without.mp hmem
  have hkeys : (kept.map Prod.fst).Sublist ((c.lru.entries.map Prod.fst).filter (· ≠ key)) := by
    rw [← map_fst_without, hkept, List.map_append]
    exact List.sublist_append_left _ _
  have hcap : 1 ≤ c.lru.cap := h.cap ▸ le_max_right _ _
  rw [hrun]
  refine ⟨h.cap, h.max, ?_, ?_, ?_, ?_, ?_, ?_, ?_⟩
  · refine List.nodup_cons.mpr ⟨fun hmem => ?_, (h.distinct.filter _).sublist hkeys⟩
    obtain ⟨e, he, heq⟩ := List.mem_map.mp hmem
    exact (hold e he).2 heq
  · exact List.forall_mem_cons.mpr ⟨rfl, fun e he => h.bytes e (hold e he).1⟩
  · change bytesOf kept + entryBytes payload = entryBytes payload + bytesOf kept
    omega
  · change kept.length + 1 ≤ c.lru.cap
    by_cases hnil : kept = []
    · rwa [hnil]
    · exact (hroom hnil).1
  · intro hlen
    have hne : kept ≠ [] := by
      rintro rfl
      exact hlen rfl
    exact (hroom hne).2
  · rw [latest_append]
    refine List.forall_mem_cons.mpr ⟨Function.update_self .., fun e he => ?_⟩
    rw [Op.record, Function.update_of_ne (hold e he).2]
    exact h.latest e (hold e he).1
  · rw [recency_append]
    exact (hkeys.trans (h.recent.filter _)).cons_cons key

theorem Inv.exec {capacity maxBytes : Nat} {ops : List Op} {c : ComputeCache}
    (h : Inv capacity maxBytes ops c) (op : Op) : Inv capacity maxBytes (ops ++ [op]) (c.exec op) := by
  cases op with
  | get key version => exact h.get key version
  | insert key payload version => exact h.insert key payload version

theorem Inv.execAll {capacity maxBytes : Nat} {before : List Op} {c : ComputeCache}
    (h : Inv capacity maxBytes before c) (ops : List Op) :
    Inv capacity maxBytes (before ++ ops) (c.execAll ops) := by
  induction ops generalizing before c with
  | nil => simpa [ComputeCache.execAll] using h
  | cons op ops ih =>
    rw [List.append_cons]
    exact ih (h.exec op)

/-! ## The bookkeeping -/

theorem Inv.served {capacity maxBytes : Nat} {ops : List Op} {c : ComputeCache}
    (h : Inv capacity maxBytes ops c) {key : CacheKey} {version : Nat} {payload : String}
    (hget : (c.get key version).1 = some payload) : ComputeCache.latest ops key = some (payload, version) := by
  obtain ⟨e, hmem, rfl, rfl⟩ := mem_of_get hget
  exact h.latest _ hmem

theorem Inv.evictsLeast {capacity maxBytes : Nat} {ops : List Op} {c : ComputeCache}
    (h : Inv capacity maxBytes ops c) (key : CacheKey) (payload : String) (version : Nat) :
    c.EvictsLeast (c.insert key payload version) key ⟨payload, version, entryBytes payload⟩ := by
  obtain ⟨kept, gone, hkept, hrun, -, hleast⟩ := h.insert_eq key payload version
  exact ⟨kept, gone, hkept, by rw [hrun], hleast⟩

theorem Inv.present {capacity maxBytes : Nat} {ops : List Op} {c : ComputeCache}
    (h : Inv capacity maxBytes ops c) (key : CacheKey) (payload : String) (version : Nat) :
    ((c.insert key payload version).get key version).1 = some payload := by
  obtain ⟨kept, gone, -, hrun, -, -⟩ := h.insert_eq key payload version
  rw [hrun]
  simp [ComputeCache.get, LruCache.get, LruCache.find]

/-- After any lookups and insertions the books of the cache are right. -/
theorem cache_bookkeeping (capacity maxBytes : Nat) (ops : List Op) :
    Bookkeeping capacity maxBytes ops ((withBounds capacity maxBytes).execAll ops) := by
  have h := (inv_withBounds capacity maxBytes).execAll ops
  rw [List.nil_append] at h
  exact {
    current := h.current
    count := h.cap ▸ h.count
    within := fun hlen => (h.within hlen).trans h.max.le
    served := fun _ _ _ => h.served
    recent := h.recent
    evicts := h.evictsLeast
    present := h.present }

end Dllb.ComputeCache
