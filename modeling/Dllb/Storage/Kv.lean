import Mathlib
import Dllb.Lib.Prog
import Dllb.Storage.Key

/-! # The key-value store

The backend is one sorted map; a read or a batch is one transaction. `Db` is
the type of programs over it, in which every storage call of the source is
one transaction of its own.
-/

namespace Dllb

set_option autoImplicit false

abbrev Store := Std.ExtTreeMap Bytes Bytes cmpBytes

abbrev PutOp := Bytes × Bytes

namespace Store

def scan (s : Store) (start stop : Bytes) : List PutOp :=
  s.toList.filter fun kv => decide (start ≤ kv.1) && decide (kv.1 < stop)

def prefixScan (s : Store) (p : Bytes) : List PutOp := s.scan p (Key.prefixEnd p)

def scanPrefixKeys (s : Store) (p : Bytes) : List Bytes := (s.prefixScan p).map Prod.fst

def countPrefix (s : Store) (p : Bytes) : Nat := (s.prefixScan p).length

def multiGet (s : Store) (keys : List Bytes) : List (Option Bytes) := keys.map fun k => s[k]?

def putBatch (s : Store) (ops : List PutOp) : Store := ops.foldl (fun s op => s.insert op.1 op.2) s

def deleteBatch (s : Store) (keys : List Bytes) : Store := keys.foldl (fun s k => s.erase k) s

/-- Deletes first, then puts, in one transaction. -/
def writeBatch (s : Store) (puts : List PutOp) (deletes : List Bytes) : Store :=
  (s.deleteBatch deletes).putBatch puts

/-! ## What a batch leaves at a key -/

theorem getElem?_insert' (s : Store) (k k' v : Bytes) :
    (s.insert k v)[k']? = if k = k' then some v else s[k']? := by
  simp [Std.ExtTreeMap.getElem?_insert, Std.LawfulEqCmp.compare_eq_iff_eq]

theorem getElem?_erase' (s : Store) (k k' : Bytes) :
    (s.erase k)[k']? = if k = k' then none else s[k']? := by
  simp [Std.ExtTreeMap.getElem?_erase, Std.LawfulEqCmp.compare_eq_iff_eq]

/-- The value of the last put at a key. -/
def lastPut : List PutOp → Bytes → Option Bytes
  | [], _ => none
  | op :: ops, k => (lastPut ops k).or (if op.1 = k then some op.2 else none)

theorem lastPut_append (a b : List PutOp) (k : Bytes) :
    lastPut (a ++ b) k = (lastPut b k).or (lastPut a k) := by
  induction a with
  | nil => simp [lastPut]
  | cons op a ih => simp [lastPut, ih, Option.or_assoc]

theorem lastPut_eq_none_iff {ops : List PutOp} {k : Bytes} :
    lastPut ops k = none ↔ k ∉ ops.map Prod.fst := by
  induction ops with
  | nil => simp [lastPut]
  | cons op ops ih =>
    simp only [lastPut, Option.or_eq_none_iff, ih, ite_eq_right_iff, reduceCtorEq, imp_false,
      List.map_cons, List.mem_cons, not_or]
    tauto

theorem mem_of_lastPut_eq_some {ops : List PutOp} {k v : Bytes} (h : lastPut ops k = some v) :
    (k, v) ∈ ops := by
  induction ops with
  | nil => cases h
  | cons op ops ih =>
    rw [lastPut] at h
    rcases Option.or_eq_some_iff.mp h with h | ⟨_, h⟩
    · exact List.mem_cons_of_mem _ (ih h)
    · split at h
      · rename_i hk
        cases h
        simp [← hk]
      · cases h

@[simp] theorem getElem?_putBatch (s : Store) (ops : List PutOp) (k : Bytes) :
    (s.putBatch ops)[k]? = (lastPut ops k).or s[k]? := by
  induction ops generalizing s with
  | nil => simp [putBatch, lastPut]
  | cons op ops ih =>
    rw [putBatch, List.foldl_cons, ← putBatch, ih, getElem?_insert', lastPut]
    split <;> simp

@[simp] theorem getElem?_deleteBatch (s : Store) (keys : List Bytes) (k : Bytes) :
    (s.deleteBatch keys)[k]? = if k ∈ keys then none else s[k]? := by
  induction keys generalizing s with
  | nil => simp [deleteBatch]
  | cons x keys ih =>
    rw [deleteBatch, List.foldl_cons, ← deleteBatch, ih, getElem?_erase']
    by_cases hx : x = k
    · simp [hx]
    · simp [hx, Ne.symm hx]

@[simp] theorem getElem?_writeBatch (s : Store) (puts : List PutOp) (deletes : List Bytes) (k : Bytes) :
    (s.writeBatch puts deletes)[k]? =
      (lastPut puts k).or (if k ∈ deletes then none else s[k]?) := by
  rw [writeBatch, getElem?_putBatch, getElem?_deleteBatch]

theorem mem_writeBatch_iff (s : Store) (puts : List PutOp) (deletes : List Bytes) (k : Bytes) :
    k ∈ s.writeBatch puts deletes ↔ k ∈ puts.map Prod.fst ∨ k ∉ deletes ∧ k ∈ s := by
  rw [← Std.ExtTreeMap.isSome_getElem?_iff_mem, ← Std.ExtTreeMap.isSome_getElem?_iff_mem,
    getElem?_writeBatch, Option.isSome_or, Bool.or_eq_true]
  have hput : (lastPut puts k).isSome = true ↔ k ∈ puts.map Prod.fst := by
    rw [Option.isSome_iff_ne_none, Ne, lastPut_eq_none_iff, not_not]
  rw [hput]
  split <;> simp_all

/-! ## Scans -/

theorem mem_scan_iff {s : Store} {start stop k v : Bytes} :
    (k, v) ∈ s.scan start stop ↔ s[k]? = some v ∧ start ≤ k ∧ k < stop := by
  simp [scan, Std.ExtTreeMap.mem_toList_iff_getElem?_eq_some]

theorem pairwise_toList (s : Store) : s.toList.Pairwise fun a b => a.1 < b.1 :=
  (Std.ExtTreeMap.ordered_keys_toList (t := s)).imp fun h => (cmpBytes_eq_lt_iff _ _).mp h

theorem pairwise_scan (s : Store) (start stop : Bytes) :
    (s.scan start stop).Pairwise fun a b => a.1 < b.1 :=
  (pairwise_toList s).filter _

theorem mem_prefixScan_iff {s : Store} {p k v : Bytes} (hp : Key.prefixEnd p ≠ []) :
    (k, v) ∈ s.prefixScan p ↔ s[k]? = some v ∧ p <+: k := by
  rw [prefixScan, mem_scan_iff, Key.mem_range_prefixEnd_iff hp]

theorem mem_scanPrefixKeys_iff {s : Store} {p k : Bytes} (hp : Key.prefixEnd p ≠ []) :
    k ∈ s.scanPrefixKeys p ↔ k ∈ s ∧ p <+: k := by
  rw [scanPrefixKeys, List.mem_map, ← Std.ExtTreeMap.isSome_getElem?_iff_mem, Option.isSome_iff_exists]
  constructor
  · rintro ⟨⟨k', v⟩, h, rfl⟩
    obtain ⟨hv, hpk⟩ := (mem_prefixScan_iff hp).mp h
    exact ⟨⟨v, hv⟩, hpk⟩
  · rintro ⟨⟨v, hv⟩, hpk⟩
    exact ⟨(k, v), (mem_prefixScan_iff hp).mpr ⟨hv, hpk⟩, rfl⟩

/-- A scan depends on the keys under its prefix only. -/
theorem prefixScan_congr {s s' : Store} {p : Bytes} (hp : Key.prefixEnd p ≠ [])
    (h : ∀ k, p <+: k → s'[k]? = s[k]?) : s'.prefixScan p = s.prefixScan p := by
  have hirrefl : Std.Irrefl fun a b : PutOp => a.1 < b.1 := ⟨fun a => lt_irrefl a.1⟩
  have hantisymm : Std.Antisymm fun a b : PutOp => a.1 < b.1 :=
    ⟨fun a b hab hba => absurd hab (lt_asymm hba)⟩
  apply List.Pairwise.eq_of_mem_iff (pairwise_scan s' _ _) (pairwise_scan s _ _)
  rintro ⟨k, v⟩
  change (k, v) ∈ s'.prefixScan p ↔ (k, v) ∈ s.prefixScan p
  rw [mem_prefixScan_iff hp, mem_prefixScan_iff hp]
  refine and_congr_left fun hk => ?_
  rw [h k hk]

/-! ## Growth -/

/-- Every entry was there before or meets `P`. -/
def Grows (P : Bytes → Bytes → Prop) (s s' : Store) : Prop :=
  ∀ k v, s'[k]? = some v → s[k]? = some v ∨ P k v

theorem Grows.refl (P : Bytes → Bytes → Prop) (s : Store) : Grows P s s := fun _ _ h => .inl h

theorem Grows.trans {P : Bytes → Bytes → Prop} {s s' s'' : Store} (h : Grows P s s') (h' : Grows P s' s'') :
    Grows P s s'' := by
  intro k v hv
  obtain hv | hP := h' k v hv
  · exact h k v hv
  · exact .inr hP

theorem grows_writeBatch {P : Bytes → Bytes → Prop} {puts : List PutOp} (h : ∀ op ∈ puts, P op.1 op.2)
    (deletes : List Bytes) (s : Store) : Grows P s (s.writeBatch puts deletes) := by
  intro k v hv
  rw [getElem?_writeBatch] at hv
  cases hlast : lastPut puts k with
  | some v' =>
    rw [hlast] at hv
    obtain rfl := Option.some.inj hv
    exact .inr (h _ (mem_of_lastPut_eq_some hlast))
  | none =>
    rw [hlast] at hv
    left
    by_cases hk : k ∈ deletes
    · simp [hk] at hv
    · simpa [hk] using hv

theorem grows_putBatch {P : Bytes → Bytes → Prop} {puts : List PutOp} (h : ∀ op ∈ puts, P op.1 op.2)
    (s : Store) : Grows P s (s.putBatch puts) := grows_writeBatch h [] s

theorem grows_deleteBatch (P : Bytes → Bytes → Prop) (keys : List Bytes) (s : Store) :
    Grows P s (s.deleteBatch keys) := grows_writeBatch (List.forall_mem_nil _) keys s

theorem grows_insert {P : Bytes → Bytes → Prop} {k v : Bytes} (h : P k v) (s : Store) :
    Grows P s (s.insert k v) := by
  have hone : ∀ op ∈ [(k, v)], P op.1 op.2 := List.forall_mem_singleton.mpr h
  exact grows_putBatch hone s

theorem Grows.mono {P Q : Bytes → Bytes → Prop} (hPQ : ∀ k v, P k v → Q k v) {s s' : Store}
    (h : Grows P s s') : Grows Q s s' := fun k v hv => (h k v hv).imp_right (hPQ k v)

/-- What holds of the entries there are and of those a change adds holds of all entries after it. -/
theorem Grows.all {P : Bytes → Bytes → Prop} {s s' : Store} (h : Grows P s s')
    (hs : ∀ k v, s[k]? = some v → P k v) {k v : Bytes} (hv : s'[k]? = some v) : P k v :=
  (h k v hv).elim (hs k v) id

end Store

/-- Programs over the store that may fail. -/
abbrev Db (α : Type) := Prog Store Error α

namespace Db

def get (key : Bytes) : Db (Option Bytes) := .query fun s => s[key]?

def contains (key : Bytes) : Db Bool := .query fun s => s[key]?.isSome

def scan (start stop : Bytes) : Db (List PutOp) := .query fun s => s.scan start stop

def prefixScan (p : Bytes) : Db (List PutOp) := .query fun s => s.prefixScan p

def scanPrefixKeys (p : Bytes) : Db (List Bytes) := .query fun s => s.scanPrefixKeys p

def countPrefix (p : Bytes) : Db Nat := .query fun s => s.countPrefix p

def multiGet (keys : List Bytes) : Db (List (Option Bytes)) := .query fun s => s.multiGet keys

def put (key value : Bytes) : Db Unit := .commit fun s => s.insert key value

def putBatch (ops : List PutOp) : Db Unit := .commit fun s => s.putBatch ops

def deleteBatch (keys : List Bytes) : Db Unit := .commit fun s => s.deleteBatch keys

def writeBatch (puts : List PutOp) (deletes : List Bytes) : Db Unit :=
  .commit fun s => s.writeBatch puts deletes

end Db

end Dllb
