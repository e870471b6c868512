import Mathlib
import Dllb.Storage.Kv

/-! # Scans of a prefix

The end of a scan is the least key above all extensions of the prefix. A prefix
of `FF` bytes alone has no such key: its end is empty, and the range up to an
empty end holds nothing.
-/

namespace Dllb

set_option autoImplicit false

namespace Key

theorem prefixEnd_eq_nil_iff {p : Bytes} : prefixEnd p = [] ↔ ∀ b ∈ p, b = 0xFF := by
  constructor
  · intro h b hb
    by_contra hne
    have hlt : b < 0xFF := by
      have hb' := b.toNat_lt
      have hne' : b.toNat ≠ 255 := fun heq => hne (UInt8.toNat_inj.mp heq)
      rw [UInt8.lt_iff_toNat_lt]
      change b.toNat < 255
      omega
    exact prefixEnd_ne_nil_of_mem hlt hb h
  · intro h
    induction p with
    | nil => rfl
    | cons b p ih =>
      obtain ⟨rfl, hp⟩ := List.forall_mem_cons.mp h
      rw [prefixEnd_cons, if_pos (ih hp)]
      rfl

end Key

/-! ## The loops of the backend -/

namespace RedbBackend

/-- The loop over the entries of a range that counts them. -/
def countEntries : List PutOp → Nat → Nat
  | [], n => n
  | _ :: entries, n => countEntries entries (n + 1)

/-- The loop over the entries of a range that collects their keys. -/
def collectKeys : List PutOp → List Bytes → List Bytes
  | [], keys => keys
  | (k, _) :: entries, keys => collectKeys entries (keys ++ [k])

def countPrefix (s : Store) (p : Bytes) : Nat := countEntries (s.scan p (Key.prefixEnd p)) 0

def scanPrefixKeys (s : Store) (p : Bytes) : List Bytes := collectKeys (s.scan p (Key.prefixEnd p)) []

theorem countEntries_eq (entries : List PutOp) (n : Nat) : countEntries entries n = n + entries.length := by
  induction entries generalizing n with
  | nil => rfl
  | cons entry entries ih =>
    rw [countEntries, ih, List.length_cons]
    omega

theorem collectKeys_eq (entries : List PutOp) (keys : List Bytes) :
    collectKeys entries keys = keys ++ entries.map Prod.fst := by
  induction entries generalizing keys with
  | nil => exact (List.append_nil keys).symm
  | cons entry entries ih =>
    rw [collectKeys, ih, List.append_assoc]
    rfl

/-- Both overrides agree with the methods of the trait. -/
theorem countPrefix_eq (s : Store) (p : Bytes) : countPrefix s p = s.countPrefix p := by
  rw [countPrefix, countEntries_eq, Nat.zero_add]
  rfl

theorem scanPrefixKeys_eq (s : Store) (p : Bytes) : scanPrefixKeys s p = s.scanPrefixKeys p :=
  collectKeys_eq _ []

end RedbBackend

/-! ## Exactness -/

namespace Store

/-- The three operations return the entries below a prefix in ascending order, their keys and their
number. -/
structure PrefixExact (s : Store) (p : Bytes) : Prop where
  mem_iff : ∀ k v, (k, v) ∈ s.prefixScan p ↔ s[k]? = some v ∧ p <+: k
  ascending : (s.prefixScan p).Pairwise fun a b => a.1 < b.1
  keys : RedbBackend.scanPrefixKeys s p = (s.prefixScan p).map Prod.fst
  count : RedbBackend.countPrefix s p = (s.prefixScan p).length

theorem prefixExact_of_mem_iff {s : Store} {p : Bytes}
    (h : ∀ k v, (k, v) ∈ s.prefixScan p ↔ s[k]? = some v ∧ p <+: k) : s.PrefixExact p where
  mem_iff := h
  ascending := s.pairwise_scan p _
  keys := RedbBackend.scanPrefixKeys_eq s p
  count := RedbBackend.countPrefix_eq s p

theorem prefixScan_of_prefixEnd_eq_nil {s : Store} {p : Bytes} (h : Key.prefixEnd p = []) :
    s.prefixScan p = [] := by
  refine List.eq_nil_iff_forall_not_mem.mpr ?_
  rintro ⟨k, v⟩ hmem
  obtain ⟨-, -, hlt⟩ := mem_scan_iff.mp hmem
  rw [h] at hlt
  exact List.not_lt_nil k hlt

/-- The operations are exact for a prefix exactly if it has a byte other than `FF` or no key of the
store starts with it. -/
theorem prefix_scan_exact_iff (s : Store) (p : Bytes) :
    s.PrefixExact p ↔ (∃ b ∈ p, b ≠ 0xFF) ∨ ∀ k ∈ s, ¬ p <+: k := by
  constructor
  · intro h
    by_contra hnot
    push Not at hnot
    obtain ⟨hbytes, k, hk, hpk⟩ := hnot
    obtain ⟨v, hv⟩ := Option.isSome_iff_exists.mp (Std.ExtTreeMap.isSome_getElem?_iff_mem.mpr hk)
    have hmem := (h.mem_iff k v).mpr ⟨hv, hpk⟩
    rw [prefixScan_of_prefixEnd_eq_nil (Key.prefixEnd_eq_nil_iff.mpr hbytes)] at hmem
    exact List.not_mem_nil hmem
  · intro h
    refine prefixExact_of_mem_iff fun k v => ?_
    by_cases hend : Key.prefixEnd p = []
    · have hnone : ∀ k ∈ s, ¬ p <+: k := by
        refine h.resolve_left ?_
        rintro ⟨b, hb, hne⟩
        exact hne (Key.prefixEnd_eq_nil_iff.mp hend b hb)
      rw [prefixScan_of_prefixEnd_eq_nil hend]
      refine iff_of_false List.not_mem_nil ?_
      rintro ⟨hv, hpk⟩
      exact hnone k (Std.ExtTreeMap.isSome_getElem?_iff_mem.mp (Option.isSome_iff_exists.mpr ⟨v, hv⟩)) hpk
    · exact mem_prefixScan_iff hend

/-- The empty prefix does not find what is there. -/
theorem empty_prefix_finds_nothing : ¬ ∀ (s : Store) (p : Bytes), s.PrefixExact p := by
  intro h
  have hmem := ((h ((∅ : Store).insert [0x61] [1]) []).mem_iff [0x61] [1]).mpr
    ⟨by rw [getElem?_insert', if_pos rfl], List.nil_prefix⟩
  rw [prefixScan_of_prefixEnd_eq_nil rfl] at hmem
  exact List.not_mem_nil hmem

end Store

end Dllb
