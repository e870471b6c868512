import Mathlib
import Dllb.Lib.Lex

/-! # Byte strings: lexicographic order, big-endian words and UTF-8 -/

namespace Dllb

set_option autoImplicit false

abbrev Bytes := List UInt8

/-- Byte-wise comparison, a proper prefix first. -/
def cmpBytes : Bytes → Bytes → Ordering := @compare (List UInt8) List.instOrd

instance : Std.TransCmp cmpBytes := inferInstanceAs (Std.TransOrd (List UInt8))

instance : Std.LawfulEqCmp cmpBytes := inferInstanceAs (Std.LawfulEqOrd (List UInt8))

instance linearOrderUInt8 : LinearOrder UInt8 where
  le_refl := UInt8.le_refl
  le_trans _ _ _ := UInt8.le_trans
  le_antisymm _ _ := UInt8.le_antisymm
  le_total := UInt8.le_total
  lt_iff_le_not_ge a b := by
    simp only [UInt8.le_iff_toNat_le, UInt8.lt_iff_toNat_lt]
    omega
  toDecidableLE := inferInstance

theorem cmpBytes_eq_lt_iff (a b : Bytes) : cmpBytes a b = .lt ↔ a < b := by
  induction a generalizing b with
  | nil => cases b <;> simp [cmpBytes]
  | cons x a ih =>
    cases b with
    | nil => simp [cmpBytes]
    | cons y b =>
      have ih := ih b
      simp only [cmpBytes] at ih ⊢
      rw [List.compare_cons_cons, Ordering.then_eq_lt, ih, List.cons_lt_cons_iff]
      simp [Std.compare_eq_lt]

/-! ## Big-endian words -/

def beValue (b : Bytes) : Nat := b.foldl (fun acc x => acc * 256 + x.toNat) 0

theorem foldl_be (b : Bytes) (acc : Nat) :
    b.foldl (fun acc x => acc * 256 + x.toNat) acc = acc * 256 ^ b.length + beValue b := by
  induction b generalizing acc with
  | nil => simp [beValue]
  | cons x b ih =>
    simp only [beValue, List.foldl_cons, List.length_cons]
    rw [ih, ih (0 * 256 + x.toNat)]
    ring

theorem beValue_cons (x : UInt8) (b : Bytes) :
    beValue (x :: b) = x.toNat * 256 ^ b.length + beValue b := by
  have h := foldl_be b (0 * 256 + x.toNat)
  simpa [beValue] using h

theorem beValue_lt (b : Bytes) : beValue b < 256 ^ b.length := by
  induction b with
  | nil => simp [beValue]
  | cons x b ih =>
    have hx : x.toNat ≤ 255 := Nat.le_of_lt_succ x.toNat_lt
    rw [beValue_cons, List.length_cons, pow_succ]
    calc x.toNat * 256 ^ b.length + beValue b
        < x.toNat * 256 ^ b.length + 256 ^ b.length := by omega
      _ ≤ 255 * 256 ^ b.length + 256 ^ b.length := by gcongr
      _ = 256 ^ b.length * 256 := by ring

/-- Words of one length order as the numbers they spell. -/
theorem lt_iff_beValue_lt {a b : Bytes} (hlen : a.length = b.length) :
    a < b ↔ beValue a < beValue b := by
  induction a generalizing b with
  | nil =>
    obtain rfl : b = [] := List.length_eq_zero_iff.mp hlen.symm
    simp
  | cons x a ih =>
    cases b with
    | nil => cases hlen
    | cons y b =>
      have hlen : a.length = b.length := Nat.succ.inj hlen
      have ha := beValue_lt a
      have hb := beValue_lt b
      rw [List.cons_lt_cons_iff, ih hlen, beValue_cons, beValue_cons, hlen]
      rw [hlen] at ha
      rcases lt_trichotomy x y with h | rfl | h
      · have hxy : x.toNat + 1 ≤ y.toNat := UInt8.lt_iff_toNat_lt.mp h
        have := Nat.mul_le_mul_right (256 ^ b.length) hxy
        simp only [h, true_or, true_iff]
        linarith [Nat.add_mul x.toNat 1 (256 ^ b.length)]
      · simp
      · have hxy : y.toNat + 1 ≤ x.toNat := UInt8.lt_iff_toNat_lt.mp h
        have := Nat.mul_le_mul_right (256 ^ b.length) hxy
        simp only [h.not_gt, h.ne', false_and, or_false, false_iff, not_lt]
        linarith [Nat.add_mul y.toNat 1 (256 ^ b.length)]

/-- Most significant byte first. -/
def toBeBytes (x : UInt64) : Bytes :=
  [(x >>> 56).toUInt8, (x >>> 48).toUInt8, (x >>> 40).toUInt8, (x >>> 32).toUInt8,
    (x >>> 24).toUInt8, (x >>> 16).toUInt8, (x >>> 8).toUInt8, x.toUInt8]

@[simp] theorem length_toBeBytes (x : UInt64) : (toBeBytes x).length = 8 := rfl

theorem beValue_toBeBytes (x : UInt64) : beValue (toBeBytes x) = x.toNat := by
  have hx := x.toNat_lt
  simp only [toBeBytes, beValue, List.foldl_cons, List.foldl_nil, UInt64.toNat_toUInt8,
    UInt64.toNat_shiftRight, UInt64.reduceToNat, Nat.reduceMod, Nat.shiftRight_eq_div_pow,
    Nat.reducePow]
  omega

theorem toBeBytes_lt_iff (x y : UInt64) : toBeBytes x < toBeBytes y ↔ x.toNat < y.toNat := by
  rw [lt_iff_beValue_lt (by simp), beValue_toBeBytes, beValue_toBeBytes]

theorem toBeBytes_injective : Function.Injective toBeBytes := by
  intro x y h
  have h := congrArg beValue h
  rw [beValue_toBeBytes, beValue_toBeBytes] at h
  exact UInt64.toNat_inj.mp h

/-! ## UTF-8 -/

def asBytes (s : String) : Bytes := s.toByteArray.data.toList

def fromUtf8 (b : Bytes) : Option String := String.fromUTF8? ⟨b.toArray⟩

theorem asBytes_injective : Function.Injective asBytes := by
  intro s t h
  apply String.toByteArray_inj.mp
  cases hs : s.toByteArray
  cases ht : t.toByteArray
  simp only [asBytes, hs, ht] at h
  rw [Array.toList_inj.mp h]

@[simp] theorem asBytes_inj {s t : String} : asBytes s = asBytes t ↔ s = t :=
  asBytes_injective.eq_iff

@[simp] theorem fromUtf8_asBytes (s : String) : fromUtf8 (asBytes s) = some s := by
  unfold fromUtf8 String.fromUTF8?
  split
  · rfl
  · rename_i h
    exact absurd s.isValidUTF8 h

theorem asBytes_of_fromUtf8 {b : Bytes} {s : String} (h : fromUtf8 b = some s) : asBytes s = b := by
  unfold fromUtf8 String.fromUTF8? at h
  split at h
  · cases h
    rfl
  · cases h

end Dllb
