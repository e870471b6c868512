import Mathlib
import Dllb.Core.Value

/-! # Integers as floats

The conversion of an integer rounds, and so different integers can become one
float, but it never puts them in the other order.
-/

namespace Dllb

set_option autoImplicit false

namespace F64

/-- The fraction of an integer with leading bit `e`, with the leading bit. -/
def roundFraction (m e : Nat) : Nat :=
  if e ≤ 52 then m * 2 ^ (52 - e)
  else
    let half := 2 ^ (e - 53)
    let low := m % 2 ^ (e - 52)
    let high := m / 2 ^ (e - 52)
    if low < half ∨ low = half ∧ high % 2 = 0 then high else high + 1

/-- Exponent and fraction of a natural number. -/
def roundMagnitude (m : Nat) : Nat :=
  if m = 0 then 0 else (m.log2 + 1023) * 2 ^ 52 + (roundFraction m m.log2 - 2 ^ 52)

theorem roundFraction_mono {m n e : Nat} (h : m ≤ n) : roundFraction m e ≤ roundFraction n e := by
  unfold roundFraction
  split
  · exact Nat.mul_le_mul_right _ h
  · have hhigh : m / 2 ^ (e - 52) ≤ n / 2 ^ (e - 52) := Nat.div_le_div_right h
    obtain hlt | heq := Nat.lt_or_eq_of_le hhigh
    · dsimp only
      split <;> split <;> omega
    · have hlow : m % 2 ^ (e - 52) ≤ n % 2 ^ (e - 52) := by
        have hm := Nat.div_add_mod m (2 ^ (e - 52))
        have hn := Nat.div_add_mod n (2 ^ (e - 52))
        rw [heq] at hm
        omega
      dsimp only
      rw [heq]
      split <;> split <;> omega

/-- A rounded number has the leading bit of the number, or is the next power of two. -/
theorem roundFraction_bounds {m : Nat} (hm : m ≠ 0) :
    2 ^ 52 ≤ roundFraction m m.log2 ∧ roundFraction m m.log2 ≤ 2 ^ 53 := by
  have hlow : 2 ^ m.log2 ≤ m := (Nat.le_log2 hm).mp le_rfl
  have hhigh : m < 2 ^ (m.log2 + 1) := (Nat.log2_lt hm).mp (Nat.lt_succ_self _)
  unfold roundFraction
  split
  · rename_i he
    have hsplit : 2 ^ 52 = 2 ^ m.log2 * 2 ^ (52 - m.log2) := by
      rw [← pow_add, Nat.add_sub_cancel' he]
    have hsplit' : 2 ^ 53 = 2 ^ (m.log2 + 1) * 2 ^ (52 - m.log2) := by
      rw [← pow_add]
      congr 1
      omega
    exact ⟨hsplit ▸ Nat.mul_le_mul_right _ hlow, hsplit' ▸ Nat.mul_le_mul_right _ hhigh.le⟩
  · rename_i he
    have hpos : 0 < 2 ^ (m.log2 - 52) := by positivity
    have hdiv : 2 ^ 52 ≤ m / 2 ^ (m.log2 - 52) := by
      rw [Nat.le_div_iff_mul_le hpos, ← pow_add, Nat.add_sub_cancel' (by omega)]
      exact hlow
    have hdiv' : m / 2 ^ (m.log2 - 52) < 2 ^ 53 := by
      rw [Nat.div_lt_iff_lt_mul hpos, ← pow_add]
      exact hhigh.trans_eq (congrArg _ (by omega))
    dsimp only
    split <;> omega

theorem roundMagnitude_mono {m n : Nat} (h : m ≤ n) : roundMagnitude m ≤ roundMagnitude n := by
  unfold roundMagnitude
  by_cases hm : m = 0
  · simp [hm]
  · have hn : n ≠ 0 := by omega
    rw [if_neg hm, if_neg hn]
    have hlog : m.log2 ≤ n.log2 := (Nat.le_log2 hn).mpr (((Nat.le_log2 hm).mp le_rfl).trans h)
    obtain hlt | heq := Nat.lt_or_eq_of_le hlog
    · have hbound := roundFraction_bounds hm
      omega
    · have hmono := roundFraction_mono (e := n.log2) h
      rw [heq]
      omega

theorem roundMagnitude_lt {m : Nat} (h : m ≤ 2 ^ 63) : roundMagnitude m < 0x7FF0000000000000 := by
  refine (roundMagnitude_mono h).trans_lt ?_
  decide

/-- The bits of a converted integer are those of its sign and of its magnitude. -/
theorem toNat_ofInt64 (n : Int64) :
    (ofInt64 n).bits.toNat = (if n.toInt < 0 then 2 ^ 63 else 0) + roundMagnitude n.toInt.natAbs := by
  have hle : n.toInt.natAbs ≤ 2 ^ 63 := by
    have hlo := n.le_toInt
    have hhi := n.toInt_lt
    omega
  have hlt := roundMagnitude_lt hle
  have hbits : (ofInt64 n).bits =
      UInt64.ofNat ((if n.toInt < 0 then 2 ^ 63 else 0) + roundMagnitude n.toInt.natAbs) := by
    unfold ofInt64 roundMagnitude
    by_cases hzero : n.toInt.natAbs = 0
    · have hsign : ¬ n.toInt < 0 := by omega
      simp only [hzero, hsign, if_true, if_false]
      rfl
    · simp only [hzero, if_false, Nat.add_assoc]
      rfl
  rw [hbits, UInt64.toNat_ofNat']
  refine Nat.mod_eq_of_lt ?_
  split <;> omega

theorem signedMagnitude_ofInt64 (n : Int64) :
    (ofInt64 n).signedMagnitude =
      if n.toInt < 0 then -(roundMagnitude n.toInt.natAbs : Int) else roundMagnitude n.toInt.natAbs := by
  have hle : n.toInt.natAbs ≤ 2 ^ 63 := by
    have hlo := n.le_toInt
    have hhi := n.toInt_lt
    omega
  have hlt := roundMagnitude_lt hle
  have hbits := toNat_ofInt64 n
  unfold signedMagnitude isSignNegative magnitude
  rw [hbits]
  split <;> simp <;> omega

theorem isNan_ofInt64 (n : Int64) : (ofInt64 n).isNan = false := by
  have hle : n.toInt.natAbs ≤ 2 ^ 63 := by
    have hlo := n.le_toInt
    have hhi := n.toInt_lt
    omega
  have hlt := roundMagnitude_lt hle
  have hbits := toNat_ofInt64 n
  unfold isNan magnitude
  rw [hbits, decide_eq_false_iff_not]
  split <;> omega

/-- Rounding keeps the order. -/
theorem signedMagnitude_ofInt64_mono {m n : Int64} (h : m.toInt ≤ n.toInt) :
    (ofInt64 m).signedMagnitude ≤ (ofInt64 n).signedMagnitude := by
  rw [signedMagnitude_ofInt64, signedMagnitude_ofInt64]
  split <;> split
  · have hmono : roundMagnitude n.toInt.natAbs ≤ roundMagnitude m.toInt.natAbs :=
      roundMagnitude_mono (by omega)
    omega
  · omega
  · omega
  · have hmono : roundMagnitude m.toInt.natAbs ≤ roundMagnitude n.toInt.natAbs :=
      roundMagnitude_mono (by omega)
    omega

end F64

end Dllb
