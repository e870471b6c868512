import Mathlib
import Dllb.Lib.Rounding
import Dllb.Core.Arithmetic

/-! # The order of what is computed

An operation on finite floats gives the float nearest to the exact result, and so
the results have the order of the exact ones.
-/

namespace Dllb

set_option autoImplicit false

namespace F64

theorem roundDiv_eq {n d : Nat} (hd : 0 < d) : (roundDiv n d : Int) = Rounding.toEven ((n : ℚ) / d) := by
  have hdQ : (0 : ℚ) < d := by exact_mod_cast hd
  have hfloor : ⌊(n : ℚ) / d⌋ = ((n / d : Nat) : Int) := by
    rw [Rat.floor_natCast_div_natCast]
    norm_cast
  have hfract : Int.fract ((n : ℚ) / d) = (n % d : Nat) / d := Int.fract_div_natCast_eq_div_natCast_mod
  have hlt : 2 * ((n % d : Nat) / d : ℚ) < 1 ↔ 2 * (n % d) < d := by
    rw [← mul_div_assoc, div_lt_one hdQ]
    norm_cast
  have heq : 2 * ((n % d : Nat) / d : ℚ) = 1 ↔ 2 * (n % d) = d := by
    rw [← mul_div_assoc, div_eq_one_iff_eq hdQ.ne']
    norm_cast
  have heven : ((n / d : Nat) : Int) % 2 = 0 ↔ n / d % 2 = 0 := by omega
  simp only [Rounding.toEven, hfloor, hfract, hlt, heq, heven, roundDiv]
  split <;> rfl

theorem log2_bounds {n : Nat} (hn : 0 < n) : (2 : ℚ) ^ (n.log2 : Int) ≤ n ∧ (n : ℚ) < 2 ^ ((n.log2 : Int) + 1) := by
  have hle := Nat.log2_self_le hn.ne'
  have hlt := Nat.lt_log2_self (n := n)
  rw [show (n.log2 : Int) + 1 = ((n.log2 + 1 : Nat) : Int) by push_cast; rfl, zpow_natCast, zpow_natCast]
  exact ⟨by exact_mod_cast hle, by exact_mod_cast hlt⟩

/-- The exponent of the leading bit is the logarithm. -/
theorem leadingBit_eq {n d : Nat} (hn : 0 < n) (hd : 0 < d) : leadingBit n d = Int.log 2 ((n : ℚ) / d) := by
  have hnQ : (0 : ℚ) < n := by exact_mod_cast hn
  have hdQ : (0 : ℚ) < d := by exact_mod_cast hd
  have hx : (0 : ℚ) < n / d := div_pos hnQ hdQ
  obtain ⟨hnle, hnlt⟩ := log2_bounds hn
  obtain ⟨hdle, hdlt⟩ := log2_bounds hd
  have hcompare : ∀ k : Int, n * 2 ^ (-k).toNat < d * 2 ^ k.toNat ↔ (n : ℚ) / d < 2 ^ k := by
    intro k
    rw [div_lt_iff₀' hdQ]
    rcases le_total 0 k with hk | hk
    · obtain ⟨m, rfl⟩ := Int.eq_ofNat_of_zero_le hk
      rw [zpow_natCast]
      simp
      norm_cast
    · obtain ⟨m, hm⟩ := Int.eq_ofNat_of_zero_le (neg_nonneg.mpr hk)
      obtain rfl : k = -(m : Int) := by omega
      rw [zpow_neg, zpow_natCast, ← div_eq_mul_inv, lt_div_iff₀ (by positivity)]
      simp
      norm_cast
  have hlower : (2 : ℚ) ^ ((n.log2 : Int) - d.log2 - 1) ≤ n / d := by
    rw [le_div_iff₀ hdQ]
    calc (2 : ℚ) ^ ((n.log2 : Int) - d.log2 - 1) * d ≤ 2 ^ ((n.log2 : Int) - d.log2 - 1) * 2 ^ ((d.log2 : Int) + 1) :=
          mul_le_mul_of_nonneg_left hdlt.le (by positivity)
      _ = 2 ^ (n.log2 : Int) := by
          rw [← zpow_add₀ two_ne_zero]
          congr 1
          ring
      _ ≤ n := hnle
  have hupper : (n : ℚ) / d < 2 ^ ((n.log2 : Int) - d.log2 + 1) := by
    rw [div_lt_iff₀ hdQ]
    calc (n : ℚ) < 2 ^ ((n.log2 : Int) + 1) := hnlt
      _ = 2 ^ ((n.log2 : Int) - d.log2 + 1) * 2 ^ (d.log2 : Int) := by
          rw [← zpow_add₀ two_ne_zero]
          congr 1
          ring
      _ ≤ 2 ^ ((n.log2 : Int) - d.log2 + 1) * d := mul_le_mul_of_nonneg_left hdle (by positivity)
  have hge : (n.log2 : Int) - d.log2 - 1 ≤ Int.log 2 ((n : ℚ) / d) :=
    (Int.zpow_le_iff_le_log (b := 2) (by decide) hx).mp (by rw [Nat.cast_ofNat]; exact hlower)
  have hle : Int.log 2 ((n : ℚ) / d) < (n.log2 : Int) - d.log2 + 1 :=
    (Int.lt_zpow_iff_log_lt (b := 2) (by decide) hx).mp (by rw [Nat.cast_ofNat]; exact hupper)
  rw [leadingBit]
  generalize (n.log2 : Int) - d.log2 = k at hge hle ⊢
  have hsplit := (hcompare k).trans (Int.lt_zpow_iff_log_lt (b := 2) (by decide) hx)
  split
  · rename_i h
    have := hsplit.mp h
    omega
  · rename_i h
    have := mt hsplit.mpr h
    omega

theorem magnitudeOfRatio_eq {n d : Nat} (hd : 0 < d) :
    (magnitudeOfRatio n d : Int) = min (Rounding.code 52 (-1022) ((n : ℚ) / d)) infinity := by
  have hdQ : (0 : ℚ) < d := by exact_mod_cast hd
  rcases Nat.eq_zero_or_pos n with rfl | hn
  · simp [magnitudeOfRatio, Rounding.code, infinity]
  have hnQ : (0 : ℚ) < n := by exact_mod_cast hn
  have hratio : (n : ℚ) / d ≠ 0 := (div_pos hnQ hdQ).ne'
  have hexponent : max (leadingBit n d) (-1022) = Rounding.exponent (-1022) ((n : ℚ) / d) := by
    rw [leadingBit_eq hn hd, Rounding.exponent]
  have hlow : -1022 ≤ Rounding.exponent (-1022) ((n : ℚ) / d) := le_max_right _ _
  rw [magnitudeOfRatio, if_neg hn.ne', Rounding.code, if_neg hratio, hexponent]
  generalize Rounding.exponent (-1022) ((n : ℚ) / d) = e at hlow ⊢
  have hdigits : ((n * 2 ^ (52 - e).toNat : Nat) : ℚ) / (d * 2 ^ (-(52 - e)).toNat : Nat) =
      n / d * 2 ^ (((52 : Nat) : Int) - e) := by
    push_cast
    rcases le_total e 52 with he | he
    · obtain ⟨m, hm⟩ := Int.eq_ofNat_of_zero_le (Int.sub_nonneg.mpr he)
      rw [hm]
      simp
      ring
    · obtain ⟨m, hm⟩ := Int.eq_ofNat_of_zero_le (Int.sub_nonneg.mpr he)
      obtain hm' : (52 : Int) - e = -(m : Int) := by omega
      rw [hm', zpow_neg, zpow_natCast]
      simp
      field_simp
  dsimp only
  push_cast
  rw [roundDiv_eq (by positivity), hdigits]
  have hgrid : ((e + 1022).toNat : Int) = e - -1022 := by omega
  rw [hgrid]
  rfl

/-! ## The numbers that floats stand for -/

def Finite (f : F64) : Prop := f.magnitude < infinity

instance (f : F64) : Decidable f.Finite := inferInstanceAs (Decidable (_ < _))

def value (f : F64) : ℚ := f.signedUnits / 2 ^ 1074

/-- The float nearest to a number, as a signed magnitude. -/
def rounded (x : ℚ) : Int :=
  if x < 0 then -min (Rounding.code 52 (-1022) (-x)) infinity else min (Rounding.code 52 (-1022) x) infinity

theorem Finite.isNan {f : F64} (h : f.Finite) : f.isNan = false := by
  simp only [F64.isNan, decide_eq_false_iff_not, not_lt]
  exact h.le

theorem Finite.isInfinite {f : F64} (h : f.Finite) : f.isInfinite = false := by
  simp only [F64.isInfinite, beq_eq_false_iff_ne]
  exact h.ne

theorem units_eq (f : F64) : (f.units : ℚ) / 2 ^ 1074 = Rounding.ofCode ℚ 52 (-1022) f.magnitude := by
  have hdiv := Nat.div_add_mod f.magnitude (2 ^ 52)
  rw [div_eq_mul_inv, ← zpow_natCast, ← zpow_neg]
  simp only [units, Rounding.ofCode]
  generalize f.magnitude / 2 ^ 52 = e at hdiv ⊢
  rcases e with _ | e
  · have hmod : f.magnitude - (0 - 1) * 2 ^ 52 = f.magnitude % 2 ^ 52 := by omega
    rw [if_pos rfl, hmod]
    norm_num
  · have hmod : f.magnitude - (e + 1 - 1) * 2 ^ 52 = 2 ^ 52 + f.magnitude % 2 ^ 52 := by
      rw [Nat.add_sub_cancel]
      rw [Nat.mul_add, mul_one] at hdiv
      rw [← hdiv]
      have := Nat.mul_comm (2 ^ 52) e
      omega
    rw [if_neg (Nat.succ_ne_zero e), hmod, Nat.add_sub_cancel]
    rw [Nat.cast_mul, Nat.cast_pow 2 e, Nat.cast_ofNat, mul_assoc, ← zpow_natCast, ← zpow_add₀ two_ne_zero]
    congr 2
    ring

theorem value_eq (f : F64) :
    f.value = if f.signedMagnitude < 0 then -Rounding.ofCode ℚ 52 (-1022) f.signedMagnitude.natAbs
      else Rounding.ofCode ℚ 52 (-1022) f.signedMagnitude.natAbs := by
  rw [value, signedUnits, signedMagnitude]
  split
  · rw [Int.natAbs_neg, Int.natAbs_natCast, ← units_eq]
    split
    · rw [Int.cast_neg, Int.cast_natCast, neg_div]
    · have hzero : f.magnitude = 0 := by omega
      simp [units, hzero]
  · rw [if_neg (by omega), Int.natAbs_natCast, ← units_eq, Int.cast_natCast]

theorem value_of_signedMagnitude {f : F64} {c : Nat} (h : f.signedMagnitude = c) :
    f.value = Rounding.ofCode ℚ 52 (-1022) c := by
  rw [value_eq, h, if_neg (by omega), Int.natAbs_natCast]

theorem rounded_neg (x : ℚ) : rounded (-x) = -rounded x := by
  rcases lt_trichotomy x 0 with h | rfl | h
  · rw [rounded, rounded, if_neg (by linarith), if_pos h, neg_neg]
  · simp [rounded, Rounding.code, infinity]
  · rw [rounded, rounded, if_pos (by linarith), if_neg (by linarith), neg_neg]

theorem rounded_nonneg {x : ℚ} (hx : 0 ≤ x) : 0 ≤ rounded x := by
  rw [rounded, if_neg (not_lt.mpr hx)]
  exact le_min (Rounding.code_nonneg hx) (by decide)

/-- What is rounded keeps its order. -/
theorem rounded_mono : Monotone rounded := by
  have hnonneg : ∀ {x y : ℚ}, 0 ≤ x → x ≤ y → rounded x ≤ rounded y := by
    intro x y hx hxy
    rw [rounded, rounded, if_neg (not_lt.mpr hx), if_neg (not_lt.mpr (hx.trans hxy))]
    exact min_le_min_right _ (Rounding.code_mono hx hxy)
  intro x y hxy
  rcases le_or_gt 0 x with hx | hx
  · exact hnonneg hx hxy
  rcases le_or_gt 0 y with hy | hy
  · have := rounded_nonneg (neg_nonneg.mpr hx.le)
    rw [rounded_neg] at this
    exact (by omega : rounded x ≤ 0).trans (rounded_nonneg hy)
  · have := hnonneg (neg_nonneg.mpr hy.le) (neg_le_neg hxy)
    rw [rounded_neg, rounded_neg] at this
    omega

/-- A finite float is what its number is rounded to. -/
theorem rounded_value {f : F64} (h : f.Finite) : rounded f.value = f.signedMagnitude := by
  have hcode : ∀ c : Nat, c < infinity → rounded (Rounding.ofCode ℚ 52 (-1022) c) = c := by
    intro c hc
    rw [rounded, if_neg (not_lt.mpr (Rounding.ofCode_nonneg c)), Rounding.code_ofCode]
    omega
  have hmagnitude : f.signedMagnitude.natAbs = f.magnitude := by
    rw [signedMagnitude]
    split <;> omega
  have hlt : f.signedMagnitude.natAbs < infinity := hmagnitude ▸ h
  rw [value_eq]
  split
  · rw [rounded_neg, hcode _ hlt]
    omega
  · rw [hcode _ hlt]
    omega

theorem value_le_iff {a b : F64} (ha : a.Finite) (hb : b.Finite) :
    a.value ≤ b.value ↔ a.signedMagnitude ≤ b.signedMagnitude := by
  constructor
  · intro h
    rw [← rounded_value ha, ← rounded_value hb]
    exact rounded_mono h
  · intro h
    by_contra hlt
    have hle := rounded_mono (not_le.mp hlt).le
    rw [rounded_value ha, rounded_value hb] at hle
    have heq : a.signedMagnitude = b.signedMagnitude := le_antisymm h hle
    rw [value_eq, value_eq, heq] at hlt
    exact hlt le_rfl

/-! ## What the operations give -/

theorem ofMagnitude_spec (negative : Bool) {m : Nat} (hm : m ≤ infinity) :
    (ofMagnitude negative m).magnitude = m ∧
      (ofMagnitude negative m).signedMagnitude = if negative then -(m : Int) else m := by
  have hlt : m < 2 ^ 63 := hm.trans_lt (by decide)
  have hbits : (ofMagnitude negative m).bits.toNat = (if negative then 2 ^ 63 else 0) + m := by
    change (UInt64.ofNat _).toNat = _
    rw [UInt64.toNat_ofNat']
    refine Nat.mod_eq_of_lt ?_
    split <;> omega
  have hmagnitude : (ofMagnitude negative m).magnitude = m := by
    rw [magnitude, hbits]
    cases negative <;> simp <;> omega
  refine ⟨hmagnitude, ?_⟩
  rw [signedMagnitude, hmagnitude, isSignNegative, hbits]
  cases negative
  · rw [decide_eq_false (by simpa using hlt)]
  · simp

/-- The operation has given the float nearest to `x`. -/
structure Rounds (x : ℚ) (f : F64) : Prop where
  isNan : f.isNan = false
  signedMagnitude : f.signedMagnitude = rounded x

theorem rounds_ofRatio (negative : Bool) (n : Nat) {d : Nat} (hd : 0 < d) :
    Rounds (if negative then -((n : ℚ) / d) else n / d) (ofMagnitude negative (magnitudeOfRatio n d)) := by
  have heq := magnitudeOfRatio_eq (n := n) hd
  have hle : magnitudeOfRatio n d ≤ infinity := by omega
  have hratio : (0 : ℚ) ≤ n / d := by positivity
  obtain ⟨hmagnitude, hsigned⟩ := ofMagnitude_spec negative hle
  refine ⟨decide_eq_false (hmagnitude.symm ▸ not_lt.mpr hle), hsigned.trans ?_⟩
  cases negative
  · simp only [Bool.false_eq_true, if_false]
    rw [rounded, if_neg (not_lt.mpr hratio), heq]
  · simp only [if_true]
    rw [rounded_neg, rounded, if_neg (not_lt.mpr hratio), heq]

theorem Finite.rounds {f : F64} (h : f.Finite) : Rounds f.value f := ⟨h.isNan, (rounded_value h).symm⟩

theorem finite_iff {f : F64} : f.Finite ↔ -(infinity : Int) < f.signedMagnitude ∧ f.signedMagnitude < infinity := by
  rw [F64.Finite, F64.signedMagnitude]
  split <;> omega

/-- Nothing has overflown if the exact result lies between finite floats. -/
theorem Rounds.finite {x : ℚ} {f : F64} (h : Rounds x f) {a b : F64} (ha : a.Finite) (hb : b.Finite)
    (hle : a.value ≤ x) (hge : x ≤ b.value) : f.Finite := by
  have hle' := rounded_mono hle
  have hge' := rounded_mono hge
  rw [rounded_value ha] at hle'
  rw [rounded_value hb] at hge'
  rw [finite_iff] at ha hb ⊢
  rw [h.signedMagnitude]
  exact ⟨ha.1.trans_le hle', hge'.trans_lt hb.2⟩

theorem Rounds.value_le {x y : ℚ} {f g : F64} (hf : Rounds x f) (hg : Rounds y g) (hf' : f.Finite) (hg' : g.Finite)
    (h : x ≤ y) : f.value ≤ g.value := by
  rw [value_le_iff hf' hg', hf.signedMagnitude, hg.signedMagnitude]
  exact rounded_mono h

theorem neg_spec (f : F64) : f.neg.magnitude = f.magnitude ∧ f.neg.isSignNegative = !f.isSignNegative := by
  have hbits : f.neg.bits.toNat = f.bits.toNat ^^^ 2 ^ 63 := UInt64.toNat_xor f.bits _
  have hlt := f.bits.toNat_lt
  have hltNeg := f.neg.bits.toNat_lt
  constructor
  · rw [magnitude, hbits, Nat.xor_mod_two_pow, Nat.mod_self, Nat.xor_zero]
    rfl
  · have hdiv : f.neg.bits.toNat / 2 ^ 63 = f.bits.toNat / 2 ^ 63 ^^^ 1 := by
      rw [hbits, Nat.xor_div_two_pow, Nat.div_self (by decide)]
    rw [isSignNegative, isSignNegative, ← decide_not, decide_eq_decide]
    rcases (by omega : f.bits.toNat / 2 ^ 63 = 0 ∨ f.bits.toNat / 2 ^ 63 = 1) with h | h
    · rw [h, Nat.zero_xor] at hdiv
      omega
    · rw [h, Nat.xor_self] at hdiv
      omega

theorem finite_neg {f : F64} : f.neg.Finite ↔ f.Finite := by rw [F64.Finite, F64.Finite, (neg_spec f).1]

theorem value_neg (f : F64) : f.neg.value = -f.value := by
  have hunits : f.neg.units = f.units := by simp only [units, (neg_spec f).1]
  rw [value, value, signedUnits, signedUnits, (neg_spec f).2, hunits, ← neg_div]
  cases f.isSignNegative <;> simp

theorem value_lt_iff {a b : F64} (ha : a.Finite) (hb : b.Finite) :
    a.value < b.value ↔ a.signedMagnitude < b.signedMagnitude := by
  rw [← not_le, value_le_iff hb ha, not_le]

def twoPow (k : Nat) : F64 := ofMagnitude false ((k + 1023) * 2 ^ 52)

theorem twoPow_spec {k : Nat} (hk : k ≤ 1023) : (twoPow k).Finite ∧ (twoPow k).value = 2 ^ k := by
  have hlt : (k + 1023) * 2 ^ 52 < infinity := by
    have : infinity = 2047 * 2 ^ 52 := rfl
    omega
  obtain ⟨hmagnitude, hsigned⟩ := ofMagnitude_spec false hlt.le
  refine ⟨hmagnitude.trans_lt hlt, ?_⟩
  have hgrid := Rounding.ofCode_grid (K := ℚ) (p := 52) (l := -1022) (t := k + 1022) (q := 2 ^ 52) (.inr le_rfl)
    (by decide)
  have hcode : (k + 1023) * 2 ^ 52 = (k + 1022) * 2 ^ 52 + 2 ^ 52 := by ring
  have hexponent : ((52 : Nat) : Int) + (-1022 + (k + 1022 : Nat) - (52 : Nat)) = k := by omega
  rw [if_neg Bool.false_ne_true] at hsigned
  rw [twoPow, value_of_signedMagnitude hsigned, hcode, hgrid, Nat.cast_pow, Nat.cast_ofNat, ← zpow_natCast,
    ← zpow_add₀ two_ne_zero, hexponent, zpow_natCast]

/-- Rounding does not go past a power of two. -/
theorem Rounds.within {x : ℚ} {f : F64} (h : Rounds x f) {k : Nat} (hk : k ≤ 1023) (hx : |x| ≤ 2 ^ k) :
    f.Finite ∧ |f.value| ≤ 2 ^ k := by
  obtain ⟨hlow, hhigh⟩ := abs_le.mp hx
  obtain ⟨hpow, hvalue⟩ := twoPow_spec hk
  have hneg : (twoPow k).neg.value = -2 ^ k := by rw [value_neg, hvalue]
  have hnegFinite := finite_neg.mpr hpow
  have hfinite : f.Finite := h.finite hnegFinite hpow (hneg.trans_le hlow) (hhigh.trans_eq hvalue.symm)
  refine ⟨hfinite, abs_le.mpr ⟨?_, ?_⟩⟩
  · rw [← hneg]
    exact hnegFinite.rounds.value_le h hnegFinite hfinite (hneg.trans_le hlow)
  · rw [← hvalue]
    exact h.value_le hpow.rounds hfinite hpow (hhigh.trans_eq hvalue.symm)

/-! ## Whole numbers -/

theorem rounds_ofNat (n : Nat) : Rounds n (ofNat n) := by
  simpa [ofNat] using rounds_ofRatio false n one_pos

theorem isSignNegative_ofNat (n : Nat) : (ofNat n).isSignNegative = false := by
  have hle : magnitudeOfRatio n 1 < 2 ^ 63 := by
    have := magnitudeOfRatio_eq (n := n) one_pos
    have : infinity < 2 ^ 63 := by decide
    omega
  have hbits : (ofNat n).bits.toNat = 0 + magnitudeOfRatio n 1 :=
    (UInt64.toNat_ofNat' ..).trans (Nat.mod_eq_of_lt (by simp; omega))
  rw [isSignNegative, hbits]
  exact decide_eq_false (by omega)

/-- Whole numbers of at most 53 bits are floats. -/
theorem value_ofNat {n : Nat} (hn : n ≤ 2 ^ 53) : (ofNat n).Finite ∧ (ofNat n).value = n := by
  obtain ⟨c, hc⟩ := Rounding.exists_ofCode (K := ℚ) (p := 52) (l := -1022) (by decide) hn
  have hcode : (ofNat n).signedMagnitude = min (c : Int) infinity := by
    rw [(rounds_ofNat n).signedMagnitude, rounded, if_neg (by simp), ← hc, Rounding.code_ofCode]
  have hlt : c < infinity := by
    have hmono := Rounding.code_mono (p := 52) (l := -1022) (Nat.cast_nonneg (α := ℚ) n)
      (show (n : ℚ) ≤ (2 ^ 53 : Nat) / (1 : Nat) by rw [Nat.cast_one, div_one]; exact_mod_cast hn)
    rw [← hc, Rounding.code_ofCode] at hmono
    have hlargest := magnitudeOfRatio_eq (n := 2 ^ 53) one_pos
    have hcompute : magnitudeOfRatio (2 ^ 53) 1 = 0x4340000000000000 := by decide +kernel
    rw [hcompute] at hlargest
    have : infinity = 0x7FF0000000000000 := rfl
    omega
  have hsigned : (ofNat n).signedMagnitude = c := by omega
  refine ⟨by rw [finite_iff]; omega, ?_⟩
  rw [value_of_signedMagnitude hsigned, hc]

theorem units_ofNat {n : Nat} (hn : n ≤ 2 ^ 53) : ((ofNat n).units : ℚ) / 2 ^ 1074 = n := by
  have hvalue := (value_ofNat hn).2
  rwa [value, signedUnits, isSignNegative_ofNat, if_neg Bool.false_ne_true, Int.cast_natCast] at hvalue

/-- Counting is exact up to 53 bits. -/
theorem ofNat_add {m n : Nat} (h : m + n ≤ 2 ^ 53) : (ofNat m).add (ofNat n) = ofNat (m + n) := by
  have hm := (value_ofNat (n := m) (by omega)).1
  have hn := (value_ofNat (n := n) (by omega)).1
  have hsum : (ofNat m).signedUnits + (ofNat n).signedUnits = (((ofNat m).units + (ofNat n).units : Nat) : Int) := by
    rw [signedUnits, signedUnits, isSignNegative_ofNat, isSignNegative_ofNat, if_neg Bool.false_ne_true,
      if_neg Bool.false_ne_true, Nat.cast_add]
  have hratio : (((ofNat m).units + (ofNat n).units : Nat) : ℚ) / 2 ^ 1074 = (m + n : Nat) := by
    rw [Nat.cast_add, add_div, units_ofNat (by omega), units_ofNat (by omega), Nat.cast_add]
  rw [add, hm.isNan, hn.isNan, hm.isInfinite, hn.isInfinite, hsum, isSignNegative_ofNat, isSignNegative_ofNat]
  generalize (ofNat m).units + (ofNat n).units = sum at hratio ⊢
  simp only [Bool.or_self, Bool.and_self, Bool.false_eq_true, if_false]
  split
  · rename_i hzero
    rw [Int.natCast_eq_zero.mp hzero, Nat.cast_zero, zero_div] at hratio
    rw [Nat.cast_eq_zero.mp hratio.symm]
    rfl
  · rw [decide_eq_false (not_lt.mpr (Int.natCast_nonneg _)), Int.natAbs_natCast, ofNat]
    congr 1
    have hleft := magnitudeOfRatio_eq (n := sum) (show 0 < 2 ^ 1074 by positivity)
    have hright := magnitudeOfRatio_eq (n := m + n) one_pos
    rw [Nat.cast_pow, Nat.cast_ofNat, hratio] at hleft
    rw [Nat.cast_one, div_one, ← hleft] at hright
    exact Int.ofNat.inj hright.symm

end F64

end Dllb
