import Mathlib

/-! # Numbers of finitely many digits

A binary format has numbers of `p` digits after the leading bit, whose exponents
are at least `l`. In their order they have codes, and what is not among them is
rounded to the nearest one, with ties to even.
-/

namespace Rounding

set_option autoImplicit false

variable {K : Type} [Field K] [LinearOrder K] [IsStrictOrderedRing K] [FloorRing K]

/-! ## Whole numbers -/

/-- The nearest whole number, the even one of two. -/
def toEven (x : K) : Int :=
  if 2 * Int.fract x < 1 ∨ 2 * Int.fract x = 1 ∧ ⌊x⌋ % 2 = 0 then ⌊x⌋ else ⌊x⌋ + 1

theorem toEven_intCast (n : Int) : toEven (n : K) = n := by
  rw [toEven, Int.fract_intCast, Int.floor_intCast, if_pos]
  norm_num

theorem toEven_natCast (n : Nat) : toEven (n : K) = n := by
  simpa using toEven_intCast (K := K) n

omit [IsStrictOrderedRing K] in
theorem floor_le_toEven (x : K) : ⌊x⌋ ≤ toEven x := by
  unfold toEven
  split <;> omega

omit [IsStrictOrderedRing K] in
theorem toEven_le_floor_add_one (x : K) : toEven x ≤ ⌊x⌋ + 1 := by
  unfold toEven
  split <;> omega

theorem toEven_mono {x y : K} (h : x ≤ y) : toEven x ≤ toEven y := by
  rcases (Int.floor_mono h).lt_or_eq with hlt | heq
  · have hx := toEven_le_floor_add_one x
    have hy := floor_le_toEven y
    omega
  · by_cases hy : 2 * Int.fract y < 1 ∨ 2 * Int.fract y = 1 ∧ ⌊y⌋ % 2 = 0
    · have hfract : Int.fract x ≤ Int.fract y := by
        rw [Int.fract, Int.fract, heq]
        linarith
      have hx : 2 * Int.fract x < 1 ∨ 2 * Int.fract x = 1 ∧ ⌊x⌋ % 2 = 0 := by
        rcases hy with hlt | ⟨hhalf, heven⟩
        · exact .inl (by linarith)
        · rcases (show 2 * Int.fract x ≤ 1 by linarith).lt_or_eq with hlt | hhalf'
          · exact .inl hlt
          · exact .inr ⟨hhalf', heq ▸ heven⟩
      rw [toEven, toEven, if_pos hx, if_pos hy, heq]
    · have hx := toEven_le_floor_add_one x
      have heq' : toEven y = ⌊y⌋ + 1 := if_neg hy
      rwa [heq', ← heq]

/-- The exponent of the grid on which `x` lies. -/
def exponent (l : Int) (x : K) : Int := max (Int.log 2 x) l

/-- The code of the number nearest to `x`. -/
def code (p : Nat) (l : Int) (x : K) : Int :=
  if x = 0 then 0
  else (exponent l x - l) * 2 ^ p + toEven (x * 2 ^ (p - exponent l x))

/-- The number that has a code. A code that ends its grid begins the next one. -/
def ofCode (K : Type) [Field K] (p : Nat) (l : Int) (c : Nat) : K :=
  ((c - (c / 2 ^ p - 1) * 2 ^ p : Nat) : K) * 2 ^ (l + (c / 2 ^ p - 1 : Nat) - p)

section Codes

variable {p : Nat} {l : Int} {x y : K}

theorem lt_exponent (l : Int) (x : K) : x < 2 ^ (exponent l x + 1) := by
  refine (Int.lt_zpow_succ_log_self (b := 2) (by decide) x).trans_le ?_
  exact zpow_le_zpow_right₀ one_le_two (by have := le_max_left (Int.log 2 x) l; rw [exponent]; omega)

theorem exponent_le (hx : 0 < x) (hlow : l < exponent l x) : (2 : K) ^ exponent l x ≤ x := by
  have heq : exponent l x = Int.log 2 x := by
    rw [exponent] at hlow ⊢
    omega
  rw [heq]
  exact Int.zpow_log_le_self (b := 2) (by decide) hx

theorem exponent_mono (hx : 0 < x) (h : x ≤ y) : exponent l x ≤ exponent l y :=
  max_le_max_right l (Int.log_mono_right hx h)

/-- The digits are a whole number of at most `p + 1` bits, or the next power. -/
theorem toEven_digits_le (p : Nat) (l : Int) (x : K) :
    toEven (x * 2 ^ (p - exponent l x)) ≤ 2 ^ (p + 1) := by
  have hpow : (0 : K) < 2 ^ (p - exponent l x) := zpow_pos two_pos _
  have hle : x * 2 ^ (p - exponent l x) ≤ ((2 ^ (p + 1) : Int) : K) := by
    calc x * 2 ^ (p - exponent l x) ≤ 2 ^ (exponent l x + 1) * 2 ^ (p - exponent l x) :=
          mul_le_mul_of_nonneg_right (lt_exponent l x).le hpow.le
      _ = ((2 ^ (p + 1) : Int) : K) := by
          rw [← zpow_add₀ two_ne_zero, Int.cast_pow, Int.cast_ofNat, ← zpow_natCast]
          congr 1
          push_cast
          ring
  exact (toEven_mono hle).trans (toEven_intCast _).le

/-- Above the lowest grid the leading bit is set. -/
theorem le_toEven_digits (hx : 0 < x) (hlow : l < exponent l x) :
    2 ^ p ≤ toEven (x * 2 ^ (p - exponent l x)) := by
  have hpow : (0 : K) < 2 ^ (p - exponent l x) := zpow_pos two_pos _
  have hle : ((2 ^ p : Int) : K) ≤ x * 2 ^ (p - exponent l x) := by
    calc ((2 ^ p : Int) : K) = 2 ^ exponent l x * 2 ^ (p - exponent l x) := by
          rw [← zpow_add₀ two_ne_zero, Int.cast_pow, Int.cast_ofNat, ← zpow_natCast]
          congr 1
          ring
      _ ≤ x * 2 ^ (p - exponent l x) := mul_le_mul_of_nonneg_right (exponent_le hx hlow) hpow.le
  exact (toEven_intCast _).ge.trans (toEven_mono hle)

theorem toEven_digits_nonneg (hx : 0 ≤ x) : 0 ≤ toEven (x * 2 ^ (p - exponent l x)) := by
  have hnonneg : ((0 : Int) : K) ≤ x * 2 ^ (p - exponent l x) := by
    rw [Int.cast_zero]
    positivity
  exact (toEven_intCast 0).ge.trans (toEven_mono hnonneg)

theorem code_nonneg (hx : 0 ≤ x) : 0 ≤ code p l x := by
  have hgrid : l ≤ exponent l x := le_max_right _ _
  unfold code
  split
  · exact le_rfl
  · exact add_nonneg (mul_nonneg (by omega) (by positivity)) (toEven_digits_nonneg hx)

/-- Rounding keeps the order. -/
theorem code_mono (hx : 0 ≤ x) (h : x ≤ y) : code p l x ≤ code p l y := by
  rcases hx.eq_or_lt with rfl | hx
  · rw [code, if_pos rfl]
    exact code_nonneg h
  have hy : 0 < y := hx.trans_le h
  rw [code, code, if_neg hx.ne', if_neg hy.ne']
  have hp : (0 : Int) < 2 ^ p := by positivity
  rcases (exponent_mono (l := l) hx h).lt_or_eq with hlt | heq
  · have hlow : l ≤ exponent l x := le_max_right _ _
    have hdigits := toEven_digits_le p l x
    have hdigits' := le_toEven_digits (p := p) hy (hlow.trans_lt hlt)
    rw [pow_succ] at hdigits
    nlinarith [Int.add_one_le_iff.mpr hlt]
  · rw [heq]
    refine add_le_add_right (toEven_mono ?_) _
    exact mul_le_mul_of_nonneg_right h (by positivity)

omit [IsStrictOrderedRing K] in
/-- Digits and grid give the number back, also when the digits have carried over. -/
theorem ofCode_grid {t q : Nat} (hgrid : t = 0 ∨ 2 ^ p ≤ q) (hq : q ≤ 2 ^ (p + 1)) :
    ofCode K p l (t * 2 ^ p + q) = q * 2 ^ (l + t - p) := by
  have hp : 0 < 2 ^ p := by positivity
  rw [pow_succ, mul_comm] at hq
  rcases hq.lt_or_eq with hlt | rfl
  · have hdiv : (t * 2 ^ p + q) / 2 ^ p - 1 = t := by
      rw [add_comm, Nat.add_mul_div_right _ _ hp]
      rcases hgrid with rfl | hle
      · have := Nat.div_lt_of_lt_mul (show q < 2 ^ p * 2 by omega)
        omega
      · have hone : q / 2 ^ p = 1 := Nat.div_eq_of_lt_le (by omega) (by omega)
        omega
    rw [ofCode, hdiv, Nat.add_sub_cancel_left]
  · have hdiv : (t * 2 ^ p + 2 * 2 ^ p) / 2 ^ p - 1 = t + 1 := by
      rw [← add_mul, Nat.mul_div_cancel _ hp]
      omega
    have hsub : t * 2 ^ p + 2 * 2 ^ p - (t + 1) * 2 ^ p = 2 ^ p := by
      rw [← add_mul, ← Nat.sub_mul]
      simp [show t + 2 - (t + 1) = 1 by omega]
    rw [ofCode, hdiv, hsub]
    push_cast
    rw [show l + ((t : Int) + 1) - p = 1 + (l + t - p) by ring, zpow_add₀ two_ne_zero, zpow_one]
    ring

/-- Every code is one of a grid. -/
theorem exists_grid (p c : Nat) : ∃ t q, c = t * 2 ^ p + q ∧ (t = 0 ∨ 2 ^ p ≤ q) ∧ q < 2 ^ (p + 1) := by
  have hp : 0 < 2 ^ p := by positivity
  have hmod := Nat.mod_lt c hp
  have hdiv := Nat.div_add_mod c (2 ^ p)
  rcases Nat.eq_zero_or_pos (c / 2 ^ p) with hzero | hpos
  · refine ⟨0, c, by omega, .inl rfl, ?_⟩
    rw [hzero] at hdiv
    rw [pow_succ]
    omega
  · refine ⟨c / 2 ^ p - 1, c % 2 ^ p + 2 ^ p, ?_, .inr (by omega), by rw [pow_succ]; omega⟩
    obtain ⟨t, ht⟩ := Nat.exists_eq_add_of_le' hpos
    rw [ht] at hdiv ⊢
    rw [Nat.add_sub_cancel]
    linarith

theorem ofCode_nonneg (c : Nat) : 0 ≤ ofCode K p l c := by
  unfold ofCode
  positivity

/-- A number that has a code is rounded to itself. -/
theorem code_ofCode (c : Nat) : code p l (ofCode K p l c) = c := by
  obtain ⟨t, q, rfl, hgrid, hq⟩ := exists_grid p c
  rw [ofCode_grid hgrid hq.le]
  rcases Nat.eq_zero_or_pos q with rfl | hpos
  · rcases hgrid with rfl | hle
    · simp [code]
    · have : 0 < 2 ^ p := by positivity
      omega
  have hqK : (0 : K) < q := by exact_mod_cast hpos
  have hx : (0 : K) < q * 2 ^ (l + t - p) := by positivity
  have hlt : (q : K) * 2 ^ (l + t - p) < 2 ^ (l + t + 1) := by
    calc (q : K) * 2 ^ (l + t - p) < 2 ^ (p + 1) * 2 ^ (l + t - p) :=
          mul_lt_mul_of_pos_right (by exact_mod_cast hq) (by positivity)
      _ = 2 ^ (l + t + 1) := by
          rw [← zpow_natCast, ← zpow_add₀ two_ne_zero]
          congr 1
          push_cast
          ring
  have hlog : Int.log 2 ((q : K) * 2 ^ (l + t - p)) ≤ l + t := by
    have := (Int.lt_zpow_iff_log_lt (b := 2) (by decide) hx).mp (by exact_mod_cast hlt)
    omega
  have hexponent : exponent l ((q : K) * 2 ^ (l + t - p)) = l + t := by
    rcases hgrid with rfl | hle
    · rw [exponent]
      omega
    · have hge : (2 : K) ^ (l + t) ≤ q * 2 ^ (l + t - p) := by
        calc (2 : K) ^ (l + t) = 2 ^ p * 2 ^ (l + t - p) := by
              rw [← zpow_natCast, ← zpow_add₀ two_ne_zero]
              congr 1
              ring
          _ ≤ q * 2 ^ (l + t - p) := mul_le_mul_of_nonneg_right (by exact_mod_cast hle) (by positivity)
      have := (Int.zpow_le_iff_le_log (b := 2) (by decide) hx).mp (by exact_mod_cast hge)
      rw [exponent]
      omega
  have hdigits : (q : K) * 2 ^ (l + t - p) * 2 ^ (p - (l + t)) = q := by
    rw [mul_assoc, ← zpow_add₀ two_ne_zero]
    simp
  rw [code, if_neg hx.ne', hexponent, hdigits, toEven_natCast]
  push_cast
  ring

/-- Whole numbers of at most `p + 1` bits have codes. -/
theorem exists_ofCode (hlow : l ≤ 0) {n : Nat} (hn : n ≤ 2 ^ (p + 1)) : ∃ c, ofCode K p l c = n := by
  rcases Nat.eq_zero_or_pos n with rfl | hpos
  · exact ⟨0, by simp [ofCode]⟩
  have hle := Nat.log2_self_le hpos.ne'
  have hlt := Nat.lt_log2_self (n := n)
  -- the leading bit comes to place `p`, or is there already
  obtain ⟨k, j, hk, hgrid, hq⟩ : ∃ k j : Nat, k + j = p ∧ 2 ^ p ≤ n * 2 ^ j ∧ n * 2 ^ j ≤ 2 ^ (p + 1) := by
    rcases le_total n.log2 p with h | h
    · refine ⟨n.log2, p - n.log2, by omega, ?_, ?_⟩
      · calc 2 ^ p = 2 ^ n.log2 * 2 ^ (p - n.log2) := by rw [← pow_add, Nat.add_sub_cancel' h]
          _ ≤ n * 2 ^ (p - n.log2) := Nat.mul_le_mul_right _ hle
      · calc n * 2 ^ (p - n.log2) ≤ 2 ^ (n.log2 + 1) * 2 ^ (p - n.log2) := Nat.mul_le_mul_right _ hlt.le
          _ = 2 ^ (p + 1) := by rw [← pow_add]; congr 1; omega
    · exact ⟨p, 0, rfl, by simpa using (Nat.pow_le_pow_right (by decide) h).trans hle, by simpa using hn⟩
  obtain ⟨t, ht⟩ := Int.eq_ofNat_of_zero_le (show 0 ≤ (k : Int) - l by omega)
  refine ⟨t * 2 ^ p + n * 2 ^ j, ?_⟩
  rw [ofCode_grid (.inr hgrid) hq]
  push_cast
  rw [mul_assoc, ← zpow_natCast, ← zpow_add₀ two_ne_zero, show (j : Int) + (l + t - p) = 0 by omega, zpow_zero, mul_one]

end Codes

end Rounding
