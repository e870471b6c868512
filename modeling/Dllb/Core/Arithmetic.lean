import Mathlib
import Dllb.Core.Decimal

/-! # Arithmetic of floats

Sums, products and quotients are exact, and then rounded to the nearest float.
Every NaN that an operation gives is the same one. What is computed with floats
is written for any numbers with these operations, so that it can be run on exact
ones as well, for which a quotient by zero is missing.
-/

namespace Dllb

set_option autoImplicit false

namespace F64

instance : OfNat F64 0 := ⟨⟨0⟩⟩

instance : OfNat F64 1 := ⟨⟨0x3FF0000000000000⟩⟩

instance : OfNat F64 2 := ⟨⟨0x4000000000000000⟩⟩

def nan : F64 := ⟨0x7FF8000000000000⟩

def infinity : Nat := 0x7FF0000000000000

def ofMagnitude (negative : Bool) (magnitude : Nat) : F64 :=
  ⟨UInt64.ofNat ((if negative then 2 ^ 63 else 0) + magnitude)⟩

def isInfinite (f : F64) : Bool := f.magnitude == infinity

/-- A finite float without its sign, in units of `2 ^ -1074`. -/
def units (f : F64) : Nat :=
  let e := f.magnitude / 2 ^ 52
  let frac := f.magnitude % 2 ^ 52
  if e = 0 then frac else (2 ^ 52 + frac) * 2 ^ (e - 1)

def signedUnits (f : F64) : Int := if f.isSignNegative then -(f.units : Int) else f.units

def neg (f : F64) : F64 := ⟨f.bits ^^^ 0x8000000000000000⟩

def add (a b : F64) : F64 :=
  if a.isNan || b.isNan then nan
  else if a.isInfinite && b.isInfinite then
    if a.isSignNegative = b.isSignNegative then a else nan
  else if a.isInfinite then a
  else if b.isInfinite then b
  else
    let sum := a.signedUnits + b.signedUnits
    -- only two negative zeros make a negative zero
    if sum = 0 then ofMagnitude (a.isSignNegative && b.isSignNegative) 0
    else ofMagnitude (sum < 0) (magnitudeOfRatio sum.natAbs (2 ^ 1074))

def sub (a b : F64) : F64 := a.add b.neg

def mul (a b : F64) : F64 :=
  let negative := a.isSignNegative != b.isSignNegative
  if a.isNan || b.isNan then nan
  else if a.isInfinite || b.isInfinite then
    if a.units == 0 || b.units == 0 then nan else ofMagnitude negative infinity
  else ofMagnitude negative (magnitudeOfRatio (a.units * b.units) (2 ^ 1074 * 2 ^ 1074))

def div (a b : F64) : F64 :=
  let negative := a.isSignNegative != b.isSignNegative
  if a.isNan || b.isNan then nan
  else if a.isInfinite then if b.isInfinite then nan else ofMagnitude negative infinity
  else if b.isInfinite then ofMagnitude negative 0
  else if b.units = 0 then if a.units = 0 then nan else ofMagnitude negative infinity
  else ofMagnitude negative (magnitudeOfRatio a.units b.units)

def abs (f : F64) : F64 := ofMagnitude false f.magnitude

/-- `as f64` of a length -/
def ofNat (n : Nat) : F64 := ofMagnitude false (magnitudeOfRatio n 1)

theorem magnitude_of_isInfinite {f : F64} (h : f.isInfinite = true) : f.magnitude = infinity := by
  simpa [isInfinite] using h

/-- A float is its sign and its magnitude. -/
theorem ext_sign_magnitude {a b : F64} (hsign : a.isSignNegative = b.isSignNegative)
    (hmagnitude : a.magnitude = b.magnitude) : a = b := by
  cases a with | mk a =>
  cases b with | mk b =>
  simp only [isSignNegative, magnitude, decide_eq_decide] at hsign hmagnitude
  have ha := a.toNat_lt
  have hb := b.toNat_lt
  congr 1
  refine UInt64.toNat_inj.mp ?_
  omega

theorem add_comm (a b : F64) : a.add b = b.add a := by
  unfold add
  rw [Bool.or_comm, Bool.and_comm a.isInfinite, Int.add_comm, Bool.and_comm a.isSignNegative]
  by_cases hnan : (b.isNan || a.isNan) = true
  · simp only [hnan, if_true]
  · simp only [hnan]
    cases ha : a.isInfinite with
    | false => cases b.isInfinite <;> rfl
    | true =>
      cases hb : b.isInfinite with
      | false => rfl
      | true =>
        simp only [Bool.and_self, if_true]
        by_cases hsign : a.isSignNegative = b.isSignNegative
        · rw [if_pos hsign, if_pos hsign.symm]
          exact ext_sign_magnitude hsign
            ((magnitude_of_isInfinite ha).trans (magnitude_of_isInfinite hb).symm)
        · rw [if_neg hsign, if_neg (Ne.symm hsign)]

theorem mul_comm (a b : F64) : a.mul b = b.mul a := by
  unfold mul
  rw [Bool.or_comm, Bool.or_comm a.isInfinite, Bool.or_comm (a.units == 0), Nat.mul_comm, bne_comm]

/-- `0.1 + 0.2` -/
example : add ⟨0x3FB999999999999A⟩ ⟨0x3FC999999999999A⟩ = ⟨0x3FD3333333333334⟩ := by decide +kernel

/-- `1.0 / 3.0` -/
example : div 1 ⟨0x4008000000000000⟩ = ⟨0x3FD5555555555555⟩ := by decide +kernel

instance : Add F64 := ⟨add⟩

instance : Sub F64 := ⟨sub⟩

instance : Mul F64 := ⟨mul⟩

end F64

/-! ## Numbers -/

/-- What the graph algorithms do with numbers besides adding and multiplying them. -/
class Arith (R : Type) where
  div : R → R → Option R
  partialCmp : R → R → Option Ordering
  abs : R → R
  ofNat : Nat → R

namespace Arith

instance : Arith F64 where
  div a b := some (a.div b)
  partialCmp := F64.partialCmp
  abs := F64.abs
  ofNat := F64.ofNat

instance : Arith ℚ where
  div a b := if b = 0 then none else some (a / b)
  partialCmp a b := some (compare a b)
  abs a := |a|
  ofNat n := n

/-- `x == 0.0` -/
def isZero {R : Type} [OfNat R 0] [Arith R] (x : R) : Bool := partialCmp x 0 == some .eq

/-- `a > b` -/
def gt {R : Type} [Arith R] (a b : R) : Bool := partialCmp a b == some .gt

/-- `a < b` -/
def lt {R : Type} [Arith R] (a b : R) : Bool := partialCmp a b == some .lt

theorem partialCmp_rat (a b : ℚ) : partialCmp a b = some (compare a b) := rfl

@[simp] theorem isZero_rat (x : ℚ) : isZero x = decide (x = 0) := by
  rw [Bool.eq_iff_iff]
  simp [isZero, partialCmp]

@[simp] theorem gt_rat (a b : ℚ) : gt a b = decide (b < a) := by
  rw [Bool.eq_iff_iff]
  simp [gt, partialCmp, compare_gt_iff_gt]

theorem div_rat {b : ℚ} (h : b ≠ 0) (a : ℚ) : div a b = some (a / b) := if_neg h

end Arith

end Dllb
