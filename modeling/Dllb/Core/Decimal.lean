import Mathlib
import Dllb.Core.Value

/-! # Decimal numbers as floats

What a decimal number is read as: the float nearest to it, with ties to even.
-/

namespace Dllb

set_option autoImplicit false

namespace F64

/-- `n / d`, rounded to nearest with ties to even. -/
def roundDiv (n d : Nat) : Nat :=
  let q := n / d
  let r := n % d
  if 2 * r < d ∨ 2 * r = d ∧ q % 2 = 0 then q else q + 1

/-- The exponent of the leading bit of `n / d`. -/
def leadingBit (n d : Nat) : Int :=
  let k : Int := n.log2 - d.log2
  if n * 2 ^ (-k).toNat < d * 2 ^ k.toNat then k - 1 else k

/-- Exponent and fraction of the float nearest to `n / d`, or those of infinity. -/
def magnitudeOfRatio (n d : Nat) : Nat :=
  if n = 0 then 0 else
    -- below the normal numbers the exponent stays at its least
    let e := max (leadingBit n d) (-1022)
    let shift := 52 - e
    let q := roundDiv (n * 2 ^ shift.toNat) (d * 2 ^ (-shift).toNat)
    -- a carry out of the fraction moves into the exponent
    min ((e + 1022).toNat * 2 ^ 52 + q) 0x7FF0000000000000

/-- `digits * 10 ^ exponent`. -/
def ofDecimal (negative : Bool) (digits : Nat) (exponent : Int) : F64 :=
  let sign : Nat := if negative then 2 ^ 63 else 0
  ⟨UInt64.ofNat (sign + magnitudeOfRatio (digits * 10 ^ exponent.toNat) (10 ^ (-exponent).toNat))⟩

end F64

end Dllb
