import Mathlib
import Dllb.Lib.Bytes

/-! # Values, record identifiers and errors

Floats are kept as their bit patterns: equality in Lean is equality of bits,
and the comparisons of the source are functions on the patterns.
-/

namespace Dllb

set_option autoImplicit false

/-- A binary64 number by its bits. -/
structure F64 where
  bits : UInt64
  deriving DecidableEq, Repr

/-- A binary32 number by its bits. -/
structure F32 where
  bits : UInt32
  deriving DecidableEq, Repr

namespace F64

def isSignNegative (f : F64) : Bool := 2 ^ 63 ≤ f.bits.toNat

/-- Exponent and fraction, without the sign bit. -/
def magnitude (f : F64) : Nat := f.bits.toNat % 2 ^ 63

def isNan (f : F64) : Bool := 0x7FF0000000000000 < f.magnitude

/-- The two zeros are the only distinct patterns with one value among numbers. -/
def signedMagnitude (f : F64) : Int :=
  if f.isSignNegative then -(f.magnitude : Int) else f.magnitude

def partialCmp (a b : F64) : Option Ordering :=
  if a.isNan || b.isNan then none else some (compare a.signedMagnitude b.signedMagnitude)

def eq (a b : F64) : Bool := a.partialCmp b == some .eq

theorem eq_iff (f g : F64) :
    f.eq g = true ↔ f.isNan = false ∧ g.isNan = false ∧ f.signedMagnitude = g.signedMagnitude := by
  unfold eq partialCmp
  cases f.isNan <;> cases g.isNan <;> simp [compare_eq_iff_eq]

/-- Conversion of an integer, rounding to nearest with ties to even. -/
def ofInt64 (n : Int64) : F64 :=
  let m := n.toInt.natAbs
  let sign : Nat := if n.toInt < 0 then 2 ^ 63 else 0
  if m = 0 then ⟨0⟩ else
    let e := m.log2
    let q :=
      if e ≤ 52 then m * 2 ^ (52 - e)
      else
        let half := 2 ^ (e - 53)
        let low := m % 2 ^ (e - 52)
        let high := m / 2 ^ (e - 52)
        if low < half ∨ low = half ∧ high % 2 = 0 then high else high + 1
    -- A carry out of the fraction moves into the exponent.
    ⟨UInt64.ofNat (sign + (e + 1023) * 2 ^ 52 + (q - 2 ^ 52))⟩

end F64

namespace F32

def isSignNegative (f : F32) : Bool := 2 ^ 31 ≤ f.bits.toNat

def magnitude (f : F32) : Nat := f.bits.toNat % 2 ^ 31

def isNan (f : F32) : Bool := 0x7F800000 < f.magnitude

def signedMagnitude (f : F32) : Int :=
  if f.isSignNegative then -(f.magnitude : Int) else f.magnitude

def eq (a b : F32) : Bool :=
  !a.isNan && !b.isNan && decide (a.signedMagnitude = b.signedMagnitude)

/-- `n / 2 ^ k`, rounded to nearest with ties to even. -/
def roundShift (n k : Nat) : Nat :=
  let q := n / 2 ^ k
  let low := n % 2 ^ k
  if 2 * low < 2 ^ k ∨ 2 * low = 2 ^ k ∧ q % 2 = 0 then q else q + 1

/-- `as f32` of an `f64`, rounding to nearest; what is too large becomes infinite. -/
def ofF64 (f : F64) : F32 :=
  let sign : Nat := if f.isSignNegative then 2 ^ 31 else 0
  let e := f.magnitude / 2 ^ 52
  let frac := f.magnitude % 2 ^ 52
  let significand := if e = 0 then frac else 2 ^ 52 + frac
  let bits :=
    if f.isNan then 0x7FC00000 + frac / 2 ^ 29 % 2 ^ 22
    -- A carry out of the fraction moves into the exponent.
    else if 897 ≤ e then min ((e - 897) * 2 ^ 23 + roundShift significand 29) 0x7F800000
    else roundShift significand (29 + (897 - max e 1))
  ⟨UInt32.ofNat (sign + bits)⟩

/-- `as f32` of an `i64`, rounding to nearest. -/
def ofInt64 (n : Int64) : F32 :=
  let m := n.toInt.natAbs
  let sign : Nat := if n.toInt < 0 then 2 ^ 31 else 0
  if m = 0 then ⟨0⟩ else
    let e := m.log2
    let q := if e ≤ 23 then m * 2 ^ (23 - e) else roundShift m (e - 23)
    ⟨UInt32.ofNat (sign + (e + 126) * 2 ^ 23 + q)⟩

end F32

structure RecordId where
  table : String
  id : String
  deriving DecidableEq, Repr

/-- A dynamically typed value. An object is the list of its fields in key order. -/
inductive Value where
  | none
  | bool (b : Bool)
  | int (n : Int64)
  | float (f : F64)
  | string (s : String)
  | bytes (b : Bytes)
  | array (xs : List Value)
  | object (fields : List (String × Value))
  | recordId (r : RecordId)
  | vector (v : List F32)

namespace Value

def isNone : Value → Bool
  | none => true
  | _ => false

mutual

/-- The derived `==` of the source: IEEE equality at floats, so that a NaN differs from itself
and the two zeros are equal. -/
def eq : Value → Value → Bool
  | none, none => true
  | bool a, bool b => a == b
  | int a, int b => a == b
  | float a, float b => a.eq b
  | string a, string b => a == b
  | bytes a, bytes b => a == b
  | array a, array b => eqList a b
  | object a, object b => eqFields a b
  | recordId a, recordId b => a == b
  | vector a, vector b => a.length == b.length && (a.zip b).all fun (x, y) => x.eq y
  | _, _ => false

def eqList : List Value → List Value → Bool
  | [], [] => true
  | a :: as, b :: bs => eq a b && eqList as bs
  | _, _ => false

def eqFields : List (String × Value) → List (String × Value) → Bool
  | [], [] => true
  | (k, a) :: as, (l, b) :: bs => k == l && eq a b && eqFields as bs
  | _, _ => false

end

end Value

/-- A piece of an error text: literal text, or a value in debug form. -/
inductive Piece where
  | text (s : String)
  | debug (v : Value)

abbrev Message := List Piece

inductive Error where
  | storage (m : Message)
  | serialization (m : Message)
  | notFound (m : Message)
  | schema (m : Message)
  | conflict (m : Message)
  | query (m : Message)
  | index (m : Message)
  | dimensionMismatch (expected actual : Nat)
  | other (m : Message)

abbrev Result (α : Type) := Except Error α

end Dllb
