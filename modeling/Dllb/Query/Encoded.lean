import Mathlib
import Dllb.Query.Plan

/-! # Typed comparison against the order of encodings

`matchesWhere` compares typed values, an index compares their raw encodings.
The two agree but for zeros, NaNs, booleans and values of different types, and
here it is said exactly where.
-/

namespace Dllb

set_option autoImplicit false

/-! ## Byte order against typed comparison -/

namespace F64

def NegZero (f : F64) : Prop := f.isSignNegative = true ∧ f.magnitude = 0

def PosZero (f : F64) : Prop := f.isSignNegative = false ∧ f.magnitude = 0

theorem rank_lt_of_signedMagnitude_lt {f g : F64} (h : f.signedMagnitude < g.signedMagnitude) :
    f.rank < g.rank := by
  unfold signedMagnitude at h
  unfold rank
  split at h <;> split at h <;> simp_all <;> omega

/-- Numbers of one value are one pattern unless they are the two zeros. -/
theorem rank_of_signedMagnitude_eq {f g : F64} (h : f.signedMagnitude = g.signedMagnitude) :
    (f.isSignNegative = g.isSignNegative ∧ f.rank = g.rank) ∨
      (f.NegZero ∧ g.PosZero ∧ f.rank < g.rank) ∨ (f.PosZero ∧ g.NegZero ∧ g.rank < f.rank) := by
  unfold signedMagnitude at h
  unfold rank NegZero PosZero
  cases hf : f.isSignNegative <;> cases hg : g.isSignNegative <;> simp_all <;> omega

end F64

/-- The comparison that a lower bound asks for. -/
def lowerOp (inclusive : Bool) : CmpOp := if inclusive then .gte else .gt

def upperOp (inclusive : Bool) : CmpOp := if inclusive then .lte else .lt

/-- `q ≤ r`, or `q < r` for an exclusive bound. -/
def OnSide (inclusive : Bool) (q r : Int) : Prop := if inclusive then q ≤ r else q < r

theorem onSide_of_lt {inclusive : Bool} {q r : Int} (h : q < r) : OnSide inclusive q r := by
  unfold OnSide
  split
  · exact h.le
  · exact h

theorem cmpHolds_lowerOp_iff (inclusive : Bool) (x v : Value) :
    cmpHolds (lowerOp inclusive) x v = true ↔
      cmpValues x v = some .gt ∨ inclusive = true ∧ cmpValues x v = some .eq := by
  cases inclusive <;> simp [lowerOp, cmpHolds]

theorem cmpHolds_upperOp_iff (inclusive : Bool) (x v : Value) :
    cmpHolds (upperOp inclusive) x v = true ↔
      cmpValues x v = some .lt ∨ inclusive = true ∧ cmpValues x v = some .eq := by
  cases inclusive <;> simp [upperOp, cmpHolds]

theorem compare_lower_iff (inclusive : Bool) (r q : Int) :
    (some (compare r q) = some .gt ∨ inclusive = true ∧ some (compare r q) = some .eq) ↔
      OnSide inclusive q r := by
  simp only [Option.some.injEq, compare_gt_iff_gt, compare_eq_iff_eq, OnSide]
  cases inclusive <;> simp <;> omega

theorem compare_upper_iff (inclusive : Bool) (r q : Int) :
    (some (compare r q) = some .lt ∨ inclusive = true ∧ some (compare r q) = some .eq) ↔
      OnSide inclusive r q := by
  simp only [Option.some.injEq, compare_lt_iff_lt, compare_eq_iff_eq, OnSide]
  cases inclusive <;> simp <;> omega

theorem aboveLower_iff_rank {x v : Value} {r q : Int} (hx : Index.numericRank x = some r)
    (hv : Index.numericRank v = some q) (inclusive : Bool) :
    Index.AboveLower (Index.rawOf x) (some (v, inclusive)) ↔ OnSide inclusive q r := by
  cases inclusive with
  | true =>
    have h := not_congr (Index.rawOf_lt_iff_rank hx hv)
    simpa [Index.AboveLower, OnSide] using h
  | false => simpa [Index.AboveLower, OnSide] using Index.rawOf_lt_iff_rank hv hx

theorem belowUpper_iff_rank {x v : Value} {r q : Int} (hx : Index.numericRank x = some r)
    (hv : Index.numericRank v = some q) (inclusive : Bool) :
    Index.BelowUpper (Index.rawOf x) (some (v, inclusive)) ↔ OnSide inclusive r q := by
  cases inclusive with
  | true =>
    have h := not_congr (Index.rawOf_lt_iff_rank hv hx)
    simpa [Index.BelowUpper, OnSide] using h
  | false => simpa [Index.BelowUpper, OnSide] using Index.rawOf_lt_iff_rank hx hv

theorem partialCmp_lower_iff (inclusive : Bool) (f g : F64) :
    (f.partialCmp g = some .gt ∨ inclusive = true ∧ f.partialCmp g = some .eq) ↔
      f.isNan = false ∧ g.isNan = false ∧ OnSide inclusive g.signedMagnitude f.signedMagnitude := by
  unfold F64.partialCmp
  cases f.isNan <;> cases g.isNan <;> simp [← compare_lower_iff]

theorem partialCmp_upper_iff (inclusive : Bool) (f g : F64) :
    (f.partialCmp g = some .lt ∨ inclusive = true ∧ f.partialCmp g = some .eq) ↔
      f.isNan = false ∧ g.isNan = false ∧ OnSide inclusive f.signedMagnitude g.signedMagnitude := by
  unfold F64.partialCmp
  cases f.isNan <;> cases g.isNan <;> simp [← compare_upper_iff]

/-- Strings compare as the bytes that encode them. -/
theorem cmpString_lower_iff (inclusive : Bool) (s t : String) :
    (some (cmpString s t) = some .gt ∨ inclusive = true ∧ some (cmpString s t) = some .eq) ↔
      Index.AboveLower (Index.rawOf (.string s)) (some (.string t, inclusive)) := by
  have hgt : cmpString s t = .gt ↔ asBytes t < asBytes s := by
    rw [cmpString, Std.OrientedCmp.gt_iff_lt, cmpBytes_eq_lt_iff]
  have heq : cmpString s t = .eq ↔ asBytes s = asBytes t := by
    rw [cmpString, Std.LawfulEqCmp.compare_eq_iff_eq]
  simp only [Option.some.injEq, hgt, heq]
  cases inclusive with
  | true => simp [Index.AboveLower, show Index.rawOf (.string s) = asBytes s from rfl,
      show Index.rawOf (.string t) = asBytes t from rfl, le_iff_lt_or_eq, eq_comm]
  | false => simp [Index.AboveLower, show Index.rawOf (.string s) = asBytes s from rfl,
      show Index.rawOf (.string t) = asBytes t from rfl]

theorem cmpString_upper_iff (inclusive : Bool) (s t : String) :
    (some (cmpString s t) = some .lt ∨ inclusive = true ∧ some (cmpString s t) = some .eq) ↔
      Index.BelowUpper (Index.rawOf (.string s)) (some (.string t, inclusive)) := by
  have hlt : cmpString s t = .lt ↔ asBytes s < asBytes t := by
    rw [cmpString, cmpBytes_eq_lt_iff]
  have heq : cmpString s t = .eq ↔ asBytes s = asBytes t := by
    rw [cmpString, Std.LawfulEqCmp.compare_eq_iff_eq]
  simp only [Option.some.injEq, hlt, heq]
  cases inclusive with
  | true => simp [Index.BelowUpper, show Index.rawOf (.string s) = asBytes s from rfl,
      show Index.rawOf (.string t) = asBytes t from rfl, le_iff_lt_or_eq]
  | false => simp [Index.BelowUpper, show Index.rawOf (.string s) = asBytes s from rfl,
      show Index.rawOf (.string t) = asBytes t from rfl]

/-! ## Where the index misses a matching value -/

/-- A value equal to the literal has its encoding, but for zeros of opposite signs. -/
def EqAgrees : Value → Value → Prop
  | .float f, .float g => f.isSignNegative = g.isSignNegative
  | _, _ => True

/-- A value above the bound is encoded above it, but for `-0` against `0`; an Int and a Float are
encoded by rank, whatever they are worth. -/
def LowerAgrees (inclusive : Bool) : Value → Value → Prop
  | .float f, .float g => ¬ (f.NegZero ∧ g.PosZero)
  | .int n, .float g => OnSide inclusive g.rank n.toInt
  | .float f, .int n => OnSide inclusive n.toInt f.rank
  | _, _ => True

def UpperAgrees (inclusive : Bool) : Value → Value → Prop
  | .float f, .float g => ¬ (f.PosZero ∧ g.NegZero)
  | .int n, .float g => OnSide inclusive n.toInt g.rank
  | .float f, .int n => OnSide inclusive f.rank n.toInt
  | _, _ => True

theorem F64.not_negZero_posZero_of_lt {f g : F64} (h : g.signedMagnitude < f.signedMagnitude) :
    ¬ (f.NegZero ∧ g.PosZero) ∧ ¬ (f.PosZero ∧ g.NegZero) := by
  unfold F64.signedMagnitude at h
  constructor
  · rintro ⟨⟨hf, hf'⟩, hg, hg'⟩
    simp [hf, hf', hg, hg'] at h
  · rintro ⟨⟨hf, hf'⟩, hg, hg'⟩
    simp [hf, hf', hg, hg'] at h

theorem F64.not_posZero_of_negZero {f : F64} (h : f.NegZero) : ¬ f.PosZero := by
  rintro ⟨hf, _⟩
  rw [h.1] at hf
  cases hf

theorem rawOf_eq_iff_eqAgrees {x v : Value} (h : cmpHolds .eq x v = true) (hv : Index.Indexable v) :
    Index.rawOf x = Index.rawOf v ↔ EqAgrees x v := by
  rw [cmpHolds] at h
  cases v with
  | float g =>
    cases x with
    | float f =>
      rw [Value.eq, F64.eq_iff] at h
      rw [Index.rawOf_eq_iff_rank rfl rfl, EqAgrees]
      rcases F64.rank_of_signedMagnitude_eq h.2.2 with ⟨hs, hr⟩ | ⟨hf, hg, hlt⟩ | ⟨hf, hg, hlt⟩
      · simp [hs, hr]
      · simp [hlt.ne, hf.1, hg.1]
      · simp [hlt.ne', hf.1, hg.1]
    | _ => simp [Value.eq] at h
  | string t =>
    cases x with
    | string s =>
      obtain rfl : s = t := by simpa [Value.eq] using h
      exact iff_of_true rfl trivial
    | _ => simp [Value.eq] at h
  | int m =>
    cases x with
    | int n =>
      obtain rfl : n = m := by simpa [Value.eq] using h
      exact iff_of_true rfl trivial
    | _ => simp [Value.eq] at h
  | bool b =>
    cases x with
    | bool a =>
      obtain rfl : a = b := by simpa [Value.eq] using h
      exact iff_of_true rfl trivial
    | _ => simp [Value.eq] at h
  | _ => cases hv

theorem aboveLower_iff_lowerAgrees {inclusive : Bool} {x v : Value}
    (h : cmpHolds (lowerOp inclusive) x v = true) :
    Index.AboveLower (Index.rawOf x) (some (v, inclusive)) ↔ LowerAgrees inclusive x v := by
  rw [cmpHolds_lowerOp_iff] at h
  cases x with
  | int n =>
    cases v with
    | int m =>
      rw [cmpValues, compare_lower_iff] at h
      rw [aboveLower_iff_rank rfl rfl]
      exact iff_of_true h trivial
    | float g => exact aboveLower_iff_rank rfl rfl inclusive
    | _ => simp [cmpValues] at h
  | float f =>
    cases v with
    | int m => exact aboveLower_iff_rank rfl rfl inclusive
    | float g =>
      rw [cmpValues, partialCmp_lower_iff] at h
      rw [aboveLower_iff_rank rfl rfl, LowerAgrees]
      obtain ⟨_, _, hside⟩ := h
      rcases lt_trichotomy g.signedMagnitude f.signedMagnitude with hlt | heq | hgt
      · exact iff_of_true (onSide_of_lt (F64.rank_lt_of_signedMagnitude_lt hlt))
          (F64.not_negZero_posZero_of_lt hlt).1
      · obtain rfl : inclusive = true := by
          cases inclusive with
          | true => rfl
          | false => exact absurd heq (ne_of_lt hside)
        rcases F64.rank_of_signedMagnitude_eq heq.symm with ⟨hs, hr⟩ | ⟨hf, hg, hlt⟩ | ⟨hf, hg, hlt⟩
        · refine iff_of_true (by simp [OnSide, hr]) ?_
          rintro ⟨hf, hg⟩
          rw [hf.1, hg.1] at hs
          cases hs
        · refine iff_of_false ?_ (not_not.mpr ⟨hf, hg⟩)
          simp only [OnSide, ↓reduceIte]
          omega
        · exact iff_of_true (onSide_of_lt hlt) fun h => F64.not_posZero_of_negZero h.1 hf
      · exact absurd hside (by unfold OnSide; split <;> omega)
    | _ => simp [cmpValues] at h
  | string s =>
    cases v with
    | string t => exact iff_of_true ((cmpString_lower_iff inclusive s t).mp h) trivial
    | _ => simp [cmpValues] at h
  | _ => cases v <;> simp [cmpValues] at h

theorem belowUpper_iff_upperAgrees {inclusive : Bool} {x v : Value}
    (h : cmpHolds (upperOp inclusive) x v = true) :
    Index.BelowUpper (Index.rawOf x) (some (v, inclusive)) ↔ UpperAgrees inclusive x v := by
  rw [cmpHolds_upperOp_iff] at h
  cases x with
  | int n =>
    cases v with
    | int m =>
      rw [cmpValues, compare_upper_iff] at h
      rw [belowUpper_iff_rank rfl rfl]
      exact iff_of_true h trivial
    | float g => exact belowUpper_iff_rank rfl rfl inclusive
    | _ => simp [cmpValues] at h
  | float f =>
    cases v with
    | int m => exact belowUpper_iff_rank rfl rfl inclusive
    | float g =>
      rw [cmpValues, partialCmp_upper_iff] at h
      rw [belowUpper_iff_rank rfl rfl, UpperAgrees]
      obtain ⟨_, _, hside⟩ := h
      rcases lt_trichotomy f.signedMagnitude g.signedMagnitude with hlt | heq | hgt
      · refine iff_of_true (onSide_of_lt (F64.rank_lt_of_signedMagnitude_lt hlt)) ?_
        rintro ⟨hf, hg⟩
        exact (F64.not_negZero_posZero_of_lt hlt).1 ⟨hg, hf⟩
      · obtain rfl : inclusive = true := by
          cases inclusive with
          | true => rfl
          | false => exact absurd heq (ne_of_lt hside)
        rcases F64.rank_of_signedMagnitude_eq heq with ⟨hs, hr⟩ | ⟨hf, hg, hlt⟩ | ⟨hf, hg, hlt⟩
        · refine iff_of_true (by simp [OnSide, hr]) ?_
          rintro ⟨hf, hg⟩
          rw [hf.1, hg.1] at hs
          cases hs
        · exact iff_of_true (onSide_of_lt hlt) fun h => F64.not_posZero_of_negZero hf h.1
        · refine iff_of_false ?_ (not_not.mpr ⟨hf, hg⟩)
          simp only [OnSide, ↓reduceIte]
          omega
      · exact absurd hside (by unfold OnSide; split <;> omega)
    | _ => simp [cmpValues] at h
  | string s =>
    cases v with
    | string t => exact iff_of_true ((cmpString_upper_iff inclusive s t).mp h) trivial
    | _ => simp [cmpValues] at h
  | _ => cases v <;> simp [cmpValues] at h

/-! ## Where the index answers a value that does not match -/

/-- A value with the literal's encoding equals the literal if it has its type and is a number. -/
def EqSound : Value → Value → Prop
  | .string _, .string _ => True
  | .int _, .int _ => True
  | .bool _, .bool _ => True
  | .float f, .float _ => f.isNan = false
  | _, _ => False

/-- A value encoded above the bound compares above it: of the bound's type, other than `Bool`, and
not a NaN nor `0` strictly above `-0`. Between an Int and a Float the comparison itself decides. -/
def LowerSound (inclusive : Bool) : Value → Value → Prop
  | .string _, .string _ => True
  | .int _, .int _ => True
  | .float f, .float g =>
    f.isNan = false ∧ g.isNan = false ∧ (inclusive = false → ¬ (f.PosZero ∧ g.NegZero))
  | .int n, .float g => cmpHolds (lowerOp inclusive) (.int n) (.float g) = true
  | .float f, .int n => cmpHolds (lowerOp inclusive) (.float f) (.int n) = true
  | _, _ => False

def UpperSound (inclusive : Bool) : Value → Value → Prop
  | .string _, .string _ => True
  | .int _, .int _ => True
  | .float f, .float g =>
    f.isNan = false ∧ g.isNan = false ∧ (inclusive = false → ¬ (f.NegZero ∧ g.PosZero))
  | .int n, .float g => cmpHolds (upperOp inclusive) (.int n) (.float g) = true
  | .float f, .int n => cmpHolds (upperOp inclusive) (.float f) (.int n) = true
  | _, _ => False

theorem cmpHolds_eq_iff_eqSound {x v : Value} (hx : Index.Indexable x) (hv : Index.Indexable v)
    (h : Index.rawOf x = Index.rawOf v) : cmpHolds .eq x v = true ↔ EqSound x v := by
  rw [cmpHolds]
  cases x with
  | string s =>
    cases v with
    | string t =>
      obtain rfl : s = t := asBytes_injective h
      simp [Value.eq, EqSound]
    | _ => simp [Value.eq, EqSound]
  | int n =>
    cases v with
    | int m =>
      obtain rfl : n = m := Int64.toInt_inj.mp ((Index.rawOf_eq_iff_rank rfl rfl).mp h)
      simp [Value.eq, EqSound]
    | _ => simp [Value.eq, EqSound]
  | bool a =>
    cases v with
    | bool b =>
      have hab := (Index.SameType.rawOf_eq_iff (.bool a b)).mp h
      cases hab
      simp [Value.eq, EqSound]
    | _ => simp [Value.eq, EqSound]
  | float f =>
    cases v with
    | float g =>
      obtain rfl : f = g := F64.rank_injective ((Index.rawOf_eq_iff_rank rfl rfl).mp h)
      simp [Value.eq, EqSound, F64.eq_iff]
    | _ => simp [Value.eq, EqSound]
  | _ => cases hx

/-- The ranks are on the side the bound asks for: so are the values, but for the two zeros. -/
theorem onSide_signedMagnitude_iff {inclusive : Bool} {f g : F64} (h : OnSide inclusive g.rank f.rank) :
    OnSide inclusive g.signedMagnitude f.signedMagnitude ↔
      (inclusive = false → ¬ (f.PosZero ∧ g.NegZero)) := by
  rcases lt_trichotomy g.signedMagnitude f.signedMagnitude with hlt | heq | hgt
  · exact iff_of_true (onSide_of_lt hlt) fun _ => (F64.not_negZero_posZero_of_lt hlt).2
  · cases inclusive with
    | true => simp [OnSide, heq]
    | false =>
      have hrank : g.rank < f.rank := h
      have hzeros : f.PosZero ∧ g.NegZero := by
        rcases F64.rank_of_signedMagnitude_eq heq with ⟨_, hr⟩ | ⟨hg, hf, _⟩ | ⟨_, _, hlt⟩
        · omega
        · exact ⟨hf, hg⟩
        · omega
      simp [OnSide, heq, hzeros]
  · have hrank := F64.rank_lt_of_signedMagnitude_lt hgt
    exact absurd h (by unfold OnSide; split <;> omega)

theorem cmpHolds_lower_iff_lowerSound {inclusive : Bool} {x v : Value} (hx : Index.Indexable x)
    (hv : Index.Indexable v) (h : Index.AboveLower (Index.rawOf x) (some (v, inclusive))) :
    cmpHolds (lowerOp inclusive) x v = true ↔ LowerSound inclusive x v := by
  cases x with
  | string s =>
    cases v with
    | string t =>
      rw [cmpHolds_lowerOp_iff, cmpValues, cmpString_lower_iff]
      exact iff_of_true h trivial
    | _ => simp [cmpHolds_lowerOp_iff, cmpValues, LowerSound]
  | int n =>
    cases v with
    | int m =>
      rw [cmpHolds_lowerOp_iff, cmpValues, compare_lower_iff]
      exact iff_of_true ((aboveLower_iff_rank rfl rfl inclusive).mp h) trivial
    | float g => exact Iff.rfl
    | _ => simp [cmpHolds_lowerOp_iff, cmpValues, LowerSound]
  | float f =>
    cases v with
    | int m => exact Iff.rfl
    | float g =>
      have hside := (aboveLower_iff_rank rfl rfl inclusive).mp h
      rw [cmpHolds_lowerOp_iff, cmpValues, partialCmp_lower_iff, onSide_signedMagnitude_iff hside,
        LowerSound]
    | _ => simp [cmpHolds_lowerOp_iff, cmpValues, LowerSound]
  | bool a => cases v <;> simp [cmpHolds_lowerOp_iff, cmpValues, LowerSound]
  | _ => cases hx

theorem cmpHolds_upper_iff_upperSound {inclusive : Bool} {x v : Value} (hx : Index.Indexable x)
    (hv : Index.Indexable v) (h : Index.BelowUpper (Index.rawOf x) (some (v, inclusive))) :
    cmpHolds (upperOp inclusive) x v = true ↔ UpperSound inclusive x v := by
  cases x with
  | string s =>
    cases v with
    | string t =>
      rw [cmpHolds_upperOp_iff, cmpValues, cmpString_upper_iff]
      exact iff_of_true h trivial
    | _ => simp [cmpHolds_upperOp_iff, cmpValues, UpperSound]
  | int n =>
    cases v with
    | int m =>
      rw [cmpHolds_upperOp_iff, cmpValues, compare_upper_iff]
      exact iff_of_true ((belowUpper_iff_rank rfl rfl inclusive).mp h) trivial
    | float g => exact Iff.rfl
    | _ => simp [cmpHolds_upperOp_iff, cmpValues, UpperSound]
  | float f =>
    cases v with
    | int m => exact Iff.rfl
    | float g =>
      have hside := (belowUpper_iff_rank rfl rfl inclusive).mp h
      rw [cmpHolds_upperOp_iff, cmpValues, partialCmp_upper_iff, onSide_signedMagnitude_iff hside,
        UpperSound]
      tauto
    | _ => simp [cmpHolds_upperOp_iff, cmpValues, UpperSound]
  | bool a => cases v <;> simp [cmpHolds_upperOp_iff, cmpValues, UpperSound]
  | _ => cases hx

end Dllb
